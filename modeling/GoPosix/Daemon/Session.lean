import GoPosix.Common.Security

/-!
# Sessions

A session starts in `/` with `/` as its base directory, adopts the first other directory it is sent
to as its base, and from then on is kept below that. The base directory is adopted as it was
written, while the directories that follow are resolved before they are compared with it.
`Session.Confined` speaks of the real paths of both; it is kept by every operation
(`apply_confined`), and so it holds after any sequence of them (`run_confined`).
-/

namespace GoPosix.Daemon

open Bytes Vfs Filepath Common List

/-! ## Definitions -/

abbrev Env := List (Bytes × Bytes)

structure Session where
  id : Bytes
  cwd : Bytes
  baseDir : Bytes
  env : Env
  lastActive : Int
  deriving DecidableEq, Repr

structure SessionManager where
  sessions : AList fun _ : Bytes => Session
  ttl : Int
  totalSessionsCreated : Int

open SessionManager

def newSessionManager (ttl : Int) : SessionManager := ⟨∅, ttl, 0⟩

def hexDigit (n : UInt8) : UInt8 := if n < 10 then 48 + n else 87 + n

def hexEncode (b : Bytes) : Bytes :=
  b.flatMap fun c : UInt8 => [hexDigit (c >>> 4), hexDigit (c &&& 15)]

namespace SessionManager

def session? (sm : SessionManager) (id : Bytes) : Option Session := sm.sessions.lookup id

def store (sm : SessionManager) (id : Bytes) (s : Session) : SessionManager :=
  { sm with sessions := sm.sessions.insert id s }

def create (random : Bytes) (now : Int) (sm : SessionManager) : Session × SessionManager :=
  let s : Session :=
    { id := hexEncode random, cwd := str "/", baseDir := str "/", env := [], lastActive := now }
  (s, { sm.store s.id s with totalSessionsCreated := sm.totalSessionsCreated + 1 })

def get (id : Bytes) (now : Int) (sm : SessionManager) : Option Session × SessionManager :=
  match sm.session? id with
  | none => (none, sm)
  | some s =>
    let s := { s with lastActive := now }
    (some s, sm.store id s)

end SessionManager

/-- What `SetCwd` makes of a session, unless it refuses. -/
def Session.setCwd (fs : Fs) (wd path : Bytes) (now : Int) (s : Session) : Option Session :=
  let base := if s.baseDir ≠ [] then s.baseDir else str "/"
  match securePath fs wd path base with
  | .error _ => none
  | .ok secure =>
    if fs.isDir [] secure then
      some { s with
        cwd := secure
        lastActive := now
        baseDir := if s.baseDir = str "/" ∧ secure ≠ str "/" then secure else s.baseDir }
    else none

namespace SessionManager

def setCwd (fs : Fs) (wd id path : Bytes) (now : Int) (sm : SessionManager) :
    Bool × SessionManager :=
  match sm.session? id with
  | none => (false, sm)
  | some s => match s.setCwd fs wd path now with
    | none => (false, sm)
    | some s => (true, sm.store id s)

def destroy (id : Bytes) (sm : SessionManager) : Bool × SessionManager :=
  match sm.session? id with
  | none => (false, sm)
  | some _ => (true, { sm with sessions := sm.sessions.erase id })

def list (sm : SessionManager) : List Session := sm.sessions.entries.map Sigma.snd

/-- One turn of `cleanupLoop`: sessions that have not been used for longer than `ttl` go. -/
def cleanup (now : Int) (sm : SessionManager) : SessionManager :=
  { sm with
    sessions := (sm.list.filter fun s => now - s.lastActive > sm.ttl).foldl
      (fun sessions s => sessions.erase s.id) sm.sessions }

end SessionManager

/-- What happens to the sessions. The directory in which a script ends becomes that of its session
(`exec`), unless the session or the directory has no name. -/
inductive Op where
  | create (random : Bytes) (now : Int)
  | get (id : Bytes) (now : Int)
  | setCwd (id path : Bytes) (now : Int)
  | exec (id cwd : Bytes) (now : Int)
  | destroy (id : Bytes)
  | cleanup (now : Int)
  deriving DecidableEq, Repr

section

variable (fs : Fs) (wd : Bytes)

def Op.apply (sm : SessionManager) : Op → SessionManager
  | .create random now => (sm.create random now).2
  | .get id now => (sm.get id now).2
  | .setCwd id path now => (sm.setCwd fs wd id path now).2
  | .exec id cwd now => if id ≠ [] ∧ cwd ≠ [] then (sm.setCwd fs wd id cwd now).2 else sm
  | .destroy id => (sm.destroy id).2
  | .cleanup now => sm.cleanup now

def run (sm : SessionManager) (ops : List Op) : SessionManager := ops.foldl (Op.apply fs wd) sm

end

def Op.session? : Op → Option Bytes
  | .create random _ => some (hexEncode random)
  | .get id _ | .setCwd id _ _ | .exec id _ _ | .destroy id => some id
  | .cleanup _ => none

/-- The operation starts a session with the given id. -/
def Op.Creates (id : Bytes) : Op → Prop
  | .create random _ => hexEncode random = id
  | _ => False

/-! ## One session -/

section

variable {fs : Fs} {wd path : Bytes} {s s' : Session}

/-- **The directory of a session is below its base directory**, as they really are. -/
structure Session.Confined (fs : Fs) (s : Session) : Prop where
  base : ∃ bs, (∀ c ∈ bs, IsName c) ∧ s.baseDir = absolute bs
  real : ∃ b c, fs.realPath s.baseDir = some b ∧ fs.realPath s.cwd = some c ∧ b <+: c

theorem Session.Confined.root (fs : Fs) (hc : s.cwd = str "/")
    (hb : s.baseDir = str "/") : s.Confined fs where
  base := ⟨[], by simp, hb⟩
  real := by
    rw [hc, hb]
    exact ⟨[], [], (@Real.nil fs.shape?).realPath, Real.nil.realPath, prefix_rfl⟩

theorem Session.setCwd_eq_some (h : s.setCwd fs wd path now = some s') :
    ∃ se, securePath fs wd path (if s.baseDir ≠ [] then s.baseDir else str "/") = .ok se ∧
      fs.isDir [] se = true ∧
      s' = { s with
        cwd := se, lastActive := now,
        baseDir := if s.baseDir = str "/" ∧ se ≠ str "/" then se else s.baseDir } := by
  simp only [Session.setCwd] at h
  cases hok : securePath fs wd path (if s.baseDir ≠ [] then s.baseDir else str "/") with
  | error e =>
    rw [hok] at h
    cases h
  | ok se =>
    rw [hok] at h
    simp only at h
    by_cases hd : fs.isDir [] se = true
    · rw [if_pos hd] at h
      exact ⟨se, rfl, hd, (Option.some.inj h).symm⟩
    · rw [if_neg hd] at h
      cases h

theorem Session.setCwd_baseDir (hbase : s.baseDir ≠ str "/")
    (h : s.setCwd fs wd path now = some s') :
    s'.baseDir = s.baseDir := by
  obtain ⟨se, -, -, rfl⟩ := Session.setCwd_eq_some h
  exact if_neg fun hb => hbase hb.1

/-- **`SetCwd` keeps a session below its base directory.** -/
theorem Session.Confined.setCwd (hs : s.Confined fs) (h : s.setCwd fs wd path now = some s') :
    s'.Confined fs := by
  obtain ⟨bs, hbs, hbase⟩ := hs.base
  obtain ⟨b, c, hb, hc, hp⟩ := hs.real
  have hne : s.baseDir ≠ [] := by
    rw [hbase]
    exact cons_ne_nil _ _
  obtain ⟨se, hok, hd, rfl⟩ := Session.setCwd_eq_some h
  rw [if_pos hne] at hok
  have heq : absBase wd s.baseDir = absolute bs := by
    rw [hbase, absBase_of_absolute hbs]
  obtain ⟨xs, hxs, ht⟩ := absTarget_absolute hbs heq path
  obtain ⟨ℓ, hr, -⟩ := Fs.isDir_eq_true hd
  rw [hbase] at hb
  rcases eq_or_ne b [] with rfl | hbn
  · -- the base directory is really the root, and every path is accepted as it is
    rw [securePath_root hbs heq hb, ht] at hok
    cases hok
    have hreal : fs.realPath (absolute xs) = some ℓ := Fs.realPath_of_resolve hxs hr
    by_cases had : s.baseDir = str "/" ∧ absolute xs ≠ str "/"
    · simp only [if_pos had]
      exact ⟨⟨xs, hxs, rfl⟩, ℓ, ℓ, hreal, hreal, prefix_rfl⟩
    · simp only [if_neg had]
      refine ⟨⟨bs, hbs, hbase⟩, [], ℓ, ?_, hreal, nil_prefix⟩
      exact hbase ▸ hb
  · -- the base directory was adopted before, and the path is resolved and compared with it
    obtain ⟨d, zs, hrs, rfl, hin⟩ := securePath_ok hbs heq hb hbn hxs ht hok
    rw [hrs.resolve hxs] at hr
    obtain rfl : zs = [] := by
      by_contra hzs
      have hl := hrs.left hxs hzs hr
      exact hzs (eq_nil_of_length_eq_zero (Nat.le_zero.mp hl))
    rw [append_nil] at hin ⊢
    have hroot : s.baseDir ≠ str "/" := by
      rw [hbase]
      intro hslash
      obtain rfl := absolute_inj hbs (by simp : ∀ c ∈ ([] : List Name), IsName c) hslash
      exact hbn (Option.some.inj hb).symm
    have had : ¬ (s.baseDir = str "/" ∧ absolute d ≠ str "/") := fun hb => hroot hb.1
    simp only [if_neg had]
    exact ⟨⟨bs, hbs, hbase⟩, b, d, hbase ▸ hb, (hrs.real hxs).realPath, hin⟩

end

/-! ## All sessions -/

section

variable {fs : Fs} {wd : Bytes} {sm : SessionManager} {id id' : Bytes} {s s' : Session} {op : Op}

theorem session?_store :
    (sm.store id s).session? id' = if id' = id then some s else sm.session? id' := by
  unfold session? store
  split
  · next h => rw [h, AList.lookup_insert]
  · next h => exact AList.lookup_insert_ne h

theorem session?_erase {se : AList fun _ : Bytes => Session}
    (h : (se.erase id').lookup id = some s) : se.lookup id = some s := by
  rcases eq_or_ne id id' with rfl | hne
  · rw [AList.lookup_erase] at h
    cases h
  · rwa [AList.lookup_erase_ne hne] at h

theorem session?_cleanup (h : (sm.cleanup now).session? id = some s) : sm.session? id = some s := by
  unfold session? cleanup at *
  generalize (sm.list.filter fun s => decide (now - s.lastActive > sm.ttl)) = o at h
  induction o using List.reverseRecOn with
  | nil => exact h
  | append_singleton o s₀ ih =>
    rw [foldl_append] at h
    exact ih (session?_erase h)

theorem session?_setCwd (h : (sm.setCwd fs wd id' path now).2.session? id = some s') :
    sm.session? id = some s' ∨ id = id' ∧ ∃ s, sm.session? id = some s ∧
      s.setCwd fs wd path now = some s' := by
  unfold setCwd at h
  split at h
  · exact .inl h
  next s hs =>
  split at h
  · exact .inl h
  next t ht =>
  rw [session?_store] at h
  split_ifs at h with hid
  · cases h
    exact .inr ⟨hid, s, hid ▸ hs, ht⟩
  · exact .inl h

/-- **What an operation leaves of a session**: it is as it was, up to its last use, or new, or sent
to a directory. -/
theorem session?_apply (h : (op.apply fs wd sm).session? id = some s') :
    (∃ s, sm.session? id = some s ∧ ∃ n, s' = { s with lastActive := n }) ∨
      (op.Creates id ∧ s'.cwd = str "/" ∧ s'.baseDir = str "/") ∨
      ∃ s path n, op.session? = some id ∧ sm.session? id = some s ∧
          s.setCwd fs wd path n = some s' := by
  cases op with
  | create r n =>
    have h' : (sm.store (hexEncode r) ⟨hexEncode r, str "/", str "/", [], n⟩).session? id =
      some s' := h
    rw [session?_store] at h'
    split_ifs at h' with hid
    · cases h'
      exact .inr (.inl ⟨hid.symm, rfl, rfl⟩)
    · exact .inl ⟨s', h', s'.lastActive, rfl⟩
  | get id' n =>
    rw [Op.apply, SessionManager.get] at h
    split at h
    · exact .inl ⟨s', h, s'.lastActive, rfl⟩
    next s hs =>
    rw [session?_store] at h
    split_ifs at h with hid
    · cases h
      exact .inl ⟨s, hid ▸ hs, n, rfl⟩
    · exact .inl ⟨s', h, s'.lastActive, rfl⟩
  | setCwd id' path n =>
    rcases session?_setCwd h with h | ⟨rfl, s, hs, hsession⟩
    · exact .inl ⟨s', h, s'.lastActive, rfl⟩
    · exact .inr (.inr ⟨s, path, n, rfl, hs, hsession⟩)
  | exec id' c n =>
    rw [Op.apply] at h
    split_ifs at h
    · rcases session?_setCwd h with h | ⟨rfl, s, hs, hsession⟩
      · exact .inl ⟨s', h, s'.lastActive, rfl⟩
      · exact .inr (.inr ⟨s, c, n, rfl, hs, hsession⟩)
    · exact .inl ⟨s', h, s'.lastActive, rfl⟩
  | destroy id' =>
    rw [Op.apply, destroy] at h
    split at h
    · exact .inl ⟨s', h, s'.lastActive, rfl⟩
    · exact .inl ⟨s', session?_erase h, s'.lastActive, rfl⟩
  | cleanup n => exact .inl ⟨s', session?_cleanup h, s'.lastActive, rfl⟩

def SessionManager.Confined (fs : Fs) (sm : SessionManager) : Prop :=
  ∀ id s, sm.session? id = some s → s.Confined fs

theorem apply_confined (hsmall : sm.Confined fs) (op : Op) : (op.apply fs wd sm).Confined fs := by
  intro id s' h
  rcases session?_apply h with ⟨s, hs, now, rfl⟩ | ⟨-, hc, hbase⟩ | ⟨s, path, now, -, hs, hsession⟩
  · obtain ⟨hb, hr⟩ := hsmall id s hs
    exact ⟨hb, hr⟩
  · exact Session.Confined.root fs hc hbase
  · exact (hsmall id s hs).setCwd hsession

theorem run_confined (o : List Op) (hsmall : sm.Confined fs) : (run fs wd sm o).Confined fs := by
  induction o generalizing sm with
  | nil => exact hsmall
  | cons op _ ih => exact ih (apply_confined hsmall op)

theorem newSessionManager_confined (fs : Fs) (t : Int) : (newSessionManager t).Confined fs := by
  intro id s h
  cases h

/-- An operation on one session leaves the others as they are. -/
theorem apply_session?_of_ne (hop : op.session? = some id') (hne : id ≠ id') :
    (op.apply fs wd sm).session? id = sm.session? id := by
  have hs : ∀ path n, (sm.setCwd fs wd id' path n).2.session? id = sm.session? id := by
    intro path n
    unfold setCwd
    split
    · rfl
    · split
      · rfl
      · rw [session?_store, if_neg hne]
  cases op with
  | create r n =>
    cases hop
    show (sm.store (hexEncode r) _).session? id = _
    rw [session?_store, if_neg hne]
  | get _ n =>
    cases hop
    rw [Op.apply, SessionManager.get]
    split
    · rfl
    · rw [session?_store, if_neg hne]
  | setCwd _ path n =>
    cases hop
    exact hs path n
  | exec _ c n =>
    cases hop
    rw [Op.apply]
    split_ifs
    · exact hs c n
    · rfl
  | destroy _ =>
    cases hop
    rw [Op.apply, destroy]
    split
    · rfl
    · exact AList.lookup_erase_ne hne
  | cleanup n => cases hop

/-- The session, if there is one, has this base directory. -/
def SessionManager.Based (id base : Bytes) (sm : SessionManager) : Prop :=
  ∀ s, sm.session? id = some s → s.baseDir = base

theorem apply_based {base : Bytes} (hb : base ≠ str "/") (hsmall : sm.Based id base)
    (hop : ¬ op.Creates id) :
    (op.apply fs wd sm).Based id base := by
  intro s' h
  rcases session?_apply h with ⟨t, ht, now, rfl⟩ | ⟨hc, -, -⟩ | ⟨t, path, now, -, ht, hs⟩
  · exact hsmall t ht
  · exact absurd hc hop
  · exact (Session.setCwd_baseDir (hsmall t ht ▸ hb) hs).trans (hsmall t ht)

/-- **The base directory never changes again** while the session lives. -/
theorem run_based {base : Bytes} (hb : base ≠ str "/") (hsmall : sm.Based id base)
    (ho : ∀ op ∈ o, ¬ op.Creates id) : (run fs wd sm o).Based id base := by
  induction o generalizing sm with
  | nil => exact hsmall
  | cons op o ih =>
    rw [forall_mem_cons] at ho
    exact ih (apply_based hb hsmall ho.1) ho.2

end

/-- **Sessions are confined and do not meet.** After any operations, the directory of a session is
really its base directory or below it; a base directory other than `/` stays while the session
lives; and an operation on one session leaves every other as it is. -/
theorem sessions_confined (fs : Fs) (wd : Bytes) (ttl : Int) (ops : List Op) :
    (∀ id s, (run fs wd (newSessionManager ttl) ops).session? id = some s →
      ∃ b c, fs.realPath s.baseDir = some b ∧ fs.realPath s.cwd = some c ∧ b <+: c) ∧
    (∀ id s later s', (run fs wd (newSessionManager ttl) ops).session? id = some s →
      s.baseDir ≠ str "/" → (∀ op ∈ later, ¬ op.Creates id) →
      (run fs wd (run fs wd (newSessionManager ttl) ops) later).session? id = some s' →
        s'.baseDir = s.baseDir) ∧
    ∀ (op : Op) id id', op.session? = some id' → id ≠ id' →
      (op.apply fs wd (run fs wd (newSessionManager ttl) ops)).session? id =
        (run fs wd (newSessionManager ttl) ops).session? id := by
  refine ⟨?_, ?_, ?_⟩
  · intro id s hs
    exact (run_confined ops (newSessionManager_confined fs ttl) id s hs).real
  · intro id s later s' hs hb hl h
    refine run_based hb (fun t ht => ?_) hl s' h
    rw [hs] at ht
    cases ht
    rfl
  · intro op id id' hop hne
    exact apply_session?_of_ne hop hne

/-- A session that adopts `/b` as its base directory, and the next path that is refused. -/
theorem sessions_confined_adopted : ((run danglingFs (str "/") (newSessionManager 60)
      [.create [1] 0, .setCwd (str "01") (str "/b") 1]).session? (str "01")).map Session.baseDir =
        some (str "/b") ∧
    ∀ s', (run danglingFs (str "/") (run danglingFs (str "/") (newSessionManager 60)
      [.create [1] 0, .setCwd (str "01") (str "/b") 1]) [.setCwd (str "01") (str "/") 2]).session?
        (str "01") = some s' → s'.baseDir = str "/b" := by
  refine ⟨by decide +kernel, fun s' h => ?_⟩
  exact (sessions_confined danglingFs (str "/") 60
    [.create [1] 0, .setCwd (str "01") (str "/b") 1]).2.1 (str "01")
    ⟨str "01", str "/b", str "/b", [], 1⟩ [.setCwd (str "01") (str "/") 2] s' (by decide +kernel)
    (by decide) (by simp [Op.Creates]) h

end GoPosix.Daemon
