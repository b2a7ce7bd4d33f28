import GoPosix.Lib.Filepath

/-!
# Real paths

A location is *real* if no symbolic link is on the way to it. A lookup that follows links from a
real location ends at one. `filepath.EvalSymlinks` differs from the lookup of the kernel in its
limit on links only, and a limit does not matter to a lookup that stays within it (`walk_of_le`).
-/

namespace Vfs

open Bytes Filepath List

section Walk

variable {look : Loc → Option Shape} {follow : Bool}

/-! ## The limit on links -/

/-- A walk that does not run out of links goes the same way with one more. -/
theorem walk_succ_of
    (hb : ∀ {cur : Loc} {xs : List Name}, behind look follow n cur xs ≠ .error .eloop →
      behind look follow (n + 1) cur xs = behind look follow n cur xs) (xs : List Name) :
    ∀ {cur : Loc}, walk look follow n cur xs ≠ .error .eloop →
      walk look follow (n + 1) cur xs = walk look follow n cur xs := by
  induction xs with
  | nil => exact fun _ => by rw [walk_nil, walk_nil]
  | cons c rest ih =>
    intro cur h
    cases hcur : look cur with
    | none => rw [walk_cons, walk_cons, hcur]
    | some s =>
      cases s with
      | leaf => rw [walk_cons, walk_cons, hcur]
      | link t => rw [walk_cons, walk_cons, hcur]
      | dir =>
        by_cases hs : c = [] ∨ c = dot
        · rw [walk_stay hcur hs] at h ⊢
          rw [walk_stay hcur hs, ih h]
        by_cases hup : c = dotdot
        · subst hup
          rw [walk_up hcur] at h ⊢
          rw [walk_up hcur, ih h]
        have hc : Plain c := ⟨fun e => hs (.inl e), fun e => hs (.inr e), hup⟩
        rw [walk_plain hcur hc] at h ⊢
        rw [walk_plain hcur hc]
        cases hlook : look (cur ++ [c]) with
        | none => rfl
        | some s =>
          rw [hlook] at h
          cases s with
          | dir => exact ih h
          | leaf => exact ih h
          | link t =>
            by_cases hl : rest = [] ∧ follow = false
            · simp only [if_pos hl]
            · simp only [if_neg hl] at h ⊢
              exact hb h

theorem walk_succ (n : Nat) :
    ∀ {c : Loc} {xs : List Name}, walk look follow n c xs ≠ .error .eloop →
      walk look follow (n + 1) c xs = walk look follow n c xs := by
  induction n with
  | zero => exact @fun c xs => walk_succ_of (fun h => absurd rfl h) xs
  | succ n ih => exact @fun c xs => walk_succ_of (n := n + 1) (fun h => ih h) xs

/-- **The limit does not matter** to a lookup that stays within it. -/
theorem walk_of_le (hnm : n ≤ m) (h : walk look follow n cur xs ≠ .error .eloop) :
    walk look follow m cur xs = walk look follow n cur xs := by
  induction m, hnm using Nat.le_induction with
  | base => rfl
  | succ m _ ih => rw [walk_succ m (ih ▸ h), ih]

theorem walk_agree (hn : walk look follow n cur xs ≠ .error .eloop)
    (hm : walk look follow m cur xs ≠ .error .eloop) :
    walk look follow n cur xs = walk look follow m cur xs := by
  rw [← walk_of_le (Nat.le_max_left n m) hn, walk_of_le (Nat.le_max_right n m) hm]

/-! ## Real locations -/

/-- No symbolic link is on the way to `ℓ`, and every name on it is one. -/
def Real (look : Loc → Option Shape) (ℓ : Loc) : Prop :=
  ∀ d c, d ++ [c] <+: ℓ → look d = some .dir ∧ IsName c ∧ ∃ s, look (d ++ [c]) = some s ∧
    ∀ t, s ≠ .link t

theorem Real.nil : Real look [] := fun _ _ h => absurd (prefix_nil.mp h) (by simp)

theorem Real.of_prefix (h : Real look ℓ) (hp : ℓ' <+: ℓ) : Real look ℓ' :=
  fun d c hd => h d c (hd.trans hp)

theorem Real.snoc (h : Real look ℓ) (hdir : look ℓ = some .dir) (hc : IsName c)
    (hs : look (ℓ ++ [c]) = some s) (hl : ∀ t, s ≠ .link t) : Real look (ℓ ++ [c]) := by
  intro d e hd
  rcases prefix_concat_iff.mp hd with heq | hd
  · obtain ⟨rfl, he⟩ := append_inj' heq rfl
    obtain rfl := singleton_inj.mp he
    exact ⟨hdir, hc, s, hs, hl⟩
  · exact h d e hd

theorem Real.isName (h : Real look ℓ) : ∀ c ∈ ℓ, IsName c := by
  intro c hc
  obtain ⟨d, rest, rfl⟩ := append_of_mem hc
  exact (h d c ⟨rest, by simp⟩).2.1

theorem Real.exists_shape (h : Real look ℓ) (hr : look [] = some .dir) :
    ∃ s, look ℓ = some s ∧ ∀ t, s ≠ .link t := by
  rcases eq_nil_or_concat' ℓ with rfl | ⟨d, c, rfl⟩
  · exact ⟨.dir, hr, by simp⟩
  · exact (h d c prefix_rfl).2.2

/-- **A real location leads to itself.** -/
theorem Real.walk_append (ys : List Name) : ∀ (rest d : Loc), Real look (d ++ rest) →
    walk look follow n d (rest ++ ys) = walk look follow n (d ++ rest) ys := by
  intro rest
  induction rest with
  | nil => exact fun d _ => by rw [append_nil, nil_append]
  | cons c rest ih =>
    intro d h
    obtain ⟨hd, hc, s, hs, hl⟩ := h d c ⟨rest, by simp⟩
    rw [cons_append, walk_down hd hc.1 hs hl, ih (d ++ [c]) (by simpa using h)]
    simp

theorem Real.walk_self (h : Real look ℓ) : walk look follow n [] ℓ = .ok (ℓ, []) := by
  have := @Real.walk_append look follow n [] ℓ [] h
  rwa [append_nil, walk_nil] at this

/-- With all links followed, one arrives at a real path. -/
theorem Lookup.real (h : Lookup look follow n cur xs ℓ r) (hf : follow = true)
    (hcur : Real look cur)
    (hxs : ∀ x ∈ xs, slash ∉ x) : Real look ℓ := by
  induction h with
  | nil => exact hcur
  | stay _ _ _ ih => exact ih hcur fun x hx => hxs x (mem_cons_of_mem _ hx)
  | up _ _ ih =>
    refine ih (hcur.of_prefix ?_) fun x hx => hxs x (mem_cons_of_mem _ hx)
    exact dropLast_prefix _
  | missing => exact hcur
  | last _ _ _ hfalse =>
    rw [hf] at hfalse
    cases hfalse
  | @link _ cur _ c rest _ t _ _ _ _ _ ih =>
    apply ih
    · unfold start
      split
      · exact Real.nil
      · exact hcur
    · intro x hx
      rcases mem_append.mp hx with hx | hx
      · exact slash_notMem_of_mem_comps hx
      · exact hxs x (mem_cons_of_mem _ hx)
  | down hd hc hsome hs _ ih =>
    apply ih
    · exact hcur.snoc hd ⟨hc, hxs _ mem_cons_self⟩ hsome hs
    · exact fun x hx => hxs x (mem_cons_of_mem _ hx)

/-! ## What does not exist -/

/-- The lookup ends before the path does, because something is missing. -/
def NotExist : Reached → Prop
  | .error e => e = .enoent
  | .ok (_, r) => r ≠ []

theorem NotExist.ne_eloop (h : NotExist res) : res ≠ .error .eloop := by
  rintro rfl
  cases h

/-- **The first name that is missing** behind a real location is not there at all, or it is a
symbolic link that leads nowhere. -/
theorem Real.missing (h : Real look ℓ) (hr : look [] = some .dir) (hc : Plain c)
    (hm : NotExist (walk look true n ℓ [c])) :
    look ℓ = some .dir ∧
      (look (ℓ ++ [c]) = none ∨ ∃ t k, n = k + 1 ∧ look (ℓ ++ [c]) = some (.link t) ∧
        NotExist (walk look true k (start ℓ t) (comps t))) := by
  obtain ⟨s, hs, hl⟩ := h.exists_shape hr
  have hd : look ℓ = some .dir := by
    cases s with
    | dir => exact hs
    | link t => exact absurd rfl (hl t)
    | leaf =>
      rw [walk_cons, hs] at hm
      cases hm
  refine ⟨hd, ?_⟩
  rw [walk_plain hd hc] at hm
  cases hlook : look (ℓ ++ [c]) with
  | none => exact .inl rfl
  | some s =>
    rw [hlook] at hm
    cases s with
    | dir =>
      simp only [walk_nil] at hm
      exact absurd rfl hm
    | leaf =>
      simp only [walk_nil] at hm
      exact absurd rfl hm
    | link t =>
      simp only [append_nil] at hm
      cases n with
      | zero => cases hm
      | succ k => exact .inr ⟨t, k, rfl, rfl, hm⟩

/-- A lookup that goes on behind something missing ends before its path does. -/
theorem NotExist.append (h : NotExist (walk look true n cur xs))
    (hok : walk look true m cur (xs ++ ys) = .ok (ℓ, r)) : ys.length < r.length := by
  rcases eq_or_ne ys [] with rfl | hys
  · rw [append_nil] at hok
    have hne : walk look true m cur xs ≠ .error .eloop := by
      rw [hok]
      simp
    rw [walk_agree h.ne_eloop hne, hok] at h
    exact length_pos_of_ne_nil h
  · have hl := walk_eq_ok.mp hok
    obtain ⟨d, left, hf⟩ := hl.first hys
    have hne : walk look true m cur xs ≠ .error .eloop := by
      rw [hf.walk_eq]
      simp
    rw [walk_agree h.ne_eloop hne, hf.walk_eq] at h
    obtain ⟨b, rest, rfl⟩ := exists_cons_of_ne_nil h
    obtain ⟨-, rfl⟩ := hl.det (hf.append_stopped (.inl hys))
    rw [cons_append, length_cons, length_append]
    omega

end Walk

/-! ## `filepath.EvalSymlinks` -/

/-- The number of symbolic links `filepath.EvalSymlinks` follows. -/
def maxEvalLinks : Nat := 255

/-- Where the names of an absolute path lead, for `filepath.EvalSymlinks`. -/
def Fs.eval (fs : Fs) (names : List Name) : Reached := walk fs.shape? true maxEvalLinks [] names

/-- `filepath.EvalSymlinks` of an absolute path. -/
def evalSymlinks (fs : Fs) (p : Bytes) : Except Errno Bytes :=
  match fs.eval (comps p) with
  | .error e => .error e
  | .ok (ℓ, []) => .ok (absolute ℓ)
  | .ok (_, _ :: _) => .error .enoent

def Fs.realPath (fs : Fs) (p : Bytes) : Option Loc :=
  match fs.eval (comps p) with
  | .ok (ℓ, []) => some ℓ
  | _ => none

/-- The place of the object that opening `p` touches, a new one included: the last symbolic link is
followed. -/
def Fs.touches (fs : Fs) (cwd : Loc) (p : Bytes) : Option Loc :=
  match fs.resolve cwd true p with
  | .ok (ℓ, []) => some ℓ
  | .ok (d, [c]) => some (d ++ [c])
  | _ => none

/-- `os.Stat` finds a directory at `p`. -/
def Fs.isDir (fs : Fs) (cwd : Loc) (p : Bytes) : Bool :=
  match fs.resolve cwd true p with
  | .ok (ℓ, []) => fs.shape? ℓ = some .dir
  | _ => false

section

variable {fs : Fs} {names : List Name}

theorem Fs.isDir_eq_true (h : fs.isDir cwd p = true) :
    ∃ ℓ, fs.resolve cwd true p = .ok (ℓ, []) ∧ fs.shape? ℓ = some .dir := by
  unfold Fs.isDir at h
  split at h
  · next ℓ hr => exact ⟨ℓ, hr, of_decide_eq_true h⟩
  · cases h

theorem Fs.shape?_root (fs : Fs) : fs.shape? [] = some .dir := by
  rfl

theorem walk_absolute (h : ∀ c ∈ names, IsName c) :
    walk fs.shape? follow n [] (comps (absolute names)) = walk fs.shape? follow n [] names := by
  rcases eq_or_ne names [] with rfl | hne
  · show walk fs.shape? follow n [] [[], []] = _
    rw [walk_stay fs.shape?_root (.inl rfl), walk_stay fs.shape?_root (.inl rfl)]
  · rw [comps_absolute hne h, walk_stay fs.shape?_root (.inl rfl)]

theorem Fs.resolve_absolute (cwd : Loc) (h : ∀ c ∈ names, IsName c) :
    fs.resolve cwd follow (absolute names) = walk fs.shape? follow maxLinks [] names := by
  rw [← walk_absolute h]
  rfl

theorem Fs.eval_absolute (h : ∀ c ∈ names, IsName c) :
    fs.eval (comps (absolute names)) = fs.eval names := walk_absolute h

theorem Fs.realPath_absolute (h : ∀ c ∈ names, IsName c) :
    fs.realPath (absolute names) = some ℓ ↔ fs.eval names = .ok (ℓ, []) := by
  rw [Fs.realPath, Fs.eval_absolute h]
  rcases fs.eval names with e | ⟨ℓ', _ | ⟨c, r⟩⟩
  · simp
  · simp
  · simp

theorem Fs.eval_real (h : ∀ c ∈ names, IsName c) (hok : fs.eval names = .ok (ℓ, r)) :
    Real fs.shape? ℓ := (walk_eq_ok.mp hok).real rfl Real.nil fun c hc => (h c hc).2

theorem Fs.realPath_of_resolve (h : ∀ c ∈ names, IsName c)
    (hok : fs.resolve cwd true (absolute names) = .ok (ℓ, [])) :
    fs.realPath (absolute names) = some ℓ := by
  rw [Fs.resolve_absolute cwd h] at hok
  have hne : walk fs.shape? true maxLinks [] names ≠ .error .eloop := by
    rw [hok]
    simp
  exact (Fs.realPath_absolute h).mpr ((walk_of_le (by decide) hne).trans hok)

theorem Real.realPath (h : Real fs.shape? ℓ) : fs.realPath (absolute ℓ) = some ℓ :=
  (Fs.realPath_absolute h.isName).mpr h.walk_self

end

end Vfs
