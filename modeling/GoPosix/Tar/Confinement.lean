import GoPosix.Lib.Vfs.ConfinedCalls
import GoPosix.Tar.Basic

/-!
# Where `tar -x` writes

The loop skips entries whose paths go up or are absolute, and symbolic links that seem to lead out
if another entry depends on them. Both are decided on texts. But the entries before have changed the
file system an entry meets: a symbolic link can lead out through another one although its text does
not, and a hard link can be made to any object with an absolute path. `EntrySafe` says, of the state
an entry meets, that it does nothing outside the directory; if every entry of a run does, nothing is
ever done outside (`extractArchiveStream_confined`).
-/

namespace GoPosix.Tar

open Bytes Vfs Filepath List Sys

/-! ## What an entry meets -/

/-- The object had no name outside the directory when the extraction began. -/
def Own (os₀ : Os) (i : Ino) : Prop := ¬ os₀.fs.Foreign os₀.cwd i

instance (os₀ : Os) : DecidablePred (Own os₀) := fun i =>
  inferInstanceAs (Decidable (¬ os₀.fs.Foreign os₀.cwd i))

/-- There is a symbolic link at the path, and neither of the next two calls is refused, so that it
is seen and removed. -/
def LinkGoes (s : Os) (target : Bytes) : Prop :=
  s.fault = none ∧ s.tick.fault = none ∧
    ((s.found (s.resolve false target)).toOption.any fun found => found.2.isSymlink) = true

/-- Old objects are kept, there is one at the path, and the next call is not refused, so that it is
seen. -/
def OldStays (keepOld : Bool) (s : Os) (target : Bytes) : Prop :=
  keepOld = true ∧ s.fault = none ∧ (s.found (s.resolve false target)).toBool = true

/-- An entry of a type is extracted inside the directory. -/
def TypeSafe (os₀ : Os) (ctx : Context) (header : Header) (target : Bytes) (s : Os) :
    Typeflag → Prop
  | .dir => s.Stays (comps target)
  | .reg =>
    ¬ OldStays ctx.opts.keepOld s target →
      s.Stays (comps (dir target)) ∧ (s.Leads (Own os₀) (comps target) ∨ LinkGoes s target)
  | .symlink =>
    (isSymlinkSafe ctx.rootDir target header.linkname = true ∨
      hasConflict target ctx.allTargets = false) → ¬ OldStays ctx.opts.keepOld s target →
      s.Stays (comps (dir target))
  | .link =>
    clean header.linkname ≠ target → hasPrefix (clean header.linkname) (str "..") = false →
      ¬ OldStays ctx.opts.keepOld s target →
      s.Stays (comps (dir target)) ∧ hasPrefix (clean header.linkname) (str "/") = false ∧
        s.Straight (Own os₀) (comps (clean header.linkname))
  | .other => True

/-- The entry, if it is not skipped, is extracted inside the directory. -/
def EntrySafe (os₀ : Os) (ctx : Context) (e : TarEntry) (s : Os) : Prop :=
  selected ctx.opts e.header.name = true → escapes (clean e.header.name) = false →
    ctx.opts.toStdout = false →
      TypeSafe os₀ ctx e.header (clean e.header.name) s e.header.typeflag

/-- Every entry meets a state in which it is safe, until an error ends the loop. -/
def RunSafe (os₀ : Os) (ctx : Context) : Extraction → List TarEntry → Os → Prop
  | _, [], _ => True
  | x, e :: es, s => EntrySafe os₀ ctx e s ∧ ((extractEntry ctx x e s).1.2 = none →
        RunSafe os₀ ctx (extractEntry ctx x e s).1.1 es (extractEntry ctx x e s).2)

/-- The run of an archive, from the state in which the extraction begins. -/
def ArchiveSafe (os₀ : Os) (opts : Options) (pwd : Bytes) : Input → Prop
  | .entries es =>
    RunSafe os₀ ⟨opts, (getwd pwd os₀).1.toOption.getD [], allTargets es⟩ {} es (getwd pwd os₀).2
  | _ => True

section Decidable

variable (os₀ s : Os) (ctx : Context) (header : Header) (target : Bytes)

instance : Decidable (LinkGoes s target) := inferInstanceAs (Decidable (_ ∧ _))

instance (keepOld : Bool) : Decidable (OldStays keepOld s target) :=
  inferInstanceAs (Decidable (_ ∧ _))

instance : (t : Typeflag) → Decidable (TypeSafe os₀ ctx header target s t)
  | .dir => inferInstanceAs (Decidable (s.Stays _))
  | .reg => inferInstanceAs (Decidable (_ → _))
  | .symlink => inferInstanceAs (Decidable (_ → _ → _))
  | .link => inferInstanceAs (Decidable (_ → _ → _ → _))
  | .other => .isTrue trivial

instance (e : TarEntry) : Decidable (EntrySafe os₀ ctx e s) :=
  inferInstanceAs (Decidable (_ → _ → _ → _))

instance decidableRunSafe : (x : Extraction) → (es : List TarEntry) → (s : Os) →
    Decidable (RunSafe os₀ ctx x es s)
  | _, [], _ => .isTrue trivial
  | x, e :: es, s =>
    have := decidableRunSafe (extractEntry ctx x e s).1.1 es (extractEntry ctx x e s).2
    inferInstanceAs (Decidable (_ ∧ (_ → _)))

instance (opts : Options) (pwd : Bytes) : (r : Input) → Decidable (ArchiveSafe os₀ opts pwd r)
  | .entries _ => inferInstanceAs (Decidable (RunSafe ..))
  | .empty => .isTrue trivial
  | .broken _ => .isTrue trivial

end Decidable

/-! ## The parts of an entry -/

section

variable {names : List Name}

theorem own_of_le (h : os₀.fs.next ≤ i) : Own os₀ i := fun hf => Nat.not_lt.mpr h hf.lt

theorem clean_of_not_escapes {p : Bytes} (h : escapes (clean p) = false) :
    ∃ names, (∀ c ∈ names, IsName c) ∧ clean p = relative names := by
  simp only [escapes, Bool.or_eq_false_iff] at h
  obtain ⟨hup, habs⟩ := h
  apply clean_eq_relative
  · intro hp
    have hpre := isPrefixOf_iff_prefix.mpr hp
    exact Bool.eq_false_iff.mp habs hpre
  · intro hp
    have hpre := isPrefixOf_iff_prefix.mpr hp
    exact Bool.eq_false_iff.mp hup hpre

theorem setAttr_confined (p : Bytes) : Triple (Confined os₀) (setAttr p) fun _ => Confined os₀ :=
  call_triple (fun _ hs => hs.tick) fun _ hs => hs.tick

theorem LinkGoes.found (h : LinkGoes s p) :
    ∃ ℓ n, s.found (s.resolve false p) = .ok (ℓ, n) ∧ n.isSymlink = true := by
  obtain ⟨-, -, hl⟩ := h
  cases hf : s.found (s.resolve false p) with
  | error e =>
    rw [hf] at hl
    cases hl
  | ok found =>
    rw [hf] at hl
    exact ⟨found.1, found.2, rfl, hl⟩

theorem LinkGoes.lstat (h : LinkGoes s p) : ∃ n, (lstat p s).1 = .ok n ∧ n.isSymlink = true := by
  obtain ⟨ℓ, n, hf, hl⟩ := h.found
  have hf' : s.tick.found (s.tick.resolve false p) = .ok (ℓ, n) := hf
  refine ⟨n, ?_, hl⟩
  simp only [Vfs.lstat, stat, call, h.1, hf']
  rfl

theorem LinkGoes.remove (h : LinkGoes s p) : (remove p s.tick).2 ≠ s.tick.tick := by
  obtain ⟨ℓ, n, hf, hl⟩ := h.found
  have hℓ : ℓ ≠ [] := by
    rintro rfl
    obtain ⟨-, hn⟩ := Os.found_eq_ok.mp hf
    cases hn
    cases hl
  have ht : s.tick.tick.removeTarget p = .ok ℓ := by
    have hf' : s.tick.tick.found (s.tick.tick.resolve false p) = .ok (ℓ, n) := hf
    cases n <;> cases hl
    simp only [Os.removeTarget, hf']
  simp only [Vfs.remove, call, h.2.1, ht]
  intro heq
  have hlog := congrArg (fun os : Os => os.log.length) heq
  simp [Os.remove] at hlog

theorem OldStays.clearTarget (h : OldStays keepOld s p)
    (r : Node → Bool) : clearTarget keepOld r p s = (false, s.tick) := by
  obtain ⟨hk, hfalse, ht⟩ := h
  have hl : ∃ n, lstat p s = (.ok n, s.tick) := by
    cases hf : s.found (s.resolve false p) with
    | error e =>
      rw [hf] at ht
      cases ht
    | ok found =>
      have hf' : s.tick.found (s.tick.resolve false p) = .ok found := hf
      refine ⟨found.2, ?_⟩
      simp only [lstat, stat, call, hfalse, hf']
      rfl
  obtain ⟨n, hn⟩ := hl
  rw [Tar.clearTarget, bind_apply, hn]
  simp only [hk]
  rfl

theorem OldStays.extractWith (h : OldStays keepOld s p)
    (make : Sys (Except Errno Unit)) : (extractWith keepOld p make s).2 = s.tick := by
  rw [Tar.extractWith, bind_apply, h.clearTarget]
  rfl

theorem OldStays.extractReg (h : OldStays opts.keepOld s p)
    (x : Extraction) (b : Bytes) : (extractReg opts x p b s).2 = s.tick := by
  rw [Tar.extractReg, bind_apply, h.clearTarget]
  rfl

variable (hnames : ∀ c ∈ names, IsName c)

include hnames

theorem mkdirAll_parent {E : Os → Prop} (ht : ∀ s, E s → E s.tick)
    (hd : ∀ s d c, Confined os₀ s → E s → E (s.create (d ++ [c]) .dir)) :
    Triple (fun s => Confined os₀ s ∧ s.Stays names.dropLast ∧ E s)
      (mkdirAll (dir (relative names)))
      fun _ s => Confined os₀ s ∧ s.Stays names.dropLast ∧ E s := by
  have hi : ∀ c ∈ names.dropLast, IsName c := fun c hc => hnames c (dropLast_subset names hc)
  have h := @mkdirAll_confined os₀ (fun _ => True) names.dropLast [] E ht hd
    (fun _ _ => trivial) hi nofun
  rw [append_nil] at h
  rw [dir_relative hnames]
  exact h

/-- **Symbolic and hard links.** What is in the way is removed, the directory is made, and the link
is made in it. -/
theorem extractWith_confined {make : Sys (Except Errno Unit)} {E : Os → Prop}
    (ht : ∀ s, E s → E s.tick) (hr : ∀ s d c, E s → E (s.remove (d ++ [c])))
    (hd : ∀ s d c, Confined os₀ s → E s → E (s.create (d ++ [c]) .dir))
    (hm : Triple (fun s => Confined os₀ s ∧ s.Stays names.dropLast ∧ E s) make fun _ =>
      Confined os₀) :
    Triple (fun s => Confined os₀ s ∧ s.Stays names.dropLast ∧ E s)
      (extractWith keepOld (relative names) make) fun _ => Confined os₀ := by
  have hc : Triple (fun s => Confined os₀ s ∧ s.Stays names.dropLast ∧ E s)
      (clearTarget keepOld (fun _ => true) (relative names))
      fun _ s => Confined os₀ s ∧ s.Stays names.dropLast ∧ E s := by
    refine .bind (stat_triple (fun s ⟨hs, hl, hE⟩ => ⟨hs.tick, hl, ht s hE⟩) false _) fun r => ?_
    cases r with
    | error e => exact .pure fun _ h => h
    | ok n =>
      cases keepOld with
      | true => exact .pure fun _ h => h
      | false => exact .bind (remove_confined ht hr hnames) fun _ => .pure fun _ h => h
  refine .bind hc fun go => ?_
  cases go with
  | false => exact .pure fun _ h => h.1
  | true =>
    refine .bind (mkdirAll_parent hnames ht hd) fun _ => ?_
    exact .bind hm fun _ => .pure fun _ h => h

/-- **What is in the way of a regular entry**: afterwards the path leads inside, to an object of its
own. -/
theorem clearTarget_reg : Triple (fun s => Confined os₀ s ∧ s.Stays names.dropLast ∧
        (names ≠ [] → s.Leads (Own os₀) names ∨ LinkGoes s (relative names)))
      (clearTarget keepOld Node.isSymlink (relative names))
      fun go s => Confined os₀ s ∧ (go = true → names ≠ [] → s.Leads (Own os₀) names) := by
  rintro s ⟨hs, hstraight, hl⟩
  unfold clearTarget
  rw [bind_apply, show (lstat (relative names) s).2 = s.tick from stat_state ..]
  cases hls : (lstat (relative names) s).1 with
  | error e =>
    refine ⟨hs.tick, fun _ hne => (hl hne).resolve_right fun hg => ?_⟩
    obtain ⟨n, hn, -⟩ := hg.lstat
    rw [hls] at hn
    cases hn
  | ok n =>
    simp only
    split_ifs with hk hlink
    · exact ⟨hs.tick, nofun⟩
    · rw [bind_apply]
      rcases remove_cases hs.tick hnames with he | ⟨init, c, d, rfl, hd, hdir, hc, he⟩
      · -- the link is still there
        rw [he]
        exact ⟨hs.tick.tick, fun _ hne => (hl hne).resolve_right fun hg => hg.remove he⟩
      · rw [he]
        rw [dropLast_concat] at hstraight
        have hin : s.cwd <+: d := (hstraight d [] hd.walk_eq).1
        refine ⟨hs.tick.tick.remove (by simp) hc ?_, fun _ _ => ?_⟩
        · rw [← hs.cwd]
          exact hin.trans (prefix_append d [c])
        · exact Os.Leads.remove_last (hnames c (by simp)).1 hd hdir hin
    · refine ⟨hs.tick, fun _ hne => (hl hne).resolve_right fun hg => ?_⟩
      obtain ⟨n', hn', hlink'⟩ := hg.lstat
      rw [hls] at hn'
      cases hn'
      exact hlink hlink'

theorem writeBody_confined :
    Triple (fun s => Confined os₀ s ∧ (names ≠ [] → s.Leads (Own os₀) names))
      (writeBody overwrite (relative names) body) fun _ => Confined os₀ := by
  refine .bind (openWrite_confined hnames) fun r => ?_
  cases r with
  | error e => exact .pure fun _ h => h.1
  | ok f =>
    refine .assume fun hf => ?_
    have hw : Triple (Confined os₀) (if body = [] then pure (.ok ()) else write f body) fun _ =>
        Confined os₀ := by
      split_ifs
      · exact .pure fun _ h => h
      · exact write_confined (hf f rfl) body
    refine .bind hw fun r => ?_
    cases r with
    | error e => exact .pure fun _ h => h
    | ok u => exact .bind (setAttr_confined _) fun _ => .pure fun _ h => h

/-- **Regular entries** that are not kept back. -/
theorem extractReg_confined : Triple (fun s => Confined os₀ s ∧ s.Stays names.dropLast ∧
        (names ≠ [] → s.Leads (Own os₀) names ∨ LinkGoes s (relative names)))
      (extractReg opts x (relative names) body) fun _ => Confined os₀ := by
  have hm : Triple (fun s => Confined os₀ s ∧ (names ≠ [] → s.Leads (Own os₀) names))
      (mkdirAll (dir (relative names)))
      fun _ s => Confined os₀ s ∧ (names ≠ [] → s.Leads (Own os₀) names) := by
    rw [dir_relative hnames]
    rcases eq_nil_or_concat' names with rfl | ⟨init, c, rfl⟩
    · have h := @mkdirAll_confined os₀ (fun _ => True) [] [] (fun _ => True) (fun _ _ => trivial)
        (fun _ _ _ _ _ => trivial) (fun _ _ => trivial) nofun nofun
      rintro s ⟨hs, -⟩
      exact ⟨(h s ⟨hs, stays_nil s, trivial⟩).1, fun hne => absurd rfl hne⟩
    · have h := @mkdirAll_confined os₀ (Own os₀) init [c] (fun _ => True) (fun _ _ => trivial)
        (fun _ _ _ _ _ => trivial) (fun _ => own_of_le)
        (fun d hd => hnames d (mem_append_left [c] hd))
        fun d hd => (hnames d (mem_append_right init hd)).1
      rintro s ⟨hs, hl⟩
      rw [dropLast_concat]
      obtain ⟨hs', hl', -⟩ := h s ⟨hs, hl (by simp), trivial⟩
      exact ⟨hs', fun _ => hl'⟩
  refine .bind (clearTarget_reg hnames) fun go => ?_
  cases go with
  | false => exact .pure fun _ h => h.1
  | true =>
    refine .pre (fun s ⟨hs, hl⟩ => ⟨hs, hl rfl⟩) (.bind hm fun r => ?_)
    cases r with
    | error e => exact .pure fun _ h => h.1
    | ok u =>
      refine .bind (writeBody_confined hnames) fun r => ?_
      cases r <;> exact .pure fun _ h => h

theorem extractDir_confined :
    Triple (fun s => Confined os₀ s ∧ s.Stays names) (extractDir x (relative names))
      fun _ => Confined os₀ := by
  have h := @mkdirAll_confined os₀ (fun _ => True) names [] (fun _ => True) (fun _ _ => trivial)
    (fun _ _ _ _ _ => trivial) (fun _ _ => trivial) hnames nofun
  rw [append_nil] at h
  refine .pre (fun s ⟨hs, hl⟩ => ⟨hs, hl, trivial⟩) (.bind h fun r => ?_)
  cases r <;> exact .pure fun _ h => h.1

/-- A symbolic link. -/
theorem extractSymlink_confined {header : Header} : Triple
      (fun s => Confined os₀ s ∧
        ((isSymlinkSafe ctx.rootDir (relative names) header.linkname = true ∨
        hasConflict (relative names) ctx.allTargets = false) →
          ¬ OldStays ctx.opts.keepOld s (relative names) → s.Stays names.dropLast))
      (extractSymlink ctx x header (relative names)) fun _ => Confined os₀ := by
  rintro s ⟨hs, hl⟩
  unfold extractSymlink
  split_ifs with hr
  · exact hs
  have hsafe : isSymlinkSafe ctx.rootDir (relative names) header.linkname = true ∨
      hasConflict (relative names) ctx.allTargets = false := by
    rw [Bool.and_eq_true, not_and_or, Bool.not_eq_true, Bool.not_eq_true] at hr
    exact hr.imp_left fun h => by simpa using h
  have hm : Triple (fun s => Confined os₀ s ∧ s.Stays names.dropLast ∧ True)
      (symlink header.linkname (relative names)) fun _ => Confined os₀ :=
    fun s ⟨hs, hl, _⟩ => symlink_confined hnames s ⟨hs, hl⟩
  by_cases hold : OldStays ctx.opts.keepOld s (relative names)
  · rw [bind_apply, hold.extractWith]
    exact hs.tick
  · exact extractWith_confined hnames (fun _ _ => trivial) (fun _ _ _ _ => trivial)
      (fun _ _ _ _ _ => trivial) hm s ⟨hs, hl hsafe hold, trivial⟩

/-- A hard link. -/
theorem extractLink_confined {header : Header} : Triple
      (fun s => Confined os₀ s ∧ (clean header.linkname ≠ relative names →
        hasPrefix (clean header.linkname) (str "..") = false →
        ¬ OldStays o.keepOld s (relative names) →
        s.Stays names.dropLast ∧ hasPrefix (clean header.linkname) (str "/") = false ∧
          s.Straight (Own os₀) (comps (clean header.linkname))))
      (extractLink o x header (relative names)) fun _ => Confined os₀ := by
  rintro s ⟨hs, hsame⟩
  unfold extractLink
  split_ifs with hself hup
  · exact hs
  · exact hs
  rw [Bool.not_eq_true] at hup
  by_cases hold : OldStays o.keepOld s (relative names)
  · rw [bind_apply, hold.extractWith]
    exact hs.tick
  obtain ⟨hl, hr, hstraight⟩ := hsame hself hup hold
  obtain ⟨source, hsource, heq⟩ := @clean_of_not_escapes header.linkname (by
    rw [escapes, hup, hr]
    rfl)
  rw [heq] at hstraight ⊢
  have hstraight' : source ≠ [] → s.Straight (Own os₀) source := by
    intro hne
    rwa [comps_relative hne hsource] at hstraight
  exact extractWith_confined hnames (fun _ h => h) (fun s d c h hne => (h hne).remove (by simp))
    (fun s d c hs h hne => (h hne).create_dir (by simp) (own_of_le hs.next))
    (link_confined hnames hsource) s ⟨hs, hl, hstraight'⟩

end

/-! ## The loop -/

section

variable {e : TarEntry}

theorem stays_dropLast {s : Os} (hnames : ∀ c ∈ names, IsName c)
    (h : s.Stays (comps (dir (relative names)))) : s.Stays names.dropLast := by
  rw [dir_relative hnames] at h
  rcases eq_or_ne names.dropLast [] with hn | hne
  · rw [hn]
    exact stays_nil s
  · rwa [comps_relative hne fun c hc => hnames c (dropLast_subset names hc)] at h

theorem leads_names {s : Os} {g : Ino → Prop} (hne : names ≠ [])
    (hnames : ∀ c ∈ names, IsName c) (h : s.Leads g (comps (relative names))) :
    s.Leads g names := by
  rwa [comps_relative hne hnames] at h

theorem copyToStdout_confined (x : Extraction) (b : Bytes) :
    Triple (Confined os₀) (copyToStdout x b) fun _ => Confined os₀ := by
  intro s hs
  unfold copyToStdout
  split_ifs
  · exact hs
  · rw [bind_apply, emit]
    cases s.fault <;> exact hs.tick

/-- **One entry**, by its type. -/
theorem extractTarget_confined (hnames : ∀ c ∈ names, IsName c)
    (ho : ctx.opts.toStdout = false) :
    Triple (fun s => Confined os₀ s ∧
      TypeSafe os₀ ctx e.header (relative names) s e.header.typeflag)
      (extractTarget ctx x e (relative names)) fun _ => Confined os₀ := by
  rintro s ⟨hs, hsame⟩
  unfold extractTarget
  cases ht : e.header.typeflag with
  | dir =>
    rw [ht] at hsame
    simp only [ho]
    refine extractDir_confined hnames s ⟨hs, ?_⟩
    rcases eq_or_ne names [] with rfl | hne
    · exact stays_nil s
    · exact leads_names hne hnames hsame
  | reg =>
    rw [ht] at hsame
    simp only [ho]
    by_cases hold : OldStays ctx.opts.keepOld s (relative names)
    · rw [hold.extractReg]
      exact hs.tick
    obtain ⟨hsta, hl⟩ := hsame hold
    refine extractReg_confined hnames s ⟨hs, stays_dropLast hnames hsta, fun hne => ?_⟩
    exact hl.imp_left (leads_names hne hnames)
  | symlink =>
    rw [ht] at hsame
    simp only [ho]
    refine extractSymlink_confined hnames s ⟨hs, fun h hold => ?_⟩
    exact stays_dropLast hnames (hsame h hold)
  | link =>
    rw [ht] at hsame
    simp only [ho]
    refine extractLink_confined hnames s ⟨hs, fun hself hup hold => ?_⟩
    obtain ⟨hsta, hstays⟩ := hsame hself hup hold
    exact ⟨stays_dropLast hnames hsta, hstays⟩
  | other =>
    simp only [ho]
    exact hs

/-- **One entry.** -/
theorem extractEntry_confined :
    Triple (fun s => Confined os₀ s ∧ EntrySafe os₀ ctx e s) (extractEntry ctx x e)
      fun _ => Confined os₀ := by
  rintro s ⟨hs, hsame⟩
  unfold extractEntry
  split_ifs with hselected he
  · exact hs
  · rw [Bool.not_eq_true] at he
    cases ho : ctx.opts.toStdout with
    | true =>
      unfold extractTarget
      cases htypeflag : e.header.typeflag with
      | reg =>
        simp only [ho]
        exact copyToStdout_confined _ _ s hs
      | _ =>
        simp only [ho]
        exact hs
    | false =>
      have hsame := hsame hselected he ho
      obtain ⟨names, hnames, ht⟩ := clean_of_not_escapes he
      rw [ht] at hsame ⊢
      exact extractTarget_confined hnames ho s ⟨hs, hsame⟩
  · exact hs

end

/-- **The loop**, by induction on the entries: each of them meets a state in which it is safe. -/
theorem extractLoop_confined (es : List TarEntry) :
    ∀ {x : Extraction} {s : Os}, Confined os₀ s → RunSafe os₀ ctx x es s →
      Confined os₀ (extractLoop ctx x es s).2 := by
  induction es with
  | nil => exact fun hs _ => hs
  | cons e es ih =>
    intro x s hs ⟨hsame, hr⟩
    have hs' : Confined os₀ (extractEntry ctx x e s).2 := extractEntry_confined s ⟨hs, hsame⟩
    rw [extractLoop, bind_apply]
    generalize extractEntry ctx x e s = step at hs' hr
    obtain ⟨⟨x', _ | err⟩, s'⟩ := step
    · exact ih hs' (hr rfl)
    · exact hs'

theorem runDeferred_confined (targets : List Bytes) :
    Triple (Confined os₀) (runDeferred targets) fun _ => Confined os₀ := by
  induction targets with
  | nil => exact .pure fun _ h => h
  | cons target targets ih => exact .bind (setAttr_confined target) fun _ => ih

theorem getwd_confined (p : Bytes) : Triple (Confined os₀) (getwd p) fun _ => Confined os₀ := by
  have hstat := @stat_triple (Confined os₀) (fun _ hs => hs.tick) true
  have hc : Triple (Confined os₀) getcwd fun _ => Confined os₀ :=
    call_triple (fun _ hs => hs.tick) fun _ hs => hs.tick
  unfold getwd
  split_ifs
  · refine .bind (hstat dot) fun r => ?_
    cases r with
    | error e => exact .pure fun _ h => h
    | ok n =>
      refine .bind (hstat p) fun r => ?_
      cases r with
      | error e => exact hc
      | ok n =>
        refine .bind (R := fun _ => Confined os₀) (fun _ h => h) fun same => ?_
        split_ifs
        · exact .pure fun _ h => h
        · exact hc
  · exact hc

/-- **An extraction whose entries are safe when they are extracted** does nothing outside the
directory, and leaves everything outside as it was. -/
theorem extractArchiveStream_confined (os : Os) (opts : Options) (pwd : Bytes) (r : Input)
    (htree : os.fs.Tree) (hsafe : ArchiveSafe os opts pwd r) :
    (∃ done, (extractArchiveStream opts pwd r os).2.log = os.log ++ done ∧
      ∀ e ∈ done, e.Inside os.fs os.cwd) ∧
      ∀ ℓ, ¬ os.cwd <+: ℓ → (extractArchiveStream opts pwd r os).2.fs.node? ℓ = os.fs.node? ℓ := by
  have hc : Confined os (extractArchiveStream opts pwd r os).2 := by
    have hs := getwd_confined pwd os (.refl htree)
    cases r with
    | empty => exact hs
    | broken err => exact hs
    | entries es =>
      have hl := extractLoop_confined es hs hsafe
      exact runDeferred_confined _ _ hl
  exact ⟨hc.log, fun ℓ ho => hc.node?_eq ho⟩

/-! ## Two directories -/

/-- A system in the directory `/w`, with a regular file `/s` outside it. -/
def beside : Os where
  fs := (Fs.empty.add [str "w"] .dir).add [str "s"] (.file (str "secret"))
  cwd := [str "w"]
  log := []
  faults := fun _ => none
  clock := 0

theorem beside_tree : beside.fs.Tree := by
  have hw : (Fs.empty.add ([] ++ [str "w"]) .dir).Tree := Fs.Tree.empty.add (by decide) (by decide)
  exact hw.add (d := []) (by decide) (by decide)

/-- A directory, a file in it, a link to the directory, a file written through it, and a hard
link. -/
def tame : List TarEntry :=
  [⟨{ name := str "d/", typeflag := .dir }, []⟩,
    ⟨{ name := str "d/f", typeflag := .reg }, str "data"⟩,
    ⟨{ name := str "l", typeflag := .symlink, linkname := str "d" }, []⟩,
    ⟨{ name := str "l/g", typeflag := .reg }, str "data"⟩,
    ⟨{ name := str "h", typeflag := .link, linkname := str "d/f" }, []⟩]

theorem extractArchiveStream_tame : ArchiveSafe beside {} [] (.entries tame) ∧
      ((∃ done, (extractArchiveStream {} [] (.entries tame) beside).2.log = beside.log ++ done ∧
          ∀ e ∈ done, e.Inside beside.fs beside.cwd) ∧
        ∀ ℓ, ¬ beside.cwd <+: ℓ →
          (extractArchiveStream {} [] (.entries tame) beside).2.fs.node? ℓ =
              beside.fs.node? ℓ) := by
  have hs : ArchiveSafe beside {} [] (.entries tame) := by decide +kernel
  exact ⟨hs, extractArchiveStream_confined beside {} [] (.entries tame) beside_tree hs⟩

/-- **A hard link to an absolute path** is made to an object outside, and the next entry of its name
overwrites that object. -/
theorem extractArchiveStream_hardLink :
    let es : List TarEntry := [⟨{ name := str "x", typeflag := .link, linkname := str "/s" }, []⟩,
      ⟨{ name := str "x", typeflag := .reg }, str "new"⟩]
    let os := (extractArchiveStream {} [] (.entries es) beside).2
    os.log = [.link [str "s"] 1 [str "w", str "x"], .truncate [str "w", str "x"] 1,
        .write [str "w", str "x"] 1] ∧
      (∀ e ∈ os.log, ¬ e.Inside beside.fs beside.cwd) ∧
      os.fs.node? [str "s"] = some (.file (str "new")) := by
  decide +kernel

-- A symbolic link can lead out although the texts of all links stay inside.
example :
    let es : List TarEntry := [⟨{ name := str "d", typeflag := .dir }, []⟩,
      ⟨{ name := str "d/l", typeflag := .symlink, linkname := str ".." }, []⟩,
      ⟨{ name := str "e", typeflag := .symlink, linkname := str "d/l/.." }, []⟩,
      ⟨{ name := str "e/s", typeflag := .reg }, str "new"⟩]
    (extractArchiveStream {} [] (.entries es) beside).2.fs.node? [str "s"] =
        some (.file (str "new")) := by
  decide +kernel

end GoPosix.Tar
