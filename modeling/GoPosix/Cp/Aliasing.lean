import GoPosix.Cp.Basic
import GoPosix.Mv.Failure

/-!
# What a copy overwrites

`cp` never asks whether two of its paths lead to one file. What it opens as a destination may be a
source, or a copy it has just reported; and a file with two names is copied once, whatever has
become of the first copy.

`harmless` says of one call, in the state before it, that it meets nothing of the kind. If every
call of a run is harmless, the sources hold what they held and every copy in the report holds what
its source held at the start (`run_faithful`).

`Leads W r r'` says that a part of the program went from `r` to `r'` and kept, if its calls were
harmless, all that is watched. It remains to show it for the parts that call: a file, a symbolic
link and a hard link.
-/

namespace GoPosix.Cp

open Bytes Vfs Filepath List

/-! ## What a path holds -/

/-- What is read from an object, or from a symbolic link itself. -/
def readNode (asLink : Bool) : Node → Option Bytes
  | .symlink target => if asLink then some target else none
  | .file data => if asLink then none else some data
  | .special stream => if asLink then none else some stream
  | .dir => none

/-- What an object keeps: a device keeps nothing. -/
def heldNode (asLink : Bool) : Node → Option Bytes
  | .special _ => none
  | node => readNode asLink node

def reads (os : Os) (asLink : Bool) (p : Bytes) : Option Bytes :=
  match os.look (!asLink) p with
  | .ok (_, node) => readNode asLink node
  | .error _ => none

def holds (os : Os) (asLink : Bool) (p : Bytes) : Option Bytes :=
  match os.look (!asLink) p with
  | .ok (_, node) => heldNode asLink node
  | .error _ => none

/-- **What `cp` is to leave behind**, seen from the state at the start: the operands hold what they
held, and so do the copies in the report. -/
structure Faithful (os : Os) (srcs : List Bytes) (v : View) : Prop where
  sources : ∀ src ∈ srcs, ∀ asLink b, holds os asLink src = some b → holds v.os asLink src = some b
  copies : ∀ rec ∈ v.copied, ∀ b, reads os rec.asLink rec.src = some b →
    holds v.os rec.asLink rec.dst = some b

/-! ## Harmless calls -/

/-- The paths to look after: the sources, as they are and behind their links, and the copies. -/
def watched (sources : List Bytes) (copied : List CopyRecord) : List (Bool × Bytes) :=
  (sources.flatMap fun p => [(true, p), (false, p)]) ++ copied.map fun rec => (!rec.asLink, rec.dst)

/-- The path leads where it leads without the name `ℓ`, too. -/
def spared (os : Os) (ℓ : Loc) (x : Bool × Bytes) : Bool :=
  match os.look x.1 x.2 with
  | .ok found => (os.remove ℓ).look x.1 x.2 = .ok found
  | .error _ => true

/-- A call meets nothing that is watched: it opens no device and no watched file for writing,
removes nothing on a watched path, and makes links to files that hold what the source holds. -/
def harmless (sources : List Bytes) (t : Step) : Bool :=
  match t.act with
  | .write _ dst =>
    match t.os.writeTarget true dst with
    | .ok (.regular _ i) => (watched sources t.copied).all fun x => t.os.fileOf x.1 x.2 ≠ some i
    | .ok (.special _ _) => false
    | _ => true
  | .remove dst =>
    match t.os.removeTarget dst with
    | .ok ℓ => (watched sources t.copied).all (spared t.os ℓ)
    | .error _ => true
  | .link src first _ =>
    match t.os.look false first with
    | .ok (_, .file b) => holds t.os false src = some b
    | .ok (_, .dir) | .error _ => true
    | .ok _ => false

/-- The operands and the paths that have been copied from. -/
def sourcesOf (srcs : List Bytes) (copied : List CopyRecord) : List Bytes :=
  srcs ++ copied.map CopyRecord.src

section Held

variable {os os' : Os}

theorem reads_eq_some : reads os asLink p = some b ↔
    ∃ ℓ n, os.look (!asLink) p = .ok (ℓ, n) ∧ readNode asLink n = some b := by
  unfold reads
  cases os.look (!asLink) p with
  | error e => simp
  | ok x => simp [Prod.ext_iff]

theorem holds_eq_some : holds os asLink p = some b ↔
    ∃ ℓ n, os.look (!asLink) p = .ok (ℓ, n) ∧ heldNode asLink n = some b := by
  unfold holds
  cases os.look (!asLink) p with
  | error e => simp
  | ok x => simp [Prod.ext_iff]

theorem reads_same (h : Same os os' (!asLink) p) (hb : reads os asLink p = some b) :
    reads os' asLink p = some b := by
  rw [reads_eq_some] at hb ⊢
  obtain ⟨ℓ, n, hl, hn⟩ := hb
  exact ⟨ℓ, n, h _ hl, hn⟩

theorem holds_same (h : Same os os' (!asLink) p) (hb : holds os asLink p = some b) :
    holds os' asLink p = some b := by
  rw [holds_eq_some] at hb ⊢
  obtain ⟨ℓ, n, hl, hn⟩ := hb
  exact ⟨ℓ, n, h _ hl, hn⟩

theorem reads_of_holds (h : holds os asLink p = some b) : reads os asLink p = some b := by
  obtain ⟨ℓ, n, hl, hn⟩ := holds_eq_some.mp h
  refine reads_eq_some.mpr ⟨ℓ, n, hl, ?_⟩
  cases n with
  | special stream => cases hn
  | dir => exact hn
  | file data => exact hn
  | symlink target => exact hn

theorem mem_watched_source (hp : p ∈ W) (fo : Bool) : (fo, p) ∈ watched W copied := by
  apply mem_append_left
  rw [mem_flatMap]
  exact ⟨p, hp, by cases fo <;> simp⟩

theorem mem_watched_copy {rec : CopyRecord} (h : rec ∈ copied) :
    (!rec.asLink, rec.dst) ∈ watched W copied :=
  mem_append_right _ (mem_map_of_mem h)

theorem watched_mono (h : copied <+: copied') (hx : x ∈ watched W copied) :
    x ∈ watched W copied' := by
  rw [watched, mem_append] at hx ⊢
  exact hx.imp_right fun hx => map_subset _ h.subset hx

end Held

/-! ## From one state to the next -/

/-- The copy holds what its source does. -/
def Twin (os : Os) (rec : CopyRecord) : Prop :=
  ∃ b, reads os rec.asLink rec.src = some b ∧ holds os rec.asLink rec.dst = some b

/-- What is watched stays, and every new copy is one. -/
structure Good (W : List Bytes) (v v' : View) : Prop where
  same : ∀ x ∈ watched W v.copied, Same v.os v'.os x.1 x.2
  grows : v.copied <+: v'.copied
  twins : ∀ rec ∈ v'.copied, rec ∈ v.copied ∨ Twin v'.os rec

/-- The calls were harmless, and all copies were from watched paths. -/
structure Fine (W : List Bytes) (r : Run) : Prop where
  steps : ∀ t ∈ r.steps, harmless W t = true
  copied : ∀ rec ∈ r.copied, rec.src ∈ W

/-- A part of the program that starts in `r` and ends in `r'` does no harm if its calls do none. -/
structure Leads (W : List Bytes) (r r' : Run) : Prop where
  copied : r.copied <+: r'.copied
  steps : r.steps <+: r'.steps
  within : ∀ t ∈ r'.steps, t ∈ r.steps ∨ t.copied <+: r'.copied
  good : Fine W r' → Good W r.toView r'.toView
  between : Fine W r' → ∀ t ∈ r'.steps, t ∈ r.steps ∨ Good W r.toView t.toView

section

variable {r r' r'' : Run} {os os' : Os} {rec : CopyRecord}

theorem Good.of_extends (h : v.os.Extends v'.os) (hc : v'.copied = v.copied) : Good W v v' :=
  ⟨fun x _ => h x.1 x.2, hc ▸ prefix_rfl, fun _ hr => .inl (hc ▸ hr)⟩

theorem Twin.same (h : Twin os rec) (hs : Same os os' (!rec.asLink) rec.src)
    (hd : Same os os' (!rec.asLink) rec.dst) : Twin os' rec := by
  obtain ⟨b, hr, hh⟩ := h
  exact ⟨b, reads_same hs hr, holds_same hd hh⟩

theorem Good.trans (h : Good W v v') (h' : Good W v' v'') (hW : ∀ rec ∈ v'.copied, rec.src ∈ W) :
    Good W v v'' := by
  refine ⟨fun x hx => (h.same x hx).trans (h'.same x (watched_mono h.grows hx)),
    h.grows.trans h'.grows,
    fun rec hr => ?_⟩
  rcases h'.twins rec hr with hr' | ht
  · -- a copy made on the way is watched from there on
    refine (h.twins rec hr').imp_right fun ht => ht.same ?_ ?_
    · exact h'.same _ (mem_watched_source (hW rec hr') _)
    · exact h'.same _ (mem_watched_copy hr')
  · exact .inr ht

theorem Leads.fine (h : Leads W r r') (hf : Fine W r') : Fine W r :=
  ⟨fun t ht => hf.steps t (h.steps.subset ht), fun rec hr => hf.copied rec (h.copied.subset hr)⟩

theorem Leads.of_extends (h : r.os.Extends r'.os) (hc : r'.copied = r.copied)
    (hs : r'.steps = r.steps) : Leads W r r' where
  copied := hc ▸ prefix_rfl
  steps := hs ▸ prefix_rfl
  within _ ht := .inl (hs ▸ ht)
  good _ := .of_extends h hc
  between _ _ ht := .inl (hs ▸ ht)

theorem Leads.refl (W : List Bytes) (r : Run) : Leads W r r :=
  .of_extends (Os.extends_of_fs rfl rfl) rfl rfl

/-- **One part after the other.** -/
theorem Leads.trans (h : Leads W r r') (h' : Leads W r' r'') : Leads W r r'' where
  copied := h.copied.trans h'.copied
  steps := h.steps.trans h'.steps
  within t ht := by
    rcases h'.within t ht with ht' | hp
    · exact (h.within t ht').imp_right fun hp => hp.trans h'.copied
    · exact .inr hp
  good hf := (h.good (h'.fine hf)).trans (h'.good hf) (h'.fine hf).copied
  between hf t ht := by
    have hf' := h'.fine hf
    rcases h'.between hf t ht with ht' | hg
    · exact h.between hf' t ht'
    · exact .inr ((h.good hf').trans hg hf'.copied)

/-- One call: it is noted in the state before it, and a copy is reported if one was made. -/
theorem Leads.of_step (hs : r.os.Extends s)
    (hsteps : r'.steps = r.steps ++ [⟨⟨s, r.copied⟩, act⟩]) (hc : r'.copied = r.copied ++ n)
    (hsame : harmless W ⟨⟨s, r.copied⟩, act⟩ = true → ∀ x ∈ watched W r.copied,
      Same s r'.os x.1 x.2)
    (htwin : harmless W ⟨⟨s, r.copied⟩, act⟩ = true → ∀ rec ∈ n, rec.src ∈ W → Twin r'.os rec) :
    Leads W r r' where
  copied := ⟨n, hc.symm⟩
  steps := ⟨_, hsteps.symm⟩
  within t ht := by
    rw [hsteps, mem_append, mem_singleton] at ht
    rcases ht with ht | rfl
    · exact .inl ht
    · exact .inr ⟨n, hc.symm⟩
  good hf := by
    have hh := hf.steps ⟨⟨s, r.copied⟩, act⟩ (by simp [hsteps])
    refine ⟨fun x hx => (hs x.1 x.2).trans (hsame hh x hx), ⟨n, hc.symm⟩, fun rec hr => ?_⟩
    have hsrc := hf.copied rec hr
    have hr' : rec ∈ r.copied ∨ rec ∈ n := mem_append.mp (hc ▸ hr)
    exact hr'.imp_right fun h => htwin hh rec h hsrc
  between _ t ht := by
    rw [hsteps, mem_append, mem_singleton] at ht
    rcases ht with ht | rfl
    · exact .inl ht
    · exact .inr (.of_extends hs rfl)

end

/-! ## Programs -/

/-- The program does no harm if its calls do none. -/
def Ok {α : Type} (W : List Bytes) (m : CpM α) : Prop := ∀ r, Leads W r (m r).2

section

variable {α β : Type} {f : α → CpM β}

@[simp] theorem pure_apply (a : α) (r : Run) : (pure a : CpM α) r = (a, r) := rfl

@[simp] theorem bind_apply (m : CpM α) (f : α → CpM β) (r : Run) :
    (m >>= f) r = f (m r).1 (m r).2 := rfl

@[simp] theorem sys_apply (m : Sys α) (r : Run) :
    sys m r = ((m r.os).1, { r with os := (m r.os).2 }) := rfl

@[simp] theorem note_apply (act : Act) (r : Run) :
    note act r = ((), { r with steps := r.steps ++ [⟨r.toView, act⟩] }) := rfl

theorem Ok.pure (W : List Bytes) (a : α) : Ok W (Pure.pure a : CpM α) := Leads.refl W

theorem Ok.bind (hm : Ok W m) (hf : ∀ a, Ok W (f a)) : Ok W (m >>= f) :=
  fun r => (hm r).trans (hf _ _)

theorem Ok.extending {m : Sys α} (h : ∀ os : Os, os.Extends (m os).2) : Ok W (sys m) :=
  fun r => .of_extends (h r.os) rfl rfl

theorem Ok.looking {m : Sys α} (h : ∀ os, (m os).2 = os.tick) : Ok W (sys m) :=
  .extending fun os => by
    rw [h]
    exact Os.extends_of_fs rfl rfl

theorem Ok.stat (fo : Bool) (p : Bytes) : Ok W (sys (Vfs.stat fo p)) :=
  .looking fun os => stat_state os p fo

theorem Ok.fail (e : CpErr) : Ok W (fail e) :=
  fun _ => .of_extends (Os.extends_of_fs rfl rfl) rfl rfl

end

/-! ## A file -/

section

variable {os os' : Os}

theorem content_obj : os.content (.obj ℓ i) = .ok b ↔ readNode false (os.fs.nodes i) = some b := by
  cases hn : os.fs.nodes i <;> simp [Os.content, hn, readNode]

theorem copyInto_opened (i : Handle) (p : Bool) (h : openWrite true dst os = (.ok output, os')) :
    (copyInto i dst p os).2.fs = (copy output i os').2.fs ∧
      (copyInto i dst p os).2.cwd = (copy output i os').2.cwd ∧
      ((copyInto i dst p os).1 = .ok () → (copy output i os').1 = .ok ()) := by
  unfold copyInto
  simp only [Sys.bind_apply, h]
  cases hc : (copy output i os').1 with
  | error e => simp
  | ok u =>
    cases p with
    | false => simp
    | true =>
      have hs : (setAttr dst (copy output i os').2).2 = (copy output i os').2.tick :=
        call_state _ fun _ => rfl
      simp only [if_true, hs]
      exact ⟨rfl, rfl, fun _ => trivial⟩

/-- A file that was empty holds, after a copy that succeeds, what was read. -/
theorem copyInto_empty (inp : Handle) (p : Bool)
    (h : openWrite true dst os = (.ok (.obj ℓ i), os')) (hi : os'.fs.nodes i = .file []) : ∃ data,
      (copyInto inp dst p os).2.fs = os'.fs.setNode i (.file data) ∧
      (copyInto inp dst p os).2.cwd = os'.cwd ∧
      ((copyInto inp dst p os).1 = .ok () → os'.content inp = .ok data) := by
  obtain ⟨hfs, hcwd, hok⟩ := copyInto_opened inp p h
  obtain ⟨hcopy, -, hcwd', hd⟩ := @Mv.copy_empty os' ℓ i inp hi
  refine ⟨_, hfs.trans hcopy, hcwd.trans hcwd', fun h => ?_⟩
  have hr := hd.mp (hok h)
  unfold Mv.copyResult at hr ⊢
  cases hc : os'.content inp with
  | error e =>
    rw [hc] at hr
    cases hr
  | ok data =>
    cases hf : os'.fault with
    | none => rfl
    | some fault =>
      rw [hc, hf] at hr
      cases hr

/-- The two ends of a copy: `os` is the state in which the source was opened, `s` the one in which
it was read, and `os'` the one at the end. -/
theorem twin_of_content {s : Os} (hsrc : (openRead src os).1 = .ok input)
    (hs : Same os os' true src)
    (hn : ∀ ℓ j, os.look true src = .ok (ℓ, os.fs.nodes j) → os.fs.ino? ℓ = some j →
      s.fs.nodes j = os.fs.nodes j)
    (hc : s.content input = .ok data) (hd : os'.look true dst = .ok (ℓ, .file data)) :
    Twin os' ⟨src, dst, false⟩ := by
  rcases openRead_ok hsrc with rfl | ⟨k, j, rfl, hl, hi⟩
  · cases hc
  · rw [content_obj, hn k j hl hi] at hc
    exact ⟨data, reads_eq_some.mpr ⟨k, _, hs _ hl, hc⟩, holds_eq_some.mpr ⟨ℓ, _, hd, rfl⟩⟩

/-- What a copy does to the watched paths and to its own. -/
def CopyKeeps (W : List Bytes) (copied : List CopyRecord) (os : Os) (src dst : Bytes)
    (x : Except Errno Unit × Os) : Prop :=
  (∀ p ∈ watched W copied, Same os x.2 p.1 p.2) ∧
    (x.1 = .ok () → src ∈ W → Twin x.2 ⟨src, dst, false⟩)

theorem copyInto_regular (hsrc : (openRead src os).1 = .ok input) (hf : os.tick.fault = none)
    (ht : os.tick.writeTarget true dst = .ok (.regular ℓ i))
    (ho : ∀ p ∈ watched W copied, os.fileOf p.1 p.2 ≠ some i) :
    CopyKeeps W copied os src dst (copyInto input dst preserve os.tick) := by
  obtain ⟨o, hr, hℓ, hin, hi⟩ := writeTarget_regular ht
  obtain ⟨data, hfs, hc, hok⟩ := copyInto_empty input preserve (openWrite_ok _ _ hf ht)
    (by simp [Os.openTarget, Os.truncate, Fs.setNode])
  replace hfs := hfs.trans (Fs.setNode_setNode _ _)
  have hs : ∀ p ∈ watched W copied, Same os (copyInto input dst preserve os.tick).2 p.1 p.2 := by
    intro p hp
    exact same_setNode hi hfs hc (ho p hp)
  refine ⟨hs, fun h hW => ?_⟩
  have hw : (true, src) ∈ watched W copied := mem_watched_source hW true
  apply twin_of_content hsrc (hs _ hw) _ (hok h) (look_setNode hi hfs hc hr hℓ hin)
  intro k j hl hj
  -- the source is watched, so it is another file
  have hne : j ≠ i := by
    rintro rfl
    exact ho _ hw ((fileOf_eq hl).trans hj)
  exact Function.update_of_ne hne _ _

theorem copyInto_free {d : Loc} (hsrc : (openRead src os).1 = .ok input)
    (hf : os.tick.fault = none) (ht : os.tick.writeTarget true dst = .ok (.free (d ++ [c])))
    (hr : os.resolve true dst = .ok (d, [c])) :
    CopyKeeps W copied os src dst (copyInto input dst preserve os.tick) := by
  obtain ⟨data, hfs, hc, hok⟩ := copyInto_empty input preserve (openWrite_ok _ _ hf ht)
    (by simp [Os.openTarget, Os.create, Fs.add, Fs.link])
  have hg : Grown os.fs (copyInto input dst preserve os.tick).2.fs (d ++ [c]) (.file data) := by
    rw [hfs.trans Fs.setNode_add]
    exact grown_add (by simp) (resolve_free hr).2 _
  have hs : ∀ fo p, Same os (copyInto input dst preserve os.tick).2 fo p := fun fo p =>
    same_grown hg hc
  refine ⟨fun p _ => hs p.1 p.2, fun h _ => ?_⟩
  apply twin_of_content hsrc (hs true src) _ (hok h) (look_grown hg hc hr (.inl rfl))
  intro k j _ hj
  exact Function.update_of_ne (Nat.ne_of_lt (os.fs.ino?_lt hj)) _ _

/-- **A harmless copy** leaves alone what is watched, and the destination holds what the source
holds. -/
theorem copyInto_keeps (pr : Bool) (hs : (openRead src os).1 = .ok input)
    (hh : harmless W ⟨⟨os.tick, copied⟩, .write src dst⟩ = true) :
    CopyKeeps W copied os src dst (copyInto input dst pr os.tick) := by
  rcases openWrite_cases os.tick dst true with ⟨e, hfail⟩ | ⟨hf, t, ht⟩
  · simp only [copyInto, Sys.bind_apply, hfail]
    exact ⟨fun x _ => same_of_fs rfl rfl, nofun⟩
  cases t with
  | regular ℓ i =>
    apply copyInto_regular hs hf ht
    intro p hp
    simp only [harmless, ht, all_eq_true, decide_eq_true_eq] at hh
    exact hh p hp
  | special ℓ i => simp [harmless, ht] at hh
  | free k =>
    obtain ⟨d, c, rfl, hr⟩ := writeTarget_free ht
    exact copyInto_free hs hf ht hr

/-- **A file.** -/
theorem copyFile_ok (W : List Bytes) (src dst : Bytes) (p : Bool) : Ok W (copyFile src dst p) := by
  intro r
  have hr := openRead_state r.os src
  cases ho : (openRead src r.os).1 with
  | error e =>
    simp only [copyFile, copyRegularFile, bind_apply, sys_apply, ho, hr]
    exact .of_extends (Os.extends_of_fs rfl rfl) rfl rfl
  | ok i =>
    have hk : harmless W ⟨⟨r.os.tick, r.copied⟩, .write src dst⟩ = true → _ := copyInto_keeps p ho
    cases hi : (copyInto i dst p r.os.tick).1 with
    | error e =>
      simp only [copyFile, copyRegularFile, bind_apply, sys_apply, note_apply, ho, hr, hi]
      refine .of_step (s := r.os.tick) (Os.extends_of_fs rfl rfl) rfl (append_nil _).symm ?_ ?_
      · exact fun h => (hk h).1
      · exact nofun
    | ok u =>
      simp only [copyFile, copyRegularFile, bind_apply, sys_apply, note_apply, ho, hr, hi]
      refine .of_step (s := r.os.tick) (Os.extends_of_fs rfl rfl) rfl rfl ?_ ?_
      · exact fun h => (hk h).1
      · intro h rec hrec hW
        rw [mem_singleton] at hrec
        subst hrec
        exact (hk h).2 hi hW

end

/-! ## Links -/

section

variable {os os' : Os}

theorem remove_same (hh : harmless W ⟨⟨os, copied⟩, .remove dst⟩ = true) :
    ∀ x ∈ watched W copied, Same os (remove dst os).2 x.1 x.2 := by
  intro x hx
  unfold remove call
  cases os.fault with
  | some fault => exact same_of_fs rfl rfl
  | none =>
    have htick : os.tick.removeTarget dst = os.removeTarget dst := rfl
    simp only [htick]
    cases ht : os.removeTarget dst with
    | error e => exact same_of_fs rfl rfl
    | ok ℓ =>
      simp only [harmless, ht, all_eq_true] at hh
      have hs := hh x hx
      intro found hf
      simp only [spared, hf, decide_eq_true_eq] at hs
      exact hs

/-- **A symbolic link that is not followed.** -/
theorem copyLink_ok (W : List Bytes) (src dst : Bytes) : Ok W (copyLink src dst) := by
  intro r
  have hreadlink : (readlink src r.os).2 = r.os.tick := call_state r.os fun _ => rfl
  cases hl : (readlink src r.os).1 with
  | error e =>
    simp only [copyLink, bind_apply, sys_apply, hl, hreadlink]
    exact .of_extends (Os.extends_of_fs rfl rfl) rfl rfl
  | ok target =>
    obtain ⟨ℓ, hlo⟩ := readlink_ok hl
    obtain ⟨he, hm⟩ := symlink_extends (remove dst r.os.tick).2 target dst
    have hs : harmless W ⟨⟨r.os.tick, r.copied⟩, .remove dst⟩ = true →
        ∀ x ∈ watched W r.copied, Same r.os.tick (replaceLink target dst r.os.tick).2 x.1 x.2 :=
      fun h x hx => (remove_same h x hx).trans (he x.1 x.2)
    cases hr : (replaceLink target dst r.os.tick).1 with
    | error e =>
      simp only [copyLink, bind_apply, sys_apply, note_apply, hl, hreadlink, hr]
      exact .of_step (s := r.os.tick) (Os.extends_of_fs rfl rfl) rfl (append_nil _).symm hs
        nofun
    | ok u =>
      simp only [copyLink, bind_apply, sys_apply, note_apply, hl, hreadlink, hr]
      refine .of_step (s := r.os.tick) (Os.extends_of_fs rfl rfl) rfl rfl hs ?_
      intro h rec hrec hW
      rw [mem_singleton] at hrec
      subst hrec
      obtain ⟨ℓ', hd⟩ := hm hr
      have hsrc := hs h (false, src) (mem_watched_source hW false) _ hlo
      exact ⟨target, reads_eq_some.mpr ⟨ℓ, _, hsrc, rfl⟩, holds_eq_some.mpr ⟨ℓ', _, hd, rfl⟩⟩

/-- A hard link to the first copy. -/
theorem linkTo_ok (W : List Bytes) (src first dst : Bytes) : Ok W (linkTo src first dst) := by
  intro r
  obtain ⟨he, hm⟩ := link_extends r.os first dst
  have hs : ∀ x ∈ watched W r.copied, Same r.os (link first dst r.os).2 x.1 x.2 := fun x _ =>
    he x.1 x.2
  cases hl : (link first dst r.os).1 with
  | error e =>
    simp only [linkTo, bind_apply, sys_apply, note_apply, hl]
    exact .of_step (Os.extends_of_fs rfl rfl) rfl (append_nil _).symm (fun _ => hs) nofun
  | ok u =>
    simp only [linkTo, bind_apply, sys_apply, note_apply, hl]
    refine .of_step (Os.extends_of_fs rfl rfl) rfl rfl (fun _ => hs) ?_
    intro h rec hr _
    rw [mem_singleton] at hr
    subst hr
    obtain ⟨ℓ, n, hf, hn, hd⟩ := hm hl
    cases n with
    | dir => exact absurd rfl hn
    | symlink target => simp [harmless, hf] at h
    | special stream => simp [harmless, hf] at h
    | file b =>
      simp only [harmless, hf, decide_eq_true_eq] at h
      obtain ⟨ℓ', hd⟩ := hd rfl
      refine ⟨b, ?_, holds_eq_some.mpr ⟨ℓ', _, hd, rfl⟩⟩
      exact reads_same (he true src) (reads_of_holds h)

theorem clear_ok (W : List Bytes) (dst : Bytes) : Ok W (clear dst) := by
  intro r
  exact .of_step (Os.extends_of_fs rfl rfl) rfl (append_nil _).symm remove_same
    nofun

/-- **A second name of a file.** -/
theorem preserveLink_ok (W : List Bytes) (src dst : Bytes) : Ok W (preserveLink src dst) := by
  refine .bind (.looking fun os => call_state os fun _ => rfl) fun found => ?_
  have hr : ∀ i, Ok W (do
      modify fun r => { r with hardLinks := (i, dst) :: r.hardLinks }
      return false : CpM Bool) :=
    fun i r => .of_extends (Os.extends_of_fs rfl rfl) rfl rfl
  split
  · next i =>
    refine .bind (Leads.refl W) fun r => .bind ?_ fun l => ?_
    · cases r.hardLinks.lookup i with
      | some first => exact .bind (clear_ok W dst) fun _ => linkTo_ok W src first dst
      | none => exact .pure W false
    · split
      · exact .pure W true
      · exact hr i
  · exact .pure W false

end

/-! ## Directories and operands -/

section

section

variable {below : (src dst : Bytes) → CpM Outcome} (hbelow : ∀ src dst, Ok W (below src dst))

include hbelow

theorem copyEntry_ok (src dst : Bytes) (n : Node) : Ok W (copyEntry below preserve src dst n) := by
  cases n with
  | dir => exact hbelow src dst
  | symlink target => exact copyLink_ok W src dst
  | file data => exact copyFile_ok W src dst preserve
  | special stream => exact copyFile_ok W src dst preserve

theorem copyEntries_ok (src dst : Bytes) (names : List Name) :
    Ok W (copyEntries below mode preserve src dst names) := by
  induction names with
  | nil => exact .pure W _
  | cons name names ih =>
    refine .bind (.stat _ _) fun found => ?_
    cases found with
    | error e => exact .pure W _
    | ok n =>
      refine .bind (copyEntry_ok hbelow _ _ n) fun o => ?_
      cases o with
      | error e => exact .pure W _
      | ok u => exact ih

end

/-- **A directory**, by induction on the depth. -/
theorem copyDir_ok (fuel : Nat) : ∀ src dst, Ok W (copyDir mode preserve fuel src dst) := by
  induction fuel with
  | zero => exact fun _ _ => .pure W _
  | succ fuel ih =>
    intro src dst
    refine .bind (.stat true src) fun found => ?_
    cases found with
    | error e => exact .pure W _
    | ok n =>
      refine .bind (.extending fun os => mkdirAll_extends os dst) fun m => ?_
      cases m with
      | error e => exact .pure W _
      | ok u =>
        refine .bind (.looking fun os => call_state os fun _ => rfl) fun en => ?_
        cases en with
        | error e => exact .pure W _
        | ok names => exact copyEntries_ok ih src dst names

theorem copySingle_ok (fuel : Nat) (src dst : Bytes) (a recursive : Bool) :
    Ok W (copySingle fuel src dst mode a preserve recursive) := by
  refine .bind (.stat _ _) fun found => ?_
  split
  · exact .pure W _
  · split
    · exact copyDir_ok fuel src dst
    · exact .pure W _
  · refine .bind (.stat false src) fun found => ?_
    split
    · split
      · exact copyFile_ok W src dst preserve
      · exact copyLink_ok W src dst
    · exact copyFile_ok W src dst preserve

theorem finish_ok (o : Outcome) : Ok W (finish o) := by
  unfold finish
  split
  · exact .pure W _
  · exact .pure W _
  · exact .bind (.fail _) fun _ => .pure W _

theorem parentsOperand_ok (fuel : Nat) (o : Options) (dst src : Bytes) :
    Ok W (parentsOperand fuel o dst src) := by
  refine .bind (.stat true dst) fun found => ?_
  split
  · exact .bind (.fail _) fun _ => .pure W _
  · refine .bind (.extending fun os => mkdirAll_extends os _) fun m => ?_
    cases m with
    | error e => exact .bind (.fail _) fun _ => .pure W _
    | ok u => exact .bind (copySingle_ok fuel _ _ _ _) finish_ok
  · exact .bind (.fail _) fun _ => .pure W _

theorem operand_ok (fuel : Nat) (o : Options) (dst src : Bytes) :
    Ok W (operand fuel o dst src) := by
  have ht : Ok W (targetOf dst src) := by
    refine .bind (.stat true dst) fun found => ?_
    split <;> exact .pure W _
  refine .bind ht fun dt => .bind (preserveLink_ok W src dt) fun l => ?_
  split
  · exact .pure W _
  · exact .bind (copySingle_ok fuel _ _ _ _) finish_ok

/-- **The loop over the operands.** -/
theorem operands_ok (fuel : Nat) (o : Options) (dst : Bytes) (s : List Bytes) :
    ∀ exitCode, Ok W (operands fuel o dst exitCode s) := by
  induction s with
  | nil => exact fun _ => .pure W _
  | cons src s ih =>
    intro exitCode
    refine .bind ?_ fun c => ?_
    · split
      · exact parentsOperand_ok fuel o dst src
      · exact operand_ok fuel o dst src
    · cases c with
      | stop code => exact .pure W _
      | next code => exact ih _

theorem run_ok (fuel : Nat) (o : Options) (p : List Bytes) : Ok W (run fuel o p) := by
  unfold run
  split
  · split
    · exact .bind (.fail _) fun _ => .pure W _
    · exact operands_ok fuel _ _ _ 0
  · exact .bind (.fail _) fun _ => .pure W _

end

/-! ## The whole run -/

section

variable {os : Os}

theorem Good.faithful (h : Good W ⟨os, []⟩ v) (hsrcs : srcs ⊆ W)
    (hW : ∀ rec ∈ v.copied, rec.src ∈ W) :
    Faithful os srcs v where
  sources src hsrc asLink b hb := holds_same (h.same _ (mem_watched_source (hsrcs hsrc) _)) hb
  copies rec hrec b hb := by
    rcases h.twins rec hrec with hold | ⟨b', hr, hh⟩
    · cases hold
    · -- the source still holds what it held, so that is what was copied
      have hs := reads_same (h.same _ (mem_watched_source (hW rec hrec) _)) hb
      rw [hs] at hr
      cases hr
      exact hh

end

/-- **If every call is harmless, `cp` is faithful**: at the end, and before each call, the operands
hold what they held at the start, and every copy in the report holds what its source held. -/
theorem run_faithful (fuel : Nat) (o : Options) (positional : List Bytes) (os : Os) {code : Nat}
    {r : Run}
    (hrun : run fuel o positional (Run.start os) = (code, r))
    (hharmless : ∀ t ∈ r.steps, harmless (sourcesOf positional.dropLast r.copied) t = true) :
    Faithful os positional.dropLast r.toView ∧ ∀ t ∈ r.steps,
      Faithful os positional.dropLast t.toView := by
  let W := sourcesOf positional.dropLast r.copied
  have hl : Leads W (Run.start os) r := by
    have h : Leads W _ _ := run_ok fuel o positional (Run.start os)
    rwa [hrun] at h
  have hs : positional.dropLast ⊆ W := subset_append_left _ _
  have hc : ∀ rec ∈ r.copied, rec.src ∈ W := fun rec hr => mem_append_right _ (mem_map_of_mem hr)
  have hf : Fine W r := ⟨hharmless, hc⟩
  refine ⟨(hl.good hf).faithful hs hc, fun t ht => ?_⟩
  rcases hl.between hf t ht with hn | hg
  · cases hn
  · refine hg.faithful hs fun rec hr => hc rec ?_
    rcases hl.within t ht with hn | hp
    · cases hn
    · exact hp.subset hr

/-- Two files, and a directory with an older version of the first. -/
def twoFiles : Os where
  fs := (((Fs.empty.add [str "f"] (.file (str "new"))).add [str "g"] (.file (str "data"))).add
    [str "d"] .dir).add
    [str "d", str "f"] (.file (str "old"))
  cwd := []
  log := []
  faults := fun _ => none
  clock := 0

def intoCopy : Nat × Run := run 0 .none [str "f", str "g", str "d"] (Run.start twoFiles)

theorem run_faithful_intoCopy : intoCopy.1 = 0 ∧
    intoCopy.2.copied = [⟨str "f", str "d/f", false⟩, ⟨str "g", str "d/g", false⟩] ∧
    Faithful twoFiles [str "f", str "g"] intoCopy.2.toView := by
  have hr : intoCopy = (intoCopy.1, intoCopy.2) := (Prod.eta intoCopy).symm
  have hh : intoCopy.2.steps.all (harmless (sourcesOf [str "f", str "g"] intoCopy.2.copied)) =
      true := by
    decide +kernel
  refine ⟨by decide +kernel, by decide +kernel, ?_⟩
  exact (run_faithful 0 .none [str "f", str "g", str "d"] _ hr (all_eq_true.mp hh)).1

def selfCopy : Nat × Run :=
  run 0 .none [str "f", str "f"] (Run.start (Os.single (str "f") (str "data")))

/-- **`cp f f` empties the file**, reports it as copied and exits with 0. -/
theorem selfCopy_not_faithful : selfCopy.1 = 0 ∧ selfCopy.2.copied = [⟨str "f", str "f", false⟩] ∧
    holds selfCopy.2.os false (str "f") = some [] ∧
    ¬ Faithful (Os.single (str "f") (str "data")) [str "f"] selfCopy.2.toView := by
  have he : holds selfCopy.2.os false (str "f") = some [] := by decide +kernel
  refine ⟨by decide +kernel, by decide +kernel, he, fun h => ?_⟩
  have hk := h.sources (str "f") (by simp) false (str "data") (by decide +kernel)
  cases hk

end GoPosix.Cp
