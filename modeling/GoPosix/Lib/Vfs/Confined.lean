import GoPosix.Lib.Filepath
import GoPosix.Lib.Vfs.Calls

/-!
# Programs that stay inside a directory

Seen from a state `os₀`, a program in the directory `root = os₀.cwd` stays inside it if everything
it does, it does at a location below `root`, to an object that had no name outside when it started
(`Effect.Inside`). `Confined os₀ s` is what such a program keeps; with it goes that nothing outside
has changed.

Where a path leads changes while a program runs. `Os.Leads` says of a path that its lookup is inside
as far as it goes, and that the object at its end, if any, is a good one. Making one of the
directories on the path keeps this (`Leads.create_dir`), because the lookup had stopped there, and
so does removing a name inside (`Leads.remove`).
-/

namespace Vfs

open Bytes Filepath List

/-! ## Trees -/

/-- Whatever there is, is in a directory. -/
def Fs.Tree (fs : Fs) : Prop := ∀ d c, fs.node? (d ++ [c]) ≠ none → fs.node? d = some .dir

section

variable {fs : Fs}

theorem Fs.Tree.empty : Fs.empty.Tree := by
  intro d c h
  rw [Fs.node?, if_neg (by simp)] at h
  exact absurd rfl h

theorem Fs.Tree.below (h : fs.Tree) (hf : fs.node? ℓ ≠ some .dir) (c : Name) :
    fs.node? (ℓ ++ [c]) = none := not_not.mp fun hc => hf (h ℓ c hc)

theorem Fs.Tree.of_new {fs' : Fs} (h : fs.Tree) (hd : fs.node? d = some .dir)
    (hf : fs.node? (d ++ [c]) = none)
    (hn : ∀ ℓ, ℓ ≠ d ++ [c] → fs'.node? ℓ = fs.node? ℓ) : fs'.Tree := by
  have hne : d ≠ d ++ [c] := fun e => by simpa using congrArg List.length e
  intro d' c' hc'
  by_cases hat : d' ++ [c'] = d ++ [c]
  · obtain ⟨rfl, -⟩ := append_inj' hat rfl
    rw [hn d' hne, hd]
  rw [hn _ hat] at hc'
  have hdir := h d' c' hc'
  rw [hn d', hdir]
  rintro rfl
  rw [hf] at hdir
  cases hdir

theorem Fs.Tree.add (h : fs.Tree) (hd : fs.node? d = some .dir) (hf : fs.node? (d ++ [c]) = none) :
    (fs.add (d ++ [c]) n).Tree := by
  refine h.of_new hd hf fun ℓ hℓ => ?_
  rw [Fs.node?_add fs (by simp), if_neg hℓ]

theorem Fs.Tree.link (h : fs.Tree) (hd : fs.node? d = some .dir)
    (hf : fs.node? (d ++ [c]) = none) (hi : i < fs.next) : (fs.link (d ++ [c]) i hi).Tree := by
  refine h.of_new hd hf fun ℓ hℓ => ?_
  rw [Fs.node?_link fs (by simp), if_neg hℓ]

theorem Fs.Tree.setNode (h : fs.Tree) (hi : fs.nodes i = .file x) :
    (fs.setNode i (.file y)).Tree := by
  have hn : ∀ ℓ, (fs.setNode i (.file y)).node? ℓ = fs.node? ℓ ∨
      fs.node? ℓ = some (.file x) ∧ (fs.setNode i (.file y)).node? ℓ = some (.file y) := by
    intro ℓ
    rcases eq_or_ne ℓ [] with rfl | hℓ
    · simp
    rw [Fs.node?_setNode fs hℓ]
    split_ifs with hin
    · exact .inr ⟨by rw [Fs.node?_of_ino? fs hℓ hin, hi], rfl⟩
    · exact .inl rfl
  intro d c hc
  have hold : fs.node? (d ++ [c]) ≠ none := by
    rcases hn (d ++ [c]) with he | ⟨he, -⟩
    · rwa [← he]
    · rw [he]
      simp
  have hd := h d c hold
  rcases hn d with he | ⟨he, -⟩
  · rw [he, hd]
  · rw [hd] at he
    cases he

theorem Fs.Tree.unlink (h : fs.Tree) (hℓ : ℓ ≠ []) (hchildren : ∀ c, fs.node? (ℓ ++ [c]) = none) :
    (fs.unlink ℓ).Tree := by
  intro d c hc
  rw [Fs.node?_unlink fs hℓ] at hc ⊢
  split_ifs at hc with hat
  · exact absurd rfl hc
  · rw [if_neg, h d c hc]
    rintro rfl
    exact hc (hchildren c)

end

/-! ## Effects inside a directory -/

/-- The object has a name outside `root`. -/
def Fs.Foreign (fs : Fs) (root : Loc) (i : Ino) : Prop := ∃ ℓ, fs.ino? ℓ = some i ∧ ¬ root <+: ℓ

theorem Fs.foreign_iff (fs : Fs) (root : Loc) (i : Ino) :
    fs.Foreign root i ↔ ∃ e ∈ fs.names.entries, e.2 = i ∧ ¬ root <+: e.1 := by
  constructor
  · rintro ⟨ℓ, hi, ho⟩
    exact ⟨⟨ℓ, i⟩, AList.mem_lookup_iff.mp hi, rfl, ho⟩
  · rintro ⟨⟨ℓ, j⟩, he, rfl, ho⟩
    exact ⟨ℓ, AList.mem_lookup_iff.mpr he, ho⟩

instance (fs : Fs) (root : Loc) (i : Ino) : Decidable (fs.Foreign root i) :=
  decidable_of_iff' _ (fs.foreign_iff root i)

theorem Fs.Foreign.lt {fs : Fs} {i : Ino} (h : fs.Foreign root i) : i < fs.next := by
  obtain ⟨ℓ, hi, -⟩ := h
  exact fs.ino?_lt hi

/-- What was done was done below `root`, to an object of which `fs` has no name outside. -/
def Effect.Inside (fs : Fs) (root : Loc) : Effect → Prop
  | .create ℓ => root <+: ℓ
  | .truncate ℓ i | .write ℓ i => root <+: ℓ ∧ ¬ fs.Foreign root i
  | .link source i ℓ => root <+: source ∧ ¬ fs.Foreign root i ∧ root <+: ℓ
  | .remove ℓ => root <+: ℓ
  | .move source ℓ => root <+: source ∧ root <+: ℓ

instance (fs : Fs) (root : Loc) : DecidablePred (Effect.Inside fs root)
  | .create ℓ => inferInstanceAs (Decidable (root <+: ℓ))
  | .truncate ℓ i => inferInstanceAs (Decidable (root <+: ℓ ∧ ¬ fs.Foreign root i))
  | .write ℓ i => inferInstanceAs (Decidable (root <+: ℓ ∧ ¬ fs.Foreign root i))
  | .link source i ℓ =>
    inferInstanceAs (Decidable (root <+: source ∧ ¬ fs.Foreign root i ∧ root <+: ℓ))
  | .remove ℓ => inferInstanceAs (Decidable (root <+: ℓ))
  | .move source ℓ => inferInstanceAs (Decidable (root <+: source ∧ root <+: ℓ))

/-- Since `os₀`, a program in the directory of `os₀` has done nothing outside it. -/
structure Confined (os₀ s : Os) : Prop where
  cwd : s.cwd = os₀.cwd
  tree : s.fs.Tree
  next : os₀.fs.next ≤ s.fs.next
  log : ∃ new, s.log = os₀.log ++ new ∧ ∀ e ∈ new, e.Inside os₀.fs os₀.cwd
  names : ∀ ℓ, ¬ os₀.cwd <+: ℓ → s.fs.ino? ℓ = os₀.fs.ino? ℓ
  nodes : ∀ i, os₀.fs.Foreign os₀.cwd i → s.fs.nodes i = os₀.fs.nodes i

namespace Confined

variable {os₀ s s' : Os}

theorem refl (h : os₀.fs.Tree) : Confined os₀ os₀ :=
  ⟨rfl, h, le_rfl, ⟨[], by simp⟩, fun _ _ => rfl, fun _ _ => rfl⟩

theorem tick (h : Confined os₀ s) : Confined os₀ s.tick :=
  ⟨h.cwd, h.tree, h.next, h.log, h.names, h.nodes⟩

/-- **Outside, everything is as it was.** -/
theorem node?_eq (h : Confined os₀ s) (ho : ¬ os₀.cwd <+: ℓ) : s.fs.node? ℓ = os₀.fs.node? ℓ := by
  unfold Fs.node?
  rw [h.names ℓ ho]
  cases hi : os₀.fs.ino? ℓ with
  | none => rfl
  | some i => rw [Option.map_some, Option.map_some, h.nodes i ⟨ℓ, hi, ho⟩]

/-- A number that is handed out later is not that of an object with a name outside. -/
theorem not_foreign (h : Confined os₀ s) (hi : s.fs.next ≤ i) : ¬ os₀.fs.Foreign os₀.cwd i :=
  fun hf => Nat.not_lt.mpr (Nat.le_trans h.next hi) hf.lt

theorem step (h : Confined os₀ s) (hc : s'.cwd = s.cwd) (ht : s'.fs.Tree)
    (hnext : s.fs.next ≤ s'.fs.next) (hl : s'.log = s.log ++ [e])
    (he : e.Inside os₀.fs os₀.cwd) (hn : ∀ ℓ, ¬ os₀.cwd <+: ℓ → s'.fs.ino? ℓ = s.fs.ino? ℓ)
    (hnodes : ∀ i, os₀.fs.Foreign os₀.cwd i → s'.fs.nodes i = s.fs.nodes i) : Confined os₀ s' where
  cwd := hc.trans h.cwd
  tree := ht
  next := Nat.le_trans h.next hnext
  log := by
    obtain ⟨n, hnew, hin⟩ := h.log
    refine ⟨n ++ [e], by rw [hl, hnew, append_assoc], fun e' he' => ?_⟩
    rcases mem_append.mp he' with he' | he'
    · exact hin e' he'
    · rwa [mem_singleton.mp he']
  names ℓ ho := (hn ℓ ho).trans (h.names ℓ ho)
  nodes i hi := (hnodes i hi).trans (h.nodes i hi)

theorem ne_of_outside (hin : os₀.cwd <+: ℓ) (ho : ¬ os₀.cwd <+: ℓ') : ℓ' ≠ ℓ :=
  fun e => ho (e ▸ hin)

theorem create (h : Confined os₀ s) (hd : s.fs.node? d = some .dir)
    (hf : s.fs.node? (d ++ [c]) = none) (hin : os₀.cwd <+: d) :
    Confined os₀ (s.create (d ++ [c]) n) := by
  have hin' : os₀.cwd <+: d ++ [c] := hin.trans (prefix_append d [c])
  refine h.step rfl (h.tree.add hd hf) (Nat.le_succ _) rfl hin' (fun ℓ ho => ?_) fun i hi => ?_
  · rw [Os.create, Fs.ino?_add, if_neg (ne_of_outside hin' ho)]
  · exact Function.update_of_ne (fun e => h.not_foreign (Nat.le_of_eq e.symm) hi) ..

theorem link {source : Loc} (h : Confined os₀ s) (hd : s.fs.node? d = some .dir)
    (hf : s.fs.node? (d ++ [c]) = none) (hin : os₀.cwd <+: d) (hs : os₀.cwd <+: source)
    (hg : ∀ i, s.fs.ino? source = some i → ¬ os₀.fs.Foreign os₀.cwd i) :
    Confined os₀ (s.link source (d ++ [c])) := by
  have hin' : os₀.cwd <+: d ++ [c] := hin.trans (prefix_append d [c])
  unfold Os.link
  split
  · exact h
  · next i hi =>
    refine h.step rfl (h.tree.link hd hf (s.fs.ino?_lt hi)) le_rfl rfl ⟨hs, hg i hi, hin'⟩ ?_
      fun _ _ => rfl
    intro ℓ ho
    rw [Fs.ino?_link, if_neg (ne_of_outside hin' ho)]

theorem setNode (h : Confined os₀ s) (hi : s.fs.nodes i = .file x)
    (hg : ¬ os₀.fs.Foreign os₀.cwd i) (he : e.Inside os₀.fs os₀.cwd)
    (hfs : s'.fs = s.fs.setNode i (.file y)) (hc : s'.cwd = s.cwd) (hl : s'.log = s.log ++ [e]) :
    Confined os₀ s' := by
  refine h.step hc (hfs ▸ h.tree.setNode hi) (hfs ▸ le_rfl) hl he (fun ℓ _ => by rw [hfs]; rfl) ?_
  intro j hj
  have hne : j ≠ i := by
    rintro rfl
    exact hg hj
  rw [hfs]
  exact Function.update_of_ne hne ..

theorem append (h : Confined os₀ s) (hin : os₀.cwd <+: ℓ)
    (hg : ¬ os₀.fs.Foreign os₀.cwd i) : Confined os₀ (s.append ℓ i data) := by
  have he : (Effect.write ℓ i).Inside os₀.fs os₀.cwd := ⟨hin, hg⟩
  by_cases hf : ∃ o, s.fs.nodes i = .file o
  · obtain ⟨o, hi⟩ := hf
    exact h.setNode hi hg he (append_file s hi ℓ data) rfl rfl
  · have hfs := append_other s (fun o hi => hf ⟨o, hi⟩) ℓ data
    exact h.step rfl (hfs ▸ h.tree) (hfs ▸ le_rfl) rfl he (fun _ _ => by rw [hfs]) fun _ _ => by
      rw [hfs]

theorem remove (h : Confined os₀ s) (hℓ : ℓ ≠ []) (hc : ∀ c, s.fs.node? (ℓ ++ [c]) = none)
    (hin : os₀.cwd <+: ℓ) : Confined os₀ (s.remove ℓ) := by
  refine h.step rfl (h.tree.unlink hℓ hc) le_rfl rfl hin (fun ℓ' ho => ?_) fun _ _ => rfl
  rw [Os.remove, Fs.ino?_unlink, if_neg (ne_of_outside hin ho)]

end Confined

/-! ## Where a path leads -/

/-- The lookup of a path from the current directory is inside, as far as it goes, and the object at
its end is a good one. -/
def Os.Leads (s : Os) (good : Ino → Prop) (xs : List Name) : Prop :=
  ∀ ℓ r, walk s.fs.shape? true maxLinks s.cwd xs = .ok (ℓ, r) →
    s.cwd <+: ℓ ∧ (r = [] → ∀ i, s.fs.ino? ℓ = some i → good i)

instance (s : Os) (good : Ino → Prop) [DecidablePred good] (xs : List Name) :
    Decidable (s.Leads good xs) :=
  match h : walk s.fs.shape? true maxLinks s.cwd xs with
  | .error _ => .isTrue fun _ _ h' => by rw [h] at h'; cases h'
  | .ok (ℓ, r) =>
    decidable_of_iff (s.cwd <+: ℓ ∧ (r = [] → ∀ i ∈ s.fs.ino? ℓ, good i))
      ⟨fun hin _ _ h' => by rw [h] at h'; cases h'; exact hin, fun hl => hl ℓ r h⟩

namespace Os.Leads

variable {s : Os}

theorem stop (h : s.Leads good (xs ++ ys))
    (hs : Lookup s.fs.shape? follow maxLinks s.cwd xs d [c]) :
    Lookup s.fs.shape? true maxLinks s.cwd (xs ++ ys) d (c :: ys) ∧ s.cwd <+: d := by
  have hall : Lookup s.fs.shape? true maxLinks s.cwd (xs ++ ys) d (c :: ys) :=
    hs.append_stopped (.inr rfl)
  exact ⟨hall, (h d _ hall.walk_eq).1⟩

/-- **Making a directory on the way** keeps the path inside: the new directory is empty. -/
theorem create_dir (h : s.Leads good (xs ++ ys)) (ht : s.fs.Tree) (hys : ∀ y ∈ ys, Plain y)
    (hnew : good s.fs.next) (hstop : Lookup s.fs.shape? follow maxLinks s.cwd xs d [c]) :
    (s.create (d ++ [c]) .dir).Leads good (xs ++ ys) := by
  obtain ⟨hall, hin⟩ := h.stop hstop
  obtain ⟨-, -, hf⟩ := hall.stopped
  have hin' : s.cwd <+: d ++ [c] := hin.trans (prefix_append d [c])
  have hl : ∀ ℓ, (s.create (d ++ [c]) .dir).fs.shape? ℓ =
      if ℓ = d ++ [c] then some .dir else s.fs.shape? ℓ := fun ℓ => Fs.shape?_add (by simp)
  have hd : (s.create (d ++ [c]) .dir).fs.shape? (d ++ [c]) = some .dir := by
    rw [hl, if_pos rfl]
  have hs : ∀ ℓ, ℓ ≠ d ++ [c] →
      (s.create (d ++ [c]) .dir).fs.shape? ℓ = s.fs.shape? ℓ := fun ℓ hℓ => by rw [hl, if_neg hℓ]
  rcases hall.extend hs hf with h' | ⟨rest, -, hr, hgood⟩
  · -- the lookup cannot stop at the new directory any more
    obtain ⟨-, -, hn⟩ := h'.stopped
    rw [hd] at hn
    cases hn
  · obtain ⟨-, rfl⟩ := List.cons.inj hr
    obtain ⟨m, hm⟩ := hgood hd
    intro ℓ r hw
    rw [show (s.create (d ++ [c]) .dir).cwd = s.cwd from rfl, hm] at hw
    cases ys with
    | nil =>
      rw [walk_nil] at hw
      cases hw
      refine ⟨hin', fun _ i hi => ?_⟩
      rw [Os.create, Fs.ino?_add, if_pos rfl] at hi
      cases hi
      exact hnew
    | cons y ys =>
      have he : (s.create (d ++ [c]) .dir).fs.shape? (d ++ [c] ++ [y]) = none := by
        rw [hl, if_neg (fun e => by simpa using congrArg List.length e), Fs.shape?_eq_none]
        apply ht.below
        rw [Fs.shape?_eq_none.mp hf]
        simp
      rw [walk_missing hd (hys y mem_cons_self) he] at hw
      cases hw
      exact ⟨hin', fun h => absurd h (cons_ne_nil y ys)⟩

/-- The old tree is the new one with an object more. -/
theorem shape?_remove (s : Os) (d : Loc) (c : Name) :
    (∀ ℓ, ℓ ≠ d ++ [c] → s.fs.shape? ℓ = (s.remove (d ++ [c])).fs.shape? ℓ) ∧
      (s.remove (d ++ [c])).fs.shape? (d ++ [c]) = none := by
  have hl : ∀ ℓ, (s.remove (d ++ [c])).fs.shape? ℓ =
      if ℓ = d ++ [c] then none else s.fs.shape? ℓ := fun ℓ => Fs.shape?_unlink (by simp)
  exact ⟨fun ℓ hℓ => by rw [hl, if_neg hℓ], by rw [hl, if_pos rfl]⟩

/-- **Removing a name inside** keeps every path inside. -/
theorem remove (h : s.Leads good xs) (hin : s.cwd <+: d) : (s.remove (d ++ [c])).Leads good xs := by
  obtain ⟨hs, hf⟩ := shape?_remove s d c
  intro ℓ r hw
  rcases (walk_eq_ok.mp hw).extend hs hf with h' | ⟨rest, rfl, rfl, -⟩
  · obtain ⟨hin', hg⟩ := h ℓ r h'.walk_eq
    refine ⟨hin', fun hr i hi => hg hr i ?_⟩
    rw [Os.remove, Fs.ino?_unlink] at hi
    split_ifs at hi
    exact hi
  · exact ⟨hin, fun h => absurd h (cons_ne_nil c rest)⟩

end Os.Leads

end Vfs
