import GoPosix.Lib.Vfs.Calls

/-!
# What is still at a path

`Kept os os' p`: a path still leads to the object it led to, with the content it had, and everything
below that object is still there. A lookup sees only the shapes of objects, so changing what a
regular file contains changes no lookup (`shape?_setNode`), and a new name changes none that had
found something (`Grown.resolve`).
-/

namespace Vfs

open Bytes

/-- What was at the path, or at the end of its symbolic links, still is, with all it contained. -/
def Kept (os os' : Os) (p : Bytes) : Prop :=
  ∀ follow ℓ n, os.found (os.resolve follow p) = .ok (ℓ, n) →
    os'.found (os'.fs.resolve os.cwd follow p) = .ok (ℓ, n) ∧
      ∀ k m, ℓ <+: k → os.fs.node? k = some m → os'.fs.node? k = some m

theorem kept_of_fs (hfs : os'.fs = os.fs) (p : Bytes) : Kept os os' p := by
  intro f ℓ n hf
  rw [Os.found_eq_ok] at hf ⊢
  rw [hfs]
  exact ⟨hf, fun k m _ hm => hm⟩

theorem Untouched.kept (h : Untouched os os') (p : Bytes) : Kept os os' p := kept_of_fs h.fs p

theorem kept_congr (hfs : s.fs = os.fs) (hc : s.cwd = os.cwd) (p : Bytes) :
    Kept s os' p ↔ Kept os os' p := by
  simp only [Kept, Os.found_eq_ok, Os.resolve, hfs, hc]

section

variable {fs : Fs}

theorem Fs.setNode_setNode (n m : Node) : (fs.setNode i n).setNode i m = fs.setNode i m := by
  simp [Fs.setNode]

theorem Fs.setNode_self (h : fs.nodes i = .file x) : fs.setNode i (.file x) = fs := by
  simp [Fs.setNode, ← h]

theorem shape?_setNode (h : fs.nodes i = .file x) :
    (fs.setNode i (.file y)).shape? = fs.shape? := by
  funext ℓ
  rcases eq_or_ne ℓ [] with rfl | hℓ
  · simp [Fs.shape?]
  · rw [Fs.shape?, Fs.shape?, Fs.node?_setNode fs hℓ]
    split_ifs with hi
    · rw [Fs.node?_of_ino? fs hℓ hi, h]
      rfl
    · rfl

theorem resolve_setNode (h : fs.nodes i = .file x) (c : Loc) (f : Bool) (p : Bytes) :
    (fs.setNode i (.file y)).resolve c f p = fs.resolve c f p := by
  rw [Fs.resolve, Fs.resolve, shape?_setNode h]

end

section

variable {os : Os}

/-- The larger tree differs from the smaller one at a free location only. -/
structure Grown (fs fs' : Fs) (d : Loc) (n : Node) : Prop where
  root : d ≠ []
  free : fs.node? d = none
  node : ∀ ℓ, fs'.node? ℓ = if ℓ = d then some n else fs.node? ℓ

theorem grown_add (hd : d ≠ []) (hf : fs.node? d = none) (n : Node) :
    Grown fs (fs.add d n) d n := ⟨hd, hf, fun _ => Fs.node?_add fs hd⟩

theorem Grown.shape (h : Grown fs fs' d n) :
    (∀ ℓ, ℓ ≠ d → fs'.shape? ℓ = fs.shape? ℓ) ∧ fs.shape? d = none ∧
      fs'.shape? d = some n.shape := by
  refine ⟨fun ℓ hℓ => ?_, Fs.shape?_eq_none.mpr h.free, ?_⟩
  · rw [Fs.shape?, h.node, if_neg hℓ, Fs.shape?]
  · rw [Fs.shape?, h.node, if_pos rfl]
    rfl

theorem Grown.node_eq (h : Grown fs fs' d n) (hm : fs.node? ℓ = some m) : fs'.node? ℓ = some m := by
  rw [h.node, if_neg, hm]
  rintro rfl
  rw [h.free] at hm
  cases hm

/-- **A new name disturbs no lookup that found something.** -/
theorem Grown.resolve (h : Grown os.fs fs' d n) (hr : os.resolve follow p = .ok (ℓ, [])) :
    fs'.resolve os.cwd follow p = .ok (ℓ, []) := by
  unfold Os.resolve Fs.resolve at *
  split_ifs with hp
  · rw [if_pos hp] at hr
    cases hr
  rw [if_neg hp, walk_eq_ok] at hr
  obtain ⟨init, l, rfl⟩ : ∃ init l, d = init ++ [l] :=
    ⟨d.dropLast, d.getLast h.root, (List.dropLast_append_getLast h.root).symm⟩
  obtain ⟨hs, hf, -⟩ := h.shape
  rcases hr.extend hs hf with h' | ⟨rest, -, hrest, -⟩
  · exact h'.walk_eq
  · cases hrest

/-- **A new object changes nothing that was there.** -/
theorem kept_add (hd : d ≠ []) (hfree : os.fs.node? d = none)
    (hfs : os'.fs = os.fs.add d m) (p : Bytes) : Kept os os' p := by
  have hg : Grown os.fs os'.fs d m := hfs ▸ grown_add hd hfree m
  intro f ℓ n hf
  rw [Os.found_eq_ok] at hf ⊢
  obtain ⟨hr, hn⟩ := hf
  exact ⟨⟨hg.resolve hr, hg.node_eq hn⟩, fun k m' _ hk => hg.node_eq hk⟩

theorem Fs.setNode_add {fs : Fs} : (fs.add d n).setNode fs.next m = fs.add d m := by
  simp [Fs.add, Fs.link, Fs.setNode]

/-- The content of a regular file is found behind every path that leads to it. -/
theorem found_setNode {os' : Os} {x y : Bytes} (hi : os.fs.nodes i = .file x)
    (hfs : os'.fs = os.fs.setNode i (.file y)) (hr : os.resolve follow p = .ok (ℓ, []))
    (hin : os.fs.ino? ℓ = some i) (hℓ : ℓ ≠ []) :
    os'.found (os'.fs.resolve os.cwd follow p) = .ok (ℓ, .file y) := by
  rw [Os.found_eq_ok, hfs, resolve_setNode hi, Fs.node?_setNode os.fs hℓ, if_pos hin]
  exact ⟨hr, rfl⟩

end

/-! ## Files opened for writing -/

section

variable {os : Os}

theorem writeTarget_regular (h : os.writeTarget c p = .ok (.regular ℓ i)) :
    ∃ data, os.resolve true p = .ok (ℓ, []) ∧ ℓ ≠ [] ∧ os.fs.ino? ℓ = some i ∧
      os.fs.nodes i = .file data := by
  rcases writeTarget_cases h with ⟨_, _, data, heq, h'⟩ | ⟨_, _, _, heq, -⟩ | ⟨_, _, heq, -⟩
    <;> cases heq
  exact ⟨data, h'⟩

/-- Whether a path can be removed does not depend on what a regular file contains. -/
theorem removeTarget_setNode {os' : Os} (hi : os.fs.nodes i = .file x)
    (hfs : os'.fs = os.fs.setNode i (.file y)) (hcwd : os'.cwd = os.cwd) :
    os'.removeTarget p = os.removeTarget p := by
  have hr : os'.resolve false p = os.resolve false p := by
    rw [Os.resolve, Os.resolve, hfs, hcwd, resolve_setNode hi]
  have hc : ∀ ℓ, os'.fs.hasChildren ℓ = os.fs.hasChildren ℓ := by
    intro ℓ
    rw [hfs]
    rfl
  unfold Os.removeTarget
  rw [hr]
  rcases os.resolve false p with e | ⟨ℓ, _ | ⟨b, r⟩⟩
  · rfl
  · rcases eq_or_ne ℓ [] with rfl | hℓ
    · simp [Os.found]
    by_cases hin : os.fs.ino? ℓ = some i
    · -- the file itself
      have hn : os.fs.node? ℓ = some (.file x) := by rw [Fs.node?_of_ino? os.fs hℓ hin, hi]
      have hn' : os'.fs.node? ℓ = some (.file y) := by
        rw [hfs, Fs.node?_setNode os.fs hℓ, if_pos hin]
      simp only [Os.found, hn, hn']
    · have hn : os'.fs.node? ℓ = os.fs.node? ℓ := by
        rw [hfs, Fs.node?_setNode os.fs hℓ, if_neg hin]
      simp only [Os.found, hn, hc]
  · rfl

end

end Vfs
