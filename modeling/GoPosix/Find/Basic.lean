import GoPosix.Lib.Filepath
import GoPosix.Lib.Text

/-!
# find

The walk of `findRun` in `pkg/find/find.go` with `-maxdepth` and no other condition. The visitor is
called as `filepath.WalkDir` does: for the root as it is given, and for the others with
`filepath.Join`.
-/

namespace GoPosix.Find

open Bytes Vfs Filepath List

mutual

inductive Tree
  | leaf
  | dir (entries : Entries)

inductive Entries
  | nil
  | cons (name : Name) (isName : IsName name) (tree : Tree) (rest : Entries)

end

def depth (rootClean p : Bytes) : Nat :=
  if p = rootClean then 0
  else
    let rel := if hasPrefix p (rootClean ++ str "/") then p.drop rootClean.length else p
    let rel := rel.dropWhile (· = slash)
    if rel = [] then 0 else rel.count slash + 1

def outPath (rootClean p : Bytes) : Bytes :=
  if rootClean = dot ∧ p ≠ dot ∧ ¬ hasPrefix p dot then str "./" ++ p else p

section

variable (maxDepth : Nat) (rootClean : Bytes)

mutual

def walk : (p : Bytes) → Tree → List Bytes
  | p, .leaf => if depth rootClean p > maxDepth then [] else [outPath rootClean p]
  | p, .dir entries =>
    if depth rootClean p > maxDepth then [] else outPath rootClean p :: walkEntries p entries

def walkEntries : (p : Bytes) → Entries → List Bytes
  | _, .nil => []
  | p, .cons name _ tree rest => walk (join [p, name]) tree ++ walkEntries p rest

end

end

def findRun (root : Bytes) (maxDepth : Nat) (tree : Tree) : List Bytes :=
  walk maxDepth (clean root) root tree

mutual

/-- The paths of the entries at most `k` levels below. -/
def upTo : (k : Nat) → (p : Bytes) → Tree → List Bytes
  | _, p, .leaf => [p]
  | k, p, .dir entries => p :: upToEntries k p entries

def upToEntries : (k : Nat) → (p : Bytes) → Entries → List Bytes
  | 0, _, _ | _, _, .nil => []
  | k + 1, p, .cons name _ tree rest => upTo k (join [p, name]) tree ++ upToEntries (k + 1) p rest

end

/-! ## Depths -/

theorem count_slash_unsplit (hne : ns ≠ []) (hns : ∀ n ∈ ns, IsName n) :
    (unsplit ns).count slash + 1 = ns.length := by
  induction ns with
  | nil => exact absurd rfl hne
  | cons n ns ih =>
    obtain ⟨hn, hns⟩ := forall_mem_cons.mp hns
    have h0 : n.count slash = 0 := count_eq_zero.mpr hn.2
    cases ns with
    | nil => simp [h0]
    | cons m ns =>
      have := ih (by simp) hns
      simp [unsplit_cons_cons, h0, this]

theorem depth_eq (hne : ns ≠ []) (hns : ∀ n ∈ ns, IsName n) (hp : p ≠ rootClean)
    (hr : (if hasPrefix p (rootClean ++ str "/") then p.drop rootClean.length else p) = rel)
    (h : rel = unsplit ns ∨ rel = slash :: unsplit ns) : depth rootClean p = ns.length := by
  have hu := unsplit_ne_nil hne hns
  have hd : (unsplit ns).dropWhile (· = slash) = unsplit ns := by
    obtain ⟨b, t, hb⟩ := exists_cons_of_ne_nil hu
    have ha := isAbs_unsplit hns
    rw [hb] at ha ⊢
    exact dropWhile_cons_of_neg (by simpa [isAbs] using ha)
  have hs : rel.dropWhile (· = slash) = unsplit ns := by
    rcases h with rfl | rfl
    · exact hd
    · exact (dropWhile_cons_of_pos (by simp)).trans hd
  simp only [depth, if_neg hp, hr, hs, if_neg hu]
  exact count_slash_unsplit hne hns

/-- Below the root the depth is the number of names. -/
theorem depth_foldl_join (root : Bytes) (hne : ns ≠ []) (hns : ∀ n ∈ ns, IsName n) :
    depth (clean root) (ns.foldl (fun p n => join [p, n]) root) = ns.length := by
  have hu := unsplit_ne_nil hne hns
  rw [foldl_join root hns hne, clean_eq_text]
  have hr := parts_resolved root
  rcases eq_or_ne (parts root) [] with hnil | hp
  · rw [hnil, nil_append]
    cases isAbs root with
    | true =>
      refine depth_eq hne hns (fun h => hu (cons.inj h).2) (if_neg fun h => ?_) (.inr rfl)
      obtain ⟨q, hq⟩ := isPrefixOf_iff_prefix.mp h
      have ha := isAbs_unsplit hns
      rw [← (cons.inj hq).2] at ha
      cases ha
    | false =>
      have hd : dot ∉ ns := fun h => (hns dot h).1.2.1 rfl
      have hc : comps (unsplit ns) = ns := comps_unsplit hne fun n hn => (hns n hn).2
      have ht : text false ns = unsplit ns := by simp [text, hu]
      rw [ht]
      refine depth_eq hne hns (fun h => hd ?_) (if_neg fun h => hd ?_) (.inl rfl)
      · rw [← hc, h]
        decide
      · obtain ⟨q, hq⟩ := isPrefixOf_iff_prefix.mp h
        change dot ++ slash :: q = unsplit ns at hq
        rw [← hc, ← hq, comps_append_slash]
        exact mem_append_left _ (by decide)
  · rw [hr.text_append hp hns hne]
    have hprefix : hasPrefix (text (isAbs root) (parts root) ++ slash :: unsplit ns)
        (text (isAbs root) (parts root) ++ str "/") :=
          isPrefixOf_iff_prefix.mpr ⟨unsplit ns, append_assoc ..⟩
    exact depth_eq hne hns (by simp) ((if_pos hprefix).trans drop_left) (.inr rfl)

/-! ## The walk -/

section

variable (root : Bytes) (maxDepth : Nat)

abbrev path (ns : List Name) : Bytes := ns.foldl (fun p n => join [p, n]) root

theorem path_snoc (ns : List Name) (n : Name) : join [path root ns, n] = path root (ns ++ [n]) := by
  simp [path]

mutual

theorem walk_eq (hne : ns ≠ []) (hns : ∀ n ∈ ns, IsName n) : ∀ t : Tree,
    walk maxDepth (clean root) (path root ns) t =
      if ns.length > maxDepth then [] else (upTo (maxDepth - ns.length) (path root ns) t).map
        (outPath (clean root))
  | .leaf => by simp [walk, upTo, depth_foldl_join root hne hns]
  | .dir entries => by
    rw [walk, depth_foldl_join root hne hns]
    split
    · rfl
    · rw [upTo, map_cons, walkEntries_eq hns (by omega) entries]

theorem walkEntries_eq (hns : ∀ n ∈ ns, IsName n) (hle : ns.length ≤ maxDepth) : ∀ e : Entries,
    walkEntries maxDepth (clean root) (path root ns) e =
      (upToEntries (maxDepth - ns.length) (path root ns) e).map (outPath (clean root))
  | .nil => by cases maxDepth - ns.length <;> rfl
  | .cons name isName tree rest => by
    have hns' : ∀ n ∈ ns ++ [name], IsName n := by
      simpa [or_imp, forall_and] using ⟨hns, isName⟩
    rw [walkEntries, path_snoc, walk_eq (by simp) hns' tree, walkEntries_eq hns hle rest,
      length_append,
      length_singleton]
    by_cases hlt : ns.length < maxDepth
    · obtain ⟨k, hk⟩ : ∃ k, maxDepth - ns.length = k + 1 := ⟨maxDepth - ns.length - 1, by omega⟩
      rw [if_neg (by omega), hk, upToEntries, map_append, path_snoc,
        show maxDepth - (ns.length + 1) = k by omega]
    · rw [if_pos (by omega), show maxDepth - ns.length = 0 by omega, upToEntries, upToEntries]
      rfl

end

/-- **What is reported**: the right entries, unless the spelling of the root counts as too deep. -/
theorem findRun_eq_iff (tree : Tree) :
    findRun root maxDepth tree = (upTo maxDepth root tree).map (outPath (clean root)) ↔
      depth (clean root) root ≤ maxDepth := by
  have hall := @walkEntries_eq root maxDepth [] nofun (Nat.zero_le _)
  cases tree with
  | leaf => simp [findRun, walk, upTo]
  | dir entries =>
    simp only [findRun, walk, upTo, map_cons]
    split
    · next h => exact iff_of_false nofun (by omega)
    · next h => exact iff_of_true (congrArg _ (hall entries)) (by omega)

end

/-- The directory `./a` is not reported with `-maxdepth 1`. -/
theorem findRun_dot : findRun (str "./a") 1 (.dir .nil) ≠
    (upTo 1 (str "./a") (.dir .nil)).map (outPath (clean (str "./a"))) := by
  decide

end GoPosix.Find
