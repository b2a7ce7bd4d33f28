import Mathlib.Data.List.Perm.Lattice
import GoPosix.Lib.NestedLoop
import GoPosix.Lib.Strconv
import GoPosix.Lib.Text

/-!
# join

`Run`, `parseLine` and `formatOutput` of `pkg/join/join.go`. The cursors `i` and `j` of the merge
are the lists of lines that are left, and a record is its text. On files that are sorted on their
join fields the merge yields the records of the nested-loop join (`run_perm`): a step deals with all
lines of the least key that is left.
-/

namespace GoPosix.Join

open Bytes List NestedLoop

structure Line where
  raw : Bytes
  key : Bytes
  fields : List Bytes
  deriving DecidableEq, Repr

def parseLine (text delim : Bytes) (fieldIdx : Int) : Line :=
  let fields := split text delim
  { raw := text
    key := if 0 ≤ fieldIdx then (fields[fieldIdx.toNat]?).getD [] else []
    fields := fields }

def readFile (texts : List Bytes) (delim : Bytes) (fieldIdx : Int) : List Line :=
  texts.map (parseLine · delim fieldIdx)

/-- `parsePairSpec`. The number of the field is 1 if there is none. -/
def parsePairSpec (spec : Bytes) : Option (Int × Int) :=
  match indexByte spec 46 with
  | none =>
    match atoi spec with
    | (fileNum, true) => some (fileNum, 1)
    | (_, false) => none
  | some i =>
    match atoi (spec.take i), atoi (spec.drop (i + 1)) with
    | (fileNum, true), (fieldNum, true) => some (fileNum, fieldNum)
    | _, _ => none

/-- One field of the output, as a part of the `-o` list names it. -/
def selectField (l1 l2 : Line) (spec : Bytes) : Bytes :=
  match parsePairSpec spec with
  | none => []
  | some (fileNum, fieldNum) =>
    if (fileNum ≠ 1 ∧ fileNum ≠ 2) ∨ fieldNum < 1 then []
    else (((if fileNum = 1 then l1 else l2).fields)[(fieldNum - 1).toNat]?).getD []

structure Options where
  field1 : Int
  field2 : Int
  /-- The value of `-t`. -/
  t : Bytes
  a1 : Bool
  a2 : Bool
  v1 : Bool
  v2 : Bool
  oSpec : Bytes

def Options.delim (o : Options) : Bytes := if o.t = [] then [32] else o.t

def formatOutput (o : Options) (l1 l2 : Line) : Bytes :=
  if o.oSpec = [] then
    if l1.raw = [] then l2.raw
    else if l2.raw = [] then l1.raw
    else
      -- the fields of the second line without its join field
      let others := l2.fields.zipIdx.filterMap fun x =>
        if (x.2 : Int) = o.field2 - 1 then none else some x.1
      o.delim.intercalate (l1.fields ++ others)
  else o.delim.intercalate ((fields o.oSpec).map (selectField l1 l2))

/-- A line that is in no pair, if these are asked for. -/
def Options.rest1 (o : Options) (lines1 : List Line) : List Bytes :=
  if o.a1 || o.v1 then lines1.map Line.raw else []

def Options.rest2 (o : Options) (lines2 : List Line) : List Bytes :=
  if o.a2 || o.v2 then lines2.map Line.raw else []

/-- The records of two runs of lines with one key. `-v` suppresses them. -/
def product (o : Options) (run1 run2 : List Line) : List Bytes :=
  if o.v1 || o.v2 then [] else run1.flatMap fun l1 => run2.map (formatOutput o l1)

def merge (o : Options) : (lines1 lines2 : List Line) → List Bytes
  | [], lines2 => o.rest2 lines2
  | lines1, [] => o.rest1 lines1
  | l1 :: lines1, l2 :: lines2 =>
    match compare l1.key l2.key with
    | .lt => o.rest1 [l1] ++ merge o lines1 (l2 :: lines2)
    | .gt => o.rest2 [l2] ++ merge o (l1 :: lines1) lines2
    | .eq =>
      product o (l1 :: lines1.takeWhile fun l => l.key = l1.key)
          ((l2 :: lines2).takeWhile fun l => l.key = l1.key) ++
        merge o (lines1.dropWhile fun l => l.key = l1.key)
          ((l2 :: lines2).dropWhile fun l => l.key = l1.key)
termination_by lines1 lines2 => lines1.length + lines2.length
decreasing_by
  · simp
  · simp
  · have h₁ :=
      (List.dropWhile_sublist (fun l : Line => decide (l.key = l1.key)) (l := lines1)).length_le
    have h₂ := (List.dropWhile_sublist (fun l : Line => decide (l.key = l1.key))
      (l := l2 :: lines2)).length_le
    simp only [List.length_cons] at *
    omega

def run (o : Options) (file1 file2 : List Bytes) : List Bytes :=
  merge o (readFile file1 o.delim (o.field1 - 1)) (readFile file2 o.delim (o.field2 - 1))

/-! ## The nested-loop join -/

/-- **What `join` is to print**: a record for every pair of lines with equal join fields, none if
there is a `-v`, and the lines that are in no pair, if they are asked for. -/
def nestedLoop (o : Options) (lines1 lines2 : List Line) : List Bytes :=
  (if o.v1 || o.v2 then [] else pairs Line.key Line.key (formatOutput o) lines1 lines2) ++
    o.rest1 (unpaired Line.key Line.key lines1 lines2) ++
    o.rest2 (unpaired Line.key Line.key lines2 lines1)

theorem rest1_cons (o : Options) (l : Line) (lines : List Line) :
    o.rest1 (l :: lines) = o.rest1 [l] ++ o.rest1 lines := by
  unfold Options.rest1
  split <;> rfl

theorem rest2_cons (o : Options) (l : Line) (lines : List Line) :
    o.rest2 (l :: lines) = o.rest2 [l] ++ o.rest2 lines := by
  unfold Options.rest2
  split <;> rfl

section

variable {o : Options}

theorem nestedLoop_cons1 (h : ∀ l ∈ lines2, l.key ≠ l1.key) :
    (o.rest1 [l1] ++ nestedLoop o lines1 lines2).Perm (nestedLoop o (l1 :: lines1) lines2) := by
  unfold nestedLoop
  rw [pairs_cons_alone h, unpaired_cons_alone h, unpaired_of_alone h,
    rest1_cons o l1 (unpaired Line.key Line.key lines1 lines2), perm_iff_count]
  simp only [count_append]
  omega

theorem nestedLoop_cons2 (h : ∀ l ∈ lines1, l.key ≠ l2.key) :
    (o.rest2 [l2] ++ nestedLoop o lines1 lines2).Perm (nestedLoop o lines1 (l2 :: lines2)) := by
  unfold nestedLoop
  rw [pairs_alone_cons h, unpaired_cons_alone h, unpaired_of_alone h,
    rest2_cons o l2 (unpaired Line.key Line.key lines2 lines1), perm_iff_count]
  simp only [count_append]
  omega

theorem nestedLoop_runs {k : Bytes} {r r2 : List Line} (hn : r ≠ []) (hn2 : r2 ≠ [])
    (h1 : ∀ l ∈ r, l.key = k) (h1' : ∀ l ∈ lines1, l.key ≠ k) (h2 : ∀ l ∈ r2, l.key = k)
    (h2' : ∀ l ∈ lines2, l.key ≠ k) :
    nestedLoop o (r ++ lines1) (r2 ++ lines2) = product o r r2 ++ nestedLoop o lines1 lines2 := by
  unfold nestedLoop product
  rw [pairs_runs h1 h1' h2 h2', unpaired_runs h1 h1' h2 hn2, unpaired_runs h2 h2' h1 hn]
  split
  · rfl
  · simp

/-- **The merge is the nested loop**, up to the order of the records. -/
theorem merge_perm (h1 : AscendingBy compare (li.map Line.key))
    (h2 : AscendingBy compare (ln.map Line.key)) : (merge o li ln).Perm (nestedLoop o li ln) := by
  fun_induction merge o li ln with
  | case1 ln => simp [nestedLoop, pairs, unpaired, Options.rest1]
  | case2 li =>
    have hp : pairs Line.key Line.key (formatOutput o) li [] = [] :=
      flatMap_eq_nil_iff.mpr fun _ _ => rfl
    simp [nestedLoop, hp, unpaired, Options.rest2]
  | case3 l1 li l2 ln hlt ih =>
    refine ((ih h1.tail h2).append_left _).trans (nestedLoop_cons1 fun l hl heq => ?_)
    exact h2.not_mem_of_lt hlt (heq ▸ mem_map_of_mem hl)
  | case4 l1 li l2 ln hgt ih =>
    refine ((ih h1 h2.tail).append_left _).trans (nestedLoop_cons2 fun l hl heq => ?_)
    exact h1.not_mem_of_lt (Std.OrientedCmp.gt_iff_lt.mp hgt) (heq ▸ mem_map_of_mem hl)
  | case5 l1 li l2 ln heq ih =>
    have hk : l1.key = l2.key := Std.LawfulEqCmp.compare_eq_iff_eq.mp heq
    let p := fun l : Line => decide (l.key = l1.key)
    have hrun : (l1 :: li).takeWhile p = l1 :: li.takeWhile p := takeWhile_cons_of_pos (by simp [p])
    have hd : (l1 :: li).dropWhile p = li.dropWhile p := dropWhile_cons_of_pos (by simp [p])
    have hrn : (l2 :: ln).takeWhile p = l2 :: ln.takeWhile p :=
      takeWhile_cons_of_pos (by simp [p, hk])
    -- both files are their run of the key and what is behind it
    have hsplit : l1 :: li = (l1 :: li.takeWhile p) ++ li.dropWhile p := by
      rw [cons_append, takeWhile_append_dropWhile]
    have hspl : l2 :: ln = (l2 :: ln).takeWhile p ++ (l2 :: ln).dropWhile p :=
      takeWhile_append_dropWhile.symm
    have hr : ∀ l ∈ li.dropWhile p, l.key ≠ l1.key := hd ▸ dropWhile_head_ne h1
    have hrest : ∀ l ∈ (l2 :: ln).dropWhile p, l.key ≠ l1.key := by
      have := dropWhile_head_ne h2
      rwa [← hk] at this
    have hs : AscendingBy compare ((li.dropWhile p).map Line.key) :=
      h1.tail.sublist ((dropWhile_sublist p).map _)
    have hsorted : AscendingBy compare (((l2 :: ln).dropWhile p).map Line.key) :=
      h2.sublist ((dropWhile_sublist p).map _)
    have hloop := @nestedLoop_runs o (li.dropWhile p) ((l2 :: ln).dropWhile p) l1.key
      (l1 :: li.takeWhile p) ((l2 :: ln).takeWhile p) (by simp) (by simp [hrn])
      (hrun ▸ takeWhile_eq l1.key (l1 :: li)) hr
      (takeWhile_eq l1.key (l2 :: ln)) hrest
    rw [← hsplit, ← hspl] at hloop
    rw [hloop]
    exact (ih hs hsorted).append_left _

end

/-- **`join` on sorted files**: the records are those of the nested-loop join. -/
theorem run_perm (o : Options) (file1 file2 : List Bytes)
    (h1 : AscendingBy compare ((readFile file1 o.delim (o.field1 - 1)).map Line.key))
    (h2 : AscendingBy compare ((readFile file2 o.delim (o.field2 - 1)).map Line.key)) :
    (run o file1 file2).Perm (nestedLoop o (readFile file1 o.delim (o.field1 - 1))
      (readFile file2 o.delim (o.field2 - 1))) :=
  merge_perm h1 h2

/-- `join -a 1` with a repeated key on both sides. -/
def leftJoin : Options := ⟨1, 1, [], true, false, false, false, []⟩

theorem run_perm_leftJoin :
    (run leftJoin [str "a 1", str "a 2", str "c 3"] [str "a x", str "a y", str "b z"]).Perm
      [str "a 1 x", str "a 1 y", str "a 2 x", str "a 2 y", str "c 3"] :=
  run_perm leftJoin [str "a 1", str "a 2", str "c 3"] [str "a x", str "a y", str "b z"]
    (by decide +kernel) (by decide +kernel)

end GoPosix.Join
