import GoPosix.Diff.Myers
import GoPosix.Diff.HunksVerified

/-!
# `GenerateDiff`: from file contents to hunks

`GenerateDiff` splits the contents into lines, drops the empty piece that `strings.Split` leaves
after a final newline, compares the (possibly normalised) lines with `Diff` and puts the original
texts back into the script.

So `a` and `a\n` have the same lines. Without an ignore option `GenerateDiff` reports "no
difference" for unequal contents exactly when one is the other with a final newline added
(`generateDiff_no_difference_iff`).
-/

namespace GoPosix.Diff

open Slice Bytes List

/-! ## Lines -/

/-- The lines of a file: `strings.Split(content, "\n")` without the empty piece after a final
newline. -/
def splitLines (content : Bytes) : List Bytes :=
  let lines := content.splitOn newline
  let lines := if lines.getLast? = some [] then lines.dropLast else lines
  if content = [] then [] else lines

def isSpaceByte (c : UInt8) : Bool := c = 32 || c = 9 || c = 13 || c = 10

/-- The inner loop of `normalizeSpace`: each run of white space becomes one blank. -/
def squeezeSpace : (inSpace : Bool) → Bytes → Bytes
  | _, [] => []
  | inSpace, c :: l =>
    if isSpaceByte c then
      if inSpace then squeezeSpace true l else 32 :: squeezeSpace true l
    else c :: squeezeSpace false l

/-- `normalizeSpace`: drop trailing white space and squeeze the rest. -/
def normalizeSpace (lines : List Bytes) : List Bytes :=
  lines.map fun l => squeezeSpace false (l.reverse.dropWhile isSpaceByte).reverse

def stripAllSpace (lines : List Bytes) : List Bytes :=
  lines.map fun l => l.filter fun c => !isSpaceByte c

/-! ## Scripts -/

def DiffOp.ignore : DiffOp → DiffOp
  | .del => .ignoredDel
  | _ => .ignoredIns

/-- `filterBlankLineChanges`: a maximal run of changes whose texts are all blank is ignored. Each
turn consumes at least one item. -/
def filterBlankLineChanges (script : List (DiffItem Bytes)) : List (DiffItem Bytes) :=
  go script.length script
where
  go : Nat → List (DiffItem Bytes) → List (DiffItem Bytes)
  | 0, script => script
  | _, [] => []
  | fuel + 1, item :: script =>
    if item.op.changes then
      let block := (item :: script).takeWhile (·.op.changes)
      let rest := (item :: script).dropWhile (·.op.changes)
      let block := if block.all (isBlank ·.text)
        then block.map fun i => { i with op := i.op.ignore } else block
      block ++ go fuel rest
    else item :: go fuel script

/-- The loop that puts the original lines back into the script. -/
def restoreText (lines1 lines2 : List Bytes) :
    (x y : Nat) → List (DiffItem Bytes) → Exec (List (DiffItem Bytes))
  | _, _, [] => .ok []
  | x, y, item :: script =>
    match item.op with
    | .eq => do
      let text ← index lines1 x
      let rest ← restoreText lines1 lines2 (x + 1) (y + 1) script
      .ok ({ item with text := text } :: rest)
    | .del => do
      let text ← index lines1 x
      let rest ← restoreText lines1 lines2 (x + 1) y script
      .ok ({ item with text := text } :: rest)
    | .ins => do
      let text ← index lines2 y
      let rest ← restoreText lines1 lines2 x (y + 1) script
      .ok ({ item with text := text } :: rest)
    | _ => do
      let rest ← restoreText lines1 lines2 x y script
      .ok (item :: rest)

def generateDiff (content1 content2 : Bytes) (contextLines : Int)
    (ignoreSpace ignoreAllSpace ignoreBlankLines : Bool) : Exec (Bool × List Hunk) := do
  let lines1 := splitLines content1
  let lines2 := splitLines content2
  let compLines1 := if ignoreAllSpace then stripAllSpace lines1
    else if ignoreSpace then normalizeSpace lines1 else lines1
  let compLines2 := if ignoreAllSpace then stripAllSpace lines2
    else if ignoreSpace then normalizeSpace lines2 else lines2
  let script ← diff compLines1 compLines2
  let script ← restoreText lines1 lines2 0 0 script
  let script := if ignoreBlankLines then filterBlankLineChanges script else script
  let differ := script.any (·.op.changes)
  let newline1 := decide (content1.getLast? = some newline)
  let newline2 := decide (content2.getLast? = some newline)
  let hunks ← buildHunks script contextLines newline1 newline2
  .ok (differ, hunks)

/-! ## What the lines remember -/

def chomp (content : Bytes) : Bytes :=
  if content.getLast? = some newline then content.dropLast else content

/-- `B` is `A` with a final newline added, which `A`, a file with content, does not have. -/
def OnlyFinalNewline (A B : Bytes) : Prop :=
  A ≠ [] ∧ A.getLast? ≠ some newline ∧ B = A ++ [newline]

theorem chomp_snoc (s : Bytes) : chomp (s ++ [newline]) = s := by
  simp [chomp]

theorem chomp_of_ne (h : content.getLast? ≠ some newline) : chomp content = content := if_neg h

/-- The lines of a file that is not empty are the pieces of what stands before its final
newline. -/
theorem splitLines_eq_splitOn (hne : content ≠ []) :
    splitLines content = (chomp content).splitOn newline := by
  by_cases hl : content.getLast? = some newline
  · obtain ⟨s, rfl⟩ := List.getLast?_eq_some_iff.mp hl
    simp [splitLines, chomp_snoc, splitOn_newline_snoc]
  · rw [chomp_of_ne hl]
    simp [splitLines, hne, getLast?_splitOn_newline hne hl]

theorem splitLines_eq_nil : splitLines content = [] ↔ content = [] := by
  constructor
  · intro h
    by_contra hne
    rw [splitLines_eq_splitOn hne] at h
    exact splitOn_ne_nil _ _ h
  · rintro rfl
    rfl

/-- The lines of a file forget whether the last of them was ended by a newline, and nothing
else. -/
theorem splitLines_eq_iff (A B : Bytes) :
    splitLines A = splitLines B ↔ A = B ∨ OnlyFinalNewline A B ∨ OnlyFinalNewline B A := by
  rcases eq_or_ne A [] with rfl | hA
  · rw [show splitLines [] = [] from rfl, eq_comm, splitLines_eq_nil]
    simp [OnlyFinalNewline]
  rcases eq_or_ne B [] with rfl | hB
  · rw [show splitLines [] = [] from rfl, splitLines_eq_nil]
    simp [OnlyFinalNewline]
  rw [splitLines_eq_splitOn hA, splitLines_eq_splitOn hB, splitOn_newline_inj]
  unfold OnlyFinalNewline
  by_cases hlA : A.getLast? = some newline <;> by_cases hlB : B.getLast? = some newline
  · obtain ⟨s, rfl⟩ := List.getLast?_eq_some_iff.mp hlA
    obtain ⟨t, rfl⟩ := List.getLast?_eq_some_iff.mp hlB
    simp [chomp_snoc]
  · obtain ⟨s, rfl⟩ := List.getLast?_eq_some_iff.mp hlA
    have hne : s ++ [newline] ≠ B := by
      rintro rfl
      exact hlB hlA
    rw [chomp_snoc, chomp_of_ne hlB]
    simp [hlB, hB, hne]
  · obtain ⟨t, rfl⟩ := List.getLast?_eq_some_iff.mp hlB
    have hne : A ≠ t ++ [newline] := by
      rintro rfl
      exact hlA hlB
    rw [chomp_snoc, chomp_of_ne hlA, eq_comm]
    simp [hlA, hA, hne]
  · have h₁ : A ≠ B ++ [newline] := by
      rintro rfl
      exact hlA (by simp)
    have h₂ : B ≠ A ++ [newline] := by
      rintro rfl
      exact hlB (by simp)
    rw [chomp_of_ne hlA, chomp_of_ne hlB]
    simp [h₁, h₂]

/-! ## Without ignore options -/

/-- The texts that are put back are those the script has. -/
theorem restoreText_editScript (s : List (DiffItem Bytes)) :
    ∀ {x y : Nat}, EditScript (l1.drop x) (l2.drop y) s → restoreText l1 l2 x y s = .ok s := by
  induction s with
  | nil => intro x y _; rfl
  | cons item s ih =>
    intro x y hs
    have hp : Plain s := fun i hi => hs.plain i (mem_cons_of_mem _ hi)
    obtain ⟨op, text⟩ := item
    have hold := hs.old
    have hn := hs.new
    -- what is left of a list that starts with `text` begins at the position after it
    have hh : ∀ {l : List Bytes} {n : Nat} {rest : List Bytes}, text :: rest = l.drop n →
        index l n = .ok text ∧ l.drop (n + 1) = rest := by
      intro l n rest h
      have hg : l[n]? = some text := by
        have := congrArg List.head? h
        simpa using this.symm
      refine ⟨index_natCast hg, ?_⟩
      have hd := drop_eq_cons hg
      rw [← h] at hd
      exact (List.cons.inj hd).2.symm
    rcases hs.plain _ mem_cons_self with h | h | h
    · obtain rfl : op = .eq := h
      obtain ⟨h₁, h₁'⟩ := hh hold
      obtain ⟨_, h₂'⟩ := hh hn
      have ih' := ih ⟨hp, h₁'.symm, h₂'.symm⟩
      simp only [restoreText, h₁, ih', bind, Except.bind]
    · obtain rfl : op = .del := h
      obtain ⟨h₁, h₁'⟩ := hh hold
      have ih' := ih ⟨hp, h₁'.symm, hn⟩
      simp only [restoreText, h₁, ih', bind, Except.bind]
    · obtain rfl : op = .ins := h
      obtain ⟨h₂, h₂'⟩ := hh hn
      have ih' := ih ⟨hp, hold, h₂'.symm⟩
      simp only [restoreText, h₂, ih', bind, Except.bind]

/-- A script of a list into itself with as few edits as possible has none. -/
theorem not_changes_of_self (hl : ∀ e < editCount script, ¬ ReachCorner a a e) :
    script.any (·.op.changes) = false := by
  obtain ⟨d, hd, hr⟩ :=
    EditGraph.Reach.of_common_sublist (List.Sublist.refl a) (List.Sublist.refl a)
  obtain rfl : d = 0 := by omega
  have hcount : editCount script = 0 := by
    by_contra hne
    exact hl 0 (by omega) ⟨_, _, hr, le_rfl, le_rfl⟩
  rw [any_eq_false]
  intro i hi hc
  have hn := eq_nil_of_length_eq_zero hcount
  rw [filter_eq_nil_iff] at hn
  have hnot := hn i hi
  cases hop : i.op <;> simp [hop, DiffOp.changes] at hnot hc

theorem eq_of_not_changes (hs : EditScript a b script) (h : script.any (·.op.changes) = false) :
    a = b := by
  rw [any_eq_false] at h
  rw [← hs.old, ← hs.new]
  unfold oldSide newSide
  congr 1
  refine filter_congr ?_
  intro i hi
  have hn := h i hi
  cases hop : i.op <;> simp [hop, DiffOp.changes] at hn ⊢

/-- **`GenerateDiff` without ignore options** is `BuildHunks` on an edit script of the lines, and
it reports a difference exactly when the lines differ. -/
theorem generateDiff_eq (c1 c2 : Bytes) (c : Int) :
    ∃ s n₁ n₂, EditScript (splitLines c1) (splitLines c2) s ∧
      (s.any (·.op.changes) = false ↔ splitLines c1 = splitLines c2) ∧
      generateDiff c1 c2 c false false false =
          (buildHunks s c n₁ n₂).map (s.any (·.op.changes), ·) := by
  obtain ⟨s, hd, hs, hl⟩ := diff_spec (splitLines c1) (splitLines c2)
  refine ⟨s, decide (c1.getLast? = some newline),
    decide (c2.getLast? = some newline), hs, ⟨eq_of_not_changes hs, fun h => ?_⟩, ?_⟩
  · rw [h] at hl
    exact not_changes_of_self hl
  have hr := restoreText_editScript (x := 0) (y := 0) s (by simpa using hs)
  simp only [generateDiff, Bool.false_eq_true, if_false, hd, hr, bind, Except.bind]
  cases buildHunks s c (decide (c1.getLast? = some newline))
      (decide (c2.getLast? = some newline)) with
  | error f => rfl
  | ok hunks => rfl

theorem buildHunks_of_not_changes (c : Int) (n₁ n₂ : Bool)
    (h : script.any (·.op.changes) = false) : buildHunks script c n₁ n₂ = .ok [] := by
  rw [any_eq_false] at h
  refine hunkLoop_done _ (Nat.zero_le _) ?_
  rintro j - ⟨i, hj, hc⟩
  exact h i (mem_of_getElem? hj) hc

/-- `GenerateDiff` reports no difference exactly when the two files have the same lines. -/
theorem generateDiff_no_difference (A B : Bytes) (c : Int) :
    (∃ hunks, generateDiff A B c false false false = .ok (false, hunks)) ↔
      splitLines A = splitLines B := by
  obtain ⟨s, n₁, n₂, -, hc, hg⟩ := generateDiff_eq A B c
  rw [hg, ← hc]
  constructor
  · rintro ⟨hunks, h⟩
    cases hb : buildHunks s c n₁ n₂ with
    | error f => simp [hb, Except.map] at h
    | ok built =>
      rw [hb] at h
      exact (Prod.mk.inj (Except.ok.inj h)).1
  · intro h
    exact ⟨[], by rw [buildHunks_of_not_changes c n₁ n₂ h, h]; rfl⟩

/-- **When "no difference" means equal contents**, for `GenerateDiff` without ignore options:
precisely when neither file is the other one with the final newline added. -/
theorem generateDiff_no_difference_iff (A B : Bytes) (c : Int) :
    ((∃ hunks, generateDiff A B c false false false = .ok (false, hunks)) ↔ A = B) ↔
      ¬ OnlyFinalNewline A B ∧ ¬ OnlyFinalNewline B A := by
  rw [generateDiff_no_difference, splitLines_eq_iff]
  have hne : ∀ {X Y : Bytes}, OnlyFinalNewline X Y → X ≠ Y := by
    rintro X Y ⟨-, -, rfl⟩ h
    simpa using congrArg List.length h
  constructor
  · intro h
    exact ⟨fun hAB => hne hAB (h.mp (.inr (.inl hAB))), fun hBA =>
      hne hBA (h.mp (.inr (.inr hBA))).symm⟩
  · rintro ⟨hAB, hBA⟩
    simp [hAB, hBA]

theorem generateDiff_final_newline :
    ¬ ((∃ hunks, generateDiff (str "a") (str "a\n") 3 false false false = .ok (false, hunks)) ↔
      str "a" = str "a\n") := by
  intro h
  have hne : str "a" ≠ str "a\n" := by decide
  exact hne (h.mp ⟨[], by decide +kernel⟩)

end GoPosix.Diff
