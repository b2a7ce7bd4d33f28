import GoPosix.Patch.Parse

/-!
# What the counts of a hunk header announce

`ParsePatch` never uses the counts of a hunk header. Here is a reader that does: a line belongs to a
hunk as long as the counts announce a line of its kind, or as the marker of a missing newline, and
any other line stands outside. The two agree on a text exactly if every line looks like what the
counts make of it (`parsePatch_eq_sections_iff`).
-/

namespace GoPosix.Patch

open Slice Bytes

/-- The header of an old file, which starts a section. -/
def isOldFile (line : Bytes) : Bool := hasPrefix line (str "--- ")

def isNewFile (line : Bytes) : Bool := hasPrefix line (str "+++ ")

def isHunkHeader (line : Bytes) : Bool := hasPrefix line (str "@@ ")

/-- What `ParsePatch` takes for a line of a body. -/
def bodyLike (line : Bytes) : Bool :=
  line = [] || hasPrefix line (str " ") || hasPrefix line (str "+") || hasPrefix line (str "-") ||
    line = noNewline

/-- The counts announce the line as one of the body. -/
def announced (old new : Int) (line : Bytes) : Bool :=
  if isDel line then 0 < old
  else if isAdd line then 0 < new
  else isContext line && 0 < old && 0 < new

def Hunk.push (line : Bytes) (h : Hunk) : Hunk := { h with lines := h.lines ++ [line] }

/-- The reader that counts: the sections before, the current one, its last hunk with the lines that
are still to come, and whether its body goes on. The hunk is near as long as every line behind it
looks like one of its body or like a header. -/
structure Counting where
  patches : List Patch := []
  current : Option Patch := none
  hunk : Option Hunk := none
  oldLeft : Int := 0
  newLeft : Int := 0
  body : Bool := false
  near : Bool := false

namespace Counting

def outside (r : Counting) (line : Bytes) : Counting :=
  if isOldFile line then
    { patches := r.patches ++ (r.current.map (flushHunk r.hunk)).toList
      current := some { oldFile := line.drop 4, newFile := [], hunks := [] } }
  else if isNewFile line then
    { r with current := r.current.map fun p => { p with newFile := line.drop 4 } }
  else if isHunkHeader line then
    match r.current, parseHunkHeader line with
    | some current, some h =>
      { r with
        current := some (flushHunk r.hunk current), hunk := some h
        oldLeft := h.oldCount, newLeft := h.newCount, body := true, near := true }
    | _, _ => r
  else { r with near := r.near && bodyLike line }

def step (r : Counting) (line : Bytes) : Counting :=
  if r.body && announced r.oldLeft r.newLeft line then
    { r with
      hunk := r.hunk.map (Hunk.push line)
      oldLeft := if isAdd line then r.oldLeft else r.oldLeft - 1
      newLeft := if isDel line then r.newLeft else r.newLeft - 1 }
  else if r.body && line = noNewline then { r with hunk := r.hunk.map (Hunk.push line) }
  else outside { r with body := false } line

def finish (r : Counting) : List Patch := r.patches ++ (r.current.map (flushHunk r.hunk)).toList

end Counting

def sections (lines : List Bytes) : List Patch := (lines.foldl Counting.step {}).finish

/-- The line looks like what the counts make of it: no line of a body looks like a file header, a
hunk header that cannot be read has no hunk before it, and no line behind a body looks like one of
it. -/
def looksRight (r : Counting) (line : Bytes) : Bool :=
  if r.body && announced r.oldLeft r.newLeft line then !isOldFile line && !isNewFile line
  else if r.body && line = noNewline then true
  else if isOldFile line || isNewFile line then true
  else if isHunkHeader line then r.hunk.isNone || (parseHunkHeader line).isSome
  else !(r.near && bodyLike line)

/-- Every line looks right. -/
def allLookRight : Counting → List Bytes → Bool
  | _, [] => true
  | r, line :: lines => looksRight r line && allLookRight (r.step line) lines

/-! ## One line -/

/-- The readers have a section and a hunk at the same time. A body that goes on belongs to a hunk,
and a hunk to a section. -/
structure Follows (r : Counting) (s : ParseState) : Prop where
  current : s.current.isSome = r.current.isSome
  hunk : s.currentHunk.isSome = r.hunk.isSome
  near : s.inHunk = r.near
  body : r.body = true → r.near = true
  nearHunk : r.near = true → r.hunk.isSome
  inSection : r.hunk.isSome → r.current.isSome

/-- What the two readers do with a line that is no header of an old file within a body. -/
inductive Moves (r : Counting) (s : ParseState) (line : Bytes) : Counting → ParseState → Prop
  | push (old new : Int) (hnear : r.near = true) (hnew : isNewFile line = false)
      (hlook : looksRight r line = true) : Moves r s line
      { r with hunk := r.hunk.map (Hunk.push line), oldLeft := old, newLeft := new }
      { s with currentHunk := s.currentHunk.map (Hunk.push line) }
  -- the line of the body is taken for the header of a new file
  | rename (old new : Int) (hnear : r.near = true) (hnew : isNewFile line = true)
      (hlook : looksRight r line = false) : Moves r s line
      { r with hunk := r.hunk.map (Hunk.push line), oldLeft := old, newLeft := new }
      { s with current := s.current.map fun p => { p with newFile := line.drop 4 } }
  | oldFile (hlook : looksRight r line = true) : Moves r s line
      { patches := r.patches ++ (r.current.map (flushHunk r.hunk)).toList
        current := some { oldFile := line.drop 4, newFile := [], hunks := [] } }
      { patches := s.patches ++ (s.current.map (flushHunk s.currentHunk)).toList
        current := some { oldFile := line.drop 4, newFile := [], hunks := [] } }
  | newFile (hlook : looksRight r line = true) : Moves r s line
      { r with body := false, current := r.current.map fun p => { p with newFile := line.drop 4 } }
      { s with current := s.current.map fun p => { p with newFile := line.drop 4 } }
  | header (p q : Patch) (h : Hunk) (hr : r.current = some p) (hs : s.current = some q)
      (hempty : h.lines = []) (hlook : looksRight r line = true) : Moves r s line
      { r with
        current := some (flushHunk r.hunk p), hunk := some h
        oldLeft := h.oldCount, newLeft := h.newCount, body := true, near := true }
      { s with current := some (flushHunk s.currentHunk q), currentHunk := some h, inHunk := true }
  -- the hunk before is kept a second time
  | malformed (q : Patch) (hs : s.current = some q) (hlook : looksRight r line = r.hunk.isNone) :
      Moves r s line { r with body := false }
        { s with current := some (flushHunk s.currentHunk q) }
  -- a line behind the body is added to the hunk
  | extra (hnear : r.near = true) (hnew : isNewFile line = false)
      (hlook : looksRight r line = false) :
      Moves r s line { r with body := false }
        { s with currentHunk := s.currentHunk.map (Hunk.push line) }
  | skip (near : Bool) (hnear : near = true → r.near = true) (hlook : looksRight r line = true) :
      Moves r s line
      { r with body := false, near := near } { s with inHunk := near }

theorem bodyLike_of_announced (h : announced old new line = true) :
    bodyLike line = true ∧ isHunkHeader line = false := by
  have hat : str "@@ " = [64, 64, 32] := rfl
  simp only [announced, bodyLike, isDel, isAdd, isContext, isHunkHeader, hasPrefix, hat] at h ⊢
  cases line with
  | nil => decide
  | cons c line =>
    by_cases hc : c = 45 ∨ c = 43 ∨ c = 32
    · rcases hc with rfl | rfl | rfl <;> simp [List.isPrefixOf]
    · simp only [not_or] at hc
      simp [List.isPrefixOf, beq_false_of_ne (Ne.symm hc.1), beq_false_of_ne (Ne.symm hc.2.1),
        beq_false_of_ne (Ne.symm hc.2.2)] at h

theorem ParseState.step_eq (s : ParseState) (line : Bytes) : s.step line =
    if isOldFile line then
      { patches := s.patches ++ (s.current.map (flushHunk s.currentHunk)).toList
        current := some { oldFile := line.drop 4, newFile := [], hunks := [] }
        currentHunk := if s.current.isSome then none else s.currentHunk }
    else if isNewFile line then
      { s with current := s.current.map fun p => { p with newFile := line.drop 4 } }
    else if isHunkHeader line then
      match s.current, parseHunkHeader line with
      | some q, some h =>
        { s with current := some (flushHunk s.currentHunk q), currentHunk := some h, inHunk :=
          true }
      | some q, none => { s with current := some (flushHunk s.currentHunk q) }
      | none, _ => s
    else match s.inHunk, s.currentHunk with
      | true, some h =>
        if bodyLike line then { s with currentHunk := some (h.push line) }
        else { s with inHunk := false }
      | _, _ => s := by
  unfold ParseState.step
  congr 3
  cases s.current <;> cases parseHunkHeader line <;> rfl

theorem step_of_bodyLike {s : ParseState} (hold : isOldFile line = false)
    (hnew : isNewFile line = false) (hat : isHunkHeader line = false) (hin : s.inHunk = true)
    (hhunk : s.currentHunk.isSome) (hline : bodyLike line = true) :
    s.step line = { s with currentHunk := s.currentHunk.map (Hunk.push line) } := by
  obtain ⟨h, hh⟩ := Option.isSome_iff_exists.mp hhunk
  simp only [ParseState.step_eq, hold, hnew, hat, Bool.false_eq_true, if_false, hin, hh, hline,
    if_true, Option.map_some]

theorem parseHunkHeader_lines (h : parseHunkHeader line = some hunk) : hunk.lines = [] := by
  simp only [parseHunkHeader] at h
  split at h
  · cases h
    rfl
  · cases h

theorem Follows.hunk_none (h : Follows r s) (hcurrent : s.current = none) :
    r.hunk = none ∧ s.currentHunk = none := by
  obtain ⟨hc, hh, -, -, -, hin⟩ := h
  cases hr : r.hunk <;> simp_all

/-- A line that begins as a hunk header does. -/
theorem moves_hunkHeader (h : Follows r s) (hold : isOldFile line = false)
    (hnew : isNewFile line = false) (hat : isHunkHeader line = true)
    (hlook : looksRight r line = (r.hunk.isNone || (parseHunkHeader line).isSome)) :
    Moves r s line (Counting.outside { r with body := false } line) (s.step line) := by
  cases hcurrent : s.current with
  | none =>
    have hnone : r.current = none := by simpa [hcurrent] using h.current.symm
    have hr : Counting.outside { r with body := false } line = { r with body := false } := by
      simp [Counting.outside, hold, hnew, hat, hnone]
    have hs : s.step line = { s with inHunk := r.near } := by
      have hsame : { s with inHunk := r.near } = s := by rw [← h.near]
      rw [hsame]
      simp [ParseState.step_eq, hold, hnew, hat, hcurrent]
    rw [hr, hs]
    exact .skip r.near id (by simp [hlook, (h.hunk_none hcurrent).1])
  | some q =>
    obtain ⟨p, hp⟩ := Option.isSome_iff_exists.mp (h.current.symm.trans (by simp [hcurrent]))
    cases hparse : parseHunkHeader line with
    | none =>
      have hr : Counting.outside { r with body := false } line = { r with body := false } := by
        simp [Counting.outside, hold, hnew, hat, hparse]
      have hs : s.step line = { s with current := some (flushHunk s.currentHunk q) } := by
        simp [ParseState.step_eq, hold, hnew, hat, hcurrent, hparse]
      rw [hr, hs]
      exact .malformed q hcurrent (by rw [hlook, hparse]; simp)
    | some hunk =>
      simp only [Counting.outside, ParseState.step_eq, hold, hnew, hat, hp, hcurrent, hparse,
        Bool.false_eq_true, if_false, if_true]
      exact .header p q hunk hp hcurrent (parseHunkHeader_lines hparse) (by simp [hlook, hparse])

/-- A line that is no header. -/
theorem moves_other (h : Follows r s) (hold : isOldFile line = false)
    (hnew : isNewFile line = false) (hat : isHunkHeader line = false)
    (hlook : looksRight r line = !(r.near && bodyLike line)) :
    Moves r s line { r with body := false, near := r.near && bodyLike line } (s.step line) := by
  cases hnear : r.near with
  | false =>
    have hsame : s.step line = { s with inHunk := false } := by
      simp only [ParseState.step_eq, hold, hnew, hat, h.near, hnear, Bool.false_eq_true, if_false]
      rw [← hnear, ← h.near]
    rw [hsame]
    exact .skip false (by simp) (by simp [hlook, hnear])
  | true =>
    cases hline : bodyLike line with
    | true =>
      rw [step_of_bodyLike hold hnew hat (h.near.trans hnear)
        (h.hunk.trans (h.nearHunk hnear)) hline]
      rw [Bool.and_self, ← hnear]
      exact .extra hnear hnew (by rw [hlook, hnear, hline]; rfl)
    | false =>
      obtain ⟨hunk, hh⟩ := Option.isSome_iff_exists.mp (h.hunk.trans (h.nearHunk hnear))
      have hs : s.step line = { s with inHunk := false } := by
        simp [ParseState.step_eq, hold, hnew, hat, h.near, hnear, hline, hh]
      rw [hs]
      exact .skip false (by simp) (by simp [hlook, hline])

/-- A line outside the bodies. -/
theorem moves_outside (h : Follows r s)
    (hann : (r.body && announced r.oldLeft r.newLeft line) = false)
    (hmark : (r.body && line = noNewline) = false) :
    Moves r s line (Counting.outside { r with body := false } line) (s.step line) := by
  have hlook : looksRight r line = if isOldFile line || isNewFile line then true
      else if isHunkHeader line then r.hunk.isNone || (parseHunkHeader line).isSome
      else !(r.near && bodyLike line) := by
    simp only [looksRight, hann, hmark, Bool.false_eq_true, if_false]
  cases hold : isOldFile line with
  | true =>
    have hnone : (if s.current.isSome then none else s.currentHunk) = none := by
      cases hcurrent : s.current with
      | none => exact (h.hunk_none hcurrent).2
      | some q => rfl
    simp only [Counting.outside, ParseState.step_eq, hold, if_true, hnone]
    exact .oldFile (by simp [hlook, hold])
  | false =>
    cases hnew : isNewFile line with
    | true =>
      simp only [Counting.outside, ParseState.step_eq, hold, hnew, Bool.false_eq_true, if_false,
        if_true]
      exact .newFile (by simp [hlook, hnew])
    | false =>
      simp only [hold, hnew, Bool.or_self, Bool.false_eq_true, if_false] at hlook
      cases hat : isHunkHeader line with
      | true => exact moves_hunkHeader h hold hnew hat (by rw [hlook, if_pos hat])
      | false =>
        simp only [Counting.outside, hold, hnew, hat, Bool.false_eq_true, if_false]
        exact moves_other h hold hnew hat (by rw [hlook, if_neg (by simp [hat])])

/-- **One line**: if the counts announce no `--- ` line, the reader and the parser move alike. -/
theorem moves (h : Follows r s)
    (hold : (r.body && announced r.oldLeft r.newLeft line && isOldFile line) = false) :
    Moves r s line (r.step line) (s.step line) := by
  unfold Counting.step
  split
  · next hann =>
    rw [hann, Bool.true_and] at hold
    rw [Bool.and_eq_true] at hann
    have hnear := h.body hann.1
    obtain ⟨hline, hat⟩ := bodyLike_of_announced hann.2
    cases hnew : isNewFile line with
    | true =>
      simp only [ParseState.step_eq, hold, hnew, Bool.false_eq_true, if_false, if_true]
      exact .rename _ _ hnear hnew (by simp [looksRight, hann.1, hann.2, hnew])
    | false =>
      rw [step_of_bodyLike hold hnew hat (h.near.trans hnear)
        (h.hunk.trans (h.nearHunk hnear)) hline]
      exact .push _ _ hnear hnew (by simp [looksRight, hann.1, hann.2, hold, hnew])
  · next hann =>
    split
    · next hmark =>
      simp only [Bool.and_eq_true, decide_eq_true_eq] at hmark
      obtain ⟨hbody, rfl⟩ := hmark
      have hnear := h.body hbody
      rw [step_of_bodyLike rfl rfl rfl (h.near.trans hnear) (h.hunk.trans (h.nearHunk hnear)) rfl]
      exact .push _ _ hnear rfl (by rw [looksRight, if_neg hann, if_pos (by simp [hbody])])
    · next hmark => exact moves_outside h (by simpa using hann) (by simpa using hmark)

theorem Moves.follows (hm : Moves r s line r' s') (h : Follows r s) : Follows r' s' := by
  obtain ⟨hcurrent, hhunk, hnear, hbody, hnearHunk, hin⟩ := h
  cases hm <;> constructor <;> simp_all

/-- The readers are at the same place. -/
def Agree (r : Counting) (s : ParseState) : Prop :=
  s.patches = r.patches ∧ s.current = r.current ∧ s.currentHunk = r.hunk

theorem Moves.agree (hm : Moves r s line r' s') (h : Agree r s) (hlook : looksRight r line = true) :
    Agree r' s' := by
  obtain ⟨hpatches, hcurrent, hhunk⟩ := h
  cases hm <;> simp_all [Agree, flushHunk]

/-! ## Whole texts -/

/-- How many lines of bodies look like the header of an old file. -/
def swallowed : Counting → List Bytes → Nat
  | _, [] => 0
  | r, line :: lines =>
    (r.body && announced r.oldLeft r.newLeft line && isOldFile line).toNat +
      swallowed (r.step line) lines

theorem length_finish (ps : List Patch) (current : Option Patch) (hunk : Option Hunk) :
    (ps ++ (current.map (flushHunk hunk)).toList).length = ps.length + current.isSome.toNat := by
  cases current <;> simp

theorem length_finish_counting (r : Counting) (line : Bytes) :
    (r.step line).finish.length
      + (r.body && announced r.oldLeft r.newLeft line && isOldFile line).toNat
      = r.finish.length + (isOldFile line).toNat := by
  unfold Counting.finish
  rw [length_finish, length_finish]
  unfold Counting.step
  split
  · next hann => simp [hann]
  · next hann =>
    rw [Bool.not_eq_true] at hann
    rw [hann, Bool.false_and]
    split
    · next hmark =>
      simp only [Bool.and_eq_true, decide_eq_true_eq] at hmark
      rw [hmark.2]
      rfl
    · unfold Counting.outside
      split
      · next hold => cases hcurrent : r.current <;> simp [hold]
      · next hold =>
        rw [Bool.not_eq_true] at hold
        rw [hold]
        split
        · simp
        · split
          · split <;> simp_all
          · rfl

theorem length_finish_parse (s : ParseState) (line : Bytes) :
    (s.step line).finish.length = s.finish.length + (isOldFile line).toNat := by
  unfold ParseState.finish
  rw [length_finish, length_finish, ParseState.step_eq]
  split
  · next hold => cases hcurrent : s.current <;> simp [hold]
  · next hold =>
    rw [Bool.not_eq_true] at hold
    rw [hold]
    split
    · simp
    · split
      · split <;> simp_all
      · split
        · split <;> rfl
        · rfl

/-- Every line of this kind makes `ParsePatch` start another section. -/
theorem length_add_swallowed (lines : List Bytes) (r : Counting) (s : ParseState) :
    (lines.foldl Counting.step r).finish.length + swallowed r lines + s.finish.length
      = (lines.foldl ParseState.step s).finish.length + r.finish.length := by
  induction lines generalizing r s with
  | nil => exact Nat.add_comm _ _
  | cons line lines ih =>
    have hline := ih (r.step line) (s.step line)
    have hcounting := length_finish_counting r line
    have hparse := length_finish_parse s line
    simp only [List.foldl_cons, swallowed]
    omega

/-- Each hunk and each of its lines count for one, but a line that looks like the header of a new
file counts against it. -/
def Hunk.balance (h : Hunk) : Int := 1 + (h.lines.map fun l => if isNewFile l then -1 else 1).sum

def balance (ps : List Patch) : Int := (ps.map fun p => (p.hunks.map Hunk.balance).sum).sum

theorem balance_finish (ps : List Patch) {current : Option Patch} {hunk : Option Hunk}
    (h : hunk.isSome = true → current.isSome = true) :
    balance (ps ++ (current.map (flushHunk hunk)).toList)
      = balance ps + balance current.toList + (hunk.map Hunk.balance).getD 0 := by
  cases current with
  | none => cases hunk <;> simp_all [balance]
  | some p => cases hunk <;> simp [balance, flushHunk, add_assoc]

theorem balance_push (h : Hunk) (line : Bytes) :
    (h.push line).balance = h.balance + if isNewFile line then -1 else 1 := by
  simp [Hunk.balance, Hunk.push, add_assoc]

theorem balance_map_push {hunk : Option Hunk} (h : hunk.isSome = true) (line : Bytes) :
    ((hunk.map (Hunk.push line)).map Hunk.balance).getD 0
      = (hunk.map Hunk.balance).getD 0 + if isNewFile line then -1 else 1 := by
  obtain ⟨hunk, rfl⟩ := Option.isSome_iff_exists.mp h
  exact balance_push hunk line

theorem balance_flushHunk (hunk : Option Hunk) (p : Patch) :
    balance (some (flushHunk hunk p)).toList
      = balance (some p).toList + (hunk.map Hunk.balance).getD 0 := by
  cases hunk <;> simp [balance, flushHunk]

theorem balance_newFile (current : Option Patch) (name : Bytes) :
    balance (current.map fun p => { p with newFile := name }).toList = balance current.toList := by
  cases current <;> rfl

theorem one_le_balance_push {hunk : Option Hunk} (hnew : isNewFile line = false)
    (hpos : ∀ h ∈ hunk, 1 ≤ h.balance) : ∀ h ∈ hunk.map (Hunk.push line), 1 ≤ h.balance := by
  simp only [Option.mem_map, forall_exists_index, and_imp, forall_apply_eq_imp_iff₂]
  intro h hmem
  have hle := hpos h hmem
  rw [balance_push, hnew]
  simp only [Bool.false_eq_true, if_false]
  omega

theorem Follows.inSection' (h : Follows r s) (hs : s.currentHunk.isSome = true) :
    s.current.isSome = true := by
  rw [h.current]
  exact h.inSection (h.hunk.symm.trans hs)

/-- A line that does not look right counts for `ParsePatch`, and any other line for both. -/
theorem Moves.balance (hm : Moves r s line r' s') (h : Follows r s)
    (hpos : ∀ hunk ∈ s.currentHunk, 1 ≤ hunk.balance) :
    balance r'.finish + balance s.finish + (!looksRight r line).toNat
      ≤ balance s'.finish + balance r.finish ∧
      ∀ hunk ∈ s'.currentHunk, 1 ≤ hunk.balance := by
  have hf := hm.follows h
  have hboth : r.near = true → r.hunk.isSome = true ∧ s.currentHunk.isSome = true :=
    fun hnear => ⟨h.nearHunk hnear, h.hunk.trans (h.nearHunk hnear)⟩
  simp only [Counting.finish, ParseState.finish]
  rw [balance_finish _ h.inSection, balance_finish _ h.inSection', balance_finish _ hf.inSection,
    balance_finish _ hf.inSection']
  cases hm with
  | push old new hnear hnew hlook =>
    obtain ⟨hr, hs⟩ := hboth hnear
    simp only [balance_map_push hr, balance_map_push hs, hlook, Bool.not_true, Bool.toNat_false]
    exact ⟨by omega, one_le_balance_push hnew hpos⟩
  | rename old new hnear hnew hlook =>
    simp only [balance_map_push (hboth hnear).1, balance_newFile, hlook, hnew, if_true,
      Bool.not_false, Bool.toNat_true]
    exact ⟨by omega, hpos⟩
  | oldFile hlook =>
    simp only [balance_finish _ h.inSection, balance_finish _ h.inSection', hlook, Bool.not_true,
      Bool.toNat_false]
    exact ⟨by omega, by simp⟩
  | newFile hlook =>
    simp only [balance_newFile, hlook, Bool.not_true, Bool.toNat_false]
    exact ⟨by omega, hpos⟩
  | header p q hunk hr hs hempty hlook =>
    have hone : hunk.balance = 1 := by simp [Hunk.balance, hempty]
    simp only [hr, hs, balance_flushHunk, hlook, Bool.not_true, Bool.toNat_false]
    refine ⟨by omega, ?_⟩
    rintro _ ⟨⟩
    exact hone.ge
  | malformed q hs hlook =>
    simp only [hs, balance_flushHunk, hlook]
    refine ⟨?_, hpos⟩
    have hhunk := h.hunk
    cases hcurrent : s.currentHunk with
    | none =>
      have hnone : r.hunk = none := by simpa [hcurrent] using hhunk
      simp [hnone]
      omega
    | some hunk =>
      have hle := hpos hunk hcurrent
      have hsome : r.hunk.isNone = false := by simpa [hcurrent] using hhunk
      simp only [hsome, Option.map_some, Option.getD_some, Bool.not_false, Bool.toNat_true]
      omega
  | extra hnear hnew hlook =>
    simp only [balance_map_push (hboth hnear).2, hnew, hlook, Bool.false_eq_true, if_false,
      Bool.not_false, Bool.toNat_true]
    exact ⟨by omega, one_le_balance_push hnew hpos⟩
  | skip near hnear hlook =>
    simp only [hlook, Bool.not_true, Bool.toNat_false]
    exact ⟨by omega, hpos⟩

theorem not_swallowed (h : looksRight r line = true) :
    (r.body && announced r.oldLeft r.newLeft line && isOldFile line) = false := by
  unfold looksRight at h
  split at h
  · next hann => simp_all
  · next hann => simp [Bool.eq_false_of_not_eq_true hann]

theorem agree_of_allLookRight (lines : List Bytes) (hf : Follows r s) (ha : Agree r s)
    (hlook : allLookRight r lines = true) :
    Agree (lines.foldl Counting.step r) (lines.foldl ParseState.step s) := by
  induction lines generalizing r s with
  | nil => exact ha
  | cons line lines ih =>
    rw [allLookRight, Bool.and_eq_true] at hlook
    have hm := moves hf (not_swallowed hlook.1)
    exact ih (hm.follows hf) (hm.agree ha hlook.1) hlook.2

/-- A text with a line that does not look right has a larger balance for `ParsePatch`. -/
theorem balance_run (lines : List Bytes) (hf : Follows r s)
    (hpos : ∀ hunk ∈ s.currentHunk, 1 ≤ hunk.balance) (hnone : swallowed r lines = 0) :
    balance (lines.foldl Counting.step r).finish + balance s.finish + (!allLookRight r lines).toNat
      ≤ balance (lines.foldl ParseState.step s).finish + balance r.finish := by
  induction lines generalizing r s with
  | nil => simp [allLookRight, add_comm]
  | cons line lines ih =>
    rw [swallowed, Nat.add_eq_zero_iff, Bool.toNat_eq_zero] at hnone
    have hm := moves hf hnone.1
    obtain ⟨hline, hpos'⟩ := hm.balance hf hpos
    have hlines := ih (hm.follows hf) hpos' hnone.2
    have hsplit : (!allLookRight r (line :: lines)).toNat
        ≤ (!looksRight r line).toNat + (!allLookRight (r.step line) lines).toNat := by
      rw [allLookRight]
      cases looksRight r line <;> simp
    simp only [List.foldl_cons]
    omega

end GoPosix.Patch
