import GoPosix.Patch.Basic

/-!
# Where `applyHunk` applies a hunk

`applyHunk` tries the positions of one list in turn (`tried`): the place the header names, then one
line up, one line down, two lines up, and so on. It applies the hunk at the first one at which its
old side matches (`applyHunk_eq_ok_iff`).
-/

namespace GoPosix.Patch

open Slice MachineInt Bytes List

/-! ## The positions that are tried -/

/-- Try the positions of a list in turn. -/
def tryAll (lines : List Bytes) (h : Hunk) : List Int → Exec (Option (List Bytes))
  | [] => .ok none
  | q :: qs => do
    match ← tryAt lines h True q with
    | some lines' => .ok (some lines')
    | none => tryAll lines h qs

section

variable {lines : List Bytes} {h : Hunk}

theorem tryAll_ite (c : Prop) [Decidable c] (q : Int) (qs : List Int) :
    tryAll lines h ((if c then [q] else []) ++ qs) = (do
      match ← tryAt lines h c q with
      | some lines' => .ok (some lines')
      | none => tryAll lines h qs) := by
  by_cases hc : c
  · simp only [if_pos hc, singleton_append, tryAll, tryAt, if_true]
  · simp only [if_neg hc, nil_append, tryAt, bind, Except.bind]

/-- The positions one turn of the sliding loop tries, in the arithmetic of an `int`. -/
def slid (len : Nat) (pos count : Int) (offset : Nat) : List Int :=
  (if pos - offset ≥ 0 then [pos - offset] else []) ++
    (if wrap64 (pos + offset + count) ≤ len then [wrap64 (pos + offset)] else [])

/-- The positions `applyHunk` tries, whatever the numbers of the hunk are. -/
def tried (lines : List Bytes) (h : Hunk) : List Int :=
  (if wrap64 (startPos h + h.oldCount) ≤ lines.length then [startPos h] else []) ++
    (List.range' 1 lines.length).flatMap (slid lines.length (startPos h) h.oldCount)

theorem slideHunk_eq_tryAll (pos : Int) (n : Nat) : ∀ offset : Nat, slideHunk lines h pos n offset =
    tryAll lines h ((List.range' offset n).flatMap (slid lines.length pos h.oldCount)) := by
  induction n with
  | zero => exact fun _ => rfl
  | succ n ih =>
    intro offset
    rw [List.range'_succ, flatMap_cons, slid, append_assoc, tryAll_ite, tryAll_ite, ← ih]
    rfl

theorem tryAll_eq_some (ht : tryAll lines h qs = .ok (some lines')) :
    ∃ before q after, qs = before ++ q :: after ∧ (∀ x ∈ before, verifyHunk lines h x = .ok false) ∧
      verifyHunk lines h q = .ok true ∧ applyAt lines h q = .ok lines' := by
  induction qs with
  | nil => cases ht
  | cons q qs ih =>
    simp only [tryAll, tryAt, bind, Except.bind] at ht
    cases hq : verifyHunk lines h q with
    | error f => simp [hq] at ht
    | ok fits =>
      cases fits with
      | true =>
        refine ⟨[], q, qs, rfl, by simp, hq, ?_⟩
        cases happly : applyAt lines h q with
        | error f => simp [hq, happly, Except.map] at ht
        | ok l => simpa [hq, happly, Except.map] using ht
      | false =>
        simp only [hq, Bool.false_eq_true] at ht
        obtain ⟨before, q', after, rfl, hb, hr⟩ := ih ht
        exact ⟨q :: before, q', after, rfl, forall_mem_cons.mpr ⟨hq, hb⟩, hr⟩

/-- A hunk that is not there already is applied at the first position that is tried and matches. -/
theorem applyHunk_eq_ok_iff (hc : h.oldCount ≠ 0)
    (happlied : alreadyApplied lines h = .ok false) (ia : Bool) :
    applyHunk lines h ia = .ok (lines', true) ↔
      tryAll lines h (tried lines h) = .ok (some lines') := by
  have hs := @slideHunk_eq_tryAll lines h (startPos h) lines.length 1
  rw [tried, tryAll_ite, ← hs, applyHunk, happlied]
  simp only [bind, Except.bind, hc, or_false]
  cases tryAt lines h (wrap64 (startPos h + h.oldCount) ≤ lines.length) (startPos h) with
  | error f => simp
  | ok first =>
    cases first with
    | some l => simp
    | none =>
      cases slideHunk lines h (startPos h) lines.length 1 with
      | error f => simp
      | ok second =>
        cases second with
        | some l => simp
        | none => cases alreadyApplied lines (reverseHunk h) <;> simp

end

end GoPosix.Patch
