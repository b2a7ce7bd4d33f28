import GoPosix.Patch.Search

/-!
# Applying a hunk

A hunk is checked against the lines at a position (`verifyHunk`), and then put in place of as many
lines as its header says (`applyAt`). The check passes over the lines of the hunk that would stand
behind the last line, and the sliding search goes there. `applyHunk_replaces_iff` says when the old
side of the hunk is what was replaced.
-/

namespace GoPosix.Patch

open Slice MachineInt Bytes List

variable {lines lines' : List Bytes} {h : Hunk}

/-! ## What is replaced -/

/-- The context and deleted lines of a hunk, without their marks. -/
def oldSide (ls : List Bytes) : List Bytes :=
  (ls.filter fun l => isDel l || isContext l).map (·.drop 1)

/-- Where the check succeeds and does not run out of lines, the old side stands. -/
theorem split_of_verifyLines (hl : lines.length < 2 ^ 63) (ls : List Bytes) : ∀ {o : Nat},
    verifyLines lines o ls = .ok true → o + (oldSide ls).length ≤ lines.length →
      oldSide ls <+: lines.drop o := by
  induction ls with
  | nil => exact fun _ _ => nil_prefix
  | cons l ls ih =>
    intro o hv hr
    by_cases hold : isDel l || isContext l
    · have hs : oldSide (l :: ls) = l.drop 1 :: oldSide ls := by
        rw [oldSide, filter_cons_of_pos (p := fun l => isDel l || isContext l) hold]
        rfl
      rw [hs, length_cons] at hr
      have hlt : o < lines.length := by omega
      have hg : index lines (o : Int) = .ok lines[o] := index_natCast (List.getElem?_eq_getElem hlt)
      have hw : wrap64 ((o : Int) + 1) = (o + 1 : Nat) := wrap64_of_lt (by omega) (by omega)
      have hm : lines[o] = l.drop 1 ∧ verifyLines lines (o + 1 : Nat) ls = .ok true := by
        have hlt' : (o : Int) < lines.length := by omega
        rw [verifyLines] at hv
        simp only [if_pos hlt', hg, hw, bind, Except.bind] at hv
        have hstep :
          (if lines[o] ≠ l.drop 1 then .ok false else verifyLines lines (o + 1 : Nat) ls) =
            .ok true := by
          rw [← hv]
          cases hd : isDel l with
          | true => rfl
          | false =>
            rw [hd, Bool.false_or] at hold
            simp [hold]
        split at hstep
        · cases hstep
        · next heq => exact ⟨not_not.mp heq, hstep⟩
      rw [hs, drop_eq_getElem_cons hlt, hm.1, prefix_cons_inj]
      exact ih hm.2 (by omega)
    · have hs : oldSide (l :: ls) = oldSide ls := by
        rw [oldSide, filter_cons_of_neg (p := fun l => isDel l || isContext l) hold]
        rfl
      rw [hs] at hr ⊢
      simp only [Bool.or_eq_true, not_or, Bool.not_eq_true] at hold
      rw [verifyLines, hold.1, hold.2] at hv
      exact ih hv hr

/-- The new side stands between the lines before and those behind. -/
theorem eq_of_applyAt {q : Nat} (happly : applyAt lines h q = .ok lines') :
    lines' = lines.take q ++ newSide h ++ lines.drop (wrap64 (q + h.oldCount)).toNat := by
  have hb : linesBefore lines q = .ok (lines.take q) := by
    unfold linesBefore upTo
    split
    · rw [if_pos (by omega), Int.toNat_natCast]
    · rw [take_of_length_le (by omega)]
  have hafter : ∀ {pos : Int} {after}, linesAfter lines pos = .ok after →
      after = lines.drop pos.toNat := by
    intro pos after heq
    unfold linesAfter startingAt at heq
    split at heq
    · split at heq
      · cases heq
        rfl
      · cases heq
    · cases heq
      rw [drop_eq_nil_of_le (by omega)]
  simp only [applyAt, hb, bind, Except.bind] at happly
  split at happly
  · cases happly
  · next after heq =>
    cases happly
    rw [hafter heq]

/-- One run is replaced by another if what is kept leaves out as much as it has. -/
theorem replaces_iff (new : List Bytes)
    (hm : (lines.take q).length + old.length + (lines.drop pos).length = lines.length →
      old <+: lines.drop q) :
    (∃ P R, lines = P ++ (old ++ R) ∧ lines.take q ++ new ++ lines.drop pos = P ++ new ++ R) ↔
      (lines.take q).length + old.length + (lines.drop pos).length = lines.length := by
  constructor
  · rintro ⟨P, R, hl, hn⟩
    have hlen := congrArg List.length hl
    have hlen' := congrArg List.length hn
    simp only [length_append] at hlen hlen'
    omega
  · intro hlen
    obtain ⟨R, hR⟩ := hm hlen
    have hl : lines = lines.take q ++ (old ++ R) := by rw [hR, take_append_drop]
    -- what is kept behind the run and what stands there end alike, and are equally long
    have hs : R <:+ lines := ⟨lines.take q ++ old, by rw [append_assoc, ← hl]⟩
    have hln : R.length = (lines.drop pos).length := by
      have := congrArg List.length hl
      simp only [length_append] at this
      omega
    have hr : R = lines.drop pos :=
      (suffix_of_suffix_length_le hs (drop_suffix pos lines) hln.le).eq_of_length hln
    exact ⟨lines.take q, R, hl, by rw [hr]⟩

/-- The position at which a hunk is applied: the top if it has no old lines, and else the first
position that is tried and matches. -/
def place (lines : List Bytes) (h : Hunk) : Option Int :=
  if h.oldCount = 0 then some 0
  else (tried lines h).find? fun q => verifyHunk lines h q matches .ok true

theorem find?_first (hq : verifyHunk lines h q = .ok true)
    (hbefore : ∀ x ∈ before, verifyHunk lines h x = .ok false) (after : List Int) :
    (before ++ q :: after).find? (fun q => verifyHunk lines h q matches .ok true) = some q := by
  rw [find?_append, find?_eq_none.mpr, find?_cons, hq]
  · rfl
  · intro x hx
    rw [hbefore x hx]
    exact Bool.false_ne_true

theorem applyHunk_of_oldCount (hc : h.oldCount = 0) (ia : Bool) :
    applyHunk lines h ia = .ok (newSide h ++ lines, true) := by
  have hafter : linesAfter lines 0 = .ok lines := by
    unfold linesAfter startingAt
    split
    · rfl
    · rw [eq_nil_of_length_eq_zero (l := lines) (by omega)]
  have hb : linesBefore lines 0 = .ok [] := by
    unfold linesBefore upTo
    split
    · rfl
    · rw [eq_nil_of_length_eq_zero (l := lines) (by omega)]
  have hw : wrap64 (0 + 0) = 0 := rfl
  rw [applyHunk]
  simp only [applyAt, hc, hw, hb, hafter, bind]
  rfl

/-- What a hunk that is applied makes of the lines, and where it matches. -/
theorem applyHunk_eq (hl : lines.length < 2 ^ 63)
    (happly : applyHunk lines h ignoreApplied = .ok (lines', true))
    (hnot : h.oldCount = 0 ∨ alreadyApplied lines h = .ok false) :
    ∃ q : Nat, place lines h = some (q : Int) ∧
      lines' = lines.take q ++ newSide h ++ lines.drop (wrap64 (q + h.oldCount)).toNat ∧
      ((lines.take q).length + (oldSide h.lines).length
          + (lines.drop (wrap64 (q + h.oldCount)).toNat).length = lines.length →
        oldSide h.lines <+: lines.drop q) := by
  by_cases hc : h.oldCount = 0
  · rw [applyHunk_of_oldCount hc] at happly
    cases happly
    have hw : wrap64 ((0 : Nat) + 0) = 0 := rfl
    refine ⟨0, if_pos hc, ?_, fun hr => ?_⟩
    · rw [hc]
      rfl
    · rw [hc, hw, Int.toNat_zero, drop_zero] at hr
      rw [eq_nil_of_length_eq_zero (l := oldSide h.lines) (by omega)]
      exact nil_prefix
  · rw [applyHunk_eq_ok_iff hc (hnot.resolve_left hc)] at happly
    obtain ⟨before, q, after, htried, hbefore, hq, happly⟩ := tryAll_eq_some happly
    have hplace : place lines h = some q := by
      rw [place, if_neg hc, htried, find?_first hq hbefore]
    rw [verifyHunk] at hq
    split at hq
    · cases hq
    next hn =>
    obtain ⟨q, rfl⟩ := Int.eq_ofNat_of_zero_le (not_lt.mp hn)
    refine ⟨q, hplace, eq_of_applyAt happly, fun hr => ?_⟩
    rw [length_take] at hr
    rcases le_or_gt q lines.length with hle | hgt
    · exact split_of_verifyLines hl _ hq (by omega)
    · rw [eq_nil_of_length_eq_zero (l := oldSide h.lines) (by omega)]
      exact nil_prefix

/-- **When a hunk replaces its old side by its new side**: the lines before the place where it is
found, its old side, and the lines that the count of its header leaves behind it are as many as the
lines. -/
theorem applyHunk_replaces_iff (hlen : lines.length < 2 ^ 63) {ignoreApplied : Bool}
    (happly : applyHunk lines h ignoreApplied = .ok (lines', true))
    (hnot : h.oldCount = 0 ∨ alreadyApplied lines h = .ok false) :
    ∃ q : Nat, place lines h = some (q : Int) ∧
      ((∃ P R, lines = P ++ (oldSide h.lines ++ R) ∧ lines' = P ++ newSide h ++ R) ↔
        min q lines.length + (oldSide h.lines).length
          + (lines.length - (wrap64 (q + h.oldCount)).toNat) = lines.length) := by
  obtain ⟨q, hplace, rfl, hm⟩ := applyHunk_eq hlen happly hnot
  have hiff := replaces_iff (newSide h) hm
  rw [length_take, length_drop] at hiff
  exact ⟨q, hplace, hiff⟩

/-- Two lines of context around one that is replaced. -/
def replaceLine : Hunk := ⟨2, 3, 2, 3, [str " a", str "-b", str "+x", str " c"]⟩

/-- The lines before and behind are kept. -/
theorem applyHunk_replaces_line :
    applyHunk [str "h", str "a", str "b", str "c", str "t"] replaceLine false
      = .ok ([str "h", str "a", str "x", str "c", str "t"], true) ∧
      ∃ P R, [str "h", str "a", str "b", str "c", str "t"] = P ++ (oldSide replaceLine.lines ++ R) ∧
        [str "h", str "a", str "x", str "c", str "t"] = P ++ newSide replaceLine ++ R := by
  have happly : applyHunk [str "h", str "a", str "b", str "c", str "t"] replaceLine false
      = .ok ([str "h", str "a", str "x", str "c", str "t"], true) := rfl
  obtain ⟨q, hplace, hiff⟩ := applyHunk_replaces_iff (by decide) happly (.inr rfl)
  have hq : place [str "h", str "a", str "b", str "c", str "t"] replaceLine = some 1 := rfl
  obtain rfl : q = 1 := by simpa using Option.some.inj (hplace.symm.trans hq)
  exact ⟨happly, hiff.mpr rfl⟩

/-- **A line that is not there is deleted**: the hunk is found behind the last line. -/
theorem applyHunk_deletes_nothing :
    applyHunk [str "x"] ⟨10, 1, 9, 0, [str "-a"]⟩ false = .ok ([str "x"], true) ∧
      alreadyApplied [str "x"] ⟨10, 1, 9, 0, [str "-a"]⟩ = .ok false ∧
      ¬ ∃ P R, [str "x"] = P ++ (oldSide [str "-a"] ++ R) := by
  refine ⟨rfl, rfl, ?_⟩
  rintro ⟨P, R, hl⟩
  have hm : str "a" ∈ [str "x"] := by
    have hold : oldSide [str "-a"] = [str "a"] := rfl
    rw [hl, hold]
    simp
  revert hm
  decide

end GoPosix.Patch
