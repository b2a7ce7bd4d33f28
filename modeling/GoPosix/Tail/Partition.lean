import GoPosix.Head.Basic
import GoPosix.Tail.Basic

/-!
# The head and the tail of a text

Both tools read lines with a `bufio.Scanner` and print each with a newline. So together they print
the lines of the text, each once and in order; this is the text itself exactly if the scanner loses
nothing (`head_tail_iff`).
-/

namespace GoPosix.Tail

open Bytes List

/-- A text whose lines are printed as they are. -/
def LinesKept (s : Bytes) : Prop :=
  s.getLast? = some newline ∧ ∀ l ∈ s.splitOn newline, l.getLast? ≠ some 13 ∧ l.length < bufferSize

instance (s : Bytes) : Decidable (LinesKept s) := inferInstanceAs (Decidable (_ ∧ _))

section

variable {k : Nat} {s : Bytes}

theorem hasPrefix_itoa (hc : isDigit c = false) (n : Nat) : hasPrefix (itoa n) [c] = false := by
  obtain ⟨d, di, hd⟩ := exists_cons_of_ne_nil (itoa_ne_nil n)
  have hne : c ≠ d := by
    rintro rfl
    apply head?_itoa hc n
    rw [hd]
    rfl
  rw [hd]
  simp [hasPrefix, List.isPrefixOf, hne]

/-- The lines of the scanner, which both tools use with the same buffer. -/
def tokens (s : Bytes) : List Bytes := (scanLinesUpTo bufferSize s).1

theorem head_output (k : Nat) (s : Bytes) :
    Head.output (itoa k) ⟨s, none⟩ = if k < 2 ^ 63 then unlines ((tokens s).take k) else [] := by
  have hp : hasPrefix (itoa k) (str "-") = false := hasPrefix_itoa rfl k
  unfold Head.output Head.lineCount
  simp only [if_neg (itoa_ne_nil k), hp, Bool.false_eq_true, if_false]
  by_cases hk : k < 2 ^ 63
  · rw [atoi_itoa hk, if_pos hk]
    exact Head.run_printed ⟨s, none⟩ k
  · have hnoErr : (atoi (itoa k)).2 = false := Bool.eq_false_iff.mpr fun h =>
      hk ((atoi_itoa_snd k).mp h)
    simp only [hnoErr, Bool.not_false, Bool.true_or, if_true, if_neg hk]

theorem tail_output (k : Nat) (s : Bytes) :
    output (str "+" ++ itoa (k + 1)) ⟨s, none⟩ = if k + 1 < 2 ^ 63 then unlines ((tokens s).drop k)
      else [] := by
  have hp : hasPrefix (str "+" ++ itoa (k + 1)) (str "+") = true := hasPrefix_append _ _
  have hd : (str "+" ++ itoa (k + 1)).drop 1 = itoa (k + 1) := rfl
  unfold output parseCount
  simp only [hp, if_true, hd]
  by_cases hk : k + 1 < 2 ^ 63
  · rw [atoi_itoa hk, if_pos hk]
    exact run_printed ⟨s, none⟩ k
  · have hnoErr : (atoi (itoa (k + 1))).2 = false := Bool.eq_false_iff.mpr fun h =>
      hk ((atoi_itoa_snd _).mp h)
    simp only [hnoErr, Bool.not_false, Bool.true_or, if_true, if_neg hk]

theorem unlines_tokens (s : Bytes) : unlines (tokens s) = s ↔ s = [] ∨ LinesKept s :=
  unlines_scanLinesUpTo_iff (by decide)

theorem length_scanTokensUpTo_le (size : Nat) (ls : List Bytes) :
    (scanTokensUpTo size ls).1.length ≤ ls.length := by
  induction ls with
  | nil => exact Nat.le_refl _
  | cons l ls ih =>
    rw [scanTokensUpTo]
    split
    · exact Nat.succ_le_succ ih
    · exact Nat.zero_le _

theorem length_tokens_lt (hs : s.getLast? = some newline) :
    (tokens s).length < (s.splitOn newline).length := by
  obtain ⟨t, rfl⟩ := List.getLast?_eq_some_iff.mp hs
  have hl := length_scanTokensUpTo_le bufferSize (t.splitOn newline)
  unfold tokens scanLinesUpTo
  simp only [splitOn_newline_snoc, List.getLast?_concat, dropLast_concat, length_append]
  exact Nat.lt_succ_of_le hl

/-- The first lines of a text are the text only if they are all of them. -/
theorem unlines_take_tokens (k : Nat) (s : Bytes) : unlines ((tokens s).take k) = s ↔
    s = [] ∨ LinesKept s ∧ (s.splitOn newline).length ≤ k + 1 := by
  constructor
  · intro hsame
    by_cases hs : s = []
    · exact .inl hs
    have hf : ∀ l ∈ (tokens s).take k, newline ∉ l := fun l hl =>
      newline_notMem_scanLinesUpTo bufferSize s l (mem_of_mem_take hl)
    have hp : s.splitOn newline = (tokens s).take k ++ [[]] := by
      conv => lhs; rw [← hsame]
      exact splitOn_unlines hf
    have hlen : (s.splitOn newline).length ≤ k + 1 := by
      rw [hp, length_append, length_take]
      exact Nat.succ_le_succ (Nat.min_le_left _ _)
    have hlast : s.getLast? = some newline := by
      rw [← hsame]
      apply getLast?_unlines
      intro hn
      rw [hn] at hsame
      exact hs hsame.symm
    have hall : (tokens s).take k = tokens s := by
      apply take_of_length_le
      have hlt := length_tokens_lt hlast
      omega
    rw [hall] at hsame
    exact .inr ⟨((unlines_tokens s).mp hsame).resolve_left hs, hlen⟩
  · rintro (rfl | ⟨hk, hlen⟩)
    · cases k <;> rfl
    · have hlt := length_tokens_lt hk.1
      rw [take_of_length_le (by omega)]
      exact (unlines_tokens s).mpr (.inr hk)

end

/-- **When the two make the text**: it is empty, or it ends in a newline, no line of it ends in a
carriage return or is too long for the scanner, and the counts are numbers of the machine. -/
theorem head_tail_iff (s : Bytes) (k : Nat) :
    Head.output (itoa k) ⟨s, none⟩ ++ output (str "+" ++ itoa (k + 1)) ⟨s, none⟩ = s ↔
      s = [] ∨ LinesKept s ∧
          (k + 1 < 2 ^ 63 ∨ k + 1 = 2 ^ 63 ∧ (s.splitOn newline).length ≤ k + 1) := by
  rw [head_output, tail_output]
  rcases Nat.lt_trichotomy (k + 1) (2 ^ 63) with hk | hk | hk
  · rw [if_pos (by omega), if_pos hk, ← unlines_append, take_append_drop, unlines_tokens]
    simp only [hk, true_or, and_true]
  · rw [if_pos (by omega), if_neg (by omega), append_nil, unlines_take_tokens]
    simp [hk]
  · rw [if_neg (by omega), if_neg (by omega)]
    have hnot : ¬ (k + 1 < 2 ^ 63 ∨ k + 1 = 2 ^ 63 ∧ (s.splitOn newline).length ≤ k + 1) := by omega
    simp only [hnot, and_false, or_false]
    exact eq_comm

theorem head_tail_unterminated :
    ¬ Head.output (itoa 1) ⟨str "a", none⟩ ++ output (str "+" ++ itoa 2) ⟨str "a", none⟩ =
      str "a" := by
  decide

end GoPosix.Tail
