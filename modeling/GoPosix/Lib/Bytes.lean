import Mathlib.Data.List.Basic

/-!
# Byte strings

A Go `string` is a sequence of bytes that need not be valid UTF-8: `Bytes` is `List UInt8`. The
functions below are those of package `strings` and `strconv`.
-/

abbrev Bytes := List UInt8

namespace Bytes

open List

instance lawfulBEq : LawfulBEq Bytes := inferInstanceAs (LawfulBEq (List UInt8))

def str (s : String) : Bytes := s.toByteArray.data.toList

@[simp] theorem str_space : str " " = [32] := rfl

@[simp] theorem str_plus : str "+" = [43] := rfl

@[simp] theorem str_minus : str "-" = [45] := rfl

def newline : UInt8 := 10

/-- White space in the sense of `unicode.IsSpace`, at the head of a byte string: what is left
after one such character, if there is one. The characters outside ASCII are listed in UTF-8. -/
def dropSpace : Bytes → Option Bytes
  | 0xC2 :: c :: l => if c = 0x85 || c = 0xA0 then some l else none
  | 0xE1 :: 0x9A :: 0x80 :: l => some l
  | 0xE2 :: 0x80 :: c :: l =>
    if (0x80 ≤ c && c ≤ 0x8A) || c = 0xA8 || c = 0xA9 || c = 0xAF then some l else none
  | 0xE2 :: 0x81 :: 0x9F :: l => some l
  | 0xE3 :: 0x80 :: 0x80 :: l => some l
  | c :: l => if (9 ≤ c && c ≤ 13) || c = 32 then some l else none
  | [] => none

/-- `strings.TrimSpace(s) == ""`: the string is white space only. A white space character has at
least one byte, so `s.length` turns suffice. -/
def isBlank (s : Bytes) : Bool :=
  go s.length s
where
  go : Nat → Bytes → Bool
  | _, [] => true
  | 0, _ => false
  | fuel + 1, s => match dropSpace s with
    | some rest => go fuel rest
    | none => false

/-! ## Pieces -/

section Pieces

theorem mem_splitOn {s : Bytes} : ∀ {l : Bytes}, l ∈ s.splitOn sep → sep ∉ l ∧ ∀ c ∈ l, c ∈ s := by
  induction s with
  | nil =>
    intro l hl
    rw [splitOn_nil, mem_singleton] at hl
    subst hl
    simp
  | cons c s ih =>
    intro l hl
    rw [splitOn_cons_eq_if_modifyHead] at hl
    by_cases hc : c = sep
    · rw [if_pos (beq_iff_eq.mpr hc)] at hl
      rcases mem_cons.mp hl with rfl | hl
      · simp
      · exact ⟨(ih hl).1, fun d hd => mem_cons_of_mem _ ((ih hl).2 d hd)⟩
    · rw [if_neg (by simpa using hc)] at hl
      cases hp : s.splitOn sep with
      | nil => exact absurd hp (splitOn_ne_nil _ _)
      | cons first rest =>
        rw [hp] at hl
        rcases mem_cons.mp hl with rfl | hl
        · obtain ⟨h₁, h₂⟩ := ih (by rw [hp]; exact mem_cons_self)
          refine ⟨by simp [h₁, Ne.symm hc], fun d hd => ?_⟩
          rcases mem_cons.mp hd with rfl | hd
          · exact mem_cons_self
          · exact mem_cons_of_mem _ (h₂ d hd)
        · obtain ⟨h₁, h₂⟩ := ih (by rw [hp]; exact mem_cons_of_mem _ hl)
          exact ⟨h₁, fun d hd => mem_cons_of_mem _ (h₂ d hd)⟩

end Pieces

/-! ## Lines -/

section Lines

variable {s t : Bytes}

/-- Splitting at newlines loses nothing: equal pieces come from equal strings. -/
theorem splitOn_newline_inj : s.splitOn newline = t.splitOn newline ↔ s = t := by
  constructor
  · intro h
    calc s = [newline].intercalate (s.splitOn newline) := (intercalate_splitOn newline).symm
      _ = [newline].intercalate (t.splitOn newline) := by rw [h]
      _ = t := intercalate_splitOn newline
  · rintro rfl
    rfl

theorem splitOn_newline_snoc (s : Bytes) :
    (s ++ [newline]).splitOn newline = s.splitOn newline ++ [[]] :=
  splitOn_append_cons_self s []

/-- A string that does not end in a newline does not have an empty last piece. -/
theorem getLast?_splitOn_newline (hs : s ≠ []) (hl : s.getLast? ≠ some newline) :
    (s.splitOn newline).getLast? ≠ some [] := by
  by_cases hm : newline ∈ s
  · -- cut at the last newline
    obtain ⟨q, p, hqp, hq⟩ := eq_append_cons_of_mem (mem_reverse.mpr hm)
    have hsplit : s = p.reverse ++ newline :: q.reverse := by
      have := congrArg List.reverse hqp
      simpa using this
    have hlast : q.reverse.splitOn newline = [q.reverse] := splitOn_eq_singleton (by simpa using hq)
    rw [hsplit, splitOn_append_cons_self, hlast]
    intro h
    have hn : q = [] := by simpa using h
    rw [hsplit, hn] at hl
    exact hl (by simp)
  · rw [splitOn_eq_singleton hm]
    simpa using hs

end Lines

end Bytes
