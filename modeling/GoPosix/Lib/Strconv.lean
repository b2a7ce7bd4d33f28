import Mathlib.Tactic.IntervalCases
import GoPosix.Lib.Bytes

/-!
# Decimal numbers

`strconv.Itoa` and `strconv.Atoi` for a 64-bit `int`. `atoi` returns `true` for no error; the value
is 0 after a syntax error, and the nearest `int` when the number is out of range.
-/

namespace Bytes

open List

def itoa (n : Nat) : Bytes := (Nat.toDigits 10 n).map fun c => UInt8.ofNat c.toNat

def itoaInt (z : Int) : Bytes := if z < 0 then str "-" ++ itoa z.natAbs else itoa z.natAbs

def isDigit (c : UInt8) : Bool := 48 ≤ c && c ≤ 57

/-- `strconv.ParseUint` in base 10 behind the value `n` of the digits so far. It gives up as soon
as the number leaves the range, with the largest `uint64`. -/
def parseUint : (n : Nat) → Bytes → Option Nat
  | n, [] => some n
  | n, c :: s =>
    if isDigit c then
      if n * 10 + (c.toNat - 48) < 2 ^ 64 then parseUint (n * 10 + (c.toNat - 48)) s
      else some (2 ^ 64 - 1)
    else none

def atoi (s : Bytes) : Int × Bool :=
  let neg := s.head? = some 45
  let digits := if s.head? = some 45 ∨ s.head? = some 43 then s.tail else s
  if digits = [] then (0, false)
  else match parseUint 0 digits with
    | none => (0, false)
    | some n =>
      if neg then if n ≤ 2 ^ 63 then (-n, true) else (-2 ^ 63, false)
      else if n < 2 ^ 63 then (n, true) else (2 ^ 63 - 1, false)

/-! ## Printing and reading back -/

theorem itoa_of_lt (h : d < 10) : itoa d = [UInt8.ofNat (48 + d)] := by
  interval_cases d <;> rfl

/-- The digits of a longer number: those of its tenth, and the last one. -/
theorem itoa_snoc (h : 10 ≤ n) : itoa n = itoa (n / 10) ++ itoa (n % 10) := by
  unfold itoa
  rw [← map_append, Nat.toDigits_append_toDigits (by decide) (by omega) (Nat.mod_lt n (by decide)),
    Nat.div_add_mod]

theorem itoa_ne_nil (n : Nat) : itoa n ≠ [] := by
  rcases Nat.lt_or_ge n 10 with h | h
  · rw [itoa_of_lt h]
    simp
  · rw [itoa_snoc h, itoa_of_lt (Nat.mod_lt n (by decide))]
    simp

theorem isDigit_ofNat (h : d < 10) : isDigit (UInt8.ofNat (48 + d)) = true := by
  interval_cases d <;> rfl

theorem isDigit_of_mem_itoa (n : Nat) : ∀ c ∈ itoa n, isDigit c = true := by
  induction n using Nat.strong_induction_on with
  | _ n ih =>
    intro c hc
    have hl : ∀ {d : Nat}, d < 10 → c ∈ itoa d → isDigit c = true := by
      intro d hd hm
      rw [itoa_of_lt hd, mem_singleton] at hm
      rw [hm]
      exact isDigit_ofNat hd
    rcases Nat.lt_or_ge n 10 with h | h
    · exact hl h hc
    · rw [itoa_snoc h, mem_append] at hc
      rcases hc with hc | hc
      · exact ih (n / 10) (by omega) c hc
      · exact hl (Nat.mod_lt n (by decide)) hc

theorem length_itoa_le : ∀ {n : Nat}, n < 10 ^ (k + 1) → (itoa n).length ≤ k + 1 := by
  induction k with
  | zero =>
    intro n h
    rw [itoa_of_lt (by omega)]
    exact le_rfl
  | succ k ih =>
    intro n h
    rcases Nat.lt_or_ge n 10 with hn | hn
    · rw [itoa_of_lt hn]
      simp
    · have hp : n / 10 < 10 ^ (k + 1) := by
        rw [Nat.div_lt_iff_lt_mul (by decide)]
        exact h
      rw [itoa_snoc hn, itoa_of_lt (Nat.mod_lt n (by decide)), length_append]
      exact Nat.succ_le_succ (ih hp)

theorem lt_pow_length_itoa (n : Nat) : n < 10 ^ (itoa n).length := by
  induction n using Nat.strong_induction_on with
  | _ n ih =>
    rcases Nat.lt_or_ge n 10 with h | h
    · rw [itoa_of_lt h]
      exact h
    · have hlt := ih (n / 10) (by omega)
      rw [itoa_snoc h, itoa_of_lt (Nat.mod_lt n (by decide)), length_append, length_singleton]
      omega

theorem length_itoa_le_iff : (itoa n).length ≤ k ↔ 0 < k ∧ n < 10 ^ k := by
  have hp := length_pos_iff.mpr (itoa_ne_nil n)
  constructor
  · intro h
    exact ⟨by omega, Nat.lt_of_lt_of_le (lt_pow_length_itoa n) (Nat.pow_le_pow_right (by decide) h)⟩
  · rintro ⟨hk, h⟩
    obtain ⟨j, rfl⟩ := Nat.exists_eq_add_of_lt hk
    exact length_itoa_le h

def decimalValue (s : Bytes) : Nat := s.foldl (fun n c => n * 10 + (c.toNat - 48)) 0

theorem decimalValue_itoa (n : Nat) : decimalValue (itoa n) = n := by
  have hdigit : ∀ d, d < 10 → (UInt8.ofNat (48 + d)).toNat - 48 = d := by
    intro d hd
    rw [UInt8.toNat_ofNat']
    omega
  induction n using Nat.strong_induction_on with
  | _ n ih =>
    rcases Nat.lt_or_ge n 10 with h | h
    · rw [itoa_of_lt h]
      show 0 * 10 + ((UInt8.ofNat (48 + n)).toNat - 48) = n
      rw [hdigit n h, Nat.zero_add]
    · have hl := Nat.mod_lt n (show 0 < 10 by decide)
      have hi := ih (n / 10) (by omega)
      unfold decimalValue at hi ⊢
      rw [itoa_snoc h, itoa_of_lt hl, foldl_append, hi, foldl_cons, foldl_nil, hdigit _ hl,
        Nat.div_add_mod']

theorem decimalValue_zeros (k : Nat) (s : Bytes) :
    decimalValue (List.replicate k 48 ++ s) = decimalValue s := by
  induction k with
  | zero => rfl
  | succ _ ih => exact ih

theorem itoa_injective : Function.Injective itoa := Function.LeftInverse.injective decimalValue_itoa

theorem parseUint_digit (hd : d < 10) (h : n * 10 + d < 2 ^ 64) (s : Bytes) :
    parseUint n (UInt8.ofNat (48 + d) :: s) = parseUint (n * 10 + d) s := by
  have hv : (UInt8.ofNat (48 + d)).toNat - 48 = d := by
    rw [UInt8.toNat_ofNat']
    omega
  rw [parseUint, if_pos (isDigit_ofNat hd), hv, if_pos h]

theorem parseUint_itoa (n : Nat) (h : n < 2 ^ 64) (s : Bytes) :
    parseUint 0 (itoa n ++ s) = parseUint n s := by
  induction n using Nat.strong_induction_on generalizing s with
  | _ n ih =>
    rcases Nat.lt_or_ge n 10 with hn | hn
    · rw [itoa_of_lt hn, singleton_append, parseUint_digit hn (by omega)]
      simp
    · have hl := Nat.mod_lt n (show 0 < 10 by decide)
      have hs : n / 10 * 10 + n % 10 = n := Nat.div_add_mod' n 10
      rw [itoa_snoc hn, itoa_of_lt hl, append_assoc, ih (n / 10) (by omega) (by omega),
        singleton_append, parseUint_digit hl (by omega), hs]

/-- **`Atoi` reads back what is printed for an `int`.** -/
theorem atoi_itoa (h : n < 2 ^ 63) : atoi (itoa n) = ((n : Int), true) := by
  obtain ⟨c, s, hcs⟩ := exists_cons_of_ne_nil (itoa_ne_nil n)
  have hc : isDigit c = true := isDigit_of_mem_itoa n c (by rw [hcs]; exact mem_cons_self)
  have hp : parseUint 0 (c :: s) = some n := by
    have := parseUint_itoa n (by omega) []
    rwa [append_nil, hcs] at this
  -- a digit is not a sign
  have hm : c ≠ 45 := by rintro rfl; cases hc
  have hplus : c ≠ 43 := by rintro rfl; cases hc
  rw [hcs]
  simp only [atoi, List.head?_cons, Option.some.injEq, hm, hplus, or_self, if_false,
    cons_ne_nil, hp,
    if_pos h]

/-! ## Integers as texts -/

def isInteger (s : Bytes) : Bool :=
  let digits := if s.head? = some 45 then s.tail else s
  digits ≠ [] && digits.all isDigit

def intValue (s : Bytes) : Int :=
  if s.head? = some 45 then -(decimalValue s.tail : Int) else decimalValue s

def FitsInt (z : Int) : Prop := -2 ^ 63 ≤ z ∧ z < 2 ^ 63

instance (z : Int) : Decidable (FitsInt z) := inferInstanceAs (Decidable (_ ∧ _))

theorem le_foldl_digits (n : Nat) (s : Bytes) :
    n ≤ s.foldl (fun n c => n * 10 + (c.toNat - 48)) n := by
  induction s generalizing n with
  | nil => exact Nat.le_refl n
  | cons c s ih =>
    have h := ih (n * 10 + (c.toNat - 48))
    rw [foldl_cons]
    omega

/-- Below the largest `uint64`, what `ParseUint` returns is the number it was given. -/
theorem parseUint_eq_some (hm : m < 2 ^ 64 - 1) : parseUint n s = some m ↔
      s.all isDigit = true ∧ s.foldl (fun n c => n * 10 + (c.toNat - 48)) n = m := by
  induction s generalizing n with
  | nil => simp [parseUint]
  | cons c s ih =>
    rw [parseUint, all_cons, foldl_cons]
    have hle := le_foldl_digits (n * 10 + (c.toNat - 48)) s
    by_cases hc : isDigit c = true
    · rw [if_pos hc, hc, Bool.true_and]
      by_cases hn : n * 10 + (c.toNat - 48) < 2 ^ 64
      · rw [if_pos hn, ih]
      rw [if_neg hn, Option.some.injEq]
      constructor
      · omega
      · omega
    · simp [hc]

/-- What `Atoi` accepts: a sign, if any, and digits of a number in range. -/
theorem atoi_eq_true
    (hd : d = if s.head? = some 45 ∨ s.head? = some 43 then s.tail else s) :
    atoi s = (z, true) ↔ d ≠ [] ∧ d.all isDigit = true ∧ FitsInt z ∧
      z = if s.head? = some 45 then -(decimalValue d : Int) else decimalValue d := by
  have hv : ∀ {n : Nat}, n < 2 ^ 64 - 1 →
      (parseUint 0 d = some n ↔ d.all isDigit = true ∧ decimalValue d = n) :=
    fun hn => parseUint_eq_some hn
  unfold atoi
  rw [← hd]
  by_cases hnil : d = []
  · simp [hnil]
  simp only [hnil, if_false, ne_eq, not_false_eq_true, true_and]
  constructor
  · intro h
    cases hp : parseUint 0 d with
    | none =>
      rw [hp] at h
      cases h
    | some n =>
      simp only [hp] at h
      split_ifs at h with hneg hle hlt
      · obtain ⟨hall, hn⟩ := (hv (by omega)).mp hp
        obtain rfl := (Prod.mk.inj h).1
        exact ⟨hall, ⟨by omega, by omega⟩, by rw [if_pos hneg, hn]⟩
      · cases (Prod.mk.inj h).2
      · obtain ⟨hall, hn⟩ := (hv (by omega)).mp hp
        obtain rfl := (Prod.mk.inj h).1
        exact ⟨hall, ⟨by omega, by omega⟩, by rw [if_neg hneg, hn]⟩
      · cases (Prod.mk.inj h).2
  · rintro ⟨hall, ⟨hl, hh⟩, hz⟩
    have hp : parseUint 0 d = some (decimalValue d) := by
      apply (hv _).mpr ⟨hall, rfl⟩
      split_ifs at hz <;> omega
    rw [hp]
    simp only
    split_ifs at hz ⊢ with hneg hle hlt
    · rw [hz]
    · omega
    · rw [hz]
    · omega

theorem head_of_isInteger (h : isInteger s = true) : s.head? ≠ some 43 := by
  intro hh
  cases s with
  | nil => cases hh
  | cons c s =>
    obtain rfl : c = 43 := Option.some.inj hh
    simp [isInteger, isDigit] at h

/-- **An integer is read if it is an `int`.** -/
theorem atoi_of_isInteger (h : isInteger s = true) :
    atoi s = (intValue s, true) ↔ FitsInt (intValue s) := by
  have hp := head_of_isInteger h
  simp only [isInteger, Bool.and_eq_true, decide_eq_true_eq] at h
  rw [atoi_eq_true rfl]
  simp only [hp, or_false, h.1, h.2, ne_eq, intValue]
  by_cases hn : s.head? = some 45 <;> simp [hn]

theorem isInteger_of_atoi (h : (atoi s).2 = true) (hp : s.head? ≠ some 43) :
    isInteger s = true := by
  have hr : atoi s = ((atoi s).1, true) := Prod.ext rfl h
  rw [atoi_eq_true rfl] at hr
  simp only [hp, or_false] at hr
  simp only [isInteger, Bool.and_eq_true, decide_eq_true_eq]
  exact ⟨hr.1, hr.2.1⟩

theorem head?_itoa (hc : isDigit c = false) (n : Nat) : (itoa n).head? ≠ some c := by
  intro hh
  have hd := isDigit_of_mem_itoa n c (mem_of_head? hh)
  rw [hc] at hd
  cases hd

theorem atoi_itoa_snd (n : Nat) : (atoi (itoa n)).2 = true ↔ n < 2 ^ 63 := by
  constructor
  · intro h
    have hr : atoi (itoa n) = ((atoi (itoa n)).1, true) := Prod.ext rfl h
    obtain ⟨-, -, hf, hv⟩ := (atoi_eq_true rfl).mp hr
    have hm : (itoa n).head? ≠ some 45 := head?_itoa rfl n
    have hp : (itoa n).head? ≠ some 43 := head?_itoa rfl n
    simp only [hm, hp, or_self, if_false, decimalValue_itoa] at hv
    have hh := hf.2
    omega
  · intro h
    rw [atoi_itoa h]

end Bytes
