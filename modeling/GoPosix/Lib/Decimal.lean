import Mathlib.Algebra.Order.Ring.Abs
import Mathlib.Algebra.Order.Ring.Rat
import Mathlib.Tactic.FieldSimp
import Mathlib.Tactic.Positivity
import Mathlib.Tactic.Ring

/-!
# Rationals with finitely many digits

`HasDigits b r n`: in base `b`, the rational `r` has no more than `n` digits behind its dot.
-/

namespace Decimal

/-- The rational is a multiple of `b ^ -n`. -/
def HasDigits (b : ℤ) (r : ℚ) (n : ℕ) : Prop := ∃ k : ℤ, r * (b : ℚ) ^ n = k

theorem hasDigits_int (z : ℤ) (n : ℕ) : HasDigits b z n := ⟨z * b ^ n, by push_cast; ring⟩

theorem HasDigits.mono (h : HasDigits b r n) (hnm : n ≤ m) : HasDigits b r m := by
  obtain ⟨k, hk⟩ := h
  obtain ⟨d, rfl⟩ := Nat.exists_eq_add_of_le hnm
  refine ⟨k * b ^ d, ?_⟩
  rw [pow_add, ← mul_assoc, hk]
  push_cast
  ring

theorem HasDigits.neg (h : HasDigits b r n) : HasDigits b (-r) n := by
  obtain ⟨k, hk⟩ := h
  exact ⟨-k, by rw [neg_mul, hk, Int.cast_neg]⟩

theorem HasDigits.add (hr : HasDigits b r n) (hq : HasDigits b q n) : HasDigits b (r + q) n := by
  obtain ⟨k, hk⟩ := hr
  obtain ⟨l, hl⟩ := hq
  exact ⟨k + l, by rw [add_mul, hk, hl, Int.cast_add]⟩

theorem HasDigits.sub (hr : HasDigits b r n) (hq : HasDigits b q n) : HasDigits b (r - q) n := by
  rw [sub_eq_add_neg]
  exact hr.add hq.neg

theorem HasDigits.add_max (hr : HasDigits b r n) (hq : HasDigits b q m) :
    HasDigits b (r + q) (max n m) :=
  (hr.mono (le_max_left n m)).add (hq.mono (le_max_right n m))

theorem HasDigits.sub_max (hr : HasDigits b r n) (hq : HasDigits b q m) :
    HasDigits b (r - q) (max n m) :=
  (hr.mono (le_max_left n m)).sub (hq.mono (le_max_right n m))

theorem hasDigits_div (hb : b ≠ 0) (k : ℤ) (n : ℕ) : HasDigits b (k / (b : ℚ) ^ n) n :=
  ⟨k, div_mul_cancel₀ _ (pow_ne_zero n (Int.cast_ne_zero.mpr hb))⟩

/-- The dot moves behind the first digit, and what stands before it is taken away. -/
theorem HasDigits.shift (h : HasDigits b r (n + 1)) (z : ℤ) : HasDigits b (r * b - z) n := by
  obtain ⟨k, hk⟩ := h
  refine ⟨k - z * b ^ n, ?_⟩
  rw [sub_mul, mul_assoc, ← pow_succ', hk]
  push_cast
  ring

/-! ## Decimal places -/

/-- The rational is a multiple of `10 ^ -s`, where `s` may be negative. -/
def HasPlaces (r : ℚ) (s : ℤ) : Prop := ∃ k : ℤ, r = k * (10 : ℚ) ^ (-s)

variable {s t : ℤ}

theorem zpow_neg_eq (h : 0 ≤ s) : (10 : ℚ) ^ (-s) = 1 / 10 ^ s.toNat := by
  obtain ⟨n, rfl⟩ := Int.eq_ofNat_of_zero_le h
  rw [zpow_neg, zpow_natCast, one_div, Int.toNat_natCast]

theorem HasPlaces.mono (h : HasPlaces r s) (hst : s ≤ t) : HasPlaces r t := by
  obtain ⟨k, rfl⟩ := h
  obtain ⟨d, rfl⟩ := Int.le.dest hst
  refine ⟨k * 10 ^ d, ?_⟩
  rw [neg_add, zpow_add₀ (by norm_num), zpow_neg _ (d : ℤ), zpow_natCast]
  push_cast
  field_simp

theorem HasPlaces.sub (hr : HasPlaces r s) (hq : HasPlaces q s) : HasPlaces (r - q) s := by
  obtain ⟨k, rfl⟩ := hr
  obtain ⟨l, rfl⟩ := hq
  exact ⟨k - l, by rw [Int.cast_sub, sub_mul]⟩

theorem HasPlaces.mul (hr : HasPlaces r s) (hq : HasPlaces q t) : HasPlaces (r * q) (s + t) := by
  obtain ⟨k, rfl⟩ := hr
  obtain ⟨l, rfl⟩ := hq
  refine ⟨k * l, ?_⟩
  rw [neg_add, zpow_add₀ (by norm_num), Int.cast_mul]
  ring

theorem HasPlaces.hasDigits (h : HasPlaces r s) : HasDigits 10 r s.toNat := by
  obtain ⟨k, hk⟩ := h.mono (Int.self_le_toNat s)
  refine ⟨k, ?_⟩
  rw [hk, zpow_neg_eq (Int.natCast_nonneg _), Int.toNat_natCast]
  push_cast
  field_simp

/-- The places are the distance to the next number. -/
theorem HasPlaces.one_add_le (h : HasPlaces r s) (hr : 1 < |r|) : 1 + 1 / 10 ^ s.toNat ≤ |r| := by
  obtain ⟨k, hk⟩ := h.hasDigits
  push_cast at hk
  have hpos : (0 : ℚ) < 10 ^ s.toNat := by positivity
  have habs : |r| * 10 ^ s.toNat = (|k| : ℤ) := by
    rw [Int.cast_abs, ← hk, abs_mul, abs_of_pos hpos]
  have hlt : (10 : ℤ) ^ s.toNat < |k| := by
    have : (10 : ℚ) ^ s.toNat < (|k| : ℤ) := habs ▸ lt_mul_of_one_lt_left hpos hr
    exact_mod_cast this
  have hle : (10 : ℚ) ^ s.toNat + 1 ≤ (|k| : ℤ) := by exact_mod_cast hlt
  calc 1 + 1 / 10 ^ s.toNat = ((10 : ℚ) ^ s.toNat + 1) / 10 ^ s.toNat := by field_simp
    _ ≤ |r| := by rwa [div_le_iff₀ hpos, habs]

end Decimal
