import Mathlib.Algebra.Order.Floor.Ring
import Mathlib.Data.Int.Log
import Mathlib.Data.Rat.Floor
import Mathlib.Tactic.Linarith
import Mathlib.Tactic.Positivity

/-!
# Rounding to floating point numbers

The numbers of `p` bits, the nearest one to a rational and the nearest one to its root. The root of
a number, rounded twice, separates the rationals whose squares are not too near to the number as
the root itself does (`Rounds.le_iff`), and it is exact where nothing is lost (`Rounds.eq`).
-/

namespace Rounding

variable {p : ℕ} {x y z q : ℚ}

/-- A floating point number of `p` bits. -/
def IsFloat (p : ℕ) (y : ℚ) : Prop := ∃ m e : ℤ, |m| < 2 ^ p ∧ y = m * 2 ^ e

/-- No floating point number of `p` bits is nearer to `x`. -/
def Nearest (p : ℕ) (x y : ℚ) : Prop := IsFloat p y ∧ ∀ z, IsFloat p z → |x - y| ≤ |x - z|

/-- None is nearer to the root of `y`. The root lies on the side of `z` of the middle to any other
one. -/
def NearestRoot (p : ℕ) (y z : ℚ) : Prop :=
  IsFloat p z ∧ 0 ≤ z ∧ ∀ w, IsFloat p w → 0 ≤ w →
    (z < w → 4 * y ≤ (z + w) ^ 2) ∧ (w < z → (z + w) ^ 2 ≤ 4 * y)

/-- The root of `x` in floating point numbers of `p` bits. -/
def Rounds (p : ℕ) (x z : ℚ) : Prop := ∃ y, Nearest p x y ∧ NearestRoot p y z

/-! ## What is a floating point number already -/

theorem Nearest.eq (h : Nearest p x y) (hx : IsFloat p x) : y = x := by
  have hle := h.2 x hx
  rw [sub_self, abs_zero, abs_nonpos_iff, sub_eq_zero] at hle
  exact hle.symm

theorem nearest_self (h : IsFloat p x) : Nearest p x x := by
  refine ⟨h, fun z _ => ?_⟩
  rw [sub_self, abs_zero]
  exact abs_nonneg _

theorem NearestRoot.eq (h : NearestRoot p (q ^ 2) z) (hq : IsFloat p q) (h0 : 0 ≤ q) : z = q := by
  obtain ⟨-, hz, hw⟩ := h
  obtain ⟨habove, hbelow⟩ := hw q hq h0
  have hsq : 4 * q ^ 2 = (2 * q) ^ 2 := by ring
  rw [hsq] at habove hbelow
  rcases lt_trichotomy z q with hlt | heq | hgt
  · have := le_of_sq_le_sq (habove hlt) (by positivity)
    linarith
  · exact heq
  · have := le_of_sq_le_sq (hbelow hgt) (by positivity)
    linarith

theorem nearestRoot_square (hz : IsFloat p z) (h0 : 0 ≤ z) : NearestRoot p (z ^ 2) z := by
  have hsq : (z + z) ^ 2 = 4 * z ^ 2 := by ring
  refine ⟨hz, h0, fun w _ hw => ⟨fun h => ?_, fun h => ?_⟩⟩
  · rw [← hsq]
    exact pow_le_pow_left₀ (by linarith) (by linarith) 2
  · rw [← hsq]
    exact pow_le_pow_left₀ (by linarith) (by linarith) 2

/-- Between neighbours with a full mantissa there is no floating point number. -/
theorem IsFloat.le_or_ge {n : ℕ} {m e : ℤ} {w : ℚ} (hw : IsFloat (n + 1) w) (hm : 2 ^ n < m)
    (hne : w ≠ m * 2 ^ e) : w ≤ (m - 1) * 2 ^ e ∨ (m + 1) * 2 ^ e ≤ w := by
  obtain ⟨a, f, ha, rfl⟩ := hw
  have hpos : (0 : ℚ) < 2 ^ e := zpow_pos two_pos e
  rcases lt_or_ge f e with hlt | hge
  · -- The number has a smaller exponent, and its mantissa is no larger.
    left
    have hexp : (2 : ℚ) ^ f * 2 ≤ 2 ^ e := by
      rw [← zpow_add_one₀ two_ne_zero]
      exact zpow_le_zpow_right₀ one_le_two (by omega)
    have hmant : (a : ℚ) ≤ 2 ^ n * 2 := by
      exact_mod_cast ((le_abs_self a).trans_lt ha).le
    have hm' : (2 : ℚ) ^ n ≤ m - 1 := by
      have : (2 : ℤ) ^ n ≤ m - 1 := by omega
      exact_mod_cast this
    calc (a : ℚ) * 2 ^ f ≤ 2 ^ n * 2 * 2 ^ f :=
          mul_le_mul_of_nonneg_right hmant (zpow_nonneg zero_le_two f)
      _ = 2 ^ n * (2 ^ f * 2) := by ring
      _ ≤ 2 ^ n * 2 ^ e := mul_le_mul_of_nonneg_left hexp (by positivity)
      _ ≤ (m - 1) * 2 ^ e := mul_le_mul_of_nonneg_right hm' hpos.le
  · obtain ⟨d, rfl⟩ := Int.le.dest hge
    have hscale : (a : ℚ) * 2 ^ (e + d) = (a * 2 ^ d : ℤ) * 2 ^ e := by
      rw [zpow_add₀ two_ne_zero, zpow_natCast]
      push_cast
      ring
    rw [hscale] at hne ⊢
    have hint : a * 2 ^ d ≠ m := fun h => hne (by rw [h])
    rcases lt_or_gt_of_ne hint with hless | hgreater
    · exact .inl (mul_le_mul_of_nonneg_right (by exact_mod_cast Int.le_sub_one_of_lt hless) hpos.le)
    · exact .inr (mul_le_mul_of_nonneg_right (by exact_mod_cast hgreater) hpos.le)

/-- The middles to both neighbours have the root between them. -/
theorem nearestRoot_of_middles {n : ℕ} {m e : ℤ} (hlow : 2 ^ n < m) (hhigh : m < 2 ^ (n + 1))
    (hbelow : ((2 * m - 1) * 2 ^ e) ^ 2 ≤ 4 * y) (habove : 4 * y ≤ ((2 * m + 1) * 2 ^ e) ^ 2) :
    NearestRoot (n + 1) y (m * 2 ^ e) := by
  have hpos : (0 : ℚ) < 2 ^ e := zpow_pos two_pos e
  have hm0 : 0 ≤ m := (pow_nonneg zero_le_two n).trans hlow.le
  have hm : (0 : ℚ) ≤ m := by exact_mod_cast hm0
  refine ⟨⟨m, e, by rwa [abs_of_nonneg hm0], rfl⟩, by positivity, fun w hw h0 => ⟨?_, ?_⟩⟩
  · intro hlt
    have hw' := (hw.le_or_ge hlow hlt.ne').resolve_left (by intro h; linarith)
    exact habove.trans (pow_le_pow_left₀ (by positivity) (by linarith) 2)
  · intro hlt
    have hw' := (hw.le_or_ge hlow hlt.ne).resolve_right (by intro h; linarith)
    exact (pow_le_pow_left₀ (by positivity) (by linarith) 2).trans hbelow

theorem Rounds.eq (h : Rounds p (q ^ 2) z) (hsq : IsFloat p (q ^ 2)) (hq : IsFloat p q)
    (h0 : 0 ≤ q) : z = q := by
  obtain ⟨y, hy, hz⟩ := h
  rw [hy.eq hsq] at hz
  exact hz.eq hq h0

/-! ## The relative error -/

/-- A bound for the relative error of a floating point number of `p` bits. -/
def unit (p : ℕ) : ℚ := 2 / 2 ^ p

theorem unit_pos (p : ℕ) : 0 < unit p := by
  unfold unit
  positivity

/-- The number, cut off after `p` bits. -/
theorem exists_isFloat (hp : 0 < p) (hx : 0 < x) :
    ∃ z, IsFloat p z ∧ 0 ≤ z ∧ z ≤ x ∧ x * (1 - unit p) ≤ z := by
  obtain ⟨n, rfl⟩ : ∃ n, p = n + 1 := ⟨p - 1, by omega⟩
  -- The exponent with which the mantissa has exactly `p` bits.
  have hlow : (2 : ℚ) ^ (Int.log 2 x) ≤ x := by exact_mod_cast Int.zpow_log_le_self one_lt_two hx
  have hhigh : x < (2 : ℚ) ^ (Int.log 2 x + 1) := by
    exact_mod_cast Int.lt_zpow_succ_log_self one_lt_two x
  have hpos : (0 : ℚ) < 2 ^ (Int.log 2 x - n) := zpow_pos two_pos _
  have hm : 0 ≤ x / 2 ^ (Int.log 2 x - n) := by positivity
  have hfloor := Int.floor_le (x / 2 ^ (Int.log 2 x - n))
  have hnext := Int.lt_floor_add_one (x / 2 ^ (Int.log 2 x - n))
  rw [le_div_iff₀ hpos] at hfloor
  rw [div_lt_iff₀ hpos] at hnext
  refine ⟨_, ⟨⌊x / 2 ^ (Int.log 2 x - n)⌋, Int.log 2 x - n, ?_, rfl⟩, ?_, hfloor, ?_⟩
  · rw [abs_of_nonneg (Int.floor_nonneg.mpr hm), Int.floor_lt, div_lt_iff₀ hpos]
    have hsplit : (2 : ℚ) ^ (Int.log 2 x + 1) = 2 ^ (n + 1) * 2 ^ (Int.log 2 x - n) := by
      rw [← zpow_natCast, ← zpow_add₀ two_ne_zero]
      push_cast
      ring_nf
    exact_mod_cast hhigh.trans_eq hsplit
  · exact mul_nonneg (Int.cast_nonneg (Int.floor_nonneg.mpr hm)) hpos.le
  · have hulp : (2 : ℚ) ^ (Int.log 2 x - n) ≤ x * unit (n + 1) := by
      calc (2 : ℚ) ^ (Int.log 2 x - n) = 2 ^ Int.log 2 x * unit (n + 1) := by
            rw [zpow_sub₀ two_ne_zero, zpow_natCast, unit, pow_succ]
            field_simp
        _ ≤ x * unit (n + 1) := mul_le_mul_of_nonneg_right hlow (unit_pos _).le
    linarith

theorem Nearest.bounds (h : Nearest p x y) (hp : 0 < p) (hx : 0 < x) :
    x * (1 - unit p) ≤ y ∧ y ≤ x * (1 + unit p) := by
  obtain ⟨z, hz, -, hle, hge⟩ := exists_isFloat hp hx
  have hnear := h.2 z hz
  rw [abs_of_nonneg (sub_nonneg.mpr hle), abs_le] at hnear
  constructor <;> linarith

/-- A number whose square is at most `y` is at most the root of `y`, up to the error. -/
theorem NearestRoot.ge (h : NearestRoot p y z) (hp : 0 < p) (hq : 0 < q) (hle : q ^ 2 ≤ y) :
    q * (1 - unit p) ≤ z := by
  obtain ⟨w, hw, h0, hwq, hge⟩ := exists_isFloat hp hq
  by_contra! hlt
  have hsq := ((h.2.2 w hw h0).1 (by linarith)).trans' (mul_le_mul_of_nonneg_left hle zero_le_four)
  have hz := h.2.1
  have := le_of_sq_le_sq ((by ring : (2 * q) ^ 2 = 4 * q ^ 2).trans_le hsq) (by positivity)
  have hu := mul_pos hq (unit_pos p)
  linarith

theorem NearestRoot.le (h : NearestRoot p y z) (hp : 0 < p) (hq : 0 < q) (hge : y ≤ q ^ 2) :
    z ≤ q * (1 + unit p) := by
  obtain ⟨w, hw, h0, hwq, hle⟩ := exists_isFloat hp hq
  have hu := mul_pos hq (unit_pos p)
  by_contra! hlt
  have hsq := ((h.2.2 w hw h0).2 (by linarith)).trans (mul_le_mul_of_nonneg_left hge zero_le_four)
  have := le_of_sq_le_sq (hsq.trans_eq (by ring : 4 * q ^ 2 = (2 * q) ^ 2)) (by positivity)
  linarith

/-- The square of `q` is so near to `x` that the error may hide on which side it lies. -/
def Near (p : ℕ) (x q : ℚ) : Prop := |q ^ 2 - x| ≤ 8 * unit p * x

theorem unit_le (hp : 6 ≤ p) : unit p ≤ 1 / 32 := by
  have hpow : (2 : ℚ) ^ 6 ≤ 2 ^ p := pow_le_pow_right₀ one_le_two hp
  rw [unit, div_le_div_iff₀ (by positivity) (by norm_num)]
  linarith

/-- The root of more than a square that is not near is not rounded to less. -/
theorem Rounds.le_of_sq_le (h : Rounds p x z) (hp : 6 ≤ p) (hx : 0 < x) (hq : 0 < q)
    (hfar : ¬ Near p x q) (hle : q ^ 2 ≤ x) : q ≤ z := by
  obtain ⟨y, hy, hz⟩ := h
  have hpos := unit_pos p
  have hsmall := unit_le hp
  have hlow := (hy.bounds (by omega) hx).1
  rw [Near, not_le, abs_sub_comm, abs_of_nonneg (sub_nonneg.mpr hle)] at hfar
  -- There is room for the errors of both roundings between `q` and the root.
  have hsq : (q * (1 + 2 * unit p)) ^ 2 ≤ y := by
    refine le_trans ?_ hlow
    have hgap : q ^ 2 * (1 + 2 * unit p) ^ 2 ≤ x * (1 - 8 * unit p) * (1 + 2 * unit p) ^ 2 :=
      mul_le_mul_of_nonneg_right (by linarith) (by positivity)
    have hpoly : (1 - 8 * unit p) * (1 + 2 * unit p) ^ 2 ≤ 1 - unit p := by
      nlinarith [pow_pos hpos 2, pow_pos hpos 3]
    calc (q * (1 + 2 * unit p)) ^ 2 = q ^ 2 * (1 + 2 * unit p) ^ 2 := mul_pow _ _ _
      _ ≤ x * ((1 - 8 * unit p) * (1 + 2 * unit p) ^ 2) := by rwa [← mul_assoc]
      _ ≤ x * (1 - unit p) := mul_le_mul_of_nonneg_left hpoly hx.le
  refine le_trans ?_ (hz.ge (by omega) (by positivity) hsq)
  have hpoly : 1 ≤ (1 + 2 * unit p) * (1 - unit p) := by nlinarith
  rw [mul_assoc]
  exact le_mul_of_one_le_right hq.le hpoly

/-- The root of less than a square that is not near is rounded to less. -/
theorem Rounds.lt_of_lt_sq (h : Rounds p x z) (hp : 6 ≤ p) (hx : 0 < x) (hq : 0 < q)
    (hfar : ¬ Near p x q) (hlt : x < q ^ 2) : z < q := by
  obtain ⟨y, hy, hz⟩ := h
  have hpos := unit_pos p
  have hsmall := unit_le hp
  have hhigh := (hy.bounds (by omega) hx).2
  rw [Near, not_le, abs_of_nonneg (sub_nonneg.mpr hlt.le)] at hfar
  have hroom : 0 < 1 - 2 * unit p := by linarith
  have hsq : y ≤ (q * (1 - 2 * unit p)) ^ 2 := by
    refine hhigh.trans ?_
    have hgap : x * (1 + 8 * unit p) * (1 - 2 * unit p) ^ 2 ≤ q ^ 2 * (1 - 2 * unit p) ^ 2 :=
      mul_le_mul_of_nonneg_right (by linarith) (by positivity)
    have hpoly : 1 + unit p ≤ (1 + 8 * unit p) * (1 - 2 * unit p) ^ 2 := by
      nlinarith [mul_le_mul_of_nonneg_left hsmall hpos.le, pow_pos hpos 3]
    calc x * (1 + unit p) ≤ x * ((1 + 8 * unit p) * (1 - 2 * unit p) ^ 2) :=
          mul_le_mul_of_nonneg_left hpoly hx.le
      _ ≤ q ^ 2 * (1 - 2 * unit p) ^ 2 := by rwa [← mul_assoc]
      _ = (q * (1 - 2 * unit p)) ^ 2 := (mul_pow _ _ _).symm
  refine (hz.le (by omega) (mul_pos hq hroom) hsq).trans_lt ?_
  have hpoly : (1 - 2 * unit p) * (1 + unit p) < 1 := by nlinarith
  rw [mul_assoc]
  exact mul_lt_of_lt_one_right hq hpoly

/-- **The rounded root separates** the numbers whose squares are not too near to `x`, and the root
itself where it is a floating point number as `x` is. -/
theorem Rounds.le_iff (h : Rounds p x z) (hp : 6 ≤ p) (hx : 0 < x) (h0 : 0 ≤ q)
    (hnear : Near p x q → q ^ 2 = x ∧ IsFloat p q ∧ IsFloat p x) : q ≤ z ↔ q ^ 2 ≤ x := by
  rcases eq_or_lt_of_le h0 with rfl | hq
  · have hz := h.choose_spec.2.2.1
    simp only [hz, zero_pow two_ne_zero, hx.le]
  by_cases hn : Near p x q
  · obtain ⟨rfl, hf, hsq⟩ := hnear hn
    simp only [h.eq hsq hf h0, le_refl]
  constructor
  · intro hle
    by_contra! hlt
    exact absurd (h.lt_of_lt_sq hp hx hq hn hlt) (not_lt.mpr hle)
  · exact h.le_of_sq_le hp hx hq hn

end Rounding
