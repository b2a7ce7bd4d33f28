import Mathlib.Data.Rat.Floor
import GoPosix.Bc.Interp
import GoPosix.Lib.Decimal
import GoPosix.Lib.Rounding

/-!
# Arithmetic that is cut off

What `RatTruncate` cuts off of a rational is less than a unit of the last place and has its sign
(`ratTruncate_error`). So the quotient and the remainder of two numbers fit together
(`binaryOp_mod`), although they are cut off at different places.

A root that is cut off is the largest number with these places whose square is not too large, if no
such number lies between the root and its approximation (`isGreatest_ratTruncate_iff`), which for
`sqrt` is a floating point number.
-/

namespace GoPosix.Bc

open Effects MachineInt Decimal Rounding

/-! ## Cutting off -/

section

variable {r q : Rat} {scale : Int}

theorem ratTruncate_eq (r : Rat) (scale : Int) : ratTruncate r scale
      = (r * 10 ^ scale.toNat).num.tdiv (r * 10 ^ scale.toNat).den / (10 : ℚ) ^ scale.toNat := by
  unfold ratTruncate
  split
  · next h => simp [h]
  · push_cast
    rfl

theorem ratTruncate_neg (r : Rat) (scale : Int) :
    ratTruncate (-r) scale = -ratTruncate r scale := by
  rw [ratTruncate_eq, ratTruncate_eq, neg_mul, Rat.neg_num, Rat.neg_den, Int.neg_tdiv, Int.cast_neg,
    neg_div]

theorem ratTruncate_of_nonneg (h : 0 ≤ r) :
    ratTruncate r scale = ⌊r * 10 ^ scale.toNat⌋ / (10 : ℚ) ^ scale.toNat := by
  have hs : 0 ≤ r * 10 ^ scale.toNat := mul_nonneg h (by positivity)
  rw [ratTruncate_eq, Int.tdiv_eq_ediv_of_nonneg (Rat.num_nonneg.mpr hs), Rat.floor_def']

theorem ratTruncate_hasPlaces (r : Rat) (h : 0 ≤ scale) :
    HasPlaces (ratTruncate r scale) scale := by
  refine ⟨(r * 10 ^ scale.toNat).num.tdiv (r * 10 ^ scale.toNat).den, ?_⟩
  rw [ratTruncate_eq, zpow_neg_eq h, mul_one_div]

theorem ratTruncate_of_hasPlaces (h : HasPlaces r scale) : ratTruncate r scale = r := by
  obtain ⟨k, hk⟩ := h.hasDigits
  push_cast at hk
  rw [ratTruncate_eq, hk, Rat.num_intCast, Rat.den_intCast, Nat.cast_one, Int.tdiv_one, ← hk]
  field_simp

theorem ratTruncate_bounds (h : 0 ≤ r) :
    0 ≤ ratTruncate r scale ∧ ratTruncate r scale ≤ r ∧
      r < ratTruncate r scale + 1 / 10 ^ scale.toNat := by
  have hp : (0 : ℚ) < 10 ^ scale.toNat := by positivity
  rw [ratTruncate_of_nonneg h]
  refine ⟨?_, ?_, ?_⟩
  · exact div_nonneg (Int.cast_nonneg (Int.floor_nonneg.mpr (mul_nonneg h hp.le))) hp.le
  · rw [div_le_iff₀ hp]
    exact Int.floor_le _
  · rw [← add_div, lt_div_iff₀ hp]
    exact Int.lt_floor_add_one _

/-- **What is cut off** is less than a unit of the last place, and has the sign of the number. -/
theorem ratTruncate_error (r : Rat) (scale : Int) :
    |r - ratTruncate r scale| < 1 / 10 ^ scale.toNat ∧
      (r - ratTruncate r scale = 0 ∨ 0 < (r - ratTruncate r scale) * r) := by
  have hp : ∀ r : Rat, 0 ≤ r → |r - ratTruncate r scale| < 1 / 10 ^ scale.toNat ∧
      (r - ratTruncate r scale = 0 ∨ 0 < (r - ratTruncate r scale) * r) := by
    intro r h
    obtain ⟨hn, hle, hlt⟩ := @ratTruncate_bounds r scale h
    rw [abs_of_nonneg (sub_nonneg.mpr hle)]
    refine ⟨by linarith, ?_⟩
    rcases eq_or_lt_of_le hle with heq | hlt
    · exact .inl (by rw [heq, sub_self])
    · exact .inr (mul_pos (sub_pos.mpr hlt) (hn.trans_lt hlt))
  rcases le_total 0 r with h | h
  · exact hp r h
  · have hneg := hp (-r) (neg_nonneg.mpr h)
    rwa [ratTruncate_neg, neg_sub_neg, ← neg_sub, abs_neg, neg_eq_zero, neg_mul_neg] at hneg

/-- A number with the places is not larger than one that is cut off, if it is not larger than the
whole. -/
theorem le_ratTruncate (hq : HasPlaces q scale) (h0 : 0 ≤ q) (h : q ≤ r) :
    q ≤ ratTruncate r scale := by
  obtain ⟨k, hk⟩ := hq.hasDigits
  push_cast at hk
  have hp : (0 : ℚ) < 10 ^ scale.toNat := by positivity
  rw [ratTruncate_of_nonneg (h0.trans h), le_div_iff₀ hp, hk, Int.cast_le, Int.le_floor, ← hk]
  exact mul_le_mul_of_nonneg_right h hp.le

end

/-! ## Quotient and remainder -/

section

variable {a b : Rat} {aScale bScale scale : Int}

theorem remainder_bounds (a : Rat) (hb : b ≠ 0) (hs : 0 ≤ scale) :
    |a - b * ratTruncate (a / b) scale| < |b| * 10 ^ (-scale) ∧
      (a - b * ratTruncate (a / b) scale = 0 ∨ 0 < (a - b * ratTruncate (a / b) scale) * a) := by
  obtain ⟨hlt, hsign⟩ := ratTruncate_error (a / b) scale
  have hr : a - b * ratTruncate (a / b) scale = b * (a / b - ratTruncate (a / b) scale) := by
    rw [mul_sub, mul_div_cancel₀ a hb]
  rw [hr]
  constructor
  · rw [abs_mul, zpow_neg_eq hs]
    exact mul_lt_mul_of_pos_left hlt (abs_pos.mpr hb)
  rcases hsign with hzero | hp
  · exact .inl (by rw [hzero, mul_zero])
  right
  have hsq : b * (a / b - ratTruncate (a / b) scale) * a =
      b ^ 2 * ((a / b - ratTruncate (a / b) scale) * (a / b)) := by
    field_simp
  rw [hsq]
  exact mul_pos (by positivity) hp

theorem remainder_hasPlaces (ha : HasPlaces a aScale) (hb : HasPlaces b bScale) (hs : 0 ≤ scale) :
    HasPlaces (a - b * ratTruncate (a / b) scale) (max (scale + bScale) aScale) := by
  have hp := hb.mul (ratTruncate_hasPlaces (a / b) hs)
  rw [add_comm] at hp
  exact (ha.mono (le_max_right _ _)).sub (hp.mono (le_max_left _ _))

/-- **Quotient and remainder fit together.** The sum of the scales is an `int`. -/
theorem binaryOp_mod (ha : HasPlaces a aScale) (hb : HasPlaces b bScale) (hne : b ≠ 0)
    (hscale : 0 ≤ scale)
    (hsum : wrap64 (scale + bScale) = scale + bScale) (aNeg bNeg : Bool) :
    ∃ q qScale r rScale,
      binaryOp scale .div (.num a aScale aNeg) (.num b bScale bNeg) = .ok (newValNum q qScale) ∧
      binaryOp scale .mod (.num a aScale aNeg) (.num b bScale bNeg) = .ok (newValNum r rScale) ∧
      r = a - b * q ∧ |r| < |b| * 10 ^ (-scale) ∧ (r = 0 ∨ 0 < r * a) := by
  obtain ⟨hlt, hs⟩ := remainder_bounds a hne hscale
  have hc := ratTruncate_of_hasPlaces (remainder_hasPlaces ha hb hscale)
  have hq := quo_of_ne_zero a hne
  have hd : binaryOp scale .div (.num a aScale aNeg) (.num b bScale bNeg) =
      .ok (truncated (a / b) scale) := by
    simp only [binaryOp, if_neg hne, hq]
    rfl
  have hm : binaryOp scale .mod (.num a aScale aNeg) (.num b bScale bNeg)
      = .ok (truncated (a - b * ratTruncate (a / b) scale) (max (scale + bScale) aScale)) := by
    simp only [binaryOp, if_neg hne, hq, hsum]
    rfl
  refine ⟨_, _, _, _, hd, hm, hc, ?_⟩
  rw [hc]
  exact ⟨hlt, hs⟩

theorem binaryOp_mod_three_tenths : ∃ q qScale r rScale,
      binaryOp 2 .div (.num 1 0 false) (.num (3 / 10) 1 false) = .ok (newValNum q qScale) ∧
      binaryOp 2 .mod (.num 1 0 false) (.num (3 / 10) 1 false) = .ok (newValNum r rScale) ∧
      r = 1 - 3 / 10 * q ∧ |r| < |(3 / 10 : ℚ)| * 10 ^ (-2 : ℤ) ∧ (r = 0 ∨ 0 < r * 1) :=
  binaryOp_mod ⟨1, by norm_num⟩ ⟨3, by norm_num⟩ (by norm_num) (by decide) (by decide) false false

/-- **The scale of a remainder wraps around.** With as many places as an `int` can count, `1 % 3`
at scale 2 is cut off to 0, and the quotient is .33. -/
theorem binaryOp_mod_wraps :
    binaryOp 2 .div (.num 1 0 false) (.num 3 (2 ^ 63 - 1) false) = .ok (newValNum (33 / 100) 2) ∧
      binaryOp 2 .mod (.num 1 0 false) (.num 3 (2 ^ 63 - 1) false) = .ok (newValNum 0 0) ∧
      (0 : ℚ) ≠ 1 - 3 * (33 / 100) := by
  have hne : (3 : ℚ) ≠ 0 := by norm_num
  have hquo : truncated (1 / 3) 2 = newValNum (33 / 100) 2 := by decide +kernel
  have hrem : truncated (1 - 3 * ratTruncate (1 / 3) 2) (max (wrap64 (2 + (2 ^ 63 - 1))) 0)
      = newValNum 0 0 := by
    decide +kernel
  simp only [binaryOp, if_neg hne, quo_of_ne_zero 1 hne]
  exact ⟨congrArg Except.ok hquo, congrArg Except.ok hrem, by norm_num⟩

end

/-! ## Square roots -/

/-- A root that is cut off is right if the approximation separates the numbers with these places as
the root does. -/
theorem isGreatest_ratTruncate_iff {root x : Rat} {t : Int} (hr : 0 ≤ root) (ht : 0 ≤ t) :
    IsGreatest {q : ℚ | HasPlaces q t ∧ q ^ 2 ≤ x} (ratTruncate root t) ↔
      ∀ q, HasPlaces q t → 0 ≤ q → (q ≤ root ↔ q ^ 2 ≤ x) := by
  obtain ⟨hn, hle, -⟩ := @ratTruncate_bounds root t hr
  constructor
  · rintro ⟨⟨-, hsq⟩, hm⟩ q hq h0
    constructor
    · intro h
      exact (pow_le_pow_left₀ h0 (le_ratTruncate hq h0 h) 2).trans hsq
    · intro h
      exact (hm ⟨hq, h⟩).trans hle
  · intro h
    refine ⟨⟨ratTruncate_hasPlaces root ht, (h _ (ratTruncate_hasPlaces root ht) hn).mp hle⟩, ?_⟩
    rintro q ⟨hq, hsq⟩
    rcases le_total q 0 with hneg | h0
    · exact hneg.trans hn
    · exact le_ratTruncate hq h0 ((h q hq h0).mpr hsq)

/-- The precision in bits with which `valSqrt` takes a root that gets `targetScale` places. -/
def precision (targetScale : Int) : Nat :=
  min (max ((targetScale * 4 + 128) % 2 ^ 64).toNat 256) (2 ^ 32 - 1)

theorem le_precision (t : Int) : 256 ≤ precision t :=
  le_min (le_max_right _ _) (by decide)

/-- No number with `t` places has a square that is within the rounding errors of `x`, other than
the root of `x`, if `x` and its root are floating point numbers. -/
def Separated (x : ℚ) (t : Int) : Prop :=
  ∀ q, HasPlaces q t → 0 ≤ q → Near (precision t) x q →
    q ^ 2 = x ∧ IsFloat (precision t) q ∧ IsFloat (precision t) x

/-- **When `sqrt` is right**: no number with the places of the result is too near to the root. -/
theorem valSqrt_isGreatest {host : Host} {x : ℚ} (hx : 0 ≤ x) {xScale : Int}
    (hscale : 0 ≤ xScale) (scale : Int)
    (hhost : 0 < x →
      Rounds (precision (max xScale scale)) x (host.sqrt (precision (max xScale scale)) x))
    (hsep : Separated x (max xScale scale)) :
    ∃ root t, valSqrt host x xScale scale = .ok (root, t) ∧ t = max xScale scale ∧
      IsGreatest {q : ℚ | HasPlaces q t ∧ q ^ 2 ≤ x} (ratTruncate root t) := by
  have ht : 0 ≤ max xScale scale := le_max_of_le_left hscale
  unfold valSqrt
  rw [if_neg (not_lt.mpr hx)]
  by_cases hzero : x = 0
  · rw [if_pos hzero]
    refine ⟨0, _, rfl, rfl, (isGreatest_ratTruncate_iff (le_refl 0) ht).mpr fun q _ h0 => ?_⟩
    rw [hzero, sq_nonpos_iff]
    exact ⟨fun hle => le_antisymm hle h0, le_of_eq⟩
  · have hpos := lt_of_le_of_ne hx (Ne.symm hzero)
    have hround := hhost hpos
    rw [if_neg hzero]
    refine ⟨_, _, rfl, rfl, (isGreatest_ratTruncate_iff ?_ ht).mpr fun q hq h0 => ?_⟩
    · exact hround.choose_spec.2.2.1
    · exact hround.le_iff ((by decide : 6 ≤ 256).trans (le_precision _)) hpos h0 (hsep q hq h0)

/-- The square root of 2, rounded to the 256 binary digits that `valSqrt` asks for. -/
def rootTwo : Rat :=
  81877371507464127617551201542979628307507432471243237061821853600756754782485 / 2 ^ 255

def rootHost : Host := { plainHost with sqrt := fun _ r => if r = 2 then rootTwo else r }

theorem rounds_rootTwo : Rounds 256 2 rootTwo := by
  refine ⟨2, nearest_self ⟨2, 0, by norm_num, by norm_num⟩, ?_⟩
  have hroot : rootTwo =
    (81877371507464127617551201542979628307507432471243237061821853600756754782485 : ℤ)
      * 2 ^ (-255 : ℤ) := by
    norm_num [rootTwo]
  rw [hroot]
  exact nearestRoot_of_middles (by norm_num) (by norm_num) (by norm_num) (by norm_num)

theorem separated_two : Separated 2 0 := by
  rintro q ⟨k, rfl⟩ - hnear
  exfalso
  have hne : k ^ 2 - 2 ≠ 0 := by
    intro h
    have hlow : -2 < k := by nlinarith
    have hhigh : k < 2 := by nlinarith
    obtain rfl | rfl | rfl : k = -1 ∨ k = 0 ∨ k = 1 := by omega
    all_goals norm_num at h
  have hge : (1 : ℚ) ≤ |(k : ℚ) ^ 2 - 2| := by exact_mod_cast Int.one_le_abs hne
  have hunit : 8 * unit (precision 0) * 2 < 1 := by norm_num [precision, unit]
  rw [neg_zero, zpow_zero, mul_one] at hnear
  exact absurd (hge.trans hnear) (not_le.mpr hunit)

theorem valSqrt_isGreatest_two : ∃ root t, valSqrt rootHost 2 0 0 = .ok (root, t) ∧ t = max 0 0 ∧
    IsGreatest {q : ℚ | HasPlaces q t ∧ q ^ 2 ≤ 2} (ratTruncate root t) :=
  valSqrt_isGreatest (by norm_num) (le_refl 0) 0 (fun _ => rounds_rootTwo) separated_two

/-- A host that rounds the root of `4 ^ 129 - 1` to 256 bits. -/
def roundHost : Host := { plainHost with sqrt := fun _ _ => 2 ^ 129 }

theorem rounds_pred_pow : Rounds 256 (4 ^ 129 - 1) (2 ^ 129) := by
  refine ⟨(2 ^ 129) ^ 2, ⟨⟨4, 256, by norm_num, by norm_num⟩, ?_⟩, ?_⟩
  · rintro z ⟨m, e, hm, rfl⟩
    have hd : |(4 : ℚ) ^ 129 - 1 - (2 ^ 129) ^ 2| = 1 := by norm_num
    rcases le_or_gt e 0 with he | he
    · -- A number with no bits above the point is far below.
      have hm' : (m : ℚ) < 2 ^ 256 := by exact_mod_cast (le_abs_self m).trans_lt hm
      have hp : (0 : ℚ) < 2 ^ e ∧ (2 : ℚ) ^ e ≤ 1 :=
        ⟨zpow_pos two_pos e, zpow_le_one_of_nonpos₀ one_le_two he⟩
      have hz : (m : ℚ) * 2 ^ e ≤ 2 ^ 256 := by nlinarith
      refine le_trans ?_ (le_abs_self _)
      linarith
    · -- Any other one is even.
      obtain ⟨k, rfl⟩ : ∃ k : ℕ, e = k + 1 := ⟨(e - 1).toNat, by omega⟩
      have ho : (4 : ℤ) ^ 129 - 1 - m * 2 ^ (k + 1) ≠ 0 := by
        intro h
        have heven : (4 : ℤ) ^ 129 - 1 = 2 * (m * 2 ^ k) := by rw [sub_eq_zero.mp h]; ring
        omega
      exact_mod_cast Int.one_le_abs ho
  · exact nearestRoot_square ⟨1, 129, by norm_num, by norm_num⟩ (by norm_num)

/-- **The root of `4 ^ 129 - 1` is too large**: it is rounded to `2 ^ 129`. -/
theorem not_isGreatest_pred_pow : Rounds 256 (4 ^ 129 - 1) (roundHost.sqrt 256 (4 ^ 129 - 1)) ∧
      valSqrt roundHost (4 ^ 129 - 1) 0 0 = .ok (2 ^ 129, 0) ∧
      ¬ IsGreatest {q : ℚ | HasPlaces q 0 ∧ q ^ 2 ≤ 4 ^ 129 - 1} (ratTruncate (2 ^ 129) 0) := by
  refine ⟨rounds_pred_pow, ?_, ?_⟩
  · rw [valSqrt, if_neg (by norm_num), if_neg (by norm_num)]
    rfl
  · rintro ⟨⟨-, hsq⟩, -⟩
    rw [ratTruncate_of_hasPlaces ⟨2 ^ 129, by norm_num⟩] at hsq
    norm_num at hsq

end GoPosix.Bc
