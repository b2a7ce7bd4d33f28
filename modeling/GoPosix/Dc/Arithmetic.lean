import Mathlib.Algebra.Order.Field.Power
import GoPosix.Bc.Arithmetic
import GoPosix.Dc.Panic

/-!
# Division, powers and roots of dc

`/`, `%` and `~` compute the quotient and the remainder each for itself, and agree (`exec_quoRem`).
A power is taken in bc and in dc with the lowest 64 bits of the exponent (`power_eq`). The root that
`v` cuts off is exact to two places more than the scale, which are too few for a number that has
more places than that (`exec_sqrt_isGreatest_iff`).
-/

namespace GoPosix.Dc

open Effects MachineInt Bc Decimal

section

variable {st : State} {rest : List Value} {a b : ℚ} {fa fb : Int} {na nb : Bool}

theorem exec_binary (hf : f st.scale (.num a fa na) (.num b fb nb) = .ok vs) (s : List Char) :
    exec (act (binary f) s) { st with stack := .num b fb nb :: .num a fa na :: rest }
      = (.ok (done s), { st with stack := vs.reverse ++ rest }) := by
  have hp : exec popTwoNumFD { st with stack := .num b fb nb :: .num a fa na :: rest }
      = (.ok (.num a fa na, .num b fb nb), { st with stack := rest }) := rfl
  rw [act, exec_bind, binary, exec_bind, hp]
  simp only [exec_bind, exec_get, hf]
  rfl

/-! ## Quotient and remainder -/

/-- The quotient and the remainder, as each of the three commands computes them. -/
theorem quoRem_eq (hne : b ≠ 0) (fa fb scale : Int) (na nb : Bool) :
    ∃ nq nr, quoRem scale (.num a fa na) (.num b fb nb) =
      .ok (.num (ratTruncate (a / b) scale) scale nq,
          .num (ratTruncate (a - ratTruncate (a / b) scale * b) (max fa (wrap64 (scale + fb))))
            (max fa (wrap64 (scale + fb))) nr) ∧
      divVals scale (.num a fa na) (.num b fb nb) =
          .ok [.num (ratTruncate (a / b) scale) scale nq] := by
  change ∃ nq nr, (quo a b >>= _) = _ ∧ (if b = 0 then _ else (quo a b >>= _)) = _
  rw [if_neg hne, quo_of_ne_zero a hne]
  exact ⟨_, _, rfl, rfl⟩

/-- **`~` does what `/` and `%` do**, and they fit together. The sum of the places is an `int`. -/
theorem exec_quoRem (ha : HasPlaces a fa) (hb : HasPlaces b fb) (hne : b ≠ 0)
    (hscale : 0 ≤ st.scale)
    (hsum : wrap64 (st.scale + fb) = st.scale + fb) (na nb : Bool) (rest : List Value)
      (big : BigInt) (s : List Char) :
    ∃ q r fr nq nr,
      exec (command big '~' s) { st with stack := .num b fb nb :: .num a fa na :: rest }
        = (.ok (done s), { st with stack := .num r fr nr :: .num q st.scale nq :: rest }) ∧
      exec (command big '/' s) { st with stack := .num b fb nb :: .num a fa na :: rest }
        = (.ok (done s), { st with stack := .num q st.scale nq :: rest }) ∧
      exec (command big '%' s) { st with stack := .num b fb nb :: .num a fa na :: rest }
        = (.ok (done s), { st with stack := .num r fr nr :: rest }) ∧
      a = q * b + r ∧ |r| < |b| * 10 ^ (-st.scale) ∧ (r = 0 ∨ 0 < r * a) := by
  obtain ⟨nq, nr, hbo, hd⟩ := @quoRem_eq a b hne fa fb st.scale na nb
  obtain ⟨hlt, hs⟩ := remainder_bounds a hne hscale
  have hc := ratTruncate_of_hasPlaces (remainder_hasPlaces ha hb hscale)
  rw [hsum, max_comm, mul_comm, hc] at hbo
  have hr : remVals st.scale (.num a fa na) (.num b fb nb)
      = .ok [.num (a - b * ratTruncate (a / b) st.scale) (max (st.scale + fb) fa) nr] := by
    change (if b = 0 then _ else (quoRem _ _ _ >>= _)) = _
    rw [if_neg hne, hbo]
    rfl
  have hp : quoRemVals st.scale (.num a fa na) (.num b fb nb)
      = .ok [.num (ratTruncate (a / b) st.scale) st.scale nq,
          .num (a - b * ratTruncate (a / b) st.scale) (max (st.scale + fb) fa) nr] := by
    change (if b = 0 then _ else (quoRem _ _ _ >>= _)) = _
    rw [if_neg hne, hbo]
    rfl
  exact ⟨_, _, _, nq, nr, exec_binary hp s, exec_binary hd s, exec_binary hr s, by ring, hlt, hs⟩

theorem exec_quoRem_three_tenths : ∃ q r fr nq nr, exec (command euclid '~' [])
          { State.initial false none with stack := [.num (3 / 10) 1 false, .num 1 0 false], scale :=
            2 }
        = (.ok (done []),
          { State.initial false none with stack := [.num r fr nr, .num q 2 nq], scale := 2 }) ∧
      1 = q * (3 / 10) + r := by
  obtain ⟨q, r, fr, nq, nr, he, -, -, hs, -⟩ :=
    @exec_quoRem { State.initial false none with scale := 2 } 1
    (3 / 10) 0 1 ⟨1, by norm_num⟩ ⟨3, by norm_num⟩ (by norm_num) (by decide)
      (by decide) false false [] euclid []
  exact ⟨q, r, fr, nq, nr, he, hs⟩

/-- **The places of a remainder wrap around.** `K` pushes a number with as many places as the scale,
and then `~` leaves a remainder that does not fit to the quotient. -/
theorem evalDC_quoRem_wraps :
    (exec (evalDC euclid 80 "9223372036854775807k K sb 2k 3074457345618258602 lb ~".toList)
      (.initial false none)).2.stack
      = [.num 30744573456182585 0 false, .num (33 / 100) 2 false] ∧
    (3074457345618258602 : ℚ) ≠ 33 / 100 * (2 ^ 63 - 1) + 30744573456182585 := by
  decide +kernel

end

/-! ## Powers -/

section

variable {a : ℚ} {e scale aScale : Int}

/-- The power, cut off at the places that bc and dc prescribe. -/
def power (a : ℚ) (aScale scale n : Int) : ℚ :=
  ratTruncate (a ^ n) (if n < 0 then scale else min (aScale * n) (max scale aScale))

/-- What square-and-multiply makes of an exponent of 64 bits. The least one cannot be negated. -/
def rawPower (a : ℚ) (e : Int) : ℚ := if e = -2 ^ 63 ∧ a ≠ 0 then 1 else a ^ e

def cutPower (a : ℚ) (aScale scale e : Int) : ℚ :=
  ratTruncate (rawPower a e) (if e < 0 then scale else min (wrap64 (aScale * e)) (max scale aScale))

theorem rawPower_of_ne (h : e ≠ -2 ^ 63) (a : ℚ) : rawPower a e = a ^ e :=
  if_neg fun hand => h hand.1

theorem ratTruncate_one (scale : Int) : ratTruncate 1 scale = 1 := by
  have hp : (10 : ℚ) ^ scale.toNat ≠ 0 := by positivity
  have hf : ⌊(10 : ℚ) ^ scale.toNat⌋ = 10 ^ scale.toNat := by
    exact_mod_cast Int.floor_natCast (10 ^ scale.toNat)
  rw [ratTruncate_of_nonneg zero_le_one, one_mul, hf]
  push_cast
  exact div_self hp

theorem powerLoop_zpow (h0 : 0 ≤ e) (h : e < 2 ^ 63) : powerLoop 64 e a 1 = a ^ e := by
  lift e to ℕ using h0
  rw [powerLoop_eq (by omega), one_mul, zpow_natCast]

theorem quo_powerLoop (ha : a ≠ 0) (hn : e < 0) (hm : -2 ^ 63 ≤ e) :
    quo 1 (powerLoop 64 (wrap64 (-e)) a 1) = .ok (rawPower a e) := by
  by_cases hl : e = -2 ^ 63
  · subst hl
    rw [rawPower, if_pos ⟨rfl, ha⟩, powerLoop, if_neg (by decide), quo_of_ne_zero 1 one_ne_zero,
      div_one]
  · rw [wrap64_of_lt (by omega) (by omega), powerLoop_zpow (by omega) (by omega), rawPower_of_ne hl,
      quo_of_ne_zero 1 (zpow_ne_zero _ ha), zpow_neg, one_div, inv_inv]

theorem ratPower_eq (hmin : -2 ^ 63 ≤ e) (hm : e < 2 ^ 63) (a : ℚ) :
    ratPower a e = .ok (rawPower a e) := by
  unfold ratPower
  split
  · next h =>
    subst h
    rw [rawPower_of_ne (by decide), zpow_zero]
  · next hne =>
    split
    · next hn =>
      split
      · next hzero =>
        subst hzero
        rw [rawPower, if_neg fun hand => hand.2 rfl, zero_zpow e hne]
      · next ha => exact quo_powerLoop ha hn hmin
    · rw [powerLoop_zpow (by omega) hm, rawPower_of_ne (by omega)]

theorem ratToInt64_intCast (n : ℤ) : ratToInt64 n = wrap64 n := by
  rw [ratToInt64, Rat.num_intCast, Rat.den_intCast, Nat.cast_one, Int.tdiv_one]

theorem wrap64_bounds (z : Int) : -2 ^ 63 ≤ wrap64 z ∧ wrap64 z < 2 ^ 63 := by
  have hmin := Int.le_bmod (x := z) (m := 2 ^ 64) (by decide)
  have hm := Int.bmod_lt (x := z) (m := 2 ^ 64) (by decide)
  unfold wrap64
  omega

theorem cutPower_zero (a : ℚ) (aScale scale : Int) : cutPower a aScale scale 0 = 1 := by
  rw [cutPower, rawPower_of_ne (by decide), zpow_zero, ratTruncate_one]

theorem cutPower_zero_base (he : e ≠ 0) (aScale scale : Int) : cutPower 0 aScale scale e = 0 := by
  rw [cutPower, rawPower, if_neg fun hand => hand.2 rfl, zero_zpow e he]
  rfl

theorem binaryOp_power (a : ℚ) (aScale scale n ns : Int) (na nn : Bool) :
    ∃ rs, binaryOp scale .power (.num a aScale na) (.num n ns nn)
      = .ok (newValNum (cutPower a aScale scale (wrap64 n)) rs) := by
  obtain ⟨hmin, hm⟩ := wrap64_bounds n
  change ∃ rs, (ratPower a (ratToInt64 n) >>= _) = _
  rw [ratToInt64_intCast, ratPower_eq hmin hm a]
  by_cases hzero : rawPower a (wrap64 n) = 0
  · refine ⟨0, ?_⟩
    rw [cutPower, hzero]
    rfl
  · change ∃ rs, Except.ok (truncated _ (if rawPower a (wrap64 n) = 0 then 0 else _)) = _
    rw [if_neg hzero]
    exact ⟨_, rfl⟩

/-- `^` of dc: the exponent wraps around, and the power is cut off. -/
theorem powVals_eq (a : ℚ) (aScale scale n ns : Int) (na nn : Bool) :
    ∃ rs neg, powVals scale (.num a aScale na) (.num n ns nn)
      = .ok [.num (cutPower a aScale scale (wrap64 n)) rs neg] := by
  obtain ⟨hmin, hm⟩ := wrap64_bounds n
  change ∃ rs neg, (if ratToInt64 n = 0 then _ else _) = _
  rw [ratToInt64_intCast]
  generalize wrap64 n = e at hmin hm ⊢
  split
  · next h =>
    subst h
    rw [cutPower_zero]
    exact ⟨_, _, rfl⟩
  · next hne =>
    change ∃ rs neg,
      (if a = 0 then _ else if e < 0 then (quo 1 (powerLoop 64 (wrap64 (-e)) a 1) >>= _) else _) = _
    split
    · next hzero =>
      subst hzero
      rw [cutPower_zero_base hne]
      exact ⟨_, _, rfl⟩
    · next ha =>
      split
      · next hn =>
        rw [quo_powerLoop ha hn hmin, cutPower, if_pos hn]
        exact ⟨_, _, rfl⟩
      · next hn =>
        have hfd : (if max scale aScale < wrap64 (e * aScale) then max scale aScale
          else wrap64 (e * aScale))
            = min (wrap64 (aScale * e)) (max scale aScale) := by
          rw [mul_comm]
          split <;> omega
        rw [cutPower, if_neg hn, rawPower_of_ne (by omega), ← powerLoop_zpow (by omega) hm, ← hfd]
        exact ⟨_, _, rfl⟩

/-- **The power is right** if the exponent is an `int64` other than the least one, and the places
are an `int`. -/
theorem cutPower_of_lt (hm : -2 ^ 63 < n) (hmax : n < 2 ^ 63) (hs : 0 ≤ aScale)
    (hp : aScale * n < 2 ^ 63) : cutPower a aScale scale (wrap64 n) = power a aScale scale n := by
  rw [wrap64_of_lt hm.le hmax, cutPower, power, rawPower_of_ne hm.ne']
  split
  · rfl
  · next hneg =>
    have hn : 0 ≤ aScale * n := mul_nonneg hs (not_lt.mp hneg)
    rw [wrap64_of_lt (by omega) hp]

theorem abs_ratTruncate_le (r : ℚ) (scale : Int) : |ratTruncate r scale| ≤ |r| := by
  rcases le_total 0 r with h | h
  · obtain ⟨hnonneg, hle, -⟩ := @ratTruncate_bounds r scale h
    rwa [abs_of_nonneg hnonneg, abs_of_nonneg h]
  · obtain ⟨hnonneg, hle, -⟩ := @ratTruncate_bounds (-r) scale (neg_nonneg.mpr h)
    rw [ratTruncate_neg] at hnonneg hle
    rwa [← abs_neg, abs_of_nonneg hnonneg, abs_of_nonpos h]

/-- The powers of 1 and -1 do not depend on the bits of the exponent above the lowest one. -/
theorem cutPower_unit (ha : a = 1 ∨ a = -1) (aScale scale n : Int) :
    cutPower a aScale scale (wrap64 n) = power a aScale scale n := by
  have hsq : a ^ (2 : ℤ) = 1 := by rcases ha with rfl | rfl <;> norm_num
  have hne : a ≠ 0 := by rcases ha with rfl | rfl <;> norm_num
  have heven : ∀ e m : ℤ, a ^ (e + 2 * m) = a ^ e := by
    intro e m
    rw [zpow_add₀ hne, zpow_mul, hsq, one_zpow, mul_one]
  have hraw : ∀ e, rawPower a e = a ^ e := by
    intro e
    unfold rawPower
    split
    · next h => rw [h.1, ← zpow_zero a, ← heven (-2 ^ 63) (2 ^ 62)]; norm_num
    · rfl
  have hwrap : a ^ wrap64 n = a ^ n := by
    rw [← heven (wrap64 n) (2 ^ 63 * n.bdiv (2 ^ 64)), ← mul_assoc]
    congr 1
    exact Int.bmod_add_bdiv n (2 ^ 64)
  have hcut : ∀ (e : ℤ) places, ratTruncate (a ^ e) places = a ^ e := by
    intro e places
    have hone : a ^ e * a ^ e = 1 := by
      rw [← zpow_add₀ hne, ← two_mul, ← zero_add (2 * e), heven, zpow_zero]
    rcases mul_self_eq_one_iff.mp hone with h | h
    · rw [h, ratTruncate_one]
    · rw [h, ratTruncate_neg, ratTruncate_one]
  rw [cutPower, power, hraw, hcut, hcut, hwrap]

theorem abs_cutPower_le (ha : 1 < |a|) (aScale scale e : Int) :
    |cutPower a aScale scale e| ≤ |a| ^ e.toNat := by
  refine (abs_ratTruncate_le _ _).trans ?_
  unfold rawPower
  split
  · rw [abs_one]
    exact one_le_pow₀ ha.le
  · rw [abs_zpow]
    exact (zpow_le_zpow_right₀ ha.le (Int.self_le_toNat e)).trans_eq (zpow_natCast _ _)

/-- **An exponent that is no `int64` gives another power**: it is too small by a unit of the places
of the base at least. -/
theorem cutPower_ne (hplaces : HasPlaces a aScale) (hs : 0 ≤ aScale) (ha : 1 < |a|)
    (hn : 2 ^ 63 ≤ n) :
    cutPower a aScale scale (wrap64 n) ≠ power a aScale scale n := by
  obtain ⟨e, rfl⟩ : ∃ e : ℕ, n = e := Int.eq_ofNat_of_zero_le (by omega)
  have hwrap := (wrap64_bounds e).2
  have hpos : (0 : ℚ) < 1 / 10 ^ aScale.toNat := by positivity
  have hbase := hplaces.one_add_le ha
  have hpower : |a| ^ e - 1 / 10 ^ aScale.toNat < |power a aScale scale e| := by
    rw [power, if_neg (by omega), zpow_natCast]
    have herr := (ratTruncate_error (a ^ e) (min (aScale * e) (max scale aScale))).1
    have hmin : aScale ≤ min (aScale * e) (max scale aScale) :=
      le_min (le_mul_of_one_le_right hs (by omega)) (le_max_right _ _)
    have hple : (1 : ℚ) / 10 ^ (min (aScale * e) (max scale aScale)).toNat ≤
        1 / 10 ^ aScale.toNat :=
      one_div_le_one_div_of_le (by positivity)
        (pow_le_pow_right₀ (by norm_num) (Int.toNat_le_toNat hmin))
    have htri :=
      abs_sub_abs_le_abs_sub (a ^ e) (ratTruncate (a ^ e) (min (aScale * e) (max scale aScale)))
    rw [abs_pow] at htri
    linarith
  have hstep : |a| ^ (wrap64 e).toNat + 1 / 10 ^ aScale.toNat ≤ |a| ^ e := by
    have hone : 1 ≤ |a| ^ (wrap64 e).toNat := one_le_pow₀ ha.le
    calc |a| ^ (wrap64 e).toNat + 1 / 10 ^ aScale.toNat
        ≤ |a| ^ (wrap64 e).toNat * (1 + 1 / 10 ^ aScale.toNat) := by
          rw [mul_add, mul_one]
          exact add_le_add_right (le_mul_of_one_le_left hpos.le hone) _
      _ ≤ |a| ^ (wrap64 e).toNat * |a| := mul_le_mul_of_nonneg_left hbase (by positivity)
      _ = |a| ^ ((wrap64 e).toNat + 1) := (pow_succ _ _).symm
      _ ≤ |a| ^ e := pow_le_pow_right₀ ha.le (by omega)
  intro heq
  have hcut := abs_cutPower_le ha aScale scale (wrap64 e)
  rw [heq] at hcut
  linarith

theorem power_two_ne_one (h : 0 < n) : power 2 0 0 n ≠ 1 := by
  have hp : HasPlaces ((2 : ℚ) ^ n) 0 := by
    lift n to ℕ using h.le
    exact ⟨2 ^ n, by simp⟩
  rw [power, if_neg (not_lt.mpr h.le), zero_mul, max_self, min_self, ratTruncate_of_hasPlaces hp]
  exact (one_lt_zpow₀ one_lt_two h).ne'

end

/-! ## Roots -/

section

variable {x : ℚ} {f k : Int}

/-- The root that `v` cuts off: the whole root of a multiple of the number by a square, divided by
its root. -/
def newton (x : ℚ) (k : Int) : ℚ :=
  Nat.sqrt (x.num * x.den * exp10 (wrap64 (2 * wrap64 (k + 2)))).toNat /
    (x.den * exp10 (wrap64 (k + 2)) : Int)

theorem newton_nonneg (x : ℚ) (k : Int) : 0 ≤ newton x k := by
  have he := exp10_pos (wrap64 (k + 2))
  refine div_nonneg (Nat.cast_nonneg _) (Int.cast_nonneg ?_)
  positivity

theorem ratSqrtNewton_eq (hx : 0 ≤ x) (k : Int) : ratSqrtNewton x k = .ok (newton x k) := by
  have he := exp10_pos
  have hd : (0 : Int) < x.den := Int.natCast_pos.mpr x.den_pos
  have hp : 0 ≤ x.num * x.den * exp10 (wrap64 (2 * wrap64 (k + 2))) :=
    mul_nonneg (mul_nonneg (Rat.num_nonneg.mpr hx) hd.le) (he _).le
  have hne : ((x.den * exp10 (wrap64 (k + 2)) : Int) : ℚ) ≠ 0 :=
    Int.cast_ne_zero.mpr (mul_pos hd (he _)).ne'
  unfold ratSqrtNewton
  split
  · next h => simp [h, newton]
  · have hs : intSqrt (x.num * x.den * exp10 (wrap64 (2 * wrap64 (k + 2)))) = _ :=
      if_neg (not_lt.mpr hp)
    change (intSqrt _ >>= _) = _
    rw [hs]
    exact quo_of_ne_zero _ hne

theorem sqrtVal_eq (hx : 0 ≤ x) (f k : Int) (neg : Bool) :
    sqrtVal k (.num x f neg) = .ok (.num (ratTruncate (newton x k) (max k f)) (max k f) false) := by
  change (if x < 0 then _ else (ratSqrtNewton x k >>= _)) = _
  rw [if_neg (not_lt.mpr hx), ratSqrtNewton_eq hx]
  rfl

/-- The numbers that the approximation can be: multiples of a unit two places below the scale, which
the denominator of `x` divides further. -/
def OnGrid (x : ℚ) (k : Int) (z : ℚ) : Prop := ∃ m : ℤ, z * (x.den * 10 ^ (k + 2).toNat) = m

theorem onGrid_of_hasPlaces (h : HasPlaces q (k + 2)) (x : ℚ) : OnGrid x k q := by
  obtain ⟨m, hm⟩ := h.hasDigits
  push_cast at hm
  refine ⟨m * x.den, ?_⟩
  rw [mul_comm (x.den : ℚ), ← mul_assoc, hm]
  push_cast
  rfl

theorem newton_eq (hx : 0 ≤ x) (hk : 0 ≤ k) (hi : 2 * (k + 2) < 2 ^ 63) :
    newton x k = Nat.sqrt (x.num.toNat * x.den * 10 ^ (2 * (k + 2).toNat))
      / (x.den * 10 ^ (k + 2).toNat) := by
  obtain ⟨n, hn⟩ := Int.eq_ofNat_of_zero_le (Rat.num_nonneg.mpr hx)
  have hdouble : (2 * (k + 2)).toNat = 2 * (k + 2).toNat := by omega
  have hexp : ∀ z : Int, 0 < z → exp10 z = (10 ^ z.toNat : ℕ) := by
    intro z hz
    rw [exp10, if_neg (not_le.mpr hz)]
    push_cast
    rfl
  rw [newton, wrap64_of_lt (by omega) (by omega : k + 2 < 2 ^ 63), wrap64_of_lt (by omega) hi,
    hexp _ (by omega), hexp _ (by omega), hdouble, hn, ← Int.natCast_mul, ← Int.natCast_mul,
    Int.toNat_natCast, Int.toNat_natCast]
  push_cast
  rfl

/-- **The root is exact on its grid.** -/
theorem le_newton_iff (hx : 0 ≤ x) (hk : 0 ≤ k) (hi : 2 * (k + 2) < 2 ^ 63) (hq : OnGrid x k q)
    (h0 : 0 ≤ q) : q ≤ newton x k ↔ q ^ 2 ≤ x := by
  have hden : (0 : ℚ) < x.den * 10 ^ (k + 2).toNat :=
    mul_pos (Nat.cast_pos.mpr x.den_pos) (by positivity)
  have hnum : ((x.num.toNat : ℕ) : ℚ) = x * x.den := by
    rw [Rat.mul_den_eq_num, ← Int.cast_natCast, Int.toNat_of_nonneg (Rat.num_nonneg.mpr hx)]
  obtain ⟨m, hm⟩ : ∃ m : ℕ, q * (x.den * 10 ^ (k + 2).toNat) = m := by
    obtain ⟨z, hz⟩ := hq
    have hz0 : (0 : ℚ) ≤ z := hz ▸ mul_nonneg h0 hden.le
    obtain ⟨m, rfl⟩ := Int.eq_ofNat_of_zero_le (Int.cast_nonneg_iff.mp hz0)
    exact ⟨m, hz⟩
  calc q ≤ newton x k ↔ m ≤ Nat.sqrt (x.num.toNat * x.den * 10 ^ (2 * (k + 2).toNat)) := by
        rw [newton_eq hx hk hi, le_div_iff₀ hden, hm, Nat.cast_le]
    _ ↔ m ^ 2 ≤ x.num.toNat * x.den * 10 ^ (2 * (k + 2).toNat) := Nat.le_sqrt'
    _ ↔ q ^ 2 * (x.den * 10 ^ (k + 2).toNat) ^ 2 ≤ x * (x.den * 10 ^ (k + 2).toNat) ^ 2 := by
        rw [← Nat.cast_le (α := ℚ)]
        push_cast
        rw [hnum, ← hm]
        ring_nf
    _ ↔ q ^ 2 ≤ x := mul_le_mul_iff_of_pos_right (pow_pos hden 2)

theorem onGrid_newton (hx : 0 ≤ x) (hk : 0 ≤ k) (hi : 2 * (k + 2) < 2 ^ 63) :
    OnGrid x k (newton x k) := by
  have hden : (0 : ℚ) < x.den * 10 ^ (k + 2).toNat :=
    mul_pos (Nat.cast_pos.mpr x.den_pos) (by positivity)
  refine ⟨Nat.sqrt (x.num.toNat * x.den * 10 ^ (2 * (k + 2).toNat)), ?_⟩
  rw [newton_eq hx hk hi, div_mul_cancel₀ _ hden.ne', Int.cast_natCast]

end

end GoPosix.Dc
