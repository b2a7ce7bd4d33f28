import Mathlib

/-!
# Cyclic redundancy checks

A register of `w` bits is a polynomial over the field with two elements. A turn multiplies it by `X`
modulo the generator, so behind any octets the register holds the remainder of their polynomial
times `X ^ w`.
-/

namespace Crc

open Polynomial Finset

/-- The polynomial with the low bits of a number as its coefficients. -/
noncomputable def poly (w n : ℕ) : (ZMod 2)[X] := ∑ i ∈ range w, if n.testBit i then X ^ i else 0

/-- The bits of some octets, the first one for the highest power. -/
noncomputable def message (w : ℕ) (octets : List ℕ) (p : (ZMod 2)[X]) : (ZMod 2)[X] :=
  octets.foldl (fun p b => p * X ^ 8 + poly w b) p

/-- A turn of the register, with the generator `X ^ (k + 1) + taps`. -/
def turn (k taps n : ℕ) : ℕ :=
  if n.testBit k then (n <<< 1 % 2 ^ (k + 1)) ^^^ taps else n <<< 1 % 2 ^ (k + 1)

section

variable (w k m n : ℕ)

theorem poly_xor : poly w (m ^^^ n) = poly w m + poly w n := by
  unfold poly
  rw [← sum_add_distrib]
  refine sum_congr rfl fun i _ => ?_
  rw [Nat.testBit_xor]
  cases m.testBit i <;> cases n.testBit i <;> simp [CharTwo.add_self_eq_zero]

/-- The coefficients move up, and the highest one is lost. -/
theorem poly_mul_X : poly (k + 1) n * X =
    poly (k + 1) (n <<< 1 % 2 ^ (k + 1)) + if n.testBit k then X ^ (k + 1) else 0 := by
  unfold poly
  rw [sum_mul, sum_range_succ, sum_range_succ']
  congr 1
  · have hl : (n <<< 1 % 2 ^ (k + 1)).testBit 0 = false := by simp
    rw [hl, if_neg Bool.false_ne_true, add_zero]
    refine sum_congr rfl fun i hi => ?_
    have hb : (n <<< 1 % 2 ^ (k + 1)).testBit (i + 1) = n.testBit i := by
      simpa using fun _ => mem_range.mp hi
    rw [hb, ite_mul, zero_mul, pow_succ]
  · rw [ite_mul, zero_mul, pow_succ]

theorem degree_poly_lt : (poly w n).degree < w := by
  rw [← mem_degreeLT]
  refine Submodule.sum_mem _ fun i hi => ?_
  split
  · rw [mem_degreeLT, degree_X_pow, Nat.cast_lt]
    exact mem_range.mp hi
  · exact Submodule.zero_mem _

theorem xor_mul_two_pow (b j : ℕ) : n ^^^ b * 2 ^ j = (n / 2 ^ j ^^^ b) * 2 ^ j ^^^ n % 2 ^ j := by
  refine Nat.eq_of_testBit_eq fun i => ?_
  obtain h | h := lt_or_ge i j
  · simp [Nat.testBit_mul_two_pow, h, h.not_ge]
  · simp [Nat.testBit_mul_two_pow, Nat.testBit_div_two_pow, h, h.not_gt]

/-- The turns are linear. -/
theorem turns_xor (taps j : ℕ) :
    (turn k taps)^[j] (m ^^^ n) = (turn k taps)^[j] m ^^^ (turn k taps)^[j] n := by
  induction j generalizing m n with
  | zero => rfl
  | succ j ih =>
    have ht : turn k taps (m ^^^ n) = turn k taps m ^^^ turn k taps n := by
      unfold turn
      rw [Nat.testBit_xor, Nat.shiftLeft_xor_distrib, Nat.xor_mod_two_pow]
      cases m.testBit k <;> cases n.testBit k <;> simp [Nat.xor_comm, Nat.xor_left_comm]
    rw [Function.iterate_succ_apply, ht, ih]
    rfl

theorem poly_shiftLeft (j : ℕ) (h : n * 2 ^ j < 2 ^ (k + 1)) :
    poly (k + 1) (n * 2 ^ j) = poly (k + 1) n * X ^ j := by
  induction j with
  | zero => simp
  | succ j ih =>
    rw [pow_succ, ← mul_assoc] at h ⊢
    have ht : (n * 2 ^ j).testBit k = false := Nat.testBit_lt_two_pow (by rw [pow_succ] at h; omega)
    have hm := poly_mul_X k (n * 2 ^ j)
    rw [ht, if_neg Bool.false_ne_true, add_zero, Nat.shiftLeft_eq, pow_one, Nat.mod_eq_of_lt h]
      at hm
    rw [← hm, ih (by omega), pow_succ, mul_assoc]

end

variable {k taps : ℕ} {generator : (ZMod 2)[X]} (hg : generator = X ^ (k + 1) + poly (k + 1) taps)
include hg

theorem generator_monic : generator.Monic := hg ▸ monic_X_pow_add (degree_poly_lt _ _)

theorem mk_turn (n : ℕ) :
    AdjoinRoot.mk generator (poly (k + 1) (turn k taps n)) =
      AdjoinRoot.mk generator (poly (k + 1) n * X) := by
  have hr : AdjoinRoot.mk generator (X ^ (k + 1)) =
      AdjoinRoot.mk generator (poly (k + 1) taps) := by
    rw [AdjoinRoot.mk_eq_mk, CharTwo.sub_eq_add, ← hg]
  rw [poly_mul_X, turn]
  split
  · rw [poly_xor, map_add, map_add, hr]
  · rw [add_zero]

theorem mk_turns (j n : ℕ) : AdjoinRoot.mk generator (poly (k + 1) ((turn k taps)^[j] n)) =
    AdjoinRoot.mk generator (poly (k + 1) n * X ^ j) := by
  induction j generalizing n with
  | zero => simp
  | succ j ih =>
    rw [Function.iterate_succ_apply, ih, pow_succ', ← mul_assoc, map_mul, mk_turn hg, ← map_mul]

/-- The register holds the remainder behind octets with the polynomial `p`. -/
def Holds (k : ℕ) (generator : (ZMod 2)[X]) (n : ℕ) (p : (ZMod 2)[X]) : Prop :=
  AdjoinRoot.mk generator (poly (k + 1) n) = AdjoinRoot.mk generator (p * X ^ (k + 1))

/-- An octet enters the register from above. -/
theorem Holds.octet (hk : 7 ≤ k) (h : Holds k generator n p) (hb : b < 256) :
    Holds k generator ((turn k taps)^[8] (n ^^^ b * 2 ^ (k - 7))) (p * X ^ 8 + poly (k + 1) b) := by
  have hlt : b * 2 ^ (k - 7) < 2 ^ (k + 1) := by
    rw [show k + 1 = 8 + (k - 7) by omega, pow_add]
    exact Nat.mul_lt_mul_of_pos_right hb (by positivity)
  unfold Holds
  rw [mk_turns hg, poly_xor, poly_shiftLeft k b _ hlt, add_mul, map_add, map_mul, h, ← map_mul,
    mul_right_comm,
    mul_assoc (poly _ b), ← pow_add, show k - 7 + 8 = k + 1 by omega, ← map_add, ← add_mul]

theorem Holds.modByMonic (h : Holds k generator n p) :
    poly (k + 1) n = p * X ^ (k + 1) %ₘ generator := by
  have hm := generator_monic hg
  have hd : poly (k + 1) n %ₘ generator = poly (k + 1) n := by
    rw [modByMonic_eq_self_iff hm, hg, degree_add_eq_left_of_degree_lt, degree_X_pow]
    · exact degree_poly_lt _ n
    · rw [degree_X_pow]
      exact degree_poly_lt _ _
  rw [← hd]
  exact modByMonic_eq_of_dvd_sub hm (AdjoinRoot.mk_eq_mk.mp h)

end Crc
