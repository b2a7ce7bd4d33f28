import GoPosix.Lib.Crc
import GoPosix.Rx.Basic

/-!
# The CRC of rx
-/

namespace GoPosix.Rx

open Polynomial

theorem generator_eq :
    (X ^ 16 + X ^ 12 + X ^ 5 + 1 : (ZMod 2)[X]) = X ^ 16 + Crc.poly 16 0x1021 := by
  simp [Crc.poly, Finset.sum_range_succ, Nat.testBit]
  ring

theorem toNat_crcBits (n : ℕ) (crc : UInt16) :
    (crcBits n crc).toNat = (Crc.turn 15 0x1021)^[n] crc.toNat := by
  induction n generalizing crc with
  | zero => rfl
  | succ n ih =>
    have ht : crc &&& 0x8000 ≠ 0 ↔ crc.toNat.testBit 15 := by
      rw [ne_eq, ← UInt16.toNat_inj]
      show ¬ crc.toNat &&& 2 ^ 15 = 0 ↔ _
      rw [Nat.and_two_pow]
      cases crc.toNat.testBit 15 <;> simp
    have hs : (crc <<< 1).toNat = crc.toNat <<< 1 % 2 ^ 16 := UInt16.toNat_shiftLeft ..
    rw [crcBits, ih, Function.iterate_succ_apply, Crc.turn, ← hs]
    simp only [ht]
    split <;> rfl

variable (crc : UInt16) (b : UInt8)

theorem toNat_index : ((crc >>> 8) ^^^ b.toUInt16).toNat = crc.toNat / 2 ^ 8 ^^^ b.toNat := by
  rw [UInt16.toNat_xor, UInt16.toNat_shiftRight, UInt8.toNat_toUInt16]
  exact congrArg (· ^^^ _) (Nat.shiftRight_eq_div_pow ..)

theorem index_lt : crc.toNat / 2 ^ 8 ^^^ b.toNat < 2 ^ 8 :=
  Nat.xor_lt_two_pow (by have := crc.toNat_lt; omega) b.toNat_lt

theorem shiftLeft_eight (n : UInt16) : (n <<< 8).toNat = n.toNat % 2 ^ 8 * 2 ^ 8 := by
  rw [UInt16.toNat_shiftLeft, Nat.shiftLeft_eq]
  show n.toNat * 2 ^ 8 % 2 ^ 16 = _
  omega

/-- The low octet only moves up, so the table needs the high one alone. -/
theorem crcTable_index : (crc <<< 8) ^^^ crcTable ((crc >>> 8) ^^^ b.toUInt16) =
    crcBits 8 (crc ^^^ (b.toUInt16 <<< 8)) := by
  have hl : ∀ l < 2 ^ 8, (Crc.turn 15 0x1021)^[8] l = l * 2 ^ 8 := by decide +kernel
  rw [← UInt16.toNat_inj, crcTable, UInt16.toNat_xor, toNat_crcBits, toNat_crcBits, shiftLeft_eight,
    shiftLeft_eight,
    toNat_index, UInt16.toNat_xor, shiftLeft_eight, Nat.mod_eq_of_lt (index_lt crc b),
      UInt8.toNat_toUInt16,
    Nat.mod_eq_of_lt b.toNat_lt, Crc.xor_mul_two_pow, Crc.turns_xor,
      hl _ (Nat.mod_lt _ (by decide)), Nat.xor_comm]

/-- The checksum without the table. -/
def bitwise (data : Bytes) (crc : UInt16) : UInt16 :=
  data.foldl (fun (crc : UInt16) b => crcBits 8 (crc ^^^ (b.toUInt16 <<< (8 : UInt16)))) crc

theorem bitwise_holds (data : Bytes) (hg : g = X ^ 16 + Crc.poly 16 0x1021)
    (h : Crc.Holds 15 g crc.toNat p) :
    Crc.Holds 15 g (bitwise data crc).toNat (Crc.message 16 (data.map UInt8.toNat) p) := by
  induction data generalizing crc p with
  | nil => exact h
  | cons b _ ih =>
    refine ih _ ?_
    rw [toNat_crcBits, UInt16.toNat_xor, shiftLeft_eight, UInt8.toNat_toUInt16,
      Nat.mod_eq_of_lt b.toNat_lt]
    exact h.octet hg (by decide) b.toNat_lt

/-- **The table computes the remainder of the data.** -/
theorem crc16_eq_modByMonic (data : Bytes) :
    crc16 data = bitwise data 0 ∧
    Crc.poly 16 (crc16 data).toNat =
      Crc.message 16 (data.map UInt8.toNat) 0 * X ^ 16 %ₘ (X ^ 16 + X ^ 12 + X ^ 5 + 1) ∧
    ∀ (crc : UInt16) (b : UInt8), ((crc >>> 8) ^^^ b.toUInt16).toNat < 256 := by
  have hf : crc16 data = bitwise data 0 := by simp only [crc16, crcTable_index, bitwise]
  refine ⟨hf, ?_, fun crc b => toNat_index crc b ▸ index_lt crc b⟩
  rw [hf]
  exact (bitwise_holds 0 data generator_eq (by simp [Crc.Holds, Crc.poly])).modByMonic generator_eq

/-! ## Damaged data -/

variable {c c' : UInt16} {b b' : UInt8}

/-- A turn of `crc16`. -/
def crcStep (crc : UInt16) (b : UInt8) : UInt16 :=
  (crc <<< 8) ^^^ crcTable ((crc >>> 8) ^^^ b.toUInt16)

/-- The low octets of the table are all different. -/
theorem index_of_low (h : (crcStep c b).toNat % 2 ^ 8 = (crcStep c' b').toNat % 2 ^ 8) :
    (c >>> 8) ^^^ b.toUInt16 = (c' >>> 8) ^^^ b'.toUInt16 := by
  have hn : ((List.range (2 ^ 8)).map fun i => (crcTable (.ofNat i)).toNat % 2 ^ 8).Nodup := by
    decide +kernel
  have hl : ∀ c b, (crcStep c b).toNat % 2 ^ 8 =
      (crcTable ((c >>> 8) ^^^ b.toUInt16)).toNat % 2 ^ 8 := by
    intro c b
    rw [crcStep, UInt16.toNat_xor, Nat.xor_mod_two_pow, shiftLeft_eight, Nat.mul_mod_left,
      Nat.zero_xor]
  have hi : ∀ (c : UInt16) (b : UInt8), ((c >>> 8) ^^^ b.toUInt16).toNat ∈ List.range (2 ^ 8) :=
    fun c b => List.mem_range.mpr (toNat_index c b ▸ index_lt c b)
  rw [hl, hl] at h
  rw [← UInt16.toNat_inj]
  exact List.inj_on_of_nodup_map hn (hi c b) (hi c' b') (by simpa only [UInt16.ofNat_toNat] using h)

theorem crcStep_inj (h : crcStep c b = crcStep c' b') :
    (c >>> 8) ^^^ b.toUInt16 = (c' >>> 8) ^^^ b'.toUInt16 ∧ c.toNat % 2 ^ 8 = c'.toNat % 2 ^ 8 := by
  have hi := index_of_low (congrArg (·.toNat % 2 ^ 8) h)
  rw [crcStep, crcStep, hi, UInt16.xor_left_inj, ← UInt16.toNat_inj, shiftLeft_eight,
    shiftLeft_eight] at h
  exact ⟨hi, by omega⟩

theorem foldl_crcStep_inj (data : Bytes) (h : data.foldl crcStep c = data.foldl crcStep c') :
    c = c' := by
  induction data generalizing c c' with
  | nil => exact h
  | cons b data ih =>
    obtain ⟨hi, hl⟩ := crcStep_inj (ih h)
    have hi := congrArg UInt16.toNat hi
    rw [toNat_index, toNat_index, Nat.xor_left_inj] at hi
    rw [← UInt16.toNat_inj]
    omega

/-- **A change of two octets in a row** never goes unseen. -/
theorem crc16_eq_iff (d d' : Bytes) (x x' y y' : UInt8) :
    crc16 (d ++ x :: x' :: d') = crc16 (d ++ y :: y' :: d') ↔ x = y ∧ x' = y' := by
  refine ⟨fun h => ?_, by rintro ⟨rfl, rfl⟩; rfl⟩
  have h : (d ++ x :: x' :: d').foldl crcStep 0 = (d ++ y :: y' :: d').foldl crcStep 0 := h
  rw [List.foldl_append, List.foldl_append] at h
  obtain ⟨hi, hl⟩ := crcStep_inj (foldl_crcStep_inj d' h)
  have hx := index_of_low hl
  rw [UInt16.xor_right_inj, UInt8.toUInt16_inj] at hx
  subst hx
  rw [UInt16.xor_right_inj, UInt8.toUInt16_inj] at hi
  exact ⟨rfl, hi⟩

end GoPosix.Rx
