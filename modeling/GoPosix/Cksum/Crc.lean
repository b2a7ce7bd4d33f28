import GoPosix.Lib.Crc
import GoPosix.Cksum.Basic

/-!
# The CRC of cksum

The turns of `posixCRC` are those of a register of 32 bits.
-/

namespace GoPosix.Cksum

open Polynomial Finset

noncomputable def generator : (ZMod 2)[X] :=
  X ^ 32 + X ^ 26 + X ^ 23 + X ^ 22 + X ^ 16 + X ^ 12 + X ^ 11 + X ^ 10 + X ^ 8 + X ^ 7 + X ^ 5 +
    X ^ 4 + X ^ 2 + X + 1

theorem generator_eq : generator = X ^ 32 + Crc.poly 32 0x04C11DB7 := by
  simp [generator, Crc.poly, sum_range_succ, Nat.testBit]
  ring

theorem top_iff (crc : UInt32) : crc &&& 0x80000000 ≠ 0 ↔ crc.toNat.testBit 31 := by
  rw [ne_eq, ← UInt32.toNat_inj]
  show ¬ crc.toNat &&& 2 ^ 31 = 0 ↔ _
  rw [Nat.and_two_pow]
  cases crc.toNat.testBit 31 <;> simp

theorem toNat_shiftByte (crc : UInt32) (b : ℕ) :
    (shiftByte crc b).toNat = (Crc.turn 31 0x04C11DB7)^[b] crc.toNat := by
  induction b generalizing crc with
  | zero => rfl
  | succ b ih =>
    have hs : (crc <<< 1).toNat = crc.toNat <<< 1 % 2 ^ 32 := UInt32.toNat_shiftLeft ..
    rw [shiftByte, ih, Function.iterate_succ_apply, Crc.turn, ← hs]
    simp only [top_iff]
    split <;> rfl

/-- The register holds the remainder of octets with the polynomial `p`. -/
def Holds (crc : UInt32) (p : (ZMod 2)[X]) : Prop := Crc.Holds 31 generator crc.toNat p

variable {crc : UInt32}

theorem Holds.octet (h : Holds crc p) (hb : b < 256) :
    Holds (shiftByte (crc ^^^ (UInt32.ofNat b <<< 24)) 8) (p * X ^ 8 + Crc.poly 32 b) := by
  have hn : (UInt32.ofNat b <<< 24).toNat = b * 2 ^ 24 := by
    rw [UInt32.toNat_shiftLeft, UInt32.toNat_ofNat_of_lt' (by simp [UInt32.size]; omega),
      Nat.shiftLeft_eq]
    exact Nat.mod_eq_of_lt (by show b * 2 ^ 24 < 2 ^ 32; omega)
  rw [Holds, toNat_shiftByte, UInt32.toNat_xor, hn]
  exact Crc.Holds.octet generator_eq (by decide) h hb

theorem Holds.shiftLength (h : Holds crc p) (n : ℕ) :
    Holds (shiftLength crc n) (Crc.message 32 (Nat.digits 256 n) p) := by
  induction n using Nat.strong_induction_on generalizing crc p with
  | _ n ih =>
    unfold Cksum.shiftLength
    split
    · next hn => simpa [hn, Crc.message] using h
    · next hn =>
      rw [Nat.digits_def' (by decide) (by omega)]
      exact ih _ (by omega) (h.octet (Nat.mod_lt _ (by decide)))

theorem Holds.data (h : Holds crc p) (data : Bytes) :
    Holds (data.foldl (fun (crc : UInt32) b =>
      shiftByte (crc ^^^ (b.toUInt32 <<< (24 : UInt32))) 8) crc)
      (Crc.message 32 (data.map UInt8.toNat) p) := by
  induction data generalizing crc p with
  | nil => exact h
  | cons b data ih =>
    have hb : b.toUInt32 = UInt32.ofNat b.toNat := by simp
    rw [List.foldl_cons, hb]
    exact ih (h.octet b.toNat_lt)

/-- **The checksum is the complement of a remainder.** -/
theorem posixCRC_eq_modByMonic (data : Bytes) : Crc.poly 32 (~~~ posixCRC data).toNat =
    Crc.message 32 (data.map UInt8.toNat ++ Nat.digits 256 data.length) 0 * X ^ 32 %ₘ
      generator := by
  have hzero : Holds 0 0 := by simp [Holds, Crc.Holds, Crc.poly]
  have hc := (hzero.data data).shiftLength data.length
  rw [Crc.message, Crc.message, ← List.foldl_append] at hc
  have hn (crc : UInt32) : ~~~(crc ^^^ 0xFFFFFFFF) = crc := by
    rw [← UInt32.xor_neg_one, UInt32.xor_assoc]
    exact UInt32.xor_zero
  rw [posixCRC, hn]
  exact Crc.Holds.modByMonic generator_eq hc

end GoPosix.Cksum
