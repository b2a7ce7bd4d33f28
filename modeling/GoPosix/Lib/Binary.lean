import GoPosix.Lib.Bytes
import GoPosix.Lib.Runtime

/-!
# Buffers: numbers, copies and bits

Fixed-width numbers in little-endian order (`encoding/binary`), the buffers they are copied into,
and buffers as bitmaps: bit `i` of a buffer is bit `i % 8` of its byte `i / 8`. `forRange` is the
counting loop, and `forRange_ok` its rule: an invariant that every turn keeps holds at the end, and
the loop does not fault.
-/

namespace Binary

open Slice List

/-! ## Numbers -/

/-- The `w` bytes of `n`, the least significant one first. -/
def le : (w n : Nat) → Bytes
  | 0, _ => []
  | w + 1, n => UInt8.ofNat (n % 256) :: le w (n / 256)

def ofLe : Bytes → Nat
  | [] => 0
  | b :: bs => b.toNat + 256 * ofLe bs

def leAt (s : Bytes) (w off : Nat) : Nat := ofLe ((s.drop off).take w)

/-- **A number that fits is read back.** -/
theorem ofLe_le (h : n < 256 ^ w) : ofLe (le w n) = n := by
  induction w generalizing n with
  | zero =>
    rw [pow_zero, Nat.lt_one_iff] at h
    rw [h]
    rfl
  | succ w ih =>
    have hd : n / 256 < 256 ^ w := by
      apply Nat.div_lt_of_lt_mul
      rwa [pow_succ, Nat.mul_comm] at h
    have hm : (UInt8.ofNat (n % 256)).toNat = n % 256 := by
      rw [UInt8.toNat_ofNat']
      omega
    rw [le, ofLe, ih hd, hm, Nat.mod_add_div]

theorem le_ofLe (h : c.length ≤ w) : le w (ofLe c) = c ++ replicate (w - c.length) 0 := by
  induction w generalizing c with
  | zero => simp [length_eq_zero_iff.mp (Nat.le_zero.mp h), le]
  | succ w ih =>
    cases c with
    | nil => simpa [le, ofLe, replicate_succ] using @ih [] (Nat.zero_le w)
    | cons b c =>
      have hb := b.toNat_lt
      rw [ofLe, le, show (b.toNat + 256 * ofLe c) % 256 = b.toNat by omega,
        show (b.toNat + 256 * ofLe c) / 256 = ofLe c by omega, ih (by simpa using h)]
      simp

/-! ## Buffers -/

def make (n : Int) : Exec Bytes := if 0 ≤ n then .ok (List.replicate n.toNat 0) else .error .index

def copyAt (buf : Bytes) (lo hi : Int) (src : Bytes) : Exec Bytes :=
  if 0 ≤ lo ∧ lo ≤ hi ∧ hi ≤ buf.length then
    let part := src.take (hi - lo).toNat
    .ok (buf.take lo.toNat ++ part ++ buf.drop (lo.toNat + part.length))
  else .error .index

theorem make_natCast (n : Nat) : make (n : Int) = .ok (List.replicate n 0) := by
  simp [make]

theorem copyAt_append {s t src : Bytes} {lo hi : Int} (hlo : lo = s.length)
    (hhigh : lo + src.length ≤ hi) (hl : hi ≤ s.length + t.length) :
    copyAt (s ++ t) lo hi src = .ok (s ++ src ++ t.drop src.length) := by
  have ht : src.take (hi - lo).toNat = src := take_of_length_le (by omega)
  have hb : 0 ≤ lo ∧ lo ≤ hi ∧ hi ≤ (s ++ t).length := by
    rw [length_append]
    omega
  have hn : lo.toNat = s.length := by omega
  simp only [copyAt, if_pos hb, ht, hn, take_left, ← drop_drop, drop_left]

/-! ## Counting loops -/

/-- `for i := lo; i < hi; i++`. -/
def forRange {σ : Type} (lo hi : Int) (body : Int → σ → Exec σ) (s : σ) : Exec σ :=
  (List.range (hi - lo).toNat).foldlM (fun s (k : Nat) => body (lo + k) s) s

/-- **The rule for loops.** -/
theorem forRange_ok {lo hi : Int} {b : Int → σ → Exec σ} {s : σ} (P : Nat → σ → Prop)
    (hin : P 0 s)
    (hs : ∀ (k : Nat) s, lo + k < hi → P k s → ∃ s', b (lo + k) s = .ok s' ∧ P (k + 1) s') :
    ∃ s', forRange lo hi b s = .ok s' ∧ P (hi - lo).toNat s' := by
  have hr : ∀ n : Nat, n ≤ (hi - lo).toNat → ∃ s',
      (List.range n).foldlM (fun s (k : Nat) => b (lo + k) s) s = .ok s' ∧ P n s' := by
    intro n
    induction n with
    | zero => exact fun _ => ⟨s, rfl, hin⟩
    | succ n ih =>
      intro hn
      obtain ⟨s', hs', hP⟩ := ih (by omega)
      obtain ⟨s'', hb, hP'⟩ := hs n s' (by omega) hP
      refine ⟨s'', ?_, hP'⟩
      rw [range_succ, foldlM_append, hs']
      simp only [foldlM_cons, bind, Except.bind, hb]
      rfl
  exact hr _ le_rfl

/-! ## Bitmaps -/

def bit (buf : Bytes) (i : Nat) : Bool := (buf.getD (i / 8) 0).toBitVec.getLsbD (i % 8)

def mask (i : Nat) : UInt8 := 1 <<< UInt8.ofNat (i % 8)

/-- `buf[bit/8] |= 1 << (bit % 8)`. A negative bit faults, on its index or on its shift. -/
def setBit (buf : Bytes) (bit : Int) : Exec Bytes :=
  if bit < 0 then .error .index
  else do
    let b ← index buf (bit / 8)
    store buf (bit / 8) (b ||| mask bit.toNat)

def clearBit (buf : Bytes) (bit : Int) : Exec Bytes :=
  if bit < 0 then .error .index
  else do
    let b ← index buf (bit / 8)
    store buf (bit / 8) (b &&& ~~~ mask bit.toNat)

theorem getLsbD_mask (i : Nat) (hj : j < 8) : (mask i).toBitVec.getLsbD j = decide (j = i % 8) := by
  have hall : ∀ a < 8, ∀ b < 8, (1 <<< UInt8.ofNat a : UInt8).toBitVec.getLsbD b =
    decide (b = a) := by decide
  exact hall _ (Nat.mod_lt _ (by decide)) j hj

section

variable {buf : Bytes}

theorem bit_set (hi : i < 8 * buf.length) (hv : ∀ j < 8, v.toBitVec.getLsbD j =
      if j = i % 8 then c else (buf.getD (i / 8) 0).toBitVec.getLsbD j) (j : Nat) :
    bit (buf.set (i / 8) v) j = if j = i then c else bit buf j := by
  have hb : i / 8 < buf.length := by omega
  unfold bit
  by_cases hs : j / 8 = i / 8
  · rw [hs, getD_eq_getElem?_getD, List.getElem?_set_self hb, Option.getD_some,
      hv _ (Nat.mod_lt _ (by decide))]
    by_cases hji : j = i
    · rw [if_pos hji, if_pos (by rw [hji])]
    · rw [if_neg hji, if_neg (by omega)]
  · rw [getD_eq_getElem?_getD, List.getElem?_set_ne (Ne.symm hs), ← getD_eq_getElem?_getD, if_neg]
    rintro rfl
    exact hs rfl

theorem index_byte (hi : i < 8 * buf.length) :
    index buf ((i : Int) / 8) = .ok (buf.getD (i / 8) 0) := by
  have hb : i / 8 < buf.length := by omega
  apply index_of_eq (n := i / 8) (by omega)
  rw [getD_eq_getElem?_getD, List.getElem?_eq_getElem hb]
  rfl

theorem store_byte (hi : i < 8 * buf.length) (v : UInt8) :
    store buf ((i : Int) / 8) v = .ok (buf.set (i / 8) v) := by
  rw [store_ok (by omega) (by omega)]
  rfl

theorem setBit_ok (hi : i < 8 * buf.length) :
    ∃ buf', setBit buf i = .ok buf' ∧ buf'.length = buf.length ∧
      ∀ j, bit buf' j = if j = i then true else bit buf j := by
  refine ⟨buf.set (i / 8) (buf.getD (i / 8) 0 ||| mask i), ?_, length_set, bit_set hi ?_⟩
  · simp only [setBit, index_byte hi, store_byte hi]
    exact if_neg (by omega)
  · intro j hj
    rw [UInt8.toBitVec_or, BitVec.getLsbD_or, getLsbD_mask i hj]
    by_cases h : j = i % 8 <;> simp [h]

theorem clearBit_ok (hi : i < 8 * buf.length) :
    ∃ buf', clearBit buf i = .ok buf' ∧ buf'.length = buf.length ∧
      ∀ j, bit buf' j = if j = i then false else bit buf j := by
  refine ⟨buf.set (i / 8) (buf.getD (i / 8) 0 &&& ~~~ mask i), ?_, length_set, bit_set hi ?_⟩
  · simp only [clearBit, index_byte hi, store_byte hi]
    exact if_neg (by omega)
  · intro j hj
    rw [UInt8.toBitVec_and, UInt8.toBitVec_not, BitVec.getLsbD_and, BitVec.getLsbD_not,
      getLsbD_mask i hj]
    by_cases h : j = i % 8 <;> simp [h, hj]

/-- A loop that clears the bits `1`, …, `n`, whatever variable it counts with. -/
theorem forRange_clearBit {lo hi : Int} {n : Nat}
    (hbody : ∀ (k : Nat) buf, lo + k < hi → b (lo + k) buf = clearBit buf ((k + 1 : Nat) : Int))
    (hn : (hi - lo).toNat = n) (hbuf : n < 8 * buf.length) :
    ∃ buf', forRange lo hi b buf = .ok buf' ∧ buf'.length = buf.length ∧
      ∀ j, bit buf' j = if 1 ≤ j ∧ j ≤ n then false else bit buf j := by
  subst hn
  refine forRange_ok (fun k buf' => buf'.length = buf.length ∧
    ∀ j, bit buf' j = if 1 ≤ j ∧ j ≤ k then false else bit buf j) ⟨rfl, ?_⟩ ?_
  · intro j
    rw [if_neg (by omega)]
  rintro k bu hk ⟨hl, hb⟩
  obtain ⟨bf, hc, hl', hb'⟩ := @clearBit_ok bu (k + 1) (by omega)
  refine ⟨bf, (hbody k bu hk).trans hc, hl'.trans hl, fun j => ?_⟩
  rw [hb', hb]
  by_cases hj : j = k + 1
  · rw [if_pos hj, if_pos (by omega)]
  · rw [if_neg hj]
    by_cases hj' : 1 ≤ j ∧ j ≤ k
    · rw [if_pos hj', if_pos (by omega)]
    · rw [if_neg hj', if_neg (by omega)]

end

end Binary
