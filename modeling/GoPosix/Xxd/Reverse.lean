import GoPosix.Xxd.Basic
import Mathlib.Data.Nat.Digits.Lemmas

/-!
# Reversing a dump

A dump reversed gives the data back, however the reader has cut it. What `parseHex` makes of the
hexadecimal text of a line (`Spells`) is proved once for both formats. In the standard format the
line also has the offset, which has no colon, and the characters, which lie behind the first two
blanks in a row.
-/

namespace GoPosix.Xxd

open Bytes Reader MachineInt List

/-! ## Digits -/

theorem hexDigit_spec : ∀ n < 16, hexVal (hexDigit n) = some (UInt8.ofNat n) ∧
    isBlankByte (hexDigit n) = false ∧ hexDigit n ≠ 58 := by decide

theorem halves (b : UInt8) :
    (UInt8.ofNat (b.toNat / 16) <<< 4) ||| UInt8.ofNat (b.toNat % 16) = b := by
  have hall : ∀ n < 256, (UInt8.ofNat (n / 16) <<< 4) ||| UInt8.ofNat (n % 16) = UInt8.ofNat n := by
    decide +kernel
  rw [hall _ b.toNat_lt, UInt8.ofNat_toNat]

theorem high_lt (b : UInt8) : b.toNat / 16 < 16 := Nat.div_lt_of_lt_mul b.toNat_lt

theorem low_lt (b : UInt8) : b.toNat % 16 < 16 := Nat.mod_lt _ (by decide)

theorem not_blank_ne (hc : isBlankByte c = false) (hd : isBlankByte d = true) : c ≠ d := by
  rintro rfl
  rw [hc] at hd
  cases hd

theorem mem_hexByte (h : c ∈ hexByte b) : isBlankByte c = false := by
  simp only [hexByte, mem_cons, not_mem_nil, or_false] at h
  rcases h with rfl | rfl
  · exact (hexDigit_spec _ (high_lt b)).2.1
  · exact (hexDigit_spec _ (low_lt b)).2.1

/-! ## Hexadecimal text -/

/-- A text that spells bytes: their digits, with blanks between the bytes. -/
inductive Spells : (text : Bytes) → (data : Bytes) → Prop
  | nil : Spells [] []
  | blank {text data : Bytes} : Spells text data → Spells (32 :: text) data
  | byte {text data : Bytes} (b : UInt8) : Spells text data → Spells (hexByte b ++ text) (b :: data)

theorem findFirst_digit (hn : n < 16) (b : Nat) (s : Bytes) :
    findFirst b (hexDigit n :: s) = .digit (UInt8.ofNat n) s := by
  obtain ⟨hv, hb, -⟩ := hexDigit_spec n hn
  rw [findFirst, hb, hv]
  rfl

theorem findSecond_digit (hn : n < 16) (b : Nat) (s : Bytes) :
    findSecond b (hexDigit n :: s) = .digit (UInt8.ofNat n) s := by
  obtain ⟨hv, hb, -⟩ := hexDigit_spec n hn
  rw [findSecond, hb, hv]
  rfl

theorem parseLoop_byte (f bad : Nat) (b : UInt8) (s : Bytes) :
    parseLoop (f + 1) bad (hexByte b ++ s) = b :: parseLoop f 0 s := by
  have hf := findFirst_digit (high_lt b) bad (hexDigit (b.toNat % 16) :: s)
  have hs := findSecond_digit (low_lt b) 0 s
  simp [parseLoop, hexByte, hf, hs, halves]

/-- **The loop over a line reads what is spelled.** -/
theorem Spells.parseLoop (h : Spells text data) :
    ∀ f bad, text.length < f → parseLoop f bad text = data := by
  induction h with
  | nil =>
    intro f bad hlt
    cases f with
    | zero => cases hlt
    | succ f => rfl
  | blank _ ih =>
    intro f bad hlt
    cases f with
    | zero => cases hlt
    | succ f =>
      exact ih _ _ (Nat.lt_of_succ_lt hlt)
  | @byte text data b _ ih =>
    intro f bad hlt
    cases f with
    | zero => cases hlt
    | succ f =>
      rw [parseLoop_byte]
      have hl : (hexByte b ++ text).length = text.length + 2 := by simp [hexByte]
      rw [ih _ _ (by omega)]

theorem Spells.parseHex (h : Spells text data) : parseHex text = data :=
  h.parseLoop _ _ (Nat.lt_succ_self _)

theorem Spells.mem (h : Spells text data) (hc : c ∈ text) : c = 32 ∨ isBlankByte c = false := by
  induction h with
  | nil => cases hc
  | blank _ ih =>
    rcases mem_cons.mp hc with rfl | hc
    · exact .inl rfl
    · exact ih hc
  | byte b _ ih =>
    rcases mem_append.mp hc with hc | hc
    · exact .inr (mem_hexByte hc)
    · exact ih hc

theorem spells_flatMap (buf : Bytes) : Spells (buf.flatMap hexByte) buf := by
  induction buf with
  | nil => exact .nil
  | cons b buf ih => exact .byte b ih

/-! ## The plain format -/

theorem plain_scannable {buf : Bytes} (hl : buf.length ≤ 30) : Scannable (buf.flatMap hexByte) := by
  have hblank : ∀ c ∈ buf.flatMap hexByte, isBlankByte c = false := by
    intro c hc
    obtain ⟨b, -, hb⟩ := mem_flatMap.mp hc
    exact mem_hexByte hb
  have hl' : (buf.flatMap hexByte).length = 2 * buf.length := by
    simp [hexByte, Nat.mul_comm]
  refine ⟨fun h => ?_, fun h => ?_, ?_⟩
  · exact absurd (hblank _ h) (by decide)
  · exact absurd (hblank _ h) (by decide)
  · have hm : maxScanTokenSize = 65536 := rfl
    omega

/-- The lines of a dump without an error, from which `decode` gets the data back. -/
structure Faithful (decode : Bytes → Bytes) (dump : List Bytes × Option ReadErr) (data : Bytes) :
    Prop where
  err : dump.2 = none
  data : dump.1.flatMap decode = data
  scannable : ∀ l ∈ dump.1, Scannable l

theorem Faithful.nil {decode : Bytes → Bytes} : Faithful decode ([], none) [] := ⟨rfl, rfl, nofun⟩

theorem Faithful.cons {decode : Bytes → Bytes} {dump : List Bytes × Option ReadErr}
    {line p data : Bytes}
    (h : Faithful decode dump data) (hl : decode line = p) (hs : Scannable line) :
    Faithful decode (line :: dump.1, dump.2) (p ++ data) :=
  ⟨h.err, by rw [flatMap_cons, hl, h.data], forall_mem_cons.mpr ⟨hs, h.scannable⟩⟩

theorem dumpPlainLoop_spec (h : Splits 30 reads data) :
    Faithful parseHex (dumpPlainLoop reads) data := by
  induction h with
  | nil => exact .nil
  | @last p hne hlen =>
    have hl := Faithful.nil.cons (spells_flatMap p).parseHex (plain_scannable hlen)
    simpa [dumpPlainLoop, hne] using hl
  | @cons p data reads hne hlen _ ih =>
    have hm := ih.cons (spells_flatMap p).parseHex (plain_scannable hlen)
    simpa [dumpPlainLoop, hne] using hm

/-! ## The hexadecimal column -/

theorem join_cons (p q : Bytes) (parts : List Bytes) :
    join (p :: q :: parts) = p ++ 32 :: join (q :: parts) := by
  simp [join]

theorem hexParts_ne_nil (h : buf ≠ []) : hexParts buf ≠ [] := by
  fun_cases hexParts buf with
  | case1 => exact absurd rfl h
  | case2 b => exact cons_ne_nil _ _
  | case3 b c rest => exact cons_ne_nil _ _

theorem join_hexParts (b c : UInt8) (h : rest ≠ []) :
    join (hexParts (b :: c :: rest)) = hexByte b ++ (hexByte c ++ 32 :: join (hexParts rest)) := by
  obtain ⟨p, parts, hp⟩ := exists_cons_of_ne_nil (hexParts_ne_nil h)
  rw [hexParts, hp, join_cons, append_assoc]

/-- **The column behind a blank spells the bytes of the line.** -/
theorem spells_hexParts (buf : Bytes) : Spells (32 :: join (hexParts buf)) buf := by
  induction buf using hexParts.induct with
  | case1 => exact .blank .nil
  | case2 b => exact .blank (.byte b .nil)
  | case3 b c rest ih =>
    apply Spells.blank
    by_cases hr : rest = []
    · subst hr
      exact .byte b (.byte c .nil)
    · rw [join_hexParts b c hr]
      exact .byte b (.byte c ih)

theorem join_hexParts_length (buf : Bytes) : (join (hexParts buf)).length ≤ 3 * buf.length := by
  have hl : ∀ b, (hexByte b).length = 2 := fun _ => rfl
  induction buf using hexParts.induct with
  | case1 => exact Nat.le_refl 0
  | case2 _ =>
    exact Nat.le_succ 2
  | case3 b c rest ih =>
    by_cases hr : rest = []
    · subst hr
      simp [hexParts, join, hl]
    · rw [join_hexParts b c hr]
      simp only [length_append, length_cons, hl]
      omega

theorem indexOf_blanks (hc : isBlankByte c = false) (s : Bytes) :
    indexOf (c :: s) [32, 32] = (indexOf s [32, 32]).map (· + 1) := by
  have hne : (32 : UInt8) ≠ c := (not_blank_ne hc rfl).symm
  simp [indexOf, hasPrefix, hne]

theorem indexOf_blank_blanks (hc : isBlankByte c = false) (s : Bytes) :
    indexOf (32 :: c :: s) [32, 32] = (indexOf (c :: s) [32, 32]).map (· + 1) := by
  have hne : (32 : UInt8) ≠ c := (not_blank_ne hc rfl).symm
  rw [indexOf]
  simp [hasPrefix, hne]

theorem indexOf_hexByte (b : UInt8) (s : Bytes) :
    indexOf (hexByte b ++ s) [32, 32] = (indexOf s [32, 32]).map (· + 2) := by
  have hh := (hexDigit_spec _ (high_lt b)).2.1
  have hl := (hexDigit_spec _ (low_lt b)).2.1
  rw [hexByte, cons_append, cons_append, indexOf_blanks hh, indexOf_blanks hl, Option.map_map]
  rfl

theorem indexOf_blank_hexByte (b : UInt8) (s : Bytes) :
    indexOf (32 :: (hexByte b ++ s)) [32, 32] = (indexOf s [32, 32]).map (· + 3) := by
  have hh := (hexDigit_spec _ (high_lt b)).2.1
  have hb := indexOf_hexByte b s
  rw [hexByte, cons_append] at hb ⊢
  rw [indexOf_blank_blanks hh, hb, Option.map_map]
  rfl

/-- **The first two blanks in a row lie behind the column.** -/
theorem indexOf_column (h : buf ≠ []) (tail : Bytes) :
    indexOf (32 :: join (hexParts buf) ++ 32 :: 32 :: tail) [32, 32] =
      some (32 :: join (hexParts buf)).length := by
  have he : indexOf (32 :: 32 :: tail) [32, 32] = some 0 := rfl
  have hl : ∀ b, (hexByte b).length = 2 := fun _ => rfl
  induction buf using hexParts.induct with
  | case1 => exact absurd rfl h
  | case2 b =>
    have hj : join (hexParts [b]) = hexByte b := by simp [hexParts, join]
    rw [hj, cons_append, indexOf_blank_hexByte, length_cons]
    rfl
  | case3 b c rest ih =>
    by_cases hr : rest = []
    · have hj : join (hexParts [b, c]) = hexByte b ++ hexByte c := by
        simp [hexParts, join]
      subst hr
      rw [hj, cons_append, append_assoc, indexOf_blank_hexByte, indexOf_hexByte, he]
      simp [hl]
    · rw [join_hexParts b c hr, cons_append, append_assoc, append_assoc,
        indexOf_blank_hexByte, indexOf_hexByte, ih hr]
      simp [hl]
      omega

/-! ## The offset -/

theorem mem_hexDigits (h : c ∈ hexDigits n) : ∃ d < 16, c = hexDigit d := by
  unfold hexDigits at h
  split at h
  · exact ⟨0, by decide, mem_singleton.mp h⟩
  · obtain ⟨d, hd, rfl⟩ := mem_map.mp h
    exact ⟨d, Nat.digits_lt_base (by decide) (mem_reverse.mp hd), rfl⟩

theorem mem_padZeros (h : c ∈ padZeros width s) : c = hexDigit 0 ∨ c ∈ s := by
  rcases mem_append.mp h with hc | hc
  · exact .inl (eq_of_mem_replicate hc)
  · exact .inr hc

theorem mem_formatOffset (h : c ∈ formatOffset offset) : isBlankByte c = false ∧ c ≠ 58 := by
  have hdigits : ∀ {width : Nat}, c ∈ padZeros width (hexDigits offset.natAbs) →
    isBlankByte c = false ∧
      c ≠ 58 := by
    intro width hc
    rcases mem_padZeros hc with rfl | hc
    · decide
    · obtain ⟨d, hd, rfl⟩ := mem_hexDigits hc
      exact (hexDigit_spec d hd).2
  unfold formatOffset at h
  split at h
  · rcases mem_cons.mp h with rfl | hc
    · decide
    · exact hdigits hc
  · exact hdigits h

theorem formatOffset_length (h : offset.natAbs < 2 ^ 64) :
    0 < (formatOffset offset).length ∧ (formatOffset offset).length ≤ 17 := by
  have hd : (hexDigits offset.natAbs).length ≤ 16 := by
    unfold hexDigits
    split
    · decide
    · rw [length_map, length_reverse]
      exact (Nat.digits_length_le_iff (by decide) _).mpr h
  have hp : ∀ width, (padZeros width (hexDigits offset.natAbs)).length =
      width - (hexDigits offset.natAbs).length + (hexDigits offset.natAbs).length := by
    simp [padZeros]
  unfold formatOffset
  split
  · rw [length_cons, hp]
    omega
  · rw [hp]
    omega

/-! ## The lines of the standard format -/

theorem standardLine_eq (offset : Int) (buf : Bytes) :
    standardLine offset buf = formatOffset offset ++ 58 :: (32 :: join (hexParts buf) ++
      32 :: 32 :: (List.replicate (39 - (join (hexParts buf)).length) 32 ++ asciiCol buf)) := by
  have hb : ∀ k, List.replicate k (32 : UInt8) ++ 32 :: 32 :: asciiCol buf =
      32 :: 32 :: (List.replicate k 32 ++ asciiCol buf) := by
    intro k
    induction k with
    | zero => rfl
    | succ k ih => rw [replicate_succ, cons_append, ih, cons_append]
  simp [standardLine, padHexCol, hb]

/-- **A line of the dump gives its bytes back.** The characters behind the column may be anything:
they are cut off at the first two blanks. -/
theorem reverseLine_standardLine (ho : offset.natAbs < 2 ^ 64)
    (hbuf : buf ≠ []) : reverseLine (standardLine offset buf) = buf := by
  have hl := standardLine_eq offset buf
  generalize List.replicate _ _ ++ asciiCol buf = tail at hl
  have ht : trimBlanks (standardLine offset buf) = standardLine offset buf := by
    -- the offset is there and does not start with a blank
    obtain ⟨first, m, hf⟩ := exists_cons_of_length_pos (formatOffset_length ho).1
    have hb : isBlankByte first = false := (mem_formatOffset (hf ▸ mem_cons_self)).1
    rw [hl, hf, cons_append, trimBlanks, dropWhile_cons, hb]
    rfl
  have hne : standardLine offset buf ≠ [] := by simp [hl]
  have hi : indexOf (standardLine offset buf) [58] = some (formatOffset offset).length := by
    rw [hl]
    exact indexOf_append_byte (fun h => (mem_formatOffset h).2 rfl) _
  have hc : (standardLine offset buf).drop ((formatOffset offset).length + 1) =
      32 :: join (hexParts buf) ++ 32 :: 32 :: tail := by
    rw [hl, drop_append, Nat.add_sub_cancel_left, drop_eq_nil_of_le (Nat.le_succ _)]
    rfl
  unfold reverseLine
  simp only [ht, if_neg hne, hi, hc, indexOf_column hbuf, take_left]
  exact (spells_hexParts buf).parseHex

theorem mem_asciiCol (h : c ∈ asciiCol buf) : 32 ≤ c := by
  obtain ⟨b, -, rfl⟩ := mem_map.mp h
  split
  · next hb => exact hb.1
  · decide

theorem mem_standardLine (h : c ∈ standardLine offset buf) : 32 ≤ c ∨ isBlankByte c = false := by
  rw [standardLine_eq] at h
  rcases mem_append.mp h with h | h
  · exact .inr (mem_formatOffset h).1
  rcases mem_cons.mp h with rfl | h
  · exact .inl (by decide)
  rcases mem_append.mp h with h | h
  · rcases (spells_hexParts buf).mem h with rfl | hc
    · exact .inl (by decide)
    · exact .inr hc
  · have ht : c = 32 ∨ c ∈ asciiCol buf := by
      simp only [mem_cons, mem_append, mem_replicate] at h
      tauto
    rcases ht with rfl | hc
    · exact .inl (by decide)
    · exact .inl (mem_asciiCol hc)

theorem standard_scannable (ho : offset.natAbs < 2 ^ 64)
    (hl : buf.length ≤ 16) : Scannable (standardLine offset buf) := by
  refine ⟨fun h => ?_, fun h => ?_, ?_⟩
  · exact absurd (mem_standardLine h) (by decide)
  · exact absurd (mem_standardLine h) (by decide)
  · have hof := (formatOffset_length ho).2
    have hc := join_hexParts_length buf
    have hm : maxScanTokenSize = 65536 := rfl
    simp only [standardLine_eq, length_append, length_cons, length_replicate, asciiCol, length_map]
    omega

theorem dumpStandardLoop_spec (h : Splits 16 reads data) :
    ∀ offset : Int, offset.natAbs < 2 ^ 64 →
      Faithful reverseLine (dumpStandardLoop offset reads) data := by
  induction h with
  | nil => exact fun _ _ => .nil
  | @last p hne hlen =>
    intro offset ho
    have hl := Faithful.nil.cons (reverseLine_standardLine ho hne) (standard_scannable ho hlen)
    simpa [dumpStandardLoop, hne] using hl
  | @cons p data reads hne hlen _ ih =>
    intro offset ho
    -- the sum wraps around, and is an `int64` again
    have hm := (ih _ (wrap64_natAbs_lt (offset + p.length))).cons (reverseLine_standardLine ho hne)
      (standard_scannable ho hlen)
    simpa [dumpStandardLoop, hne] using hm

/-! ## The round trip -/

/-- **A dump reversed gives the data back,** in both formats and however the reader cuts the
data. -/
theorem reverse_dump (data : Bytes) :
    (∀ reads, Splits 16 reads data → (dumpStandard reads).2 = none ∧
      reverseStandard (dumpStandard reads).1 = (data, true)) ∧
    (∀ reads, Splits 30 reads data → (dumpPlain reads).2 = none ∧ reversePlain (dumpPlain reads).1 =
      (data, true)) := by
  refine ⟨fun reads h => ?_, fun reads h => ?_⟩
  · obtain ⟨he, hd, hs⟩ := dumpStandardLoop_spec h 0 (by decide)
    refine ⟨he, ?_⟩
    rw [reverseStandard, dumpStandard, scanLines_unlines hs]
    exact Prod.ext hd rfl
  · obtain ⟨he, hd, hs⟩ := dumpPlainLoop_spec h
    refine ⟨he, ?_⟩
    rw [reversePlain, dumpPlain, scanLines_unlines hs]
    exact Prod.ext hd rfl

/-- A text with a colon, two blanks and digits, read in two pieces. -/
def awkwardReads : List Read := [⟨str "00: ", none⟩, ⟨str " 4a  7:\n", some .eof⟩]

theorem reverse_dump_awkwardReads : Splits 16 awkwardReads (str "00:  4a  7:\n") ∧
      reverseStandard (dumpStandard awkwardReads).1 = (str "00:  4a  7:\n", true) := by
  have hs : Splits 16 awkwardReads (str "00:  4a  7:\n") :=
    .cons (by decide) (by decide) (.last (by decide) (by decide))
  exact ⟨hs, ((reverse_dump _).1 _ hs).2⟩

end GoPosix.Xxd
