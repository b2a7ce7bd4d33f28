import GoPosix.Lib.Strconv

/-!
# Backslash escapes

The model of `ExpandEscapes` in `pkg/common/escape.go`, which `printf` and `echo` share.
-/

namespace GoPosix.Common

open Bytes

inductive EscapeMode
  | format
  | arg
  deriving DecidableEq

def isOctalDigit (b : UInt8) : Bool := 48 ≤ b && b ≤ 55

def isHexDigit (b : UInt8) : Bool := (48 ≤ b && b ≤ 57) || (97 ≤ b && b ≤ 102) || (65 ≤ b && b ≤ 70)

def digitValue (b : UInt8) : Nat :=
  if b ≤ 57 then b.toNat - 48 else if b ≤ 70 then b.toNat - 55 else b.toNat - 87

def digitsValue (base : Nat) (digits : Bytes) : Nat :=
  digits.foldl (fun n b => n * base + digitValue b) 0

/-- The bytes of `string(b)` for a byte: those of the character with that number. -/
def runeString (b : UInt8) : Bytes :=
  if b < 128 then [b] else [(192 : UInt8) ||| (b >>> 6), (128 : UInt8) ||| (b &&& 63)]

def simpleEscape : UInt8 → Option UInt8
  | 110 => some 10  -- \n
  | 116 => some 9   -- \t
  | 114 => some 13  -- \r
  | 92 => some 92   -- \\
  | 97 => some 7    -- \a
  | 98 => some 8    -- \b
  | 102 => some 12  -- \f
  | 118 => some 11  -- \v
  | _ => none

/-- `ExpandEscapes`. A `\c` and an unknown escape stay as they are. -/
def expandEscapes (mode : EscapeMode) (s : Bytes) : Bytes :=
  go s.length s
where
  go : Nat → Bytes → Bytes
  | 0, s => s
  | _ + 1, [] => []
  | _ + 1, [b] => [b]
  | fuel + 1, b :: c :: s =>
    if b ≠ 92 then b :: go fuel (c :: s)
    else
      match simpleEscape c with
      | some e => e :: go fuel s
      | none =>
        if c = 120 then
          let digits := (s.take 2).takeWhile isHexDigit
          if digits ≠ [] then UInt8.ofNat (digitsValue 16 digits) :: go fuel (s.drop digits.length)
          else 92 :: 120 :: go fuel s
        else if c = 48 then
          -- both modes: a value of more than eight bits is not taken, and the digits stay
          let digits := (s.take 3).takeWhile isOctalDigit
          if digits ≠ [] ∧ digitsValue 8 digits < 256 then
            UInt8.ofNat (digitsValue 8 digits) :: go fuel (s.drop digits.length)
          else 0 :: go fuel s
        else if mode = .arg ∧ 49 ≤ c ∧ c ≤ 55 then
          let digits := (s.take 2).takeWhile isOctalDigit
          UInt8.ofNat (digitsValue 8 (c :: digits)) :: go fuel (s.drop digits.length)
        else 92 :: c :: go fuel s

/-! ## Bytes spelled out -/

/-- Bytes as `\xHH` or `\0NNN`, in any mixture. -/
inductive Escaped : Bytes → Bytes → Prop
  | nil : Escaped [] []
  | hex : isHexDigit h → isHexDigit l → digitsValue 16 [h, l] = b.toNat → Escaped text data →
      Escaped (92 :: 120 :: h :: l :: text) (b :: data)
  | octal : isOctalDigit h → isOctalDigit m → isOctalDigit l → digitsValue 8 [h, m, l] = b.toNat →
    Escaped text data →
      Escaped (92 :: 48 :: h :: m :: l :: text) (b :: data)

/-- **Every byte can be spelled out** in either form, and is read back. -/
theorem expandEscapes_escaped (h : Escaped text data) (mode : EscapeMode) :
    expandEscapes mode text = data := by
  suffices hg : ∀ fuel, text.length ≤ fuel → expandEscapes.go mode fuel text = data from hg _
    (Nat.le_refl _)
  induction h with
  | nil =>
    intro fuel _
    cases fuel <;> rfl
  | hex hh hl hv _ ih =>
    intro fuel hf
    obtain ⟨fuel, rfl⟩ := Nat.exists_eq_add_of_le' (Nat.le_trans (Nat.succ_pos _) hf)
    have hr := ih fuel (by simp at hf; omega)
    simp [expandEscapes.go, simpleEscape, hh, hl, hv, hr]
  | octal hh hm hl hv _ ih =>
    intro fuel hf
    obtain ⟨fuel, rfl⟩ := Nat.exists_eq_add_of_le' (Nat.le_trans (Nat.succ_pos _) hf)
    have hr := ih fuel (by simp at hf; omega)
    simp only [expandEscapes.go, simpleEscape]
    simpa [hh, hm, hl, hv, hr] using fun h => absurd (UInt8.toNat_lt _) (Nat.not_lt.mpr h)

/-- `\xfF\0101`. -/
theorem expandEscapes_two : expandEscapes .arg [92, 120, 102, 70, 92, 48, 49, 48, 49] = [255, 65] :=
  expandEscapes_escaped (.hex (b := 255) rfl rfl rfl (.octal (b := 65) rfl rfl rfl rfl .nil)) .arg

end GoPosix.Common
