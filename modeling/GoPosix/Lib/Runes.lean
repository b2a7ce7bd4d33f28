import GoPosix.Lib.Bytes

/-!
# Characters of a text

What `ReadRune` and `DecodeRune` make of a text that need not be UTF-8: characters, and bytes that
belong to none.
-/

namespace Runes

open List

inductive Rune
  | char (c : Char)
  | byte (b : UInt8)
  deriving DecidableEq, Repr

/-- The bytes that it takes in the text. -/
def Rune.bytes : Rune → Bytes
  | .char c => String.utf8EncodeChar c
  | .byte b => [b]

def runeError : Char := '�'

/-- The value: a byte that belongs to no character counts as U+FFFD. -/
def Rune.val : Rune → Char
  | .char c => c
  | .byte _ => runeError

/-- `utf8.DecodeRune`, if the text begins with a character. -/
def decodeChar (s : Bytes) : Option Char := s.toByteArray.utf8DecodeChar? 0

def runes : Bytes → List Rune
  | [] => []
  | b :: s =>
    match decodeChar (b :: s) with
    | some c => .char c :: runes (s.drop (c.utf8Size - 1))
    | none => .byte b :: runes s
termination_by s => s.length
decreasing_by all_goals grind

theorem decodeChar_eq_some : decodeChar s = some c ↔ ∃ t, s = String.utf8EncodeChar c ++ t := by
  constructor
  · intro h
    obtain ⟨t, ht⟩ := ByteArray.exists_of_utf8DecodeChar?_eq_some h
    exact ⟨t.data.toList, by simpa using congrArg (·.data.toList) ht⟩
  · rintro ⟨t, rfl⟩
    have h := @List.utf8DecodeChar?_utf8Encode_singleton_append t.toByteArray c
    rwa [List.utf8Encode_singleton, ← List.toByteArray_append] at h

theorem encode_inj (h : String.utf8EncodeChar c = String.utf8EncodeChar d) : c = d := by
  have hd : ∀ c, decodeChar (String.utf8EncodeChar c) = some c := fun c =>
    decodeChar_eq_some.mpr ⟨[], (append_nil _).symm⟩
  have hc := hd c
  rw [h, hd] at hc
  exact (Option.some.inj hc).symm

theorem runes_append (c : Char) (s : Bytes) :
    runes (String.utf8EncodeChar c ++ s) = .char c :: runes s := by
  have hl : (String.utf8EncodeChar c).length = c.utf8Size := String.length_utf8EncodeChar c
  obtain ⟨b, bs, hbs⟩ : ∃ b bs, String.utf8EncodeChar c = b :: bs := by
    apply exists_cons_of_length_pos
    rw [hl]
    exact c.utf8Size_pos
  have hd : decodeChar (b :: (bs ++ s)) = some c := decodeChar_eq_some.mpr ⟨s, by rw [hbs]; rfl⟩
  rw [hbs] at hl
  rw [hbs, cons_append, runes, hd]
  simp [← hl]

theorem runes_encode (cs : List Char) :
    runes (cs.flatMap String.utf8EncodeChar) = cs.map .char := by
  induction cs with
  | nil => simp [runes]
  | cons c cs ih => rw [flatMap_cons, runes_append, ih, map_cons]

end Runes
