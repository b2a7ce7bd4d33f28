import Mathlib.Data.Rat.Defs
import GoPosix.Lib.Bytes

/-!
# JSON between two programs

What package `encoding/json` carries from one program to another. A Go string need not survive that:
the bytes that are not UTF-8 are replaced on the way. `Json.wire` is what arrives.

A value is read into a structure field by field (`decodeObject`). A member that no field asks for is
ignored, `null` leaves a field as it is, and a value of the wrong kind is an error.
-/

open Bytes

/-! ## UTF-8 -/

namespace Utf8

/-- The second and later bytes of a character. -/
def isTail (c : UInt8) : Bool := 0x80 ≤ c && c ≤ 0xBF

/-- The first two bytes of a character of three. -/
def threeHead (a b : UInt8) : Bool :=
  if a = 0xE0 then 0xA0 ≤ b && b ≤ 0xBF
  else if a = 0xED then 0x80 ≤ b && b ≤ 0x9F
  else 0xE1 ≤ a && a ≤ 0xEF && isTail b

/-- The first two bytes of a character of four. -/
def fourHead (a b : UInt8) : Bool :=
  if a = 0xF0 then 0x90 ≤ b && b ≤ 0xBF
  else if a = 0xF4 then 0x80 ≤ b && b ≤ 0x8F
  else 0xF1 ≤ a && a ≤ 0xF3 && isTail b

/-- `utf8.DecodeRuneInString`: the number of bytes of the character at the head, and `0` if there
is none. -/
def charLen : Bytes → Nat
  | [] => 0
  | a :: s =>
    if a < 0x80 then 1
    else match s with
      | b :: c :: d :: _ =>
        if 0xC2 ≤ a && a ≤ 0xDF && isTail b then 2
        else if threeHead a b && isTail c then 3
        else if fourHead a b && isTail c && isTail d then 4
        else 0
      | [b, c] =>
        if 0xC2 ≤ a && a ≤ 0xDF && isTail b then 2
        else if threeHead a b && isTail c then 3
        else 0
      | [b] => if 0xC2 ≤ a && a ≤ 0xDF && isTail b then 2 else 0
      | [] => 0

def replacement : Bytes := [0xEF, 0xBF, 0xBD]

/-- A string in which every byte outside a character is replaced; `skip` bytes of the character at
the head are still to come. -/
def repairFrom : (skip : Nat) → Bytes → Bytes
  | _, [] => []
  | skip + 1, a :: s => a :: repairFrom skip s
  | 0, a :: s => match charLen (a :: s) with
    | 0 => replacement ++ repairFrom 0 s
    | n + 1 => a :: repairFrom n s

def repair (s : Bytes) : Bytes := repairFrom 0 s

/-- What `range` makes of a string: its characters, and where each begins. A byte outside a
character counts as the replacement; `skip` bytes of the last character are still to come. -/
def runesFrom : (skip i : Nat) → Bytes → List (Nat × Bytes)
  | _, _, [] => []
  | skip + 1, i, _ :: s => runesFrom skip (i + 1) s
  | 0, i, a :: s => match charLen (a :: s) with
    | 0 => (i, replacement) :: runesFrom 0 (i + 1) s
    | n + 1 => (i, (a :: s).take (n + 1)) :: runesFrom n (i + 1) s

def runes (s : Bytes) : List (Nat × Bytes) := runesFrom 0 0 s

/-- `utf8.ValidString`: there is nothing to replace. -/
def Valid (s : Bytes) : Prop := repair s = s

instance (s : Bytes) : Decidable (Valid s) := inferInstanceAs (Decidable (_ = _))

def isAscii (s : Bytes) : Bool := s.all (· < 0x80)

theorem isAscii_cons : isAscii (a :: s) = true ↔ a < 0x80 ∧ isAscii s = true := by
  simp [isAscii]

theorem repair_append (hp : isAscii p = true) (s : Bytes) : repair (p ++ s) = p ++ repair s := by
  induction p with
  | nil => rfl
  | cons a p ih =>
    obtain ⟨ha, hp⟩ := isAscii_cons.mp hp
    have hl : charLen (a :: (p ++ s)) = 1 := if_pos ha
    rw [repair, List.cons_append, repairFrom, hl]
    exact congrArg (a :: ·) (ih hp)

theorem valid_of_ascii (hp : isAscii p = true) : Valid p := by
  have h := repair_append hp []
  rwa [show repair [] = [] from rfl, List.append_nil] at h

theorem repair_eq_of_ascii (h : isAscii (repair s) = true) : repair s = s := by
  induction s with
  | nil => rfl
  | cons a s ih =>
    rw [repair, repairFrom] at h ⊢
    cases hl : charLen (a :: s) with
    | zero =>
      rw [hl] at h
      exact absurd (isAscii_cons.mp h).1 (by decide)
    | succ n =>
      rw [hl] at h
      obtain ⟨ha, hs⟩ := isAscii_cons.mp h
      have ho : charLen (a :: s) = 1 := if_pos ha
      obtain rfl : n = 0 := by omega
      exact congrArg (a :: ·) (ih hs)

end Utf8

/-! ## Values -/

inductive Json where
  | null
  | bool (b : Bool)
  | num (q : ℚ)
  | str (s : Bytes)
  | arr (elems : List Json)
  | obj (members : List (Bytes × Json))

namespace Json

mutual

/-- What arrives of a value that is sent. -/
def wire : Json → Json
  | .null => .null
  | .bool b => .bool b
  | .num q => .num q
  | .str s => .str (Utf8.repair s)
  | .arr elems => .arr (wireElems elems)
  | .obj members => .obj (wireMembers members)

def wireElems : List Json → List Json
  | [] => []
  | v :: rest => v.wire :: wireElems rest

def wireMembers : List (Bytes × Json) → List (Bytes × Json)
  | [] => []
  | (k, v) :: rest => (Utf8.repair k, v.wire) :: wireMembers rest

end

theorem wireElems_map_str (ss : List Bytes) :
    wireElems (ss.map .str) = (ss.map Utf8.repair).map .str := by
  induction ss with
  | nil => rfl
  | cons s ss ih =>
    show Json.str (Utf8.repair s) :: wireElems (ss.map .str) = _
    rw [ih]
    rfl

/-! ## Reading a value -/

/-- `encoding/json.foldName`: names are compared without regard to case. Two characters outside
ASCII fold into it. -/
def foldName : Bytes → Bytes
  | 0xC5 :: 0xBF :: rest => 83 :: foldName rest
  | 0xE2 :: 0x84 :: 0xAA :: rest => 75 :: foldName rest
  | c :: rest => (if 97 ≤ c && c ≤ 122 then c - 32 else c) :: foldName rest
  | [] => []

/-- The member is the one that the field `name` asks for. -/
def named (name : String) (key : Bytes) : Bool := foldName key = foldName (Bytes.str name)

def decodeBool (old : Bool) : Json → Option Bool
  | .bool b => some b
  | .null => some old
  | _ => none

def decodeInt (old : Int) : Json → Option Int
  | .num q => if q.den = 1 then some q.num else none
  | .null => some old
  | _ => none

def decodeString (old : Bytes) : Json → Option Bytes
  | .str s => some s
  | .null => some old
  | _ => none

/-- The elements of an array replace the strings before them one by one. -/
def decodeElems : (old : List Bytes) → List Json → Option (List Bytes)
  | _, [] => some []
  | old, v :: rest => do
    let s ← decodeString (old.headD []) v
    let ss ← decodeElems old.tail rest
    pure (s :: ss)

def decodeStrings (old : List Bytes) : Json → Option (List Bytes)
  | .arr elems => decodeElems old elems
  | .null => some []
  | _ => none

/-- A value read into a structure, member by member. -/
def decodeObject {σ : Type} (set : Bytes → Json → σ → Option σ) (old : σ) : Json → Option σ
  | .obj members => members.foldlM (fun s m => set m.1 m.2 s) old
  | .null => some old
  | _ => none

theorem decodeElems_map_str (ss : List Bytes) : ∀ o, decodeElems o (ss.map .str) = some ss := by
  induction ss with
  | nil => exact fun _ => rfl
  | cons s ss ih =>
    intro o
    simp only [List.map_cons, decodeElems, ih]
    rfl

end Json
