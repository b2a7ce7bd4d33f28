import GoPosix.Lib.Reader
import GoPosix.Lib.Runtime
import GoPosix.Lib.Text
import Mathlib.Data.Nat.Digits.Defs

/-!
# xxd

The dumps and their reversal of `pkg/xxd/xxd.go`. A dump writes one line for each call of `Read`, so
what it writes depends on how the reader cuts the data. The reversal reads lines with a
`bufio.Scanner`; the loop over a line is the same text in `reversePlain` and in `reverseStandard`,
and is `parseHex` here.
-/

namespace GoPosix.Xxd

open Bytes Reader MachineInt

/-! ## Dumps -/

def hexDigit (n : Nat) : UInt8 := UInt8.ofNat (if n < 10 then 48 + n else 87 + n)

def hexByte (b : UInt8) : Bytes := [hexDigit (b.toNat / 16), hexDigit (b.toNat % 16)]

def hexDigits (n : Nat) : Bytes := if n = 0 then [48] else (Nat.digits 16 n).reverse.map hexDigit

def padZeros (width : Nat) (s : Bytes) : Bytes := List.replicate (width - s.length) 48 ++ s

def formatOffset (offset : Int) : Bytes :=
  if offset < 0 then 45 :: padZeros 7 (hexDigits offset.natAbs)
  else padZeros 8 (hexDigits offset.natAbs)

/-- The hexadecimal groups of a line, each of two bytes but perhaps the last. -/
def hexParts : Bytes → List Bytes
  | [] => []
  | [b] => [hexByte b]
  | b :: c :: rest => (hexByte b ++ hexByte c) :: hexParts rest

def join (parts : List Bytes) : Bytes := [(32 : UInt8)].intercalate parts

/-- Blanks up to 39 bytes. -/
def padHexCol (s : Bytes) : Bytes := s ++ List.replicate (39 - s.length) 32

def asciiCol (buf : Bytes) : Bytes := buf.map fun b => if 32 ≤ b ∧ b ≤ 126 then b else 46

def standardLine (offset : Int) (buf : Bytes) : Bytes :=
  formatOffset offset ++ [58, 32] ++ padHexCol (join (hexParts buf)) ++ [32, 32] ++ asciiCol buf

/-- The lines of `dumpStandard`, and the error of the reader. -/
def dumpStandardLoop : (offset : Int) → List Read → List Bytes × Option ReadErr
  | _, [] => ([], none)
  | offset, r :: reads =>
    let lines := if r.bytes = [] then [] else [standardLine offset r.bytes]
    let offset := if r.bytes = [] then offset else wrap64 (offset + r.bytes.length)
    match r.err with
    | some .eof => (lines, none)
    | some err => (lines, some err)
    | none =>
      let (rest, err) := dumpStandardLoop offset reads
      (lines ++ rest, err)

def dumpStandard (reads : List Read) : Bytes × Option ReadErr :=
  let (lines, err) := dumpStandardLoop 0 reads
  (unlines lines, err)

/-- The lines of `dumpPlain`, and the error of the reader. -/
def dumpPlainLoop : List Read → List Bytes × Option ReadErr
  | [] => ([], none)
  | r :: reads =>
    let lines := if r.bytes = [] then [] else [r.bytes.flatMap hexByte]
    match r.err with
    | some .eof => (lines, none)
    | some err => (lines, some err)
    | none =>
      let (rest, err) := dumpPlainLoop reads
      (lines ++ rest, err)

def dumpPlain (reads : List Read) : Bytes × Option ReadErr :=
  let (lines, err) := dumpPlainLoop reads
  (unlines lines, err)

/-! ## The reversal -/

def hexVal (char : UInt8) : Option UInt8 :=
  if 48 ≤ char ∧ char ≤ 57 then some (char - 48)
  else if 97 ≤ char ∧ char ≤ 102 then some (char - 97 + 10)
  else if 65 ≤ char ∧ char ≤ 70 then some (char - 65 + 10)
  else none

def isBlankByte (char : UInt8) : Bool := char = 32 || char = 9 || char = 13 || char = 10

/-- What the search for a digit has found. -/
inductive Found
  | digit (d : UInt8) (rest : Bytes)
  | bad (badSeqCount : Nat) (rest : Bytes)
  | truncated
  | atEnd

/-- The search for the first digit of a byte. Two bad characters in a row end the line. -/
def findFirst (badSeqCount : Nat) : Bytes → Found
  | [] => .atEnd
  | char :: s =>
    if isBlankByte char then findFirst 0 s
    else match hexVal char with
      | some d => .digit d s
      | none => if 2 ≤ badSeqCount + 1 then .truncated else findFirst (badSeqCount + 1) s

/-- The search for the second digit. A bad character ends it, and the first digit is
dropped. -/
def findSecond (badSeqCount : Nat) : Bytes → Found
  | [] => .atEnd
  | char :: s =>
    if isBlankByte char then findSecond 0 s
    else match hexVal char with
      | some d => .digit d s
      | none => if 2 ≤ badSeqCount + 1 then .truncated else .bad (badSeqCount + 1) s

/-- The loop over a line: the bytes that are written. Each turn takes a character at least. -/
def parseLoop : (fuel : Nat) → (badSeqCount : Nat) → Bytes → Bytes
  | 0, _, _ => []
  | fuel + 1, badSeqCount, s =>
    match findFirst badSeqCount s with
    | .digit d1 s =>
      match findSecond 0 s with
      | .digit d2 s => ((d1 <<< 4) ||| d2) :: parseLoop fuel 0 s
      | .bad badSeqCount s => parseLoop fuel badSeqCount s
      | .truncated => []
      | .atEnd => []
    | _ => []

def parseHex (s : Bytes) : Bytes := parseLoop (s.length + 1) 0 s

/-- `reversePlain`: what is written, and whether the scanner came to the end. -/
def reversePlain (input : Bytes) : Bytes × Bool :=
  ((scanLines input).1.flatMap parseHex, (scanLines input).2)

def trimBlanks (line : Bytes) : Bytes := line.dropWhile isBlankByte

/-- A line of the standard dump: the part between the first colon and two blanks. -/
def reverseLine (line : Bytes) : Bytes :=
  let trimmed := trimBlanks line
  if trimmed = [] then []
  else match indexOf trimmed [58] with
    | none => []
    | some colonIdx =>
      let hexContent := trimmed.drop (colonIdx + 1)
      match indexOf hexContent [32, 32] with
      | some doubleSpaceIdx => parseHex (hexContent.take doubleSpaceIdx)
      | none => parseHex hexContent

def reverseStandard (input : Bytes) : Bytes × Bool :=
  ((scanLines input).1.flatMap reverseLine, (scanLines input).2)

end GoPosix.Xxd
