import GoPosix.Lib.Base64
import GoPosix.Lib.Reader
import Mathlib.Data.Nat.Digits.Defs

/-!
# uuencode and uudecode

The text that `pkg/uuencode/uuencode.go` writes and how `pkg/uudecode/uudecode.go` reads it. There
are two formats, the traditional one and base64. The encoder works on pieces of 45 bytes that it
gets from `io.ReadFull`, and stops at any error of the reader without a word. Opening the files, the
messages and the writing of the decoded file are left out.
-/

namespace GoPosix.Uuencode

open Bytes Reader Sextet

/-! ## The encoder -/

/-- `uuenc`: a grave accent stands for zero. -/
def uuenc (val : UInt8) : UInt8 :=
  let v := (val &&& 63) + 32
  if v = 32 then 96 else v

def encodeGroup (b₁ b₂ b₃ : UInt8) : Bytes :=
  [uuenc (first b₁), uuenc (second b₁ b₂), uuenc (third b₂ b₃), uuenc (fourth b₃)]

/-- The loop of `encodeTraditionalLine`. Bytes that are not there count as zero. -/
def encodeGroups : Bytes → Bytes
  | [] => []
  | [b₁] => encodeGroup b₁ 0 0
  | [b₁, b₂] => encodeGroup b₁ b₂ 0
  | b₁ :: b₂ :: b₃ :: rest => encodeGroup b₁ b₂ b₃ ++ encodeGroups rest

def encodeTraditionalLine (data : Bytes) : Bytes :=
  uuenc (UInt8.ofNat data.length) :: encodeGroups data

/-- The lines of `encodeTraditionalString`. -/
def encodeTraditionalLoop : (fuel : Nat) → Bytes → List Bytes
  | 0, _ => []
  | fuel + 1, data =>
    if data = [] then []
    else encodeTraditionalLine (data.take 45) :: encodeTraditionalLoop fuel (data.drop 45)

/-- `encodeTraditionalString`, the encoder of the JSON mode. -/
def encodeTraditionalString (data : Bytes) : Bytes :=
  unlines (encodeTraditionalLoop (data.length + 1) data ++ [[96]])

/-- The loop of the text mode, for both formats. -/
def streamLines (encodeLine : Bytes → Bytes) : (fuel : Nat) → List Item → List Bytes
  | 0, _ => []
  | fuel + 1, input =>
    let (buf, err, rest) := readFull 45 input
    let lines := if buf = [] then [] else [encodeLine buf]
    if err.isSome then lines else lines ++ streamLines encodeLine fuel rest

def encodeBody (useBase64 : Bool) (input : List Item) : List Bytes :=
  if useBase64 then streamLines Base64.encode (input.length + 1) input ++ [str "===="]
  else streamLines encodeTraditionalLine (input.length + 1) input ++ [[96], str "end"]

def modeText (perm : Nat) : Bytes :=
  if perm = 0 then [48] else (Nat.digits 8 perm).reverse.map fun d => UInt8.ofNat (48 + d)

def beginWord (useBase64 : Bool) : Bytes := if useBase64 then str "begin-base64" else str "begin"

def header (useBase64 : Bool) (mode remotename : Bytes) : Bytes :=
  beginWord useBase64 ++ 32 :: (mode ++ 32 :: remotename)

/-- What `uuencode` writes in text mode. -/
def uuencode (useBase64 : Bool) (mode remotename : Bytes) (input : List Item) : Bytes :=
  unlines (header useBase64 mode remotename :: encodeBody useBase64 input)

/-! ## The decoder -/

inductive DecodeErr
  | missingHeader
  | invalidHeader
  | base64
  deriving DecidableEq, Repr

/-- The first line that starts as a header does, and the lines behind it. -/
def findHeader : List Bytes → Option (Bytes × List Bytes)
  | [] => none
  | text :: lines =>
    let line := trimSpace text
    if line ≠ [] ∧ (hasPrefix line (str "begin ") || hasPrefix line (str "begin-base64 ")) then
      some (line, lines)
    else findHeader lines

/-- The characters of base64, for the second attempt. -/
def isBase64Char (r : UInt8) : Bool :=
  (65 ≤ r && r ≤ 90) || (97 ≤ r && r ≤ 122) || (48 ≤ r && r ≤ 57) || r = 43 || r = 47 || r = 61

/-- The text of the lines up to the end. -/
def base64Text : List Bytes → Bytes
  | [] => []
  | text :: lines =>
    let line := trimSpace text
    if line = str "====" ∨ line = str "end" then [] else line ++ base64Text lines

/-- The decoding of the base64 format, with a second attempt that ignores other characters. -/
def decodeBase64 (lines : List Bytes) : Except DecodeErr Bytes :=
  let b64 := base64Text lines
  match Base64.decode b64 with
  | some data => .ok data
  | none =>
    match Base64.decode (b64.filter isBase64Char) with
    | some data => .ok data
    | none => .error .base64

/-- The six bits of a character. -/
def uudec (c : UInt8) : UInt8 := (c - 32) &&& 0x3F

/-- The bytes of four characters, as many as are wanted. -/
def pushChunk (decLen : Nat) (decodedLine : Bytes) (c₁ c₂ c₃ c₄ : UInt8) : Bytes :=
  let b₁ := octet₁ (uudec c₁) (uudec c₂)
  let b₂ := octet₂ (uudec c₂) (uudec c₃)
  let b₃ := octet₃ (uudec c₃) (uudec c₄)
  let decodedLine := decodedLine ++ [b₁]
  let decodedLine := if decodedLine.length < decLen then decodedLine ++ [b₂] else decodedLine
  if decodedLine.length < decLen then decodedLine ++ [b₃] else decodedLine

/-- The loop over the chunks of a line. A blank stands for a character that is not there. -/
def decodeChunks (decLen : Nat) (decodedLine : Bytes) : Bytes → Bytes
  | [] => decodedLine
  | [_] => decodedLine
  | [c₁, c₂] =>
    if decodedLine.length < decLen then pushChunk decLen decodedLine c₁ c₂ 32 32 else decodedLine
  | [c₁, c₂, c₃] =>
    if decodedLine.length < decLen then pushChunk decLen decodedLine c₁ c₂ c₃ 32 else decodedLine
  | c₁ :: c₂ :: c₃ :: c₄ :: rest =>
    if decodedLine.length < decLen then
      decodeChunks decLen (pushChunk decLen decodedLine c₁ c₂ c₃ c₄) rest
    else decodedLine

def decodeTraditional : List Bytes → Bytes
  | [] => []
  | [] :: lines => decodeTraditional lines
  | (lenChar :: chunks) :: lines =>
    if lenChar :: chunks = str "end" then []
    else if lenChar = 96 ∨ lenChar = 32 then []
    else
      let decLen := (uudec lenChar).toNat
      if decLen ≤ 0 then [] else decodeChunks decLen [] chunks ++ decodeTraditional lines

def decodeBody (isBase64 : Bool) (lines : List Bytes) : Except DecodeErr Bytes :=
  if isBase64 then decodeBase64 lines else .ok (decodeTraditional lines)

/-- What is decoded: where to, with which permissions, and the data. Nothing for `dest` is the
standard output. -/
structure Decoded where
  dest : Option Bytes
  modeStr : Bytes
  data : Bytes
  deriving DecidableEq, Repr

/-- The destination: the argument of `-o`, if there is one, else the name in the header. -/
def destination (destFileArg headerRemoteName : Bytes) : Option Bytes :=
  let name := if destFileArg ≠ [] then destFileArg else headerRemoteName
  if name = str "-" then none else some name

/-- `uudecode`, up to the writing of the data. The scanner's error is not looked at. -/
def uudecode (destFileArg : Bytes) (input : Bytes) : Except DecodeErr Decoded :=
  match findHeader (scanLines input).1 with
  | none => .error .missingHeader
  | some (headerLine, lines) =>
    match fields headerLine with
    | word :: modeStr :: headerRemoteName :: _ => do
      let data ← decodeBody (word = str "begin-base64") lines
      return ⟨destination destFileArg headerRemoteName, modeStr, data⟩
    | _ => .error .invalidHeader

end GoPosix.Uuencode
