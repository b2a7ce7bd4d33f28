import GoPosix.Common.Render
import GoPosix.Lib.Streams
import GoPosix.Lib.Strconv

/-!
# cksum

`pkg/cksum/cksum.go`. Without operands the command reads the standard input of the process; the
operand `-` is a file of this name.
-/

namespace GoPosix.Cksum

open Bytes Common

def spec : FlagSpec := ⟨[⟨[], str "json", .bool⟩], false, none⟩

def shiftByte (crc : UInt32) : (bits : Nat) → UInt32
  | 0 => crc
  | bits + 1 =>
    shiftByte (if crc &&& 0x80000000 ≠ 0 then (crc <<< 1) ^^^ 0x04C11DB7 else crc <<< 1) bits

/-- The octets of the length, the lowest first. -/
def shiftLength (crc : UInt32) (n : Nat) : UInt32 :=
  if h : n = 0 then crc
  else shiftLength (shiftByte (crc ^^^ (UInt32.ofNat (n % 256) <<< 24)) 8) (n / 256)
termination_by n
decreasing_by omega

def posixCRC (data : Bytes) : UInt32 :=
  let crc := data.foldl
    (fun (crc : UInt32) b => shiftByte (crc ^^^ (b.toUInt32 <<< (24 : UInt32))) 8) 0
  shiftLength crc data.length ^^^ 0xFFFFFFFF

structure FileResult where
  name : Bytes
  checksum : UInt32
  bytes : Nat

def computeCRC (s : ByteStream) : Except Bytes (UInt32 × Nat) :=
  match Host.readAll s with
  | .error msg => .error msg
  | .ok data => .ok (posixCRC data, data.length)

def runFiles (host : Host) : List Bytes → Except Bytes (List FileResult)
  | [] => .ok []
  | filename :: files =>
    match host.openFile filename with
    | .error msg => .error msg
    | .ok s =>
      match computeCRC s with
      | .error msg => .error msg
      | .ok (crc, n) =>
        match runFiles host files with
        | .error msg => .error msg
        | .ok results => .ok (⟨filename, crc, n⟩ :: results)

def run (host : Host) (files : List Bytes) : Except Bytes (List FileResult) :=
  if files = [] then
    match computeCRC host.osStdin with
    | .error msg => .error msg
    | .ok (crc, n) => .ok [⟨[], crc, n⟩]
  else runFiles host files

def FileResult.text (f : FileResult) : Bytes :=
  itoa f.checksum.toNat ++ str " " ++ itoa f.bytes ++
    (if f.name ≠ [] then str " " ++ f.name else []) ++ str "\n"

/-- The command. The reader `stdin` that it is given is not used. -/
def runCommand (args : List Bytes) (_stdin : ByteStream) (host : Host) :
    Outcome (List FileResult) :=
  match parseFlags args spec with
  | .error e => renderFlagError (str "cksum") args e 2
  | .ok flags =>
    let jsonMode := flags.has (str "json")
    match run host flags.positional with
    | .error msg =>
      ⟨renderError (str "cksum") 1 (str "ECKSUM") msg jsonMode,
        [.text (str "cksum: " ++ msg ++ str "\n")], .code 1⟩
    | .ok results =>
      ⟨render (str "cksum") results jsonMode (results.map fun f => .text f.text), [], .code 0⟩

end GoPosix.Cksum
