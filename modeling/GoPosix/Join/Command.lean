import GoPosix.Common.Render
import GoPosix.Join.Merge
import GoPosix.Lib.Streams

/-!
# The command `join`

`run` of `pkg/join/join.go`. Where one of the first two operands is `-` the command reads the
standard input of the process; if both are, the second one is what the first has left.
-/

namespace GoPosix.Join

open Bytes Common

def spec : FlagSpec where
  defs := [⟨str "1", [], .value⟩, ⟨str "2", [], .value⟩, ⟨str "t", [], .value⟩,
    ⟨str "a", [], .value⟩,
    ⟨str "v", [], .value⟩, ⟨str "o", [], .value⟩, ⟨[], str "json", .bool⟩]
  stopAtFirstNonFlag := false
  preProcess := none

/-- The number of a field, which is 1 by default. What `strconv.Atoi` returns besides an error is
taken. -/
def fieldOf (flags : ParseResult) (name : Bytes) : Int :=
  if flags.has name then (atoi (flags.get name)).1 else 1

def optionsOf (flags : ParseResult) : Options where
  field1 := fieldOf flags (str "1")
  field2 := fieldOf flags (str "2")
  t := if flags.has (str "t") then flags.get (str "t") else str " "
  a1 := flags.get (str "a") = str "1"
  a2 := flags.get (str "a") = str "2"
  v1 := flags.get (str "v") = str "1"
  v2 := flags.get (str "v") = str "2"
  oSpec := flags.get (str "o")

inductive Operand
  | stdin
  | file (s : ByteStream)

def openOperand (host : Host) (file : Bytes) : Except Bytes Operand :=
  if file = str "-" then .ok .stdin
  else
    match host.openFile file with
    | .error msg => .error msg
    | .ok s => .ok (.file s)

/-- What is read of an operand, when `stdin` is left of the standard input. -/
def Operand.stream (stdin : ByteStream) : Operand → ByteStream
  | .stdin => stdin
  | .file s => s

/-- What an operand leaves of the standard input. -/
def Operand.leaves (stdin : ByteStream) : Operand → ByteStream
  | .stdin => stdin.afterScan maxScanTokenSize
  | .file _ => stdin

/-- `Run`: both operands are read to their ends. -/
def runStreams (o : Options) (stdin : ByteStream) (r1 r2 : Operand) : Except Bytes (List Bytes) :=
  match (r1.stream stdin).scan maxScanTokenSize with
  | (_, some msg) => .error msg
  | (lines1, none) =>
    match (r2.stream (r1.leaves stdin)).scan maxScanTokenSize with
    | (_, some msg) => .error msg
    | (lines2, none) => .ok (run o lines1 lines2)

def failure (jsonMode : Bool) (code msg : Bytes) : Outcome (List Bytes) :=
  ⟨renderError (str "join") 1 code msg jsonMode, [.text (str "join: " ++ msg ++ str "\n")], .code 1⟩

/-- The first two operands. -/
def runOperands (host : Host) (o : Options) (jsonMode : Bool) (file1 file2 : Bytes) :
    Outcome (List Bytes) :=
  match openOperand host file1 with
  | .error msg => failure jsonMode (str "EOPEN") msg
  | .ok r1 =>
    match openOperand host file2 with
    | .error msg => failure jsonMode (str "EOPEN") msg
    | .ok r2 =>
      match runStreams o host.osStdin r1 r2 with
      | .error msg => failure jsonMode (str "EJOIN") msg
      | .ok records =>
        ⟨render (str "join") records jsonMode (records.map fun line => .text (line ++ str "\n")),
          [], .code 0⟩

/-- The command. The reader `stdin` that it is given is not used. -/
def runCommand (args : List Bytes) (_stdin : ByteStream) (host : Host) : Outcome (List Bytes) :=
  match parseFlags args spec with
  | .error e => renderFlagError (str "join") args e 2
  | .ok flags =>
    let jsonMode := flags.has (str "json")
    match flags.positional with
    | file1 :: file2 :: _ => runOperands host (optionsOf flags) jsonMode file1 file2
    | _ => failure jsonMode (str "EARGS") (str "missing file operands")

end GoPosix.Join
