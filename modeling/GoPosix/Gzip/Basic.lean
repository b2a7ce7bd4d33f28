import Mathlib.Data.Rat.Defs
import GoPosix.Lib.Base64
import GoPosix.Lib.Replace

/-!
# gzip and gunzip

`execute` of `pkg/gzip/gzip.go`, behind the parsing of the flags. How the calls of the system, of
`gzip.NewReader` and `gzip.NewWriterLevel`, and of the copy end is given. Nothing here recovers a
panic.
-/

namespace GoPosix.Gzip

open Bytes Replace

structure Options where
  cmdName : Bytes
  json : Bool
  toStdout : Bool
  keep : Bool
  force : Bool
  decompress : Bool

structure GzipStat where
  file : Bytes
  originalSize : Nat
  newSize : Nat
  ratio : Rat
  content : Bytes

/-- A line on the standard error output, the envelope of an error, or an entry of the statistics. -/
inductive Message
  | stderr (line : Bytes)
  | envelope (cmd code text : Bytes)
  | stat (entry : GzipStat)

section

variable (opts : Options)

def keepOriginal : Bool := opts.keep || opts.toStdout

def payload (o : Outcomes) : Bytes :=
  if o.start ≠ .ok then []
  else if opts.decompress ∨ o.copy = .panic then o.written
  else o.written ++ o.flushed

/-- A text for the standard error output, which is left out in JSON mode. -/
def say (line : Bytes) : List Message :=
  if opts.json then [] else [.stderr (opts.cmdName ++ str ": " ++ line)]

/-- The envelope of an error in JSON mode, and a line otherwise. -/
def sayError (cmd code msg : Bytes) : List Message :=
  (if opts.json then [.envelope cmd code msg] else []) ++ say opts msg

/-- An operand that fails before an output is opened. -/
def refused (files : Files) (messages : List Message) : Step Message :=
  ⟨files, none, .failed, messages⟩

/-- Standard input to standard output. What the copy and the last `Close` return is not looked
at. -/
def executeStdin (files : Files) (o : Outcomes) : Step Message :=
  match o.start with
  | .panic => ⟨files, none, .crashed, []⟩
  | .err msg =>
    ⟨files, none, .returned, say opts (if opts.decompress then str "stdin: " ++ msg else msg)⟩
  | .ok =>
    if o.copy = .panic then ⟨files, none, .crashed, []⟩
    else
      ⟨files, none, .fine,
        if opts.json then
          [.stat ⟨str "-", 0, (payload opts o).length, 0, Base64.encode (payload opts o)⟩]
        else []⟩

def outName (file : Bytes) : Bytes :=
  if opts.decompress then
    let trimmed := if hasSuffix file (str ".gz") then file.take (file.length - 3) else file
    if trimmed = file then file ++ str ".unpacked" else trimmed
  else file ++ str ".gz"

/-- `processErr`; a panic is none. -/
def processErr (o : Outcomes) : Option Bytes :=
  match o.start with
  | .err msg => some msg
  | .ok => match o.copy with
    | .err msg => some msg
    | _ => none
  | .panic => none

/-- Nothing recovers a panic. -/
def panics (o : Outcomes) : Bool := o.start = .panic ∨ o.start = .ok ∧ o.copy = .panic

def ratio (inSize outSize : Nat) : Rat :=
  if 0 < inSize ∧ 0 < outSize then
    if opts.decompress then (outSize : Rat) / inSize else (inSize : Rat) / outSize
  else 0

/-- The part of the loop from `processErr` on, for an output that is open, or for the standard
output. -/
def process (files : Files) (file : Bytes) (inSize : Nat) (outFile : Option Bytes) (o : Outcomes) :
    Step Message :=
  let filled := match outFile with
    | none => files
    | some out => files.put out (payload opts o)
  if panics o then ⟨filled, outFile, .crashed, []⟩
  else
    match processErr o with
    | some msg =>
      { after := match outFile with
          | none => filled
          | some out => filled.remove o.removeOut out
        output := outFile
        verdict := .failed
        messages := sayError opts (str "gzip") (str "PROCESS_FAIL") msg }
    | none =>
      let outSize := match outFile with
        | none => if opts.json then (payload opts o).length else 0
        | some out => ((filled out).map Entry.size).getD 0
      { after := if outFile.isSome && !keepOriginal opts then filled.remove o.removeSource file
        else filled
        output := outFile
        verdict := .fine
        messages := [.stat ⟨file, inSize, outSize, ratio opts inSize outSize,
          if opts.toStdout && opts.json then Base64.encode (payload opts o) else []⟩] }

/-- There is an output already, and it has to be kept. -/
def taken (files : Files) (out : Bytes) (o : Outcomes) : Bool :=
  !opts.force && (files out).isSome && !o.outStatErr

def openOutput (files : Files) (file : Bytes) (inSize : Nat) (o : Outcomes) : Step Message :=
  if opts.toStdout then process opts files file inSize none o
  else
    let out := outName opts file
    if taken opts files out o then
      refused files <| say opts <|
        if opts.decompress then str "can't open '" ++ out ++ str "': File exists"
        else out ++ str " already exists; use -f to overwrite"
    else
      match files.create out o.createErr with
      | .error msg => refused files (sayError opts (str "gzip") (str "CREATE_FAIL") msg)
      | .ok created => process opts created file inSize (some out) o

def executeFile (files : Files) (file : Bytes) (o : Outcomes) : Step Message :=
  match files.stat file o.statErr with
  | .error msg =>
    if opts.decompress then refused files (say opts (file ++ str ": No such file or directory"))
    else refused files (sayError opts opts.cmdName (str "STAT_FAIL") msg)
  | .ok info =>
    if opts.decompress && !hasSuffix file (str ".gz") then
      refused files (say opts (file ++ str ": unknown suffix - ignored"))
    else
      match o.openErr with
      | some msg => refused files (sayError opts (str "gzip") (str "OPEN_FAIL") msg)
      | none => openOutput opts files file info.size o

def executeStep (files : Files) : Bytes × Outcomes → Step Message
  | (file, o) => if file = str "-" then executeStdin opts files o else executeFile opts files file o

/-- The operands; none are the standard input, for which `stdin` says what happens. -/
def operands (files : List (Bytes × Outcomes)) (stdin : Outcomes) : List (Bytes × Outcomes) :=
  if files = [] then [(str "-", stdin)] else files

def execute (files : Files) (args : List (Bytes × Outcomes)) (stdin : Outcomes) : Nat :=
  exitCode (executeStep opts) (run (executeStep opts) files (operands args stdin))

end

end GoPosix.Gzip
