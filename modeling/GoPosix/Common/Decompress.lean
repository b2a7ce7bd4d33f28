import GoPosix.Lib.Base64
import GoPosix.Lib.Filepath
import GoPosix.Lib.Replace

/-!
# The decompression of files

The model of `DecompressMode` in `pkg/common/decompress.go`, behind the parsing of the flags. How
the calls of the system and of the decompressor end is given, a panic of the decompressor included.
The tools `bunzip2`, `bzcat`, `uncompress` and `unlzma` differ in their `DecompressSpec`.
-/

namespace GoPosix.Common

open Bytes Replace

structure DecompSuffix where
  ext : Bytes
  cut : Nat
  append : Bytes

structure DecompressSpec where
  progName : Bytes
  suffixes : List DecompSuffix
  corruptMsg : Bytes
  quietable : Bool
  catMode : Bool
  recoverPanics : Bool

structure DecompressOptions where
  stdout : Bool
  force : Bool
  keep : Bool
  quiet : Bool
  json : Bool
  cwd : Bytes

structure DecompFileInfo where
  source : Bytes
  destination : Bytes
  bytesResult : Nat
  content : Bytes
  error : Bytes

/-- A line on the standard error output, the envelope of an error, or an entry of the results. -/
inductive DecompMessage
  | stderr (line : Bytes)
  | envelope (cmd code text : Bytes)
  | result (info : DecompFileInfo)

/-- `strings.ToLower` on the characters of a suffix. -/
def toLower (s : Bytes) : Bytes := s.map fun c => if 65 ≤ c ∧ c ≤ 90 then c + 32 else c

/-- The suffix resolution: the name of the output, if the suffix is known. -/
def destName (spec : DecompressSpec) (file : Bytes) : Option Bytes :=
  if spec.suffixes = [] then some []
  else (spec.suffixes.find? fun s => s.ext <:+ toLower file).map fun s =>
    file.take (file.length - s.cut) ++ s.append

section

variable (spec : DecompressSpec) (opts : DecompressOptions)

def absolutePath (file : Bytes) : Bytes :=
  if Vfs.isAbs file then file else Filepath.join [opts.cwd, file]

def stdoutMode : Bool := spec.catMode || opts.stdout

def quietMode : Bool := spec.quietable && opts.quiet

/-- An operand that fails, with the files as they are then. -/
def failure (files : Files) (output : Option Bytes) (file line error : Bytes) :
    Step DecompMessage where
  after := files
  output := output
  verdict := .failed
  messages := (if quietMode spec opts then [] else [.stderr (spec.progName ++ str ": " ++ line)]) ++
    [.result ⟨file, [], 0, [], error⟩]

/-- An operand that is not opened at all. -/
def refusal (files : Files) (file reason : Bytes) : Step DecompMessage :=
  failure spec opts files none file (file ++ str ": " ++ reason) reason

/-- A panic of the decompressor, which may be recovered. -/
def panicked (files : Files) (output : Option Bytes) (file : Bytes) : Step DecompMessage :=
  if spec.recoverPanics then failure spec opts files output file (str "corrupted data")
    (str "corrupted data")
  else ⟨files, output, .crashed, []⟩

/-- The entry of an operand that is written to the standard output. -/
def stdoutEntry (file written : Bytes) : DecompFileInfo where
  source := file
  destination := if spec.catMode then [] else str "-"
  bytesResult := written.length
  content := if opts.json then Base64.encode written else []
  error := []

/-- A file that is decompressed to the standard output. -/
def extractToStdout (files : Files) (file : Bytes) (o : Outcomes) : Step DecompMessage :=
  match o.copy with
  | .ok => ⟨files, none, .fine, [.result (stdoutEntry spec opts file o.written)]⟩
  | .err msg =>
    let text := if spec.catMode then msg else spec.corruptMsg
    failure spec opts files none file text text
  | .panic =>
    -- the copy into the envelope recovers by itself, and then it is an error like others
    if opts.json && spec.recoverPanics && !spec.catMode then
      failure spec opts files none file spec.corruptMsg spec.corruptMsg
    else panicked spec opts files none file

/-- There is an output already, and it has to be kept. -/
def taken (files : Files) (dest : Bytes) (o : Outcomes) : Bool :=
  (files (absolutePath opts dest)).isSome && !o.outStatErr && !opts.force

/-- A file that is decompressed to a file. The error of the deferred `Close` is lost, and a panic
passes the removal of the output. -/
def extractToFile (files : Files) (file dest : Bytes) (o : Outcomes) : Step DecompMessage :=
  let absDest := absolutePath opts dest
  if taken opts files dest o then
    let text := str "can't open '" ++ dest ++ str "': File exists"
    failure spec opts files none file text text
  else
    match files.create absDest o.createErr with
    | .error msg => failure spec opts files none file msg msg
    | .ok created =>
      let filled := created.put absDest o.written
      match o.copy with
      | .ok =>
        { after := if opts.keep then filled
          else filled.remove o.removeSource (absolutePath opts file)
          output := some absDest
          verdict := .fine
          messages := [.result ⟨file, dest, o.written.length, [], []⟩] }
      | .err _ =>
        failure spec opts (filled.remove o.removeOut absDest) (some absDest) file spec.corruptMsg
          spec.corruptMsg
      | .panic => panicked spec opts filled (some absDest) file

def extract (files : Files) (file dest : Bytes) (o : Outcomes) : Step DecompMessage :=
  match o.openErr with
  | some msg => failure spec opts files none file msg msg
  | none =>
    match o.start with
    | .err _ => failure spec opts files none file spec.corruptMsg spec.corruptMsg
    | .panic => panicked spec opts files none file
    | .ok =>
      if stdoutMode spec opts then extractToStdout spec opts files file o
      else extractToFile spec opts files file dest o

def decompressFile (files : Files) (file : Bytes) (o : Outcomes) : Step DecompMessage :=
  match files.stat (absolutePath opts file) o.statErr with
  | .error _ => refusal spec opts files file (str "No such file or directory")
  | .ok (.dir _) => refusal spec opts files file (str "Is a directory")
  | .ok (.file _) =>
    match destName spec file with
    | none => refusal spec opts files file (str "unknown suffix - ignored")
    | some dest => extract spec opts files file dest o

/-- The error of `newReaderRecovering` and `copyRecovering`; nothing if there is none. -/
def stdinError : Ending → Option Bytes
  | .ok => none
  | .err msg => some msg
  | .panic => some (str "corrupted data")

def stdinFailure (files : Files) (msg : Bytes) : Step DecompMessage where
  after := files
  output := none
  verdict := .returned
  messages :=
    (if quietMode spec opts then []
      else [.stderr (spec.progName ++ str ": " ++ spec.corruptMsg)]) ++
    if opts.json then [.envelope spec.progName (str "DECOMPRESS_ERROR") msg] else []

def decompressStdin (files : Files) (o : Outcomes) : Step DecompMessage :=
  if (o.start = .panic ∨ o.start = .ok ∧ o.copy = .panic) ∧ spec.recoverPanics = false then
    ⟨files, none, .crashed, []⟩
  else
    match stdinError o.start with
    | some msg => stdinFailure spec opts files msg
    | none =>
      match stdinError o.copy with
      | some msg => stdinFailure spec opts files msg
      | none =>
        ⟨files, none, .fine,
          if opts.json then [.result (stdoutEntry spec opts (str "-") o.written)] else []⟩

/-- One operand; nothing stands for the standard input. -/
def decompressStep (files : Files) : Option Bytes × Outcomes → Step DecompMessage
  | (none, o) => decompressStdin spec opts files o
  | (some file, o) => decompressFile spec opts files file o

end

/-- The operands. A single `-` is the standard input, as is no operand, for which `stdin` says what
happens. -/
def decompressOperands (files : List (Bytes × Outcomes)) (stdin : Outcomes) :
    List (Option Bytes × Outcomes) :=
  match files with
  | [] => [(none, stdin)]
  | [(file, o)] => if file = str "-" then [(none, o)] else [(some file, o)]
  | _ => files.map fun (file, o) => (some file, o)

end GoPosix.Common
