import GoPosix.Common.Render
import GoPosix.Lib.Streams
import GoPosix.Lib.Strconv

/-!
# tail

`Run` of `pkg/tail/tail.go`, and the command around it. Where an operand is `-` the command reads
the standard input of the process. With `-f` it does not come back from the first file that it can
open; what it prints while it waits there is left out.
-/

namespace GoPosix.Tail

open Bytes Common

def spec : FlagSpec where
  defs := [⟨str "n", str "lines", .value⟩, ⟨str "c", str "bytes", .value⟩,
    ⟨str "f", str "follow", .bool⟩,
    ⟨[], str "json", .bool⟩]
  stopAtFirstNonFlag := false
  preProcess := none

def bufferSize : Nat := 10 * 1024 * 1024

/-- The lines of `Run`, what it prints, its error, and what it leaves of its input. -/
structure Ran where
  lines : List Bytes
  printed : Bytes
  err : Option Bytes
  rest : ByteStream

def cutBytes (bytesCount : Int) (fromStart : Bool) (data : Bytes) : Bytes :=
  if fromStart then
    let skip := if bytesCount - 1 < 0 then 0 else bytesCount - 1
    data.drop (if skip > data.length then data.length else skip.toNat)
  else
    let bytesCount := if bytesCount > data.length then data.length else bytesCount.toNat
    data.drop (data.length - bytesCount)

def skipLines (skip : Int) : (lineNum : Int) → List Bytes → List Bytes
  | _, [] => []
  | lineNum, line :: rest =>
    if lineNum ≥ skip then line :: skipLines skip (lineNum + 1) rest
      else skipLines skip (lineNum + 1) rest

/-- The loop for the last lines, which keeps a window. -/
def lastLines (linesCount : Int) : (lines : List Bytes) → List Bytes → List Bytes
  | lines, [] => lines
  | lines, line :: rest =>
    let lines := lines ++ [line]
    lastLines linesCount (if (lines.length : Int) > linesCount then lines.tail else lines) rest

def run (s : ByteStream) (linesCount bytesCount : Int) (fromStart : Bool) : Ran :=
  if bytesCount > 0 then
    match s.err with
    | some msg => ⟨[], [], some msg, s.atEnd⟩
    | none =>
      let data := cutBytes bytesCount fromStart s.data
      ⟨[data], data, none, s.atEnd⟩
  else
    let (tokens, err) := s.scan bufferSize
    let lines :=
      if fromStart then skipLines (if linesCount - 1 < 0 then 0 else linesCount - 1) 0 tokens
      else lastLines linesCount [] tokens
    ⟨lines, unlines lines, err, s.afterScan bufferSize⟩

/-! ## The command -/

/-- `-N` becomes `-n N`. -/
def cleanArgs : List Bytes → List Bytes
  | [] => []
  | a :: args =>
    if 2 ≤ a.length ∧ a[0]? = some 45 ∧ (a[1]?).any isDigit then str "-n" :: a.drop 1 ::
      cleanArgs args
    else a :: cleanArgs args

structure Options where
  json : Bool
  follow : Bool
  linesCount : Int
  bytesCount : Int
  fromStart : Bool
  readers : List Bytes

/-- A count: whether it is from the start, and the number, or the message for one of its kind. -/
def parseCount (kind s : Bytes) : Except Bytes (Bool × Int) :=
  let fromStart := hasPrefix s (str "+")
  let digits := if fromStart then s.drop 1 else s
  let (n, ok) := atoi digits
  if !ok || n < 0
    then .error (str "tail: illegal " ++ kind ++ str " count -- " ++ digits ++ str "\n")
  else .ok (fromStart, n)

/-- The line count and the operands: an operand that begins with `+` is a count. -/
def countOperand (flags : ParseResult) : Bytes × List Bytes :=
  match flags.positional with
  | [] => (flags.get (str "n"), [])
  | p :: rest => if hasPrefix p (str "+") then (p, rest) else (flags.get (str "n"), p :: rest)

def options (flags : ParseResult) : Except Bytes Options :=
  let (nStr, positional) := countOperand flags
  let cStr := flags.get (str "c")
  let readers := if positional = [] then [str "-"] else positional
  if cStr ≠ [] then
    match parseCount (str "byte") cStr with
    | .error msg => .error msg
    | .ok (fromStart, n) =>
      .ok ⟨flags.has (str "json"), flags.has (str "f"), 10, n, fromStart, readers⟩
  else if nStr ≠ [] then
    match parseCount (str "line") nStr with
    | .error msg => .error msg
    | .ok (fromStart, n) =>
      .ok ⟨flags.has (str "json"), flags.has (str "f"), n, 0, fromStart, readers⟩
  else .ok ⟨flags.has (str "json"), flags.has (str "f"), 10, 0, false, readers⟩

structure Progress where
  stdout : List (Write (List Bytes))
  stderr : List (Write (List Bytes))
  exitCode : Nat
  allLines : List Bytes
  stdin : ByteStream

/-- The line above the lines of an operand, if there are several. -/
def header (o : Options) (i : Nat) (path : Bytes) : List (Write (List Bytes)) :=
  if o.readers.length > 1 && !o.json then
    [.text ((if i > 0 then str "\n" else []) ++ str "==> " ++
      (if path = str "-" then str "standard input" else path) ++ str " <==\n")]
  else []

def readOne (o : Options) (p : Progress) (path : Bytes) (s : ByteStream) : Progress :=
  let ran := run s o.linesCount o.bytesCount o.fromStart
  { stdout := if o.json then p.stdout else p.stdout ++ [.text ran.printed]
    stderr := p.stderr ++ (ran.err.toList.map fun msg => .text (str "tail: " ++ msg ++ str "\n"))
    exitCode := if ran.err.isSome then 1 else p.exitCode
    allLines := if o.json then p.allLines ++ ran.lines else p.allLines
    stdin := if path = str "-" then ran.rest else p.stdin }

def Progress.begin (o : Options) (i : Nat) (path : Bytes) (p : Progress) : Progress :=
  { p with stdout := p.stdout ++ header o i path }

/-- An operand that cannot be opened. -/
def Progress.missing (path msg : Bytes) (p : Progress) : Progress :=
  { p with
    stderr := p.stderr ++ [.text (str "tail: " ++ path ++ str ": " ++ msg ++ str "\n")]
    exitCode := 1 }

def Progress.finish (o : Options) (p : Progress) : Outcome (List Bytes) :=
  ⟨p.stdout ++ (if o.json then render (str "tail") p.allLines true [] else []), p.stderr,
    .code p.exitCode⟩

/-- The loop over the operands, from the one of index `i` on. -/
def loop (o : Options) (openFile : Bytes → Except Bytes ByteStream) :
    (i : Nat) → List Bytes → Progress → Outcome (List Bytes)
  | _, [], p => p.finish o
  | i, path :: paths, p =>
    if path = str "-" then
      loop o openFile (i + 1) paths (readOne o (p.begin o i path) path p.stdin)
    else
      match openFile path with
      | .error msg => loop o openFile (i + 1) paths ((p.begin o i path).missing path msg)
      | .ok s =>
        let p := readOne o (p.begin o i path) path s
        if o.follow then ⟨p.stdout, p.stderr, .forever⟩ else loop o openFile (i + 1) paths p

/-- The command. The reader `stdin` that it is given is not used. -/
def runCommand (args : List Bytes) (_stdin : ByteStream) (host : Host) : Outcome (List Bytes) :=
  match parseFlags (cleanArgs args) spec with
  | .error e => renderFlagError (str "tail") (cleanArgs args) e 2
  | .ok flags =>
    match options flags with
    | .error msg => ⟨[], [.text msg], .code 2⟩
    | .ok o => loop o host.openFile 0 o.readers ⟨[], [], 0, [], host.osStdin⟩

/-! ## One operand -/

section

theorem loop_dash (h : path = str "-") :
    loop o openFile i (path :: paths) p =
      loop o openFile (i + 1) paths (readOne o (p.begin o i path) path p.stdin) := by
  rw [loop, if_pos h]

theorem loop_missing (h : path ≠ str "-") (ho : openFile path = .error msg) :
    loop o openFile i (path :: paths) p =
      loop o openFile (i + 1) paths ((p.begin o i path).missing path msg) := by
  rw [loop, if_neg h, ho]

theorem loop_follow (h : path ≠ str "-") (ho : openFile path = .ok s) (hf : o.follow = true) :
    loop o openFile i (path :: paths) p = ⟨(readOne o (p.begin o i path) path s).stdout,
      (readOne o (p.begin o i path) path s).stderr, .forever⟩ := by
  rw [loop, if_neg h, ho]
  simp [hf]

theorem loop_file (h : path ≠ str "-") (ho : openFile path = .ok s) (hf : o.follow = false) :
    loop o openFile i (path :: paths) p =
      loop o openFile (i + 1) paths (readOne o (p.begin o i path) path s) := by
  rw [loop, if_neg h, ho]
  simp [hf]

end

/-! ## Lines from the start -/

theorem skipLines_eq (skip : Nat) (tokens : List Bytes) (ln : Nat) :
    skipLines skip ln tokens = tokens.drop (skip - ln) := by
  induction tokens generalizing ln with
  | nil => simp [skipLines]
  | cons line rest ih =>
    have hr := ih (ln + 1)
    push_cast at hr
    rw [skipLines, hr]
    by_cases hs : (ln : Int) ≥ skip
    · rw [if_pos hs, show skip - ln = 0 by omega, show skip - (ln + 1) = 0 by omega]
      rfl
    · rw [if_neg hs, show skip - ln = (skip - (ln + 1)) + 1 by omega]
      rfl

/-- **The lines from one of them on.** -/
theorem run_printed (s : ByteStream) (k : Nat) :
    (run s ((k + 1 : Nat) : Int) 0 true).printed = unlines ((s.scan bufferSize).1.drop k) := by
  have hs : ((k + 1 : Nat) : Int) - 1 = k := by omega
  have hl := skipLines_eq k (s.scan bufferSize).1 0
  show unlines (skipLines (if ((k + 1 : Nat) : Int) - 1 < 0 then 0 else ((k + 1 : Nat) : Int) - 1) 0
    (s.scan bufferSize).1) = _
  rw [hs]
  exact congrArg unlines hl

def output (nStr : Bytes) (s : ByteStream) : Bytes :=
  match parseCount (str "line") nStr with
  | .error _ => []
  | .ok (fromStart, n) => (run s n 0 fromStart).printed

end GoPosix.Tail
