import Mathlib.Data.List.Dedup
import GoPosix.Common.Render
import GoPosix.Diff.Print
import GoPosix.Lib.Filepath
import GoPosix.Lib.Streams

/-!
# The command `diff`

`run` and `diffDirs` of `pkg/diff/diff.go`. Where one of two operands is `-` the command reads the
standard input of the process.
-/

namespace GoPosix.Diff

open Slice Bytes Common

def spec : FlagSpec where
  defs := [⟨str "u", str "unified", .bool⟩, ⟨str "U", str "unified-context", .value⟩,
    ⟨str "b", str "ignore-space-change", .bool⟩, ⟨str "w", str "ignore-all-space", .bool⟩,
    ⟨str "B", str "ignore-blank-lines", .bool⟩, ⟨str "q", str "brief", .bool⟩,
      ⟨str "r", str "recursive", .bool⟩,
    ⟨str "N", str "new-file", .bool⟩, ⟨[], str "json", .bool⟩]
  stopAtFirstNonFlag := false
  preProcess := none

structure DiffResult where
  files : List Bytes
  differ : Bool
  hunks : List Hunk

def optionsOf (flags : ParseResult) : Options where
  unified := flags.has (str "u") || flags.has (str "U")
  contextLines :=
    if flags.has (str "U") ∧ (atoi (flags.get (str "U"))).2 = true ∧
      0 ≤ (atoi (flags.get (str "U"))).1
    then (atoi (flags.get (str "U"))).1 else 3
  brief := flags.has (str "q")
  ignoreSpace := flags.has (str "b") || flags.has (str "w")
  ignoreAllSpace := flags.has (str "w")
  ignoreBlankLines := flags.has (str "B")

def endsLine (b : Bytes) : Bool := b = [] || b.getLast? = some newline

/-! ## Directories -/

def joinPreserving (dir rel : Bytes) : Bytes :=
  if hasSuffix dir (str "/") then dir ++ rel else dir ++ str "/" ++ rel

def diffContents (opts : Options) (dir1 dir2 rel b1 b2 : Bytes) : Exec (Bytes × Bool) := do
  let (differ, hunks) ← generateDiff b1 b2 opts.contextLines opts.ignoreSpace opts.ignoreAllSpace
    opts.ignoreBlankLines
  if differ then
    .ok (unifiedText (joinPreserving dir1 rel) (joinPreserving dir2 rel) (endsLine b1)
      (endsLine b2) hunks, true)
  else .ok ([], false)

def skippedText (dir rel : Bytes) : Bytes :=
  str "File " ++ joinPreserving dir rel ++
    str " is not a regular file or directory and was skipped\n"

def onlyInText (dir rel : Bytes) : Bytes := str "Only in " ++ dir ++ str ": " ++ rel ++ str "\n"

/-- One relative path: the text, and whether the exit code becomes 1. -/
def diffEntry (host : Host) (opts : Options) (treatNew : Bool) (dir1 dir2 rel : Bytes) :
    (p1 p2 : Option Bytes) → Exec (Bytes × Bool)
  | none, none => .ok ([], false)
  | some p1, none =>
    if host.lstat p1 = some false then
      .ok (if treatNew then skippedText dir1 rel else onlyInText dir1 rel, true)
    else if treatNew then diffContents opts dir1 dir2 rel (host.readAnyway p1) []
    else .ok (onlyInText dir1 rel, true)
  | none, some p2 =>
    if host.lstat p2 = some false then
      .ok (if treatNew then skippedText dir2 rel else onlyInText dir2 rel, true)
    else if treatNew then diffContents opts dir1 dir2 rel [] (host.readAnyway p2)
    else .ok (onlyInText dir2 rel, true)
  | some p1, some p2 =>
    if host.lstat p1 = some false then .ok (skippedText dir1 rel, true)
    else if host.lstat p2 = some false then .ok (skippedText dir2 rel, true)
    else diffContents opts dir1 dir2 rel (host.readAnyway p1) (host.readAnyway p2)

def diffEntries (host : Host) (opts : Options) (treatNew : Bool) (dir1 dir2 : Bytes) :
    List Bytes → (exitCode : Nat) → Exec (Bytes × Nat)
  | [], exitCode => .ok ([], exitCode)
  | rel :: rels, exitCode => do
    let (text, changed) ← diffEntry host opts treatNew dir1 dir2 rel ((host.walk dir1).lookup rel)
      ((host.walk dir2).lookup rel)
    let (more, exitCode) ← diffEntries host opts treatNew dir1 dir2 rels
      (if changed then 1 else exitCode)
    .ok (text ++ more, exitCode)

/-- The relative paths below two directories, in the order of the names. -/
def relPaths (host : Host) (dir1 dir2 : Bytes) : List Bytes :=
  (((host.walk dir1).map Prod.fst ++ (host.walk dir2).map Prod.fst).dedup).mergeSort
    fun a b => compare a b != .gt

def diffDirs (host : Host) (opts : Options) (treatNew : Bool) (dir1 dir2 : Bytes) :
    Outcome DiffResult :=
  match diffEntries host opts treatNew dir1 dir2 (relPaths host dir1 dir2) 0 with
  | .error _ => ⟨[], [], .crash⟩
  | .ok (text, exitCode) => ⟨[.text text], [], .code exitCode⟩

/-! ## Files -/

def readOperand (host : Host) (file : Bytes) : Except Bytes Bytes :=
  if file = str "-" then Host.readAll host.osStdin else host.readFile file

def ioError (jsonMode : Bool) (msg : Bytes) : Outcome DiffResult :=
  ⟨renderError (str "diff") 2 (str "IO") msg jsonMode,
    if jsonMode then [] else [.text (str "diff: " ++ msg ++ str "\n")], .code 2⟩

/-- What is printed of two files that differ. -/
def differText (opts : Options) (file1 file2 b1 b2 : Bytes) (hunks : List Hunk) : Bytes :=
  if opts.unified && !opts.brief then unifiedText file1 file2 (endsLine b1) (endsLine b2) hunks
  else str "Files " ++ file1 ++ str " and " ++ file2 ++ str " differ\n"

def diffFiles (opts : Options) (jsonMode : Bool) (file1 file2 b1 b2 : Bytes) : Outcome DiffResult :=
  match generateDiff b1 b2 opts.contextLines opts.ignoreSpace opts.ignoreAllSpace
      opts.ignoreBlankLines with
  | .error _ => ⟨[], [], .crash⟩
  | .ok (differ, hunks) =>
    ⟨render (str "diff") ⟨[file1, file2], differ, hunks⟩ jsonMode
        (if differ then [.text (differText opts file1 file2 b1 b2 hunks)] else []),
      [], .code (if differ then 1 else 0)⟩

def diffOperands (host : Host) (opts : Options) (jsonMode : Bool) (file1 file2 : Bytes) :
    Outcome DiffResult :=
  if file1 = file2 then ⟨render (str "diff") ⟨[file1, file2], false, []⟩ jsonMode [], [], .code 0⟩
  else
    match readOperand host file1 with
    | .error msg => ioError jsonMode msg
    | .ok b1 =>
      match readOperand host file2 with
      | .error msg => ioError jsonMode msg
      | .ok b2 => diffFiles opts jsonMode file1 file2 b1 b2

/-- What is compared with `-r`: two directories, or two files, one of which may stand in the
directory that is the other operand. -/
def targets (host : Host) (recursive : Bool) (file1 file2 : Bytes) : Bool × Bytes × Bytes :=
  if recursive then
    match host.stat file1, host.stat file2 with
    | some true, some true => (true, file1, file2)
    | some true, some false => (false, file1 ++ str "/" ++ Filepath.base file2, file2)
    | some false, some true => (false, file1, file2 ++ str "/" ++ Filepath.base file1)
    | _, _ => (false, file1, file2)
  else (false, file1, file2)

def runFiles (host : Host) (flags : ParseResult) (file1 file2 : Bytes) : Outcome DiffResult :=
  let t := targets host (flags.has (str "r")) file1 file2
  if t.1 then diffDirs host (optionsOf flags) (flags.has (str "N")) t.2.1 t.2.2
  else diffOperands host (optionsOf flags) (flags.has (str "json")) t.2.1 t.2.2

def runCommand (args : List Bytes) (_stdin : ByteStream) (host : Host) : Outcome DiffResult :=
  match parseFlags args spec with
  | .error e => renderFlagError (str "diff") args e 2
  | .ok flags =>
    match flags.positional with
    | [file1, file2] => runFiles host flags file1 file2
    | _ =>
      ⟨renderError (str "diff") 2 (str "USAGE") (str "missing operand") (flags.has (str "json")),
        if flags.has (str "json") then [] else [.text (str "diff: missing operand\n")], .code 2⟩

end GoPosix.Diff
