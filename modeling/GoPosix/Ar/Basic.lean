import GoPosix.Lib.Filepath
import GoPosix.Lib.Text

/-!
# ar: replacing and deleting members

`arReplace` and `arDelete` of `pkg/ar/ar.go`. An archive is its members in order, with their headers
and bodies. What an operation reads from outside and whether it can write are part of the operation.
The new archive is written to a temporary file that takes its place at the end.
-/

namespace GoPosix.Ar

open Bytes

/-- A member: its header and its body, which has the length that the header says. -/
structure Entry where
  name : Bytes
  modTime : Int
  uid : Int
  gid : Int
  mode : Int
  size : Nat
  data : Bytes
  sized : size = data.length

/-- An operand of `r`, with what `os.ReadFile` and `os.Stat` return for it. -/
structure Input where
  file : Bytes
  read : Except Bytes Bytes
  stat : Except Bytes (Int × Int)

/-- The archive file: there may be none. -/
abbrev Archive := Option (List Entry)

inductive Action
  | replace (files : List Input)
  | delete (toDelete : List Bytes)

structure Op where
  verbose : Bool
  /-- The archive file is there but cannot be read. -/
  archiveErr : Option Bytes
  /-- The new archive cannot be written or renamed. -/
  flushErr : Option Bytes
  action : Action

structure Result where
  archive : Archive
  stdout : Bytes
  stderr : Bytes
  exitCode : Nat

def message (err : Bytes) : Bytes := str "ar: " ++ err ++ str "\n"

def readArchive (archive : Archive) (err : Option Bytes) : Except Bytes (List Entry) :=
  match err with
  | some msg => .error msg
  | none => .ok (archive.getD [])

/-- The size of a member is set once more before it is written. -/
def Entry.resize (e : Entry) : Entry := { e with size := e.data.length, sized := rfl }

/-- `flushArchive`, behind what has been printed. -/
def flushArchive (archive : Archive) (entries : List Entry) (err : Option Bytes) (stdout : Bytes) :
    Result :=
  match err with
  | some msg => ⟨archive, stdout, message msg, 1⟩
  | none => ⟨some (entries.map Entry.resize), stdout, [], 0⟩

def makeSet (s : List Bytes) (name : Bytes) : Bool :=
  s.foldl (fun m v => Function.update (Function.update m (Filepath.base v) true) v true)
    (fun _ => false) name

/-- The loop of `arDelete` with `n` rounds to go: it reads at `i`, and moves what it keeps to the
front, at `k`. -/
def deleteLoop (verbose : Bool) (deleteSet : Bytes → Bool) :
    (n i k : Nat) → List Entry → Bytes → List Entry × Bytes
  | 0, _, k, entries, out => (entries.take k, out)
  | n + 1, i, k, entries, out =>
    match entries[i]? with
    | none => (entries.take k, out)
    | some e =>
      if deleteSet e.name then
        deleteLoop verbose deleteSet n (i + 1) k entries
          (if verbose then out ++ (str "d - " ++ e.name ++ str "\n") else out)
      else deleteLoop verbose deleteSet n (i + 1) (k + 1) (entries.set k e) out

def arDelete (archive : Archive) (op : Op) (toDelete : List Bytes) : Result :=
  if toDelete.length = 0 then ⟨archive, [], str "ar: no files to delete specified\n", 1⟩
  else
    match readArchive archive op.archiveErr with
    | .error msg => ⟨archive, [], message msg, 1⟩
    | .ok entries =>
      let (kept, out) := deleteLoop op.verbose (makeSet toDelete) entries.length 0 0 entries []
      flushArchive archive kept op.flushErr out

def buildIndex : (i : Nat) → List Entry → (Bytes → Option Nat) → Bytes → Option Nat
  | _, [], index => index
  | i, e :: entries, index => buildIndex (i + 1) entries (Function.update index e.name (some i))

def Input.entry (input : Input) (data : Bytes) (info : Int × Int) : Entry where
  name := Filepath.base input.file
  modTime := info.1
  uid := 0
  gid := 0
  mode := info.2
  size := data.length
  data := data
  sized := rfl

/-- The loop of `arReplace`, with what has been printed so far. An error comes with what was printed
before it. -/
def replaceLoop (verbose : Bool) :
    List Input → List Entry → (Bytes → Option Nat) → Bytes →
      Except (Bytes × Bytes) (List Entry × Bytes)
  | [], entries, _, out => .ok (entries, out)
  | input :: inputs, entries, index, out =>
    match input.read with
    | .error msg => .error (out, msg)
    | .ok data =>
      match input.stat with
      | .error msg => .error (out, msg)
      | .ok info =>
        let baseName := Filepath.base input.file
        let e := input.entry data info
        match index baseName with
        | some idx =>
          replaceLoop verbose inputs (entries.set idx e) index
            (if verbose then out ++ (str "r - " ++ baseName ++ str "\n") else out)
        | none =>
          replaceLoop verbose inputs (entries ++ [e])
            (Function.update index baseName (some entries.length))
            (if verbose then out ++ (str "a - " ++ baseName ++ str "\n") else out)

/-- What `arReplace` does behind its loop. -/
def finishReplace (archive : Archive) (flushErr : Option Bytes) :
    Except (Bytes × Bytes) (List Entry × Bytes) → Result
  | .error (out, msg) => ⟨archive, out, message msg, 1⟩
  | .ok (entries, out) => flushArchive archive entries flushErr out

def arReplace (archive : Archive) (op : Op) (files : List Input) : Result :=
  match readArchive archive op.archiveErr with
  | .error msg => ⟨archive, [], message msg, 1⟩
  | .ok entries =>
    finishReplace archive op.flushErr
      (replaceLoop op.verbose files entries (buildIndex 0 entries fun _ => none) [])

def Op.run (op : Op) (archive : Archive) : Result :=
  match op.action with
  | .replace files => arReplace archive op files
  | .delete toDelete => arDelete archive op toDelete

def runOps (archive : Archive) (ops : List Op) : Archive :=
  ops.foldl (fun a op => (op.run a).archive) archive

end GoPosix.Ar
