import GoPosix.Lib.Filepath
import GoPosix.Lib.Text
import GoPosix.Lib.Vfs.Calls

/-!
# `unzip`

The extraction loop of `run` in `pkg/unzip`. A member is what package `archive/zip` shows of it: its
name, whether it is a directory, and what opening it and reading it to the end yield. Listing and
testing an archive, and the messages, are left out.
-/

namespace GoPosix.Unzip

open Bytes Vfs Filepath

/-- What reading a member yields: its data, up to an error in the compressed stream. -/
structure Stream where
  data : Bytes
  err : Option Bytes := none
  deriving DecidableEq, Repr

structure Member where
  name : Bytes
  isDir : Bool
  opened : Except Bytes Stream
  deriving Repr

/-- The options of the loop, and the members that were asked for. -/
structure Options where
  destDir : Bytes
  overwriteMode : Bool := false
  stdoutMode : Bool := false
  filters : List Bytes := []

inductive UnzipError where
  | archive (err : Bytes)
  | traversal (name : Bytes)
  | system (e : Errno)
  deriving DecidableEq, Repr

/-- `destPath`: a leading slash of the name is stripped. -/
def destPath (destDir name : Bytes) : Bytes :=
  if hasPrefix name (str "/") then clean (join [destDir, name.drop 1])
  else clean (join [destDir, name])

/-- The guard against directory traversal. -/
def allowed (destDir name : Bytes) : Bool := hasPrefix (destPath destDir name) destDir

def copyStream (out : Handle) (rc : Stream) : Sys (Except UnzipError Unit) := do
  match ← (if rc.data = [] then pure (.ok ()) else write out rc.data) with
  | .error e => pure (.error (.system e))
  | .ok () => match rc.err with
    | some err => pure (.error (.archive err))
    | none => pure (.ok ())

def makeDir (path : Bytes) : Sys (Except UnzipError Unit) := do
  match ← mkdirAll path with
  | .error e => pure (.error (.system e))
  | .ok () => pure (.ok ())

/-- The member is written to `path`, unless it is there already. -/
def writeMember (overwriteMode : Bool) (path : Bytes) (rc : Stream) :
    Sys (Except UnzipError Unit) := do
  match ← mkdirAll (dir path) with
  | .error e => pure (.error (.system e))
  | .ok () => do
    let there ← stat true path
    if there.toBool && !overwriteMode then pure (.ok ())
    else
      match ← openWrite true path with
      | .error e => pure (.error (.system e))
      | .ok out => copyStream out rc

def extract (opts : Options) (f : Member) : Sys (Except UnzipError Unit) :=
  match f.opened with
  | .error err => pure (.error (.archive err))
  | .ok rc =>
    if opts.stdoutMode then
      pure (match rc.err with
        | some err => .error (.archive err)
        | none => .ok ())
    else if allowed opts.destDir f.name then
      if f.isDir then makeDir (destPath opts.destDir f.name)
      else writeMember opts.overwriteMode (destPath opts.destDir f.name) rc
    else pure (.error (.traversal f.name))

def shouldExtract (opts : Options) (name : Bytes) : Bool :=
  opts.filters = [] || name ∈ opts.filters

/-- The loop: the members with their errors, and the exit code. -/
def extractAll (opts : Options) : List Member → Sys (List (Bytes × Option UnzipError) × Nat)
  | [] => pure ([], 0)
  | f :: fs =>
    if shouldExtract opts f.name then do
      match ← extract opts f with
      | .ok () => do
        let (results, exitCode) ← extractAll opts fs
        pure ((f.name, none) :: results, exitCode)
      | .error e => do
        let (results, _) ← extractAll opts fs
        pure ((f.name, some e) :: results, 1)
    else extractAll opts fs

end GoPosix.Unzip
