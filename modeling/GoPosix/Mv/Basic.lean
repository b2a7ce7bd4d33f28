import GoPosix.Lib.Filepath
import GoPosix.Lib.Runtime
import GoPosix.Lib.Vfs.Kept

/-!
# `mv`

The model of `moveFile` and `Run` in `pkg/mv`. A file is moved by a rename; after any failure of
the rename it is copied and removed. The mode of the new file is left out.
-/

namespace GoPosix.Mv

open Slice Bytes Vfs Filepath

def fstat : Sys (Except Errno Unit) := call fun os => (.ok (), os)

/-- What `moveFile` returns: an error or none. It panics if `Stat` fails: the mode is read from a
nil interface. -/
abbrev Outcome := Exec (Except Errno Unit)

/-- The copy of an open file into a file that was opened for it, and the removal. -/
def copyThenRemove (input out : Handle) (src : Bytes) : Sys (Except Errno Unit) := do
  match ← copy out input with
  | .error e => pure (.error e)
  | .ok () => remove src

/-- The part of `moveFile` behind a failed rename. -/
def moveByCopy (src dst : Bytes) : Sys Outcome := do
  match ← openRead src with
  | .error e => pure (.ok (.error e))
  | .ok input =>
    match ← fstat with
    | .error _ => pure (.error .nil)
    | .ok () =>
      match ← openWrite true dst with
      | .error e => pure (.ok (.error e))
      | .ok out => do
        let r ← copyThenRemove input out src
        pure (.ok r)

def moveFile (src dst : Bytes) : Sys Outcome := do
  match ← rename src dst with
  | .ok () => pure (.ok (.ok ()))
  | .error _ => moveByCopy src dst

structure MoveRecord where
  src : Bytes
  target : Bytes
  deriving DecidableEq, Repr

/-- The loop of `Run`: the moves that were made, and the error that ended it. -/
def runLoop (dst : Bytes) (dstIsDir : Bool) :
    (moved : List MoveRecord) → List Bytes → Sys (Exec (List MoveRecord × Option Errno))
  | moved, [] => pure (.ok (moved, none))
  | moved, src :: srcs => do
    let target := if dstIsDir then join [dst, base src] else dst
    match ← moveFile src target with
    | .error fault => pure (.error fault)
    | .ok (.error e) => pure (.ok (moved, some e))
    | .ok (.ok ()) => runLoop dst dstIsDir (moved ++ [⟨src, target⟩]) srcs

def run (srcs : List Bytes) (dst : Bytes) : Sys (Exec (List MoveRecord × Option Errno)) := do
  let there ← stat true dst
  runLoop dst (there matches .ok .dir) [] srcs

end GoPosix.Mv
