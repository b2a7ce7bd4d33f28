import GoPosix.Lib.Runtime
import GoPosix.Lib.Strconv
import GoPosix.Lib.Text

/-!
# `patch`: applying hunks to lines

`applyHunk` with its position search, the check for a hunk that is there already, and reversal. The
numbers of a hunk header are whatever `Atoi` made of the patch text, so they may be negative or as
large as an `int` gets. The position arithmetic wraps, and an index that leaves the slice panics;
both are kept (`Exec`).
-/

namespace GoPosix.Patch

open Slice MachineInt Bytes

structure Hunk where
  oldStart : Int
  oldCount : Int
  newStart : Int
  newCount : Int
  lines : List Bytes
  deriving DecidableEq, Repr

set_option linter.dupNamespace false in
structure Patch where
  oldFile : Bytes
  newFile : Bytes
  hunks : List Hunk
  deriving DecidableEq, Repr

def isDel (l : Bytes) : Bool := hasPrefix l (str "-")

def isAdd (l : Bytes) : Bool := hasPrefix l (str "+")

/-- A context line. An empty one stands for an empty line of the file. -/
def isContext (l : Bytes) : Bool := l = [] || hasPrefix l (str " ")

def reverseHunk (h : Hunk) : Hunk where
  oldStart := h.newStart
  oldCount := h.newCount
  newStart := h.oldStart
  newCount := h.oldCount
  lines := h.lines.map fun l =>
    if isAdd l then str "-" ++ l.drop 1
    else if isDel l then str "+" ++ l.drop 1
    else l

/-- The loop of `verifyHunk`, at offset `off` of the file. -/
def verifyLines (lines : List Bytes) : (off : Int) → List Bytes → Exec Bool
  | _, [] => .ok true
  | off, l :: ls =>
    if isDel l then
      if off < lines.length then do
        let line ← index lines off
        if line ≠ l.drop 1 then .ok false else verifyLines lines (wrap64 (off + 1)) ls
      else verifyLines lines (wrap64 (off + 1)) ls
    else if isContext l then
      if off < lines.length then do
        let line ← index lines off
        if line ≠ l.drop 1 then .ok false else verifyLines lines (wrap64 (off + 1)) ls
      else if l.drop 1 ≠ [] then .ok false
      else verifyLines lines (wrap64 (off + 1)) ls
    else verifyLines lines off ls

def verifyHunk (lines : List Bytes) (h : Hunk) (pos : Int) : Exec Bool :=
  if pos < 0 then .ok false else verifyLines lines pos h.lines

/-- The lines a hunk puts in place of its old side. -/
def newSide (h : Hunk) : List Bytes :=
  (h.lines.filter fun l => isAdd l || isContext l).map (·.drop 1)

/-- The lines `applyAt` keeps before the hunk. -/
def linesBefore (lines : List Bytes) (pos : Int) : Exec (List Bytes) :=
  if pos < lines.length then upTo lines pos else .ok lines

/-- The lines `applyAt` keeps behind the hunk. -/
def linesAfter (lines : List Bytes) (afterPos : Int) : Exec (List Bytes) :=
  if afterPos < lines.length then startingAt lines afterPos else .ok []

def applyAt (lines : List Bytes) (h : Hunk) (pos : Int) : Exec (List Bytes) := do
  let before ← linesBefore lines pos
  let after ← linesAfter lines (wrap64 (pos + h.oldCount))
  .ok (before ++ newSide h ++ after)

/-- The result `alreadyApplied` looks for. Every line counts that is neither deleted nor empty. -/
def expectedLines (h : Hunk) : List Bytes :=
  (h.lines.filter fun l => isAdd l || (!isDel l && l ≠ [])).map (·.drop 1)

/-- The inner loop of `alreadyApplied`: do the lines from `pos` on match? -/
def matchLines (lines : List Bytes) : (pos : Int) → List Bytes → Exec Bool
  | _, [] => .ok true
  | pos, e :: es => do
    let line ← index lines pos
    if line ≠ e then .ok false else matchLines lines (wrap64 (pos + 1)) es

def searchApplied (lines expected : List Bytes) (stop : Int) : Nat → (pos : Int) → Exec Bool
  | 0, _ => .error .fuel
  | fuel + 1, pos =>
    if wrap64 (pos + expected.length) ≤ stop ∧ wrap64 (pos + expected.length) ≤ lines.length then do
      if ← matchLines lines pos expected then .ok true
      else searchApplied lines expected stop fuel (wrap64 (pos + 1))
    else .ok false

/-- Where a hunk is looked for first: `OldStart-1`, or 0 if that is negative. -/
def startPos (h : Hunk) : Int :=
  let pos := wrap64 (h.oldStart - 1)
  if pos < 0 then 0 else pos

/-- `alreadyApplied`. The search ends with the lines, so one turn for each of them suffices. -/
def alreadyApplied (lines : List Bytes) (h : Hunk) : Exec Bool :=
  let expected := expectedLines h
  if expected.length = 0 then .ok false
  else
    let start := startPos h
    let stop := wrap64 (start + expected.length + 10)
    let stop := if stop > lines.length then (lines.length : Int) else stop
    searchApplied lines expected stop (lines.length + 1) start

def tryAt (lines : List Bytes) (h : Hunk) (fits : Prop) [Decidable fits] (pos : Int) :
    Exec (Option (List Bytes)) :=
  if fits then do
    if ← verifyHunk lines h pos then (applyAt lines h pos).map some else .ok none
  else .ok none

/-- The loop that slides the hunk up and down, from `offset` on, for `n` more turns. -/
def slideHunk (lines : List Bytes) (h : Hunk) (pos : Int) : (n : Nat) → (offset : Int) →
    Exec (Option (List Bytes))
  | 0, _ => .ok none
  | n + 1, offset => do
    match ← tryAt lines h (pos - offset ≥ 0) (pos - offset) with
    | some lines' => .ok (some lines')
    | none =>
      match ← tryAt lines h (wrap64 (pos + offset + h.oldCount) ≤ lines.length)
          (wrap64 (pos + offset)) with
      | some lines' => .ok (some lines')
      | none => slideHunk lines h pos n (offset + 1)

def applyHunk (lines : List Bytes) (h : Hunk) (ignoreApplied : Bool) : Exec (List Bytes × Bool) :=
  if h.oldCount = 0 then (applyAt lines h 0).map (·, true)
  else do
    if ← alreadyApplied lines h then .ok (lines, ignoreApplied)
    else
      match ← tryAt lines h (wrap64 (startPos h + h.oldCount) ≤ lines.length ∨ h.oldCount = 0)
          (startPos h) with
      | some lines' => .ok (lines', true)
      | none =>
        match ← slideHunk lines h (startPos h) lines.length 1 with
        | some lines' => .ok (lines', true)
        | none => do
          -- this check decides between two equal results, but it can panic
          let _ ← alreadyApplied lines (reverseHunk h)
          .ok (lines, false)

end GoPosix.Patch
