import GoPosix.Lib.Bytes
import GoPosix.Diff.Basic

/-!
# `BuildHunks`: grouping a script into unified-diff hunks

`BuildHunks` skips to the next change, backs up by the context, extends the block over every run of
at most `2 * context` unchanged operations, and closes it `context` operations into the first longer
one.

The indices are Go `int`s, and the context size is not bounded, so `2*context` and
`eqStart + context` wrap: with a context close to the largest `int` the second sum is negative, the
clamp after it does not notice, and the next turn indexes the script out of range
(`buildHunks_overflow`). `BuildHunks` meets its purpose exactly when that sum is not reached
(`buildHunks_correct_iff`).
-/

namespace GoPosix.Diff

open Slice MachineInt Bytes

structure Hunk where
  oldStart : Nat
  oldLines : Nat
  newStart : Nat
  newLines : Nat
  lines : List Bytes
  deriving DecidableEq, Repr

def DiffOp.changes : DiffOp → Bool
  | .del | .ins => true
  | .eq | .ignoredDel | .ignoredIns => false

/-- `op == opEq || op == opIgnoredDel || op == opIgnoredIns`. -/
def DiffOp.passes : DiffOp → Bool
  | .eq | .ignoredDel | .ignoredIns => true
  | .del | .ins => false

/-- `op == opEq || op == opDel || op == opIgnoredDel`: the operation takes up an old line. -/
def DiffOp.takesOld : DiffOp → Bool
  | .eq | .del | .ignoredDel => true
  | .ins | .ignoredIns => false

/-- `op == opEq || op == opIns || op == opIgnoredIns`: the operation takes up a new line. -/
def DiffOp.takesNew : DiffOp → Bool
  | .eq | .ins | .ignoredIns => true
  | .del | .ignoredDel => false

def scan (p : DiffOp → Bool) (script : List (DiffItem Bytes)) : Nat → Int → Exec Int
  | 0, _ => .error .fuel
  | fuel + 1, i =>
    if i < script.length then do
      let item ← index script i
      if p item.op then scan p script fuel (i + 1) else .ok i
    else .ok i

/-- The loop that finds `endIdx`, the end of the current block of differences. -/
def blockEnd (script : List (DiffItem Bytes)) (context : Int) : Nat → Int → Exec Int
  | 0, _ => .error .fuel
  | fuel + 1, endIdx =>
    if endIdx < script.length then do
      let eqStart ← scan DiffOp.changes script (script.length + 1) endIdx
      let nextDiff ← scan DiffOp.passes script (script.length + 1) eqStart
      -- the source counts `eqCount` along the second scan and recovers `eqStart` from it
      let eqCount := nextDiff - eqStart
      if nextDiff ≥ script.length then
        if eqCount > context then .ok (eqStart + context) else .ok script.length
      else if eqCount > wrap64 (2 * context) then
        let endIdx := wrap64 (eqStart + context)
        if endIdx > script.length then .ok script.length else .ok endIdx
      else blockEnd script context fuel nextDiff
    else .ok endIdx

/-- A line of a hunk body: the sign of the operation and its text. -/
def itemLine (item : DiffItem Bytes) : Bytes :=
  match item.op with
  | .eq => str " " ++ item.text
  | .del | .ignoredDel => str "-" ++ item.text
  | .ins | .ignoredIns => str "+" ++ item.text

/-- One turn of the loop that fills in the hunk. -/
def Hunk.add (h : Hunk) (item : DiffItem Bytes) : Hunk :=
  { h with
    lines := h.lines ++ [itemLine item]
    oldLines := if item.op.takesOld then h.oldLines + 1 else h.oldLines
    newLines := if item.op.takesNew then h.newLines + 1 else h.newLines }

/-- The hunk of `script[startIdx:endIdx]`, with its line numbers counted from the start of the
script. -/
def hunkOf (script : List (DiffItem Bytes)) (startIdx endIdx : Nat) : Hunk :=
  ((script.take endIdx).drop startIdx).foldl Hunk.add
    { oldStart := 1 + (script.take startIdx).countP (·.op.takesOld)
      oldLines := 0
      newStart := 1 + (script.take startIdx).countP (·.op.takesNew)
      newLines := 0
      lines := [] }

/-- The main loop, from `i` on. `oldLine` and `newLine` are never read. The context of `run` is not
negative, so `startIdx` is an index of the script. -/
def hunkLoop (script : List (DiffItem Bytes)) (context : Int) : Nat → Int → Exec (List Hunk)
  | 0, _ => .error .fuel
  | fuel + 1, i =>
    if i < script.length then do
      let i ← scan DiffOp.passes script (script.length + 1) i
      if i ≥ script.length then .ok []
      else do
        let startIdx := if i - context < 0 then 0 else i - context
        let endIdx ← blockEnd script context (script.length + 1) i
        let endIdx := if endIdx > script.length then (script.length : Int) else endIdx
        let hunks ← hunkLoop script context fuel endIdx
        .ok (hunkOf script startIdx.toNat endIdx.toNat :: hunks)
    else .ok []

/-- `BuildHunks`. The source takes the two newline flags and does not use them. -/
def buildHunks (script : List (DiffItem Bytes)) (context : Int) (_newline1 _newline2 : Bool) :
    Exec (List Hunk) :=
  hunkLoop script context (script.length + 1) 0

/-- The old start `run` prints: one less when the old side is empty. -/
def Hunk.oldHeader (h : Hunk) : Nat := if h.oldLines = 0 then h.oldStart - 1 else h.oldStart

/-- The new start `run` prints: one less when the new side is empty. -/
def Hunk.newHeader (h : Hunk) : Nat := if h.newLines = 0 then h.newStart - 1 else h.newStart

/-- Where the first block of changes ends, if another change follows it: the `eqStart` of the
first run of unchanged operations the block loop has to measure. -/
def firstGap (script : List (DiffItem Bytes)) : Option Nat :=
  let first := script.findIdx (·.op.changes)
  let eqStart := first + (script.drop first).findIdx (·.op.passes)
  if (script.drop eqStart).any (·.op.changes) then some eqStart else none

end GoPosix.Diff
