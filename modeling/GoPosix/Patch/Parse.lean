import GoPosix.Patch.Basic

/-!
# `ParsePatch`: reading a unified diff

The parser goes over the scanned lines once, with the file section and the hunk it is filling. It
does not count the lines a hunk header announces: a line belongs to the hunk as long as it looks
like a hunk line, and a line that looks like a header is one.
-/

namespace GoPosix.Patch

open Slice Bytes

/-- A range of a hunk header: `start,count`, where the count may be left out. -/
def parseRange (part : Bytes) : Int × Int :=
  match indexByte part 44 with
  | some idx => ((atoi (part.take idx)).1, (atoi (part.drop (idx + 1))).1)
  | none => ((atoi part).1, 1)

def parseHunkHeader (line : Bytes) : Option Hunk :=
  let line := trimPrefix line (str "@@ ")
  let line := match indexOf line (str " @@") with
    | some idx => line.take idx
    | none => line
  match fields line with
  | oldPart :: newPart :: _ =>
    let old := parseRange (trimPrefix oldPart (str "-"))
    let new := parseRange (trimPrefix newPart (str "+"))
    some { oldStart := old.1, oldCount := old.2, newStart := new.1, newCount := new.2, lines := [] }
  | _ => none

structure ParseState where
  patches : List Patch := []
  current : Option Patch := none
  currentHunk : Option Hunk := none
  inHunk : Bool := false
  deriving DecidableEq, Repr

/-- The marker `diff` writes behind a last line without a newline. -/
def noNewline : Bytes := str "\\ No newline at end of file"

/-- `current.Hunks = append(current.Hunks, *currentHunk)`, if there is a current hunk. -/
def flushHunk (currentHunk : Option Hunk) (current : Patch) : Patch :=
  { current with hunks := current.hunks ++ currentHunk.toList }

def ParseState.step (s : ParseState) (line : Bytes) : ParseState :=
  if hasPrefix line (str "--- ") then
    { patches := s.patches ++ (s.current.map (flushHunk s.currentHunk)).toList
      current := some { oldFile := line.drop 4, newFile := [], hunks := [] }
      currentHunk := if s.current.isSome then none else s.currentHunk
      inHunk := false }
  else if hasPrefix line (str "+++ ") then
    { s with current := s.current.map fun p => { p with newFile := line.drop 4 } }
  else if hasPrefix line (str "@@ ") then
    match s.current with
    | none => s
    | some current =>
      match parseHunkHeader line with
      | some h =>
        { s with current := some (flushHunk s.currentHunk current), currentHunk := some h, inHunk :=
          true }
      -- the hunk that was closed stays the current one
      | none => { s with current := some (flushHunk s.currentHunk current) }
  else match s.inHunk, s.currentHunk with
    | true, some h =>
      if line = [] || hasPrefix line (str " ") || hasPrefix line (str "+") ||
          hasPrefix line (str "-") || line = noNewline then
        { s with currentHunk := some { h with lines := h.lines ++ [line] } }
      else { s with inHunk := false }
    | _, _ => s

def ParseState.finish (s : ParseState) : List Patch :=
  s.patches ++ (s.current.map (flushHunk s.currentHunk)).toList

/-- `ParsePatch`: the file sections, and whether the scanner reached the end of the input. -/
def parsePatch (data : Bytes) : List Patch × Bool :=
  ((scanLines data).1.foldl ParseState.step {} |>.finish, (scanLines data).2)

end GoPosix.Patch
