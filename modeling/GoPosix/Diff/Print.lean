import GoPosix.Lib.Strconv
import GoPosix.Diff.Generate

/-!
# `diff`: the unified output

The text of a unified diff, from its hunks.
-/

namespace GoPosix.Diff

open Slice Bytes

/-- A range of a hunk header: the count is left out if it is 1, and an empty side is named by the
line before it. -/
def rangeText (start count : Nat) : Bytes :=
  if count = 1 then itoa start
  else if count = 0 then itoa (start - 1) ++ str ",0"
  else itoa start ++ str "," ++ itoa count

def headerLine (h : Hunk) : Bytes :=
  str "@@ -" ++ rangeText h.oldStart h.oldLines ++ str " +" ++ rangeText h.newStart h.newLines ++
    str " @@"

/-- The lines of a hunk body as they are printed. The marker follows the last line if it is deleted
and the old file lacks its final newline, or inserted and the new file does. -/
def bodyText (newline1 newline2 : Bool) : List Bytes → Bytes
  | [] => []
  | [l] =>
    l ++ str "\n" ++
      if (l.head? = some 45 && !newline1) || (l.head? = some 43 && !newline2)
      then str "\\ No newline at end of file\n" else []
  | l :: l' :: ls => l ++ str "\n" ++ bodyText newline1 newline2 (l' :: ls)

def hunkText (newline1 newline2 : Bool) (h : Hunk) : Bytes :=
  headerLine h ++ str "\n" ++ bodyText newline1 newline2 h.lines

def unifiedText (file1 file2 : Bytes) (newline1 newline2 : Bool) (hunks : List Hunk) : Bytes :=
  str "--- " ++ file1 ++ str "\n+++ " ++ file2 ++ str "\n" ++
    (hunks.map (hunkText newline1 newline2)).flatten

/-- The options of `diff` that matter once the files are read. -/
structure Options where
  unified : Bool := false
  contextLines : Int := 3
  brief : Bool := false
  ignoreSpace : Bool := false
  ignoreAllSpace : Bool := false
  ignoreBlankLines : Bool := false
  deriving DecidableEq, Repr

end GoPosix.Diff
