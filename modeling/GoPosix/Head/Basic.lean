import GoPosix.Lib.Streams
import GoPosix.Lib.Strconv

/-!
# head

`Run` and `runNegative` of `pkg/head/head.go`, and what `headRun` makes of the value of `-n`. The
scanner has a buffer of ten megabytes.
-/

namespace GoPosix.Head

open Bytes

def bufferSize : Nat := 10 * 1024 * 1024

/-- The lines of `Run`, what it prints, and its error. -/
structure Ran where
  lines : List Bytes
  printed : Bytes
  err : Option Bytes

/-- The loop of `Run`: the lines it takes, and whether it leaves the loop with a line in its
hands. -/
def takeLines (linesCount : Int) : (count : Int) → List Bytes → List Bytes × Bool
  | _, [] => ([], false)
  | count, line :: rest =>
    if count ≥ linesCount then ([], true)
    else (line :: (takeLines linesCount (count + 1) rest).1,
      (takeLines linesCount (count + 1) rest).2)

def run (s : ByteStream) (linesCount : Int) : Ran :=
  let (tokens, err) := s.scan bufferSize
  let (lines, stopped) := takeLines linesCount 0 tokens
  ⟨lines, unlines lines, if stopped then none else err⟩

/-- All lines but the last ones. -/
def runNegative (s : ByteStream) (skipLast : Int) : Ran :=
  let (all, err) := s.scan bufferSize
  match err with
  | some _ => ⟨all, [], err⟩
  | none =>
    let limit := if (all.length : Int) - skipLast < 0 then 0 else (all.length : Int) - skipLast
    ⟨all.take limit.toNat, unlines (all.take limit.toNat), none⟩

/-- The value of `-n`: the number, and whether the lines are counted from the end; or the
message. -/
def lineCount (nStr : Bytes) : Except Bytes (Int × Bool) :=
  if nStr = [] then .ok (10, false)
  else if hasPrefix nStr (str "-") then
    let (n, ok) := atoi (nStr.drop 1)
    if !ok then .error (str "head: illegal line count -- " ++ nStr ++ str "\n") else .ok (n, true)
  else
    let (n, ok) := atoi nStr
    if !ok || n < 0 then .error (str "head: illegal line count -- " ++ nStr ++ str "\n")
      else .ok (n, false)

def output (nStr : Bytes) (s : ByteStream) : Bytes :=
  match lineCount nStr with
  | .error _ => []
  | .ok (n, true) => (runNegative s n).printed
  | .ok (n, false) => (run s n).printed

theorem takeLines_fst (k : Nat) (tokens : List Bytes) (c : Nat) :
    (takeLines ((c + k : Nat) : Int) c tokens).1 = tokens.take k := by
  induction tokens generalizing k c with
  | nil => simp [takeLines]
  | cons line rest ih =>
    rw [takeLines]
    cases k with
    | zero => rw [if_pos (by omega), List.take_zero]
    | succ k =>
      have hr := ih k (c + 1)
      rw [show ((c + 1 + k : Nat) : Int) = ((c + (k + 1) : Nat) : Int) by omega,
        show ((c + 1 : Nat) : Int) = (c : Int) + 1 by omega] at hr
      rw [if_neg (by omega), List.take_succ_cons, hr]

/-- **The first lines.** -/
theorem run_printed (s : ByteStream) (k : Nat) :
    (run s k).printed = unlines ((s.scan bufferSize).1.take k) := by
  have hl := takeLines_fst k (s.scan bufferSize).1 0
  rw [Nat.zero_add] at hl
  rw [← hl]
  rfl

end GoPosix.Head
