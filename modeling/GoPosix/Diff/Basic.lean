import GoPosix.Lib.Runtime

/-!
# `diff`: edit scripts and the `Diff` function

`pkg/diff/diff.go` compares two files as lists of lines. `Diff` runs the greedy search over
diagonals: round `d` extends, on every diagonal `k` with `-d ≤ k ≤ d` and the parity of `d`, the
furthest point reached in round `d - 1`; `v` holds the furthest `x` of each diagonal at offset
`maxD`, and `trace` a copy of `v` per round. The script is read off backwards.

Every slice access goes through `Slice.index` and `Slice.store`, so an index out of range is a fault
of the model.
-/

namespace GoPosix.Diff

open Slice

/-- `diffOp`. The ignored kinds are what `filterBlankLineChanges` turns a change into. -/
inductive DiffOp
  | eq
  | del
  | ins
  | ignoredDel
  | ignoredIns
  deriving DecidableEq, Repr

structure DiffItem (α : Type) where
  op : DiffOp
  text : α
  deriving DecidableEq, Repr

variable {α : Type}

/-! ## The search -/

/-- The snake: `for x < n && y < m && a[x] == b[y] { x++; y++ }`. -/
def slide [DecidableEq α] (a b : List α) : Nat → Int → Int → Exec (Int × Int)
  | 0, _, _ => .error .fuel
  | fuel + 1, x, y =>
    if x < a.length ∧ y < b.length then do
      let ax ← index a x
      let bY ← index b y
      if ax = bY then slide a b fuel (x + 1) (y + 1) else .ok (x, y)
    else .ok (x, y)

/-- `k == -d || (k != d && v[maxD+k-1] < v[maxD+k+1])`: diagonal `k` is entered from `k + 1`.
The two reads are only made when `k` is neither `-d` nor `d`. -/
def fromAbove (v : List Int) (maxD d k : Int) : Exec Bool :=
  if k = -d then .ok true
  else if k = d then .ok false
  else do
    let below ← index v (maxD + k - 1)
    let above ← index v (maxD + k + 1)
    .ok (decide (below < above))

/-- Where diagonal `k` is entered: `x = v[maxD+k+1]`, or `x = v[maxD+k-1] + 1`. -/
def enterAt (v : List Int) (maxD k : Int) (down : Bool) : Exec Int :=
  if down then index v (maxD + k + 1)
  else do
    let below ← index v (maxD + k - 1)
    .ok (below + 1)

/-- One turn of the inner loop: extend diagonal `k`. The flag says whether the far corner was
reached, where the source leaves both loops. -/
def extend [DecidableEq α] (a b : List α) (maxD d k : Int) (v : List Int) :
    Exec (List Int × Bool) := do
  let down ← fromAbove v maxD d k
  let x ← enterAt v maxD k down
  let (x, y) ← slide a b (a.length + 1) x (x - k)
  let v ← store v (maxD + k) x
  .ok (v, decide (x ≥ a.length ∧ y ≥ b.length))

/-- `for k = -d; k <= d; k += 2`: `turns` more values of `k`, the first one given. -/
def round [DecidableEq α] (a b : List α) (maxD d : Int) :
    (turns : Nat) → (k : Int) → List Int → Exec (List Int × Bool)
  | 0, _, v => .ok (v, false)
  | turns + 1, k, v => do
    let (v, found) ← extend a b maxD d k v
    if found then .ok (v, true) else round a b maxD d turns (k + 2) v

/-- `for d = 0; d <= maxD; d++`, with `turns` to go. Returns the value of `d` the loop is left with
and the trace. -/
def search [DecidableEq α] (a b : List α) (maxD : Nat) :
    (turns : Nat) → (d : Nat) → List Int → List (List Int) → Exec (Nat × List (List Int))
  | 0, d, _, trace => .ok (d, trace)
  | turns + 1, d, v, trace => do
    let (v, found) ← round a b maxD d (d + 1) (-d) v
    if found then .ok (d, trace ++ [v]) else search a b maxD turns (d + 1) v (trace ++ [v])

/-! ## Backtracking -/

/-- `for x > startX { x--; y--; script = append(script, diffItem{opEq, a[x]}) }`. -/
def backSnake (a : List α) (startX : Int) :
    Nat → Int → Int → List (DiffItem α) → Exec (Int × Int × List (DiffItem α))
  | 0, _, _, _ => .error .fuel
  | fuel + 1, x, y, script =>
    if x > startX then do
      let t ← index a (x - 1)
      backSnake a startX fuel (x - 1) (y - 1) (script ++ [⟨.eq, t⟩])
    else .ok (x, y, script)

/-- One turn of `for d > 0`: undo the snake and the edit that entered diagonal `x - y` in
round `d`. -/
def backStep (a b : List α) (maxD : Int) (trace : List (List Int)) (d x y : Int)
    (script : List (DiffItem α)) : Exec (Int × Int × List (DiffItem α)) := do
  let k := x - y
  -- the source indexes `trace[d-1]` again at each use; one read faults exactly when they do
  let v ← index trace (d - 1)
  let down ← fromAbove v maxD d k
  let prevK := if down then k + 1 else k - 1
  let prevX ← index v (maxD + prevK)
  let isDel := decide (prevK = k - 1)
  let startX := if isDel then prevX + 1 else prevX
  let (x, y, script) ← backSnake a startX (a.length + 1) x y script
  if isDel then do
    let t ← index a (x - 1)
    .ok (x - 1, y, script ++ [⟨.del, t⟩])
  else do
    let t ← index b (y - 1)
    .ok (x, y - 1, script ++ [⟨.ins, t⟩])

/-- `for d > 0 { ... d-- }`. -/
def backtrack (a b : List α) (maxD : Int) (trace : List (List Int)) :
    (d : Nat) → Int → Int → List (DiffItem α) → Exec (Int × Int × List (DiffItem α))
  | 0, x, y, script => .ok (x, y, script)
  | d + 1, x, y, script => do
    let (x, y, script) ← backStep a b maxD trace (d + 1 : Nat) x y script
    backtrack a b maxD trace d x y script

/-- `for x > 0 && y > 0 { x--; y--; script = append(script, diffItem{opEq, a[x]}) }`. -/
def backHead (a : List α) : Nat → Int → Int → List (DiffItem α) → Exec (List (DiffItem α))
  | 0, _, _, _ => .error .fuel
  | fuel + 1, x, y, script =>
    if x > 0 ∧ y > 0 then do
      let t ← index a (x - 1)
      backHead a fuel (x - 1) (y - 1) (script ++ [⟨.eq, t⟩])
    else .ok script

def diff [DecidableEq α] (a b : List α) : Exec (List (DiffItem α)) :=
  let maxD := a.length + b.length
  if maxD = 0 then .ok []
  else do
    let (d, trace) ← search a b maxD (maxD + 1) 0 (List.replicate (2 * maxD + 1) 0) []
    let (x, y, script) ← backtrack a b maxD trace d a.length b.length []
    let script ← backHead a (a.length + 1) x y script
    .ok script.reverse

/-! ## What a script says -/

/-- The texts of the `Equal` and `Delete` operations: the old side of a script. -/
def oldSide (script : List (DiffItem α)) : List α :=
  (script.filter fun i => i.op = .eq ∨ i.op = .del).map DiffItem.text

/-- The texts of the `Equal` and `Insert` operations: the new side of a script. -/
def newSide (script : List (DiffItem α)) : List α :=
  (script.filter fun i => i.op = .eq ∨ i.op = .ins).map DiffItem.text

def equalTexts (script : List (DiffItem α)) : List α :=
  (script.filter fun i => i.op = .eq).map DiffItem.text

def editCount (script : List (DiffItem α)) : Nat :=
  (script.filter fun i => i.op = .del ∨ i.op = .ins).length

def Plain (script : List (DiffItem α)) : Prop :=
  ∀ i ∈ script, i.op = .eq ∨ i.op = .del ∨ i.op = .ins

structure EditScript (a b : List α) (script : List (DiffItem α)) : Prop where
  plain : Plain script
  old : oldSide script = a
  new : newSide script = b

end GoPosix.Diff
