import GoPosix.Bc.Number

/-!
# dc

The calculator of `pkg/dc/dc.go`: its numbers, its commands and `evalDC`. As in the model of bc a
`big.Rat` is a `Rat`, a `big.Int` an `Int`, and texts are lists of characters. A value of the stack
is a record as in the source, so that a number may be nil; what `math/big` does with a nil operand,
a zero divisor or the root of a negative number is a panic.

`evalDC` is a loop over the text, and calls itself for a macro, as the last thing a command does.
Here `command` says which macro is to be run, and the loop runs it. The loop and the calls share one
fuel.
-/

namespace GoPosix.Dc

open Effects MachineInt Bc

/-! ## Big numbers -/

/-- What is used of `big.Int.Exp` with a modulus that is not zero: it returns nil if the exponent is
negative and the base has no inverse, and a number else. -/
structure BigInt where
  exp : (x y m : Int) → Option Int
  exp_eq_none : ∀ x y m, m ≠ 0 → (exp x y m = none ↔ y < 0 ∧ Int.gcd x m ≠ 1)

def intQuo (a b : Int) : Except Stop Int := if b = 0 then .error .panic else .ok (a.tdiv b)

def intSqrt (a : Int) : Except Stop Int :=
  if a < 0 then .error .panic else .ok (Nat.sqrt a.toNat)

/-- `Exp` without a modulus, of ten. -/
def exp10 (y : Int) : Int := if y ≤ 0 then 1 else 10 ^ y.toNat

def setFrac (a b : Int) : Except Stop Rat := quo a b

def deref : Option Rat → Except Stop Rat
  | some r => .ok r
  | none => .error .panic

def ratPowInt (base : Rat) (exp : Int) : Rat := powerLoop 64 exp base 1

def ratSqrtNewton (a : Rat) (scale : Int) : Except Stop Rat :=
  if a = 0 then .ok 0
  else do
    let digits := wrap64 (scale + 2)
    let scalePow := exp10 (wrap64 (2 * digits))
    let n ← intSqrt (a.num * a.den * scalePow)
    let denPow := a.den * exp10 digits
    setFrac n denPow

/-- The integer part of `ratModExpVal`'s base and modulus. -/
def intPart (r : Rat) : Except Stop Int := if r.den = 1 then .ok r.num else intQuo r.num r.den

def ratModExpVal (big : BigInt) (base exp mod : Rat) : Except Stop Rat :=
  if exp = 0 then .ok 1
  else do
    let b ← intPart base
    let e ← intQuo exp.num exp.den
    let m ← intPart mod
    if m = 0 then .ok 0
    else match big.exp b e m with
      | some result => .ok result
      -- `SetInt` of nil
      | none => .error .panic

/-! ## Values -/

/-- `dcValue`: a text, or a number with the digits behind its point and the sign of its zero. -/
structure Value where
  isStr : Bool
  str : List Char
  rat : Option Rat
  fracDigits : Int
  negZero : Bool
  deriving DecidableEq

def Value.text (s : List Char) : Value := ⟨true, s, none, 0, false⟩

def Value.num (rat : Rat) (fracDigits : Int) (negZero : Bool) : Value :=
  ⟨false, [], some rat, fracDigits, negZero⟩

/-- A number without digits behind its point. -/
def Value.int (rat : Rat) : Value := .num rat 0 false

def boolRat (b : Bool) : Rat := if b then 1 else 0

def isDigit (c : Char) : Bool := '0' ≤ c && c ≤ '9'

/-- `SetString` on digits. -/
def digitsVal (s : List Char) : Option Nat :=
  if s ≠ [] ∧ s.all isDigit then some (s.foldl (fun n c => 10 * n + (c.toNat - 48)) 0) else none

/-- Leading zeros, but for the last digit before the point. -/
def dropZeros : List Char → List Char
  | '0' :: c :: s => if c ≠ '.' then dropZeros (c :: s) else '0' :: c :: s
  | s => s

def negate (negative : Bool) (n : Nat) : Int := if negative then -n else n

/-- The number that digits and a point stand for, and how many digits it has behind the point. -/
def numberOf (negative : Bool) (s : List Char) : Except Stop (Rat × Int) :=
  let invalid := Stop.error ("invalid number: \"" ++ String.ofList s ++ "\"")
  if '.' ∈ s then
    let intPart := s.takeWhile (· ≠ '.')
    let fracPart := (s.dropWhile (· ≠ '.')).tail
    let intPart := if intPart = [] then ['0'] else intPart
    let fracPart := if fracPart = [] then ['0'] else fracPart
    let denom := exp10 fracPart.length
    match digitsVal (intPart ++ fracPart) with
    | none => .error invalid
    | some n => do
      let r ← setFrac (negate negative n) denom
      return (r, fracPart.length)
  else match digitsVal s with
    | none => .error invalid
    | some n => .ok (negate negative n, 0)

def newNumStr (s : List Char) : Except Stop (Rat × Int) :=
  let s := s.dropWhile fun c => c = ' ' || c = '\t'
  let (negative, s) := match s with
    | '_' :: s => (true, s)
    | s => (false, s)
  let (negative, s) := match s with
    | '-' :: s => (true, s)
    | s => (negative, s)
  let s := dropZeros s
  numberOf negative (if s = [] ∨ s = ['.'] then ['0'] else s)

def isNegVal (v : Value) : Except Stop Bool :=
  if v.isStr then .ok false
  else do
    let r ← deref v.rat
    return r < 0 || (r = 0 && v.negZero)

/-- `dupVal`. The sign of a zero is lost. -/
def dupVal (v : Value) : Except Stop Value :=
  if v.isStr then .ok (.text v.str)
  else do
    let r ← deref v.rat
    return .num r v.fracDigits false

/-! ## Formatting -/

/-- The digits of a fraction, `n` at most. -/
def fracLoop (den : Nat) : (n : Nat) → (rem : Nat) → List Char
  | 0, _ => []
  | n + 1, rem =>
    if rem = 0 then []
    else Char.ofNat (48 + rem * 10 / den) :: fracLoop den n (rem * 10 % den)

def trimZeros (s : List Char) : List Char := (s.reverse.dropWhile (· = '0')).reverse

/-- The parts of a number put together. A zero before the point is not printed. -/
def joinParts (sign intStr fs : List Char) : List Char :=
  if intStr = ['0'] then sign ++ '.' :: fs else sign ++ intStr ++ '.' :: fs

def formatRat (r : Rat) (scale : Int) (negZero : Bool) : List Char :=
  if r = 0 then ['0']
  else
    let sign := if r < 0 || (r = 0 && negZero) then ['-'] else []
    if r.den = 1 ∧ scale = 0 then sign ++ Nat.toDigits 10 r.num.natAbs
    else
      let num := r.num.natAbs
      let intStr := Nat.toDigits 10 (num / r.den)
      let maxDigits := wrap64 (scale + 10)
      let maxDigits := if maxDigits < 200 then 200 else maxDigits
      let fs := fracLoop r.den maxDigits.toNat (num % r.den)
      if 0 < scale then
        let fs := fs.take scale.toNat
        joinParts sign intStr (fs ++ List.replicate (scale.toNat - fs.length) '0')
      else
        let fs := trimZeros fs
        if fs ≠ [] then joinParts sign intStr fs else sign ++ intStr

def Value.toText (v : Value) : Except Stop (List Char) :=
  if v.isStr then .ok v.str
  else do
    let r ← deref v.rat
    return formatRat r v.fracDigits v.negZero

/-- The length that `Z` pushes: of a text its bytes, of a number its digits. -/
def lengthVal (scale : Int) (v : Value) : Except Stop Int :=
  if v.isStr then .ok ((v.str.map Char.utf8Size).sum : Nat)
  else do
    let r ← deref v.rat
    let s := formatRat r scale v.negZero
    let s := match s with
      | '-' :: s => s
      | s => s
    let s := s.filter (· ≠ '.')
    let s := s ++ List.replicate (v.fracDigits.toNat - s.length) '0'
    let s := s.dropWhile (· = '0')
    return if s = [] then 1 else s.length

def parseStringEscapes : List Char → List Char
  | '\\' :: 'n' :: s => '\n' :: parseStringEscapes s
  | '\\' :: 't' :: s => '\t' :: parseStringEscapes s
  | '\\' :: 'r' :: s => '\r' :: parseStringEscapes s
  | '\\' :: '\\' :: s => '\\' :: parseStringEscapes s
  | '\\' :: c :: s => '\\' :: c :: parseStringEscapes s
  | c :: s => c :: parseStringEscapes s
  | [] => []

/-! ## Arithmetic -/

/-- `+` and `-`. -/
def addVals (op : Rat → Rat → Rat) (_ : Int) (a b : Value) : Except Stop (List Value) := do
  let x ← deref a.rat
  let y ← deref b.rat
  return [.num (op x y) (max a.fracDigits b.fracDigits) false]

/-- `*`. -/
def mulVals (scale : Int) (a b : Value) : Except Stop (List Value) := do
  let x ← deref a.rat
  let y ← deref b.rat
  let fd := wrap64 (a.fracDigits + b.fracDigits)
  let maxScale := max (max scale a.fracDigits) b.fracDigits
  let fd := if maxScale < fd then maxScale else fd
  let r := ratTruncate (x * y) fd
  let negA ← isNegVal a
  let negB ← isNegVal b
  return [.num r fd (negA != negB && r = 0)]

/-- `/`. -/
def divVals (scale : Int) (a b : Value) : Except Stop (List Value) := do
  let y ← deref b.rat
  if y = 0 then .error (.error "divide by zero")
  else
    let x ← deref a.rat
    let r ← quo x y
    let r := ratTruncate r scale
    let negA ← isNegVal a
    let negB ← isNegVal b
    return [.num r scale (negA != negB && r = 0)]

/-- The remainder and the quotient that `%` and `~` push. -/
def quoRem (scale : Int) (a b : Value) : Except Stop (Value × Value) := do
  let x ← deref a.rat
  let y ← deref b.rat
  let q ← quo x y
  let q := ratTruncate q scale
  let fd := max a.fracDigits (wrap64 (scale + b.fracDigits))
  let r := ratTruncate (x - q * y) fd
  let negA ← isNegVal a
  let negB ← isNegVal b
  return (.num q scale (negA != negB && q = 0), .num r fd (negA && r = 0))

/-- `%`. -/
def remVals (scale : Int) (a b : Value) : Except Stop (List Value) := do
  let y ← deref b.rat
  if y = 0 then .error (.error "remainder by zero")
  else
    let p ← quoRem scale a b
    return [p.2]

/-- `~`. -/
def quoRemVals (scale : Int) (a b : Value) : Except Stop (List Value) := do
  let y ← deref b.rat
  if y = 0 then .error (.error "divide by zero")
  else
    let p ← quoRem scale a b
    return [p.1, p.2]

/-- `^`. -/
def powVals (scale : Int) (a b : Value) : Except Stop (List Value) := do
  let y ← deref b.rat
  let exp := ratToInt64 y
  if exp = 0 then return [.num 1 0 false]
  else
    let x ← deref a.rat
    let neg ← isNegVal a
    if x = 0 then return [.num 0 0 (neg && exp.tmod 2 ≠ 0)]
    else if exp < 0 then
      let r ← quo 1 (ratPowInt x (wrap64 (-exp)))
      let r := ratTruncate r scale
      return [.num r scale (neg && (wrap64 (-exp)).tmod 2 ≠ 0 && r = 0)]
    else
      let fd := wrap64 (exp * a.fracDigits)
      let maxScale := max scale a.fracDigits
      let fd := if maxScale < fd then maxScale else fd
      let r := ratTruncate (ratPowInt x exp) fd
      return [.num r fd (neg && exp.tmod 2 ≠ 0 && r = 0)]

/-- `v`. -/
def sqrtVal (scale : Int) (a : Value) : Except Stop Value := do
  let x ← deref a.rat
  if x < 0 then .error (.error "square root of negative number")
  else
    let r ← ratSqrtNewton x scale
    let fd := max scale a.fracDigits
    return .num (ratTruncate r fd) fd false

/-! ## The state -/

/-- `dcState`, with the output and what is left of the standard input. The tops of the stack and of
the registers are the heads of their lists; a register that is not there is empty. -/
structure State where
  stack : List Value
  regs : List Char → List Value
  extendedReg : Bool
  scale : Int
  output : List (List Char)
  stdin : Option (List Char)

def State.initial (extendedReg : Bool) (stdin : Option (List Char)) : State :=
  ⟨[], fun _ => [], extendedReg, 0, [], stdin⟩

def State.setReg (st : State) (reg : List Char) (vals : List Value) : State :=
  { st with regs := fun name => if name = reg then vals else st.regs name }

abbrev Eval := Prog State

def stackEmpty : Stop := .error "stack empty"

def push (v : Value) : Eval Unit := modify fun st => { st with stack := v :: st.stack }

/-- Values on the stack, the last one on top. -/
def pushAll (vs : List Value) : Eval Unit :=
  modify fun st => { st with stack := vs.reverse ++ st.stack }

def popVal : Eval (Option Value) := do
  let st ← get
  match st.stack with
  | [] => return none
  | v :: stack =>
    modify fun st => { st with stack := stack }
    return some v

/-- `popNumValFD`: a text counts as zero. -/
def popNumValFD : Eval (Option Value) := do
  match ← popVal with
  | none => return none
  | some v => return some (if v.isStr then .int 0 else v)

/-- `popTwoNumFD`. Every command gives up if there are no two values; one that is there is put
back. -/
def popTwoNumFD : Eval (Value × Value) := do
  match ← popNumValFD with
  | none => throw stackEmpty
  | some b =>
    match ← popNumValFD with
    | none =>
      push b
      throw stackEmpty
    | some a => return (a, b)

/-- A number that is put back, without its digits behind the point. -/
def Value.ofPointer (rat : Option Rat) : Value := ⟨false, [], rat, 0, false⟩

def popTwoNumVal : Eval (Option Rat × Option Rat) := do
  match ← popNumValFD with
  | none => throw stackEmpty
  | some b =>
    match ← popNumValFD with
    | none =>
      push (.ofPointer b.rat)
      throw stackEmpty
    | some a => return (a.rat, b.rat)

/-! ## The text -/

/-- A text literal behind its bracket: what is inside, and what follows. -/
def scanString (depth : Nat) : List Char → List Char × List Char
  | [] => ([], [])
  | '\\' :: c :: s =>
    if c ≠ '[' ∧ c ≠ ']' then
      let (str, rest) := scanString depth s
      ('\\' :: c :: str, rest)
    else
      let (str, rest) := scanString depth (c :: s)
      ('\\' :: str, rest)
  | c :: s =>
    if c = '[' then
      let (str, rest) := scanString (depth + 1) s
      (c :: str, rest)
    else if c = ']' then
      if depth ≤ 1 then ([], s)
      else
        let (str, rest) := scanString (depth - 1) s
        (c :: str, rest)
    else
      let (str, rest) := scanString depth s
      (c :: str, rest)

/-- `parseNumber`: the number at the head of the text, if there is one, and what follows. -/
def parseNumber (s : List Char) : Option (List Char × List Char) :=
  let (sign, t) := match s with
    | '_' :: t => (['_'], t)
    | t => ([], t)
  let afterPoint := match t with
    | '.' :: u => u
    | u => u
  if (afterPoint.head?.map isDigit).getD false then
    let int := t.takeWhile isDigit
    match t.dropWhile isDigit with
    | '.' :: u => some (sign ++ int ++ '.' :: u.takeWhile isDigit, u.dropWhile isDigit)
    | rest => some (sign ++ int, rest)
  else none

def isIdentChar (ch : Char) : Bool :=
  ('a' ≤ ch && ch ≤ 'z') || ('A' ≤ ch && ch ≤ 'Z') || ('0' ≤ ch && ch ≤ '9') || ch = '_'

/-- `parseRegName`: the name of a register, and what follows. -/
def parseRegName (extendedReg : Bool) : List Char → List Char × List Char
  | [] => ([], [])
  | ch :: s =>
    if extendedReg && ch = ' ' then (s.takeWhile isIdentChar, s.dropWhile isIdentChar)
    else ([ch], s)

/-! ## Commands -/

/-- A macro to be run. For a line of the standard input its error is not looked at. -/
structure Call where
  text : List Char
  ignoreErr : Bool

/-- What is left of the text, and the macro to be run before. -/
structure Next where
  rest : List Char
  call : Option Call

def done (rest : List Char) : Next := ⟨rest, none⟩

def emit (s : List Char) : Eval Unit := modify fun st => { st with output := st.output ++ [s] }

/-- A text at the end of the last line. -/
def emitLast (s : List Char) : Eval Unit := modify fun st =>
  { st with output := match st.output.getLast? with
      | some last => st.output.dropLast ++ [last ++ s]
      | none => [s] }

/-- `p`. -/
def printTop : Eval Unit := do
  match (← get).stack with
  | [] => return ()
  | v :: _ => emit (← v.toText)

/-- `n`. -/
def printPop : Eval Unit := do
  match ← popVal with
  | none => return ()
  | some v => emitLast (← v.toText)

/-- `P`. A number is dropped. -/
def printString : Eval Unit := do
  match ← popVal with
  | none => return ()
  | some v => if v.isStr then emitLast (parseStringEscapes v.str) else return ()

def textsOf (vs : List Value) : Except Stop (List (List Char)) := vs.mapM Value.toText

/-- `f`. -/
def printAll : Eval Unit := do
  let texts ← textsOf (← get).stack
  modify fun st => { st with output := st.output ++ texts }

/-- `c`. -/
def clear : Eval Unit := modify fun st => { st with stack := [] }

/-- `d`. -/
def dup : Eval Unit := do
  match (← get).stack with
  | [] => return ()
  | v :: _ => push (← dupVal v)

/-- `r`. -/
def swap : Eval Unit := modify fun st =>
  { st with stack := match st.stack with
      | a :: b :: stack => b :: a :: stack
      | stack => stack }

/-- `R`. -/
def drop : Eval Unit := do
  let _ ← popVal

/-- `z`. -/
def depth : Eval Unit := do push (.int (← get).stack.length)

/-- `Z`. -/
def pushLength : Eval Unit := do
  match ← popVal with
  | none => return ()
  | some v =>
    let length ← lengthVal (← get).scale v
    push (.int length)

def binary (f : (scale : Int) → (a b : Value) → Except Stop (List Value)) : Eval Unit := do
  let p ← popTwoNumFD
  let vs ← f (← get).scale p.1 p.2
  pushAll vs

def comparison (f : Rat → Rat → Bool) : Eval Unit := do
  let p ← popTwoNumVal
  let a ← deref p.1
  let b ← deref p.2
  push (.int (boolRat (f a b)))

/-- `v`. -/
def sqrt : Eval Unit := do
  match ← popNumValFD with
  | none => throw stackEmpty
  | some a => push (← sqrtVal (← get).scale a)

/-- `|`. -/
def modExp (big : BigInt) : Eval Unit := do
  match ← popNumValFD with
  | none => throw stackEmpty
  | some mod =>
    match ← popNumValFD with
    | none =>
      push (.ofPointer mod.rat)
      throw stackEmpty
    | some exp =>
      match ← popNumValFD with
      | none =>
        push (.ofPointer exp.rat)
        push (.ofPointer mod.rat)
        throw stackEmpty
      | some base =>
        let b ← deref base.rat
        let e ← deref exp.rat
        let m ← deref mod.rat
        push (.int (← ratModExpVal big b e m))

/-- `k`. -/
def setScale : Eval Unit := do
  match ← popNumValFD with
  | none => throw stackEmpty
  | some v =>
    let s := ratToInt64 (← deref v.rat)
    modify fun st => { st with scale := if s < 0 then 0 else s }

/-- `K`. -/
def pushScale : Eval Unit := do
  let st ← get
  push (.num st.scale st.scale false)

/-- `s`. An empty stack stores an empty text. -/
def store (reg : List Char) : Eval Unit := do
  match ← popVal with
  | none => modify fun st => st.setReg reg [.text []]
  | some v =>
    let v ← dupVal v
    modify fun st => st.setReg reg [v]

/-- `l`. -/
def load (reg : List Char) : Eval Unit := do
  match (← get).regs reg with
  | [] => push (.int 0)
  | v :: _ => push (← dupVal v)

/-- `S`. -/
def storeTop (reg : List Char) : Eval Unit := do
  match ← popVal with
  | none => return ()
  | some v =>
    let v ← dupVal v
    modify fun st => st.setReg reg (v :: st.regs reg)

/-- `L`. -/
def loadTop (reg : List Char) : Eval Unit := do
  match (← get).regs reg with
  | [] => return ()
  | v :: vals =>
    modify fun st => st.setReg reg vals
    push (← dupVal v)

/-- A command with the name of a register behind it. -/
def withReg (f : List Char → Eval Unit) (s : List Char) : Eval Next := do
  let p := parseRegName (← get).extendedReg s
  if p.1 ≠ [] then f p.1
  return done p.2

/-- `x`. A number is put back. -/
def execute (s : List Char) : Eval Next := do
  match ← popVal with
  | none => return done s
  | some v =>
    if v.isStr then return ⟨s, some ⟨v.str, false⟩⟩
    else
      push v
      return done s

/-- `N`. -/
def isZero : Eval Unit := do
  match ← popVal with
  | none => throw stackEmpty
  | some v =>
    if v.isStr then push (.int (boolRat (v.str = [])))
    else
      let r ← deref v.rat
      push (.int (boolRat (r = 0)))

def State.macro? (st : State) (reg : List Char) : Option Call :=
  match st.regs reg with
  | v :: _ => if v.isStr then some ⟨v.str, false⟩ else none
  | [] => none

/-- What the conditional commands ask. -/
def holds (condOp : Char) (a b : Rat) : Bool :=
  if condOp = '>' then a < b
  else if condOp = '<' then b < a
  else b = a

/-- `>`, `<` and `=`, also behind `!`, with their `e` clause. -/
def conditional (negated : Bool) (condOp : Char) (s : List Char) : Eval Next := do
  let p := parseRegName (← get).extendedReg s
  if p.1 = [] then return done p.2
  else
    let ops ← popTwoNumVal
    let a ← deref ops.1
    let b ← deref ops.2
    let st ← get
    if holds condOp a b != negated then return ⟨p.2, st.macro? p.1⟩
    else match p.2 with
      | 'e' :: s =>
        let q := parseRegName st.extendedReg s
        return ⟨q.2, if q.1 = [] then none else st.macro? q.1⟩
      | s => return done s

/-- `!`. -/
def negatedConditional : List Char → Eval Next
  | condOp :: s =>
    if condOp = '>' ∨ condOp = '<' ∨ condOp = '=' then conditional true condOp s
    else return done (condOp :: s)
  | [] => return done []

/-- `?`. A last line without its end is lost. -/
def ask (s : List Char) : Eval Next := do
  match (← get).stdin with
  | none => return done s
  | some input =>
    let line := input.takeWhile (· ≠ '\n')
    match input.dropWhile (· ≠ '\n') with
    | [] =>
      modify fun st => { st with stdin := some [] }
      return done s
    | _ :: rest =>
      modify fun st => { st with stdin := some rest }
      return if line = [] then done s else ⟨s, some ⟨line, true⟩⟩

/-- `a`. -/
def toAscii : Eval Unit := do
  match ← popVal with
  | none => throw stackEmpty
  | some v =>
    if v.isStr then push (.text v.str)
    else
      let r ← deref v.rat
      push (.text [Char.ofNat (ratToInt64 r % 256).toNat])

def number (ch : Char) (s : List Char) : Eval Next := do
  match parseNumber (ch :: s) with
  | none => return done s
  | some (numStr, rest) =>
    let p ← newNumStr numStr
    push (.num p.1 p.2 false)
    return done rest

def act (m : Eval Unit) (s : List Char) : Eval Next := do
  m
  return done s

def command (big : BigInt) (ch : Char) (s : List Char) : Eval Next :=
  if ch = ' ' ∨ ch = '\t' ∨ ch = '\n' ∨ ch = '\r' then return done s
  else if ch = '#' then return done (s.dropWhile (· ≠ '\n'))
  else if ch = '[' then do
    push (.text (scanString 1 s).1)
    return done (scanString 1 s).2
  else if isDigit ch ∨ ch = '_' ∨ ch = '.' then number ch s
  else match ch with
    | 'p' => act printTop s
    | 'n' => act printPop s
    | 'P' => act printString s
    | 'f' => act printAll s
    | 'c' => act clear s
    | 'd' => act dup s
    | 'r' => act swap s
    | 'R' => act drop s
    | 'z' => act depth s
    | 'Z' => act pushLength s
    | '+' => act (binary (addVals (· + ·))) s
    | '-' => act (binary (addVals (· - ·))) s
    | '*' => act (binary mulVals) s
    | '/' => act (binary divVals) s
    | '%' => act (binary remVals) s
    | '~' => act (binary quoRemVals) s
    | '^' => act (binary powVals) s
    | 'v' => act sqrt s
    | '|' => act (modExp big) s
    | 'k' => act setScale s
    | 'K' => act pushScale s
    | 's' => withReg store s
    | 'l' => withReg load s
    | 'S' => withReg storeTop s
    | 'L' => withReg loadTop s
    | 'x' => execute s
    | '(' => act (comparison fun a b => b < a) s
    | '\x7b' => act (comparison fun a b => b ≤ a) s
    | 'G' => act (comparison fun a b => a = b) s
    | 'N' => act isZero s
    | '>' => conditional false ch s
    | '<' => conditional false ch s
    | '=' => conditional false ch s
    | '!' => negatedConditional s
    | '?' => ask s
    | 'a' => act toAscii s
    | _ => return done s

def runCall (eval : List Char → Eval Unit) : Option Call → Eval Unit
  | none => return ()
  | some call => if call.ignoreErr then ignoreError (eval call.text) else eval call.text

def evalDC (big : BigInt) : (fuel : Nat) → (input : List Char) → Eval Unit
  | 0, _ => throw .timeout
  | _ + 1, [] => return ()
  | fuel + 1, ch :: s => do
    let next ← command big ch s
    runCall (evalDC big fuel) next.call
    evalDC big fuel next.rest

end GoPosix.Dc
