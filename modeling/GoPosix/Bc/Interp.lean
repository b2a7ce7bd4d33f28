import Mathlib.Data.List.Infix
import GoPosix.Bc.Parser
import GoPosix.Bc.Number

/-!
# The interpreter of bc

`Execute`, `execStmt` and `eval` of `pkg/bc/bc.go`. The interpreter is the state of a `Prog`. As in
the parser, each function is written once over a `Rec` of the functions it calls, and `interp` ties
the knot on fuel.

Two things are added to the state. `trace` records the statements that are executed, the texts that
are printed, and the `halt`s. And a call of `execStmt` or `eval` carries `tail`: whether nothing of
the top-level statement is left to do behind it. It is recorded with a `halt`, and nothing else
depends on it.

An array, which is passed by reference, is the address of a map in `heap`. There are two scopes at
most, the global one and `locals`.
-/

namespace GoPosix.Bc

open Effects MachineInt Function

/-! ## Values -/

/-- A value. Only a number has a rational; the field is `nil` in the others. -/
inductive Val
  | num (rat : Rat) (scale : Int) (isNeg : Bool)
  | str (s : String)
  | void
  | arrayRef (addr : Nat)
  deriving DecidableEq

def newValNum (r : Rat) (scale : Int) : Val := .num r scale (r < 0)

def newValNumNeg (r : Rat) (scale : Int) (isNeg : Bool) : Val := .num r scale (isNeg || r < 0)

def zeroVal : Val := newValNum 0 0

namespace Val

/-- The rational of a value, where `nil` makes the caller panic. -/
def rat : Val → Except Stop Rat
  | .num r _ _ => .ok r
  | _ => .error .panic

def scale : Val → Int
  | .num _ scale _ => scale
  | _ => 0

def isTrue : Val → Bool
  | .num r _ _ => r ≠ 0
  | _ => false

end Val

/-! ## The state -/

structure Scope where
  vars : String → Option Val
  arrays : String → Option Nat

def Scope.empty : Scope := ⟨fun _ => none, fun _ => none⟩

/-- Standard input: what is left of it, and the error that comes behind it unless it just ends. -/
structure Stdin where
  text : List Char
  failure : Option String

inductive Event
  | stmt
  | print (text : List Char)
  | halt (tail : Bool)
  deriving DecidableEq, Repr

structure Interp where
  globals : Scope
  locals : Option Scope
  heap : List (List (Int × Val))
  functions : String → Option FuncDecl
  scale : Int
  ibase : Int
  obase : Int
  stdin : Option Stdin
  halted : Bool
  last : Val
  trace : List Event

abbrev Eval := Prog Interp

def emit (e : Event) : Eval Unit := modify fun ip => { ip with trace := ip.trace ++ [e] }

namespace Interp

def updateScope (ip : Interp) (f : Scope → Scope) : Interp :=
  match ip.locals with
  | some scope => { ip with locals := some (f scope) }
  | none => { ip with globals := f ip.globals }

def getVar (ip : Interp) (name : String) : Val :=
  ((ip.locals.bind (·.vars name)).or (ip.globals.vars name)).getD zeroVal

/-- `Set`: where the name is found, or else in the scope it is called on. -/
def setVar (ip : Interp) (name : String) (val : Val) : Interp :=
  let set := fun scope : Scope => { scope with vars := update scope.vars name (some val) }
  if (ip.locals.bind (·.vars name)).isSome then ip.updateScope set
  else if (ip.globals.vars name).isSome then { ip with globals := set ip.globals }
  else ip.updateScope set

def findArray (ip : Interp) (name : String) : Option Nat :=
  (ip.locals.bind (·.arrays name)).or (ip.globals.arrays name)

def alloc (ip : Interp) (arr : List (Int × Val)) : Nat × Interp :=
  (ip.heap.length, { ip with heap := ip.heap ++ [arr] })

/-- `GetArrayRef`: an array that is not there is made in the scope it is called on. -/
def getArrayRef (ip : Interp) (name : String) : Nat × Interp :=
  match ip.findArray name with
  | some addr => (addr, ip)
  | none =>
    let (addr, ip) := ip.alloc []
    (addr, ip.updateScope fun scope =>
      { scope with arrays := update scope.arrays name (some addr) })

def arrayAt (ip : Interp) (addr : Nat) : List (Int × Val) := ip.heap.getD addr []

def getArray (ip : Interp) (name : String) (index : Int) : Val :=
  match ip.findArray name with
  | some addr => ((ip.arrayAt addr).lookup index).getD zeroVal
  | none => zeroVal

def setArray (ip : Interp) (name : String) (index : Int) (val : Val) : Interp :=
  let (addr, ip) := ip.getArrayRef name
  let arr := (index, val) :: (ip.arrayAt addr).filter (·.1 ≠ index)
  { ip with heap := ip.heap.set addr arr }

end Interp

/-! ## Operators -/

/-- A register that is limited to the bases that can be read. -/
def clampIbase (n : Int) : Int := if n < 2 then 2 else if 36 < n then 36 else n

def readVar (name : String) : Eval Val := do
  let ip ← get
  match name with
  | "scale" => return newValNum ip.scale 0
  | "ibase" => return newValNum ip.ibase 0
  | "obase" => return newValNum ip.obase 0
  | "last" => return ip.last
  | _ => return ip.getVar name

/-- Sets a variable or a register to the number `val`, whose rational is `r`. -/
def assignVar (name : String) (val : Val) (r : Rat) : Eval Unit :=
  modify fun ip => match name with
    | "scale" => { ip with scale := ratToInt64 r }
    | "ibase" => { ip with ibase := clampIbase (ratToInt64 r) }
    | "obase" => { ip with obase := ratToInt64 r }
    | "last" => { ip with last := val }
    | _ => ip.setVar name val

/-- A truncated result. Zero has no scale. -/
def truncated (res : Rat) (resScale : Int) : Val :=
  let res := ratTruncate res resScale
  newValNum res (if res = 0 then 0 else resScale)

def truth (b : Bool) : Val := newValNum (if b then 1 else 0) 0

/-- `eval` of a `BinaryExpr` with the values of its operands, under the register `scale`. -/
def binaryOp (scale : Int) (op : TokenType) (lhs rhs : Val) : Except Stop Val :=
  match lhs, rhs with
  | .num a aScale _, .num b bScale _ =>
    match op with
    | .plus => .ok (newValNum (a + b) (max aScale bScale))
    | .minus => .ok (newValNum (a - b) (max aScale bScale))
    | .mul =>
      let limit := max scale (max aScale bScale)
      .ok (truncated (a * b) (min (wrap64 (aScale + bScale)) limit))
    | .div =>
      if b = 0 then .error (.error "division by zero")
      else do return truncated (← quo a b) scale
    | .mod =>
      if b = 0 then .error (.error "modulo by zero")
      else do
        let divTruncated := ratTruncate (← quo a b) scale
        return truncated (a - b * divTruncated) (max (wrap64 (scale + bScale)) aScale)
    | .power => do
      let exponent := ratToInt64 b
      let res ← ratPower a exponent
      let resScale := if res = 0 then 0
        else if exponent < 0 then scale
        else min (wrap64 (aScale * exponent)) (max scale aScale)
      return truncated res resScale
    | .eq => .ok (truth (a = b))
    | .ne => .ok (truth (a ≠ b))
    | .lt => .ok (truth (a < b))
    | .le => .ok (truth (a ≤ b))
    | .gt => .ok (truth (b < a))
    | .ge => .ok (truth (b ≤ a))
    | .and => .ok (truth (lhs.isTrue && rhs.isTrue))
    | .or => .ok (truth (lhs.isTrue || rhs.isTrue))
    | _ => .error (.error "unrecognized binary operator")
  | _, _ => .error (.error "binary operations only supported on numbers")

/-- `eval` of a `UnaryExpr` other than `++` and `--`. -/
def unaryOp (op : TokenType) (val : Val) : Except Stop Val :=
  match val with
  | .num r scale isNeg =>
    match op with
    | .minus => .ok (newValNumNeg (-r) scale !isNeg)
    | .plus => .ok (newValNumNeg r scale isNeg)
    | .not => .ok (newValNumNeg (if r = 0 then 1 else 0) scale false)
    | _ => .error (.error "unrecognized unary operator")
  | _ => .error (.error "unary operations only supported on numbers")

/-! ## One level of the recursion -/

inductive Flow
  | normal
  | returned (val : Val)
  | broken
  | continued

/-- The functions that the interpreter comes back to. `loop` is that of `while` and `for`, from its
test on. -/
structure Rec where
  execStmt : (tail : Bool) → Option Stmt → Eval Flow
  eval : (tail : Bool) → Expr → Eval Val
  loop : (cond step : Option Expr) → (body : Option Stmt) → Eval Flow

section Level

variable (host : Host) (self : Rec)

def evalNil : Option Expr → Eval Val
  | none => return .void
  | some e => self.eval false e

/-- The index of an array element. It is `nil` in `a[]`, whose value has no rational. -/
def evalIndex (index : Option Expr) : Eval Int := do
  let val ← evalNil self index
  let r ← liftM val.rat
  return idxString r

def evalAssign (lhs rhs : Expr) : Eval Val := do
  let rhsVal ← self.eval false rhs
  match rhsVal with
  | .num r _ _ =>
    match lhs with
    | .var name =>
      assignVar name rhsVal r
      return rhsVal
    | .arrayAccess name index =>
      let idx ← evalIndex self index
      modify (·.setArray name idx rhsVal)
      return rhsVal
    | _ => throw (.error "invalid left-hand side of assignment")
  | _ => throw (.error "cannot assign non-numeric value")

/-- The name of the variable or the array that `++` and `--` change, and the index of an element. -/
def evalTarget : Expr → Eval (String × Option Int)
  | .var name => return (name, none)
  | .arrayAccess name index => do
    let idx ← evalIndex self index
    return (name, some idx)
  | _ => throw (.error "invalid increment target")

/-- `++` or `--` of a variable or an element. The registers go by their names also as the names of
arrays. -/
def evalIncDec (op : TokenType) (target : Expr) (postIncDec : Bool) : Eval Val := do
  let (name, index) ← evalTarget self target
  if name ∈ ["scale", "ibase", "obase", "last"] then
    let curr ← readVar name
    let r ← liftM curr.rat
    let next := if op = .inc then r + 1 else r - 1
    assignVar name (newValNum next 0) next
    return if postIncDec then curr else newValNum next 0
  else
    let ip ← get
    let curr := match index with
      | some idx => ip.getArray name idx
      | none => ip.getVar name
    let r ← liftM curr.rat
    let nextVal := newValNum (if op = .inc then r + 1 else r - 1) curr.scale
    modify fun ip => match index with
      | some idx => ip.setArray name idx nextVal
      | none => ip.setVar name nextVal
    return if postIncDec then curr else nextVal

def evalArgs : List Expr → Eval (List Val)
  | [] => return []
  | arg :: args => do
    let val ← self.eval false arg
    let vals ← evalArgs args
    return val :: vals

def isSpace (c : Char) : Bool :=
  c ∈ ['\t', '\n', '\x0b', '\x0c', '\r', ' ', '\u0085', '\u00a0', '\u1680', '\u2028', '\u2029',
    '\u202f', '\u205f', '\u3000'] || ('\u2000' ≤ c && c ≤ '\u200a')

def trimSpace (s : List Char) : List Char :=
  ((s.dropWhile isSpace).reverse.dropWhile isSpace).reverse

/-- The statements of a line that `read()` got: an expression gives its value and is not printed. -/
def readLoop : List Stmt → (finalVal : Val) → Eval Val
  | [], finalVal => return finalVal
  | .exprStmt e :: stmts, _ => do
    let val ← self.eval false e
    readLoop stmts val
  | stmt :: stmts, finalVal => do
    let _ ← self.execStmt false (some stmt)
    readLoop stmts finalVal

def evalRead : Eval Val := do
  match (← get).stdin with
  | none => return zeroVal
  | some stdin =>
    let line := stdin.text.takeWhile (· ≠ '\n')
    let behind := stdin.text.dropWhile (· ≠ '\n')
    modify fun ip => { ip with stdin := some { stdin with text := behind.tail } }
    match behind, stdin.failure with
    | [], some msg => throw (.error msg)
    | _, _ =>
      let line := trimSpace line
      if line = [] ∧ behind = [] then return zeroVal
      else
        let stmts ← liftM (parse line)
        readLoop self stmts zeroVal

/-- The arrays and variables of a call. An array is copied unless it is passed by reference. -/
def bindParams : List (Param × Val) → Scope → Interp → Scope × Interp
  | [], scope, ip => (scope, ip)
  | (param, arg) :: rest, scope, ip =>
    if param.isArray then
      let (addr, ip) := match arg with
        | .arrayRef addr => if param.isRef then (addr, ip) else ip.alloc (ip.arrayAt addr)
        | _ => ip.alloc []
      bindParams rest { scope with arrays := update scope.arrays param.name (some addr) } ip
    else
      bindParams rest { scope with vars := update scope.vars param.name (some arg) } ip

def bindAutos : List String → Scope → Scope
  | [], scope => scope
  | name :: names, scope =>
    bindAutos names { scope with vars := update scope.vars name (some zeroVal) }

def bindAutoArrays : List String → Scope → Interp → Scope × Interp
  | [], scope, ip => (scope, ip)
  | name :: names, scope, ip =>
    let (addr, ip) := ip.alloc []
    bindAutoArrays names { scope with arrays := update scope.arrays name (some addr) } ip

/-- The state in which the body of a function starts. -/
def enterCall (decl : FuncDecl) (argVals : List Val) (ip : Interp) : Interp :=
  let (scope, ip) := bindParams (decl.params.zip argVals) Scope.empty ip
  let (scope, ip) := bindAutoArrays decl.autoArrays (bindAutos decl.autos scope) ip
  { ip with locals := some scope }

/-- The value of a call whose body ended with `flow`. -/
def callValue (decl : FuncDecl) (flow : Flow) : Val :=
  if decl.void then .void
  else match flow with
    | .returned .void => zeroVal
    | .returned val => val
    | _ => zeroVal

/-- A call of a function of the program. Behind a call that is in tail position the body has
nothing left to do if the function is void: another one has its value printed. -/
def evalCall (tail : Bool) (name : String) (args : List Expr) : Eval Val := do
  match (← get).functions name with
  | none => throw (.error ("undefined function " ++ name))
  | some decl =>
    if args.length ≠ decl.params.length then
      throw (.error ("function " ++ name ++ " expects " ++ toString decl.params.length ++
        " arguments, got " ++ toString args.length))
    else
      let argVals ← evalArgs self args
      let prevScope := (← get).locals
      modify (enterCall decl argVals)
      let flow ← finally_ (self.execStmt (tail && decl.void) (some (.blockStmt decl.body)))
        fun ip => { ip with locals := prevScope }
      return callValue decl flow

def evalBuiltin (name : String) (args : List Expr) (f : Val → Interp → Except Stop Val) :
    Eval Val := do
  match args with
  | [arg] =>
    let argVal ← self.eval false arg
    liftM (f argVal (← get))
  | _ => throw (.error (name ++ "() expects exactly 1 argument"))

def builtinLength (argVal : Val) (ip : Interp) : Except Stop Val :=
  match argVal with
  | .arrayRef addr => .ok (newValNum (arrayLength ((ip.arrayAt addr).map (·.1))) 0)
  | _ => do return newValNum (← valLength host (← argVal.rat) argVal.scale) 0

def builtinSqrt (argVal : Val) (ip : Interp) : Except Stop Val := do
  let (res, resScale) ← valSqrt host (← argVal.rat) argVal.scale ip.scale
  return newValNum res resScale

def evalExpr (tail : Bool) : Expr → Eval Val
  | .paren e => self.eval tail e
  | .num val => do
    let r ← liftM (parseNumberInBase val.toList (← get).ibase)
    return newValNum r (literalScale val.toList)
  | .string val => return .str val
  | .var name => readVar name
  | .arrayAccess name none => do
    let ip ← get
    modify fun ip => (ip.getArrayRef name).2
    return .arrayRef (ip.getArrayRef name).1
  | .arrayAccess name (some index) => do
    let idx ← evalIndex self (some index)
    return (← get).getArray name idx
  | .assign lhs rhs => evalAssign self lhs rhs
  | .binary op lhs rhs => do
    let lhsVal ← self.eval false lhs
    let rhsVal ← self.eval false rhs
    liftM (binaryOp (← get).scale op lhsVal rhsVal)
  | .unary op e postIncDec =>
    if op = .inc ∨ op = .dec then evalIncDec self op e postIncDec
    else do
      let val ← self.eval false e
      liftM (unaryOp op val)
  | .call name args =>
    match name with
    | "length" => evalBuiltin self name args (builtinLength host)
    | "scale" => evalBuiltin self name args fun argVal _ => .ok (newValNum argVal.scale 0)
    | "sqrt" => evalBuiltin self name args (builtinSqrt host)
    | "read" => if args = [] then evalRead self else throw (.error "read() expects no arguments")
    | _ => evalCall self tail name args

/-- `isTopLevelPrintable`: an assignment is not printed, unless in parentheses. -/
def isTopLevelPrintable : Expr → Bool
  | .assign _ _ => false
  | _ => true

def printValue (e : Expr) (val : Val) : Eval Unit :=
  match val with
  | .num r scale isNeg =>
    if isTopLevelPrintable e then do
      modify fun ip => { ip with last := val }
      let text ← liftM (formatRat host r (← get).obase scale isNeg)
      emit (.print (printWrapped host text ++ ['\n']))
    else pure ()
  | .str s => if isTopLevelPrintable e then emit (.print s.toList) else pure ()
  | _ => pure ()

def printArg (val : Val) : Eval Unit :=
  match val with
  | .num r scale isNeg => do
    let text ← liftM (formatRat host r (← get).obase scale isNeg)
    emit (.print (printWrapped host text))
  | .str s => emit (.print (unescapeBcString s.toList))
  | _ => pure ()

def printArgs : List Expr → Eval Unit
  | [] => pure ()
  | arg :: args => do
    let val ← self.eval false arg
    printArg host val
    printArgs args

def execBlock (tail : Bool) : List Stmt → Eval Flow
  | [] => return .normal
  | stmt :: stmts => do
    match ← self.execStmt (tail && stmts.isEmpty) (some stmt) with
    | .normal => execBlock tail stmts
    | flow => return flow

/-- Evaluates an expression for its effect, if it is there. -/
def evalOption : Option Expr → Eval Unit
  | none => pure ()
  | some e => do
    let _ ← self.eval false e

/-- Whether a loop goes on. A `for` without a condition does. -/
def loopTest : Option Expr → Eval Bool
  | none => return true
  | some e => do return (← self.eval false e).isTrue

def execLoop (cond step : Option Expr) (body : Option Stmt) : Eval Flow := do
  if ← loopTest self cond then
    match ← self.execStmt false body with
    | .returned val => return .returned val
    | .broken => return .normal
    | _ =>
      evalOption self step
      self.loop cond step body
  else return .normal

def execSome (tail : Bool) : Stmt → Eval Flow
  | .funcDecl name params autos autoArrays body void => do
    modify fun ip => { ip with
      functions := update ip.functions name (some ⟨params, autos, autoArrays, body, void⟩) }
    return .normal
  | .exprStmt e => do
    let val ← self.eval tail e
    printValue host e val
    return .normal
  | .blockStmt stmts => execBlock self tail stmts
  | .ifStmt cond thenStmt elseStmt => do
    let condVal ← self.eval false cond
    if condVal.isTrue then self.execStmt tail thenStmt else self.execStmt tail elseStmt
  | .whileStmt cond body => self.loop (some cond) none body
  | .forStmt init cond step body => do
    evalOption self init
    self.loop cond step body
  | .returnStmt none => return .returned .void
  | .returnStmt (some e) => do
    let val ← self.eval false e
    return .returned val
  | .breakStmt => return .broken
  | .continueStmt => return .continued
  | .haltStmt => do
    modify fun ip => { ip with halted := true, trace := ip.trace ++ [.halt tail] }
    return .normal
  | .printStmt args => do
    printArgs host self args
    return .normal

def execStmt (tail : Bool) : Option Stmt → Eval Flow
  | none => return .normal
  | some stmt => do
    emit .stmt
    execSome host self tail stmt

/-- `Execute`: the statements of a program, up to the one that halts. -/
def execute : List Stmt → Eval Unit
  | [] => pure ()
  | stmt :: stmts => do
    if (← get).halted then pure ()
    else
      let _ ← self.execStmt true (some stmt)
      execute stmts

end Level

/-! ## What a change of variables leaves alone -/

/-- The two states differ in their variables and arrays only. -/
def Interp.Stores (ip ip' : Interp) : Prop :=
  ∃ globals locals heap, ip' = { ip with globals := globals, locals := locals, heap := heap }

theorem Interp.Stores.refl (ip : Interp) : ip.Stores ip := ⟨_, _, _, rfl⟩

theorem Interp.Stores.trans {ip₁ ip₂ ip₃ : Interp} (h : ip₁.Stores ip₂) (h' : ip₂.Stores ip₃) :
    ip₁.Stores ip₃ := by
  obtain ⟨_, _, _, rfl⟩ := h
  obtain ⟨_, _, _, rfl⟩ := h'
  exact ⟨_, _, _, rfl⟩

theorem stores_updateScope (ip : Interp) (f : Scope → Scope) : ip.Stores (ip.updateScope f) := by
  unfold Interp.updateScope
  split <;> exact ⟨_, _, _, rfl⟩

theorem stores_setVar (name : String) (val : Val) (ip : Interp) :
    ip.Stores (ip.setVar name val) := by
  unfold Interp.setVar
  split
  · exact stores_updateScope _ _
  · split
    · exact ⟨_, _, _, rfl⟩
    · exact stores_updateScope _ _

theorem stores_alloc (a : List (Int × Val)) (ip : Interp) : ip.Stores (ip.alloc a).2 :=
  ⟨_, _, _, rfl⟩

theorem stores_getArrayRef (name : String) (ip : Interp) : ip.Stores (ip.getArrayRef name).2 := by
  unfold Interp.getArrayRef
  split
  · exact .refl ip
  · exact (stores_alloc [] ip).trans (stores_updateScope _ _)

theorem stores_setArray (name : String) (index : Int) (val : Val) (ip : Interp) :
    ip.Stores (ip.setArray name index val) := (stores_getArrayRef name ip).trans ⟨_, _, _, rfl⟩

theorem stores_bindParams (a : List (Param × Val)) (s : Scope) (ip : Interp) :
    ip.Stores (bindParams a s ip).2 := by
  induction a generalizing s ip with
  | nil => exact .refl ip
  | cons arg a ih =>
    unfold bindParams
    split
    · refine Interp.Stores.trans ?_ (ih _ _)
      split
      · split
        · exact .refl ip
        · exact stores_alloc _ ip
      · exact stores_alloc _ ip
    · exact ih _ _

theorem stores_bindAutoArrays (names : List String) (s : Scope) (ip : Interp) :
    ip.Stores (bindAutoArrays names s ip).2 := by
  induction names generalizing s ip with
  | nil => exact .refl ip
  | cons name names ih => exact (stores_alloc [] ip).trans (ih _ _)

theorem stores_enterCall (d : FuncDecl) (av : List Val) (ip : Interp) :
    ip.Stores (enterCall d av ip) :=
  (stores_bindParams _ _ ip).trans ((stores_bindAutoArrays _ _ _).trans ⟨_, _, _, rfl⟩)

/-! ## Runs -/

/-- The interpreter with calls nested, and loops turned, at most `fuel` times. -/
def interp (host : Host) : Nat → Rec
  | 0 => ⟨fun _ _ => throw .timeout, fun _ _ => throw .timeout, fun _ _ _ => throw .timeout⟩
  | fuel + 1 =>
    let self := interp host fuel
    ⟨execStmt host self, evalExpr host self, execLoop self⟩

def mathLibSource : String := "define e(x)\x7b
\tauto b,s,n,r,d,i,p,f,v
\tb=ibase
\tibase=A
\tif(x<0)\x7b
\t\tn=1
\t\tx=-x
\t\x7d
\ts=scale
\tr=6+s+.44*x
\tscale=scale(x)+1
\twhile(x>1)\x7b
\t\td+=1
\t\tx/=2
\t\tscale+=1
\t\x7d
\tscale=r
\tr=x+1
\tp=x
\tf=v=1
\tfor(i=2;v;++i)\x7b
\t\tp*=x
\t\tf*=i
\t\tv=p/f
\t\tr+=v
\t\x7d
\twhile(d--)r*=r
\tscale=s
\tibase=b
\tif(n)return(1/r)
\treturn(r/1)
\x7d
define l(x)\x7b
\tauto b,s,r,p,a,q,i,v
\tif(x<=0)return((1-A^scale)/1)
\tb=ibase
\tibase=A
\ts=scale
\tscale+=6
\tp=2
\twhile(x>=2)\x7b
\t\tp*=2
\t\tx=sqrt(x)
\t\x7d
\twhile(x<=.5)\x7b
\t\tp*=2
\t\tx=sqrt(x)
\t\x7d
\tr=a=(x-1)/(x+1)
\tq=a*a
\tv=1
\tfor(i=3;v;i+=2)\x7b
\t\ta*=q
\t\tv=a/i
\t\tr+=v
\t\x7d
\tr*=p
\tscale=s
\tibase=b
\treturn(r/1)
\x7d
define s(x)\x7b
\tauto b,s,r,a,q,i
\tif(x<0)return(-s(-x))
\tb=ibase
\tibase=A
\ts=scale
\tscale=1.1*s+2
\ta=a(1)
\tscale=0
\tq=(x/a+2)/4
\tx-=4*q*a
\tif(q%2)x=-x
\tscale=s+2
\tr=a=x
\tq=-x*x
\tfor(i=3;a;i+=2)\x7b
\t\ta*=q/(i*(i-1))
\t\tr+=a
\t\x7d
\tscale=s
\tibase=b
\treturn(r/1)
\x7d
define c(x)\x7b
\tauto b,s
\tb=ibase
\tibase=A
\ts=scale
\tscale*=1.2
\tx=s(2*a(1)+x)
\tscale=s
\tibase=b
\treturn(x/1)
\x7d
define a(x)\x7b
\tauto b,s,r,n,a,m,t,f,i,u
\tb=ibase
\tibase=A
\tn=1
\tif(x<0)\x7b
\t\tn=-1
\t\tx=-x
\t\x7d
\tif(scale<65)\x7b
\t\tif(x==1)\x7b
\t\t\tr=.7853981633974483096156608458198757210492923498437764552437361480/n
\t\t\tibase=b
\t\t\treturn(r)
\t\t\x7d
\t\tif(x==.2)\x7b
\t\t\tr=.1973955598498807583700497651947902934475851037878521015176889402/n
\t\t\tibase=b
\t\t\treturn(r)
\t\t\x7d
\t\x7d
\ts=scale
\tif(x>.2)\x7b
\t\tscale+=5
\t\ta=a(.2)
\t\x7d
\tscale=s+3
\twhile(x>.2)\x7b
\t\tm+=1
\t\tx=(x-.2)/(1+.2*x)
\t\x7d
\tr=u=x
\tf=-x*x
\tt=1
\tfor(i=3;t;i+=2)\x7b
\t\tu*=f
\t\tt=u/i
\t\tr+=t
\t\x7d
\tscale=s
\tibase=b
\treturn((m*a+r)/n)
\x7d
define j(n,x)\x7b
\tauto b,s,o,a,i,r,v,f
\tb=ibase
\tibase=A
\ts=scale
\tscale=0
\tn/=1
\tif(n<0)\x7b
\t\tn=-n
\t\to=n%2
\t\x7d
\ta=1
\tfor(i=2;i<=n;++i)a*=i
\tscale=1.5*s
\ta=(x^n)/2^n/a
\tr=v=1
\tf=-x*x/4
\tscale+=length(a)-scale(a)
\tfor(i=1;v;++i)\x7b
\t\tv=v*f/i/(n+i)
\t\tr+=v
\t\x7d
\tscale=s
\tibase=b
\tif(o)a=-a
\treturn(a*r/1)
\x7d
"

def Interp.initial (stdin : Option Stdin) (mathLib : Bool) : Interp where
  globals := Scope.empty
  locals := none
  heap := []
  functions := fun _ => none
  scale := if mathLib then 20 else 0
  ibase := 10
  obase := 10
  stdin := stdin
  halted := false
  last := zeroVal
  trace := []

/-- What `NewInterpreter` runs: the definitions of the math library. -/
def newInterpreter (host : Host) (fuel : Nat) (mathLib : Bool) : Eval Unit :=
  if mathLib then do
    let stmts ← mapError ("failed to parse math lib: " ++ ·) (liftM (parse mathLibSource.toList))
    mapError ("failed to execute math lib: " ++ ·) (execute (interp host fuel) stmts)
  else pure ()

/-- `Run`: parses the program, makes the interpreter and executes the program. -/
def run (host : Host) (fuel : Nat) (program : List Char) (stdin : Option Stdin) (mathLib : Bool) :
    Except Stop Unit × Interp :=
  let main : Eval Unit := do
    let stmts ← liftM (parse program)
    newInterpreter host fuel mathLib
    execute (interp host fuel) stmts
  exec main (Interp.initial stdin mathLib)

def Interp.output (ip : Interp) : List Char :=
  ip.trace.flatMap fun
    | .print text => text
    | _ => []

end GoPosix.Bc
