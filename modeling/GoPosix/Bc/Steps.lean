import GoPosix.Bc.Interp

/-!
# The steps of a run

The interpreter evaluates the operands of a node and then does what the node says. `Step` is one
such thing, with its values and the state it is done in; `steps` lists them for a run, in their
order.

Beside each function of the interpreter stands the one that lists its steps. It follows the same
branches, and takes the values and the states in between from the interpreter (`andThen`).
-/

namespace GoPosix.Bc

open Effects

inductive Prim
  /-- A number of the program is read in `ibase`. -/
  | literal (val : String)
  /-- The value of an index becomes the key of an element. It is void in `a[]`. -/
  | index (val : Val)
  /-- `a[]` as a value: the array of the name is looked up, or made. -/
  | arrayRef (name : String)
  /-- `++` or `--` of what has the value `curr`. -/
  | incDec (name : String) (index : Option Int) (curr : Val)
  /-- A variable, a register or an element is set. -/
  | write (name : String) (index : Option Int) (val : Val)
  | binary (op : TokenType) (lhs rhs : Val)
  | length (val : Val)
  | sqrt (val : Val)
  /-- A number is formatted in `obase`. -/
  | format (val : Val)
  /-- An expression has got its value. -/
  | value (val : Val)
  deriving DecidableEq

structure Step where
  prim : Prim
  /-- The state before the step. -/
  state : Interp

/-! ## Variables and registers -/

def Interp.readVal (ip : Interp) (name : String) : Val :=
  match name with
  | "scale" => newValNum ip.scale 0
  | "ibase" => newValNum ip.ibase 0
  | "obase" => newValNum ip.obase 0
  | "last" => ip.last
  | _ => ip.getVar name

theorem exec_readVar (name : String) (ip : Interp) :
    exec (readVar name) ip = (.ok (ip.readVal name), ip) := by
  unfold readVar Interp.readVal
  rw [exec_bind, exec_get]
  simp only
  split
  case h_5 => simp
  all_goals rfl

/-- The state that `assignVar` leaves. -/
def Interp.assigned (ip : Interp) (name : String) (val : Val) (r : Rat) : Interp :=
  match name with
  | "scale" => { ip with scale := ratToInt64 r }
  | "ibase" => { ip with ibase := clampIbase (ratToInt64 r) }
  | "obase" => { ip with obase := ratToInt64 r }
  | "last" => { ip with last := val }
  | _ => ip.setVar name val

/-- The value that `++` and `--` start from. -/
def Interp.current (ip : Interp) (name : String) (index : Option Int) : Val :=
  if name ∈ ["scale", "ibase", "obase", "last"] then ip.readVal name
  else match index with
    | some idx => ip.getArray name idx
    | none => ip.getVar name

/-! ## The steps of one level -/

/-- The steps of the functions that the interpreter comes back to. -/
structure Log where
  execStmt : (tail : Bool) → Option Stmt → Interp → List Step
  eval : (tail : Bool) → Expr → Interp → List Step
  loop : (cond step : Option Expr) → (body : Option Stmt) → Interp → List Step

section Level

variable (host : Host) (self : Rec) (log : Log)

def evalNilSteps : Option Expr → Interp → List Step
  | none => fun _ => []
  | some e => log.eval false e

def evalIndexSteps (index : Option Expr) : Interp → List Step :=
  andThen (evalNil self index) (evalNilSteps log index) fun val ip => [⟨.index val, ip⟩]

def evalAssignSteps (lhs rhs : Expr) : Interp → List Step :=
  andThen (self.eval false rhs) (log.eval false rhs) fun rhsVal =>
    match rhsVal, lhs with
    | .num _ _ _, .var name => fun ip => [⟨.write name none rhsVal, ip⟩]
    | .num _ _ _, .arrayAccess name index =>
      andThen (evalIndex self index) (evalIndexSteps self log index) fun idx ip =>
        [⟨.write name (some idx) rhsVal, ip⟩]
    | _, _ => fun _ => []

def evalTargetSteps : Expr → Interp → List Step
  | .arrayAccess _ index => evalIndexSteps self log index
  | _ => fun _ => []

/-- How `++` and `--` store what comes behind `r`. A register has no scale of its own. -/
def changeWrite (op : TokenType) (name : String) (index : Option Int) (r : Rat) (scale : Int) :
    Prim :=
  let next := if op = .inc then r + 1 else r - 1
  if name ∈ ["scale", "ibase", "obase", "last"] then .write name none (newValNum next 0)
  else .write name index (newValNum next scale)

/-- The steps of `++` and `--` behind the evaluation of an index. -/
def changeSteps (op : TokenType) (name : String) (index : Option Int) (ip : Interp) : List Step :=
  ⟨.incDec name index (ip.current name index), ip⟩ :: match ip.current name index with
    | .num r scale _ => [⟨changeWrite op name index r scale, ip⟩]
    | _ => []

def evalIncDecSteps (op : TokenType) (target : Expr) : Interp → List Step :=
  andThen (evalTarget self target) (evalTargetSteps self log target) fun (name, index) =>
    changeSteps op name index

def evalArgsSteps : List Expr → Interp → List Step
  | [] => fun _ => []
  | arg :: args => andThen (self.eval false arg) (log.eval false arg) fun _ => evalArgsSteps args

def readLoopSteps : List Stmt → Interp → List Step
  | [] => fun _ => []
  | .exprStmt e :: stmts =>
    andThen (self.eval false e) (log.eval false e) fun _ => readLoopSteps stmts
  | stmt :: stmts =>
    andThen (self.execStmt false (some stmt)) (log.execStmt false (some stmt)) fun _ =>
      readLoopSteps stmts

def readLineSteps (line : List Char) (ip : Interp) : List Step :=
  match parse line with
  | .ok stmts => readLoopSteps self log stmts ip
  | .error _ => []

def evalReadSteps (ip : Interp) : List Step :=
  match ip.stdin with
  | none => []
  | some stdin =>
    let line := stdin.text.takeWhile (· ≠ '\n')
    let behind := stdin.text.dropWhile (· ≠ '\n')
    match behind, stdin.failure with
    | [], some _ => []
    | _, _ =>
      let line := trimSpace line
      if line = [] ∧ behind = [] then []
      else readLineSteps self log line { ip with stdin := some { stdin with text := behind.tail } }

def evalCallSteps (tail : Bool) (name : String) (args : List Expr) (ip : Interp) : List Step :=
  match ip.functions name with
  | none => []
  | some decl =>
    if args.length ≠ decl.params.length then []
    else
      andThen (evalArgs self args) (evalArgsSteps self log args) (fun argVals ip =>
        log.execStmt (tail && decl.void) (some (.blockStmt decl.body)) (enterCall decl argVals ip))
          ip

/-- The argument of a built-in function, and the step that is done with its value, if any. -/
def evalBuiltinSteps (args : List Expr) (prim : Val → Option Prim) : Interp → List Step :=
  match args with
  | [arg] => andThen (self.eval false arg) (log.eval false arg) fun argVal ip =>
    (prim argVal).toList.map (⟨·, ip⟩)
  | _ => fun _ => []

def evalExprSteps (tail : Bool) : Expr → Interp → List Step
  | .paren e => log.eval tail e
  | .num val => fun ip => [⟨.literal val, ip⟩]
  | .string _ => fun _ => []
  | .var _ => fun _ => []
  | .arrayAccess name none => fun ip => [⟨.arrayRef name, ip⟩]
  | .arrayAccess _ (some index) => evalIndexSteps self log (some index)
  | .assign lhs rhs => evalAssignSteps self log lhs rhs
  | .binary op lhs rhs =>
    andThen (self.eval false lhs) (log.eval false lhs) fun lhsVal =>
      andThen (self.eval false rhs) (log.eval false rhs) fun rhsVal ip =>
        [⟨.binary op lhsVal rhsVal, ip⟩]
  | .unary op e _ =>
    if op = .inc ∨ op = .dec then evalIncDecSteps self log op e
    else log.eval false e
  | .call name args =>
    match name with
    | "length" => evalBuiltinSteps self log args fun argVal => some (.length argVal)
    | "scale" => evalBuiltinSteps self log args fun _ => none
    | "sqrt" => evalBuiltinSteps self log args fun argVal => some (.sqrt argVal)
    | "read" => if args = [] then evalReadSteps self log else fun _ => []
    | _ => evalCallSteps self log tail name args

/-- The steps of an expression and the one in which it has got its value. -/
def evalSteps (tail : Bool) (e : Expr) : Interp → List Step :=
  andThen (evalExpr host self tail e) (evalExprSteps self log tail e) fun val ip =>
    [⟨.value val, ip⟩]

def printValueSteps (e : Expr) (val : Val) (ip : Interp) : List Step :=
  match val with
  | .num _ _ _ => if isTopLevelPrintable e then [⟨.format val, { ip with last := val }⟩] else []
  | _ => []

def printArgSteps (val : Val) (ip : Interp) : List Step :=
  match val with
  | .num _ _ _ => [⟨.format val, ip⟩]
  | _ => []

def printArgsSteps : List Expr → Interp → List Step
  | [] => fun _ => []
  | arg :: args =>
    andThen (self.eval false arg) (log.eval false arg) fun val =>
      andThen (printArg host val) (printArgSteps val) fun _ => printArgsSteps args

def execBlockSteps (tail : Bool) : List Stmt → Interp → List Step
  | [] => fun _ => []
  | stmt :: stmts =>
    andThen (self.execStmt (tail && stmts.isEmpty) (some stmt))
      (log.execStmt (tail && stmts.isEmpty) (some stmt)) fun
        | .normal => execBlockSteps tail stmts
        | _ => fun _ => []

def execLoopSteps (cond step : Option Expr) (body : Option Stmt) : Interp → List Step :=
  andThen (loopTest self cond) (evalNilSteps log cond) fun go =>
    if go then
      andThen (self.execStmt false body) (log.execStmt false body) fun
        | .returned _ => fun _ => []
        | .broken => fun _ => []
        | _ => andThen (evalOption self step) (evalNilSteps log step) fun _ =>
          log.loop cond step body
    else fun _ => []

def execSomeSteps (tail : Bool) : Stmt → Interp → List Step
  | .funcDecl _ _ _ _ _ _ => fun _ => []
  | .exprStmt e => andThen (self.eval tail e) (log.eval tail e) fun val => printValueSteps e val
  | .blockStmt stmts => execBlockSteps self log tail stmts
  | .ifStmt cond thenStmt elseStmt =>
    andThen (self.eval false cond) (log.eval false cond) fun condVal =>
      if condVal.isTrue then log.execStmt tail thenStmt else log.execStmt tail elseStmt
  | .whileStmt cond body => log.loop (some cond) none body
  | .forStmt init cond step body =>
    andThen (evalOption self init) (evalNilSteps log init) fun _ => log.loop cond step body
  | .returnStmt e => evalNilSteps log e
  | .breakStmt => fun _ => []
  | .continueStmt => fun _ => []
  | .haltStmt => fun _ => []
  | .printStmt args => printArgsSteps host self log args

def execStmtSteps (tail : Bool) : Option Stmt → Interp → List Step
  | none => fun _ => []
  | some stmt => fun ip =>
    execSomeSteps host self log tail stmt { ip with trace := ip.trace ++ [.stmt] }

def executeSteps : List Stmt → Interp → List Step
  | [] => fun _ => []
  | stmt :: stmts => fun ip =>
    if ip.halted then []
    else
      andThen (self.execStmt true (some stmt)) (log.execStmt true (some stmt))
        (fun _ => executeSteps stmts) ip

end Level

/-! ## The steps of a run -/

def logs (host : Host) : Nat → Log
  | 0 => ⟨fun _ _ _ => [], fun _ _ _ => [], fun _ _ _ _ => []⟩
  | fuel + 1 =>
    let self := interp host fuel
    let log := logs host fuel
    ⟨execStmtSteps host self log, evalSteps host self log, execLoopSteps self log⟩

def librarySteps (host : Host) (fuel : Nat) (text : List Char) (ip : Interp) : List Step :=
  match parse text with
  | .ok stmts => executeSteps (interp host fuel) (logs host fuel) stmts ip
  | .error _ => []

def newInterpreterSteps (host : Host) (fuel : Nat) (mathLib : Bool) (ip : Interp) : List Step :=
  if mathLib then librarySteps host fuel mathLibSource.toList ip else []

def steps (host : Host) (fuel : Nat) (program : List Char) (stdin : Option Stdin)
    (mathLib : Bool) : List Step :=
  match parse program with
  | .ok stmts =>
    andThen (newInterpreter host fuel mathLib) (newInterpreterSteps host fuel mathLib)
      (fun _ => executeSteps (interp host fuel) (logs host fuel) stmts)
      (Interp.initial stdin mathLib)
  | .error _ => []

end GoPosix.Bc
