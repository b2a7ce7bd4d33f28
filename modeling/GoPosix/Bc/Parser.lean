import GoPosix.Bc.Lexer
import GoPosix.Lib.Effects

/-!
# The parser of bc

The recursive descent of `pkg/bc/bc.go`. The parser is the list of the tokens that are left; its
last one is the end, which `next` does not take.

Each function is written once over a `Parser.Rec` of the four functions that the descent comes back
to, and `parsers` ties the knot on fuel. A call through `Rec` comes only behind a token that has
been taken, so that as many levels as there are tokens suffice (`parse_ne_timeout`).
`Consumes n k m` carries this: on fewer than `n` tokens, `m` does not run out of fuel or panic, and
takes at least `k` of them if it succeeds.
-/

namespace GoPosix.Bc

open Effects

abbrev Parse := Prog (List Token)

namespace Parser

def peek : Parse Token := do
  return (← get).headD ⟨.eof, ""⟩

def next : Parse Token := do
  let tok ← peek
  modify fun toks => if tok.type = .eof then toks else toks.tail
  return tok

/-- `match`: takes the next token if it is a `t`. -/
def accept (t : TokenType) : Parse Bool := do
  if (← peek).type = t then
    let _ ← next
    return true
  return false

def require (cond : Bool) (msg : String) : Parse Unit :=
  if cond then pure () else throw (.error msg)

def expectIdent (msg : String) : Parse String := do
  let tok ← next
  require (tok.type = .ident) msg
  return tok.val

def expect (t : TokenType) (msg : String) : Parse Unit := do
  require (← accept t) msg

def skipNewlines : Parse Unit := modify (·.dropWhile (·.type = .newline))

/-- The functions that the descent comes back to. -/
structure Rec where
  parseStmt : Parse (Option Stmt)
  parseAssignment : Parse Expr
  parsePower : Parse Expr
  parseUnary : Parse Expr

/-! ## Loops -/

/-- Items with commas between them. The loop ends before an item that starts with one of the
tokens in `stop`, and behind an item without a comma. -/
def commaLoop {α : Type} (stop : List TokenType) (item : Parse α) : Nat → Parse (List α)
  | 0 => throw .timeout
  | fuel + 1 => do
    if (← peek).type ∈ stop then return []
    let a ← item
    if ← accept .comma then
      let as ← commaLoop stop item fuel
      return a :: as
    return [a]

def commaList {α : Type} (stop : List TokenType) (item : Parse α) : Parse (List α) := do
  commaLoop stop item ((← get).length + 1)

/-- Statements up to one of the tokens in `stop`, without the empty ones. Newlines before a
statement are skipped, and behind them only `close` ends the list. -/
def stmtLoop (stop : List TokenType) (close : TokenType) (parseStmt : Parse (Option Stmt)) :
    Nat → Parse (List Stmt)
  | 0 => throw .timeout
  | fuel + 1 => do
    if (← peek).type ∈ stop then return []
    skipNewlines
    if (← peek).type = close then return []
    let stmt ← parseStmt
    let stmts ← stmtLoop stop close parseStmt fuel
    return stmt.toList ++ stmts

def stmtList (stop : List TokenType) (close : TokenType) (parseStmt : Parse (Option Stmt)) :
    Parse (List Stmt) := do
  stmtLoop stop close parseStmt ((← get).length + 1)

/-- Operators of one level behind the left operand `expr`, which they take from the left. -/
def binaryLoop (ops : List TokenType) (operand : Parse Expr) : Nat → Expr → Parse Expr
  | 0, _ => throw .timeout
  | fuel + 1, expr => do
    if (← peek).type ∈ ops then
      let tok ← next
      let rhs ← operand
      binaryLoop ops operand fuel (.binary tok.type expr rhs)
    else return expr

def binaryLevel (ops : List TokenType) (operand : Parse Expr) : Parse Expr := do
  let expr ← operand
  binaryLoop ops operand ((← get).length + 1) expr

/-! ## Expressions -/

/-- `fmt.Errorf("unexpected token %v", tok)`, where the type is printed as its number. -/
def unexpected (tok : Token) : String :=
  "unexpected token \x7b" ++ toString tok.type.ctorIdx ++ " " ++ tok.val ++ "\x7d"

/-- `++` or `--` behind a variable. -/
def postfixIncDec (expr : Expr) : Parse Expr := do
  let t := (← peek).type
  if t = .inc ∨ t = .dec then
    let postTok ← next
    return .unary postTok.type expr true
  return expr

def parsePrimary (self : Rec) : Parse Expr := do
  let tok ← peek
  match tok.type with
  | .number =>
    let _ ← next
    return .num tok.val
  | .string =>
    let _ ← next
    return .string tok.val
  | .ident =>
    let _ ← next
    let name := tok.val
    if ← accept .lparen then
      let args ← commaList [.rparen, .eof] self.parseAssignment
      expect .rparen "expected ) in call"
      return .call name args
    if ← accept .lbracket then
      if ← accept .rbracket then return .arrayAccess name none
      let idx ← self.parseAssignment
      expect .rbracket "expected ] in array access"
      return .arrayAccess name (some idx)
    -- only a plain variable can have `++` or `--` behind it
    postfixIncDec (.var name)
  | .lparen =>
    let _ ← next
    let expr ← self.parseAssignment
    expect .rparen "expected )"
    return .paren expr
  | .dot =>
    let _ ← next
    postfixIncDec (.var "last")
  | _ => throw (.error (unexpected tok))

def parseUnary (self : Rec) : Parse Expr := do
  let t := (← peek).type
  if t ∈ [.minus, .plus, .not, .inc, .dec] then
    let tok ← next
    let expr ← self.parseUnary
    return .unary tok.type expr false
  parsePrimary self

def parsePower (self : Rec) : Parse Expr := do
  let expr ← parseUnary self
  if (← peek).type = .power then
    let tok ← next
    let rhs ← self.parsePower
    return .binary tok.type expr rhs
  return expr

def parseMulDivMod (self : Rec) : Parse Expr := binaryLevel [.mul, .div, .mod] (parsePower self)

def parseAddSub (self : Rec) : Parse Expr := binaryLevel [.plus, .minus] (parseMulDivMod self)

def parseComparison (self : Rec) : Parse Expr :=
  binaryLevel [.eq, .ne, .lt, .le, .gt, .ge] (parseAddSub self)

def parseAnd (self : Rec) : Parse Expr := binaryLevel [.and] (parseComparison self)

def parseOr (self : Rec) : Parse Expr := binaryLevel [.or] (parseAnd self)

def compoundOp : TokenType → Option TokenType
  | .plusAssign => some .plus
  | .minusAssign => some .minus
  | .mulAssign => some .mul
  | .divAssign => some .div
  | .powAssign => some .power
  | .modAssign => some .mod
  | _ => none

/-- `x op= y` becomes `x = x op y`, with the left side twice. -/
def parseAssignment (self : Rec) : Parse Expr := do
  let expr ← parseOr self
  let t := (← peek).type
  if t = .assign then
    let _ ← next
    let rhs ← self.parseAssignment
    return .assign expr rhs
  match compoundOp t with
  | some binOp =>
    let _ ← next
    let rhs ← self.parseAssignment
    return .assign expr (.binary binOp expr rhs)
  | none => return expr

/-! ## Statements -/

def acceptBrackets (msg : String) : Parse Bool := do
  if ← accept .lbracket then
    expect .rbracket msg
    return true
  return false

/-- A parameter: a name, with `[]` for an array and `*` before it for an array by reference. -/
def parseParam : Parse Param := do
  let isRef ← accept .mul
  let name ← expectIdent "expected param name"
  let isArray ← acceptBrackets "expected ] in param array"
  require (!isRef || isArray) "reference operator * only allowed on array parameters"
  return ⟨name, isArray, isRef⟩

/-- An auto variable, and whether it is an array. -/
def parseAuto : Parse (String × Bool) := do
  let name ← expectIdent "expected auto variable name"
  let isArray ← acceptBrackets "expected ] in auto array"
  return (name, isArray)

def parseAutos : Parse (List (String × Bool)) := do
  if ← accept .keywordAuto then
    let autos ← commaList [] parseAuto
    let _ ← accept .semicolon
    skipNewlines
    return autos
  return []

/-- Whether the word `void` stands before the name of a function. -/
def parseVoid : Parse Bool := do
  match ← get with
  | first :: second :: _ =>
    if first.type = .ident ∧ first.val = "void" ∧ second.type = .ident then
      let _ ← next
      return true
    return false
  | _ => return false

def parseDefine (self : Rec) : Parse (Option Stmt) := do
  let _ ← next
  let isVoid ← parseVoid
  let name ← expectIdent "expected function name"
  expect .lparen "expected ("
  let params ← commaList [.rparen, .eof] parseParam
  expect .rparen "expected )"
  skipNewlines
  expect .lbrace "expected \x7b"
  skipNewlines
  let autos ← parseAutos
  let stmts ← stmtList [.rbrace, .eof] .rbrace self.parseStmt
  expect .rbrace "expected \x7d in define body"
  return some (.funcDecl name params
    ((autos.filter fun a => !a.2).map (·.1)) ((autos.filter (·.2)).map (·.1)) stmts isVoid)

/-- An expression of a `for` loop, which is missing where the token `close` comes first. -/
def parseForExpr (self : Rec) (close : TokenType) (msg : String) : Parse (Option Expr) := do
  if (← peek).type = close then
    expect close msg
    return none
  let expr ← parseAssignment self
  expect close msg
  return some expr

/-- The condition of an `if` or a `while`, in parentheses. -/
def parseCond (self : Rec) : Parse Expr := do
  expect .lparen "expected ("
  let cond ← parseAssignment self
  expect .rparen "expected )"
  return cond

def parseIf (self : Rec) : Parse (Option Stmt) := do
  let _ ← next
  let cond ← parseCond self
  skipNewlines
  let thenStmt ← self.parseStmt
  skipNewlines
  if ← accept .keywordElse then
    skipNewlines
    let elseStmt ← self.parseStmt
    return some (.ifStmt cond thenStmt elseStmt)
  return some (.ifStmt cond thenStmt none)

def parseWhile (self : Rec) : Parse (Option Stmt) := do
  let _ ← next
  let cond ← parseCond self
  skipNewlines
  let body ← self.parseStmt
  return some (.whileStmt cond body)

def parseFor (self : Rec) : Parse (Option Stmt) := do
  let _ ← next
  expect .lparen "expected ("
  let initExpr ← parseForExpr self .semicolon "expected ; in for loop init"
  let condExpr ← parseForExpr self .semicolon "expected ; in for loop cond"
  let stepExpr ← parseForExpr self .rparen "expected ) in for loop step"
  skipNewlines
  let body ← self.parseStmt
  return some (.forStmt initExpr condExpr stepExpr body)

def parseReturn (self : Rec) : Parse (Option Stmt) := do
  let _ ← next
  if (← peek).type ∈ [.newline, .semicolon, .eof, .rbrace] then
    let _ ← accept .semicolon
    return some (.returnStmt none)
  let retExpr ← parseAssignment self
  let _ ← accept .semicolon
  return some (.returnStmt (some retExpr))

def parseWord (stmt : Stmt) : Parse (Option Stmt) := do
  let _ ← next
  let _ ← accept .semicolon
  return some stmt

def parsePrint (self : Rec) : Parse (Option Stmt) := do
  let _ ← next
  let args ← commaList [] (parseAssignment self)
  let _ ← accept .semicolon
  return some (.printStmt args)

def parseBlock (self : Rec) : Parse (Option Stmt) := do
  let _ ← next
  let stmts ← stmtList [.rbrace, .eof] .rbrace self.parseStmt
  expect .rbrace "expected \x7d"
  return some (.blockStmt stmts)

def parseExprStmt (self : Rec) : Parse (Option Stmt) := do
  let expr ← parseAssignment self
  let _ ← accept .semicolon
  let _ ← accept .newline
  return some (.exprStmt expr)

def parseStmt (self : Rec) : Parse (Option Stmt) := do
  if ← accept .semicolon then return none
  match (← peek).type with
  | .lbrace => parseBlock self
  | .keywordIf => parseIf self
  | .keywordWhile => parseWhile self
  | .keywordFor => parseFor self
  | .keywordReturn => parseReturn self
  | .keywordBreak => parseWord .breakStmt
  | .keywordContinue => parseWord .continueStmt
  | .keywordHalt => parseWord .haltStmt
  | .keywordPrint => parsePrint self
  | .keywordDefine => parseDefine self
  | _ => parseExprStmt self

end Parser

/-- The parser with calls nested at most `fuel` deep. -/
def parsers : Nat → Parser.Rec
  | 0 => ⟨throw .timeout, throw .timeout, throw .timeout, throw .timeout⟩
  | fuel + 1 =>
    let self := parsers fuel
    ⟨Parser.parseStmt self, Parser.parseAssignment self, Parser.parsePower self,
      Parser.parseUnary self⟩

/-- The statements of a text, or the message of the first syntax error. -/
def parse (text : List Char) : Except Stop (List Stmt) :=
  let toks := tokens text
  (exec (Parser.stmtList [.eof] .eof (parsers (toks.length + 1)).parseStmt) toks).1

/-! ## The fuel suffices -/

namespace Parser

/-- A success that leaves at least `k` tokens fewer than `toks`, or an error that is reported: no
panic, and not for want of fuel. -/
def Yields {α : Type} (k : Nat) (toks : List Token) : Except Stop α × List Token → Prop
  | (.ok _, rest) => rest.length + k ≤ toks.length
  | (.error e, _) => ∃ msg, e = .error msg

/-- On fewer than `n` tokens, the first of which is such that `P` holds, the parser takes at least
`k` tokens or reports an error. -/
def ConsumesIf {α : Type} (P : Token → Prop) (n k : Nat) (m : Parse α) : Prop :=
  ∀ toks : List Token, toks.length < n → P (toks.headD ⟨.eof, ""⟩) → Yields k toks (exec m toks)

abbrev Consumes {α : Type} (n k : Nat) (m : Parse α) : Prop := ConsumesIf (fun _ => True) n k m

variable {α β : Type}

theorem ConsumesIf.mono (h : ConsumesIf P n k m) (hP : ∀ tok, Q tok → P tok)
    (hn : n' ≤ n) (hk : k' ≤ k) : ConsumesIf Q n' k' m := by
  intro t hl hQ
  have hy := h t (Nat.lt_of_lt_of_le hl hn) (hP _ hQ)
  generalize exec m t = o at hy
  obtain ⟨_ | a, rest⟩ := o
  · exact hy
  · exact Nat.le_trans (Nat.add_le_add_left hk _) hy

theorem Consumes.of_le (h : Consumes n k m) (hn : n' ≤ n) (hk : k' ≤ k) : ConsumesIf P n' k' m :=
  h.mono (fun _ _ => trivial) hn hk

/-- With fewer tokens to take from. -/
theorem Consumes.less (h : Consumes n k m) (hn : n' ≤ n := by omega) : ConsumesIf P n' k m :=
  h.of_le hn (Nat.le_refl k)

theorem consumes_pure (a : α) : ConsumesIf P n 0 (pure a) := fun _ _ _ => Nat.le_refl _

theorem consumes_error (m : String) : ConsumesIf P n k (throw (.error m) : Parse α) :=
  fun _ _ _ => ⟨m, rfl⟩

/-- **Sequencing.** What the first parser takes is not there for the second. -/
theorem ConsumesIf.bind (hm : ConsumesIf P n k m)
    (hf : ∀ a, Consumes (n - k) l (f a)) : ConsumesIf P n (k + l) (m >>= f) := by
  intro t hl hP
  have hy := hm t hl hP
  rw [exec_bind]
  generalize exec m t = o at hy
  obtain ⟨_ | a, rest⟩ := o
  · exact hy
  have hr : rest.length + k ≤ t.length := hy
  have hy' := hf a rest (by omega) trivial
  change Yields (k + l) t (exec (f a) rest)
  generalize exec (f a) rest = o at hy'
  obtain ⟨_ | b, rest'⟩ := o
  · exact hy'
  · have hr' : rest'.length + l ≤ rest.length := hy'
    change rest'.length + (k + l) ≤ t.length
    omega

/-- Behind a parser that takes at least one token, another one that need not take any. -/
theorem ConsumesIf.andThen (hm : ConsumesIf P n 1 m)
    (hf : ∀ a, Consumes (n - 1) 0 (f a)) : ConsumesIf P n 1 (m >>= f) := hm.bind hf

theorem ConsumesIf.before (hm : ConsumesIf P n l m)
    (hf : ∀ a, Consumes n k (f a)) : ConsumesIf P n k (m >>= f) :=
  ((hm.mono (fun _ h => h) (Nat.le_refl n) (Nat.zero_le l)).bind hf).mono
    (fun _ h => h) (Nat.le_refl n) (Nat.le_of_eq (Nat.zero_add k).symm)

theorem ConsumesIf.done (hm : ConsumesIf P n k m) (f : α → β) :
    ConsumesIf P n 0 (m >>= fun a => pure (f a)) :=
  hm.before fun a => consumes_pure (f a)

/-! ### The single tokens -/

theorem consumes_peek (h : ∀ tok, ConsumesIf (· = tok) n k (f tok)) : Consumes n k (peek >>= f) :=
  fun t hl _ => h _ t hl rfl

theorem exec_next (t : List Token) : exec next t = (.ok (t.headD ⟨.eof, ""⟩),
      if (t.headD ⟨.eof, ""⟩).type = .eof then t else t.tail) := rfl

theorem consumes_next : ConsumesIf P n 0 next := by
  intro t _ _
  change (if _ then t else t.tail).length + 0 ≤ t.length
  split
  · exact Nat.le_refl _
  · simp

theorem ConsumesIf.next (h : ∀ tok, P tok → tok.type ≠ .eof) : ConsumesIf P n 1 next := by
  intro t _ hP
  have hne := h _ hP
  rw [exec_next, if_neg hne]
  cases t with
  | nil => exact absurd rfl hne
  | cons tok t => exact Nat.le_refl _

theorem consumes_take (htype : tok.type = t)
    (hf : ∀ a, Consumes (n - 1) 0 (f a)) (ht : t ≠ .eof := by decide) :
    ConsumesIf (· = tok) n 1 (next >>= f) :=
  (ConsumesIf.next (P := (· = tok)) fun _ heq => heq ▸ htype ▸ ht).andThen hf

theorem consumes_require (c : Bool) (m : String) : ConsumesIf P n 0 (require c m) := by
  unfold require
  split
  · exact consumes_pure _
  · exact consumes_error _

theorem consumes_expectIdent (m : String) : Consumes n 1 (expectIdent m) := by
  intro t hl _
  unfold expectIdent
  rw [exec_bind, exec_next]
  by_cases hi : (t.headD ⟨.eof, ""⟩).type = .ident
  · have hne : (t.headD ⟨.eof, ""⟩).type ≠ .eof := by rw [hi]; exact TokenType.noConfusion
    have hy := ConsumesIf.next (fun _ h => h) t hl hne
    simp only [hi, decide_true]
    exact hi ▸ hy
  · simp only [hi]
    exact ⟨m, rfl⟩

theorem exec_accept (t : TokenType) (tk : List Token) : exec (accept t) tk =
    if (tk.headD ⟨.eof, ""⟩).type = t then (.ok true, (exec next tk).2)
    else (.ok false, tk) := by
  change exec (if _ then _ else _) tk = _
  split <;> rfl

theorem consumes_accept (t : TokenType) : ConsumesIf P n 0 (accept t) := by
  intro tk hl _
  rw [exec_accept]
  split
  · exact consumes_next (P := fun _ => True) tk hl trivial
  · exact Nat.le_refl _

/-- Where a token is taken if it is there: it has been taken in the one case and not in the
other. -/
theorem consumes_accept_bind
    (htrue : Consumes (n - 1) (k - 1) (f true)) (hf : Consumes n k (f false))
      (ht : t ≠ .eof := by decide) :
    Consumes n k (accept t >>= f) := by
  intro tk hl _
  rw [exec_bind, exec_accept]
  by_cases h : (tk.headD ⟨.eof, ""⟩).type = t
  · have htaken : ConsumesIf (fun tok => tok.type = t) n (1 + (k - 1)) (next >>= fun _ => f true) :=
      (ConsumesIf.next (P := fun tok => tok.type = t) fun _ h => h ▸ ht).bind fun _ => htrue
    rw [if_pos h]
    exact htaken.mono (fun _ h => h) (Nat.le_refl n) (by omega) tk hl h
  · rw [if_neg h]
    exact hf tk hl trivial

theorem consumes_expect (m : String) (ht : t ≠ .eof := by decide) : Consumes n 1 (expect t m) :=
  consumes_accept_bind (consumes_pure _) (consumes_error _) ht

theorem consumes_skipNewlines : ConsumesIf P n 0 skipNewlines :=
  fun _ _ _ => (List.dropWhile_sublist _).length_le

/-! ### The loops -/

/-- A loop whose every turn takes a token needs no more turns than there are tokens. -/
theorem consumes_commaLoop (stop : List TokenType)
    (hi : Consumes n 1 i) (hf : n ≤ f) : Consumes n 0 (commaLoop stop i f) := by
  induction f generalizing n with
  | zero => exact fun t hl => by omega
  | succ f ih =>
    refine consumes_peek fun tok => ?_
    split
    · exact consumes_pure _
    refine ConsumesIf.mono ?_ (fun _ _ => trivial) (Nat.le_refl n) (Nat.zero_le 1)
    refine hi.andThen fun a => ?_
    refine consumes_accept_bind ?_ (consumes_pure _)
    have hr : Consumes (n - 1 - 1) 0 (commaLoop stop i f) := ih (hi.less) (by omega)
    exact hr.done _

theorem consumes_commaList (stop : List TokenType) (hi : Consumes n 1 i) :
    Consumes n 0 (commaList stop i) :=
  fun t hl _ => consumes_commaLoop stop (hi.of_le hl (Nat.le_refl 1))
    (Nat.le_refl _) t (Nat.lt_succ_self _) trivial

theorem consumes_stmtLoop (stop : List TokenType) (close : TokenType)
    (hi : Consumes n 1 item) (hf : n ≤ f) : Consumes n 0 (stmtLoop stop close item f) := by
  induction f generalizing n with
  | zero => exact fun t hl => by omega
  | succ f ih =>
    refine consumes_peek fun tok => ?_
    split
    · exact consumes_pure _
    refine ConsumesIf.before consumes_skipNewlines fun _ => ?_
    refine consumes_peek fun tok => ?_
    split
    · exact consumes_pure _
    · refine ConsumesIf.mono ?_ (fun _ _ => trivial) (Nat.le_refl n) (Nat.zero_le 1)
      refine hi.andThen fun s => ?_
      have hr : Consumes (n - 1) 0 (stmtLoop stop close item f) := ih (hi.less) (by omega)
      exact hr.done _

theorem consumes_stmtList (stop : List TokenType) (close : TokenType)
    (hi : Consumes n 1 item) : Consumes n 0 (stmtList stop close item) :=
  fun t hl _ => consumes_stmtLoop stop close (hi.of_le hl (Nat.le_refl 1))
    (Nat.le_refl _) t (Nat.lt_succ_self _) trivial

theorem consumes_binaryLoop (hop : .eof ∉ ops)
    (ho : Consumes n 1 operand) (hf : n ≤ f) (expr : Expr) :
    Consumes n 0 (binaryLoop ops operand f expr) := by
  induction f generalizing n expr with
  | zero => exact fun toks hl => by omega
  | succ f ih =>
    refine consumes_peek fun tok => ?_
    split
    · next hm =>
      refine ConsumesIf.mono ?_ (fun _ h => h) (Nat.le_refl n) (Nat.zero_le 1)
      have hne : ∀ t : Token, t = tok → t.type ≠ .eof := by
        rintro _ rfl he
        exact hop (he ▸ hm)
      refine (ConsumesIf.next hne).andThen fun op => ?_
      have hr : Consumes (n - 1) 1 operand := ho.less
      refine ConsumesIf.mono ?_ (fun _ h => h) (Nat.le_refl _) (Nat.zero_le 1)
      refine hr.andThen fun rhs => ?_
      exact ih (ho.less) (by omega) _
    · exact consumes_pure _

theorem consumes_binaryLevel (hop : .eof ∉ o)
    (ho : Consumes n 1 operand) : Consumes n 1 (binaryLevel o operand) :=
  ho.andThen fun expr t hl _ =>
    consumes_binaryLoop hop ho.less (Nat.le_refl _) expr t (Nat.lt_succ_self _) trivial

/-! ### The functions of the descent -/

/-- The functions that the descent comes back to have fuel for `n` tokens. -/
structure Rec.Enough (n : Nat) (r : Rec) : Prop where
  stmt : Consumes n 1 r.parseStmt
  assignment : Consumes n 1 r.parseAssignment
  power : Consumes n 1 r.parsePower
  unary : Consumes n 1 r.parseUnary

theorem consumes_postfixIncDec (expr : Expr) : Consumes n 0 (postfixIncDec expr) := by
  refine consumes_peek fun t => ?_
  simp only
  split
  · exact consumes_next.done _
  · exact consumes_pure _

theorem consumes_parsePrimary (h : r.Enough n) : Consumes (n + 1) 1 (parsePrimary r) := by
  refine consumes_peek fun t => ?_
  cases ht : t.type
  case number | string =>
    exact consumes_take ht fun _ => consumes_pure _
  case ident =>
    refine consumes_take ht fun _ => ?_
    refine consumes_accept_bind ?_ ?_
    · refine (consumes_commaList _ h.assignment.less).before fun _ => ?_
      exact (consumes_expect _).done _
    · refine consumes_accept_bind ?_ (consumes_postfixIncDec _)
      refine consumes_accept_bind (consumes_pure _) ?_
      refine h.assignment.less.before fun _ => ?_
      exact (consumes_expect _).done _
  case lparen =>
    refine consumes_take ht fun _ => ?_
    refine ConsumesIf.before h.assignment fun _ => ?_
    exact (consumes_expect _).done _
  case dot =>
    exact consumes_take ht fun _ => consumes_postfixIncDec _
  all_goals exact consumes_error _

theorem consumes_parseUnary (h : r.Enough n) : Consumes (n + 1) 1 (parseUnary r) := by
  refine consumes_peek fun tok => ?_
  simp only
  split
  · next hm =>
    have hne : ∀ t : Token, t = tok → t.type ≠ .eof := by
      rintro _ rfl he
      rw [he] at hm
      exact absurd hm (by decide)
    refine (ConsumesIf.next hne).andThen fun _ => ?_
    exact h.unary.done _
  · exact (consumes_parsePrimary h).less

theorem consumes_parsePower (h : r.Enough n) : Consumes (n + 1) 1 (parsePower r) := by
  refine (consumes_parseUnary h).andThen fun _ => ?_
  refine consumes_peek fun t => ?_
  split
  · refine consumes_next.before fun _ => ?_
    exact h.power.done _
  · exact consumes_pure _

theorem consumes_parseOr (h : r.Enough n) : Consumes (n + 1) 1 (parseOr r) := by
  refine consumes_binaryLevel (by decide) ?_
  refine consumes_binaryLevel (by decide) ?_
  refine consumes_binaryLevel (by decide) ?_
  refine consumes_binaryLevel (by decide) ?_
  exact consumes_binaryLevel (by decide) (consumes_parsePower h)

theorem consumes_parseAssignment (h : r.Enough n) : Consumes (n + 1) 1 (parseAssignment r) := by
  refine (consumes_parseOr h).andThen fun _ => ?_
  refine consumes_peek fun t => ?_
  simp only
  split
  · refine consumes_next.before fun _ => ?_
    exact h.assignment.done _
  · split
    · refine consumes_next.before fun _ => ?_
      exact h.assignment.done _
    · exact consumes_pure _

/-! ### The statements -/

theorem consumes_acceptBrackets (m : String) : Consumes n 0 (acceptBrackets m) := by
  refine consumes_accept_bind ?_ (consumes_pure _)
  exact (consumes_expect m).done _

theorem consumes_parseParam : Consumes n 1 parseParam := by
  refine (consumes_accept _).before fun _ => ?_
  refine (consumes_expectIdent _).andThen fun _ => ?_
  refine (consumes_acceptBrackets _).before fun _ => ?_
  exact (consumes_require _ _).done _

theorem consumes_parseAutos : Consumes n 0 parseAutos := by
  have hauto : ∀ {m}, Consumes m 1 parseAuto :=
    (consumes_expectIdent _).andThen fun _ => (consumes_acceptBrackets _).done _
  refine consumes_accept_bind ?_ (consumes_pure _)
  refine (consumes_commaList _ hauto).before fun _ => ?_
  refine (consumes_accept _).before fun _ => ?_
  exact consumes_skipNewlines.done _

theorem consumes_parseVoid : Consumes n 0 parseVoid := by
  intro t hl _
  match t, hl with
  | [], _ => exact Nat.le_refl _
  | [_], _ => exact Nat.le_refl _
  | first :: second :: rest, hl =>
    change Yields 0 _ (exec (if _ then _ else _) _)
    split
    · exact ConsumesIf.before (P := fun _ => True) consumes_next (fun _ => consumes_pure _) _ hl
        trivial
    · exact Nat.le_refl _

theorem consumes_parseForExpr (h : r.Enough n) (m : String)
    (hc : close ≠ .eof := by decide) : Consumes n 0 (parseForExpr r close m) := by
  refine consumes_peek fun t => ?_
  have he : Consumes n 1 (expect close m) := consumes_expect m hc
  split
  · exact he.less.done _
  · refine (consumes_parseAssignment h).less.before fun _ => ?_
    exact he.done _

theorem consumes_parseCond (h : r.Enough n) : Consumes n 0 (parseCond r) := by
  refine (consumes_expect _).before fun _ => ?_
  refine (consumes_parseAssignment h).less.before fun _ => ?_
  exact (consumes_expect _).done _

/-- What comes behind the keyword of a statement, or behind its opening brace. -/
theorem consumes_parseStmt (h : r.Enough n) : Consumes (n + 1) 1 (parseStmt r) := by
  have hassign : Consumes n 0 (parseAssignment r) :=
    (consumes_parseAssignment h).of_le (by omega) (Nat.zero_le 1)
  have hs : ∀ s : Option Stmt, Consumes n 0 (do let _ ← accept .semicolon; return s) :=
    fun _ => (consumes_accept _).done _
  refine consumes_accept_bind (consumes_pure _) ?_
  refine consumes_peek fun t => ?_
  cases ht : t.type
  case lbrace =>
    refine consumes_take ht fun _ => ?_
    refine (consumes_stmtList _ _ h.stmt).before fun _ => ?_
    exact (consumes_expect _).done _
  case keywordIf =>
    refine consumes_take ht fun _ => ?_
    refine (consumes_parseCond h).before fun _ => ?_
    refine consumes_skipNewlines.before fun _ => ?_
    refine h.stmt.before fun _ => ?_
    refine consumes_skipNewlines.before fun _ => ?_
    refine consumes_accept_bind ?_ (consumes_pure _)
    refine consumes_skipNewlines.before fun _ => ?_
    exact h.stmt.less.done _
  case keywordWhile =>
    refine consumes_take ht fun _ => ?_
    refine (consumes_parseCond h).before fun _ => ?_
    refine consumes_skipNewlines.before fun _ => ?_
    exact h.stmt.done _
  case keywordFor =>
    refine consumes_take ht fun _ => ?_
    refine (consumes_expect _).before fun _ => ?_
    refine (consumes_parseForExpr h _).before fun _ => ?_
    refine (consumes_parseForExpr h _).before fun _ => ?_
    refine (consumes_parseForExpr h _).before fun _ => ?_
    refine consumes_skipNewlines.before fun _ => ?_
    exact h.stmt.done _
  case keywordReturn =>
    refine consumes_take ht fun _ => ?_
    refine consumes_peek fun t => ?_
    split
    · exact (consumes_accept _).done _
    · refine hassign.less.before fun _ => ?_
      exact hs _
  case keywordBreak | keywordContinue | keywordHalt =>
    exact consumes_take ht fun _ => hs _
  case keywordPrint =>
    refine consumes_take ht fun _ => ?_
    refine (consumes_commaList _ (consumes_parseAssignment h).less).before fun _ => ?_
    exact hs _
  case keywordDefine =>
    refine consumes_take ht fun _ => ?_
    refine consumes_parseVoid.before fun _ => ?_
    refine (consumes_expectIdent _).before fun _ => ?_
    refine (consumes_expect _).before fun _ => ?_
    refine (consumes_commaList _ consumes_parseParam).before fun _ => ?_
    refine (consumes_expect _).before fun _ => ?_
    refine consumes_skipNewlines.before fun _ => ?_
    refine (consumes_expect _).before fun _ => ?_
    refine consumes_skipNewlines.before fun _ => ?_
    refine consumes_parseAutos.before fun _ => ?_
    refine (consumes_stmtList _ _ h.stmt).before fun _ => ?_
    exact (consumes_expect _).done _
  all_goals
    refine (consumes_parseAssignment h).less.andThen fun _ => ?_
    refine (consumes_accept _).before fun _ => ?_
    exact (consumes_accept _).done _

/-- With calls nested `n` deep the parser has fuel for fewer than `n` tokens. -/
theorem parsers_enough (n : Nat) : (parsers n).Enough n := by
  induction n with
  | zero =>
    have hn : ∀ {α : Type} (m : Parse α), Consumes 0 1 m := fun _ _ hl =>
      absurd hl (Nat.not_lt_zero _)
    exact ⟨hn _, hn _, hn _, hn _⟩
  | succ n ih =>
    exact ⟨consumes_parseStmt ih, consumes_parseAssignment ih, consumes_parsePower ih,
      consumes_parseUnary ih⟩

end Parser

theorem parse_error (h : parse text = .error e) : ∃ m, e = .error m := by
  have hy := Parser.consumes_stmtList [.eof] .eof
    (Parser.parsers_enough ((tokens text).length + 1)).stmt (tokens text)
      (Nat.lt_succ_self _) trivial
  unfold parse at h
  simp only at h
  generalize exec _ (tokens text) = o at hy h
  obtain ⟨e' | s, rest⟩ := o
  · exact Except.error.inj h ▸ hy
  · cases h

/-- **Parsing ends.** Every text is parsed or has a syntax error. -/
theorem parse_ne_timeout (text : List Char) : parse text ≠ .error .timeout := by
  intro h
  obtain ⟨m, hm⟩ := parse_error h
  cases hm

theorem parse_ne_panic (text : List Char) : parse text ≠ .error .panic := by
  intro h
  obtain ⟨m, hm⟩ := parse_error h
  cases hm

end GoPosix.Bc
