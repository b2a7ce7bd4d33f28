import Mathlib.Data.List.Basic

/-!
# The language of bc

The tokens and the syntax trees of `pkg/bc/bc.go`. A statement or an expression can be `nil` in the
source (the empty statement, a missing `else`, the index of `a[]`), for which `Option` stands here.
A text is the list of its characters.
-/

namespace GoPosix.Bc

inductive TokenType
  | eof | error | newline | number | string | ident
  | assign | plus | minus | mul | div | mod | power
  | inc | dec
  | eq | le | ge | ne | lt | gt
  | and | or | not
  | lparen | rparen | lbracket | rbracket | lbrace | rbrace | comma | semicolon
  | keywordIf | keywordElse | keywordWhile | keywordFor | keywordDefine | keywordAuto
  | keywordReturn | keywordBreak | keywordContinue | keywordHalt | keywordPrint
  | plusAssign | minusAssign | mulAssign | divAssign | powAssign | modAssign
  | dot
  deriving DecidableEq, Repr

structure Token where
  type : TokenType
  val : String
  deriving DecidableEq, Repr

/-- Expressions. `++` and `--` are unary operators, before or behind their operand. -/
inductive Expr
  | num (val : String)
  | string (val : String)
  | var (name : String)
  | arrayAccess (name : String) (index : Option Expr)
  | binary (op : TokenType) (lhs rhs : Expr)
  | unary (op : TokenType) (expr : Expr) (postIncDec : Bool)
  | call (name : String) (args : List Expr)
  | assign (lhs rhs : Expr)
  | paren (expr : Expr)

/-- A parameter of a function. The source keeps three lists of one length, `Params`,
`ParamArrays` and `ParamRefs`. -/
structure Param where
  name : String
  isArray : Bool
  isRef : Bool
  deriving DecidableEq, Repr

inductive Stmt
  | exprStmt (expr : Expr)
  | blockStmt (stmts : List Stmt)
  | ifStmt (cond : Expr) (thenStmt elseStmt : Option Stmt)
  | whileStmt (cond : Expr) (body : Option Stmt)
  | forStmt (init cond step : Option Expr) (body : Option Stmt)
  | returnStmt (val : Option Expr)
  | breakStmt
  | continueStmt
  | haltStmt
  | printStmt (args : List Expr)
  | funcDecl (name : String) (params : List Param) (autos autoArrays : List String)
      (body : List Stmt) (void : Bool)

/-- A function, as the table of functions holds it. Its body is a block. -/
structure FuncDecl where
  params : List Param
  autos : List String
  autoArrays : List String
  body : List Stmt
  void : Bool

end GoPosix.Bc
