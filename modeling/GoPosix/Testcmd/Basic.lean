import GoPosix.Lib.Strconv

/-!
# test

`Evaluate` of `pkg/testcmd/testcmd.go`. The cursor of the parser is the list of the tokens that are
left. A file test is a given predicate; the integer tests read their operands as `strconv.ParseInt`
does.
-/

namespace GoPosix.Testcmd

open Bytes

inductive Err
  | missingParen
  | missingArgument (op : Bytes)
  | unknownUnary (op : Bytes)
  | integerExpected
  deriving DecidableEq

def Err.text : Err → Bytes
  | .missingParen => str "missing ')'"
  | .missingArgument op => str "missing argument after " ++ op
  | .unknownUnary op => str "unknown unary operator: " ++ op
  | .integerExpected => str "integer expression expected"

abbrev Parsed := Except Err (Bool × List Bytes)

def isUnaryOp (tok : Bytes) : Bool :=
  tok ∈ [str "-e", str "-f", str "-d", str "-s", str "-r", str "-w", str "-x", str "-L", str "-h",
    str "-b",
    str "-c", str "-p", str "-S", str "-g", str "-u", str "-k", str "-t", str "-z", str "-n"]

def isBinaryOp (op : Bytes) : Bool :=
  op ∈ [str "=", str "==", str "!=", str "-eq", str "-ne", str "-lt", str "-le", str "-gt",
    str "-ge"]

/-- `evalBinary` for two integers. -/
def evalInt (op : Bytes) (ln rn : Int) : Bool :=
  if op = str "-eq" then ln = rn
  else if op = str "-ne" then ln ≠ rn
  else if op = str "-lt" then ln < rn
  else if op = str "-le" then ln ≤ rn
  else if op = str "-gt" then rn < ln
  else rn ≤ ln

def evalBinary (left op right : Bytes) : Except Err Bool :=
  if op = str "=" ∨ op = str "==" then .ok (left = right)
  else if op = str "!=" then .ok (left ≠ right)
  else if (atoi left).2 ∧ (atoi right).2 then .ok (evalInt op (atoi left).1 (atoi right).1)
  else .error .integerExpected

section

variable (file : Bytes → Bytes → Bool)

/-- `evalUnary`, for an operator of `isUnaryOp`. There is no test for `-t`. -/
def evalUnary (op arg : Bytes) : Except Err Bool :=
  if op = str "-z" then .ok (arg = [])
  else if op = str "-n" then .ok (arg ≠ [])
  else if op = str "-t" then .error (.unknownUnary op)
  else .ok (file op arg)

/-- A binary test if an operator follows, and the token itself otherwise. -/
def comparison (left : Bytes) : List Bytes → Parsed
  | [] => .ok (left ≠ [], [])
  | [op] => if isBinaryOp op then .error (.missingArgument op) else .ok (left ≠ [], [op])
  | op :: right :: toks =>
    if isBinaryOp op then (evalBinary left op right).map (·, toks)
      else .ok (left ≠ [], op :: right :: toks)

/-- The token behind the next one is a binary operator. -/
def nextIsBinary (toks : List Bytes) : Bool := (toks[1]?.map isBinaryOp).getD false

def closeParen : Bool × List Bytes → Parsed
  | (result, toks) => if toks.head? = some (str ")") then .ok (result, toks.tail)
    else .error .missingParen

/-- `parsePrimary`, with `parseExpr` for the expression in parentheses. -/
def parsePrimary (parseExpr : List Bytes → Parsed) : List Bytes → Parsed
  | [] => .ok (false, [])
  | tok :: toks =>
    if tok = str "(" ∧ nextIsBinary (tok :: toks) = false then (parseExpr toks).bind closeParen
    else
      match toks with
      | arg :: toks' =>
        if isUnaryOp tok ∧ isBinaryOp arg = false then (evalUnary file tok arg).map (·, toks')
        else comparison tok toks
      | [] => comparison tok []

/-- What `parseNot` makes of the expression behind a `!`. No error has the text it looks for
(`text_ne`). -/
def negate : Parsed → Parsed
  | .ok (result, toks) => .ok (!result, toks)
  | .error err => if err.text = str "unexpected end of expression" then .ok (true, [])
    else .error err

def parseNot (parseExpr : List Bytes → Parsed) : List Bytes → Parsed
  | [] => parsePrimary file parseExpr []
  | tok :: toks =>
    if tok = str "!" ∧ nextIsBinary (tok :: toks) = false then
      if toks = [] then .ok (true, []) else negate (parseNot parseExpr toks)
    else parsePrimary file parseExpr (tok :: toks)

/-- The loop of `parseAnd` and `parseOr`: operands behind the operator `op`. Every turn takes the
operator at least, so `toks.length` turns suffice. -/
def chain (op : Bytes) (combine : Bool → Bool → Bool) (operand : List Bytes → Parsed) :
    (fuel : Nat) → Bool × List Bytes → Parsed
  | 0, res => .ok res
  | fuel + 1, (left, toks) =>
    if toks.head? = some op then
      (operand toks.tail).bind fun (right, toks) =>
        chain op combine operand fuel (combine left right, toks)
    else .ok (left, toks)

def parseAnd (parseExpr : List Bytes → Parsed) (toks : List Bytes) : Parsed :=
  (parseNot file parseExpr toks).bind (chain (str "-a") and (parseNot file parseExpr) toks.length)

def parseOr (parseExpr : List Bytes → Parsed) (toks : List Bytes) : Parsed :=
  (parseAnd file parseExpr toks).bind (chain (str "-o") or (parseAnd file parseExpr) toks.length)

/-- `parseExpr`, for expressions of fewer than `fuel` open parentheses. -/
def parseExpr : (fuel : Nat) → List Bytes → Parsed
  | 0, _ => .error .missingParen
  | fuel + 1, toks => parseOr file (parseExpr fuel) toks

inductive EvalErr
  | parse (err : Err)
  | unexpected (arg : Bytes)
  deriving DecidableEq

/-- The text of an error, where `quote` is what `%q` makes of an argument. -/
def EvalErr.text (quote : Bytes → Bytes) : EvalErr → Bytes
  | .parse err => err.text
  | .unexpected arg => str "unexpected argument " ++ quote arg

def finish : Parsed → Except EvalErr Bool
  | .error err => .error (.parse err)
  | .ok (result, []) => .ok result
  | .ok (_, tok :: _) => .error (.unexpected tok)

/-- `Evaluate`. An open parenthesis is a token, so there is fuel enough. -/
def evaluate (tokens : List Bytes) : Except EvalErr Bool :=
  if tokens = [] then .ok false else finish (parseExpr file (tokens.length + 1) tokens)

end

end GoPosix.Testcmd
