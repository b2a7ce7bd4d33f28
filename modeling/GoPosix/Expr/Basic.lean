import GoPosix.Lib.Json
import GoPosix.Lib.Levels
import GoPosix.Lib.Runtime
import GoPosix.Lib.Strconv

/-!
# expr

`Eval` of `pkg/expr/expr.go`, which evaluates an expression while it parses it. The cursor of the
parser is the list of the tokens that are left; `Peek` returns the empty string when there is none.
`compile` is `regexp.Compile`, with the text of its error.
-/

namespace GoPosix.Expr

open Bytes Levels MachineInt

/-- The errors of the evaluator. The last one is not returned: to slice a string out of its bounds
is a panic. -/
inductive Err
  | missingOperand
  | unexpected (tok : Bytes)
  | nonInteger
  | divisionByZero
  | syntaxError
  | expectedParen
  | endOfExpression
  | invalidRegex (err : Bytes)
  | sliceBounds
  deriving DecidableEq

/-- The text of an error, where `quote` is what `%q` makes of a token. -/
def Err.text (quote : Bytes → Bytes) : Err → Bytes
  | .missingOperand => str "missing operand"
  | .unexpected tok => str "syntax error: unexpected " ++ quote tok
  | .nonInteger => str "non-integer argument"
  | .divisionByZero => str "division by zero"
  | .syntaxError => str "syntax error"
  | .expectedParen => str "syntax error: expected ')'"
  | .endOfExpression => str "syntax error: unexpected end of expression"
  | .invalidRegex err => str "invalid regex: " ++ err
  | .sliceBounds => str "slice bounds out of range"

abbrev Parsed := Levels.Parsed Bytes Bytes Err

/-! ## The operators -/

def isNull (v : Bytes) : Bool := v = [] ∨ v = str "0"

def exitCode (result : Bytes) : Nat := if isNull result then 1 else 0

def orResult (left right : Bytes) : Bytes := if isNull left then right else left

def andResult (left right : Bytes) : Bytes := if isNull left ∨ isNull right then str "0" else left

def isCmpOp (op : Bytes) : Bool := op ∈ [str "=", str "!=", str "<", str "<=", str ">", str ">="]

/-- The operator `op` of `isCmpOp` for two things that compare as `o` says. -/
def relation (op : Bytes) (o : Ordering) : Bool :=
  if op = str "=" then o = .eq
  else if op = str "!=" then o ≠ .eq
  else if op = str "<" then o = .lt
  else if op = str "<=" then o ≠ .gt
  else if op = str ">" then o = .gt
  else o ≠ .lt

def truth (result : Bool) : Bytes := if result then str "1" else str "0"

/-- `cmpResult`. Two integers are compared as integers, and anything else byte by byte. -/
def cmpResult (left op right : Bytes) : Bytes :=
  if (atoi left).2 ∧ (atoi right).2 then truth (relation op (compare (atoi left).1 (atoi right).1))
  else truth (relation op (compare left right))

def isAddOp (op : Bytes) : Bool := op = str "+" ∨ op = str "-"

def addResult (op left right : Bytes) : Except Err Bytes :=
  if (atoi left).2 ∧ (atoi right).2 then
    if op = str "+" then .ok (itoaInt (wrap64 ((atoi left).1 + (atoi right).1)))
    else .ok (itoaInt (wrap64 ((atoi left).1 - (atoi right).1)))
  else .error .nonInteger

def isMulOp (op : Bytes) : Bool := op = str "*" ∨ op = str "/" ∨ op = str "%"

/-- The body of the loop of `parseMul`. Division is towards zero. -/
def mulResult (op left right : Bytes) : Except Err Bytes :=
  if (atoi left).2 ∧ (atoi right).2 then
    if op = str "*" then .ok (itoaInt (wrap64 ((atoi left).1 * (atoi right).1)))
    else if (atoi right).1 = 0 then .error .divisionByZero
    else if op = str "/" then .ok (itoaInt (wrap64 ((atoi left).1.tdiv (atoi right).1)))
    else .ok (itoaInt (wrap64 ((atoi left).1.tmod (atoi right).1)))
  else .error .nonInteger

structure Regexp where
  /-- The leftmost match and its groups. -/
  findStringSubmatch : Bytes → Option (Bytes × List Bytes)

/-- `substrStr`. The end is an `int`, and may wrap. -/
def substrStr (s posStr lenStr : Bytes) : Except Err Bytes :=
  if (atoi posStr).2 = false ∨ (atoi lenStr).2 = false then .error .nonInteger
  else
    let start := if (atoi posStr).1 < 1 then 0 else (atoi posStr).1 - 1
    if s.length ≤ start then .ok []
    else
      let stop := wrap64 (start + (atoi lenStr).1)
      let stop := if s.length < stop then (s.length : Int) else stop
      if start ≤ stop then .ok ((s.take stop.toNat).drop start.toNat) else .error .sliceBounds

def indexStr (s chars : Bytes) : Bytes :=
  match (Utf8.runes s).find? fun c => c.2 ∈ (Utf8.runes chars).map (·.2) with
  | some (i, _) => itoa (i + 1)
  | none => str "0"

/-! ## The parser -/

def closeParen : Bytes × List Bytes → Parsed
  | (result, toks) => if toks.head? = some (str ")") then .ok (result, toks.tail)
    else .error .expectedParen

section

variable (compile : Bytes → Except Bytes Regexp)

/-- `matchStr`: the first group, or the length of the match. -/
def matchStr (s pattern : Bytes) : Except Err Bytes :=
  let pattern := if pattern.head? = some 94 then pattern else 94 :: pattern
  match compile pattern with
  | .error err => .error (.invalidRegex err)
  | .ok re =>
    match re.findStringSubmatch s with
    | none => .ok (if 40 ∈ pattern then [] else str "0")
    | some (_, group :: _) => .ok group
    | some (m, []) => .ok (itoa m.length)

variable (parseExpr : List Bytes → Parsed)

/-- `parsePrimary`, with `parseExpr` for the expression in parentheses. -/
def parsePrimary : List Bytes → Parsed
  | [] => .error .endOfExpression
  | tok :: toks =>
    if tok = str "(" then (parseExpr toks).bind closeParen
    else if tok = [] then .error .endOfExpression
    else
      match toks with
      | [] => .ok (tok, [])
      | colon :: toks' =>
        if colon = str ":" then
          (parsePrimary toks').bind fun (pat, toks) => (matchStr compile tok pat).map (·, toks)
        else .ok (tok, colon :: toks')

def parseUnary : List Bytes → Parsed
  | [] => parsePrimary compile parseExpr []
  | tok :: toks =>
    if tok = str "match" then
      (parsePrimary compile parseExpr toks).bind fun (s, toks) =>
        (parsePrimary compile parseExpr toks).bind fun (pat, toks) =>
          (matchStr compile s pat).map (·, toks)
    else if tok = str "substr" then
      (parsePrimary compile parseExpr toks).bind fun (s, toks) =>
        (parsePrimary compile parseExpr toks).bind fun (posStr, toks) =>
          (parsePrimary compile parseExpr toks).bind fun (lenStr, toks) =>
            (substrStr s posStr lenStr).map (·, toks)
    else if tok = str "index" then
      (parsePrimary compile parseExpr toks).bind fun (s, toks) =>
        (parsePrimary compile parseExpr toks).map fun (chars, toks) => (indexStr s chars, toks)
    else if tok = str "length" then
      if toks.head? ∈ [none, some (str ")"), some (str "|"), some (str "&")]
        then .error .syntaxError
      else (parsePrimary compile parseExpr toks).map fun (s, toks) => (itoa s.length, toks)
    else parsePrimary compile parseExpr (tok :: toks)

def parseMul : List Bytes → Parsed := chain isMulOp mulResult (parseUnary compile parseExpr)

def parseAdd : List Bytes → Parsed := chain isAddOp addResult (parseMul compile parseExpr)

def parseCmp : List Bytes → Parsed :=
  chain isCmpOp (fun op left right => .ok (cmpResult left op right)) (parseAdd compile parseExpr)

def parseAnd : List Bytes → Parsed :=
  chain (· = str "&") (fun _ left right => .ok (andResult left right)) (parseCmp compile parseExpr)

def parseOr : List Bytes → Parsed :=
  chain (· = str "|") (fun _ left right => .ok (orResult left right)) (parseAnd compile parseExpr)

end

/-- `parseOr`, for expressions of fewer than `fuel` open parentheses. -/
def parseNested (compile : Bytes → Except Bytes Regexp) : (fuel : Nat) → List Bytes → Parsed
  | 0, _ => .error .endOfExpression
  | fuel + 1, toks => parseOr compile (parseNested compile fuel) toks

def finish : Parsed → Except Err (Bytes × Nat)
  | .error err => .error err
  | .ok (result, []) => .ok (result, exitCode result)
  | .ok (_, tok :: _) => .error (.unexpected tok)

/-- `Eval`: the result and the exit code. An open parenthesis is a token, so there is fuel
enough. -/
def eval (compile : Bytes → Except Bytes Regexp) (tokens : List Bytes) : Except Err (Bytes × Nat) :=
  if tokens = [] then .error .missingOperand
  else finish (parseNested compile (tokens.length + 1) tokens)

end GoPosix.Expr
