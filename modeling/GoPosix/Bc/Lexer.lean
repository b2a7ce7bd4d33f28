import GoPosix.Bc.Syntax

/-!
# The lexer of bc

`NextToken` of `pkg/bc/bc.go`. The lexer is the list of the characters that are left. Behind the end
`peek` and `next` give the character 0, and a 0 in the text is not told from the end.

`skip` is the loop of `nextToken` over blanks and comments. Every token but the end takes at least
one character.
-/

namespace GoPosix.Bc

def isStartOfIdent (c : Char) : Bool := ('a' ≤ c && c ≤ 'z') || c = '_'

def isLetter (c : Char) : Bool := ('a' ≤ c && c ≤ 'z') || ('A' ≤ c && c ≤ 'Z') || c = '_'

def isDigit (c : Char) : Bool := '0' ≤ c && c ≤ '9'

def isUpper (c : Char) : Bool := 'A' ≤ c && c ≤ 'Z'

/-- The character 0, which stands for the end of the input. -/
def nul : Char := '\x00'

/-- `NewLexer`: a backslash and a newline are removed together. -/
def newLexer : List Char → List Char
  | [] => []
  | [c] => [c]
  | c :: d :: s => if c = '\\' ∧ d = '\n' then newLexer s else c :: newLexer (d :: s)

def Lexer.peek (input : List Char) : Char := input.headD nul

open Lexer

/-- What the lexer is about to skip: blanks, the rest of a line behind `#`, or a comment whose end
it looks for. -/
inductive Skip
  | blank | line | comment

/-- The blanks and comments before a token. -/
def skip : Skip → List Char → List Char
  | _, [] => []
  | .blank, c :: s =>
    if c = ' ' ∨ c = '\t' ∨ c = '\r' then skip .blank s
    else if c = '#' then skip .line s
    else if c = '/' ∧ peek s = '*' then
      -- the star is taken too: `/*/` does not end the comment it starts
      match s with
      | [] => []
      | _ :: s => skip .comment s
    else c :: s
  -- the newline, or the end, is left for the next turn, which stops there
  | .line, c :: s => if c = '\n' ∨ c = nul then c :: s else skip .line s
  | .comment, c :: s =>
    if c = nul then skip .blank s
    else if c = '*' ∧ peek s = '/' then
      match s with
      | [] => []
      | _ :: s => skip .blank s
    else skip .comment s

/-- The tokens of one or two characters that begin with `ch`, where `next` comes behind it. -/
def symbol (ch next : Char) : Option Token :=
  match ch with
  | '\n' => some ⟨.newline, "\n"⟩
  | '(' => some ⟨.lparen, "("⟩
  | ')' => some ⟨.rparen, ")"⟩
  | '[' => some ⟨.lbracket, "["⟩
  | ']' => some ⟨.rbracket, "]"⟩
  | '\x7b' => some ⟨.lbrace, "\x7b"⟩
  | '\x7d' => some ⟨.rbrace, "\x7d"⟩
  | ',' => some ⟨.comma, ","⟩
  | ';' => some ⟨.semicolon, ";"⟩
  | '/' => some (if next = '=' then ⟨.divAssign, "/="⟩ else ⟨.div, "/"⟩)
  | '+' => some (if next = '+' then ⟨.inc, "++"⟩ else if next = '=' then ⟨.plusAssign, "+="⟩
      else ⟨.plus, "+"⟩)
  | '-' => some (if next = '-' then ⟨.dec, "--"⟩ else if next = '=' then ⟨.minusAssign, "-="⟩
      else ⟨.minus, "-"⟩)
  | '*' => some (if next = '=' then ⟨.mulAssign, "*="⟩ else ⟨.mul, "*"⟩)
  | '%' => some (if next = '=' then ⟨.modAssign, "%="⟩ else ⟨.mod, "%"⟩)
  | '^' => some (if next = '=' then ⟨.powAssign, "^="⟩ else ⟨.power, "^"⟩)
  -- a digit behind the dot makes it a number
  | '.' => if isDigit next then none else some ⟨.dot, "."⟩
  | '=' => some (if next = '=' then ⟨.eq, "=="⟩ else ⟨.assign, "="⟩)
  | '<' => some (if next = '=' then ⟨.le, "<="⟩ else ⟨.lt, "<"⟩)
  | '>' => some (if next = '=' then ⟨.ge, ">="⟩ else ⟨.gt, ">"⟩)
  | '!' => some (if next = '=' then ⟨.ne, "!="⟩ else ⟨.not, "!"⟩)
  | '&' => some (if next = '&' then ⟨.and, "&&"⟩ else ⟨.error, "&"⟩)
  | '|' => some (if next = '|' then ⟨.or, "||"⟩ else ⟨.error, "|"⟩)
  | _ => none

/-- The text of a string up to its closing quote, with its backslashes, and the input behind it.
There is no text if the string is not closed. -/
def scanString : List Char → Option (List Char) × List Char
  | [] => (none, [])
  | [c] => if c = '"' then (some [], []) else (none, [])
  | c :: d :: s =>
    if c = nul then (none, d :: s)
    else if c = '"' then (some [], d :: s)
    else if c = '\\' then
      if d = nul then (none, s)
      else
        let (text, rest) := scanString s
        (text.map fun t => c :: d :: t, rest)
    else
      let (text, rest) := scanString (d :: s)
      (text.map (c :: ·), rest)

/-- A number: digits, capital letters and one dot. -/
def scanNumber (hasDot : Bool) : List Char → List Char × List Char
  | [] => ([], [])
  | c :: s =>
    if c = '.' ∧ ¬ hasDot then
      let (text, rest) := scanNumber true s
      (c :: text, rest)
    else if isDigit c ∨ isUpper c then
      let (text, rest) := scanNumber hasDot s
      (c :: text, rest)
    else ([], c :: s)

def word (val : String) : Token :=
  match val with
  | "if" => ⟨.keywordIf, val⟩
  | "else" => ⟨.keywordElse, val⟩
  | "while" => ⟨.keywordWhile, val⟩
  | "for" => ⟨.keywordFor, val⟩
  | "define" => ⟨.keywordDefine, val⟩
  | "auto" => ⟨.keywordAuto, val⟩
  | "return" => ⟨.keywordReturn, val⟩
  | "break" => ⟨.keywordBreak, val⟩
  | "continue" => ⟨.keywordContinue, val⟩
  | "halt" => ⟨.keywordHalt, val⟩
  | "print" => ⟨.keywordPrint, val⟩
  | _ =>
    let isAllUpper := val.toList.all fun r => !(('a' ≤ r && r ≤ 'z') || r = '_')
    if isAllUpper ∧ 0 < val.length then ⟨.number, val⟩ else ⟨.ident, val⟩

/-- `NextToken`: the next token, and the input behind it. -/
def nextToken (input : List Char) : Token × List Char :=
  match skip .blank input with
  | [] => (⟨.eof, ""⟩, [])
  | ch :: s =>
    if ch = nul then (⟨.eof, ""⟩, ch :: s)
    else match symbol ch (peek s) with
    | some tok => (tok, s.drop (tok.val.length - 1))
    | none =>
      if ch = '"' then
        match scanString s with
        | (some text, rest) => (⟨.string, String.ofList text⟩, rest)
        | (none, rest) => (⟨.error, "unterminated string"⟩, rest)
      else if isStartOfIdent ch then
        let inWord := fun c => isLetter c || isDigit c
        (word (String.ofList (ch :: s.takeWhile inWord)), s.dropWhile inWord)
      else if isDigit ch ∨ ch = '.' ∨ isUpper ch then
        let (text, rest) := scanNumber false (ch :: s)
        let val := String.ofList text
        if val = "." then (⟨.error, "."⟩, rest) else (⟨.number, val⟩, rest)
      else (⟨.error, String.ofList [ch]⟩, s)

def tokenize : Nat → List Char → List Token
  | 0, _ => []
  | fuel + 1, input =>
    match nextToken input with
    | (tok, rest) => if tok.type = .eof then [tok] else tok :: tokenize fuel rest

def tokens (text : List Char) : List Token := tokenize (text.length + 1) (newLexer text)

/-! ## The lexer reaches the end

Each token but the end takes a character, so that the fuel of `tokens` is enough for every text. -/

theorem length_newLexer_le (text : List Char) : (newLexer text).length ≤ text.length := by
  fun_induction newLexer text with
  | case1 => exact Nat.le_refl _
  | case2 c => exact Nat.le_refl _
  | case3 c d s _ ih => exact Nat.le_add_right_of_le (Nat.le_add_right_of_le ih)
  | case4 c d s _ ih => exact Nat.succ_le_succ ih

theorem length_skip_le (k : Skip) (input : List Char) : (skip k input).length ≤ input.length := by
  fun_induction skip k input with grind

theorem length_scanString_le (input : List Char) : (scanString input).2.length ≤ input.length := by
  fun_induction scanString input with grind

theorem length_scanNumber_le (hasDot : Bool) (input : List Char) :
    (scanNumber hasDot input).2.length ≤ input.length := by
  fun_induction scanNumber hasDot input with grind

/-- A number takes the character it begins with. -/
theorem length_scanNumber_cons_le {c : Char} (s : List Char)
    (hc : isDigit c ∨ c = '.' ∨ isUpper c) :
    (scanNumber false (c :: s)).2.length ≤ s.length := by
  unfold scanNumber
  split
  · exact length_scanNumber_le true s
  split
  · exact length_scanNumber_le false s
  · grind

/-- **A token takes a character**, unless it is the end. -/
theorem length_nextToken_lt {input : List Char} (h : (nextToken input).1.type ≠ .eof) :
    (nextToken input).2.length < input.length := by
  have hskip := length_skip_le .blank input
  unfold nextToken at h ⊢
  split at h
  · exact absurd rfl h
  next ch s hs =>
  rw [hs] at hskip
  refine Nat.lt_of_lt_of_le (Nat.lt_succ_of_le ?_) hskip
  simp only
  split at h
  · exact absurd rfl h
  next hnul =>
  rw [if_neg hnul]
  split
  · -- a symbol of one or two characters
    rw [List.length_drop]
    exact Nat.sub_le _ _
  split
  · have hstring := length_scanString_le s
    split <;> simp_all
  split
  · exact (List.dropWhile_suffix _).length_le
  split
  next hnum =>
    have hnumber := length_scanNumber_cons_le s hnum
    split <;> exact hnumber
  · exact Nat.le_refl _

theorem tokenize_eq (hfuel : input.length < fuel) (hmore : input.length < fuel') :
    tokenize fuel input = tokenize fuel' input := by
  induction fuel generalizing fuel' input with
  | zero => exact absurd hfuel (Nat.not_lt_zero _)
  | succ fuel ih =>
    cases fuel' with
    | zero => exact absurd hmore (Nat.not_lt_zero _)
    | succ fuel' =>
      simp only [tokenize]
      split
      · rfl
      · next hne =>
        have hlt := length_nextToken_lt hne
        rw [@ih fuel' _ (by omega) (by omega)]

/-- **The fuel of `tokens` suffices**: with more of it the tokens are the same. -/
theorem tokenize_eq_tokens {text : List Char} (hfuel : text.length < fuel) :
    tokenize fuel (newLexer text) = tokens text := by
  have hle := length_newLexer_le text
  exact tokenize_eq (by omega) (by omega)

example : (tokens "x+=.5/*/ */;\x7b#\n\x7d".toList).map (·.type) =
    [.ident, .plusAssign, .number, .semicolon, .lbrace, .newline, .rbrace, .eof] := by
  decide +kernel

end GoPosix.Bc
