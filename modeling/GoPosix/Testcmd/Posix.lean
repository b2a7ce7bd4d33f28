import GoPosix.Testcmd.Basic

/-!
# test and POSIX

POSIX says what `test` is to do by the number of its arguments, up to four (`posix`, with the
parentheses and the binary primaries `-a` and `-o` of the XSI option; `none` where it leaves the
result open). The program reads all arguments as one expression. The two differ where a token is an
operator for one of them and an operand for the other (`evaluate_posix_iff`).
-/

namespace GoPosix.Testcmd

open Bytes

/-! ## What POSIX says -/

def unaryPrimaries : List Bytes :=
  [str "-b", str "-c", str "-d", str "-e", str "-f", str "-g", str "-h", str "-L", str "-n",
    str "-p", str "-r",
    str "-S", str "-s", str "-t", str "-u", str "-w", str "-x", str "-z"]

/-- The binary primaries of POSIX, but `-a` and `-o`. -/
def binaryPrimaries : List Bytes :=
  [str "=", str "!=", str "-eq", str "-ne", str "-gt", str "-ge", str "-lt", str "-le"]

section

variable (file : Bytes → Bytes → Bool)

def unaryTest (op arg : Bytes) : Bool :=
  if op = str "-z" then arg = [] else if op = str "-n" then arg ≠ [] else file op arg

def binaryTest (left op right : Bytes) : Option Bool :=
  if op = str "-a" then some (left ≠ [] && right ≠ [])
  else if op = str "-o" then some (left ≠ [] || right ≠ [])
  else (evalBinary left op right).toOption

def posix2 (a b : Bytes) : Option Bool :=
  if a = str "!" then some (b = [])
  else if a ∈ unaryPrimaries then some (unaryTest file a b)
  else none

def posix3 (a b c : Bytes) : Option Bool :=
  if b = str "-a" ∨ b = str "-o" ∨ b ∈ binaryPrimaries then binaryTest a b c
  else if a = str "!" then (posix2 file b c).map not
  else if a = str "(" ∧ c = str ")" then some (b ≠ [])
  else none

def posix4 (a b c d : Bytes) : Option Bool :=
  if a = str "!" then (posix3 file b c d).map not
  else if a = str "(" ∧ d = str ")" then posix2 file b c
  else none

/-- The truth value that POSIX prescribes. -/
def posix : List Bytes → Option Bool
  | [] => some false
  | [a] => some (a ≠ [])
  | [a, b] => posix2 file a b
  | [a, b, c] => posix3 file a b c
  | [a, b, c, d] => posix4 file a b c d
  | _ => none

end

/-! ## Tokens -/

section

theorem isBinaryOp_of_mem (h : t ∈ binaryPrimaries) : isBinaryOp t = true := by
  have hall : ∀ t ∈ binaryPrimaries, isBinaryOp t = true := by decide
  exact hall t h

theorem isUnaryOp_of_mem (h : t ∈ unaryPrimaries) : isUnaryOp t = true := by
  have hall : ∀ t ∈ unaryPrimaries, isUnaryOp t = true := by decide
  exact hall t h

/-- The tokens with a meaning of their own. -/
def special : List Bytes := [str "!", str "(", str ")", str "-a", str "-o", []]

theorem isUnaryOp_special (h : t ∈ special) : isUnaryOp t = false := by
  have hall : ∀ t ∈ special, isUnaryOp t = false := by decide
  exact hall t h

theorem isBinaryOp_special (h : t ∈ special) : isBinaryOp t = false := by
  have hall : ∀ t ∈ special, isBinaryOp t = false := by decide
  exact hall t h

theorem isBinaryOp_of_unary (h : isUnaryOp t = true) : isBinaryOp t = false := by
  have hall : ∀ t ∈
    [str "-e", str "-f", str "-d", str "-s", str "-r", str "-w", str "-x", str "-L", str "-h",
    str "-b", str "-c", str "-p", str "-S", str "-g", str "-u", str "-k", str "-t", str "-z",
      str "-n"],
    isBinaryOp t = false := by decide
  exact hall t (of_decide_eq_true h)

theorem ne_of_unary (h : isUnaryOp t = true) (hs : s ∈ special) : t ≠ s := by
  rintro rfl
  rw [isUnaryOp_special hs] at h
  cases h

theorem ne_of_binary (h : isBinaryOp t = true) (hs : s ∈ special) : t ≠ s := by
  rintro rfl
  rw [isBinaryOp_special hs] at h
  cases h

end

/-! ## What the parser does -/

section

variable {file : Bytes → Bytes → Bool} {sub : List Bytes → Parsed} {a b c d : Bytes}

theorem nextIsBinary_cons : nextIsBinary (a :: b :: toks) = isBinaryOp b := rfl

theorem not_primary (h : a ≠ str "!" ∨ nextIsBinary (a :: toks) = true) :
    parseNot file sub (a :: toks) = parsePrimary file sub (a :: toks) := by
  rw [parseNot, if_neg]
  rintro ⟨hb, hn⟩
  rcases h with h | h
  · exact h hb
  · rw [hn] at h
    cases h

theorem not_binary (h : isBinaryOp b = true) :
    parseNot file sub (a :: b :: c :: toks) = (evalBinary a b c).map (·, toks) := by
  rw [not_primary (.inr (nextIsBinary_cons.trans h))]
  simp [parsePrimary, nextIsBinary_cons, comparison, h]

theorem not_missing (h : isBinaryOp b = true) :
    parseNot file sub [a, b] = .error (.missingArgument b) := by
  rw [not_primary (.inr (nextIsBinary_cons.trans h))]
  simp [parsePrimary, nextIsBinary_cons, comparison, h]

theorem not_unary (ha : isUnaryOp a = true) (hb : isBinaryOp b = false) :
    parseNot file sub (a :: b :: toks) = (evalUnary file a b).map (·, toks) := by
  rw [not_primary (.inl (ne_of_unary ha (by decide)))]
  simp [parsePrimary, ne_of_unary ha (s := str "(") (by decide), ha, hb]

theorem not_word (hbang : a ≠ str "!") (hp : a ≠ str "(") (ha : isUnaryOp a = false)
    (hb : isBinaryOp b = false) :
    parseNot file sub (a :: b :: toks) = .ok (a ≠ [], b :: toks) := by
  rw [not_primary (.inl hbang)]
  cases toks <;> simp [parsePrimary, comparison, hp, ha, hb]

theorem not_bang (hb : isBinaryOp b = false) :
    parseNot file sub (str "!" :: b :: toks) = negate (parseNot file sub (b :: toks)) := by
  rw [parseNot, if_pos ⟨rfl, hb⟩, if_neg (List.cons_ne_nil _ _)]

theorem not_single (h : d ≠ str "(") : parseNot file sub [d] = .ok (d ≠ [], []) := by
  by_cases hb : d = str "!"
  · rw [hb]
    rfl
  · rw [not_primary (.inl hb)]
    simp [parsePrimary, comparison, h]

theorem not_nil : parseNot file sub [] = .ok (false, []) := rfl

theorem text_ne (e : Err) : e.text ≠ str "unexpected end of expression" := by
  intro h
  -- the third byte tells them apart
  have hb := congrArg (fun t => t.getD 2 0) h
  cases e with
  | missingParen => exact absurd hb (show ¬ (115 : UInt8) = 101 by decide)
  | missingArgument op => exact absurd hb (show ¬ (115 : UInt8) = 101 by decide)
  | unknownUnary op => exact absurd hb (show ¬ (107 : UInt8) = 101 by decide)
  | integerExpected => exact absurd hb (show ¬ (116 : UInt8) = 101 by decide)

theorem negate_error (e : Err) : negate (.error e) = .error e := by
  rw [negate, if_neg (text_ne e)]

/-! ## Operands and what follows them -/

variable {v : Bool}

theorem chain_done (op : Bytes) (combine : Bool → Bool → Bool) (operand : List Bytes → Parsed)
    (f : Nat)
    (h : toks.head? ≠ some op) : chain op combine operand f (v, toks) = .ok (v, toks) := by
  cases f with
  | zero => rfl
  | succ f => rw [chain, if_neg h]

theorem and_of_error (h : parseNot file sub toks = .error err) :
    parseAnd file sub toks = .error err := by
  rw [parseAnd, h]
  rfl

theorem and_of_not (h : parseNot file sub toks = .ok (v, rest))
    (hr : rest.head? ≠ some (str "-a")) : parseAnd file sub toks = .ok (v, rest) := by
  rw [parseAnd, h]
  exact chain_done _ _ _ _ hr

theorem or_of_error (h : parseNot file sub toks = .error err) :
    parseOr file sub toks = .error err := by
  rw [parseOr, and_of_error h]
  rfl

theorem or_of_not (h : parseNot file sub toks = .ok (v, rest))
    (hand : rest.head? ≠ some (str "-a")) (hor : rest.head? ≠ some (str "-o")) :
    parseOr file sub toks = .ok (v, rest) := by
  rw [parseOr, and_of_not h hand]
  exact chain_done _ _ _ _ hor

/-- What `-a` or `-o` between two operands comes to. -/
def junction (op : Bytes) (v w : Bool) : Bool := if op = str "-a" then v && w else v || w

/-- Two primaries with `-a` or `-o` between them. -/
theorem or_junction {e : Except Err Bool} (hop : b = str "-a" ∨ b = str "-o")
    (h : parseNot file sub (a :: toks) = .ok (v, b :: rest))
      (hr : parseNot file sub rest = e.map (·, [])) :
    parseOr file sub (a :: toks) = e.map fun w => (junction b v w, []) := by
  rcases hop with rfl | rfl
  · have hand : parseAnd file sub (a :: toks) = e.map fun w => (v && w, []) := by
      rw [parseAnd, h]
      show chain _ _ _ (toks.length + 1) (v, str "-a" :: rest) = _
      rw [chain, List.tail_cons, hr]
      cases e with
      | error err => rfl
      | ok w => exact chain_done _ _ _ _ (by simp)
    rw [parseOr, hand]
    cases e with
    | error err => rfl
    | ok w => exact chain_done _ _ _ _ (by simp)
  · rw [parseOr, and_of_not h (by rw [List.head?_cons]; decide)]
    show chain _ _ _ (toks.length + 1) (v, str "-o" :: rest) = _
    rw [chain, List.tail_cons]
    cases e with
    | error err =>
      rw [and_of_error hr]
      rfl
    | ok w =>
      rw [and_of_not hr (by simp)]
      exact chain_done _ _ _ _ (by simp)

end

/-! ## Where the two agree -/

def Agrees (p : Option Bool) (e : Except EvalErr Bool) : Prop := ∀ v, p = some v → e = .ok v

/-- Where they agree on two arguments. -/
def Fine2 (a b : Bytes) : Prop :=
  (a = str "!" → b ≠ str "(" ∧ isBinaryOp b = false) ∧
    (a ∈ unaryPrimaries → a ≠ str "-t" ∧ isBinaryOp b = false)

/-- A token that is a string for the program as well. -/
def Plain (t : Bytes) : Prop :=
  t ≠ str "!" ∧ t ≠ str "(" ∧ isUnaryOp t = false ∧ isBinaryOp t = false

section

variable (file : Bytes → Bytes → Bool)

/-- Where they agree on three arguments. -/
def Fine3 (a b c : Bytes) : Prop :=
  if b = str "-a" ∨ b = str "-o" then
    a ≠ str "!" ∧ c ≠ str "(" ∧ (a = str "(" → c = str ")") ∧
      (isUnaryOp a = true → c = str "-o" ∧ evalUnary file a b = .ok true)
  else if b ∈ binaryPrimaries then True
  else if a = str "!" then Fine2 b c
  else if a = str "(" ∧ c = str ")" then Plain b
  else True

/-- What an operand of value `v` and an operator behind it come to. -/
def Dangling (v : Bool) (op : Bytes) (w : Bool) : Prop :=
  op = str "-a" ∧ w = false ∨ op = str "-o" ∧ w = v

/-- Where they agree on four arguments. -/
def Fine4 (a b c d : Bytes) : Prop :=
  if a = str "!" then
    if isBinaryOp b then
      ∀ w, posix3 file b c d = some w → ∃ v, evalBinary (str "!") b c = .ok v ∧ Dangling v d (!w)
    else if c = str "-a" ∨ c = str "-o" then
      if b = str "!" then d = str "-a"
      else if b = str "(" then d = str ")"
      else if isUnaryOp b then ∃ v, evalUnary file b c = .ok v ∧ Dangling (!v) d false
      else if c = str "-a" then d ≠ [] ∧ d ≠ str "("
      else d = []
    else Fine3 file b c d
  else if a = str "(" ∧ d = str ")" then
    (b = str "!" → Plain c) ∧ (b ∈ unaryPrimaries → b ≠ str "-t" ∧ isBinaryOp c = false)
  else True

def Fine : List Bytes → Prop
  | [a] => a ≠ str "("
  | [a, b] => Fine2 a b
  | [a, b, c] => Fine3 file a b c
  | [a, b, c, d] => Fine4 file a b c d
  | _ => True

end

@[simp] theorem agrees_none (e : Except EvalErr Bool) : Agrees none e := by
  simp [Agrees]

@[simp] theorem agrees_ok (v w : Bool) : Agrees (some v) (.ok w) ↔ w = v := by
  simp [Agrees]

@[simp] theorem agrees_error (v : Bool) (e : EvalErr) : ¬ Agrees (some v) (.error e) := by
  simp [Agrees]

/-- **A part of an expression that is read to its end**: its value is the prescribed one exactly if
`fine`. -/
structure Exact (p : Option Bool) (fine : Prop) (res : Parsed) : Prop where
  value : ∀ v, p = some v → (fine ↔ res = .ok (v, []))
  rest : p ≠ none → ∀ w rest, res = .ok (w, rest) → rest = []
  unspecified : p = none → fine

section

variable {fine : Prop}

theorem Exact.of_none (h : fine) : Exact none fine res :=
  ⟨nofun, fun hne => absurd rfl hne, fun _ => h⟩

theorem Exact.of_ok (h : fine ↔ w = v) : Exact (some v) fine (.ok (w, [])) where
  value := by
    simpa using h
  rest := by
    rintro - w rest ⟨⟩
    rfl
  unspecified := by rintro ⟨⟩

theorem Exact.of_error (h : p ≠ none → ¬ fine) (h' : p = none → fine) :
    Exact p fine (.error err) where
  value := by
    rintro v rfl
    exact iff_of_false (h (by simp)) (by simp)
  rest := by rintro - w rest ⟨⟩
  unspecified := h'

theorem Exact.negate (h : Exact p fine res) : Exact (p.map not) fine (negate res) := by
  cases res with
  | error e =>
    rw [negate_error]
    refine .of_error (fun hne hf => ?_) fun hn => h.unspecified (Option.map_eq_none_iff.mp hn)
    obtain ⟨v, hv⟩ := Option.ne_none_iff_exists'.mp fun hp => hne (Option.map_eq_none_iff.mpr hp)
    cases (h.value v hv).mp hf
  | ok r =>
    obtain ⟨w, rest⟩ := r
    cases p with
    | none => exact .of_none (h.unspecified rfl)
    | some v =>
      obtain rfl := h.rest (by simp) w rest rfl
      apply Exact.of_ok
      rw [h.value v rfl]
      simp

theorem Exact.agrees (h : Exact p fine (parseNot file sub toks)) :
    Agrees p (finish (parseOr file sub toks)) ↔
      fine := by
  cases p with
  | none => simpa using h.unspecified rfl
  | some v =>
    rw [h.value v rfl]
    cases hr : parseNot file sub toks with
    | error e =>
      rw [or_of_error hr]
      simp [finish]
    | ok r =>
      obtain ⟨w, rest⟩ := r
      obtain rfl := h.rest (by simp) w rest hr
      rw [or_of_not hr (by simp) (by simp)]
      simp [finish]

end

section

variable {file : Bytes → Bytes → Bool}

theorem evalUnary_eq (ht : a ≠ str "-t") : evalUnary file a b = .ok (unaryTest file a b) := by
  unfold evalUnary unaryTest
  split_ifs <;> rfl

theorem not_paren (n : Nat) :
    parseNot file (parseExpr file (n + 1)) [str "("] = .error .missingParen := by
  rfl

theorem exact_not1 (file : Bytes → Bytes → Bool) (n : Nat) (d : Bytes) :
    Exact (some (d ≠ [])) (d ≠ str "(") (parseNot file (parseExpr file (n + 1)) [d]) := by
  by_cases hp : d = str "("
  · rw [hp]
    exact .of_error (by simp) (by simp)
  · rw [not_single hp]
    exact .of_ok (iff_of_true hp rfl)

/-- Two conditions, of which one applies. -/
theorem first_applies (hp : p) (hq : ¬ q) : ((p → r) ∧ (q → s)) ↔ r :=
  ⟨fun h => h.1 hp, fun h => ⟨fun _ => h, fun h' => absurd h' hq⟩⟩

theorem second_applies (hp : ¬ p) (hq : q) : ((p → r) ∧ (q → s)) ↔ s :=
  ⟨fun h => h.2 hq, fun h => ⟨fun h' => absurd h' hp, fun _ => h⟩⟩

/-- Two arguments. -/
theorem exact_not2 (file : Bytes → Bytes → Bool) (n : Nat) (a b : Bytes) :
    Exact (posix2 file a b) (Fine2 a b) (parseNot file (parseExpr file (n + 1)) [a, b]) := by
  unfold posix2 Fine2
  split_ifs with hbang hu
  · subst hbang
    rw [first_applies rfl (by decide)]
    cases hb : isBinaryOp b with
    | true =>
      rw [not_missing hb]
      exact .of_error (by simp) (by simp)
    | false =>
      rw [not_bang hb]
      simpa using (exact_not1 file n b).negate
  · rw [second_applies hbang hu]
    cases hb : isBinaryOp b with
    | true =>
      rw [not_missing hb]
      exact .of_error (by simp) (by simp)
    | false =>
      rw [not_unary (isUnaryOp_of_mem hu) hb]
      by_cases ht : a = str "-t"
      · rw [ht]
        exact .of_error (by simp) (by simp)
      · rw [evalUnary_eq ht]
        exact .of_ok (iff_of_true ⟨ht, rfl⟩ rfl)
  · exact .of_none ⟨fun h => absurd h hbang, fun h => absurd h hu⟩

/-! ## Parentheses -/

variable {v : Bool}

theorem not_open (n : Nat) (h : isBinaryOp b = false) :
    parseNot file (parseExpr file (n + 1)) (str "(" :: b :: toks) =
      (parseOr file (parseExpr file n) (b :: toks)).bind closeParen := by
  rw [not_primary (.inl (by decide)), parsePrimary, if_pos ⟨rfl, nextIsBinary_cons.trans h⟩]
  rfl

theorem close_ok
    (h : parseNot file sub toks = .ok (v, [str ")"])) :
    (parseOr file sub toks).bind closeParen = .ok (v, []) := by
  rw [or_of_not h (by decide) (by decide)]
  rfl

theorem close_taken (h : parseNot file sub toks = .ok (v, [])) :
    (parseOr file sub toks).bind closeParen = .error .missingParen := by
  rw [or_of_not h (by simp) (by simp)]
  rfl

theorem close_error
    (h : parseNot file sub toks = .error e) :
    (parseOr file sub toks).bind closeParen = .error e := by
  rw [or_of_error h]
  rfl

/-- An operand and a closing parenthesis that is taken with it, or an error. -/
theorem exact_close_map
    {e : Except Err Bool} (h : parseNot file sub toks = e.map (·, [])) (hf : ¬ fine) :
    Exact (some v) fine ((parseOr file sub toks).bind closeParen) := by
  cases e with
  | error err =>
    rw [close_error h]
    exact .of_error (fun _ => hf) (by simp)
  | ok w =>
    rw [close_taken h]
    exact .of_error (fun _ => hf) (by simp)

theorem not_plain (ht : Plain t) (hb : isBinaryOp b = false) :
    parseNot file sub (t :: b :: toks) = .ok (t ≠ [], b :: toks) := not_word ht.1 ht.2.1 ht.2.2.1 hb

/-- A token that is no string for the program takes the parenthesis behind it. -/
theorem not_taken (n : Nat) {t : Bytes} (ht : ¬ Plain t) (hb : isBinaryOp t = false) :
    ∃ e : Except Err Bool, parseNot file (parseExpr file (n + 1)) [t, str ")"] = e.map (·, []) := by
  by_cases hbang : t = str "!"
  · refine ⟨.ok false, ?_⟩
    rw [hbang]
    rfl
  by_cases hp : t = str "("
  · refine ⟨.error .missingParen, ?_⟩
    rw [hp]
    rfl
  · have hu : isUnaryOp t = true := by
      by_contra hu
      exact ht ⟨hbang, hp, Bool.eq_false_of_not_eq_true hu, hb⟩
    exact ⟨evalUnary file t (str ")"), not_unary hu (by decide)⟩

theorem exact_paren1 (n : Nat) (hb : isBinaryOp t = false) :
    Exact (some (t ≠ [])) (Plain t)
      (parseNot file (parseExpr file (n + 2)) [str "(", t, str ")"]) := by
  rw [not_open (n + 1) hb]
  by_cases ht : Plain t
  · rw [close_ok (not_plain ht (by decide))]
    exact .of_ok (iff_of_true ht rfl)
  · obtain ⟨e, he⟩ := @not_taken file n t ht hb
    exact exact_close_map he ht

/-- Two arguments in parentheses. -/
theorem exact_paren2 (n : Nat) (b c : Bytes) : Exact (posix2 file b c)
      ((b = str "!" → Plain c) ∧ (b ∈ unaryPrimaries → b ≠ str "-t" ∧ isBinaryOp c = false))
      (parseNot file (parseExpr file (n + 2)) [str "(", b, c, str ")"]) := by
  unfold posix2
  split_ifs with hb hunary
  · subst hb
    rw [first_applies rfl (by decide), not_open (n + 1) (by decide)]
    cases hc : isBinaryOp c with
    | true =>
      have hp : ¬ Plain c := fun h => by simp [Plain, hc] at h
      exact exact_close_map (not_binary hc) hp
    | false =>
      by_cases hp : Plain c
      · have hn : parseNot file (parseExpr file (n + 1)) [str "!", c, str ")"] =
            .ok (c = [], [str ")"]) := by
          rw [not_bang hc, not_plain hp (by decide)]
          simp [negate]
        rw [close_ok hn]
        exact .of_ok (iff_of_true hp rfl)
      · obtain ⟨e, he⟩ := @not_taken file n c hp hc
        refine exact_close_map (e := e.map not) ?_ hp
        rw [not_bang hc, he]
        cases e with
        | error err => exact negate_error err
        | ok v => rfl
  · have hu := isUnaryOp_of_mem hunary
    rw [second_applies hb hunary, not_open (n + 1) (isBinaryOp_of_unary hu)]
    cases hc : isBinaryOp c with
    | true => exact exact_close_map (not_binary hc) (by simp)
    | false =>
      have hn := @not_unary file (parseExpr file (n + 1)) b c [str ")"] hu hc
      by_cases ht : b = str "-t"
      · rw [ht] at hn ⊢
        rw [close_error hn]
        exact .of_error (by simp) (by simp)
      · rw [evalUnary_eq ht] at hn
        rw [close_ok hn]
        exact .of_ok (iff_of_true ⟨ht, rfl⟩ rfl)
  · exact .of_none ⟨fun h => absurd h hb, fun h => absurd h hunary⟩

/-! ## Three arguments -/

/-- Three arguments without `-a` and `-o` in the middle are read to their end, also behind a `!`. -/
theorem exact_not3 (n : Nat) (hb : ¬ (b = str "-a" ∨ b = str "-o")) :
    Exact (posix3 file a b c) (Fine3 file a b c)
      (parseNot file (parseExpr file (n + 2)) [a, b, c]) := by
  obtain ⟨hand, hor⟩ := not_or.mp hb
  unfold posix3 Fine3
  rw [if_neg hb]
  by_cases hbinary : b ∈ binaryPrimaries
  · have hop := isBinaryOp_of_mem hbinary
    rw [if_pos (.inr (.inr hbinary)), if_pos hbinary, binaryTest, if_neg hand, if_neg hor,
      not_binary hop]
    cases evalBinary a b c with
    | error err => exact .of_none trivial
    | ok v => exact .of_ok (iff_of_true trivial rfl)
  rw [if_neg (by rw [not_or, not_or]; exact ⟨hand, hor, hbinary⟩)]
  split_ifs with hbang hp
  · subst hbang
    cases hop : isBinaryOp b with
    | true =>
      -- only the operator `==`, which is no primary
      have hn : posix2 file b c = none := by
        have hm : b ∉ unaryPrimaries := fun hm => by
          rw [isBinaryOp_of_unary (isUnaryOp_of_mem hm)] at hop
          cases hop
        rw [posix2, if_neg (ne_of_binary hop (by decide)), if_neg hm]
      have he := exact_not2 file n b c
      rw [hn] at he ⊢
      exact .of_none (he.unspecified rfl)
    | false =>
      rw [not_bang hop]
      exact (exact_not2 file (n + 1) b c).negate
  · obtain ⟨rfl, rfl⟩ := hp
    cases hop : isBinaryOp b with
    | true =>
      have hplain : ¬ Plain b := fun h => by simp [Plain, hop] at h
      have heq : b = str "==" := by
        have hall : ∀ b ∈
          [str "=", str "==", str "!=", str "-eq", str "-ne", str "-lt", str "-le", str "-gt",
          str "-ge"], b ∉ binaryPrimaries → b = str "==" := by decide
        exact hall b (of_decide_eq_true hop) hbinary
      subst heq
      exact .of_ok (iff_of_false hplain (by decide))
    | false => exact exact_paren1 n hop
  · exact .of_none trivial

theorem agrees_dangling {w : Bool} (h : parseNot file sub (a :: toks) = .ok (v, [d])) :
    Agrees (some w) (finish (parseOr file sub (a :: toks))) ↔ Dangling v d w := by
  unfold Dangling
  by_cases hop : d = str "-a" ∨ d = str "-o"
  · have hne : str "-a" ≠ str "-o" := by decide
    rw [or_junction hop h (e := .ok false) not_nil]
    rcases hop with rfl | rfl <;> simp [Except.map, finish, junction, hne, eq_comm]
  · obtain ⟨hand, hor⟩ := not_or.mp hop
    rw [or_of_not h (by simpa using hand) (by simpa using hor)]
    simp [finish, hand, hor]

theorem agrees_two (n : Nat) (hop : b = str "-a" ∨ b = str "-o")
    (h : parseNot file (parseExpr file (n + 1)) (a :: toks) = .ok (v, [b, d])) :
    Agrees (some w) (finish (parseOr file (parseExpr file (n + 1)) (a :: toks))) ↔
      d ≠ str "(" ∧ junction b v (d ≠ []) = w := by
  by_cases hd : d = str "("
  · subst hd
    rw [or_junction hop h (e := .error .missingParen) (not_paren n)]
    simp [Except.map, finish]
  · rw [or_junction hop h (e := .ok (d ≠ [])) (not_single hd)]
    simp [Except.map, finish, hd]

theorem binaryTest_junction (hop : b = str "-a" ∨ b = str "-o") :
    binaryTest a b c = some (junction b (a ≠ []) (c ≠ [])) := by
  rcases hop with rfl | rfl
  · rfl
  · rw [binaryTest, if_neg (by decide), if_pos rfl, junction, if_neg (by decide)]

theorem posix3_junction (hop : b = str "-a" ∨ b = str "-o") :
    posix3 file a b c = some (junction b (a ≠ []) (c ≠ [])) := by
  rw [posix3, if_pos (hop.imp id .inl), binaryTest_junction hop]

theorem plain_op (hop : b = str "-a" ∨ b = str "-o") : Plain b ∧ b ≠ [] := by
  rcases hop with rfl | rfl
  · exact ⟨⟨by decide, by decide, by decide, by decide⟩, by decide⟩
  · exact ⟨⟨by decide, by decide, by decide, by decide⟩, by decide⟩

theorem junction_true (op : Bytes) : junction op true true = true := by
  unfold junction
  split <;> rfl

/-- An operator behind an operand of two that are not empty does not come to their junction, unless
it is a `-o` behind a true one. -/
theorem dangling_junction (ha : a ≠ []) :
    Dangling v c (junction b (a ≠ []) (c ≠ [])) ↔ c = str "-o" ∧ v = true := by
  constructor
  · rintro (⟨rfl, h⟩ | ⟨rfl, h⟩)
    · rw [decide_eq_true ha, decide_eq_true (by decide), junction_true] at h
      cases h
    · rw [decide_eq_true ha, decide_eq_true (by decide), junction_true] at h
      exact ⟨rfl, h.symm⟩
  · rintro ⟨rfl, rfl⟩
    refine .inr ⟨rfl, ?_⟩
    rw [decide_eq_true ha, decide_eq_true (by decide), junction_true]

theorem not_op (file : Bytes → Bytes → Bool) (hop : b = str "-a" ∨ b = str "-o")
    (sub : List Bytes → Parsed) (c : Bytes) :
    parseNot file sub [b, c] = if isBinaryOp c then .error (.missingArgument c)
      else .ok (true, [c]) := by
  obtain ⟨hp, hne⟩ := plain_op hop
  split_ifs with hc
  · exact not_missing hc
  · rw [not_plain hp (Bool.eq_false_of_not_eq_true hc), decide_eq_true hne]

theorem not_open_op (file : Bytes → Bytes → Bool) (n : Nat) (hop : b = str "-a" ∨ b = str "-o")
    (c : Bytes) :
    c = str ")" ∧ parseNot file (parseExpr file (n + 1)) [str "(", b, c] = .ok (true, []) ∨
      c ≠ str ")" ∧ ∃ err, parseNot file (parseExpr file (n + 1)) [str "(", b, c] = .error err := by
  obtain ⟨hp, -⟩ := plain_op hop
  rw [not_open n hp.2.2.2]
  have hn := not_op file hop (parseExpr file n) c
  split_ifs at hn with hc
  · exact .inr ⟨ne_of_binary hc (by decide), _, close_error hn⟩
  by_cases hclose : c = str ")"
  · subst hclose
    exact .inl ⟨rfl, close_ok hn⟩
  refine .inr ⟨hclose, .missingParen, ?_⟩
  by_cases hop' : c = str "-a" ∨ c = str "-o"
  · rw [or_junction hop' hn (e := .ok false) not_nil]
    rfl
  · obtain ⟨hand, hor⟩ := not_or.mp hop'
    rw [or_of_not hn (by simpa using hand) (by simpa using hor)]
    simp [Except.bind, closeParen, hclose]

/-- **Three arguments.** -/
theorem agrees_three (a b c : Bytes) :
    Agrees (posix3 file a b c) (evaluate file [a, b, c]) ↔ Fine3 file a b c := by
  by_cases hop : b = str "-a" ∨ b = str "-o"
  · obtain ⟨hplain, -⟩ := plain_op hop
    rw [posix3_junction hop, Fine3, if_pos hop]
    show Agrees _ (finish (parseOr file (parseExpr file 3) [a, b, c])) ↔ _
    by_cases hb : a = str "!"
    · subst hb
      have hn := not_op file hop (parseExpr file 3) c
      split_ifs at hn with hc
      · rw [or_of_error (by rw [not_bang hplain.2.2.2, hn, negate_error])]
        simp [finish]
      · rw [agrees_dangling (by rw [not_bang hplain.2.2.2, hn]; rfl), dangling_junction (by decide)]
        simp
    by_cases hp : a = str "("
    · subst hp
      rcases not_open_op file 2 hop c with ⟨rfl, hn⟩ | ⟨hclose, err, hn⟩
      · rw [or_of_not hn (by simp) (by simp)]
        refine iff_of_true ?_ ⟨by decide, by decide, fun _ => rfl, fun h => absurd h (by decide)⟩
        rw [decide_eq_true (by decide), decide_eq_true (by decide), junction_true]
        simp [finish]
      · rw [or_of_error hn]
        exact iff_of_false (by simp [finish]) fun h => hclose (h.2.2.1 rfl)
    cases hu : isUnaryOp a with
    | true =>
      have hn := @not_unary file (parseExpr file 3) a b [c] hu hplain.2.2.2
      cases hv : evalUnary file a b with
      | error err =>
        rw [hv] at hn
        rw [or_of_error hn]
        exact iff_of_false (by simp [finish]) fun h => by cases (h.2.2.2 rfl).2
      | ok v =>
        rw [hv] at hn
        rw [agrees_dangling hn, dangling_junction (ne_of_unary hu (by decide))]
        constructor
        · rintro ⟨rfl, rfl⟩
          exact ⟨hb, by decide, fun h => absurd h hp, fun _ => ⟨rfl, rfl⟩⟩
        · rintro ⟨-, -, -, h⟩
          exact ⟨(h rfl).1, by simpa using (h rfl).2⟩
    | false =>
      rw [agrees_two 2 hop (not_word hb hp hu hplain.2.2.2)]
      constructor
      · exact fun h => ⟨hb, h.1, fun h' => absurd h' hp, fun h' => by cases h'⟩
      · exact fun h => ⟨h.2.1, rfl⟩
  · exact (exact_not3 1 hop).agrees

/-! ## Four arguments -/

theorem dangling_not_junction (hb : b ≠ []) :
    Dangling v d (!junction c (b ≠ []) (d ≠ [])) ↔ Dangling v d false := by
  have hj : d = str "-a" ∨ d = str "-o" → junction c (b ≠ []) (d ≠ []) = true := by
    intro hd
    rw [decide_eq_true hb, decide_eq_true (plain_op hd).2, junction_true]
  constructor
  · rintro (⟨hd, -⟩ | ⟨hd, hv⟩)
    · exact .inl ⟨hd, rfl⟩
    · rw [hj (.inr hd)] at hv
      exact .inr ⟨hd, hv⟩
  · rintro (⟨hd, -⟩ | ⟨hd, hv⟩)
    · exact .inl ⟨hd, by rw [hj (.inl hd)]; rfl⟩
    · exact .inr ⟨hd, by rw [hj (.inr hd)]; exact hv⟩

/-- A `!` binds tighter than `-a` and `-o` for the program, and not so for POSIX. -/
theorem agrees_four_op (hb : isBinaryOp b = false) (hop : c = str "-a" ∨ c = str "-o") :
    Agrees (some (!junction c (b ≠ []) (d ≠ [])))
      (finish (parseOr file (parseExpr file 4) [str "!", b, c, d])) ↔
      if b = str "!" then d = str "-a"
      else if b = str "(" then d = str ")"
      else if isUnaryOp b then ∃ v, evalUnary file b c = .ok v ∧ Dangling (!v) d false
      else if c = str "-a" then d ≠ [] ∧ d ≠ str "("
      else d = [] := by
  obtain ⟨hp, -⟩ := plain_op hop
  have hbang : parseNot file (parseExpr file 4) [str "!", b, c, d] =
      negate (parseNot file (parseExpr file 4) [b, c, d]) := not_bang hb
  split_ifs with hb1 hb2 hu hc
  · subst hb1
    rw [not_bang hp.2.2.2] at hbang
    have hn := not_op file hop (parseExpr file 4) d
    split_ifs at hn with hd
    · rw [hn] at hbang
      rw [or_of_error hbang]
      exact iff_of_false (by simp [finish]) (ne_of_binary hd (by decide))
    · rw [hn] at hbang
      rw [agrees_dangling hbang, dangling_not_junction (by decide)]
      simp [Dangling]
  · subst hb2
    rcases not_open_op file 3 hop d with ⟨rfl, hn⟩ | ⟨hclose, e, hn⟩
    · rw [hn] at hbang
      rw [or_of_not hbang (by simp) (by simp), decide_eq_true (by decide),
        decide_eq_true (by decide),
        junction_true]
      exact iff_of_true (by simp [finish]) rfl
    · rw [hn, negate_error] at hbang
      rw [or_of_error hbang]
      exact iff_of_false (by simp [finish]) hclose
  · rw [not_unary hu hp.2.2.2] at hbang
    cases hv : evalUnary file b c with
    | error e =>
      rw [hv] at hbang
      rw [or_of_error (hbang.trans (negate_error e))]
      simp [finish]
    | ok v =>
      rw [hv] at hbang
      rw [agrees_dangling hbang, dangling_not_junction (ne_of_unary hu (by decide))]
      simp
  · rw [not_word hb1 hb2 (by simpa using hu) hp.2.2.2] at hbang
    simp only [agrees_two 3 hop hbang, junction, if_pos hc]
    by_cases hd : d = [] <;> by_cases b = [] <;> simp [hd]
  · rw [not_word hb1 hb2 (by simpa using hu) hp.2.2.2] at hbang
    simp only [agrees_two 3 hop hbang, junction, if_neg hc]
    by_cases hd : d = []
    · have hparen : ([] : Bytes) ≠ str "(" := by decide
      by_cases b = [] <;> simp [hd, hparen]
    · by_cases b = [] <;> simp [hd]

/-- **Four arguments.** -/
theorem agrees_four (a b c d : Bytes) :
    Agrees (posix4 file a b c d) (evaluate file [a, b, c, d]) ↔ Fine4 file a b c d := by
  show Agrees _ (finish (parseOr file (parseExpr file 4) [a, b, c, d])) ↔ _
  unfold posix4 Fine4
  by_cases hbang : a = str "!"
  · subst hbang
    rw [if_pos rfl]
    cases hb : isBinaryOp b with
    | true =>
      have hn := @not_binary file (parseExpr file 4) (str "!") b c [d] hb
      cases hv : evalBinary (str "!") b c with
      | error err =>
        rw [hv] at hn
        rw [or_of_error hn]
        cases posix3 file b c d with
        | none => simp
        | some w => simp [finish]
      | ok v =>
        rw [hv] at hn
        cases posix3 file b c d with
        | none => simp
        | some w =>
          rw [Option.map_some, agrees_dangling hn]
          simp
    | false =>
      by_cases hop : c = str "-a" ∨ c = str "-o"
      · rw [if_pos hop, posix3_junction hop]
        exact agrees_four_op hb hop
      · rw [if_neg hop]
        apply Exact.agrees
        rw [not_bang hb]
        exact (exact_not3 2 hop).negate
  · split_ifs with hp
    · obtain ⟨rfl, rfl⟩ := hp
      exact (exact_paren2 2 b c).agrees
    · simp

end

/-- **Where `test` gives the value that POSIX prescribes**, for up to four arguments. -/
theorem evaluate_posix_iff (file : Bytes → Bytes → Bool) {tokens : List Bytes}
    (hlen : tokens.length ≤ 4) :
    (∀ v, posix file tokens = some v → evaluate file tokens = .ok v) ↔ Fine file tokens := by
  match tokens, hlen with
  | [], _ => exact iff_of_true (by simp [posix, evaluate]) trivial
  | [a], _ =>
    exact (exact_not1 file 0 a).agrees
  | [a, b], _ =>
    exact (exact_not2 file 1 a b).agrees
  | [a, b, c], _ => exact agrees_three a b c
  | [a, b, c, d], _ => exact agrees_four a b c d

/-- A comparison of the two tokens that have a meaning of their own: the operator between them
decides. -/
theorem evaluate_posix_iff_bang :
    evaluate (fun _ _ => false) [str "!", str "=", str "("] = .ok false := by
  have hf : Fine (fun _ _ => false) [str "!", str "=", str "("] := by
    trivial
  exact (evaluate_posix_iff (fun _ _ => false) (by decide)).mpr hf false (by decide)

/-- One argument that is not empty is true, also if it is an open parenthesis. -/
theorem not_posix_paren : posix (fun _ _ => false) [str "("] = some true ∧
      evaluate (fun _ _ => false) [str "("] = .error (.parse .missingParen) :=
  ⟨by decide, by decide⟩

end GoPosix.Testcmd
