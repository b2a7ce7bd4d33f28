import GoPosix.Expr.Basic

/-!
# The value of an expression

POSIX gives every expression a value (`posix`), and it is printed with the parentheses that the
levels and left associativity ask for (`Tree.print`). What `eval` makes of that is what `meaning`
says (`eval_print`). The two part at single operators:

* an empty operand is the end of the expression for the parser;
* `:` takes a single operand on its left, and takes `a : b : c` from right to left;
* `|` of two null operands is null, and not `0`;
* a zero is a zero only if it is written `0`;
* `+5` is an integer.

`eval_posix_iff` says for each operator when it does not matter. It asks nothing of an operand that
no value depends on.
-/

namespace GoPosix.Expr

open Bytes Levels MachineInt List Option

/-! ## Expressions -/

inductive Cmp
  | eq | ne | lt | le | gt | ge
  deriving DecidableEq

inductive Arith
  | add | sub | mul | div | mod
  deriving DecidableEq

inductive Op
  | or
  | and
  | cmp (c : Cmp)
  | arith (a : Arith)
  | colon
  deriving DecidableEq

def Cmp.token : Cmp → Bytes
  | .eq => str "="
  | .ne => str "!="
  | .lt => str "<"
  | .le => str "<="
  | .gt => str ">"
  | .ge => str ">="

def Arith.token : Arith → Bytes
  | .add => str "+"
  | .sub => str "-"
  | .mul => str "*"
  | .div => str "/"
  | .mod => str "%"

def Op.token : Op → Bytes
  | .or => str "|"
  | .and => str "&"
  | .cmp c => c.token
  | .arith a => a.token
  | .colon => str ":"

def Arith.level : Arith → Nat
  | .add => 4
  | .sub => 4
  | .mul => 5
  | .div => 5
  | .mod => 5

def Op.level : Op → Nat
  | .or => 1
  | .and => 2
  | .cmp _ => 3
  | .arith a => a.level
  | .colon => 6

/-- The tokens of the operators and the keywords. -/
def reserved : List Bytes :=
  [str "|", str "&", str "=", str "!=", str "<", str "<=", str ">", str ">=", str "+", str "-",
    str "*", str "/",
    str "%", str ":", str "(", str ")", str "match", str "substr", str "index", str "length"]

structure Atom where
  text : Bytes
  free : text ∉ reserved

abbrev Tree := Levels.Tree Op Atom

theorem token_injective : Function.Injective Op.token := by
  intro a b h
  -- no two tokens begin with the same two bytes
  have hb : (a.token.getD 0 0, a.token.getD 1 0) = (b.token.getD 0 0, b.token.getD 1 0) := by rw [h]
  rcases a with _ | _ | (_ | _ | _ | _ | _ | _) | (_ | _ | _ | _ | _) | _ <;>
    rcases b with _ | _ | (_ | _ | _ | _ | _ | _) | (_ | _ | _ | _ | _) | _ <;>
      first | rfl | exact absurd hb (by decide)

def table : Table Op Atom Bytes where
  token := Op.token
  level := Op.level
  word := Atom.text
  lparen := str "("
  rparen := str ")"
  token_injective := token_injective

/-! ## What POSIX says -/

/-- What POSIX says about an expression. It leaves open what happens outside the range of a `long`,
and whether an operand that does not matter is evaluated. -/
inductive Outcome
  | value (v : Bytes)
  | error
  | unspecified
  deriving DecidableEq

/-- A basic regular expression: whether it has a group, and what it matches at the beginning of a
string, with the part that the first group matches, which is empty if there is none. -/
structure Bre where
  hasGroup : Bool
  find : Bytes → Option (Bytes × Bytes)

def Cmp.holds : Cmp → Ordering → Bool
  | .eq, o => o = .eq
  | .ne, o => o ≠ .eq
  | .lt, o => o = .lt
  | .le, o => o ≠ .gt
  | .gt, o => o = .gt
  | .ge, o => o ≠ .lt

/-- There is nothing to divide by zero. -/
def Arith.apply : Arith → Int → Int → Option Int
  | .add, x, y => some (x + y)
  | .sub, x, y => some (x - y)
  | .mul, x, y => some (x * y)
  | .div, x, y => if y = 0 then none else some (x.tdiv y)
  | .mod, x, y => if y = 0 then none else some (x.tmod y)

namespace Posix

/-- A zero may be written with any number of digits. -/
def nullOrZero (v : Bytes) : Bool := v = [] ∨ (isInteger v = true ∧ intValue v = 0)

def integers (l r : Bytes) (both : Int → Int → Outcome) (otherwise : Outcome) : Outcome :=
  if isInteger l ∧ isInteger r then
    if FitsInt (intValue l) ∧ FitsInt (intValue r) then both (intValue l) (intValue r)
      else .unspecified
  else otherwise

def number : Option Int → Outcome
  | none => .error
  | some z => if FitsInt z then .value (itoaInt z) else .unspecified

variable (bre : Bytes → Option Bre)

def matching (s pattern : Bytes) : Outcome :=
  match bre pattern with
  | none => .error
  | some re =>
    match re.find s with
    | none => .value (if re.hasGroup then [] else str "0")
    | some (m, group) => .value (if re.hasGroup then group else itoa m.length)

/-- The value of an operator for the values of its operands. -/
def apply : Op → Bytes → Bytes → Outcome
  | .or, l, r => .value (if nullOrZero l then if r = [] then str "0" else r else l)
  | .and, l, r => .value (if nullOrZero l ∨ nullOrZero r then str "0" else l)
  | .cmp c, l, r =>
    integers l r (fun x y => .value (truth (c.holds (compare x y))))
      (.value (truth (c.holds (compare l r))))
  | .arith a, l, r => integers l r (fun x y => number (a.apply x y)) .error
  | .colon, l, r => matching bre l r

/-- The left operand alone decides about the value. -/
def decided : Op → Bytes → Bool
  | .or, l => !nullOrZero l
  | .and, l => nullOrZero l
  | _, _ => false

def combine (op : Op) : Outcome → Outcome → Outcome
  | .unspecified, _ => .unspecified
  | _, .unspecified => .unspecified
  | .error, _ => .error
  | .value l, .error => if decided op l then .unspecified else .error
  | .value l, .value r => apply bre op l r

end Posix

def posix (bre : Bytes → Option Bre) : Tree → Outcome
  | .atom a => .value a.text
  | .node op l r => Posix.combine bre op (posix bre l) (posix bre r)

/-- A result is what POSIX says. -/
def Agrees : Outcome → Except Err Bytes → Prop
  | .value v, res => res = .ok v
  | .error, res => ∃ err, res = .error err
  | .unspecified, _ => True

/-- **Correctness for one expression**: `Eval` gives the printed expression its value. -/
def Correct (compile : Bytes → Except Bytes Regexp) (bre : Bytes → Option Bre) (t : Tree) : Prop :=
  Agrees (posix bre t) ((eval compile (t.print table 1)).map Prod.fst)

/-! ## What the code says -/

section

variable (compile : Bytes → Except Bytes Regexp)

def opResult : Op → Bytes → Bytes → Except Err Bytes
  | .or, l, r => .ok (orResult l r)
  | .and, l, r => .ok (andResult l r)
  | .cmp c, l, r => .ok (cmpResult l c.token r)
  | .arith a, l, r => if a.level = 4 then addResult a.token l r else mulResult a.token l r
  | .colon, l, r => matchStr compile l r

/-- The operands of `a : b : c`, if they are single and not empty. -/
def spine : Tree → Option (List Bytes)
  | .atom a => if a.text = [] then none else some [a.text]
  | .node .colon l (.atom a) => if a.text = [] then none else (spine l).map (· ++ [a.text])
  | .node _ _ _ => none

def matchAll : List Bytes → Bytes → Except Err Bytes
  | [], v => .ok v
  | s :: strs, v => (matchAll strs v).bind (matchStr compile s)

/-- What the parser makes of an expression; nothing for an error. -/
def meaning : Tree → Option Bytes
  | .atom a => if a.text = [] then none else some a.text
  | .node .colon l r =>
    (spine l).bind fun strs => (meaning r).bind fun v => (matchAll compile strs v).toOption
  | .node op l r =>
    (meaning l).bind fun left => (meaning r).bind fun right =>
      (opResult compile op left right).toOption

end

/-! ## Reading a printed expression -/

section

variable {compile : Bytes → Except Bytes Regexp} {sub : List Bytes → Parsed}

theorem print_head (k : Nat) (t : Tree) :
    ∃ tok tk, t.print table k = tok :: tk ∧ (tok = str "(" ∨ tok ∉ reserved) := by
  induction t generalizing k with
  | atom a => exact ⟨a.text, [], rfl, .inr a.free⟩
  | node op l r i _ =>
    rcases Nat.lt_or_ge (table.level op) k with hlt | hge
    · rw [Tree.print_loose hlt (Nat.le_refl _)]
      exact ⟨_, _, rfl, .inl rfl⟩
    · obtain ⟨tok, tk, hp, ht⟩ := i (table.level op)
      rw [Tree.print_tight hge, hp]
      exact ⟨tok, _, rfl, ht⟩

theorem unary_eq_primary (k : Nat) (t : Tree) (rest : List Bytes) :
    parseUnary compile sub (t.print table k ++ rest) =
      parsePrimary compile sub (t.print table k ++ rest) := by
  obtain ⟨tok, toks, hprint, ht⟩ := print_head k t
  have hk : ∀ word, word ≠ str "(" ∧ word ∈ reserved → tok ≠ word := by
    rintro word ⟨hp, hw⟩ rfl
    exact ht.elim hp fun h => h hw
  rw [hprint, cons_append, parseUnary, if_neg (hk _ (by decide)), if_neg (hk _ (by decide)),
    if_neg (hk _ (by decide)), if_neg (hk _ (by decide))]

theorem follows_paren (k : Nat) (rest : List Bytes) : Follows table k (str ")" :: rest) := by
  intro op toks h
  have hne : ∀ op : Op, str ")" ≠ op.token := by
    rintro (_ | _ | (_ | _ | _ | _ | _ | _) | (_ | _ | _ | _ | _) | _) <;> decide
  exact absurd (List.cons.inj h).1 (hne op)

theorem Atom.ne_paren (a : Atom) : a.text ≠ str "(" := by
  intro h
  exact a.free (by rw [h]; decide)

theorem primary_atom (hr : Follows table 6 rest) :
    Means (str ":") (meaning compile (.atom a)) rest
      (parsePrimary compile sub (a.text :: rest)) := by
  rw [parsePrimary.eq_def, meaning]
  simp only [if_neg a.ne_paren]
  by_cases hn : a.text = []
  · rw [if_pos hn, if_pos hn]
    exact ⟨nofun, fun _ => .error _⟩
  rw [if_neg hn, if_neg hn]
  refine ⟨fun v hv => ?_, nofun⟩
  obtain rfl : a.text = v := some.inj hv
  cases rest with
  | nil => rfl
  | cons tok t =>
    apply if_neg
    rintro rfl
    exact absurd (hr .colon t rfl) (Nat.lt_irrefl 6)

/-- Operands in front of a colon wait for the pattern behind it. -/
def waiting (compile : Bytes → Except Bytes Regexp) (strs : List Bytes) (p : Parsed) : Parsed :=
  p.bind fun (v, toks) => (matchAll compile strs v).map (·, toks)

theorem primary_colon {a : Atom} (ha : a.text ≠ []) (t : List Bytes) :
    parsePrimary compile sub (a.text :: str ":" :: t) =
      waiting compile [a.text] (parsePrimary compile sub t) := by
  rw [parsePrimary, if_neg a.ne_paren, if_neg ha]
  exact if_pos rfl

theorem stuck_empty {a : Atom} (ha : a.text = []) (t : List Bytes) :
    Stuck (str ":") (parsePrimary compile sub (a.text :: str ":" :: t)) := by
  rw [ha]
  exact .error Err.endOfExpression

theorem waiting_append (st : List Bytes) (s : Bytes) (p : Parsed) :
    waiting compile (st ++ [s]) p = waiting compile st (waiting compile [s] p) := by
  have hm : ∀ v, matchAll compile (st ++ [s]) v =
      (matchAll compile [s] v).bind (matchAll compile st) := by
    intro v
    induction st with
    | nil =>
      show matchStr compile s v = (matchStr compile s v).bind .ok
      cases matchStr compile s v <;> rfl
    | cons s' st ih =>
      rw [cons_append, matchAll, ih]
      cases matchAll compile [s] v <;> rfl
  cases p with
  | error e => rfl
  | ok r =>
    obtain ⟨v, t⟩ := r
    show (matchAll compile (st ++ [s]) v).map (·, t) =
      waiting compile st ((matchAll compile [s] v).map (·, t))
    rw [hm]
    cases matchAll compile [s] v <;> rfl

theorem stuck_waiting (s : List Bytes) (h : Stuck (str ":") p) :
    Stuck (str ":") (waiting compile s p) := by
  apply h.bind
  intro v t
  show Stuck (str ":") ((matchAll compile s v).map (·, str ":" :: t))
  cases matchAll compile s v with
  | error e => exact .error e
  | ok w => exact .inr ⟨w, t, rfl⟩

theorem one_le_level (op : Op) : 1 ≤ op.level := by
  rcases op with _ | _ | (_ | _ | _ | _ | _ | _) | (_ | _ | _ | _ | _) | _ <;> decide

variable {op : Op}

theorem level_lt_six (h : op ≠ .colon) : op.level < 6 := by
  rcases op with _ | _ | (_ | _ | _ | _ | _ | _) | (_ | _ | _ | _ | _) | _
    <;> first | decide | exact absurd rfl h

theorem print_colon (l r : Tree) :
    Tree.print table 6 (.node .colon l r) = l.print table 6 ++ str ":" :: r.print table 7 := rfl

theorem parens_colon (l r : Tree) :
    Tree.parens table 6 (.node .colon l r) = l.parens table 6 + r.parens table 7 :=
  Tree.parens_tight (show 6 ≤ table.level Op.colon from Nat.le_refl 6)

theorem spine_node (hop : op ≠ .colon) (l r : Tree) : spine (.node op l r) = none := by
  cases op with
  | colon => exact absurd rfl hop
  | _ => rfl

theorem level_lt_seven (op : Op) : op.level < 7 := by
  rcases op with _ | _ | (_ | _ | _ | _ | _ | _) | (_ | _ | _ | _ | _) | _ <;> decide

/-! ## The levels -/

theorem meaning_node (hop : op ≠ .colon) (l r : Tree) :
    meaning compile (.node op l r) = (meaning compile l).bind fun left =>
      (meaning compile r).bind fun ri => (opResult compile op left ri).toOption := by
  cases op with
  | colon => exact absurd rfl hop
  | _ => rfl

/-- A level whose loop takes the operators `op` with `op.level = k`, and does with them what
`opResult` says. -/
theorem levelOf (hi : ∀ tok, isOp tok = true → ∃ op : Op, op.token = tok ∧ op.level = k)
    (hop : ∀ op : Op, op.level = k → isOp op.token = true := by
      rintro (_ | _ | (_ | _ | _ | _ | _ | _) | (_ | _ | _ | _ | _) | _) h
        <;> first | decide | cases h)
    (hc : ∀ (op : Op) (l r : Bytes), op.level = k →
        opResult compile op l r = combine op.token l r := by
      rintro (_ | _ | _ | (_ | _ | _ | _ | _) | _) l r h <;> first | rfl | cases h)
    (hk : k < 6 := by decide) (hs : isOp (str ":") = false := by decide) :
    LevelOf table (meaning compile) (str ":") k isOp combine := by
  refine ⟨fun tok => ⟨hi tok, ?_⟩, fun op l r hl => ?_, hs⟩
  · rintro ⟨op, rfl, hl⟩
    exact hop op hl
  have hne : op ≠ .colon := by
    rintro rfl
    exact absurd hl (Nat.ne_of_gt hk)
  rw [meaning_node hne]
  simp only [hc op _ _ hl]
  rfl

theorem level_mul : LevelOf table (meaning compile) (str ":") 5 isMulOp mulResult := by
  refine levelOf fun tok h => ?_
  rcases of_decide_eq_true h with rfl | rfl | rfl
  · exact ⟨.arith .mul, rfl, rfl⟩
  · exact ⟨.arith .div, rfl, rfl⟩
  · exact ⟨.arith .mod, rfl, rfl⟩

theorem level_add : LevelOf table (meaning compile) (str ":") 4 isAddOp addResult := by
  refine levelOf fun tok h => ?_
  rcases of_decide_eq_true h with rfl | rfl
  · exact ⟨.arith .add, rfl, rfl⟩
  · exact ⟨.arith .sub, rfl, rfl⟩

theorem level_cmp : LevelOf table (meaning compile) (str ":") 3 isCmpOp
    fun op left right => (.ok (cmpResult left op right) : Except Err Bytes) := by
  refine levelOf fun tok h => ?_
  have hm := of_decide_eq_true h
  simp only [mem_cons, not_mem_nil, or_false] at hm
  rcases hm with rfl | rfl | rfl | rfl | rfl | rfl
  · exact ⟨.cmp .eq, rfl, rfl⟩
  · exact ⟨.cmp .ne, rfl, rfl⟩
  · exact ⟨.cmp .lt, rfl, rfl⟩
  · exact ⟨.cmp .le, rfl, rfl⟩
  · exact ⟨.cmp .gt, rfl, rfl⟩
  · exact ⟨.cmp .ge, rfl, rfl⟩

theorem level_and : LevelOf table (meaning compile) (str ":") 2 (· = str "&")
    fun _ left right => (.ok (andResult left right) : Except Err Bytes) :=
  levelOf fun _ h => ⟨.and, (of_decide_eq_true h).symm, rfl⟩

theorem level_or : LevelOf table (meaning compile) (str ":") 1 (· = str "|")
    fun _ left right => (.ok (orResult left right) : Except Err Bytes) :=
  levelOf fun _ h => ⟨.or, (of_decide_eq_true h).symm, rfl⟩

section

variable (hsub : ∀ m < n, Reads table (meaning compile) (str ":") m 1 sub)

include hsub

theorem primary_paren (ht : t.parens table 1 < n) (rest : List Bytes) :
    Means (str ":") (meaning compile t) rest
      (parsePrimary compile sub (str "(" :: (t.print table 1 ++ [str ")"]) ++ rest)) := by
  have hm := hsub _ ht t (str ")" :: rest) (Nat.le_refl _) (follows_paren 1 rest)
  have hp : parsePrimary compile sub (str "(" :: (t.print table 1 ++ [str ")"]) ++ rest)
      = (sub (t.print table 1 ++ str ")" :: rest)).bind closeParen := by
    rw [cons_append, append_assoc, parsePrimary.eq_def]
    exact if_pos rfl
  rw [hp]
  constructor
  · intro v hv
    rw [hm.read v hv]
    rfl
  · intro hv
    exact (hm.stuck hv).bind fun _ _ => .error Err.expectedParen

theorem primary_node
    (hop : op.level < k) (ht : Tree.parens table k (.node op l r) ≤ n) (rest : List Bytes) :
    Means (str ":") (meaning compile (.node op l r)) rest
      (parsePrimary compile sub (Tree.print table k (.node op l r) ++ rest)) := by
  rw [Tree.parens_loose hop (one_le_level op)] at ht
  rw [Tree.print_loose hop (one_le_level op)]
  exact primary_paren hsub (by omega) rest

theorem stuck_node
    (hop : op.level < k) (ht : Tree.parens table k (.node op l r) ≤ n) (t : List Bytes) :
    Stuck (str ":")
      (parsePrimary compile sub (Tree.print table k (.node op l r) ++ str ":" :: t)) := by
  have hm := primary_node hsub hop ht (str ":" :: t)
  cases hv : meaning compile (.node op l r) with
  | none => exact hm.stuck hv
  | some v => exact .inr ⟨v, t, hm.read v hv⟩

/-- What stands before a colon: operands that wait for what is behind it, or something that the
parser does not get past. -/
theorem primary_spine (l : Tree)
    (hl : l.parens table 6 ≤ n) (t : List Bytes) :
    (∀ s, spine l = some s → parsePrimary compile sub (l.print table 6 ++ str ":" :: t)
      = waiting compile s (parsePrimary compile sub t)) ∧
    (spine l = none → Stuck (str ":")
      (parsePrimary compile sub (l.print table 6 ++ str ":" :: t))) := by
  induction l generalizing t with
  | atom a =>
    rw [spine]
    by_cases ha : a.text = []
    · rw [if_pos ha]
      exact ⟨nofun, fun _ => stuck_empty ha t⟩
    · rw [if_neg ha]
      refine ⟨fun s hs => ?_, nofun⟩
      obtain rfl := some.inj hs
      exact primary_colon ha t
  | node op l r i ihr =>
    by_cases hop : op = .colon
    · subst hop
      rw [parens_colon] at hl
      rw [print_colon, append_assoc, cons_append]
      obtain ⟨hreads, hstr⟩ := i (by omega) (r.print table 7 ++ str ":" :: t)
      -- a right operand that is stuck leaves the whole stuck
      have hr : Stuck (str ":") (parsePrimary compile sub (r.print table 7 ++ str ":" :: t)) →
          Stuck (str ":")
            (parsePrimary compile sub
                (l.print table 6 ++ str ":" :: (r.print table 7 ++ str ":" :: t))) := by
        intro h
        cases hs : spine l with
        | none => exact hstr hs
        | some s =>
          rw [hreads s hs]
          exact stuck_waiting s h
      cases r with
      | node op l' r' =>
        exact ⟨nofun, fun _ => hr (stuck_node hsub (level_lt_seven op) (by omega) t)⟩
      | atom a =>
        rw [spine]
        by_cases ha : a.text = []
        · rw [if_pos ha]
          exact ⟨nofun, fun _ => hr (stuck_empty ha t)⟩
        · rw [if_neg ha]
          constructor
          · intro s hs
            obtain ⟨s', hs', rfl⟩ := map_eq_some_iff.mp hs
            rw [hreads s' hs', waiting_append]
            exact congrArg _ (primary_colon ha t)
          · intro hn
            exact hstr (map_eq_none_iff.mp hn)
    · rw [spine_node hop]
      exact ⟨nofun, fun _ => stuck_node hsub (level_lt_six hop) hl t⟩

theorem primary_right (hr : r.parens table 7 ≤ n) (hrest : Follows table 6 rest) :
    Means (str ":") (meaning compile r) rest
      (parsePrimary compile sub (r.print table 7 ++ rest)) := by
  cases r with
  | atom a => exact primary_atom hrest
  | node op l r => exact primary_node hsub (level_lt_seven op) hr rest

/-- `parsePrimary` reads the matches and what binds tighter. -/
theorem reads_primary : Reads table (meaning compile) (str ":") n 6 (parsePrimary compile sub) := by
  intro t rest ht hrest
  cases t with
  | atom a => exact primary_atom hrest
  | node op l r =>
    by_cases hop : op = .colon
    · subst hop
      rw [parens_colon] at ht
      rw [print_colon, append_assoc, cons_append]
      obtain ⟨hread, hstr⟩ := primary_spine hsub l (by omega) (r.print table 7 ++ rest)
      have hr := primary_right hsub (r := r) (by omega) hrest
      rw [meaning]
      cases hs : spine l with
      | none => exact ⟨nofun, fun _ => hstr hs⟩
      | some s =>
        rw [hread s hs, bind_some]
        cases hright : meaning compile r with
        | none => exact ⟨nofun, fun _ => stuck_waiting s (hr.stuck hright)⟩
        | some p =>
          rw [hr.read p hright, bind_some]
          show Means _ _ rest ((matchAll compile s p).map (·, rest))
          cases matchAll compile s p with
          | error e => exact ⟨nofun, fun _ => .error e⟩
          | ok w =>
            refine ⟨fun v hv => ?_, nofun⟩
            obtain rfl : w = v := some.inj hv
            rfl
    · exact primary_node hsub (level_lt_six hop) ht rest

theorem reads_unary : Reads table (meaning compile) (str ":") n 6 (parseUnary compile sub) := by
  intro t rest ht hr
  rw [unary_eq_primary]
  exact reads_primary hsub t rest ht hr

theorem reads_or : Reads table (meaning compile) (str ":") n 1 (parseOr compile sub) := by
  have hm := reads_chain level_mul (reads_unary hsub)
  have hadd := reads_chain level_add hm
  have hc := reads_chain level_cmp hadd
  have hand := reads_chain level_and hc
  exact reads_chain level_or hand

end

theorem reads_nested (f : Nat) :
    ∀ m < f, Reads table (meaning compile) (str ":") m 1 (parseNested compile f) := by
  induction f with
  | zero => exact fun m hm => absurd hm (Nat.not_lt_zero m)
  | succ f ih =>
    intro m hm
    apply reads_or
    intro j hj
    exact ih j (by omega)

/-- **What `Eval` makes of a printed expression.** -/
theorem eval_print (t : Tree) :
    (∀ v, meaning compile t = some v → eval compile (t.print table 1) = .ok (v, exitCode v)) ∧
      (meaning compile t = none → ∃ e, eval compile (t.print table 1) = .error e) := by
  have hf := Tree.parens_lt_length (T := table) 1 t
  have hm := @reads_nested compile ((t.print table 1).length + 1) _ (by omega) t [] (Nat.le_refl _)
    (nofun)
  rw [append_nil] at hm
  have hne : t.print table 1 ≠ [] := by
    intro h
    rw [h] at hf
    exact absurd hf (Nat.not_lt_zero _)
  rw [eval, if_neg hne]
  constructor
  · intro v hv
    rw [hm.read v hv]
    rfl
  · intro hv
    rcases hm.stuck hv with ⟨e, he⟩ | ⟨v, toks, hok⟩
    · exact ⟨e, by rw [he]; rfl⟩
    · exact ⟨.unexpected (str ":"), by rw [hok]; rfl⟩

end

/-! ## Operator by operator -/

/-- A zero that is not written `0`. -/
def OddZero (v : Bytes) : Prop := isInteger v = true ∧ intValue v = 0 ∧ v ≠ str "0"

/-- Both are read as integers, and one of them has a plus sign. -/
def PlusRead (l r : Bytes) : Prop :=
  (atoi l).2 = true ∧ (atoi r).2 = true ∧ (l.head? = some 43 ∨ r.head? = some 43)

/-- When an operator of the code does what POSIX says, for the values of its operands. -/
def Suits : Op → Bytes → Bytes → Prop
  | .or, l, r => (OddZero l → r = l) ∧ (isNull l = true → r ≠ [])
  | .and, l, r => OddZero l ∨ OddZero r → isNull l = true ∨ isNull r = true
  | .cmp c, l, r => PlusRead l r → c.holds (compare (atoi l).1 (atoi r).1) = c.holds (compare l r)
  | .arith a, l, r => PlusRead l r → a.apply (atoi l).1 (atoi r).1 = none
  | .colon, _, _ => True

theorem nullOrZero_iff (v : Bytes) : Posix.nullOrZero v = true ↔ isNull v = true ∨ OddZero v := by
  simp only [Posix.nullOrZero, isNull, OddZero, decide_eq_true_eq]
  by_cases hzero : v = str "0"
  · subst hzero
    exact iff_of_true (.inr (by decide)) (.inl (.inr rfl))
  · simp [hzero]

theorem not_oddZero (h : isNull v = true) : ¬ OddZero v := by
  rintro ⟨hi, -, hne⟩
  rcases of_decide_eq_true h with rfl | rfl
  · cases hi
  · exact hne rfl

section

variable {bre : Bytes → Option Bre} {compile : Bytes → Except Bytes Regexp}

theorem or_suits : Agrees (Posix.apply bre .or l r) (opResult compile .or l r) ↔ Suits .or l r := by
  show (Except.ok (orResult l r) : Except Err Bytes) = .ok _ ↔ _
  rw [Except.ok.injEq, orResult, Suits]
  by_cases hn : isNull l = true
  · rw [if_pos hn, if_pos ((nullOrZero_iff l).mpr (.inl hn))]
    by_cases hr : r = []
    · subst hr
      simp [hn, show ¬ ([] : Bytes) = str "0" by decide]
    · simp [hr, not_oddZero hn]
  · rw [if_neg hn]
    by_cases ho : OddZero l
    · have hl : l ≠ [] := by
        rintro rfl
        exact hn rfl
      rw [if_pos ((nullOrZero_iff l).mpr (.inr ho))]
      by_cases hr : r = []
      · subst hr
        simp [ho, ho.2.2, hl.symm]
      · rw [if_neg hr]
        exact ⟨fun h => ⟨fun _ => h.symm, fun _ => hr⟩, fun h => (h.1 ho).symm⟩
    · have hzero : ¬ Posix.nullOrZero l = true := fun h =>
        ((nullOrZero_iff l).mp h).elim hn ho
      simp [hzero, ho, hn]

theorem and_suits : Agrees (Posix.apply bre .and l r) (opResult compile .and l r) ↔
    Suits .and l r := by
  show (Except.ok (andResult l r) : Except Err Bytes) = .ok _ ↔ _
  rw [Except.ok.injEq, andResult]
  by_cases hn : isNull l = true ∨ isNull r = true
  · have hzero : Posix.nullOrZero l = true ∨ Posix.nullOrZero r = true :=
      hn.imp (fun h => (nullOrZero_iff l).mpr (.inl h)) fun h => (nullOrZero_iff r).mpr (.inl h)
    rw [if_pos hn, if_pos hzero]
    exact iff_of_true rfl fun _ => hn
  · rw [if_neg hn]
    have hl : l ≠ str "0" := by
      rintro rfl
      exact hn (.inl rfl)
    by_cases ho : OddZero l ∨ OddZero r
    · have hzero : Posix.nullOrZero l = true ∨ Posix.nullOrZero r = true :=
        ho.imp (fun h => (nullOrZero_iff l).mpr (.inr h)) fun h => (nullOrZero_iff r).mpr (.inr h)
      rw [if_pos hzero]
      exact iff_of_false hl fun h => hn (h ho)
    · have hzero : ¬ (Posix.nullOrZero l = true ∨ Posix.nullOrZero r = true) := by
        rw [nullOrZero_iff, nullOrZero_iff]
        tauto
      rw [if_neg hzero]
      exact iff_of_true rfl fun h => absurd h ho

/-- The three cases of two operands: integers that are read, integers out of range, and others. -/
theorem integers_cases (l r : Bytes) : (isInteger l = true ∧ isInteger r = true ∧ ¬ PlusRead l r ∧
      (atoi l = (intValue l, true) ∧ atoi r = (intValue r, true) ∧
          (∀ b o, Posix.integers l r b o = b (intValue l) (intValue r)) ∨
        ∀ b o, Posix.integers l r b o = .unspecified)) ∨
    ((∀ b o, Posix.integers l r b o = o) ∧
      (PlusRead l r ↔ (atoi l).2 = true ∧ (atoi r).2 = true)) := by
  by_cases hi : isInteger l = true ∧ isInteger r = true
  · left
    refine ⟨hi.1, hi.2, ?_, ?_⟩
    · rintro ⟨-, -, hl | hr⟩
      · exact head_of_isInteger hi.1 hl
      · exact head_of_isInteger hi.2 hr
    · by_cases hf : FitsInt (intValue l) ∧ FitsInt (intValue r)
      · left
        refine ⟨(atoi_of_isInteger hi.1).mpr hf.1, (atoi_of_isInteger hi.2).mpr hf.2, ?_⟩
        intro b o
        rw [Posix.integers, if_pos hi, if_pos hf]
      · right
        intro b o
        rw [Posix.integers, if_pos hi, if_neg hf]
  · right
    refine ⟨fun b o => if_neg hi, fun h => ⟨h.1, h.2.1⟩, fun h => ⟨h.1, h.2, ?_⟩⟩
    by_contra hp
    rw [not_or] at hp
    exact hi ⟨isInteger_of_atoi h.1 hp.1, isInteger_of_atoi h.2 hp.2⟩

theorem relation_token (c : Cmp) (o : Ordering) : relation c.token o = c.holds o := by
  cases c <;> cases o <;> rfl

theorem truth_inj : truth a = truth b ↔ a = b := by
  cases a <;> cases b <;> decide

theorem cmp_suits (c : Cmp) :
    Agrees (Posix.apply bre (.cmp c) l r) (opResult compile (.cmp c) l r) ↔ Suits (.cmp c) l r := by
  rw [Posix.apply, opResult, cmpResult, relation_token, relation_token, Suits]
  rcases integers_cases l r with ⟨-, -, hp, ⟨hl, hr, hi⟩ | hi⟩ | ⟨hi, hp⟩
  · rw [hi, hl, hr]
    exact iff_of_true rfl fun h => absurd h hp
  · rw [hi]
    exact iff_of_true trivial fun h => absurd h hp
  rw [hi, hp]
  show (Except.ok _ : Except Err Bytes) = .ok _ ↔ _
  rw [Except.ok.injEq]
  by_cases hre : (atoi l).2 = true ∧ (atoi r).2 = true
  · rw [if_pos hre, truth_inj]
    exact ⟨fun h _ => h, fun h => h hre⟩
  · rw [if_neg hre]
    exact iff_of_true rfl fun h => absurd h hre

theorem arith_error (a : Arith) (hr : ¬ ((atoi l).2 = true ∧ (atoi r).2 = true)) :
    opResult compile (.arith a) l r = .error .nonInteger := by
  cases a <;> exact if_neg hr

def arithResult : Option Int → Except Err Bytes
  | none => .error .divisionByZero
  | some z => .ok (itoaInt (wrap64 z))

theorem arith_result (a : Arith) (hr : (atoi l).2 = true ∧ (atoi r).2 = true) :
    opResult compile (.arith a) l r = arithResult (a.apply (atoi l).1 (atoi r).1) := by
  have hd : ¬ str "/" = str "*" := by decide
  have hm : ¬ str "%" = str "*" ∧ ¬ str "%" = str "/" := by decide
  by_cases hzero : (atoi r).1 = 0 <;> cases a <;>
    simp [opResult, Arith.level, Arith.token, Arith.apply, addResult, mulResult, arithResult, hr,
      hzero, hd, hm]

/-- Arithmetic is right on integers that stay in range. -/
theorem arith_suits (a : Arith) :
    Agrees (Posix.apply bre (.arith a) l r) (opResult compile (.arith a) l r) ↔
      Suits (.arith a) l r := by
  rw [Posix.apply, Suits]
  rcases integers_cases l r with ⟨-, -, hp, ⟨hl, hr, hi⟩ | hi⟩ | ⟨hi, hp⟩
  · rw [hi, arith_result a ⟨by rw [hl], by rw [hr]⟩, hl, hr]
    refine iff_of_true ?_ fun h => absurd h hp
    cases a.apply (intValue l) (intValue r) with
    | none => exact ⟨_, rfl⟩
    | some z =>
      rw [Posix.number]
      by_cases hf : FitsInt z
      · rw [if_pos hf, arithResult, wrap64_of_lt hf.1 hf.2]
        rfl
      · rw [if_neg hf]
        trivial
  · rw [hi]
    exact iff_of_true trivial fun h => absurd h hp
  · rw [hi, hp]
    by_cases hresult : (atoi l).2 = true ∧ (atoi r).2 = true
    · rw [arith_result a hresult]
      cases a.apply (atoi l).1 (atoi r).1 with
      | none => exact iff_of_true ⟨_, rfl⟩ fun _ => rfl
      | some z =>
        refine iff_of_false ?_ fun h => by cases h hresult
        rintro ⟨e, he⟩
        cases he
    · exact iff_of_true ⟨_, arith_error a hresult⟩ fun h => absurd h hresult

theorem suits_iff (hop : op ≠ .colon) :
    Agrees (Posix.apply bre op l r) (opResult compile op l r) ↔ Suits op l r := by
  cases op with
  | or => exact or_suits
  | and => exact and_suits
  | cmp c => exact cmp_suits c
  | arith a => exact arith_suits a
  | colon => exact absurd rfl hop

end

/-! ## Expression by expression -/

/-- **The condition on one expression**, from the values that POSIX gives its operands. -/
def Proper (compile : Bytes → Except Bytes Regexp) (bre : Bytes → Option Bre) : Tree → Prop
  | .atom a => a.text ≠ []
  | .node op l r =>
    if op = .colon then
      (spine l = none → ∀ v, posix bre (.node op l r) ≠ .value v) ∧
        ∀ strs pat, spine l = some strs → posix bre r = .value pat →
          Agrees (posix bre (.node op l r)) (matchAll compile strs pat)
    else ∀ left right, posix bre l = .value left → posix bre r = .value right → Suits op left right

/-- The right operand matters: the left one has a value, and in front of a colon it is what the
parser takes for single operands. -/
def GoesOn (bre : Bytes → Option Bre) (op : Op) (l : Tree) : Prop :=
  if op = .colon then spine l ≠ none else ∃ v, posix bre l = .value v

/-- A property of an expression and of the expressions in it whose values matter. The operands in
front of a colon are taken as they are written. -/
def InUse (bre : Bytes → Option Bre) (P : Tree → Prop) (t : Tree) : Prop :=
  t.Reached (· ≠ .colon) (GoesOn bre) P

section

variable {compile : Bytes → Except Bytes Regexp} {bre : Bytes → Option Bre}

/-- A result is what POSIX says, with nothing for an error. -/
def Matches (o : Outcome) (value : Option Bytes) : Prop :=
  (∀ v, o = .value v → value = some v) ∧ (o = .error → value = none)

theorem agrees_iff (o : Outcome) (r : Except Err Bytes) : Agrees o r ↔ Matches o r.toOption := by
  cases r with
  | error e =>
    cases o with
    | value v => exact iff_of_false (nofun) fun h => by cases h.1 v rfl
    | error => exact iff_of_true ⟨e, rfl⟩ ⟨nofun, fun _ => rfl⟩
    | unspecified => exact iff_of_true trivial ⟨nofun, fun _ => rfl⟩
  | ok w =>
    cases o with
    | value v =>
      constructor
      · rintro ⟨⟩
        exact ⟨fun v h => (by cases h; rfl), nofun⟩
      · intro h
        exact congrArg Except.ok (some.inj (h.1 v rfl))
    | error => exact iff_of_false (fun ⟨e, h⟩ => by cases h) fun h => by cases h.2 rfl
    | unspecified => exact iff_of_true trivial ⟨nofun, nofun⟩

theorem eval_toOption (t : Tree) :
    ((eval compile (t.print table 1)).map Prod.fst).toOption = meaning compile t := by
  obtain ⟨hr, hs⟩ := @eval_print compile t
  cases hv : meaning compile t with
  | none =>
    obtain ⟨e, he⟩ := hs hv
    rw [he]
    rfl
  | some v =>
    rw [hr v hv]
    rfl

theorem correct_iff (t : Tree) :
    Correct compile bre t ↔ Matches (posix bre t) (meaning compile t) := by
  rw [Correct, agrees_iff, eval_toOption]

theorem combine_value (h : Posix.combine bre op a b = .value v) :
    (∃ left, a = .value left) ∧ ∃ r, b = .value r := by
  cases a with
  | value left =>
    cases b with
    | value r => exact ⟨⟨left, rfl⟩, r, rfl⟩
    | error =>
      rw [Posix.combine] at h
      split at h <;> cases h
    | unspecified => cases h
  | error => cases b <;> cases h
  | unspecified => cases h

theorem matches_none : Matches o none ↔ ∀ v, o ≠ .value v := by
  constructor
  · intro h v hv
    cases h.1 v hv
  · intro h
    exact ⟨fun v hv => absurd hv (h v), fun _ => rfl⟩

theorem matches_unspecified (value : Option Bytes) : Matches .unspecified value := ⟨nofun, nofun⟩

/-- **One operator**: right if it suits its operands. -/
theorem node_iff (hop : op ≠ .colon) (hl : Matches (posix bre l) (meaning compile l))
    (hr : (∃ v, posix bre l = .value v) → Matches (posix bre r) (meaning compile r)) :
    Matches (posix bre (.node op l r)) (meaning compile (.node op l r)) ↔
      ∀ left ri, posix bre l = .value left → posix bre r = .value ri → Suits op left ri := by
  rw [meaning_node hop, posix]
  cases hleft : posix bre l with
  | unspecified => exact iff_of_true (matches_unspecified _) nofun
  | error =>
    rw [hl.2 hleft]
    refine iff_of_true (matches_none.mpr fun v hv => ?_) nofun
    obtain ⟨⟨left, h⟩, -⟩ := combine_value hv
    cases h
  | value left =>
    have hr := hr ⟨left, hleft⟩
    rw [hl.1 left hleft, bind_some]
    cases hright : posix bre r with
    | unspecified => exact iff_of_true (matches_unspecified _) nofun
    | error =>
      rw [hr.2 hright]
      refine iff_of_true (matches_none.mpr fun v hv => ?_) nofun
      obtain ⟨-, ri, h⟩ := combine_value hv
      cases h
    | value ri =>
      rw [hr.1 ri hright, bind_some, ← agrees_iff]
      show Agrees (Posix.apply bre op left ri) _ ↔ _
      rw [suits_iff hop]
      constructor
      · rintro h _ _ ⟨⟩ ⟨⟩
        exact h
      · intro h
        exact h left ri rfl rfl

/-- The operator `:`, from its right operand and from what is single on its left. -/
theorem colon_iff (hr : spine l ≠ none → Matches (posix bre r) (meaning compile r)) :
    Matches (posix bre (.node .colon l r)) (meaning compile (.node .colon l r)) ↔
      (spine l = none → ∀ v, posix bre (.node .colon l r) ≠ .value v) ∧
        ∀ s p, spine l = some s → posix bre r = .value p →
          Agrees (posix bre (.node .colon l r)) (matchAll compile s p) := by
  rw [meaning]
  cases hs : spine l with
  | none =>
    rw [bind_none, matches_none]
    exact ⟨fun h => ⟨fun _ => h, nofun⟩, fun h => h.1 rfl⟩
  | some s =>
    have hr := hr (hs ▸ some_ne_none s)
    rw [bind_some]
    cases hright : posix bre r with
    | unspecified =>
      have ho : posix bre (.node .colon l r) = .unspecified := by
        rw [posix, hright]
        cases posix bre l <;> rfl
      rw [ho]
      exact iff_of_true (matches_unspecified _) ⟨nofun, nofun⟩
    | error =>
      rw [hr.2 hright]
      refine iff_of_true (matches_none.mpr fun v hv => ?_) ⟨nofun, nofun⟩
      obtain ⟨-, ri, h⟩ := combine_value hv
      rw [hright] at h
      cases h
    | value p =>
      rw [hr.1 p hright, bind_some, ← agrees_iff]
      constructor
      · intro h
        refine ⟨nofun, ?_⟩
        rintro _ _ ⟨⟩ ⟨⟩
        exact h
      · intro h
        exact h.2 s p rfl rfl

theorem correct_node (op : Op) (hl : op ≠ .colon → Correct compile bre l)
    (hr : GoesOn bre op l → Correct compile bre r) :
    Correct compile bre (.node op l r) ↔ Proper compile bre (.node op l r) := by
  simp only [correct_iff] at hl hr ⊢
  rw [Proper]
  unfold GoesOn at hr
  by_cases hop : op = .colon
  · subst hop
    exact colon_iff hr
  · rw [if_neg hop] at hr ⊢
    exact node_iff hop (hl hop) hr

theorem correct_atom (a : Atom) : Correct compile bre (.atom a) ↔ Proper compile bre (.atom a) := by
  rw [correct_iff, meaning, Proper]
  by_cases ha : a.text = []
  · rw [if_pos ha, matches_none]
    exact iff_of_false (fun h => h _ rfl) (fun h => h ha)
  · rw [if_neg ha]
    exact iff_of_true ⟨fun v h => (by cases h; rfl), nofun⟩ ha

end

/-- No regular expression compiles. -/
def noRegexp (_ : Bytes) : Except Bytes Regexp := .error []

end GoPosix.Expr
