/-!
# Operators by level

A parser for binary operators that evaluates while it parses: every level has its operators, its
operands are those of the next level, and a loop takes them from left to right (`chain`). An
expression is printed with the parentheses that its levels ask for (`Tree.print`). If the operands
are read as they were printed, so is the level (`reads_chain`); an operand that cannot be read
leaves the level unread.

A parser may stop in front of a token that no level continues with, and the expression is then wrong
although nobody has said so yet. Such a token is given as `stop`.
-/

namespace Levels

open List

variable {Tok Val Err Op Atom : Type}

/-! ## Parsers -/

abbrev Parsed (Tok Val Err : Type) := Except Err (Val × List Tok)

/-- The loop of a level. A turn takes the operator at least, so there are fewer turns than
tokens. -/
def loop (isOp : Tok → Bool) (combine : Tok → Val → Val → Except Err Val)
    (operand : List Tok → Parsed Tok Val Err) : (fuel : Nat) → Val × List Tok → Parsed Tok Val Err
  | 0, res => .ok res
  | _ + 1, (left, []) => .ok (left, [])
  | fuel + 1, (left, op :: toks) =>
    if isOp op then
      (operand toks).bind fun (right, toks) =>
        (combine op left right).bind fun left => loop isOp combine operand fuel (left, toks)
    else .ok (left, op :: toks)

/-- A level: an operand, and as many more as there are operators. -/
def chain (isOp : Tok → Bool) (combine : Tok → Val → Val → Except Err Val)
    (operand : List Tok → Parsed Tok Val Err) (toks : List Tok) : Parsed Tok Val Err :=
  (operand toks).bind (loop isOp combine operand toks.length)

/-! ## Expressions and how they are printed -/

inductive Tree (Op Atom : Type)
  | atom (a : Atom)
  | node (op : Op) (left right : Tree Op Atom)

/-- The signs of a language of expressions. An operator of a higher level binds more tightly, and
all of them associate to the left. -/
structure Table (Op Atom Tok : Type) where
  token : Op → Tok
  level : Op → Nat
  word : Atom → Tok
  lparen : Tok
  rparen : Tok
  token_injective : Function.Injective token

namespace Tree

variable (T : Table Op Atom Tok)

/-- The tokens of an expression where one of level `k` or above is wanted. -/
def print : (k : Nat) → Tree Op Atom → List Tok
  | _, atom a => [T.word a]
  | k, node op l r =>
    if T.level op < k then
      T.lparen :: (l.print (T.level op) ++ T.token op :: r.print (T.level op + 1)) ++ [T.rparen]
    else l.print (T.level op) ++ T.token op :: r.print (T.level op + 1)

/-- The number of pairs of parentheses in it. -/
def parens : (k : Nat) → Tree Op Atom → Nat
  | _, atom _ => 0
  | k, node op l r =>
    (if T.level op < k then 1 else 0) + l.parens (T.level op) + r.parens (T.level op + 1)

/-- A property of an expression and of all expressions in it. -/
def All (P : Tree Op Atom → Prop) : Tree Op Atom → Prop
  | atom a => P (atom a)
  | node op l r => P (node op l r) ∧ l.All P ∧ r.All P

/-- A property of an expression and of the expressions in it that are reached: left operands of the
operators `left`, and right operands behind left ones that let the evaluation go on. -/
def Reached (left : Op → Prop) (goesOn : Op → Tree Op Atom → Prop) (P : Tree Op Atom → Prop) :
    Tree Op Atom → Prop
  | atom a => P (atom a)
  | node op l r =>
    P (node op l r) ∧ (left op → l.Reached left goesOn P) ∧ (goesOn op l → r.Reached left goesOn P)

variable {T}

theorem Reached.self {t : Tree Op Atom} (h : t.Reached left goesOn P) : P t := by
  cases t with
  | atom a => exact h
  | node op l r => exact h.1

theorem print_tight (h : k ≤ T.level op) :
    (node op l r).print T k = l.print T (T.level op) ++ T.token op ::
      r.print T (T.level op + 1) := by
  rw [print, if_neg (by omega)]

theorem print_loose (h : T.level op < k) (hj : j ≤ T.level op) :
    (node op l r).print T k = T.lparen :: ((node op l r).print T j ++ [T.rparen]) := by
  rw [print_tight hj, print, if_pos h, cons_append]

theorem parens_tight (h : k ≤ T.level op) :
    (node op l r).parens T k = l.parens T (T.level op) + r.parens T (T.level op + 1) := by
  rw [parens, if_neg (by omega), Nat.zero_add]

theorem parens_loose (h : T.level op < k) (hj : j ≤ T.level op) :
    (node op l r).parens T k = (node op l r).parens T j + 1 := by
  rw [parens_tight hj, parens, if_pos h]
  omega

/-- Only an operator of the level itself is printed differently one level up. -/
theorem print_succ (h : T.level op ≠ k) :
    (node op l r).print T k = (node op l r).print T (k + 1) := by
  rcases Nat.lt_or_ge (T.level op) k with hlt | hge
  · rw [print_loose hlt (Nat.le_refl _), print_loose (Nat.lt_succ_of_lt hlt) (Nat.le_refl _)]
  · rw [print_tight hge, print_tight (by omega)]

theorem parens_succ (h : T.level op ≠ k) :
    (node op l r).parens T k = (node op l r).parens T (k + 1) := by
  rcases Nat.lt_or_ge (T.level op) k with hlt | hge
  · rw [parens_loose hlt (Nat.le_refl _), parens_loose (Nat.lt_succ_of_lt hlt) (Nat.le_refl _)]
  · rw [parens_tight hge, parens_tight (by omega)]

theorem parens_lt_length (k : Nat) (t : Tree Op Atom) : t.parens T k < (t.print T k).length := by
  induction t generalizing k with
  | atom _ => exact Nat.one_pos
  | node op l r i ihr =>
    have hl := i (T.level op)
    have hr := ihr (T.level op + 1)
    rcases Nat.lt_or_ge (T.level op) k with hlt | hge
    · rw [print_loose hlt (Nat.le_refl _), parens_loose hlt (Nat.le_refl _),
        print_tight (Nat.le_refl _), parens_tight (Nat.le_refl _)]
      simp only [length_cons, length_append]
      omega
    · rw [print_tight hge, parens_tight hge]
      simp only [length_cons, length_append]
      omega

end Tree

/-! ## Reading what was printed -/

/-- An error, or a stop in front of `stop`. -/
def Stuck (stop : Tok) (p : Parsed Tok Val Err) : Prop :=
  (∃ err, p = .error err) ∨ ∃ v toks, p = .ok (v, stop :: toks)

/-- The parser has read the value, or is stuck where there is none. -/
structure Means (stop : Tok) (value : Option Val) (rest : List Tok) (p : Parsed Tok Val Err) :
    Prop where
  read : ∀ v, value = some v → p = .ok (v, rest)
  stuck : value = none → Stuck stop p

/-- What is left does not go on with an operator of the level `k` or above. -/
def Follows (T : Table Op Atom Tok) (k : Nat) (rest : List Tok) : Prop :=
  ∀ op toks, rest = T.token op :: toks → T.level op < k

/-- The parser reads the expressions of level `k` with at most `n` pairs of parentheses, where
`eval` says what they are. -/
def Reads (T : Table Op Atom Tok) (eval : Tree Op Atom → Option Val) (stop : Tok) (n k : Nat)
    (parse : List Tok → Parsed Tok Val Err) : Prop :=
  ∀ t rest, Tree.parens T k t ≤ n → Follows T k rest →
    Means stop (eval t) rest (parse (Tree.print T k t ++ rest))

section

variable {T : Table Op Atom Tok}

theorem Stuck.error (e : Err) : Stuck stop (.error e : Parsed Tok Val Err) := .inl ⟨e, rfl⟩

/-- Whoever goes on behind a stuck parser is stuck if they do not go past `stop`. -/
theorem Stuck.bind (h : Stuck stop p) {f : Val × List Tok → Parsed Tok Val Err}
    (hf : ∀ v t, Stuck stop (f (v, stop :: t))) : Stuck stop (p.bind f) := by
  rcases h with ⟨err, rfl⟩ | ⟨v, t, rfl⟩
  · exact .error err
  · exact hf v t

theorem Follows.mono (h : Follows T k rest) (hkj : k ≤ j) : Follows T j rest :=
  fun op t heq => Nat.lt_of_lt_of_le (h op t heq) hkj

theorem follows_token (h : T.level op < k) (t : List Tok) : Follows T k (T.token op :: t) := by
  intro op' t' heq
  rw [← T.token_injective (List.cons.inj heq).1]
  exact h

theorem loop_stop (hs : isOp stop = false) (f : Nat) (v : Val) (t : List Tok) :
    Stuck stop (loop isOp combine operand f (v, stop :: t)) := by
  refine .inr ⟨v, t, ?_⟩
  cases f with
  | zero => rfl
  | succ f => rw [loop, if_neg (by rw [hs]; exact Bool.false_ne_true)]

theorem loop_done (hop : ∀ tok, isOp tok = true → ∃ op, T.token op = tok ∧ T.level op = k)
    (h : Follows T k rest) (f : Nat) (v : Val) :
    loop isOp combine operand f (v, rest) = .ok (v, rest) := by
  cases f with
  | zero => rfl
  | succ f =>
    cases rest with
    | nil => rfl
    | cons tok t =>
      rw [loop, if_neg]
      intro ht
      obtain ⟨op, rfl, hl⟩ := hop tok ht
      exact absurd (h op t rfl) (by omega)

/-- The operators of level `k` are those of the loop, and mean what the loop makes of them. -/
structure LevelOf (T : Table Op Atom Tok) (eval : Tree Op Atom → Option Val) (stop : Tok) (k : Nat)
    (isOp : Tok → Bool) (combine : Tok → Val → Val → Except Err Val) : Prop where
  isOp_iff : ∀ tok, isOp tok = true ↔ ∃ op, T.token op = tok ∧ T.level op = k
  eval_node : ∀ op l r, T.level op = k → eval (.node op l r) =
    (eval l).bind fun left => (eval r).bind fun right => (combine (T.token op) left right).toOption
  stop_isOp : isOp stop = false

/-- The parser has read the value and is in the loop of its level, or it is stuck. -/
structure InLoop (stop : Tok) (isOp : Tok → Bool) (combine : Tok → Val → Val → Except Err Val)
    (operand : List Tok → Parsed Tok Val Err) (value : Option Val) (rest : List Tok)
    (p : Parsed Tok Val Err) : Prop where
  read : ∀ v, value = some v → ∃ fuel, rest.length ≤ fuel ∧
    p = loop isOp combine operand fuel (v, rest)
  stuck : value = none → Stuck stop p

/-- One turn of the loop over the operators of a level. -/
theorem loop_turn (hk : LevelOf T eval stop k isOp combine)
    (h : Reads T eval stop n (k + 1) operand)
    (hl : T.level op = k) (hr : r.parens T (k + 1) ≤ n)
    (hrest : Follows T (k + 1) rest) (hleft : eval l = some left)
    (hf : (r.print T (k + 1) ++ rest).length ≤ fuel) :
    InLoop stop isOp combine operand (eval (.node op l r)) rest
      (loop isOp combine operand (fuel + 1) (left, T.token op :: (r.print T (k + 1) ++ rest))) := by
  have hm := h r rest hr hrest
  rw [hk.eval_node op l r hl, hleft, loop, if_pos ((hk.isOp_iff _).mpr ⟨op, rfl, hl⟩)]
  cases hright : eval r with
  | none =>
    refine ⟨nofun, fun _ => (hm.stuck hright).bind fun v t => ?_⟩
    -- the operator takes what was read, and the loop does not get past the stop
    show Stuck stop ((combine (T.token op) left v).bind fun left =>
      loop isOp combine operand fuel (left, stop :: t))
    cases combine (T.token op) left v with
    | error e => exact .error e
    | ok w => exact loop_stop hk.stop_isOp fuel w t
  | some ri =>
    rw [hm.read ri hright]
    show InLoop stop isOp combine operand (combine (T.token op) left ri).toOption rest
      ((combine (T.token op) left ri).bind fun left => loop isOp combine operand fuel (left, rest))
    cases combine (T.token op) left ri with
    | error e => exact ⟨nofun, fun _ => .error e⟩
    | ok w =>
      refine ⟨fun v hv => ?_, nofun⟩
      obtain rfl : w = v := Option.some.inj hv
      refine ⟨fuel, ?_, rfl⟩
      rw [length_append] at hf
      omega

theorem chain_operand (hk : LevelOf T eval stop k isOp combine)
    (h : Reads T eval stop n (k + 1) operand)
    (hp : t.print T k = t.print T (k + 1)) (ht : t.parens T (k + 1) ≤ n)
    (hr : Follows T (k + 1) rest) :
    InLoop stop isOp combine operand (eval t) rest
      (chain isOp combine operand (t.print T k ++ rest)) := by
  have hm := h t rest ht hr
  rw [← hp] at hm
  constructor
  · intro v hv
    refine ⟨(t.print T k ++ rest).length, ?_, ?_⟩
    · rw [length_append]
      omega
    · rw [chain, hm.read v hv]
      rfl
  · intro hv
    exact (hm.stuck hv).bind fun v tk => loop_stop hk.stop_isOp _ v tk

/-- A level reads an expression and is then in its loop, in front of what is left. The induction is
along the left operands, which the loop has taken before. -/
theorem chain_loop (hk : LevelOf T eval stop k isOp combine)
    (h : Reads T eval stop n (k + 1) operand)
    (t : Tree Op Atom) (ht : t.parens T k ≤ n) (hr : Follows T (k + 1) rest) :
    InLoop stop isOp combine operand (eval t) rest
      (chain isOp combine operand (t.print T k ++ rest)) := by
  induction t generalizing rest with
  | atom a => exact chain_operand hk h rfl ht hr
  | node op l r i ihr =>
    by_cases hlv : T.level op = k
    · subst hlv
      rw [Tree.parens_tight (Nat.le_refl _)] at ht
      rw [Tree.print_tight (Nat.le_refl _), append_assoc, cons_append]
      have hl := i (by omega)
        (follows_token (Nat.lt_succ_self (T.level op)) (r.print T (T.level op + 1) ++ rest))
      cases hleft : eval l with
      | none =>
        refine ⟨fun v hv => ?_, fun _ => hl.stuck hleft⟩
        rw [hk.eval_node op l r rfl, hleft] at hv
        cases hv
      | some left =>
        obtain ⟨f, hf, hc⟩ := hl.read left hleft
        rw [hc]
        cases f with
        | zero => exact absurd hf (Nat.not_succ_le_zero _)
        | succ f =>
          exact loop_turn hk h rfl (by omega) hr hleft (Nat.le_of_succ_le_succ hf)
    · rw [Tree.parens_succ hlv] at ht
      exact chain_operand hk h (Tree.print_succ hlv) ht hr

/-- **From the operands of a level to the level.** -/
theorem reads_chain (hk : LevelOf T eval stop k isOp combine)
    (h : Reads T eval stop n (k + 1) operand) :
    Reads T eval stop n k (chain isOp combine operand) := by
  intro t rest ht hr
  have hl := chain_loop hk h t ht (hr.mono (Nat.le_succ k))
  refine ⟨fun v hv => ?_, hl.stuck⟩
  obtain ⟨f, -, hc⟩ := hl.read v hv
  rw [hc]
  exact loop_done (fun tok hto => (hk.isOp_iff tok).mp hto) hr f v

end

end Levels
