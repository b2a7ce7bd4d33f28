import GoPosix.Expr.Basic

/-!
# Slices of expr

The only slice that `Eval` takes of a string is that of `substrStr`. A negative length ends it
before it begins, and so does a length that takes the end out of the range of an `int`. `calls`
lists the calls of `substrStr`, and `eval_ne_sliceBounds_iff` says that nothing else panics.
-/

namespace GoPosix.Expr

open Bytes Levels MachineInt List

/-! ## Calls of substrStr -/

structure Call where
  s : Bytes
  posStr : Bytes
  lenStr : Bytes

/-- The slice is not taken, or its end is an `int` that is not below its start. -/
def Call.InBounds (c : Call) : Prop :=
  (atoi c.posStr).2 = true → (atoi c.lenStr).2 = true → max ((atoi c.posStr).1 - 1) 0 < c.s.length →
    0 ≤ (atoi c.lenStr).1 ∧ max ((atoi c.posStr).1 - 1) 0 + (atoi c.lenStr).1 < 2 ^ 63

/-- The calls after a result, if there is one. -/
def callsAfter {α : Type} (p : Except Err α) (calls : α → List Call) : List Call :=
  match p with
  | .error _ => []
  | .ok r => calls r

def callsLoop (isOp : Bytes → Bool) (combine : Bytes → Bytes → Bytes → Except Err Bytes)
    (operand : List Bytes → Parsed) (calls : List Bytes → List Call) : (fuel : Nat) →
      Bytes × List Bytes → List Call
  | 0, _ => []
  | _ + 1, (_, []) => []
  | fuel + 1, (left, op :: toks) =>
    if isOp op then
      calls toks ++ callsAfter (operand toks) fun (right, toks) =>
        callsAfter (combine op left right) fun left =>
          callsLoop isOp combine operand calls fuel (left, toks)
    else []

def callsChain (isOp : Bytes → Bool) (combine : Bytes → Bytes → Bytes → Except Err Bytes)
    (operand : List Bytes → Parsed) (calls : List Bytes → List Call) (toks : List Bytes) :
    List Call :=
  calls toks ++ callsAfter (operand toks) (callsLoop isOp combine operand calls toks.length)

section

variable (compile : Bytes → Except Bytes Regexp) (parseExpr : List Bytes → Parsed)
    (calls : List Bytes → List Call)

def callsPrimary : List Bytes → List Call
  | [] => []
  | tok :: toks =>
    if tok = str "(" then calls toks
    else
      match toks with
      | [] => []
      | colon :: toks' => if tok ≠ [] ∧ colon = str ":" then callsPrimary toks' else []

/-- The calls for the operand in front, and those behind it. -/
def callsNext (toks : List Bytes) (next : Bytes × List Bytes → List Call) : List Call :=
  callsPrimary calls toks ++ callsAfter (parsePrimary compile parseExpr toks) next

def callsUnary : List Bytes → List Call
  | [] => []
  | tok :: toks =>
    if tok = str "match" then callsNext compile parseExpr calls toks fun r => callsPrimary calls r.2
    else if tok = str "substr" then
      callsNext compile parseExpr calls toks fun s =>
        callsNext compile parseExpr calls s.2 fun posStr =>
          callsNext compile parseExpr calls posStr.2 fun lenStr => [⟨s.1, posStr.1, lenStr.1⟩]
    else if tok = str "index" then callsNext compile parseExpr calls toks fun r =>
      callsPrimary calls r.2
    else if tok = str "length" then
      if toks.head? = none ∨ toks.head? = some (str ")") ∨ toks.head? = some (str "|") ∨
        toks.head? = some (str "&") then []
      else callsPrimary calls toks
    else callsPrimary calls (tok :: toks)

def callsOr : List Bytes → List Call :=
  callsChain (· = str "|") (fun _ left right => .ok (orResult left right))
    (parseAnd compile parseExpr) <|
    callsChain (· = str "&") (fun _ left right => .ok (andResult left right))
      (parseCmp compile parseExpr) <|
      callsChain isCmpOp (fun op left right => .ok (cmpResult left op right))
        (parseAdd compile parseExpr) <|
        callsChain isAddOp addResult (parseMul compile parseExpr) <|
          callsChain isMulOp mulResult (parseUnary compile parseExpr)
            (callsUnary compile parseExpr calls)

end

def callsNested (compile : Bytes → Except Bytes Regexp) : (fuel : Nat) → List Bytes → List Call
  | 0, _ => []
  | fuel + 1, toks => callsOr compile (parseNested compile fuel) (callsNested compile fuel) toks

/-- The calls of `substrStr` in the course of `Eval`. -/
def calls (compile : Bytes → Except Bytes Regexp) (tokens : List Bytes) : List Call :=
  callsNested compile (tokens.length + 1) tokens

/-! ## Parsers that do not panic -/

section

variable {α β : Type}

/-- There is no panic if, and only if, all calls are in bounds. -/
def Safe (p : Except Err α) (cs : List Call) : Prop :=
  p ≠ .error .sliceBounds ↔ ∀ c ∈ cs, c.InBounds

theorem safe_nil (h : p ≠ .error .sliceBounds) : Safe p [] := iff_of_true h (by simp)

theorem Safe.bind (h : Safe p cs) {calls : α → List Call} (hf : ∀ r, Safe (f r) (calls r)) :
    Safe (p.bind f) (cs ++ callsAfter p calls) := by
  unfold Safe at *
  rw [forall_mem_append, ← h]
  cases p with
  | error e => simp [Except.bind, callsAfter]
  | ok r => simpa [Except.bind, callsAfter] using hf r

theorem Safe.bind_nil (h : Safe p cs) (hf : ∀ r, Safe (f r) []) : Safe (p.bind f) cs := by
  have hb := h.bind hf
  have hafter : callsAfter p (fun _ => []) = [] := by cases p <;> rfl
  rwa [hafter, append_nil] at hb

theorem Safe.map (h : Safe p cs) (f : α → β) : Safe (p.map f) cs :=
  h.bind_nil fun _ => safe_nil (by simp)

end

theorem le_wrap64_add_iff (hx : 0 ≤ x) (hf : FitsInt x) (hy : FitsInt y) :
    x ≤ wrap64 (x + y) ↔ 0 ≤ y ∧ x + y < 2 ^ 63 := by
  obtain ⟨-, hx'⟩ := hf
  obtain ⟨hy, hy'⟩ := hy
  rcases lt_or_ge (x + y) (2 ^ 63) with hlt | hge
  · rw [wrap64_of_lt (by omega) hlt]
    omega
  · rw [wrap64_overflow hge (by omega)]
    omega

theorem safe_substrStr (s ps ls : Bytes) : Safe (substrStr s ps ls) [⟨s, ps, ls⟩] := by
  rw [Safe, forall_mem_singleton, Call.InBounds]
  unfold substrStr
  by_cases hr : (atoi ps).2 = true ∧ (atoi ls).2 = true
  · have hf : ∀ s, (atoi s).2 = true → FitsInt (atoi s).1 :=
      fun s h => ((atoi_eq_true rfl).mp (Prod.ext rfl h)).2.2.1
    obtain ⟨hl, hh⟩ := hf ps hr.1
    have hw := le_wrap64_add_iff (x := max ((atoi ps).1 - 1) 0) (by omega) ⟨by omega, by omega⟩
      (hf ls hr.2)
    grind
  · grind

theorem matchStr_ne (compile : Bytes → Except Bytes Regexp) (s p : Bytes) :
    matchStr compile s p ≠ .error .sliceBounds := by
  grind [matchStr]

section

variable (compile : Bytes → Except Bytes Regexp) {parse : List Bytes → Parsed}
    {calls : List Bytes → List Call}
  (h : ∀ toks, Safe (parse toks) (calls toks))
include h

theorem safe_chain (o : Bytes → Bool) (combine : Bytes → Bytes → Bytes → Except Err Bytes)
    (hop : ∀ op left ri, combine op left ri ≠ .error .sliceBounds) (toks : List Bytes) :
    Safe (chain o combine parse toks) (callsChain o combine parse calls toks) := by
  refine (h toks).bind fun r => ?_
  generalize toks.length = f
  induction f generalizing r with
  | zero => exact safe_nil (by simp [loop])
  | succ f ih =>
    obtain ⟨left, _ | ⟨op, toks⟩⟩ := r
    · exact safe_nil (by simp [loop])
    unfold loop callsLoop
    split
    · exact (h toks).bind fun r => (safe_nil (hop op left r.1)).bind fun left => ih (left, r.2)
    · exact safe_nil (by simp)

theorem safe_primary (toks : List Bytes) :
    Safe (parsePrimary compile parse toks) (callsPrimary calls toks) := by
  fun_induction callsPrimary calls toks with
  | case1 => exact safe_nil (by simp [parsePrimary])
  | case2 toks =>
    rw [parsePrimary.eq_def]
    exact (h toks).bind_nil fun r => safe_nil (by grind [closeParen])
  | case3 t => exact safe_nil (by grind [parsePrimary])
  | case4 t ht c toks hc ih =>
    rw [parsePrimary.eq_def]
    simp only [ht, hc, if_true]
    exact ih.bind_nil fun r => (safe_nil (matchStr_ne compile t r.1)).map _
  | case5 => exact safe_nil (by grind [parsePrimary])

theorem safe_unary (toks : List Bytes) :
    Safe (parseUnary compile parse toks) (callsUnary compile parse calls toks) := by
  have hp := safe_primary compile h
  cases toks with
  | nil => exact safe_nil (by simp [parseUnary, parsePrimary])
  | cons t toks =>
    rw [parseUnary, callsUnary]
    simp only [mem_cons, not_mem_nil, or_false]
    split_ifs
    · exact (hp toks).bind fun r => (hp r.2).bind_nil fun p =>
        (safe_nil (matchStr_ne compile r.1 p.1)).map _
    · exact (hp toks).bind fun s => (hp s.2).bind fun pos => (hp pos.2).bind fun l =>
        (safe_substrStr s.1 pos.1 l.1).map _
    · exact (hp toks).bind fun r => (hp r.2).map _
    · exact safe_nil (by simp)
    · exact (hp toks).map _
    · exact hp (t :: toks)

end

theorem safe_nested (compile : Bytes → Except Bytes Regexp) (f : Nat) : ∀ toks,
    Safe (parseNested compile f toks) (callsNested compile f toks) := by
  induction f with
  | zero => exact fun toks => safe_nil (by simp [parseNested])
  | succ f ih =>
    have hm := safe_chain (safe_unary compile ih) isMulOp mulResult (by grind [mulResult])
    have hadd := safe_chain hm isAddOp addResult (by grind [addResult])
    exact safe_chain (safe_chain (safe_chain hadd _ _ (by simp)) _ _ (by simp)) _ _ (by simp)

/-- **When `Eval` does not panic.** -/
theorem eval_ne_sliceBounds_iff (compile : Bytes → Except Bytes Regexp) (tokens : List Bytes) :
    eval compile tokens ≠ .error .sliceBounds ↔ ∀ c ∈ calls compile tokens, c.InBounds := by
  unfold eval
  split_ifs with hn
  · subst hn
    exact iff_of_true (by simp) nofun
  · refine Iff.trans ?_ (safe_nested compile (tokens.length + 1) tokens)
    rcases parseNested compile (tokens.length + 1) tokens with err | ⟨v, _ | ⟨tok, toks⟩⟩
      <;> simp [finish]

/-- A negative length, and one that is too large. -/
theorem eval_substr_panics :
    eval .error [str "substr", str "abc", str "2", str "-5"] = .error .sliceBounds ∧
    eval .error [str "substr", str "abc", str "2", str "9223372036854775807"] =
      .error .sliceBounds :=
  ⟨rfl, rfl⟩

end GoPosix.Expr
