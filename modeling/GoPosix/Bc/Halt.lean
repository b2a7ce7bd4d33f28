import GoPosix.Bc.Interp

/-!
# What follows a `halt`

`halt` sets a flag that only the loop of `Execute` looks at, between two statements of the program.
Inside a statement the interpreter goes on, with the rest of a block, a loop or an expression.

`HaltStops` says that a run does nothing behind its first `halt` and returns. It holds if every
`halt` is executed in tail position, where nothing of its top-level statement is left
(`run_haltStops`). The proof follows one outcome through the interpreter, `Ends`: no `halt` yet; or
one that was not in tail position, after which nothing is claimed; or one that was, as the last
event of a run that returns.
-/

namespace GoPosix.Bc

open Effects List

/-- **A `halt` stops the run**: nothing is executed or printed behind it, and the run returns. -/
def HaltStops (o : Except Stop Unit × Interp) : Prop :=
  ∀ before tail behind, o.2.trace = before ++ .halt tail :: behind → behind = [] ∧ o.1 = .ok ()

/-! ## The outcomes -/

def Clear (ip : Interp) : Prop := ip.halted = false ∧ ∀ tail, .halt tail ∉ ip.trace

/-- There was a `halt` that was not in tail position. -/
def Spoilt (ip : Interp) : Prop := .halt false ∈ ip.trace

/-- The last event was the first `halt`. -/
def Stopped (ip : Interp) : Prop :=
  ip.halted = true ∧ ∃ before, ip.trace = before ++ [.halt true] ∧ ∀ tail, .halt tail ∉ before

variable {α β : Type} {tail : Bool}

/-- How a part of a run ends. In tail position it may stop the run, with a result in `R`. -/
def Ends (tail : Bool) (R : α → Prop) (r : Except Stop α) (ip : Interp) : Prop :=
  Clear ip ∨ Spoilt ip ∨ (tail = true ∧ Stopped ip ∧ ∃ a, r = .ok a ∧ R a)

structure Tame (tail : Bool) (R : α → Prop) (m : Eval α) : Prop where
  spoilt : Keeps Spoilt m
  clear : Triple Clear m (Ends tail R)

/-- Nothing is in tail position. -/
abbrev Inner (m : Eval α) : Prop := Tame false (fun _ => True) m

theorem Tame.inner (h : Tame false R m) : Tame tail R' m where
  spoilt := h.spoilt
  clear := h.clear.consequence (fun _ hs => hs) fun _ _ he => by
    rcases he with hc | hspoilt | ⟨ht, -⟩
    · exact .inl hc
    · exact .inr (.inl hspoilt)
    · cases ht

/-! ## Rules -/

/-- Two states of a run between which nothing was recorded. -/
def Interp.Same (ip ip' : Interp) : Prop := ip'.trace = ip.trace ∧ ip'.halted = ip.halted

theorem Interp.Same.trans {i ip₂ ip₃ : Interp} (h : i.Same ip₂) (h' : ip₂.Same ip₃) : i.Same ip₃ :=
  ⟨h'.1.trans h.1, h'.2.trans h.2⟩

theorem Spoilt.of_same (hs : Spoilt ip) (h : ip.Same ip') : Spoilt ip' := by
  unfold Spoilt
  rw [h.1]
  exact hs

theorem Ends.of_same (he : Ends tail R r ip) (h : ip.Same ip') : Ends tail R r ip' := by
  simpa only [Ends, Clear, Spoilt, Stopped, h.1, h.2] using he

/-- The program records nothing. -/
def Silent (m : Eval α) : Prop := ∀ ip : Interp, ip.Same (exec m ip).2

theorem Silent.tame (h : Silent m) : Tame tail R m where
  spoilt := fun ip hs => hs.of_same (h ip)
  clear := fun ip hs => Ends.of_same (.inl hs) (h ip)

theorem silent_pure (a : α) : Silent (pure a) := fun _ => ⟨rfl, rfl⟩

theorem silent_throw (e : Stop) : Silent (throw e : Eval α) := fun _ => ⟨rfl, rfl⟩

theorem tame_pure (a : α) : Tame tail R (pure a) := (silent_pure a).tame

theorem tame_throw (e : Stop) : Tame tail R (throw e : Eval α) := (silent_throw e).tame

theorem silent_get : Silent (get : Eval Interp) := fun _ => ⟨rfl, rfl⟩

theorem silent_liftM (x : Except Stop α) : Silent (liftM x : Eval α) := by
  intro ip
  exact ⟨rfl, rfl⟩

theorem silent_modify (h : ∀ ip : Interp, ip.Same (f ip)) : Silent (modify f : Eval PUnit) := h

theorem Silent.bind {f : α → Eval β} (hm : Silent m) (hf : ∀ a, Silent (f a)) :
    Silent (m >>= f) := by
  intro ip
  have h := hm ip
  rw [exec_bind]
  generalize exec m ip = o at h
  obtain ⟨_ | a, ip'⟩ := o
  · exact h
  · exact h.trans (hf a ip')

theorem tame_emit (he : ∀ t, e ≠ .halt t) : Tame tail R (emit e) where
  spoilt := keeps_modify fun _ hs => mem_append_left _ hs
  clear := triple_modify fun ip hs => .inl ⟨hs.1, fun t hm => by
    rcases mem_append.mp hm with hm | hm
    · exact hs.2 t hm
    · exact he t (mem_singleton.mp hm).symm⟩

theorem tame_print (text : List Char) : Tame tail R (emit (.print text)) :=
  tame_emit fun _ => Event.noConfusion

/-- **Sequencing**, where the first part is not in tail position. -/
theorem Tame.bind (hm : Tame false R m) (hf : ∀ a, Tame tail S (f a)) : Tame tail S (m >>= f) where
  spoilt := keeps_bind hm.spoilt fun a => (hf a).spoilt
  clear := by
    refine triple_bind (R := fun _ ip => Clear ip ∨ Spoilt ip) (hm.clear.consequence
      (fun _ hs => hs) fun r ip he => ?_) fun a ip hs => ?_
    · rcases he with hc | hspoilt | ⟨ht, -⟩
      · cases r with
        | ok a => exact .inl hc
        | error e => exact .inl hc
      · cases r with
        | ok a => exact .inr hspoilt
        | error e => exact .inr (.inl hspoilt)
      · cases ht
    · rcases hs with hc | hspoilt
      · exact (hf a).clear ip hc
      · exact .inr (.inl ((hf a).spoilt ip hspoilt))

theorem Silent.andThen (hm : Silent m) (hf : ∀ a, Tame tail S (f a)) : Tame tail S (m >>= f) :=
  Tame.bind (R := fun _ => True) hm.tame hf

/-- Once the run has halted, the program does nothing and returns a result in `R`. -/
def Idle (R : α → Prop) (m : Eval α) : Prop :=
  ∀ ip : Interp, ip.halted = true → ∃ a ip', exec m ip = (.ok a, ip') ∧ R a ∧
    ip'.trace = ip.trace ∧ ip'.halted = ip.halted

theorem idle_pure (h : R a) : Idle R (pure a) := fun ip _ => ⟨a, ip, rfl, h, rfl, rfl⟩

/-- **Sequencing** in tail position: if the first part has stopped the run, the second one does
nothing. -/
theorem Tame.bindTail (hm : Tame tail R m)
    (hf : ∀ a, Tame tail S (f a)) (hi : ∀ a, R a → Idle S (f a)) : Tame tail S (m >>= f) where
  spoilt := keeps_bind hm.spoilt fun a => (hf a).spoilt
  clear := by
    intro ip hs
    have he := hm.clear ip hs
    rw [exec_bind]
    generalize exec m ip = o at he
    obtain ⟨r, ip'⟩ := o
    rcases he with hc | hspoilt | ⟨htail, hstop, a, hr, hR⟩
    · cases r with
      | ok a => exact (hf a).clear ip' hc
      | error e => exact .inl hc
    · cases r with
      | ok a => exact .inr (.inl ((hf a).spoilt ip' hspoilt))
      | error e => exact .inr (.inl hspoilt)
    · obtain ⟨hh, before, ht, hb⟩ := hstop
      obtain ⟨b, ip'', hexec, hS, ht', hh'⟩ := hi a hR ip' hh
      cases hr
      change Ends tail S (exec (f a) ip').1 (exec (f a) ip').2
      rw [hexec]
      exact .inr (.inr ⟨htail, ⟨hh'.trans hh, before, ht'.trans ht, hb⟩, b, rfl, hS⟩)

theorem Tame.finally (h : Tame tail R m)
    (hf : ∀ ip : Interp, ip.Same (f ip)) : Tame tail R (finally_ m f) where
  spoilt := fun ip hs => Spoilt.of_same (h.spoilt ip hs) (hf _)
  clear := fun ip hs => Ends.of_same (h.clear ip hs) (hf _)

theorem Tame.mapError (h : Tame tail R m) (f : String → String) : Tame tail R (mapError f m) where
  spoilt := fun ip hs => by
    have hspoilt := h.spoilt ip hs
    rw [exec_mapError]
    split
    · next heq =>
      rw [heq] at hspoilt
      exact hspoilt
    · exact hspoilt
  clear := fun ip hs => by
    have he := h.clear ip hs
    rw [exec_mapError]
    split
    · next heq =>
      rw [heq] at he
      rcases he with hc | hspoilt | ⟨-, -, a, hok, -⟩
      · exact .inl hc
      · exact .inr (.inl hspoilt)
      · cases hok
    · exact he

/-! ## What records nothing -/

theorem Interp.Stores.same {ip ip' : Interp} (h : ip.Stores ip') : ip.Same ip' := by
  obtain ⟨_, _, _, rfl⟩ := h
  exact ⟨rfl, rfl⟩

theorem silent_readVar (name : String) : Silent (readVar name) := by
  refine silent_get.bind fun ip => ?_
  split <;> exact silent_pure _

theorem silent_assignVar (name : String) (val : Val) (r : Rat) : Silent (assignVar name val r) := by
  refine silent_modify fun ip => ?_
  split
  · exact ⟨rfl, rfl⟩
  · exact ⟨rfl, rfl⟩
  · exact ⟨rfl, rfl⟩
  · exact ⟨rfl, rfl⟩
  · exact (stores_setVar _ _ _).same

/-! ## The interpreter -/

/-- Every function is tame. A statement that stops the run ends normally; an expression has no
value. -/
structure Rec.Tame (r : Rec) : Prop where
  execStmt : ∀ tail stmt, Bc.Tame tail (· = Flow.normal) (r.execStmt tail stmt)
  eval : ∀ tail e, Bc.Tame tail (· = Val.void) (r.eval tail e)
  loop : ∀ cond step body, Bc.Inner (r.loop cond step body)

theorem idle_execute (s : List Stmt) : Idle (fun _ => True) (execute r s) := by
  intro ip hh
  cases s with
  | nil => exact ⟨(), ip, rfl, trivial, rfl, rfl⟩
  | cons st s =>
    refine ⟨(), ip, ?_, trivial, rfl, rfl⟩
    unfold execute
    rw [exec_bind, exec_get]
    simp only [hh]
    rfl

section Level

variable {host : Host} {r : Rec} (h : r.Tame)
include h

theorem tame_evalIndex (index : Option Expr) : Inner (evalIndex r index) := by
  have hv : Tame false (· = Val.void) (evalNil r index) := by
    cases index with
    | none => exact tame_pure _
    | some e => exact h.eval false e
  exact hv.bind fun val => ((silent_liftM _).bind fun _ => silent_pure _).tame

theorem tame_evalAssign (l rhs : Expr) : Tame tail R (evalAssign r l rhs) := by
  refine (h.eval false rhs).bind fun rv => ?_
  split
  · split
    · exact ((silent_assignVar _ _ _).bind fun _ => silent_pure _).tame
    · refine (tame_evalIndex h _).bind fun i => ?_
      exact ((silent_modify fun ip => (stores_setArray _ i _ ip).same).bind fun _ =>
        silent_pure _).tame
    · exact tame_throw _
  · exact tame_throw _

theorem tame_evalIncDec (op : TokenType) (target : Expr) (p : Bool) :
    Tame tail R (evalIncDec r op target p) := by
  have ht : Inner (evalTarget r target) := by
    unfold evalTarget
    split
    · exact tame_pure _
    · exact (tame_evalIndex h _).bind fun _ => tame_pure _
    · exact tame_throw _
  refine ht.bind fun (name, index) => ?_
  · simp only
    split
    · refine ((silent_readVar _).bind fun c => ?_).tame
      refine (silent_liftM _).bind fun q => ?_
      exact (silent_assignVar _ _ _).bind fun _ => silent_pure _
    · refine (silent_get.bind fun ip => ?_).tame
      refine (silent_liftM _).bind fun q => ?_
      refine Silent.bind (silent_modify fun ip => ?_) fun _ => silent_pure _
      split
      · exact (stores_setArray _ _ _ _).same
      · exact (stores_setVar _ _ _).same

theorem tame_evalArgs (a : List Expr) : Inner (evalArgs r a) := by
  induction a with
  | nil => exact tame_pure _
  | cons arg a ih =>
    refine (h.eval false arg).bind fun val => ?_
    exact ih.bind fun v => tame_pure _

theorem tame_readLoop (s : List Stmt) (fv : Val) : Tame tail R (readLoop r s fv) := by
  induction s generalizing fv with
  | nil => exact tame_pure _
  | cons st s ih =>
    cases st with
    | exprStmt e => exact (h.eval false e).bind ih
    | _ => exact (h.execStmt false _).bind fun _ => ih fv

theorem tame_evalRead : Tame tail R (evalRead r) := by
  refine silent_get.andThen fun ip => ?_
  split
  · exact tame_pure _
  simp only
  refine Silent.andThen (fun _ => ⟨rfl, rfl⟩) fun _ => ?_
  split
  · exact tame_throw _
  · split
    · exact tame_pure _
    · exact (silent_liftM _).andThen fun s => tame_readLoop h _ _

/-- A call can stop the run only if the function is void, and then it has no value. -/
theorem tame_evalCall (name : String) (a : List Expr) :
    Tame tail (· = Val.void) (evalCall r tail name a) := by
  refine silent_get.andThen fun ip => ?_
  split
  · exact tame_throw _
  next decl _ =>
  split
  · exact tame_throw _
  refine (tame_evalArgs h a).bind fun av => ?_
  refine silent_get.andThen fun ip => ?_
  refine (silent_modify fun ip => (stores_enterCall decl av ip).same).andThen fun _ => ?_
  have hb := fun tail => (h.execStmt tail (some (.blockStmt decl.body))).finally
    (f := fun ip' => { ip' with locals := ip.locals }) fun ip => ⟨rfl, rfl⟩
  cases hv : decl.void with
  | false =>
    rw [Bool.and_false]
    exact (hb false).bind fun fl => tame_pure _
  | true =>
    rw [Bool.and_true]
    refine (hb tail).bindTail (fun fl => tame_pure _) fun fl _ => idle_pure ?_
    unfold callValue
    rw [hv]
    rfl

theorem tame_evalBuiltin (name : String) (a : List Expr) (f : Val → Interp → Except Stop Val) :
    Tame tail R (evalBuiltin r name a f) := by
  unfold evalBuiltin
  split
  · refine (h.eval false _).bind fun av => ?_
    exact (silent_get.bind fun ip => silent_liftM _).tame
  · exact tame_throw _

/-- **Expressions**: in tail position only a void call may end in a halt. -/
theorem tame_evalExpr (e : Expr) : Tame tail (· = Val.void) (evalExpr host r tail e) := by
  cases e with
  | paren e => exact h.eval tail e
  | num val => exact (silent_get.bind fun ip => (silent_liftM _).bind fun q => silent_pure _).tame
  | string val => exact tame_pure _
  | var name => exact (silent_readVar name).tame
  | arrayAccess name index =>
    cases index with
    | none =>
      refine (silent_get.bind fun ip => ?_).tame
      exact (silent_modify fun ip => (stores_getArrayRef name ip).same).bind fun _ => silent_pure _
    | some index =>
      refine (tame_evalIndex h _).bind fun i => ?_
      exact (silent_get.bind fun ip => silent_pure _).tame
  | assign l rhs => exact tame_evalAssign h l rhs
  | binary op l rhs =>
    refine (h.eval false l).bind fun lv => ?_
    refine (h.eval false rhs).bind fun rv => ?_
    exact (silent_get.bind fun ip => silent_liftM _).tame
  | unary op e p =>
    simp only [evalExpr]
    split
    · exact tame_evalIncDec h op e p
    · exact (h.eval false e).bind fun val => (silent_liftM _).tame
  | call name a =>
    simp only [evalExpr]
    split
    · exact tame_evalBuiltin h _ a _
    · exact tame_evalBuiltin h _ a _
    · exact tame_evalBuiltin h _ a _
    · split
      · exact tame_evalRead h
      · exact tame_throw _
    · exact tame_evalCall h _ a

omit h in
theorem tame_printArg (val : Val) : Inner (printArg host val) := by
  unfold printArg
  split
  · refine silent_get.andThen fun ip => ?_
    exact (silent_liftM _).andThen fun _ => tame_print _
  · exact tame_print _
  · exact tame_pure _

omit h in
theorem tame_printValue (e : Expr) (val : Val) : Inner (printValue host e val) := by
  unfold printValue
  split
  · split
    · refine Silent.andThen (fun _ => ⟨rfl, rfl⟩) fun _ => ?_
      refine silent_get.andThen fun ip => ?_
      exact (silent_liftM _).andThen fun _ => tame_print _
    · exact tame_pure _
  · split
    · exact tame_print _
    · exact tame_pure _
  · exact tame_pure _

theorem tame_printArgs (a : List Expr) : Inner (printArgs host r a) := by
  induction a with
  | nil => exact tame_pure _
  | cons arg a ih =>
    refine (h.eval false arg).bind fun val => ?_
    exact (tame_printArg val).bind fun _ => ih

theorem tame_evalOption (e : Option Expr) : Inner (evalOption r e) := by
  cases e with
  | none => exact tame_pure _
  | some e => exact (h.eval false e).bind fun _ => tame_pure _

/-- In a block only the last statement is in tail position, and only if the block is. -/
theorem tame_execBlock (s : List Stmt) : Tame tail (· = Flow.normal) (execBlock r tail s) := by
  induction s with
  | nil => exact tame_pure _
  | cons st s ih =>
    unfold execBlock
    cases s with
    | nil =>
      rw [isEmpty_nil, Bool.and_true]
      refine (h.execStmt tail _).bindTail (fun f => ?_) ?_
      · cases f with
        | normal => exact ih
        | _ => exact tame_pure _
      · rintro _ rfl
        exact idle_pure rfl
    | cons next s =>
      rw [isEmpty_cons, Bool.and_false]
      refine (h.execStmt false _).bind fun f => ?_
      cases f with
      | normal => exact ih
      | _ => exact tame_pure _

theorem tame_execLoop (c step : Option Expr) (b : Option Stmt) :
    Tame tail R (execLoop r c step b) := by
  have ht : Inner (loopTest r c) := by
    cases c with
    | none => exact tame_pure _
    | some e => exact (h.eval false e).bind fun _ => tame_pure _
  refine ht.bind fun go => ?_
  split
  · refine (h.execStmt false b).bind fun f => ?_
    split
    · exact tame_pure _
    · exact tame_pure _
    · refine (tame_evalOption h step).bind fun _ => ?_
      exact (h.loop c step b).inner
  · exact tame_pure _

omit h in
/-- The `halt` statement itself: in tail position it stops the run, elsewhere it spoils it. -/
theorem tame_halt : Tame tail (· = Flow.normal) (execSome host r tail .haltStmt) where
  spoilt := fun ip hs => mem_append_left _ hs
  clear := fun ip hs => by
    cases tail with
    | false => exact .inr (.inl (mem_append_right _ (mem_singleton_self _)))
    | true => exact .inr (.inr ⟨rfl, ⟨rfl, ip.trace, rfl, hs.2⟩, .normal, rfl, rfl⟩)

/-- **Statements**: one case for each form. -/
theorem tame_execSome (s : Stmt) : Tame tail (· = Flow.normal) (execSome host r tail s) := by
  cases s with
  | funcDecl name p au aa b v =>
    exact Silent.andThen (fun _ => ⟨rfl, rfl⟩) fun _ => tame_pure _
  | exprStmt e =>
    refine (h.eval tail e).bindTail (fun val => ?_) ?_
    · exact (tame_printValue e val).bind fun _ => tame_pure _
    · rintro _ rfl
      exact idle_pure rfl
  | blockStmt st => exact tame_execBlock h st
  | ifStmt c ts es =>
    refine (h.eval false c).bind fun cv => ?_
    split
    · exact h.execStmt tail ts
    · exact h.execStmt tail es
  | whileStmt c b => exact (h.loop _ _ _).inner
  | forStmt init c step b =>
    refine (tame_evalOption h init).bind fun _ => ?_
    exact (h.loop _ _ _).inner
  | returnStmt val =>
    cases val with
    | none => exact tame_pure _
    | some e => exact (h.eval false e).bind fun _ => tame_pure _
  | breakStmt => exact tame_pure _
  | continueStmt => exact tame_pure _
  | haltStmt => exact tame_halt
  | printStmt a =>
    exact (tame_printArgs h a).bind fun _ => tame_pure _

theorem tame_execStmt (s : Option Stmt) : Tame tail (· = Flow.normal) (execStmt host r tail s) := by
  cases s with
  | none => exact tame_pure _
  | some s =>
    exact Tame.bind (R := fun _ => True) (tame_emit fun _ => Event.noConfusion) fun _ =>
      tame_execSome h s

theorem tame_execute (s : List Stmt) : Tame true (fun _ => True) (execute r s) := by
  induction s with
  | nil => exact tame_pure _
  | cons st s ih =>
    refine silent_get.andThen fun ip => ?_
    split
    · exact tame_pure _
    · exact (h.execStmt true _).bindTail (fun _ => ih) fun _ _ => idle_execute s

end Level

/-! ## Runs -/

theorem interp_tame (host : Host) (f : Nat) : (interp host f).Tame := by
  induction f with
  | zero =>
    exact ⟨fun _ _ => tame_throw _, fun _ _ => tame_throw _, fun _ _ _ => tame_throw _⟩
  | succ f ih =>
    exact ⟨fun _ s => tame_execStmt ih s, fun _ e => tame_evalExpr ih e, fun c step b =>
      tame_execLoop ih c step b⟩

theorem tame_newInterpreter (host : Host) (fuel : Nat) (mathLib : Bool) :
    Tame true (fun _ => True) (newInterpreter host fuel mathLib) := by
  unfold newInterpreter
  split
  · refine Tame.bind (R := fun _ => True) ((silent_liftM _).tame.mapError _) fun stmts => ?_
    exact (tame_execute (interp_tame host fuel) stmts).mapError _
  · exact tame_pure _

theorem run_ends (host : Host) (f : Nat) (p : List Char) (st : Option Stdin)
    (mathLib : Bool) : Ends true (fun _ => True) (run host f p st mathLib).1
      (run host f p st mathLib).2 := by
  have ht : Tame true (fun _ => True) (do
      let s ← liftM (parse p)
      newInterpreter host f mathLib
      execute (interp host f) s : Eval Unit) := by
    refine (silent_liftM _).andThen fun s => ?_
    refine (tame_newInterpreter host f mathLib).bindTail (fun _ => ?_) fun _ _ => ?_
    · exact tame_execute (interp_tame host f) s
    · exact idle_execute s
  exact ht.clear (Interp.initial st mathLib) ⟨rfl, fun _ => not_mem_nil⟩

/-- **A `halt` in tail position stops the run.** If every `halt` that a run executes is in tail
position, the run does nothing behind it and returns. -/
theorem run_haltStops (host : Host) (fuel : Nat) (program : List Char) (stdin : Option Stdin)
    (mathLib : Bool) (htail : .halt false ∉ (run host fuel program stdin mathLib).2.trace) :
    HaltStops (run host fuel program stdin mathLib) := by
  intro before tail behind ht
  rcases run_ends host fuel program stdin mathLib with hc | hspoilt | ⟨-, hs, a, hr, -⟩
  · refine absurd ?_ (hc.2 tail)
    rw [ht]
    simp
  · exact absurd hspoilt htail
  · obtain ⟨-, first, hf, hn⟩ := hs
    refine ⟨?_, hr⟩
    rw [hf] at ht
    -- the first `halt` is the last event, so the one found is that one
    rcases append_eq_append_iff.mp ht with ⟨mid, hm, hrest⟩ | ⟨mid, hm, hrest⟩
    · cases mid with
      | nil => exact (List.cons.inj hrest).2.symm
      | cons e mid =>
        have := (List.cons.inj hrest).2
        simp at this
    · cases mid with
      | nil => exact (List.cons.inj hrest).2
      | cons e mid =>
        have he : .halt tail = e := (List.cons.inj hrest).1
        refine absurd ?_ (hn tail)
        rw [hm, he]
        simp

def tailProgram : List Char := "x = 2; if (x > 1) \x7bprint \"a\"; halt\x7d; print \"b\"".toList

theorem run_haltStops_tailProgram :
    .halt false ∉ (run plainHost 12 tailProgram none false).2.trace ∧
      HaltStops (run plainHost 12 tailProgram none false) :=
  ⟨by decide +kernel, run_haltStops plainHost 12 tailProgram none false (by decide +kernel)⟩

example : (run plainHost 12 tailProgram none false).2.trace =
    [.stmt, .stmt, .stmt, .stmt, .print ['a'], .stmt, .halt true] := by
  decide +kernel

def blockProgram : List Char := "\x7bhalt; print \"x\"\x7d".toList

/-- **The rest of a block is executed.** The program prints `x` behind its `halt`. -/
theorem run_prints_after_halt : ¬ HaltStops (run plainHost 12 blockProgram none false) := by
  intro h
  have ht : (run plainHost 12 blockProgram none false).2.trace =
      [.stmt, .stmt] ++ .halt false :: [.stmt, .print ['x']] := by
    decide +kernel
  exact cons_ne_nil _ _ (h _ _ _ ht).1

end GoPosix.Bc
