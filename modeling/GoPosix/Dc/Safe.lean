import GoPosix.Dc.Basic

/-!
# Safe commands

Every number on the stack and in the registers is there, and every divisor is checked or cannot be
zero. `Fine` says this of a computation with numbers, and `Safe` of a program: run in a state whose
numbers are all there it leaves such a state, and does not panic. Every command is safe but for `|`.
-/

namespace GoPosix.Dc

open Effects MachineInt Bc List

/-! ## Outcomes -/

section Fine

variable {α β : Type}

/-- No panic, and `R` of a result. -/
def Fine (R : α → Prop) : Except Stop α → Prop
  | .ok a => R a
  | .error e => e ≠ .panic

theorem Fine.bind (hx : Fine R x)
    (hf : ∀ a, R a → Fine R' (f a)) : Fine R' (x >>= f) := by
  cases x with
  | error e => exact hx
  | ok a => exact hf a hx

theorem fine_error (m : String) : Fine R (.error (.error m)) := nofun

theorem fine_deref (h : ∃ r, p = some r) : Fine (fun _ => True) (deref p) := by
  obtain ⟨r, rfl⟩ := h
  exact trivial

theorem fine_quo (a : Rat) (hb : b ≠ 0) : Fine (fun _ => True) (quo a b) := by
  rw [quo_of_ne_zero a hb]
  exact trivial

end Fine

/-! ## Values -/

def Value.IsNum (v : Value) : Prop := v.isStr = false ∧ ∃ r, v.rat = some r

/-- A text, or a number that is not nil. -/
def Value.Ok (v : Value) : Prop := v.isStr = true ∨ v.IsNum

theorem ok_text (s : List Char) : (Value.text s).Ok := .inl rfl

theorem isNum_num (r : Rat) (fd : Int) (neg : Bool) : (Value.num r fd neg).IsNum := ⟨rfl, r, rfl⟩

theorem ok_num (r : Rat) (fd : Int) (neg : Bool) : (Value.num r fd neg).Ok := .inr (isNum_num ..)

theorem ok_int (r : Rat) : (Value.int r).Ok := ok_num r 0 false

variable {v a b : Value}

theorem Value.Ok.isNum (h : v.Ok) (hv : v.isStr ≠ true) : v.IsNum := h.resolve_left hv

theorem fine_isNegVal (h : v.Ok) : Fine (fun _ => True) (isNegVal v) := by
  unfold isNegVal
  split
  · exact trivial
  · next hv => exact (fine_deref (h.isNum hv).2).bind fun _ _ => trivial

theorem fine_dupVal (h : v.Ok) : Fine Value.Ok (dupVal v) := by
  unfold dupVal
  split
  · exact ok_text _
  · next hv => exact (fine_deref (h.isNum hv).2).bind fun _ _ => ok_num ..

theorem fine_toText (h : v.Ok) : Fine (fun _ => True) v.toText := by
  unfold Value.toText
  split
  · exact trivial
  · next hv => exact (fine_deref (h.isNum hv).2).bind fun _ _ => trivial

theorem fine_lengthVal (scale : Int) (h : v.Ok) : Fine (fun _ => True) (lengthVal scale v) := by
  unfold lengthVal
  split
  · exact trivial
  · next hv => exact (fine_deref (h.isNum hv).2).bind fun _ _ => trivial

/-! ## Arithmetic -/

abbrev OkList (vs : List Value) : Prop := ∀ v ∈ vs, v.Ok

theorem okList_singleton (h : v.Ok) : OkList [v] := by
  intro w hw
  rwa [mem_singleton.mp hw]

theorem fine_addVals (op : Rat → Rat → Rat) (scale : Int) (ha : a.IsNum) (hb : b.IsNum) :
    Fine OkList (addVals op scale a b) := by
  apply (fine_deref ha.2).bind
  intro x _
  apply (fine_deref hb.2).bind
  intro y _
  exact okList_singleton (ok_num ..)

theorem fine_mulVals (scale : Int) (ha : a.IsNum) (hb : b.IsNum) :
    Fine OkList (mulVals scale a b) := by
  apply (fine_deref ha.2).bind
  intro x _
  apply (fine_deref hb.2).bind
  intro y _
  apply (fine_isNegVal (.inr ha)).bind
  intro n _
  apply (fine_isNegVal (.inr hb)).bind
  intro nb _
  exact okList_singleton (ok_num ..)

theorem fine_divVals (scale : Int) (ha : a.IsNum) (hb : b.IsNum) :
    Fine OkList (divVals scale a b) := by
  apply (fine_deref hb.2).bind
  intro y _
  split
  · exact fine_error _
  next hy =>
  apply (fine_deref ha.2).bind
  intro x _
  apply (fine_quo x hy).bind
  intro r _
  apply (fine_isNegVal (.inr ha)).bind
  intro n _
  apply (fine_isNegVal (.inr hb)).bind
  intro nb _
  exact okList_singleton (ok_num ..)

theorem fine_quoRem (scale : Int) (ha : a.IsNum) (hy : b.rat = some y) (hne : y ≠ 0)
    (hb : b.isStr = false) : Fine (fun p => p.1.Ok ∧ p.2.Ok) (quoRem scale a b) := by
  have hb : b.IsNum := ⟨hb, y, hy⟩
  unfold quoRem
  rw [hy]
  apply (fine_deref ha.2).bind
  intro x _
  apply (fine_quo x hne).bind
  intro q _
  apply (fine_isNegVal (.inr ha)).bind
  intro n _
  apply (fine_isNegVal (.inr hb)).bind
  intro nb _
  exact ⟨ok_num .., ok_num ..⟩

theorem fine_remVals (scale : Int) (ha : a.IsNum) (hb : b.IsNum) :
    Fine OkList (remVals scale a b) := by
  obtain ⟨hs, y, hy⟩ := hb
  unfold remVals
  rw [hy]
  change Fine OkList (if y = 0 then _ else _)
  split
  · exact fine_error _
  · next hne =>
    apply (fine_quoRem scale ha hy hne hs).bind
    intro p hp
    exact okList_singleton hp.2

theorem fine_quoRemVals (scale : Int) (ha : a.IsNum) (hb : b.IsNum) :
    Fine OkList (quoRemVals scale a b) := by
  obtain ⟨hs, y, hy⟩ := hb
  unfold quoRemVals
  rw [hy]
  change Fine OkList (if y = 0 then _ else _)
  split
  · exact fine_error _
  next hne =>
  apply (fine_quoRem scale ha hy hne hs).bind
  intro p hp v hv
  rcases mem_cons.mp hv with rfl | hv
  · exact hp.1
  · exact okList_singleton hp.2 v hv

/-- A power of a number that is not zero has an inverse, whatever the exponent is. -/
theorem ratPowInt_ne_zero (hx : x ≠ 0) (e : Int) : ratPowInt x e ≠ 0 := by
  have hl : ∀ (f : Nat) (e : Int) (base r : Rat), base ≠ 0 → r ≠ 0 → powerLoop f e base r ≠ 0 := by
    intro f
    induction f with
    | zero => exact fun _ _ _ _ hr => hr
    | succ f ih =>
      intro e base r hb hr
      unfold powerLoop
      split
      · apply ih
        · exact mul_ne_zero hb hb
        · split
          · exact mul_ne_zero hr hb
          · exact hr
      · exact hr
  exact hl 64 e x 1 hx one_ne_zero

theorem fine_powVals (scale : Int) (ha : a.IsNum) (hb : b.IsNum) :
    Fine OkList (powVals scale a b) := by
  apply (fine_deref hb.2).bind
  intro y _
  dsimp only
  split
  · exact okList_singleton (ok_num ..)
  apply (fine_deref ha.2).bind
  intro x _
  apply (fine_isNegVal (.inr ha)).bind
  intro neg _
  split
  · exact okList_singleton (ok_num ..)
  next hx =>
  split
  · apply (fine_quo 1 (ratPowInt_ne_zero hx _)).bind
    intro r _
    exact okList_singleton (ok_num ..)
  · exact okList_singleton (ok_num ..)

theorem exp10_pos (y : Int) : 0 < exp10 y := by
  unfold exp10
  split
  · decide
  · exact Int.pow_pos (by decide)

theorem fine_setFrac (a : Int) {b : Int} (hb : b ≠ 0) : Fine (fun _ => True) (setFrac a b) :=
  fine_quo a (Int.cast_ne_zero.mpr hb)

theorem fine_intSqrt {a : Int} (ha : ¬a < 0) : Fine (fun _ => True) (intSqrt a) := by
  rw [intSqrt, if_neg ha]
  exact trivial

theorem fine_ratSqrtNewton (hx : ¬x < 0) (scale : Int) :
    Fine (fun _ => True) (ratSqrtNewton x scale) := by
  have hd : (0 : Int) < x.den := Int.natCast_pos.mpr x.den_pos
  have hn : 0 ≤ x.num := Rat.num_nonneg.mpr (not_lt.mp hx)
  unfold ratSqrtNewton
  split
  · exact trivial
  · have hp : ∀ y, ¬x.num * x.den * exp10 y < 0 := fun y =>
      not_lt.mpr (Int.mul_nonneg (Int.mul_nonneg hn (Int.le_of_lt hd)) (Int.le_of_lt (exp10_pos y)))
    apply (fine_intSqrt (hp _)).bind
    intro n _
    exact fine_setFrac _ (Int.ne_of_gt (Int.mul_pos hd (exp10_pos _)))

theorem fine_sqrtVal (scale : Int) (ha : a.IsNum) : Fine Value.Ok (sqrtVal scale a) := by
  apply (fine_deref ha.2).bind
  intro x _
  split
  · exact fine_error _
  · next hx =>
    apply (fine_ratSqrtNewton hx scale).bind
    intro r _
    exact ok_num ..

theorem fine_numberOf (n : Bool) (s : List Char) : Fine (fun _ => True) (numberOf n s) := by
  unfold numberOf
  dsimp only
  split
  · split
    · exact fine_error _
    · apply (fine_setFrac _ (Int.ne_of_gt (exp10_pos _))).bind
      intro _ _
      exact trivial
  · split
    · exact fine_error _
    · exact trivial

theorem fine_newNumStr (s : List Char) : Fine (fun _ => True) (newNumStr s) := fine_numberOf _ _

/-! ## States -/

/-- Every number of the state is there. -/
structure State.Ok (st : State) : Prop where
  stack : ∀ v ∈ st.stack, v.Ok
  regs : ∀ reg, ∀ v ∈ st.regs reg, v.Ok

theorem ok_initial (er : Bool) (s : Option (List Char)) : (State.initial er s).Ok := ⟨nofun, nofun⟩

theorem State.Ok.setReg {st : State} (h : st.Ok) (r : List Char)
    (hva : ∀ v ∈ va, v.Ok) : (st.setReg r va).Ok := by
  refine ⟨h.stack, fun name v hv => ?_⟩
  simp only [State.setReg] at hv
  split at hv
  · exact hva v hv
  · exact h.regs name v hv

section Safe

variable {α β : Type} {R : α → Prop}

/-- Run in a state that is in order, the program leaves one, does not panic, and has a result with
`R` if it returns. -/
def Safe (R : α → Prop) (m : Eval α) : Prop :=
  Triple State.Ok m fun r st => st.Ok ∧ Fine R r

theorem Safe.bind (hm : Safe R m)
    (hf : ∀ a, R a → Safe R' (f a)) : Safe R' (m >>= f) := by
  intro st hstate
  have h := hm st hstate
  rw [exec_bind]
  generalize exec m st = o at h
  obtain ⟨e | a, st'⟩ := o
  · exact h
  · exact hf a h.2 st' h.1

/-- A value that may be missing. -/
theorem Safe.bindOption {m : Eval (Option α)} {f : Option α → Eval β}
    (hm : Safe (fun o => ∀ a, o = some a → R a) m)
    (hn : Safe R' (f none)) (hs : ∀ a, R a → Safe R' (f (some a))) : Safe R' (m >>= f) := by
  refine hm.bind fun o ho => ?_
  cases o with
  | none => exact hn
  | some a => exact hs a (ho a rfl)

theorem safe_pure {a : α} (h : R a) : Safe R (pure a) := fun _ hstate => ⟨hstate, h⟩

theorem safe_stackEmpty : Safe R (throw stackEmpty) := fun _ hstack => ⟨hstack, fine_error _⟩

theorem safe_get : Safe State.Ok (get : Eval State) := fun _ hstate => ⟨hstate, hstate⟩

theorem safe_modify (h : ∀ st, st.Ok → (f st).Ok) :
    Safe (fun _ => True) (modify f : Eval Unit) := fun st hstate => ⟨h st hstate, trivial⟩

theorem safe_liftM (h : Fine R x) : Safe R (liftM x : Eval α) := by
  intro st hstate
  exact ⟨hstate, h⟩

end Safe

/-! ## The stack -/

theorem safe_push (h : v.Ok) : Safe (fun _ => True) (push v) := by
  apply safe_modify
  intro st hstack
  refine ⟨fun w hw => ?_, hstack.regs⟩
  rcases mem_cons.mp hw with rfl | hw
  · exact h
  · exact hstack.stack w hw

theorem safe_pushAll (h : OkList vs) : Safe (fun _ => True) (pushAll vs) := by
  apply safe_modify
  intro st hstack
  refine ⟨fun w hw => ?_, hstack.regs⟩
  rcases mem_append.mp hw with hw | hw
  · exact h w (mem_reverse.mp hw)
  · exact hstack.stack w hw

theorem safe_setStack (h : OkList stack) :
    Safe (fun _ => True) (modify fun st => { st with stack := stack } : Eval Unit) :=
  safe_modify fun _ hstate => ⟨h, hstate.regs⟩

theorem safe_popVal : Safe (fun o => ∀ v, o = some v → v.Ok) popVal := by
  apply safe_get.bind
  intro st hstack
  split
  · exact safe_pure nofun
  next w stack hs =>
  have hall : ∀ x ∈ w :: stack, x.Ok := hs ▸ hstack.stack
  apply (safe_setStack fun x hx => hall x (mem_cons_of_mem _ hx)).bind
  intro _ _
  apply safe_pure
  rintro v ⟨⟩
  exact hall w mem_cons_self

theorem safe_popNumValFD : Safe (fun o => ∀ v, o = some v → v.IsNum) popNumValFD := by
  refine safe_popVal.bindOption (safe_pure nofun) fun w hw => safe_pure ?_
  rintro v ⟨⟩
  split
  · exact isNum_num ..
  · next hs => exact hw.isNum hs

theorem safe_popTwoNumFD : Safe (fun p => p.1.IsNum ∧ p.2.IsNum) popTwoNumFD := by
  refine safe_popNumValFD.bindOption safe_stackEmpty fun b hb =>
    safe_popNumValFD.bindOption ?_ fun a ha => ?_
  · exact (safe_push (.inr hb)).bind fun _ _ => safe_stackEmpty
  · exact safe_pure ⟨ha, hb⟩

theorem isNum_ofPointer (h : ∃ r, p = some r) : (Value.ofPointer p).Ok := .inr ⟨rfl, h⟩

theorem safe_popTwoNumVal :
    Safe (fun p => (∃ r, p.1 = some r) ∧ ∃ r, p.2 = some r) popTwoNumVal := by
  refine safe_popNumValFD.bindOption safe_stackEmpty fun b hb =>
    safe_popNumValFD.bindOption ?_ fun a ha => ?_
  · exact (safe_push (isNum_ofPointer hb.2)).bind fun _ _ => safe_stackEmpty
  · exact safe_pure ⟨ha.2, hb.2⟩

/-! ## Commands -/

/-- No result is asked for. -/
abbrev Runs {α : Type} (m : Eval α) : Prop := Safe (fun _ => True) m

theorem runs_pure {α : Type} {a : α} : Runs (pure a) := safe_pure trivial

theorem runs_output {f : State → List (List Char)} :
    Runs (modify fun st => { st with output := f st } : Eval Unit) :=
  safe_modify fun _ hstack => ⟨hstack.stack, hstack.regs⟩

theorem runs_printTop : Runs printTop := by
  apply safe_get.bind
  intro st hstack
  split
  · exact runs_pure
  · next v stack hs =>
    have hv : v.Ok := hstack.stack v (hs ▸ mem_cons_self)
    exact (safe_liftM (fine_toText hv)).bind fun _ _ => runs_output

theorem runs_printPop : Runs printPop := by
  refine safe_popVal.bindOption runs_pure fun v hv => ?_
  exact (safe_liftM (fine_toText hv)).bind fun _ _ => runs_output

theorem runs_printString : Runs printString := by
  refine safe_popVal.bindOption runs_pure fun v _ => ?_
  dsimp only
  split
  · exact runs_output
  · exact runs_pure

theorem fine_textsOf (h : OkList vs) : Fine (fun _ => True) (textsOf vs) := by
  induction vs with
  | nil => exact trivial
  | cons v vs ih =>
    rw [textsOf, mapM_cons]
    apply (fine_toText (h v mem_cons_self)).bind
    intro _ _
    exact (ih fun w hw => h w (mem_cons_of_mem _ hw)).bind fun _ _ => trivial

theorem runs_printAll : Runs printAll := by
  apply safe_get.bind
  intro st hstack
  exact (safe_liftM (fine_textsOf hstack.stack)).bind fun _ _ => runs_output

theorem runs_clear : Runs clear := safe_setStack nofun

theorem runs_dup : Runs dup := by
  apply safe_get.bind
  intro st hstack
  split
  · exact runs_pure
  · next v stack hs =>
    have hv : v.Ok := hstack.stack v (hs ▸ mem_cons_self)
    exact (safe_liftM (fine_dupVal hv)).bind fun w hw => safe_push hw

theorem runs_swap : Runs swap := by
  apply safe_modify
  intro st hstack
  refine ⟨fun v hv => hstack.stack v ?_, hstack.regs⟩
  split at hv
  · next a b stack hs =>
    grind
  · exact hv

theorem runs_drop : Runs drop := safe_popVal.bind fun _ _ => runs_pure

theorem runs_depth : Runs depth := safe_get.bind fun _ _ => safe_push (ok_int _)

theorem runs_pushLength : Runs pushLength := by
  refine safe_popVal.bindOption runs_pure fun v hv => safe_get.bind fun st _ => ?_
  exact (safe_liftM (fine_lengthVal st.scale hv)).bind fun _ _ => safe_push (ok_int _)

theorem runs_binary (hf : ∀ scale a b, a.IsNum → b.IsNum → Fine OkList (f scale a b)) :
    Runs (binary f) := by
  apply safe_popTwoNumFD.bind
  rintro ⟨a, b⟩ ⟨ha, hb⟩
  apply safe_get.bind
  intro st _
  exact (safe_liftM (hf st.scale a b ha hb)).bind fun vs hvs => safe_pushAll hvs

theorem runs_comparison (f : Rat → Rat → Bool) : Runs (comparison f) := by
  apply safe_popTwoNumVal.bind
  rintro ⟨a, b⟩ ⟨ha, hb⟩
  apply (safe_liftM (fine_deref ha)).bind
  intro x _
  apply (safe_liftM (fine_deref hb)).bind
  intro y _
  exact safe_push (ok_int _)

theorem runs_sqrt : Runs sqrt := by
  refine safe_popNumValFD.bindOption safe_stackEmpty fun a ha => safe_get.bind fun st _ => ?_
  exact (safe_liftM (fine_sqrtVal st.scale ha)).bind fun _ hw => safe_push hw

theorem runs_setScale : Runs setScale := by
  refine safe_popNumValFD.bindOption safe_stackEmpty fun v hv => ?_
  exact (safe_liftM (fine_deref hv.2)).bind fun r _ => safe_modify fun _ hstack =>
    ⟨hstack.stack, hstack.regs⟩

theorem runs_pushScale : Runs pushScale := safe_get.bind fun _ _ => safe_push (ok_num ..)

theorem runs_store (r : List Char) : Runs (store r) := by
  refine safe_popVal.bindOption ?_ fun v hv => (safe_liftM (fine_dupVal hv)).bind fun w hw => ?_
  · exact safe_modify fun _ hstate => hstate.setReg r (okList_singleton (ok_text _))
  · exact safe_modify fun _ hstate => hstate.setReg r (okList_singleton hw)

theorem runs_load (r : List Char) : Runs (load r) := by
  apply safe_get.bind
  intro st hstate
  split
  · exact safe_push (ok_int _)
  · next v vals hvals =>
    have hv : v.Ok := hstate.regs r v (hvals ▸ mem_cons_self)
    exact (safe_liftM (fine_dupVal hv)).bind fun w hw => safe_push hw

theorem runs_storeTop (r : List Char) : Runs (storeTop r) := by
  refine safe_popVal.bindOption runs_pure fun v hv => (safe_liftM (fine_dupVal hv)).bind fun w hw =>
    ?_
  apply safe_modify
  intro st hstate
  refine hstate.setReg r fun x hx => ?_
  rcases mem_cons.mp hx with rfl | hx
  · exact hw
  · exact hstate.regs r x hx

theorem runs_loadTop (r : List Char) : Runs (loadTop r) := by
  apply safe_get.bind
  intro st hstate
  split
  · exact runs_pure
  next v vals hv =>
  have hall : OkList (v :: vals) := hv ▸ hstate.regs r
  have hs : Runs (modify fun st => st.setReg r vals : Eval Unit) :=
    safe_modify fun _ hstate' => hstate'.setReg r fun x hx => hall x (mem_cons_of_mem _ hx)
  apply hs.bind
  intro _ _
  exact (safe_liftM (fine_dupVal (hall v mem_cons_self))).bind fun w hw => safe_push hw

theorem runs_withReg (hf : ∀ r, Runs (f r)) (s : List Char) : Runs (withReg f s) := by
  apply safe_get.bind
  intro st _
  dsimp only
  split
  · exact (hf _).bind fun _ _ => runs_pure
  · exact runs_pure

theorem runs_execute (s : List Char) : Runs (execute s) := by
  refine safe_popVal.bindOption runs_pure fun v hv => ?_
  dsimp only
  split
  · exact runs_pure
  · exact (safe_push hv).bind fun _ _ => runs_pure

theorem runs_isZero : Runs isZero := by
  refine safe_popVal.bindOption safe_stackEmpty fun v hv => ?_
  dsimp only
  split
  · exact safe_push (ok_int _)
  · next hs => exact (safe_liftM (fine_deref (hv.isNum hs).2)).bind fun r _ => safe_push (ok_int _)

theorem runs_conditional (n : Bool) (co : Char) (s : List Char) : Runs (conditional n co s) := by
  apply safe_get.bind
  intro st _
  dsimp only
  split
  · exact runs_pure
  apply safe_popTwoNumVal.bind
  rintro ⟨a, b⟩ ⟨ha, hb⟩
  apply (safe_liftM (fine_deref ha)).bind
  intro x _
  apply (safe_liftM (fine_deref hb)).bind
  intro y _
  apply safe_get.bind
  intro st _
  split
  · exact runs_pure
  · split
    · exact runs_pure
    · exact runs_pure

theorem runs_negatedConditional (s : List Char) : Runs (negatedConditional s) := by
  unfold negatedConditional
  split
  · split
    · exact runs_conditional _ _ _
    · exact runs_pure
  · exact runs_pure

theorem runs_ask (s : List Char) : Runs (ask s) := by
  have hr : ∀ i, Runs (modify fun st => { st with stdin := i } : Eval Unit) :=
    fun _ => safe_modify fun _ hstack => ⟨hstack.stack, hstack.regs⟩
  apply safe_get.bind
  intro st _
  split
  · exact runs_pure
  · split
    · exact (hr _).bind fun _ _ => runs_pure
    · exact (hr _).bind fun _ _ => runs_pure

theorem runs_toAscii : Runs toAscii := by
  refine safe_popVal.bindOption safe_stackEmpty fun v hv => ?_
  dsimp only
  split
  · exact safe_push (ok_text _)
  · next hs => exact (safe_liftM (fine_deref (hv.isNum hs).2)).bind fun r _ => safe_push (ok_text _)

theorem runs_number (ch : Char) (s : List Char) : Runs (number ch s) := by
  unfold number
  split
  · exact runs_pure
  · apply (safe_liftM (fine_newNumStr _)).bind
    intro p _
    exact (safe_push (ok_num ..)).bind fun _ _ => runs_pure

theorem runs_act (h : Runs m) (s : List Char) : Runs (act m s) := h.bind fun _ _ => runs_pure

/-- **Every command but `|` is safe.** -/
theorem runs_command (big : BigInt) (hchar : ch ≠ '|') (s : List Char) :
    Runs (command big ch s) := by
  unfold command
  split
  · exact runs_pure
  split
  · exact runs_pure
  split
  · exact (safe_push (ok_text _)).bind fun _ _ => runs_pure
  split
  · exact runs_number ch s
  split
  · exact runs_act runs_printTop s
  · exact runs_act runs_printPop s
  · exact runs_act runs_printString s
  · exact runs_act runs_printAll s
  · exact runs_act runs_clear s
  · exact runs_act runs_dup s
  · exact runs_act runs_swap s
  · exact runs_act runs_drop s
  · exact runs_act runs_depth s
  · exact runs_act runs_pushLength s
  · exact runs_act (runs_binary fun scale _ _ => fine_addVals _ scale) s
  · exact runs_act (runs_binary fun scale _ _ => fine_addVals _ scale) s
  · exact runs_act (runs_binary fun scale _ _ => fine_mulVals scale) s
  · exact runs_act (runs_binary fun scale _ _ => fine_divVals scale) s
  · exact runs_act (runs_binary fun scale _ _ => fine_remVals scale) s
  · exact runs_act (runs_binary fun scale _ _ => fine_quoRemVals scale) s
  · exact runs_act (runs_binary fun scale _ _ => fine_powVals scale) s
  · exact runs_act runs_sqrt s
  · exact absurd rfl hchar
  · exact runs_act runs_setScale s
  · exact runs_act runs_pushScale s
  · exact runs_withReg runs_store s
  · exact runs_withReg runs_load s
  · exact runs_withReg runs_storeTop s
  · exact runs_withReg runs_loadTop s
  · exact runs_execute s
  · exact runs_act (runs_comparison _) s
  · exact runs_act (runs_comparison _) s
  · exact runs_act (runs_comparison _) s
  · exact runs_act runs_isZero s
  · exact runs_conditional _ _ s
  · exact runs_conditional _ _ s
  · exact runs_conditional _ _ s
  · exact runs_negatedConditional s
  · exact runs_ask s
  · exact runs_act runs_toAscii s
  · exact runs_pure

end GoPosix.Dc
