import GoPosix.Dc.Safe

/-!
# When dc panics

The command `|` hands its operands to `big.Int.Exp` unchecked, and what that returns to `SetInt`.
Where the result is nil dc panics. `steps` lists the commands of a run, with the text and the state
each of them finds; a run panics if and only if one of them is a `|` with operands that have no
result.
-/

namespace GoPosix.Dc

open Effects MachineInt Bc

variable {v : Value}

/-! ## Modular powers -/

def trunc (r : Rat) : Int := r.num.tdiv r.den

/-- Operands of `|` for which there is no result: the exponent is negative, and the base has no
inverse for the modulus. -/
def noResult (base exp mod : Rat) : Bool :=
  trunc exp < 0 && trunc mod ≠ 0 && Int.gcd (trunc base) (trunc mod) ≠ 1

theorem intQuo_den (r : Rat) : intQuo r.num r.den = .ok (trunc r) :=
  if_neg (Int.natCast_ne_zero.mpr r.den_nz)

theorem intPart_eq (r : Rat) : intPart r = .ok (trunc r) := by
  unfold intPart
  split
  · next h => rw [trunc, h, Nat.cast_one, Int.tdiv_one]
  · exact intQuo_den r

/-- **When a modular power panics.** -/
theorem ratModExpVal_panic_iff (b : BigInt) (base e m : Rat) :
    ratModExpVal b base e m = .error .panic ↔ noResult base e m = true := by
  unfold ratModExpVal
  split
  · next he =>
    have ht : trunc e = 0 := by rw [he]; rfl
    simp [noResult, ht]
  · rw [intPart_eq, intPart_eq, intQuo_den]
    change (if trunc m = 0 then _ else _) = _ ↔ _
    split
    · next hm =>
      simp [noResult, hm]
    · next hm =>
      have hn := b.exp_eq_none (trunc base) (trunc e) (trunc m) hm
      cases hr : b.exp (trunc base) (trunc e) (trunc m) with
      | none =>
        obtain ⟨hneg, hg⟩ := hn.mp hr
        simp [noResult, hneg, hm, hg]
      | some result =>
        refine iff_of_false (ok_ne_panic _) ?_
        have hnot : ¬(trunc e < 0 ∧ Int.gcd (trunc base) (trunc m) ≠ 1) := by
          rw [← hn, hr]
          exact Option.some_ne_none _
        simp only [noResult, Bool.and_eq_true, decide_eq_true_eq]
        tauto

/-- The number that a command takes a value for. -/
def Value.number (v : Value) : Rat := if v.isStr then 0 else v.rat.getD 0

theorem number_eq (h : v.Ok) : (if v.isStr then Value.int 0 else v).rat = some v.number := by
  unfold Value.number
  split
  · rfl
  · next hs =>
    obtain ⟨-, r, hr⟩ := h.isNum hs
    rw [hr]
    rfl

/-- A command of a run: the text from it on, and the state it finds. -/
structure Step where
  text : List Char
  state : State

/-- The command is a `|`, and its operands have no result. -/
def Step.faulty (step : Step) : Bool :=
  match step.text, step.state.stack with
  | '|' :: _, mod :: exp :: base :: _ => noResult base.number exp.number mod.number
  | _, _ => false

variable {st : State}

theorem exec_popNumValFD_nil (h : st.stack = []) : exec popNumValFD st = (.ok none, st) := by
  obtain ⟨s, r, x, scale, output, std⟩ := st
  cases h
  rfl

theorem exec_popNumValFD_cons {stack : List Value} (h : st.stack = v :: stack) :
    exec popNumValFD st =
      (.ok (some (if v.isStr then Value.int 0 else v)), { st with stack := stack }) := by
  obtain ⟨_, r, x, scale, output, s⟩ := st
  cases h
  rfl

theorem State.Ok.pop (h : st.Ok) {stack : List Value} (hs : st.stack = v :: stack) :
    v.Ok ∧ State.Ok { st with stack := stack } :=
  ⟨h.stack v (hs ▸ List.mem_cons_self),
    ⟨fun w hw => h.stack w (hs ▸ List.mem_cons_of_mem _ hw), h.regs⟩⟩

theorem exec_modExp (b : BigInt) (hstack : st.Ok) (h : st.stack = mod :: exp :: base :: rest) :
    exec (modExp b) st = exec (do
      let r ← (ratModExpVal b base.number exp.number mod.number : Except Stop Rat)
      push (.int r) : Eval Unit) { st with stack := rest } := by
  obtain ⟨hm, hstack₁⟩ := hstack.pop h
  obtain ⟨he, hstack₂⟩ := hstack₁.pop rfl
  obtain ⟨hb, -⟩ := hstack₂.pop rfl
  unfold modExp
  rw [exec_bind, exec_popNumValFD_cons h]
  dsimp only
  rw [exec_bind, exec_popNumValFD_cons rfl]
  dsimp only
  rw [exec_bind, exec_popNumValFD_cons rfl]
  dsimp only
  rw [number_eq hm, number_eq he, number_eq hb]
  rfl

theorem modExp_short (b : BigInt) (hstack : st.Ok)
    (h : ∀ m e base rest, st.stack ≠ m :: e :: base :: rest) :
    (exec (modExp b) st).2.Ok ∧ (exec (modExp b) st).1 ≠ .error .panic := by
  unfold modExp
  rw [exec_bind]
  rcases hs : st.stack with _ | ⟨m, _ | ⟨e, _ | ⟨base, rest⟩⟩⟩
  · rw [exec_popNumValFD_nil hs]
    exact ⟨hstack, error_ne_panic _⟩
  · obtain ⟨hm, hstack₁⟩ := hstack.pop hs
    rw [exec_popNumValFD_cons hs]
    have hp := safe_push (isNum_ofPointer ⟨_, number_eq hm⟩) _ hstack₁
    exact ⟨hp.1, error_ne_panic _⟩
  · obtain ⟨hm, hstack₁⟩ := hstack.pop hs
    obtain ⟨he, hstack₂⟩ := hstack₁.pop rfl
    rw [exec_popNumValFD_cons hs]
    have hp := safe_push (isNum_ofPointer ⟨_, number_eq he⟩) _ hstack₂
    have hp' := safe_push (isNum_ofPointer ⟨_, number_eq hm⟩) _ hp.1
    exact ⟨hp'.1, error_ne_panic _⟩
  · exact absurd hs (h _ _ _ _)

/-- **`|` panics at operands without a result.** -/
theorem modExp_panicsAt (b : BigInt) (s : List Char) :
    PanicsAt State.Ok Step.faulty (modExp b) fun st => [⟨'|' :: s, st⟩] := by
  intro st hstack
  have ho : (∃ t ∈ [(⟨'|' :: s, st⟩ : Step)], t.faulty = true) ↔
    Step.faulty ⟨'|' :: s, st⟩ = true := by simp
  rw [ho]
  by_cases ht : ∃ m exp base rest, st.stack = m :: exp :: base :: rest
  · obtain ⟨m, exp, base, rest, hs⟩ := ht
    have hf : Step.faulty ⟨'|' :: s, st⟩ = noResult base.number exp.number m.number := by
      simp only [Step.faulty, hs]
    have hr : State.Ok { st with stack := rest } :=
      ⟨fun w hw => hstack.stack w (by rw [hs]; simp [hw]), hstack.regs⟩
    rw [hf, ← ratModExpVal_panic_iff b, exec_modExp b hstack hs]
    rcases ratModExpVal b base.number exp.number m.number with e | r
    · refine ⟨hr, ?_⟩
      constructor <;> rintro ⟨⟩ <;> rfl
    · refine ⟨(safe_push (ok_int r) _ hr).1, ?_⟩
      exact iff_of_false (ok_ne_panic _) (ok_ne_panic _)
  · have hshort : ∀ m exp base rest, st.stack ≠ m :: exp :: base :: rest :=
      fun m exp base rest h => ht ⟨m, exp, base, rest, h⟩
    obtain ⟨hok, hne⟩ := modExp_short b hstack hshort
    refine ⟨hok, iff_of_false hne ?_⟩
    unfold Step.faulty
    split
    · next h => exact absurd h (hshort _ _ _ _)
    · exact Bool.false_ne_true

/-! ## Runs -/

/-- **A command panics if and only if it is faulty.** -/
theorem command_panicsAt (big : BigInt) (ch : Char) (s : List Char) :
    PanicsAt State.Ok Step.faulty (command big ch s) fun st => [⟨ch :: s, st⟩] := by
  by_cases hch : ch = '|'
  · subst hch
    intro st hstate
    obtain ⟨hok, hp⟩ := modExp_panicsAt big s st hstate
    change State.Ok (exec (act (modExp big) s) st).2 ∧
      ((exec (act (modExp big) s) st).1 = .error .panic ↔ _)
    rw [act, exec_bind, ← hp]
    generalize exec (modExp big) st = o at hok
    obtain ⟨e | _, st'⟩ := o
    · refine ⟨hok, ?_⟩
      constructor <;> rintro ⟨⟩ <;> rfl
    · exact ⟨hok, iff_of_false (ok_ne_panic _) (ok_ne_panic _)⟩
  · intro st hstate
    obtain ⟨hok, hfi⟩ := runs_command big hch s st hstate
    refine ⟨hok, iff_of_false ?_ ?_⟩
    · intro hp
      rw [hp] at hfi
      exact hfi rfl
    · rintro ⟨t, ht, hf⟩
      rw [List.mem_singleton.mp ht] at hf
      unfold Step.faulty at hf
      split at hf
      · next hte _ => exact hch (List.cons.inj hte).1
      · cases hf

def callSteps (steps : List Char → State → List Step) : Option Call → State → List Step
  | none, _ => []
  | some call, st => steps call.text st

/-- The commands of a run, those of its macros among them. -/
def steps (big : BigInt) : (fuel : Nat) → (input : List Char) → State → List Step
  | 0, _ => fun _ => []
  | _ + 1, [] => fun _ => []
  | fuel + 1, ch :: s =>
    andThen (command big ch s) (fun st => [⟨ch :: s, st⟩]) fun next =>
      andThen (runCall (evalDC big fuel) next.call) (callSteps (steps big fuel) next.call) fun _ =>
        steps big fuel next.rest

theorem runCall_panicsAt
    (h : ∀ text, PanicsAt State.Ok Step.faulty (eval text) (log text)) (call : Option Call) :
    PanicsAt State.Ok Step.faulty (runCall eval call) (callSteps log call) := by
  cases call with
  | none => exact panicsAt_nil fun st hstate => ⟨hstate, ok_ne_panic _⟩
  | some call =>
    rw [runCall]
    split
    · exact (h call.text).ignoreError
    · exact h call.text

/-- The induction is on the fuel: the macro and the rest of the text run with less. -/
theorem evalDC_panicsAt (b : BigInt) (f : Nat) : ∀ i,
    PanicsAt State.Ok Step.faulty (evalDC b f i) (steps b f i) := by
  induction f with
  | zero =>
    intro i
    exact panicsAt_nil fun st hstate => ⟨hstate, nofun⟩
  | succ f ih =>
    intro i
    cases i with
    | nil => exact panicsAt_nil fun st hstate => ⟨hstate, ok_ne_panic _⟩
    | cons ch s =>
      apply (command_panicsAt b ch s).bind
      intro next
      apply (runCall_panicsAt ih next.call).bind
      intro _
      exact ih next.rest

/-- The states that runs leave, one after the other, and the one they start from. -/
inductive Reachable (big : BigInt) : State → Prop
  | initial (extendedReg : Bool) (stdin : Option (List Char)) : Reachable big
    (.initial extendedReg stdin)
  | run {st : State} (fuel : Nat) (input : List Char) : Reachable big st →
      Reachable big (exec (evalDC big fuel input) st).2

theorem Reachable.ok (h : Reachable big st) : st.Ok := by
  induction h with
  | initial er s => exact ok_initial er s
  | run f i _ ih => exact (evalDC_panicsAt big f i _ ih).1

/-- **When dc panics.** From every reachable state, a run does not panic if and only if none of its
commands is a `|` whose operands have no result. -/
theorem evalDC_ne_panic_iff (big : BigInt) {st : State} (h : Reachable big st) (fuel : Nat)
    (input : List Char) : (exec (evalDC big fuel input) st).1 ≠ .error .panic ↔
      ∀ s ∈ steps big fuel input st, s.faulty = false := by
  have hp := (evalDC_panicsAt big fuel input st h.ok).2
  rw [ne_eq, hp]
  constructor
  · intro hn s hs
    exact Bool.eq_false_iff.mpr fun hf => hn ⟨s, hs, hf⟩
  · rintro hall ⟨s, hs, hf⟩
    rw [hall s hs] at hf
    cases hf

def inverse (x m : Int) : Int :=
  ((List.range m.natAbs).find? fun k => x * k % m = 1 % m).getD 0

/-- Remainders as they are in mathematics. -/
def euclid : BigInt where
  exp x y m := if y < 0 ∧ Int.gcd x m ≠ 1 then none
    else some ((if y < 0 then inverse x m else x) ^ y.natAbs % m)
  exp_eq_none x y m _ := by simp

theorem evalDC_ne_panic_iff_inverse : Reachable euclid (.initial false none) ∧
      (exec (evalDC euclid 12 "3 _1 7 |p".toList) (.initial false none)).1 ≠ .error .panic :=
  have h := .initial false none
  ⟨h, (evalDC_ne_panic_iff euclid h 12 _).mpr (by decide +kernel)⟩

/-- **There is no inverse of two modulo four.** -/
theorem evalDC_panics :
    (exec (evalDC euclid 12 "2 _1 4 |".toList) (.initial false none)).1 = .error .panic := by
  decide +kernel

end GoPosix.Dc
