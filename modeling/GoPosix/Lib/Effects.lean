import Mathlib.Data.List.Basic

/-!
# Programs with a state that can stop

`Prog σ` is the monad of programs that change a state `σ` and may stop: with an error that they
report, with a panic, or because the fuel of a loop or a recursion ran out. The state is kept when a
program stops.

`Triple P m Q` is the Hoare triple for such programs; its postcondition is about the outcome
together with the state, whether the program returns or stops. `Keeps I m` is the triple of an
invariant. There is one rule for each way to build a program, and a program is proved by applying
them along its text.
-/

namespace Effects

inductive Stop
  | error (msg : String)
  | panic
  | timeout
  deriving DecidableEq, Repr

abbrev Prog (σ : Type) := ExceptT Stop (StateM σ)

variable {σ α β : Type}

theorem ok_ne_panic (a : α) : (.ok a : Except Stop α) ≠ .error .panic := nofun

theorem error_ne_panic (m : String) : (.error (.error m) : Except Stop α) ≠ .error .panic := nofun

/-- Where the second part does not panic, the first one does if the whole does. -/
theorem bind_panic_iff {f : α → Except Stop β}
    (hf : ∀ a, f a ≠ .error .panic) : x >>= f = .error .panic ↔ x = .error .panic := by
  cases x with
  | error e =>
    constructor
    · rintro ⟨⟩
      rfl
    · rintro ⟨⟩
      rfl
  | ok a => exact iff_of_false (hf a) (ok_ne_panic a)

def exec (m : Prog σ α) (s : σ) : Except Stop α × σ := (ExceptT.run m).run s

@[simp] theorem exec_pure (a : α) (s : σ) : exec (pure a : Prog σ α) s = (.ok a, s) := rfl

@[simp] theorem exec_get (s : σ) : exec (get : Prog σ σ) s = (.ok s, s) := rfl

@[simp] theorem exec_modify (f : σ → σ) (s : σ) :
    exec (modify f : Prog σ PUnit) s = (.ok ⟨⟩, f s) := rfl

@[simp] theorem exec_liftM (x : Except Stop α) (s : σ) : exec (liftM x : Prog σ α) s = (x, s) := by
  cases x <;> rfl

theorem exec_bind (m : Prog σ α) (f : α → Prog σ β) (s : σ) : exec (m >>= f) s = match exec m s with
      | (.ok a, s') => exec (f a) s'
      | (.error e, s') => (.error e, s') := by
  simp only [exec, ExceptT.run_bind, StateT.run_bind]
  rcases (ExceptT.run m).run s with ⟨_ | a, s'⟩ <;> rfl

/-- The program, and then `f` on the state, whether the program returns or stops. -/
def finally_ (m : Prog σ α) (f : σ → σ) : Prog σ α :=
  ExceptT.mk (StateT.mk fun s => let o := exec m s; (o.1, f o.2))

/-- A sequence that returns has two parts that return. -/
theorem exec_bind_ok {m : Prog σ α} {f : α → Prog σ β} (h : exec (m >>= f) s = (.ok b, s')) :
    ∃ a s₁, exec m s = (.ok a, s₁) ∧ exec (f a) s₁ = (.ok b, s') := by
  rw [exec_bind] at h
  rcases hm : exec m s with ⟨stop | a, s₁⟩
  · simp [hm] at h
  · rw [hm] at h
    exact ⟨a, s₁, rfl, h⟩

@[simp] theorem exec_finally (m : Prog σ α) (f : σ → σ) (s : σ) :
    exec (finally_ m f) s = ((exec m s).1, f (exec m s).2) := rfl

/-- The program with the message of its error changed by `f`. -/
def mapError (f : String → String) (m : Prog σ α) : Prog σ α :=
  ExceptT.mk (StateT.mk fun s =>
    match exec m s with
    | (.error (.error msg), s') => (.error (.error (f msg)), s')
    | o => o)

theorem exec_mapError (f : String → String) (m : Prog σ α) (s : σ) :
    exec (mapError f m) s = match exec m s with
      | (.error (.error msg), s') => (.error (.error (f msg)), s')
      | o => o := rfl

/-- The program, whose error is not looked at. A panic and the end of the fuel go through. -/
def ignoreError (m : Prog σ Unit) : Prog σ Unit :=
  ExceptT.mk (StateT.mk fun s =>
    match exec m s with
    | (.error (.error _), s') => (.ok (), s')
    | o => o)

theorem exec_ignoreError (m : Prog σ Unit) (s : σ) : exec (ignoreError m) s = match exec m s with
      | (.error (.error _), s') => (.ok (), s')
      | o => o := rfl

/-! ## Triples -/

/-- Started in a state with `P`, the program ends with an outcome and a state that satisfy `Q`. -/
def Triple (P : σ → Prop) (m : Prog σ α) (Q : Except Stop α → σ → Prop) : Prop :=
  ∀ s, P s → Q (exec m s).1 (exec m s).2

theorem Triple.consequence (h : Triple P m Q) (hP : ∀ s, P' s → P s)
    (hQ : ∀ r s, Q r s → Q' r s) : Triple P' m Q' := fun s hs => hQ _ _ (h s (hP s hs))

theorem triple_modify
    (h : ∀ s, P s → Q (.ok ⟨⟩) (f s)) : Triple P (modify f) Q := h

/-- **Sequencing.** What holds when the first program returns is what the second one starts from;
when the first one stops, the second does not run. -/
theorem triple_bind {R : α → σ → Prop} {Q : Except Stop β → σ → Prop}
    (hm : Triple P m fun r s => match r with | .ok a => R a s | .error e => Q (.error e) s)
    (hf : ∀ a, Triple (R a) (f a) Q) : Triple P (m >>= f) Q := by
  intro s hs
  have h := hm s hs
  rw [exec_bind]
  generalize exec m s = o at h
  obtain ⟨_ | a, s'⟩ := o
  · exact h
  · exact hf a s' h

/-! ## Invariants -/

/-- The program keeps `I`, however it ends. -/
def Keeps (I : σ → Prop) (m : Prog σ α) : Prop := Triple I m fun _ => I

theorem keeps_modify (h : ∀ s, I s → I (f s)) : Keeps I (modify f : Prog σ PUnit) := h

theorem keeps_bind (hm : Keeps I m) (hf : ∀ a, Keeps I (f a)) : Keeps I (m >>= f) :=
  triple_bind (hm.consequence (fun _ h => h) fun r _ h => by cases r <;> exact h) hf

/-! ## Steps

A program can be given the list of its steps, which depends on the state it starts in. -/

section Steps

variable {τ : Type}

/-- The steps of `m`, and behind them those of what comes next if `m` returns. -/
def andThen (m : Prog σ α) (steps : σ → List τ) (next : α → σ → List τ) (s : σ) : List τ :=
  steps s ++ match exec m s with
    | (.ok a, s') => next a s'
    | (.error _, _) => []

/-- The program keeps `I`, and panics if and only if one of its steps is bad. -/
def PanicsAt (I : σ → Prop) (bad : τ → Bool) (m : Prog σ α) (steps : σ → List τ) : Prop :=
  ∀ s, I s → I (exec m s).2 ∧ ((exec m s).1 = .error .panic ↔ ∃ t ∈ steps s, bad t = true)

theorem panicsAt_nil {m : Prog σ α} (h : ∀ s, I s → I (exec m s).2 ∧ (exec m s).1 ≠ .error .panic) :
    PanicsAt I bad m fun _ => [] :=
  fun s hs => ⟨(h s hs).1, iff_of_false (h s hs).2 fun ⟨_, ht, _⟩ => absurd ht List.not_mem_nil⟩

/-- **Sequencing.** A program that has panicked has no steps behind that. -/
theorem PanicsAt.bind
    (hm : PanicsAt I bad m steps)
    (hf : ∀ a, PanicsAt I bad (f a) (next a)) : PanicsAt I bad (m >>= f)
      (andThen m steps next) := by
  intro s hs
  obtain ⟨hI, hp⟩ := hm s hs
  rw [exec_bind, andThen]
  generalize exec m s = o at hI hp
  obtain ⟨e | a, s'⟩ := o
  · refine ⟨hI, ?_⟩
    rw [List.append_nil, ← hp]
    constructor <;> rintro ⟨⟩ <;> rfl
  · -- `m` has returned, so that none of its own steps is bad
    have hn : ¬∃ t ∈ steps s, bad t = true := fun h => absurd (hp.mpr h) (ok_ne_panic a)
    obtain ⟨hI', hp'⟩ := hf a s' hI
    refine ⟨hI', hp'.trans ⟨?_, ?_⟩⟩
    · rintro ⟨t, ht, hb⟩
      exact ⟨t, List.mem_append_right _ ht, hb⟩
    · rintro ⟨t, ht, hb⟩
      rcases List.mem_append.mp ht with ht | ht
      · exact absurd ⟨t, ht, hb⟩ hn
      · exact ⟨t, ht, hb⟩

theorem PanicsAt.ignoreError (h : PanicsAt I bad m steps) :
    PanicsAt I bad (ignoreError m) steps := by
  intro s hs
  obtain ⟨hI, hp⟩ := h s hs
  rw [exec_ignoreError]
  generalize exec m s = o at hI hp
  obtain ⟨(msg | _ | _) | a, s'⟩ := o
  · refine ⟨hI, ?_⟩
    rw [← hp]
    exact iff_of_false (ok_ne_panic _) (error_ne_panic msg)
  · exact ⟨hI, hp⟩
  · exact ⟨hI, hp⟩
  · exact ⟨hI, hp⟩

end Steps

end Effects
