import GoPosix.Printf.Basic

/-!
# Which arguments printf takes

What a pass asks for is read off the format alone (`scan`): one request for every `*` and for every
specifier that takes an argument. Request number `n` is given the argument `n % len(args)`, so every
argument is taken exactly once if and only if there are as many requests as arguments. A pass over a
format without requests does not move the index, and then the loop does not end.
-/

namespace GoPosix.Printf

open Bytes Common List

/-! ## The index -/

/-- What request number `n` is given. -/
def cursor (args : List Bytes) (n : Nat) : Option Nat :=
  if args = [] then none else some (n % args.length)

def argAt (args : List Bytes) (n : Nat) : Bytes :=
  if args = [] then [] else args.getD (n % args.length) []

/-- The requests so far were numbered through, and the index is their number. -/
structure Inv (args : List Bytes) (st : State) : Prop where
  taken : st.taken = (List.range st.taken.length).map (cursor args)
  argIdx : st.argIdx = if args = [] then 0 else st.taken.length

theorem inv_start (args : List Bytes) : Inv args .start := ⟨rfl, (ite_self 0).symm⟩

@[simp] theorem formatError_taken (st : State) (msg d : Bytes) :
    (st.formatError msg d).taken = st.taken := by
  unfold State.formatError
  split <;> rfl

@[simp] theorem formatError_argIdx (st : State) (msg d : Bytes) :
    (st.formatError msg d).argIdx = st.argIdx := by
  unfold State.formatError
  split <;> rfl

/-- **Requests**: from `st` to `st'` there were `n` of them. -/
structure Asks (args : List Bytes) (n : Nat) (st st' : State) : Prop where
  inv : Inv args st → Inv args st'
  length : st'.taken.length = st.taken.length + n

section

variable {args : List Bytes} {n m : Nat}

theorem Asks.refl (st : State) : Asks args 0 st st := ⟨id, rfl⟩

theorem Asks.trans (h : Asks args n st st') (h' : Asks args m st' st'') :
    Asks args (n + m) st st'' :=
  ⟨h'.inv ∘ h.inv, by rw [h'.length, h.length, Nat.add_assoc]⟩

theorem Asks.congr (h : Asks args n st st') (ht : st''.taken = st'.taken)
    (hi : st''.argIdx = st'.argIdx) : Asks args n st st'' := by
  refine ⟨fun hin => ?_, by rw [ht, h.length]⟩
  obtain ⟨h1, h2⟩ := h.inv hin
  exact ⟨by rw [ht]; exact h1, by rw [hi, ht]; exact h2⟩

theorem Asks.write (h : Asks args n st st') (text : Bytes) : Asks args n st (st'.write text) :=
  h.congr rfl rfl

theorem Asks.formatError (h : Asks args n st st') (msg d : Bytes) :
    Asks args n st (st'.formatError msg d) :=
  h.congr (formatError_taken ..) (formatError_argIdx ..)

theorem asks_nextArg (args : List Bytes) (st : State) : Asks args 1 st (nextArg args st).2 := by
  unfold nextArg
  by_cases hargs : args = []
  · rw [if_pos hargs]
    refine ⟨fun hi => ⟨?_, ?_⟩, by simp⟩
    · rw [length_append, length_singleton, range_succ, map_append, ← hi.taken]
      simp [cursor, hargs]
    · simpa [hargs] using hi.argIdx
  · rw [if_neg hargs]
    refine ⟨fun hi => ?_, by simp⟩
    have hid := hi.argIdx
    refine ⟨?_, ?_⟩
    · rw [length_append, length_singleton, range_succ, map_append, ← hi.taken]
      simp [cursor, hargs, hid]
    · simp [hargs, hid]

theorem nextArg_fst (h : Inv args st) : (nextArg args st).1 = argAt args st.taken.length := by
  have hi := h.argIdx
  unfold nextArg argAt
  split_ifs with hargs
  · rfl
  · rw [if_neg hargs] at hi
    rw [hi]

end

/-! ## What a format asks for -/

/-- The request of a specifier, if it takes an argument: whether the program reads an integer. -/
def convRequests (conv : UInt8) : List Bool :=
  if conv = 100 ∨ conv = 105 then [true]
  else if conv = 111 ∨ conv = 117 ∨ conv = 120 ∨ conv = 88 ∨ conv = 102 ∨ conv = 70 ∨ conv = 101 ∨
    conv = 69 ∨
    conv = 103 ∨ conv = 71 ∨ conv = 115 ∨ conv = 99 ∨ conv = 98 then [false]
  else []

def starRequests (field : Option Field) : List Bool := if field = some .star then [false] else []

/-- How a pass ends: at the end of the format, at a `\c`, or at a specification that is invalid. -/
inductive End
  | more
  | stop
  | invalid
  deriving DecidableEq

def End.status : End → Status
  | .more => .more
  | _ => .stop

/-- A specifier the program knows. -/
def convEnd (conv : UInt8) : End := if convRequests conv ≠ [] ∨ conv = 37 then .more else .invalid

def Spec.requests (spec : Spec) : List Bool :=
  starRequests (some spec.width) ++ starRequests spec.precision ++
    (spec.conv.map convRequests).getD []

def Spec.finish (spec : Spec) : End := (spec.conv.map convEnd).getD .invalid

def scan : (fuel : Nat) → (format : Bytes) → List Bool × End
  | 0, _ | _ + 1, [] => ([], .more)
  | fuel + 1, c :: f =>
    if c = 92 ∧ f.head? = some 99 then ([], .stop)
    else if c ≠ 37 then scan fuel f
    else if f = [] then ([], .invalid)
    else if f.head? = some 37 then scan fuel f.tail
    else if (parseSpec f).1.finish = .more then
      ((parseSpec f).1.requests ++ (scan fuel (parseSpec f).2).1, (scan fuel (parseSpec f).2).2)
    else ((parseSpec f).1.requests, (parseSpec f).1.finish)

def requests (format : Bytes) : List Bool :=
  (scan (expandEscapes .format format).length (expandEscapes .format format)).1

def finish (format : Bytes) : End :=
  (scan (expandEscapes .format format).length (expandEscapes .format format)).2

/-! ## A pass -/

/-- **What is known after a step** that makes the requests `rs` and ends with `e`: it has panicked
at an integer that is a double quote, or there was none, and the requests were made. -/
def Outcome (args : List Bytes) (rs : List Bool) (e : End) (st : State) (res : Status × State) :
    Prop :=
  (res.1 = .panic ∧ ∃ i, rs[i]? = some true ∧ argAt args (st.taken.length + i) = [34]) ∨
  (res.1 = e.status ∧ (∀ i, rs[i]? = some true → argAt args (st.taken.length + i) ≠ [34]) ∧
    Asks args rs.length st res.2 ∧ (e = .invalid → res.2.hadErr = true))

section

variable {args : List Bytes}

theorem Outcome.of_plain (hs : res.1 = e.status) (hrs : true ∉ rs)
    (hasks : Asks args rs.length st res.2)
    (he : e = .invalid → res.2.hadErr = true) : Outcome args rs e st res := by
  refine .inr ⟨hs, fun i hi => ?_, hasks, he⟩
  exact absurd (mem_of_getElem? hi) hrs

theorem Outcome.append (h : Outcome args rs .more st (.more, st'))
    (h' : Outcome args rs' e st' res) :
    Outcome args (rs ++ rs') e st res := by
  obtain ⟨hp, -⟩ | ⟨-, hq, hasks, -⟩ := h
  · cases hp
  rcases h' with ⟨hp, i, hi, harg⟩ | ⟨hs, hq', hasks', he⟩
  · refine .inl ⟨hp, rs.length + i, ?_, ?_⟩
    · rw [List.getElem?_append_right (Nat.le_add_right _ _), Nat.add_sub_cancel_left]
      exact hi
    · rwa [← Nat.add_assoc, ← hasks.length]
  · refine .inr ⟨hs, fun i hi => ?_, ?_, he⟩
    · rcases Nat.lt_or_ge i rs.length with hlt | hge
      · rw [List.getElem?_append_left hlt] at hi
        exact hq i hi
      · rw [List.getElem?_append_right hge] at hi
        have hne := hq' _ hi
        rwa [hasks.length, Nat.add_assoc, Nat.add_sub_cancel' hge] at hne
    · rw [length_append]
      exact hasks.trans hasks'

theorem Outcome.after_asks (hrs : true ∉ rs) (hasks : Asks args rs.length st st')
    (h : Outcome args rs' e st' res) : Outcome args (rs ++ rs') e st res :=
  Outcome.append (.of_plain rfl hrs hasks nofun) h

theorem Outcome.append_panic (h : Outcome args rs .more st (.panic, st')) :
    Outcome args (rs ++ rs') e st (.panic, st') := by
  obtain ⟨-, i, hi, harg⟩ | ⟨hs, -⟩ := h
  · refine .inl ⟨rfl, i, ?_, harg⟩
    rw [List.getElem?_append_left (List.getElem?_eq_some_iff.mp hi).1]
    exact hi
  · cases hs

end

section

variable {F : Type} (lib : Numbers F) (args : List Bytes)

theorem plainInt_eq_none : plainInt lib arg = none ↔ arg = [34] := by
  constructor
  · intro h
    unfold plainInt at h
    split at h
    · next hh =>
      cases arg with
      | nil => cases hh
      | cons c arg =>
        cases arg with
        | nil => rw [Option.some.inj hh]
        | cons d arg =>
          dsimp only [List.getElem?_cons_succ, List.getElem?_cons_zero] at h
          split at h <;> cases h
    · dsimp only at h
      split_ifs at h
  · rintro rfl
    rfl

theorem intArg_eq_none : intArg lib arg = none ↔ arg = [34] := by
  unfold intArg
  split
  · next hq =>
    refine iff_of_false (fun h => ?_) ?_
    · split at h
      · cases h
      · cases h
    · rintro rfl
      exact absurd hq.1 (by decide)
  · exact plainInt_eq_none lib

theorem asks_doNumber (parse : Bytes → Option V) (zero : V) (print : V → Bytes) (st : State) :
    Asks args 1 st (doNumber args parse zero print st) := by
  have hn := asks_nextArg args st
  unfold doNumber
  dsimp only
  split_ifs
  · exact (hn.formatError _ _).write _
  · exact (hn.formatError _ _).write _
  · exact hn.write _

theorem outcome_doIntConv (h : Inv args st) (c : UInt8) (fl : Bytes) (width : Int)
    (p : Option Int) :
    Outcome args [true] .more st (doIntConv lib args c fl width p st) := by
  have hn := asks_nextArg args st
  have hfs := nextArg_fst h
  unfold doIntConv
  dsimp only
  cases harg : intArg lib (nextArg args st).1 with
  | none =>
    rw [intArg_eq_none, hfs] at harg
    exact .inl ⟨rfl, 0, rfl, harg⟩
  | some r =>
    refine .inr ⟨rfl, fun i hi hq => ?_, ?_, nofun⟩
    · obtain rfl : i = 0 := by simpa using (List.getElem?_eq_some_iff.mp hi).1
      rw [Nat.add_zero, ← hfs] at hq
      rw [hq] at harg
      cases harg
    · apply Asks.write
      cases r.2 with
      | none => exact hn
      | some d => exact hn.formatError _ _

/-- One conversion asks for what its letter says. -/
theorem outcome_convert (h : Inv args st) (c : UInt8) (fl : Bytes) (width : Int)
    (p : Option Int) :
    Outcome args (convRequests c) (convEnd c) st (convert lib args c fl width p st) := by
  have hn := asks_nextArg args st
  -- a specifier that takes an argument and reads no integer
  have hp : convRequests c = [false] → ∀ st', Asks args 1 st st' →
      Outcome args (convRequests c) (convEnd c) st (.more, st') := by
    intro hc st' hasks
    rw [convEnd, hc]
    exact .of_plain rfl (by simp) hasks nofun
  unfold convert
  split_ifs with hi hu hfloat hs hchar hpercent hb
  · have hc : convRequests c = [true] := if_pos hi
    rw [convEnd, hc]
    exact outcome_doIntConv lib args h ..
  · exact hp (by rcases hu with rfl | rfl | rfl | rfl <;> rfl) _ (asks_doNumber ..)
  · exact hp (by rcases hfloat with rfl | rfl | rfl | rfl | rfl | rfl <;> rfl) _ (asks_doNumber ..)
  · exact hp (by rw [hs]; rfl) _ (hn.write _)
  · exact hp (by rw [hchar]; rfl) _ (hn.write _)
  · rw [hpercent]
    exact .of_plain rfl (by decide) ((Asks.refl st).write _) nofun
  · exact hp (by rw [hb]; rfl) _ (hn.write _)
  · have hc : convRequests c = [] := by
      unfold convRequests
      rw [if_neg hi, if_neg (by grind)]
    have he : convEnd c = .invalid := by simp [convEnd, hc, hpercent]
    rw [hc, he]
    exact .of_plain rfl (by simp) ((Asks.refl st).formatError _ _) fun _ => rfl

theorem asks_resolve (field : Field) (st : State) :
    Asks args (starRequests (some field)).length st (resolve args field st).2 := by
  cases field with
  | star => exact asks_nextArg args st
  | number n => exact Asks.refl st

theorem asks_resolvePrecision (field : Option Field) (st : State) :
    Asks args (starRequests field).length st (resolvePrecision args field st).2 := by
  cases field with
  | none => exact Asks.refl st
  | some field => exact asks_resolve args field st

theorem true_notMem_starRequests (field : Option Field) : true ∉ starRequests field := by
  unfold starRequests
  split <;> simp

theorem outcome_spec (h : Inv args st) (spec : Spec) :
    Outcome args spec.requests spec.finish st (spec.run lib args st) := by
  have hw := asks_resolve args spec.width st
  have hp := asks_resolvePrecision args spec.precision (resolve args spec.width st).2
  rw [Spec.requests, append_assoc]
  apply Outcome.after_asks (true_notMem_starRequests _) hw
  apply Outcome.after_asks (true_notMem_starRequests _) hp
  unfold Spec.run Spec.finish
  cases spec.conv with
  | none => exact .of_plain rfl (by simp) ((Asks.refl _).formatError _ _) fun _ => rfl
  | some c => exact outcome_convert lib args (hp.inv (hw.inv h)) ..

/-- **What one pass does.** -/
theorem outcome_pass (fuel : Nat) : ∀ (format : Bytes) {st : State}, Inv args st →
    Outcome args (scan fuel format).1 (scan fuel format).2 st (pass lib args fuel format st) := by
  have he : ∀ st : State, Outcome args [] .more st (.more, st) := fun st =>
    .of_plain rfl (by simp) (Asks.refl st) nofun
  induction fuel with
  | zero => exact fun _ st _ => he st
  | succ fuel ih =>
    intro format st h
    have hw : ∀ text f,
        Outcome args (scan fuel f).1 (scan fuel f).2 st (pass lib args fuel f (st.write text)) := by
      intro text f
      have hasks : Asks args ([] : List Bool).length st (st.write text) := (Asks.refl st).write text
      exact Outcome.after_asks not_mem_nil hasks (ih f (hasks.inv h))
    cases format with
    | nil => exact he st
    | cons c f =>
      rw [scan, pass]
      split_ifs with hst hplain hb hp hm
      · exact .of_plain rfl (by simp) (Asks.refl st) nofun
      · exact hw [c] f
      · exact .of_plain rfl (by simp) ((Asks.refl st).formatError _ _) fun _ => rfl
      · exact hw [37] f.tail
      · have hs := outcome_spec lib args h (parseSpec f).1
        rw [hm] at hs
        generalize (parseSpec f).1.run lib args st = res at hs ⊢
        obtain ⟨status, st'⟩ := res
        have hc := hs
        obtain ⟨rfl, -⟩ | ⟨rfl, -, hasks, -⟩ := hc
        · exact hs.append_panic
        · exact hs.append (ih _ (hasks.inv h))
      · have hs := outcome_spec lib args h (parseSpec f).1
        generalize (parseSpec f).1.run lib args st = res at hs ⊢
        generalize (parseSpec f).1.finish = e at hs hm ⊢
        obtain ⟨status, st'⟩ := res
        have hc := hs
        obtain ⟨rfl, -⟩ | ⟨rfl, -⟩ := hc
        · exact hs
        · cases e with
          | more => exact absurd rfl hm
          | stop => exact hs
          | invalid => exact hs

end

/-! ## The loop -/

/-- No argument makes the program panic, if the requests are `rs` again and again. -/
def NoQuote (args : List Bytes) (rs : List Bool) : Prop :=
  ∀ i < args.length, rs[i % rs.length]? = some true → args[i]? ≠ some [34]

theorem argAt_of_lt (h : i < args.length) : args[i]? = some (argAt args i) := by
  have hne : args ≠ [] := length_pos_iff.mp (Nat.zero_lt_of_lt h)
  rw [argAt, if_neg hne, Nat.mod_eq_of_lt h, getD_eq_getElem?_getD, List.getElem?_eq_getElem h,
    Option.getD_some]

/-- The requests of the pass number `q` are those from `q * rs.length` on. -/
theorem NoQuote.pass (hq : NoQuote args rs)
    (hle : (q + 1) * rs.length ≤ args.length) :
    ¬ ∃ i, rs[i]? = some true ∧ argAt args (q * rs.length + i) = [34] := by
  rintro ⟨i, hi, harg⟩
  have hlt : i < rs.length := (List.getElem?_eq_some_iff.mp hi).1
  rw [Nat.succ_mul] at hle
  apply hq (q * rs.length + i) (by omega)
  · rwa [Nat.mul_add_mod_self_right, Nat.mod_eq_of_lt hlt]
  · rw [argAt_of_lt (by omega), harg]

section

variable {F : Type} (lib : Numbers F) {args : List Bytes}
  (hf : f ≠ []) (hscan : scan f.length f = (rs, e))

include hf hscan

/-- **One turn of the loop.** -/
theorem loop_step (hi : Inv args st) :
    ∃ st', ((∃ i, rs[i]? = some true ∧ argAt args (st.taken.length + i) = [34]) ∧
      ∀ fuel, loop lib args f (fuel + 1) st = (.panicked, st')) ∨
      ((∀ i, rs[i]? = some true → argAt args (st.taken.length + i) ≠ [34]) ∧
        Asks args rs.length st st' ∧
        (e = .invalid → st'.hadErr = true) ∧ ∀ fuel, loop lib args f (fuel + 1) st =
          if e ≠ .more ∨ args.length ≤ st'.argIdx then (.done, st')
              else loop lib args f fuel st') := by
  have hp := outcome_pass lib args f.length f hi
  rw [hscan] at hp
  rcases hr : pass lib args f.length f st with ⟨status, st'⟩
  rw [hr] at hp
  refine ⟨st', ?_⟩
  rcases hp with ⟨rfl, hpanic⟩ | ⟨rfl, hq, hasks, he⟩
  · refine .inl ⟨hpanic, fun fuel => ?_⟩
    rw [loop, if_neg hf, hr]
  refine .inr ⟨hq, hasks, he, fun fuel => ?_⟩
  rw [loop, if_neg hf, hr]
  cases e with
  | more => simp [End.status]
  | stop => simp [End.status]
  | invalid => simp [End.status]

/-- **What a run that ends has asked for**: whole passes, one if there is a `\c`, and no integer was
a double quote. -/
theorem loop_done (fuel : Nat) :
    ∀ {q : Nat} {st st' : State}, Inv args st → st.taken.length = q * rs.length →
    loop lib args f fuel st = (.done, st') → st'.hadErr = false →
    Inv args st' ∧ (∀ i, q * rs.length ≤ i → i < st'.taken.length → rs[i % rs.length]? = some true →
      argAt args i ≠ [34]) ∧
      (e = .stop ∧ st'.taken.length = (q + 1) * rs.length ∨ e = .more ∧
          ∃ p, st'.taken.length = p * rs.length) := by
  induction fuel with
  | zero =>
    intro q st st' _ _ hl
    cases hl
  | succ fuel ih =>
    intro q st st' hinv hq hl he
    obtain ⟨s, ⟨-, hp⟩ | ⟨hquiet, hasks, hin, hstep⟩⟩ := loop_step lib hf hscan hinv
    · rw [hp] at hl
      cases hl
    have ht : s.taken.length = (q + 1) * rs.length := by rw [hasks.length, hq, Nat.succ_mul]
    -- the requests of this pass
    have hthere : ∀ i, q * rs.length ≤ i → i < (q + 1) * rs.length →
      rs[i % rs.length]? = some true →
        argAt args i ≠ [34] := by
      intro i hle hlt hi
      rw [Nat.succ_mul] at hlt
      have hmore : i % rs.length = i - q * rs.length := by
        rw [← Nat.sub_add_cancel hle, Nat.add_mul_mod_self_right, Nat.mod_eq_of_lt (by omega),
          Nat.add_sub_cancel]
      have hne := hquiet (i - q * rs.length) (hmore ▸ hi)
      rwa [hq, Nat.add_sub_cancel' hle] at hne
    rw [hstep] at hl
    split_ifs at hl with hs
    · cases hl
      refine ⟨hasks.inv hinv, by rwa [ht], ?_⟩
      cases e with
      | more => exact .inr ⟨rfl, q + 1, ht⟩
      | stop => exact .inl ⟨rfl, ht⟩
      | invalid =>
        rw [hin rfl] at he
        cases he
    · obtain ⟨hend, -⟩ := not_or.mp hs
      obtain ⟨hinv', hquiet', hlen⟩ := ih (hasks.inv hinv) ht hl he
      refine ⟨hinv', fun i hle hlt hi => ?_, ?_⟩
      · rcases Nat.lt_or_ge i ((q + 1) * rs.length) with hn | hlate
        · exact hthere i hle hn hi
        · exact hquiet' i hlate hlt hi
      · rcases hlen with ⟨hs', -⟩ | hm
        · rw [hs'] at hend
          exact absurd (by decide) hend
        · exact .inr hm

variable (hargs : args ≠ [])

include hargs

/-- **The arguments are consumed** if they are as many as the requests of some passes. -/
theorem loop_consumes (hrs : 0 < rs.length) (he : e = .more) (hquote : NoQuote args rs) (r : Nat) :
    ∀ {q : Nat} {st : State}, Inv args st → st.taken.length = q * rs.length →
      args.length = (q + (r + 1)) * rs.length →
      ∃ st', loop lib args f (r + 1) st = (.done, st') ∧ Inv args st' ∧
          st'.taken.length = args.length := by
  -- a pass that the arguments suffice for
  have hpass : ∀ {q : Nat} {st : State}, Inv args st → st.taken.length = q * rs.length →
      (q + 1) * rs.length ≤ args.length → ∃ st', Inv args st' ∧
        st'.taken.length = (q + 1) * rs.length ∧
        ∀ fuel, loop lib args f (fuel + 1) st =
          if args.length ≤ (q + 1) * rs.length then (.done, st') else loop lib args f fuel st' := by
    intro q st hi hq hle
    obtain ⟨st', ⟨hp, -⟩ | ⟨-, hasks, -, hl⟩⟩ := loop_step lib hf hscan hi
    · rw [hq] at hp
      exact absurd hp (hquote.pass hle)
    have ht : st'.taken.length = (q + 1) * rs.length := by rw [hasks.length, hq, Nat.succ_mul]
    have hid := (hasks.inv hi).argIdx
    rw [if_neg hargs, ht] at hid
    refine ⟨st', hasks.inv hi, ht, fun fuel => ?_⟩
    simp [hl, he, hid]
  induction r with
  | zero =>
    intro q st hi hq hlen
    obtain ⟨st', hi', ht, hl⟩ := hpass hi hq hlen.ge
    exact ⟨st', by rw [hl, if_pos hlen.le], hi', ht.trans hlen.symm⟩
  | succ r ih =>
    intro q st hi hq hlen
    have hm : (q + 1) * rs.length < args.length := by
      rw [hlen]
      exact Nat.mul_lt_mul_of_pos_right (by omega) hrs
    obtain ⟨st', hi', ht, hl⟩ := hpass hi hq hm.le
    rw [hl, if_neg hm.not_ge]
    apply ih hi' ht
    rw [hlen]
    congr 1
    omega

end

/-! ## Every argument exactly once -/

section

variable {F : Type} (lib : Numbers F) (args : List Bytes) (format : Bytes)

/-- No conversion error occurs, however long the program runs. -/
def NoError : Prop := ∀ fuel, (run lib args format fuel).2.hadErr = false

/-- **What the arguments are to be taken as**: the program returns, every argument has been taken
once and in order, and every request behind the last argument has been given the empty string. -/
def Consumes : Prop :=
  ∃ fuel st, run lib args format fuel = (.done, st) ∧
    ∃ n, st.taken = (List.range args.length).map some ++ List.replicate n none

/-- The requests of whole passes are as many as the arguments, or those of the one pass if there is
a `\c`. -/
def Fits : Prop :=
  finish format = .more ∧ 0 < (requests format).length ∧ (requests format).length ∣ args.length ∨
    finish format = .stop ∧ (requests format).length = args.length

theorem taken_nil (h : Inv [] st) : ∃ n, st.taken = List.replicate n none := by
  refine ⟨st.taken.length, ?_⟩
  conv => lhs; rw [h.taken]
  show (List.range _).map (fun _ => none) = _
  rw [map_const', length_range]

variable {args}

theorem taken_eq (hargs : args ≠ []) (h : Inv args st) :
    (∃ n, st.taken = (List.range args.length).map some ++ List.replicate n none) ↔
      st.taken.length = args.length := by
  have hc : ∀ i, cursor args i = some (i % args.length) := fun _ => if_neg hargs
  constructor
  · rintro ⟨n, ht⟩
    have hn : none ∉ st.taken := by
      rw [h.taken, mem_map]
      rintro ⟨i, -, hi⟩
      rw [hc] at hi
      cases hi
    cases n with
    | zero =>
      rw [ht]
      simp
    | succ n =>
      rw [ht] at hn
      exact absurd (by simp) hn
  · intro hl
    refine ⟨0, ?_⟩
    rw [replicate_zero, append_nil, h.taken, hl]
    apply map_congr_left
    intro i hi
    rw [hc, Nat.mod_eq_of_lt (mem_range.mp hi)]

theorem consumes_nil : Consumes lib [] format := by
  by_cases hf : expandEscapes .format format = []
  · refine ⟨1, .start, ?_, 0, rfl⟩
    rw [run, loop, if_pos hf]
  · obtain ⟨st', ⟨⟨i, -, hq⟩, -⟩ | ⟨-, hasks, -, hl⟩⟩ :=
      loop_step lib hf (show scan _ _ = (requests format, finish format) from rfl) (inv_start [])
    · cases hq
    · refine ⟨1, st', ?_, taken_nil (hasks.inv (inv_start []))⟩
      rw [run, hl, if_pos (.inr (Nat.zero_le _))]

/-- **Necessity**: if every argument is used once, the requests fit. -/
theorem fits_of_consumes (hargs : args ≠ []) (hnoError : NoError lib args format)
    (h : Consumes lib args format) :
    Fits args format ∧ NoQuote args (requests format) := by
  obtain ⟨fuel, st, hr, ht⟩ := h
  have hp := length_pos_iff.mpr hargs
  by_cases hf : expandEscapes .format format = []
  · -- nothing is asked for
    have hs : st = .start := by
      cases fuel with
      | zero => cases hr
      | succ fuel =>
        rw [run, loop, if_pos hf] at hr
        exact (Prod.mk.inj hr).2.symm
    rw [hs] at ht
    have hl := (taken_eq hargs (inv_start args)).mp ht
    exact absurd hl hp.ne
  · have herr : st.hadErr = false := by
      have := hnoError fuel
      rwa [hr] at this
    obtain ⟨hinv, hq, he⟩ := loop_done lib hf
      (show scan _ _ = (requests format, finish format) from rfl) fuel (inv_start args)
      (Nat.zero_mul _).symm hr herr
    have hl := (taken_eq hargs hinv).mp ht
    rw [hl] at he hq
    refine ⟨?_, fun i hi hin => ?_⟩
    · rcases he with ⟨hst, hc⟩ | ⟨hm, p, hc⟩
      · exact .inr ⟨hst, by rw [hc, Nat.one_mul]⟩
      · refine .inl ⟨hm, Nat.pos_of_ne_zero fun hzero => ?_, p, by rw [hc, Nat.mul_comm]⟩
        rw [hzero] at hc
        omega
    · rw [argAt_of_lt hi]
      exact fun hsome => hq i (by omega) hi hin (Option.some.inj hsome)

/-- **Sufficiency**: if the requests fit, every argument is used once. -/
theorem consumes_of_fits (hargs : args ≠ []) (hfits : Fits args format)
    (hq : NoQuote args (requests format)) : Consumes lib args format := by
  have hpos := length_pos_iff.mpr hargs
  have hscan : scan _ _ = (requests format, finish format) := rfl
  have hf : expandEscapes .format format ≠ [] := by
    intro hf
    rw [Fits, finish, requests, hf] at hfits
    rcases hfits with ⟨-, hlt, -⟩ | ⟨hs, -⟩
    · cases hlt
    · cases hs
  rcases hfits with ⟨hm, hrs, p, hp⟩ | ⟨hs, hlen⟩
  · obtain ⟨r, rfl⟩ : ∃ r, p = r + 1 := by
      refine Nat.exists_eq_succ_of_ne_zero fun hzero => ?_
      rw [hp, hzero] at hpos
      exact Nat.lt_irrefl _ hpos
    obtain ⟨st, hl, hi, ht⟩ := loop_consumes lib hf hscan hargs hrs hm hq r
      (inv_start args) (Nat.zero_mul _).symm (by rw [hp, Nat.zero_add, Nat.mul_comm])
    exact ⟨r + 1, st, hl, (taken_eq hargs hi).mpr ht⟩
  · obtain ⟨st', ⟨hpanic, -⟩ | ⟨-, hasks, -, hl⟩⟩ := loop_step lib hf hscan (inv_start args)
    · have hfirst := hq.pass (by rw [hlen, Nat.one_mul])
      rw [Nat.zero_mul] at hfirst
      exact absurd hpanic hfirst
    · refine ⟨1, st', ?_, (taken_eq hargs (hasks.inv (inv_start args))).mpr ?_⟩
      · rw [run, hl, if_pos (.inl (by rw [hs]; decide))]
      · rw [hasks.length, hlen]
        exact Nat.zero_add _

/-- **When every argument is taken exactly once.** -/
theorem consumes_iff (hnoError : NoError lib args format) :
    Consumes lib args format ↔ args = [] ∨ Fits args format ∧ NoQuote args (requests format) := by
  constructor
  · intro h
    by_cases hargs : args = []
    · exact .inl hargs
    · exact .inr (fits_of_consumes lib format hargs hnoError h)
  · rintro (rfl | ⟨hfits, hq⟩)
    · exact consumes_nil lib format
    · by_cases hargs : args = []
      · subst hargs
        exact consumes_nil lib format
      · exact consumes_of_fits lib format hargs hfits hq

end

/-- Numbers are not needed for strings. -/
def noNumbers : Numbers Unit where
  parseInt _ := none
  parseUint _ := none
  parseFloat _ := none
  zero := ()
  sprintfInt _ _ := []
  sprintfUint _ _ := []
  sprintfFloat _ _ := []

theorem consumes_iff_twice :
    NoError noNumbers [str "a", str "b", str "c", str "d"] (str "%s %s\n") ∧
      Consumes noNumbers [str "a", str "b", str "c", str "d"] (str "%s %s\n") := by
  have hnoError : NoError noNumbers [str "a", str "b", str "c", str "d"] (str "%s %s\n") := by
    intro fuel
    rcases fuel with _ | _ | fuel <;> rfl
  have hfits : Fits [str "a", str "b", str "c", str "d"] (str "%s %s\n") :=
    .inl ⟨rfl, by decide, by decide⟩
  refine ⟨hnoError, (consumes_iff noNumbers _ hnoError).mpr (.inr ⟨hfits, fun i _ hin => ?_⟩)⟩
  have hrs : true ∉ requests (str "%s %s\n") := by decide
  exact absurd (mem_of_getElem? hin) hrs

/-- `printf '%s %s\n' a b c` takes the first argument again where it has none. -/
theorem not_consumes_wrap :
    NoError noNumbers [str "a", str "b", str "c"] (str "%s %s\n") ∧
      ¬ Consumes noNumbers [str "a", str "b", str "c"] (str "%s %s\n") := by
  refine ⟨fun fuel => ?_, ?_⟩
  · rcases fuel with _ | _ | fuel <;> rfl
  rintro ⟨fuel, st, hr, n, ht⟩
  rcases fuel with _ | _ | fuel
  · cases hr
  · cases hr
  have hst : st.taken = [some 0, some 1, some 2, some 0] := by
    rw [← (Prod.mk.inj hr).2]
    rfl
  rw [hst] at ht
  cases n with
  | zero => exact absurd ht (by decide)
  | succ n =>
    have hn : none ∈ [some 0, some 1, some 2, some 0] := by
      rw [ht]
      simp
    exact absurd hn (by decide)

end GoPosix.Printf
