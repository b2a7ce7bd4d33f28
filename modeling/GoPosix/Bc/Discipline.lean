import GoPosix.Bc.Steps

/-!
# Invariants of the interpreter

A `Discipline` says which steps are `ok`, what is claimed of every value (`val`), of the registers
(`regs`) and of the two ends of a part of a run (`frame`), and proves that an `ok` step keeps to it.
If it is `strict`, the other steps are those that panic.

The rest is proved once for all disciplines, along the text of each function: a run keeps to the
discipline for as long as its steps are `ok`, and a strict one panics if and only if one of them is
not (`Discipline.run_sound`).
-/

namespace GoPosix.Bc

open Effects List

def Val.isNum : Val → Bool
  | .num _ _ _ => true
  | _ => false

/-! ## What is stored -/

/-- Every value in the variables and the arrays satisfies `val`. -/
structure Interp.Stored (val : Val → Prop) (ip : Interp) : Prop where
  globals : ∀ name v, ip.globals.vars name = some v → val v
  locals : ∀ scope, ip.locals = some scope → ∀ name v, scope.vars name = some v → val v
  heap : ∀ arr ∈ ip.heap, ∀ entry ∈ arr, val entry.2

section Stored

variable {val : Val → Prop} {ip : Interp} {name : String}

theorem Interp.Stored.getVar (h : ip.Stored val) (hzero : val zeroVal) : val (ip.getVar name) := by
  unfold Interp.getVar
  cases hlocals : ip.locals with
  | none =>
    cases hg : ip.globals.vars name with
    | none => exact hzero
    | some v => exact h.globals name v hg
  | some s =>
    cases hl : s.vars name with
    | some v => simpa [hl] using h.locals s hlocals name v hl
    | none =>
      cases hg : ip.globals.vars name with
      | none => simpa [hl] using hzero
      | some v => simpa [hl] using h.globals name v hg

theorem Interp.Stored.getArray (h : ip.Stored val) (hzero : val zeroVal) (index : Int) :
    val (ip.getArray name index) := by
  unfold Interp.getArray
  split
  · next addr _ =>
    cases hf : (ip.arrayAt addr).lookup index with
    | none => exact hzero
    | some v =>
      unfold Interp.arrayAt at hf
      rw [getD_eq_getElem?_getD] at hf
      cases harray : ip.heap[addr]? with
      | none => simp [harray] at hf
      | some a =>
        rw [harray, Option.getD_some] at hf
        obtain ⟨before, behind, heq, -⟩ := lookup_eq_some_iff.mp hf
        exact h.heap a (mem_of_getElem? harray) (index, v) (by simp [heq])
  · exact hzero

theorem update_stored (h : ∀ n w, vars n = some w → val w)
    (hv : val v) : ∀ n w, Function.update vars name (some v) n = some w → val w := by
  intro n w hw
  rw [Function.update_apply] at hw
  split at hw
  · cases hw
    exact hv
  · exact h n w hw

theorem Interp.Stored.setVar (h : ip.Stored val) (hv : val v) : (ip.setVar name v).Stored val := by
  have hg : Stored val { ip with globals := { ip.globals with
      vars := Function.update ip.globals.vars name (some v) } } :=
    ⟨update_stored h.globals hv, h.locals, h.heap⟩
  have hs : (ip.updateScope fun s => { s with
      vars := Function.update s.vars name (some v) }).Stored val := by
    unfold Interp.updateScope
    split
    · next s hl =>
      refine ⟨h.globals, ?_, h.heap⟩
      rintro _ ⟨⟩
      exact update_stored (h.locals s hl) hv
    · exact hg
  unfold Interp.setVar
  split
  · exact hs
  · split
    · exact hg
    · exact hs

theorem Interp.Stored.alloc (h : ip.Stored val) (harr : ∀ entry ∈ arr, val entry.2) :
    (ip.alloc arr).2.Stored val := by
  refine ⟨h.globals, h.locals, fun a ha => ?_⟩
  rcases mem_append.mp ha with ha | ha
  · exact h.heap a ha
  · exact mem_singleton.mp ha ▸ harr

theorem Interp.Stored.getArrayRef (h : ip.Stored val) : (ip.getArrayRef name).2.Stored val := by
  unfold Interp.getArrayRef
  split
  · exact h
  have hall : (ip.alloc []).2.Stored val := h.alloc nofun
  unfold Interp.updateScope
  simp only
  split
  · next scope hl =>
    refine ⟨hall.globals, ?_, hall.heap⟩
    rintro _ ⟨⟩
    exact hall.locals scope hl
  · exact ⟨hall.globals, hall.locals, hall.heap⟩

theorem Interp.Stored.arrayAt (h : ip.Stored val) (a : Nat) :
    ∀ entry ∈ ip.arrayAt a, val entry.2 := by
  unfold Interp.arrayAt
  rw [getD_eq_getElem?_getD]
  cases harr : ip.heap[a]? with
  | none => exact nofun
  | some arr => exact h.heap arr (mem_of_getElem? harr)

theorem Interp.Stored.setArray (h : ip.Stored val) (index : Int) (hv : val v) :
    (ip.setArray name index v).Stored val := by
  have hr : (ip.getArrayRef name).2.Stored val := h.getArrayRef
  refine ⟨hr.globals, hr.locals, fun a harray => ?_⟩
  rcases mem_or_eq_of_mem_set harray with harray | rfl
  · exact hr.heap a harray
  · intro entry he
    rcases mem_cons.mp he with rfl | he
    · exact hv
    · exact hr.arrayAt _ entry (mem_of_mem_filter he)

theorem Interp.Stored.bindParams (harg : ∀ arg ∈ ar, val arg.2)
    (s : Scope) (hs : ∀ n w, s.vars n = some w → val w) (h : ip.Stored val) :
    (∀ n w, (Bc.bindParams ar s ip).1.vars n = some w → val w) ∧
      (Bc.bindParams ar s ip).2.Stored val := by
  induction ar generalizing s ip with
  | nil => exact ⟨hs, h⟩
  | cons arg ar ih =>
    have hr := fun a ha => harg a (mem_cons_of_mem _ ha)
    unfold Bc.bindParams
    split
    · refine ih hr _ hs ?_
      split
      · split
        · exact h
        · exact h.alloc (h.arrayAt _)
      · exact h.alloc nofun
    · exact ih hr _ (update_stored hs (harg _ mem_cons_self)) h

theorem bindAutos_stored (hzero : val zeroVal) (names : List String) (s : Scope)
    (hs : ∀ n w, s.vars n = some w → val w) :
    ∀ n w, (bindAutos names s).vars n = some w → val w := by
  induction names generalizing s with
  | nil => exact hs
  | cons name _ ih => exact ih _ (update_stored hs hzero)

theorem Interp.Stored.bindAutoArrays (names : List String) (s : Scope)
    (hs : ∀ n w, s.vars n = some w → val w) (h : ip.Stored val) :
    (∀ n w, (Bc.bindAutoArrays names s ip).1.vars n = some w → val w) ∧
      (Bc.bindAutoArrays names s ip).2.Stored val := by
  induction names generalizing s ip with
  | nil => exact ⟨hs, h⟩
  | cons name _ ih =>
    exact ih _ hs (h.alloc fun _ hm => absurd hm not_mem_nil)

theorem Interp.Stored.enterCall (h : ip.Stored val) (hzero : val zeroVal) (d : FuncDecl)
    (hargs : ∀ v ∈ argVals, val v) : (Bc.enterCall d argVals ip).Stored val := by
  have hv : ∀ a ∈ d.params.zip argVals, val a.2 := fun a harg => hargs _ (of_mem_zip harg).2
  have hp := h.bindParams hv Scope.empty nofun
  have hauto := hp.2.bindAutoArrays d.autoArrays _ (bindAutos_stored hzero d.autos _ hp.1)
  refine ⟨hauto.2.globals, ?_, hauto.2.heap⟩
  rintro _ ⟨⟩
  exact hauto.1

end Stored

/-! ## Disciplines -/

/-- The parts of the state that values and variables live in. -/
def Interp.core (ip : Interp) :
    Scope × Option Scope × List (List (Int × Val)) × Val × Int × Int × Int :=
  (ip.globals, ip.locals, ip.heap, ip.last, ip.scale, ip.ibase, ip.obase)

/-- A relation between the state before a part of a run, all of whose steps are `ok`, and the state
after it. -/
structure Frame (ok : Step → Prop) where
  rel : Interp → Interp → Prop
  trans : ∀ {ip₁ ip₂ ip₃}, rel ip₁ ip₂ → rel ip₂ ip₃ → rel ip₁ ip₃
  same : ∀ {ip ip' : Interp}, ip'.globals = ip.globals → ip'.locals = ip.locals →
    ip'.heap = ip.heap → rel ip ip'
  setVar : ∀ {ip name val}, name ∉ ["scale", "ibase", "obase", "last"] →
    ok ⟨.write name none val, ip⟩ → rel ip (ip.setVar name val)
  setArray : ∀ {ip name index val}, ok ⟨.write name (some index) val, ip⟩ →
    rel ip (ip.setArray name index val)
  getArrayRef : ∀ {ip name}, ok ⟨.arrayRef name, ip⟩ → rel ip (ip.getArrayRef name).2
  call : ∀ {decl argVals ip ip'}, rel (enterCall decl argVals ip) ip' →
    rel ip { ip' with locals := ip.locals }

def Frame.any (ok : Step → Prop) : Frame ok where
  rel _ _ := True
  trans _ _ := trivial
  same _ _ _ := trivial
  setVar _ _ := trivial
  setArray _ := trivial
  getArrayRef _ := trivial
  call _ := trivial

/-- The registers satisfy `regs`, every value satisfies `val`, and `last` is a number. -/
structure Interp.Kept (regs : (scale ibase obase : Int) → Prop) (val : Val → Prop) (ip : Interp) :
    Prop where
  regs : regs ip.scale ip.ibase ip.obase
  last : val ip.last
  lastNum : ip.last.isNum = true
  stored : ip.Stored val

/-- What a step `s` with the outcome `x` has to do: if it is `ok`, the result satisfies `P` and a
strict discipline has no panic; if it is not, a strict discipline has one. -/
def Does {α : Type} (ok : Step → Prop) (strict : Prop) (P : α → Prop) (s : Step)
    (x : Except Stop α) : Prop :=
  (ok s → (∀ a, x = .ok a → P a) ∧ (strict → x ≠ .error .panic)) ∧
    (strict → ¬ ok s → x = .error .panic)

theorem does_lax {P : α → Prop} {s : Step} {x : Except Stop α}
    (h : ok s → ∀ a, x = .ok a → P a) : Does ok False P s x :=
      ⟨fun hok => ⟨h hok, False.elim⟩, False.elim⟩

structure Discipline (host : Host) where
  ok : Step → Prop
  strict : Prop
  val : Val → Prop
  regs : (scale ibase obase : Int) → Prop
  frame : Frame ok
  int : ∀ n : Int, val (newValNum n 0)
  notNum : ∀ v : Val, v.isNum = false → val v
  value : ∀ {v ip}, val v → ok ⟨.value v, ip⟩
  arrayRef : ∀ {name ip}, strict → ok ⟨.arrayRef name, ip⟩
  write : ∀ {name index v ip}, strict → ok ⟨.write name index v, ip⟩
  writeScale : ∀ {r scale isNeg ip}, regs ip.scale ip.ibase ip.obase →
    ok ⟨.write "scale" none (.num r scale isNeg), ip⟩ → regs (ratToInt64 r) ip.ibase ip.obase
  writeIbase : ∀ {r scale isNeg ip}, regs ip.scale ip.ibase ip.obase →
    ok ⟨.write "ibase" none (.num r scale isNeg), ip⟩ →
      regs ip.scale (clampIbase (ratToInt64 r)) ip.obase
  writeObase : ∀ {r scale isNeg ip}, regs ip.scale ip.ibase ip.obase →
    ok ⟨.write "obase" none (.num r scale isNeg), ip⟩ → regs ip.scale ip.ibase (ratToInt64 r)
  literal : ∀ {s ip}, ip.Kept regs val →
    Does ok strict (fun r => val (newValNum r (literalScale s.toList))) ⟨.literal s, ip⟩
      (parseNumberInBase s.toList ip.ibase)
  index : ∀ {v ip}, Does ok strict (fun _ => True) ⟨.index v, ip⟩ v.rat
  incDec : ∀ {name index ip}, ip.Kept regs val → val (ip.current name index) → Does ok strict
      (fun r => ∀ next ∈ [r + 1, r - 1], val (newValNum next
        (if name ∈ ["scale", "ibase", "obase", "last"] then 0 else (ip.current name index).scale)))
      ⟨.incDec name index (ip.current name index), ip⟩ (ip.current name index).rat
  binary : ∀ {op lhs rhs ip}, ip.Kept regs val → val lhs → val rhs →
    Does ok strict val ⟨.binary op lhs rhs, ip⟩ (binaryOp ip.scale op lhs rhs)
  unary : ∀ {op v w}, val v → unaryOp op v = .ok w → val w
  length : ∀ {v ip}, val v → Does ok strict val ⟨.length v, ip⟩ (builtinLength host v ip)
  sqrt : ∀ {v ip}, ip.Kept regs val → val v →
    Does ok strict val ⟨.sqrt v, ip⟩ (builtinSqrt host v ip)
  format : ∀ {r scale isNeg ip}, ip.Kept regs val →
    Does ok strict (fun _ => True) ⟨.format (.num r scale isNeg), ip⟩
      (formatRat host r ip.obase scale isNeg)

namespace Discipline

variable (D : Discipline host)

def Inv (ip : Interp) : Prop := ip.Kept D.regs D.val

/-- A step that keeps to the discipline. -/
structure Good (s : Step) : Prop where
  ok : D.ok s
  inv : D.Inv s.state
  val : ∀ v, s.prim = .value v → D.val v

variable {α β : Type}

/-- A part of a run that keeps to the discipline, with a result in `R`. -/
structure Fine (R : α → Prop) (ip : Interp) (l : List Step) (o : Except Stop α × Interp) :
    Prop where
  steps : ∀ s ∈ l, D.Good s
  inv : D.Inv o.2
  rel : D.frame.rel ip o.2
  result : ∀ a, o.1 = .ok a → R a
  noPanic : D.strict → o.1 ≠ .error .panic

/-- A part of a run with a step that is not `ok`. -/
structure Broken (l : List Step) (o : Except Stop α × Interp) : Prop where
  step : ∃ s ∈ l, ¬ D.ok s
  panic : D.strict → o.1 = .error .panic

/-- What is proved of every part of a run, from the state `ip`, with the steps `l` and the
outcome `o`. -/
def Sound (R : α → Prop) (ip : Interp) (l : List Step) (o : Except Stop α × Interp) : Prop :=
  D.Fine R ip l o ∨ D.Broken l o

abbrev Runs (ip : Interp) (l : List Step) (o : Except Stop α × Interp) : Prop :=
  D.Sound (fun _ => True) ip l o

/-- A change of the state that is no step. -/
structure Moves (ip ip' : Interp) : Prop where
  inv : D.Inv ip'
  rel : D.frame.rel ip ip'

variable {D}

theorem zero : D.val zeroVal := D.int 0

theorem refl (ip : Interp) : D.frame.rel ip ip := D.frame.same rfl rfl rfl

theorem Moves.of_core (hinv : D.Inv ip) (h : ip'.core = ip.core) : D.Moves ip ip' := by
  simp only [Interp.core, Prod.mk.injEq] at h
  obtain ⟨hg, hl, hh, hlast, hs, hi, ho⟩ := h
  refine ⟨⟨?_, ?_, ?_, ⟨?_, ?_, ?_⟩⟩, D.frame.same hg hl hh⟩
  · rw [hs, hi, ho]
    exact hinv.regs
  · exact hlast ▸ hinv.last
  · exact hlast ▸ hinv.lastNum
  · exact hg ▸ hinv.stored.globals
  · exact hl ▸ hinv.stored.locals
  · exact hh ▸ hinv.stored.heap

/-! ## Rules -/

theorem Moves.sound (hm : D.Moves ip ip') (h : D.Sound R ip' l o) : D.Sound R ip l o :=
  h.imp (fun hf => { hf with rel := D.frame.trans hm.rel hf.rel }) id

theorem Moves.done (hm : D.Moves ip ip') {a : α} (ha : R a) : D.Sound R ip [] (.ok a, ip') :=
  .inl ⟨fun _ hmem => absurd hmem not_mem_nil, hm.inv, hm.rel, fun _ heq =>
    Except.ok.inj heq ▸ ha, nofun⟩

/-- A program that returns and leaves the values and the variables alone. -/
theorem sound_core (hinv : D.Inv ip) (ha : R a) (hr : (exec m ip).1 = .ok a)
    (hc : (exec m ip).2.core = ip.core) : D.Sound R ip [] (exec m ip) := by
  have h := (Moves.of_core hinv hc).done ha
  rwa [← hr] at h

theorem sound_pure (hinv : D.Inv ip) (ha : R a) : D.Sound R ip [] (exec (pure a) ip) :=
  Moves.done ⟨hinv, refl ip⟩ ha

theorem sound_stop (hinv : D.Inv ip) (he : e ≠ .panic) : D.Sound R ip [] (.error e, ip) :=
  .inl ⟨fun _ hm => absurd hm not_mem_nil, hinv, refl ip, nofun, fun _ heq =>
    he (Except.error.inj heq)⟩

theorem sound_error (hinv : D.Inv ip) (m : String) :
    D.Sound R ip [] (exec (throw (.error m) : Eval α) ip) :=
  sound_stop hinv nofun

theorem sound_liftM (hinv : D.Inv ip) {x : Except Stop α} (hr : ∀ a, x = .ok a → R a)
    (hp : x ≠ .error .panic) : D.Sound R ip [] (exec (liftM x : Eval α) ip) := by
  exact .inl ⟨fun _ hm => absurd hm not_mem_nil, hinv, refl ip, hr, fun _ => hp⟩

/-- **Sequencing.** The second part has no steps if the first one stops. -/
theorem Sound.bind (hm : D.Sound R ip l (exec m ip))
    (hok : ∀ a ip', exec m ip = (.ok a, ip') → D.Inv ip' → R a → D.Sound S ip' l' (exec (f a) ip'))
    (herror : ∀ e ip', exec m ip = (.error e, ip') → l' = []) :
    D.Sound S ip (l ++ l') (exec (m >>= f) ip) := by
  rw [exec_bind]
  rcases he : exec m ip with ⟨e | a, ip'⟩
  · rw [he] at hm
    rw [herror e ip' he, append_nil]
    rcases hm with hf | hb
    · exact .inl ⟨hf.steps, hf.inv, hf.rel, nofun, fun hs heq => hf.noPanic hs (by cases heq; rfl)⟩
    · exact .inr ⟨hb.step, fun hs => by cases hb.panic hs; rfl⟩
  · rw [he] at hm
    rcases hm with hf | hb
    · rcases hok a ip' he hf.inv (hf.result a rfl) with hf' | hb
      · refine .inl ⟨fun s hs => ?_, hf'.inv, D.frame.trans hf.rel hf'.rel, hf'.result, hf'.noPanic⟩
        rcases mem_append.mp hs with hs | hs
        · exact hf.steps s hs
        · exact hf'.steps s hs
      · obtain ⟨s, hs, hn⟩ := hb.step
        exact .inr ⟨⟨s, mem_append_right _ hs, hn⟩, hb.panic⟩
    · obtain ⟨s, hs, hn⟩ := hb.step
      exact .inr ⟨⟨s, mem_append_left _ hs, hn⟩, fun hs => by cases hb.panic hs⟩

theorem Sound.andThen
    (hm : D.Sound R ip (so ip) (exec m ip))
    (hf : ∀ a ip', D.Inv ip' → R a → D.Sound S ip' (nx a ip') (exec (f a) ip')) :
    D.Sound S ip (Effects.andThen m so nx ip) (exec (m >>= f) ip) := by
  refine hm.bind (fun a ip' he hinv ha => ?_) fun e ip' he => ?_
  · rw [he]
    exact hf a ip' hinv ha
  · rw [he]

theorem Sound.andDone (hm : D.Sound R ip l (exec m ip))
    (hf : ∀ a ip', D.Inv ip' → R a → D.Sound S ip' [] (exec (f a) ip')) :
    D.Sound S ip l (exec (m >>= f) ip) := by
  have h : D.Sound S ip (l ++ []) (exec (m >>= f) ip) :=
    hm.bind (fun a ip' _ hinv ha => hf a ip' hinv ha) fun _ _ _ => rfl
  rwa [append_nil] at h

/-- **A step**, with the outcome `x`. -/
theorem sound_step (s : Step) (hinv : D.Inv s.state)
    (hs : Does D.ok D.strict R s x) (hvalue : ∀ v, s.prim ≠ .value v := by rintro _ ⟨⟩) :
    D.Sound R s.state [s] (exec (liftM x : Eval α) s.state) := by
  by_cases hok : D.ok s
  · refine .inl ⟨fun s' hs' => ?_, hinv, refl _, (hs.1 hok).1, (hs.1 hok).2⟩
    rw [mem_singleton.mp hs']
    exact ⟨hok, hinv, fun v hv => absurd hv (hvalue v)⟩
  · exact .inr ⟨⟨s, mem_singleton_self s, hok⟩, fun hstep => hs.2 hstep hok⟩

theorem sound_move (s : Step) (hinv : D.Inv s.state) (hstrict : D.strict → D.ok s)
    (hm : D.ok s → D.Moves s.state ip') (ha : R a)
      (hvalue : ∀ v, s.prim ≠ .value v := by rintro _ ⟨⟩) :
    D.Sound R s.state [s] (.ok a, ip') := by
  by_cases hok : D.ok s
  · refine .inl ⟨fun s' hs' => ?_, (hm hok).inv, (hm hok).rel, fun _ heq =>
      Except.ok.inj heq ▸ ha, nofun⟩
    rw [mem_singleton.mp hs']
    exact ⟨hok, hinv, fun v hv => absurd hv (hvalue v)⟩
  · exact .inr ⟨⟨s, mem_singleton_self s, hok⟩, fun hs => absurd (hstrict hs) hok⟩

theorem Sound.value
    (hm : D.Sound D.val ip (so ip) (exec m ip)) :
    D.Sound D.val ip (Effects.andThen m so (fun val ip => [⟨.value val, ip⟩]) ip) (exec m ip) := by
  have h : D.Sound D.val ip (Effects.andThen m so (fun val ip => [⟨.value val, ip⟩]) ip)
      (exec (m >>= pure) ip) := by
    refine hm.andThen fun v ip' hinv hv => ?_
    refine .inl ⟨fun s hs => ?_, hinv, refl ip', fun _ heq => Except.ok.inj heq ▸ hv, nofun⟩
    rw [mem_singleton.mp hs]
    exact ⟨D.value hv, hinv, fun w hw => Prim.value.inj hw ▸ hv⟩
  rwa [bind_pure] at h

theorem Sound.mapError (h : D.Sound R ip l (exec m ip)) (f : String → String) :
    D.Sound R ip l (exec (mapError f m) ip) := by
  rw [exec_mapError]
  split
  · next heq =>
    rw [heq] at h
    rcases h with hf | hb
    · exact .inl ⟨hf.steps, hf.inv, hf.rel, nofun, nofun⟩
    · exact .inr ⟨hb.step, fun hs => by cases hb.panic hs⟩
  · exact h

/-! ## Variables -/

/-- A change of variables and arrays, if what is stored keeps to the discipline. -/
theorem Moves.of_stores (hinv : D.Inv ip) (h : ip.Stores ip') (hs : ip'.Stored D.val)
    (hr : D.frame.rel ip ip') : D.Moves ip ip' := by
  obtain ⟨_, _, _, rfl⟩ := h
  exact ⟨⟨hinv.regs, hinv.last, hinv.lastNum, hs⟩, hr⟩

theorem val_readVal (hinv : D.Inv ip) (name : String) : D.val (ip.readVal name) := by
  unfold Interp.readVal
  split
  · exact D.int _
  · exact D.int _
  · exact D.int _
  · exact hinv.last
  · exact hinv.stored.getVar zero

theorem val_current (hinv : D.Inv ip) (name : String) (index : Option Int) :
    D.val (ip.current name index) := by
  unfold Interp.current
  split
  · exact val_readVal hinv name
  · split
    · exact hinv.stored.getArray zero _
    · exact hinv.stored.getVar zero

theorem moves_setVar (hinv : D.Inv ip) (hn : name ∉ ["scale", "ibase", "obase", "last"])
    (hv : D.val v)
    (hok : D.ok ⟨.write name none v, ip⟩) : D.Moves ip (ip.setVar name v) :=
  .of_stores hinv (stores_setVar name v ip) (hinv.stored.setVar hv) (D.frame.setVar hn hok)

theorem moves_setArray (hinv : D.Inv ip) {index : Int} {v : Val} (hv : D.val v)
    (hok : D.ok ⟨.write name (some index) v, ip⟩) : D.Moves ip (ip.setArray name index v) :=
  .of_stores hinv (stores_setArray name index v ip) (hinv.stored.setArray index hv)
    (D.frame.setArray hok)

theorem moves_assigned (hinv : D.Inv ip)
    (hv : D.val (.num r scale isNeg)) (hok : D.ok ⟨.write name none (.num r scale isNeg), ip⟩) :
    D.Moves ip (ip.assigned name (.num r scale isNeg) r) := by
  have hs := hinv.stored
  have hm : ∀ {scale ibase obase : Int}, D.regs scale ibase obase →
      D.Moves ip { ip with scale := scale, ibase := ibase, obase := obase } := fun hn =>
    ⟨⟨hn, hinv.last, hinv.lastNum, ⟨hs.globals, hs.locals, hs.heap⟩⟩, D.frame.same rfl rfl rfl⟩
  unfold Interp.assigned
  split
  · exact hm (D.writeScale hinv.regs hok)
  · exact hm (D.writeIbase hinv.regs hok)
  · exact hm (D.writeObase hinv.regs hok)
  · exact ⟨⟨hinv.regs, hv, rfl, ⟨hs.globals, hs.locals, hs.heap⟩⟩, D.frame.same rfl rfl rfl⟩
  · next hscale hi ho hl =>
    exact moves_setVar hinv (by simpa using ⟨hscale, hi, ho, hl⟩) hv hok

theorem sound_assignVar (hinv : D.Inv ip) (name : String) (hv : D.val (.num r scale isNeg)) :
    D.Runs ip [⟨.write name none (.num r scale isNeg), ip⟩]
      (exec (assignVar name (.num r scale isNeg) r) ip) := by
  exact sound_move ⟨.write name none _, ip⟩ hinv D.write (moves_assigned hinv hv) trivial

/-! ## Expressions -/

variable (D) in
/-- A value that a statement returns satisfies `val`. -/
def Flows (flow : Flow) : Prop := ∀ v, flow = .returned v → D.val v

variable (D) in
/-- The functions that the interpreter comes back to are sound. -/
structure Level (r : Rec) (log : Log) : Prop where
  execStmt : ∀ tail stmt ip, D.Inv ip →
    D.Sound D.Flows ip (log.execStmt tail stmt ip) (exec (r.execStmt tail stmt) ip)
  eval : ∀ tail e ip, D.Inv ip → D.Sound D.val ip (log.eval tail e ip) (exec (r.eval tail e) ip)
  loop : ∀ cond step body ip, D.Inv ip →
    D.Sound D.Flows ip (log.loop cond step body ip) (exec (r.loop cond step body) ip)

section Level

variable (h : D.Level r log)
variable (hinv : D.Inv ip)
include h hinv

theorem sound_evalNil (e : Option Expr) :
    D.Sound D.val ip (evalNilSteps log e ip) (exec (evalNil r e) ip) := by
  cases e with
  | none => exact sound_pure hinv (D.notNum .void rfl)
  | some e => exact h.eval false e ip hinv

theorem sound_evalIndex (index : Option Expr) :
    D.Runs ip (evalIndexSteps r log index ip) (exec (evalIndex r index) ip) := by
  refine (sound_evalNil h hinv index).andThen fun val ip' hinv' _ => ?_
  exact (sound_step ⟨.index val, ip'⟩ hinv' D.index).andDone fun q ip'' hinv'' _ =>
    sound_pure hinv'' trivial

theorem sound_evalAssign (l rhs : Expr) :
    D.Sound D.val ip (evalAssignSteps r log l rhs ip) (exec (evalAssign r l rhs) ip) := by
  refine (h.eval false rhs ip hinv).andThen fun rv ip' hinv' hv => ?_
  cases rv with
  | num q scale n =>
    cases l with
    | var name =>
      exact (sound_assignVar hinv' name hv).andDone fun _ ip'' hinv'' _ => sound_pure hinv'' hv
    | arrayAccess name index =>
      refine (sound_evalIndex h hinv' index).andThen fun i ip'' hinv'' _ => ?_
      exact sound_move ⟨.write name (some i) _, ip''⟩ hinv'' D.write (moves_setArray hinv'' hv) hv
    | _ => exact sound_error hinv' _
  | _ => exact sound_error hinv' _

theorem sound_evalTarget (target : Expr) :
    D.Runs ip (evalTargetSteps r log target ip) (exec (evalTarget r target) ip) := by
  cases target with
  | var name => exact sound_pure hinv trivial
  | arrayAccess name index =>
    exact (sound_evalIndex h hinv index).andDone fun i ip' hinv' _ => sound_pure hinv' trivial
  | _ => exact sound_error hinv _

omit h in
theorem sound_change {index : Option Int}
    {f : Rat → Eval Val}
    (hf : ∀ q scale n, ip.current name index = .num q scale n →
      (∀ next ∈ [q + 1, q - 1], D.val (newValNum next
        (if name ∈ ["scale", "ibase", "obase", "last"] then 0 else scale))) →
      D.Sound D.val ip [⟨changeWrite op name index q scale, ip⟩] (exec (f q) ip)) :
    D.Sound D.val ip (changeSteps op name index ip)
      (exec (liftM (ip.current name index).rat >>= f) ip) := by
  have hd := D.incDec hinv (val_current hinv name index)
  unfold changeSteps
  refine Sound.bind (l := [_]) (sound_step ⟨.incDec name index _, ip⟩ hinv hd)
    (fun q ip' he hinv' hn => ?_) fun e ip' he => ?_
  · rw [exec_liftM] at he
    obtain ⟨hq, rfl⟩ := Prod.mk.inj he
    cases hc : ip.current name index with
    | num q' scale n =>
      rw [hc] at hq hn
      obtain rfl : q' = q := Except.ok.inj hq
      exact hf q' scale n hc hn
    | _ =>
      rw [hc] at hq
      cases hq
  · rw [exec_liftM] at he
    cases hc : ip.current name index with
    | num q scale n =>
      rw [hc] at he
      cases he
    | _ => rfl

/-- `++` and `--`. -/
theorem sound_evalIncDec (op : TokenType) (target : Expr) (p : Bool) :
    D.Sound D.val ip (evalIncDecSteps r log op target ip) (exec (evalIncDec r op target p) ip) := by
  refine (sound_evalTarget h hinv target).andThen fun (name, index) ip' hinv' _ => ?_
  have hv := val_current hinv' name index
  have hnew : ∀ (q : Rat) (scale : Int), (∀ next ∈ [q + 1, q - 1], D.val (newValNum next scale)) →
      D.val (newValNum (if op = .inc then q + 1 else q - 1) scale) := by
    intro q scale hn
    apply hn
    split <;> simp
  simp only
  split
  · next hname =>
    have hc : ip'.current name index = ip'.readVal name := if_pos hname
    rw [exec_bind, exec_readVar]
    rw [← hc]
    refine sound_change hinv' fun q scale n _ hn => ?_
    rw [if_pos hname] at hn
    rw [changeWrite, if_pos hname]
    refine (sound_assignVar hinv' name (hnew q 0 hn)).andDone fun _ ip'' hinv'' _ => ?_
    apply sound_pure hinv''
    split
    · exact hv
    · exact hnew q 0 hn
  · next hname =>
    rw [exec_bind, exec_get]
    -- with the index known, the value that is read and the one that is set are those of `current`
    cases index with
    | none =>
      have hc : ip'.current name none = ip'.getVar name := if_neg hname
      simp only [← hc]
      refine sound_change hinv' fun q scale n hq hn => ?_
      rw [if_neg hname] at hn
      rw [changeWrite, if_neg hname, hq]
      refine sound_move ⟨.write name none _, ip'⟩ hinv' D.write
        (moves_setVar hinv' hname (hnew q scale hn)) ?_
      split
      · exact hq ▸ hv
      · exact hnew q scale hn
    | some i =>
      have hc : ip'.current name (some i) = ip'.getArray name i := if_neg hname
      simp only [← hc]
      refine sound_change hinv' fun q scale n hq hn => ?_
      rw [if_neg hname] at hn
      rw [changeWrite, if_neg hname, hq]
      refine sound_move ⟨.write name (some i) _, ip'⟩ hinv' D.write
        (moves_setArray hinv' (hnew q scale hn)) ?_
      split
      · exact hq ▸ hv
      · exact hnew q scale hn

theorem sound_evalArgs (a : List Expr) :
    D.Sound (fun va => ∀ v ∈ va, D.val v) ip (evalArgsSteps r log a ip)
      (exec (evalArgs r a) ip) := by
  induction a generalizing ip with
  | nil => exact sound_pure hinv nofun
  | cons arg a ih =>
    refine (h.eval false arg ip hinv).andThen fun val ip' hinv' hval => ?_
    refine (ih hinv').andDone fun va ip'' hinv'' hv => ?_
    exact sound_pure hinv'' (forall_mem_cons.mpr ⟨hval, hv⟩)

theorem sound_readLoop (s : List Stmt) (hf : D.val finalVal) :
    D.Sound D.val ip (readLoopSteps r log s ip) (exec (readLoop r s finalVal) ip) := by
  induction s generalizing ip finalVal with
  | nil => exact sound_pure hinv hf
  | cons st s ih =>
    cases st with
    | exprStmt e => exact (h.eval false e ip hinv).andThen fun val ip' hinv' hv => ih hinv' hv
    | _ => exact (h.execStmt false _ ip hinv).andThen fun _ ip' hinv' _ => ih hinv' hf

theorem sound_readLine (line : List Char) : D.Sound D.val ip (readLineSteps r log line ip)
      (exec (liftM (parse line) >>= fun s => readLoop r s zeroVal) ip) := by
  unfold readLineSteps
  cases hp : parse line with
  | ok s => exact sound_readLoop h hinv s zero
  | error e =>
    refine sound_stop hinv ?_
    rintro rfl
    exact parse_ne_panic line hp

/-- `read()` runs the line it reads. -/
theorem sound_evalRead : D.Sound D.val ip (evalReadSteps r log ip) (exec (evalRead r) ip) := by
  unfold evalRead evalReadSteps
  rw [exec_bind, exec_get]
  simp only
  cases ip.stdin with
  | none => exact sound_pure hinv zero
  | some stdin =>
    obtain ⟨text, failure⟩ := stdin
    have hm : ∀ stdin, D.Moves ip { ip with stdin := stdin } := fun _ => .of_core hinv rfl
    have hinv' := fun stdin => (hm stdin).inv
    simp only
    generalize List.dropWhile (· ≠ '\n') text = behind
    refine (hm (some ⟨behind.tail, failure⟩)).sound ?_
    cases behind with
    | nil =>
      cases failure with
      | some m => exact sound_error (hinv' _) m
      | none =>
        simp only
        split
        · exact sound_pure (hinv' _) zero
        · exact sound_readLine h (hinv' _) _
    | cons c behind =>
      simp only
      split
      · exact sound_pure (hinv' _) zero
      · exact sound_readLine h (hinv' _) _

omit h hinv in
theorem val_callValue (d : FuncDecl) (hf : D.Flows flow) : D.val (callValue d flow) := by
  unfold callValue
  split
  · exact D.notNum .void rfl
  · split
    · exact zero
    · exact hf _ rfl
    · exact zero

/-- A call: the arguments, the body in its scope, and the scope of the caller again. -/
theorem sound_evalCall (tail : Bool) (name : String) (a : List Expr) :
    D.Sound D.val ip (evalCallSteps r log tail name a ip) (exec (evalCall r tail name a) ip) := by
  unfold evalCall evalCallSteps
  rw [exec_bind, exec_get]
  simp only
  cases ip.functions name with
  | none => exact sound_error hinv _
  | some d =>
    simp only
    split
    · exact sound_error hinv _
    refine (sound_evalArgs h hinv a).andThen fun av ip' hinv' hv => ?_
    rw [exec_bind, exec_get]
    simp only
    rw [exec_bind, exec_modify]
    simp only
    -- the body runs from the state in which the call has been entered
    have he : D.Inv (enterCall d av ip') := by
      obtain ⟨g, l, m, heq⟩ := stores_enterCall d av ip'
      have hstored := hinv'.stored.enterCall zero d hv
      rw [heq] at hstored ⊢
      exact ⟨hinv'.regs, hinv'.last, hinv'.lastNum, hstored⟩
    have hbody := h.execStmt (tail && d.void) (some (.blockStmt d.body)) _ he
    rw [exec_bind, exec_finally]
    generalize exec (r.execStmt (tail && d.void) (some (.blockStmt d.body))) (enterCall d av ip') =
      o at hbody
    obtain ⟨x, ip''⟩ := o
    rcases hbody with hf | hb
    · have hl : D.Inv { ip'' with locals := ip'.locals } :=
        ⟨hf.inv.regs, hf.inv.last, hf.inv.lastNum,
          ⟨hf.inv.stored.globals, hinv'.stored.locals, hf.inv.stored.heap⟩⟩
      have hr := D.frame.call hf.rel
      refine .inl ⟨hf.steps, ?_, ?_, ?_, ?_⟩
      · cases x <;> exact hl
      · cases x <;> exact hr
      · cases x with
        | error e => exact fun _ h => by cases h
        | ok f =>
          rintro _ ⟨⟩
          exact val_callValue d (hf.result f rfl)
      · intro hs heq
        cases x with
        | error e => exact hf.noPanic hs (by cases heq; rfl)
        | ok f => cases heq
    · refine .inr ⟨hb.step, fun hs => ?_⟩
      have hp : x = .error .panic := hb.panic hs
      rw [hp]

theorem sound_evalBuiltin (name : String) (a : List Expr)
    (hf : ∀ v ip, D.Inv ip → D.val v →
      D.Sound D.val ip ((p v).toList.map (⟨·, ip⟩)) (exec (liftM (f v ip) : Eval Val) ip)) :
    D.Sound D.val ip (evalBuiltinSteps r log a p ip) (exec (evalBuiltin r name a f) ip) := by
  rcases a with _ | ⟨arg, _ | ⟨_, _⟩⟩
  · exact sound_error hinv _
  · refine (h.eval false arg ip hinv).andThen fun av ip' hinv' hv => ?_
    exact hf av ip' hinv' hv
  · exact sound_error hinv _

omit h hinv in
theorem unaryOp_ne_panic (op : TokenType) (v : Val) : unaryOp op v ≠ .error .panic := by
  unfold unaryOp
  split
  · split <;> exact nofun
  · exact nofun

/-- **Expressions**: one case for each form. -/
theorem sound_evalExpr (tail : Bool) (e : Expr) :
    D.Sound D.val ip (evalExprSteps r log tail e ip) (exec (evalExpr host r tail e) ip) := by
  cases e with
  | paren e => exact h.eval tail e ip hinv
  | num val =>
    simp only [evalExpr]
    rw [exec_bind]
    exact (sound_step ⟨.literal val, ip⟩ hinv (D.literal hinv)).andDone fun q ip' hinv' hval =>
      sound_pure hinv' hval
  | string val => exact sound_pure hinv (D.notNum _ rfl)
  | var name =>
    simp only [evalExpr]
    rw [exec_readVar]
    exact sound_pure hinv (val_readVal hinv name)
  | arrayAccess name index =>
    cases index with
    | none =>
      refine sound_move ⟨.arrayRef name, ip⟩ hinv D.arrayRef (fun hok => ?_)
        (D.notNum (.arrayRef _) rfl)
      exact .of_stores hinv (stores_getArrayRef name ip) hinv.stored.getArrayRef
        (D.frame.getArrayRef hok)
    | some index =>
      refine (sound_evalIndex h hinv (some index)).andDone fun idx ip' hinv' _ => ?_
      exact sound_pure hinv' (hinv'.stored.getArray zero idx)
  | assign lhs rhs => exact sound_evalAssign h hinv lhs rhs
  | binary op lhs rhs =>
    refine (h.eval false lhs ip hinv).andThen fun lhsVal ip' hinv' hl => ?_
    refine (h.eval false rhs ip' hinv').andThen fun rhsVal ip'' hinv'' hr => ?_
    exact sound_step ⟨.binary op lhsVal rhsVal, ip''⟩ hinv'' (D.binary hinv'' hl hr)
  | unary op e pid =>
    simp only [evalExpr, evalExprSteps]
    split
    · exact sound_evalIncDec h hinv op e pid
    · refine (h.eval false e ip hinv).andDone fun val ip' hinv' hval => ?_
      exact sound_liftM hinv' (fun w hw => D.unary hval hw) (unaryOp_ne_panic op val)
  | call name args =>
    simp only [evalExpr, evalExprSteps]
    split
    · exact sound_evalBuiltin h hinv _ args fun v ip' hinv' hv =>
        sound_step ⟨.length v, ip'⟩ hinv' (D.length hv)
    · refine sound_evalBuiltin h hinv _ args fun v ip' hinv' _ => ?_
      refine sound_liftM hinv' (fun w hw => ?_) fun h => by cases h
      exact Except.ok.inj hw ▸ D.int v.scale
    · exact sound_evalBuiltin h hinv _ args fun v ip' hinv' hv =>
        sound_step ⟨.sqrt v, ip'⟩ hinv' (D.sqrt hinv' hv)
    · cases args with
      | nil => exact sound_evalRead h hinv
      | cons arg args => exact sound_error hinv _
    · simpa only using sound_evalCall h hinv tail name args

/-! ## Statements -/

omit h hinv in
theorem flows_normal : D.Flows .normal := nofun

omit h in
theorem sound_emit (e : Event) : D.Runs ip [] (exec (emit e) ip) := sound_core hinv trivial rfl rfl

omit h in
theorem sound_printArg (val : Val) :
    D.Runs ip (printArgSteps val ip) (exec (printArg host val) ip) := by
  unfold printArg printArgSteps
  cases val with
  | num q scale n =>
    simp only
    rw [exec_bind, exec_get]
    exact (sound_step ⟨.format (.num q scale n), ip⟩ hinv (D.format hinv)).andDone
        fun text ip' hinv' _ =>
      sound_emit hinv' _
  | str s => exact sound_emit hinv _
  | _ => exact sound_pure hinv trivial

omit h in
theorem sound_printValue (e : Expr) {val : Val} (hv : D.val val) :
    D.Runs ip (printValueSteps e val ip) (exec (printValue host e val) ip) := by
  unfold printValue printValueSteps
  cases val with
  | num q scale n =>
    simp only
    split
    · -- the value becomes `last` before it is formatted
      have hm : D.Moves ip { ip with last := .num q scale n } :=
        ⟨⟨hinv.regs, hv, rfl, ⟨hinv.stored.globals, hinv.stored.locals, hinv.stored.heap⟩⟩,
          D.frame.same rfl rfl rfl⟩
      refine hm.sound ?_
      rw [exec_bind, exec_modify]
      simp only
      rw [exec_bind, exec_get]
      exact (sound_step ⟨.format (.num q scale n), _⟩ hm.inv (D.format hm.inv)).andDone
        fun text ip' hinv' _ => sound_emit hinv' _
    · exact sound_pure hinv trivial
  | str s =>
    simp only
    split
    · exact sound_emit hinv _
    · exact sound_pure hinv trivial
  | _ => exact sound_pure hinv trivial

theorem sound_printArgs (a : List Expr) :
    D.Runs ip (printArgsSteps host r log a ip) (exec (printArgs host r a) ip) := by
  induction a generalizing ip with
  | nil => exact sound_pure hinv trivial
  | cons arg a ih =>
    refine (h.eval false arg ip hinv).andThen fun val ip' hinv' _ => ?_
    exact (sound_printArg hinv' val).andThen fun _ ip'' hinv'' _ => ih hinv''

theorem sound_execBlock (tail : Bool) (s : List Stmt) :
    D.Sound D.Flows ip (execBlockSteps r log tail s ip) (exec (execBlock r tail s) ip) := by
  induction s generalizing ip with
  | nil => exact sound_pure hinv flows_normal
  | cons st s ih =>
    refine (h.execStmt _ _ ip hinv).andThen fun f ip' hinv' hf => ?_
    cases f with
    | normal => exact ih hinv'
    | _ => exact sound_pure hinv' hf

theorem sound_evalOption (e : Option Expr) :
    D.Runs ip (evalNilSteps log e ip) (exec (evalOption r e) ip) := by
  cases e with
  | none => exact sound_pure hinv trivial
  | some e => exact (h.eval false e ip hinv).andDone fun _ ip' hinv' _ => sound_pure hinv' trivial

theorem sound_loopTest (c : Option Expr) :
    D.Runs ip (evalNilSteps log c ip) (exec (loopTest r c) ip) := by
  cases c with
  | none => exact sound_pure hinv trivial
  | some e => exact (h.eval false e ip hinv).andDone fun _ ip' hinv' _ => sound_pure hinv' trivial

theorem sound_execLoop (c step : Option Expr) (b : Option Stmt) :
    D.Sound D.Flows ip (execLoopSteps r log c step b ip) (exec (execLoop r c step b) ip) := by
  refine (sound_loopTest h hinv c).andThen fun go ip' hinv' _ => ?_
  cases go with
  | false => exact sound_pure hinv' flows_normal
  | true =>
    refine (h.execStmt false b ip' hinv').andThen fun f ip'' hinv'' hf => ?_
    have hn : D.Sound D.Flows ip'' (andThen (evalOption r step) (evalNilSteps log step)
        (fun _ => log.loop c step b) ip'')
        (exec (evalOption r step >>= fun _ => r.loop c step b) ip'') :=
      (sound_evalOption h hinv'' step).andThen fun _ _ hinv' _ => h.loop c step b _ hinv'
    cases f with
    | returned val => exact sound_pure hinv'' hf
    | broken => exact sound_pure hinv'' flows_normal
    | normal => exact hn
    | continued => exact hn

/-- **Statements**: one case for each form. -/
theorem sound_execSome (tail : Bool) (s : Stmt) :
    D.Sound D.Flows ip (execSomeSteps host r log tail s ip) (exec (execSome host r tail s) ip) := by
  cases s with
  | funcDecl name p au aa b v => exact sound_core hinv flows_normal rfl rfl
  | exprStmt e =>
    refine (h.eval tail e ip hinv).andThen fun val ip' hinv' hv => ?_
    exact (sound_printValue hinv' e hv).andDone fun _ ip'' hinv'' _ =>
      sound_pure hinv'' flows_normal
  | blockStmt st => exact sound_execBlock h hinv tail st
  | ifStmt c ts es =>
    refine (h.eval false c ip hinv).andThen fun cv ip' hinv' _ => ?_
    split
    · exact h.execStmt tail ts ip' hinv'
    · exact h.execStmt tail es ip' hinv'
  | whileStmt c b => exact h.loop (some c) none b ip hinv
  | forStmt init c step b =>
    exact (sound_evalOption h hinv init).andThen fun _ ip' hinv' _ =>
      h.loop c step b ip' hinv'
  | returnStmt val =>
    cases val with
    | none =>
      refine sound_pure hinv ?_
      rintro _ ⟨⟩
      exact D.notNum .void rfl
    | some e =>
      refine (h.eval false e ip hinv).andDone fun val ip' hinv' hv => sound_pure hinv' ?_
      rintro _ ⟨⟩
      exact hv
  | breakStmt => exact sound_pure hinv nofun
  | continueStmt => exact sound_pure hinv nofun
  | haltStmt => exact sound_core hinv flows_normal rfl rfl
  | printStmt a =>
    exact (sound_printArgs h hinv a).andDone fun _ ip' hinv' _ => sound_pure hinv' flows_normal

theorem sound_execStmt (tail : Bool) (s : Option Stmt) :
    D.Sound D.Flows ip (execStmtSteps host r log tail s ip) (exec (execStmt host r tail s) ip) := by
  cases s with
  | none => exact sound_pure hinv flows_normal
  | some s =>
    have hm : D.Moves ip { ip with trace := ip.trace ++ [.stmt] } := .of_core hinv rfl
    exact hm.sound (sound_execSome h hm.inv tail s)

theorem sound_execute (s : List Stmt) :
    D.Runs ip (executeSteps r log s ip) (exec (execute r s) ip) := by
  induction s generalizing ip with
  | nil => exact sound_pure hinv trivial
  | cons st s ih =>
    unfold execute executeSteps
    rw [exec_bind, exec_get]
    simp only
    split
    · exact sound_pure hinv trivial
    · exact (h.execStmt true _ ip hinv).andThen fun _ ip' hinv' _ => ih hinv'

end Level

/-! ## Runs -/

variable (D) in
theorem interp_level (f : Nat) : D.Level (interp host f) (logs host f) := by
  induction f with
  | zero =>
    exact ⟨fun _ _ ip hinv => sound_stop hinv nofun, fun _ _ ip hinv => sound_stop hinv nofun,
      fun _ _ _ ip hinv => sound_stop hinv nofun⟩
  | succ f ih =>
    exact ⟨fun tail s ip hinv => sound_execStmt ih hinv tail s,
      fun tail e ip hinv => (sound_evalExpr ih hinv tail e).value,
      fun c step b ip hinv => sound_execLoop ih hinv c step b⟩

theorem sound_library (hinv : D.Inv ip) (fuel : Nat) (text : List Char) (f g : String → String) :
    D.Runs ip (librarySteps host fuel text ip)
      (exec (mapError f (liftM (parse text)) >>= fun s =>
        mapError g (execute (interp host fuel) s)) ip) := by
  unfold librarySteps
  cases hp : parse text with
  | ok s => exact (sound_execute (D.interp_level fuel) hinv s).mapError g
  | error e =>
    obtain ⟨m, rfl⟩ := parse_error hp
    exact sound_stop hinv nofun

theorem sound_newInterpreter (hinv : D.Inv ip) (f : Nat) (mathLib : Bool) :
    D.Runs ip (newInterpreterSteps host f mathLib ip)
      (exec (newInterpreter host f mathLib) ip) := by
  unfold newInterpreter newInterpreterSteps
  split
  · exact sound_library hinv f _ _ _
  · exact sound_pure hinv trivial

theorem inv_initial (s : Option Stdin) (mathLib : Bool)
    (hr : D.regs (if mathLib then 20 else 0) 10 10) : D.Inv (Interp.initial s mathLib) where
  regs := hr
  last := zero
  lastNum := rfl
  stored := ⟨nofun, nofun, nofun⟩

/-- **The steps decide.** A run keeps to the discipline if all its steps are `ok`; if one of them is
not and the discipline is strict, the run panics. -/
theorem run_sound (f : Nat) (p : List Char) (s : Option Stdin) (mathLib : Bool)
    (hr : D.regs (if mathLib then 20 else 0) 10 10) :
    D.Runs (Interp.initial s mathLib)
      (steps host f p s mathLib) (run host f p s mathLib) := by
  have hinv := D.inv_initial s mathLib hr
  unfold run steps
  cases hp : parse p with
  | ok st =>
    refine (sound_newInterpreter hinv f mathLib).andThen fun _ ip hinv' _ => ?_
    exact sound_execute (D.interp_level f) hinv' st
  | error e =>
    obtain ⟨m, rfl⟩ := parse_error hp
    exact sound_stop hinv nofun

end Discipline

end GoPosix.Bc
