import GoPosix.Sed.Basic

/-!
# Scripts and their flat form

A script is a list of commands and blocks. `compileAst` makes one list of it: a block becomes an
opening and a closing instruction with its commands between them, and the opening one knows where
the closing one is. A jump knows where its label is. `execFlat` runs such a list.

In the meaning of a script, where it is going on is what is left of the innermost block and of the
blocks around it (`Point`). Running the flat form is the same, step by step (`execFlat_eq_meaning`):
the list from the current instruction on is the flattened place in the script (`Point.code`).
-/

namespace GoPosix.Sed

open Bytes List

/-! ## Compilation -/

/-- The instructions of a script or a block. -/
inductive Script where
  | nil
  | command (sel : Selector) (cmd : Command) (rest : Script)
  | block (sel : Selector) (body rest : Script)

inductive Op where
  | openBlock (jumpTarget : Nat)
  | closeBlock
  | command (cmd : Command) (jumpTarget : Nat)

/-- An instruction of the flat form. -/
structure Flat where
  sel : Selector
  op : Op

def closing : Flat := ⟨⟨none, none, false, 0⟩, .closeBlock⟩

/-- `flatten`, for instructions that come after `start` others. -/
def flatten (start : Nat) : Script → List Flat
  | .nil => []
  | .command sel cmd rest => ⟨sel, .command cmd 0⟩ :: flatten (start + 1) rest
  | .block sel body rest =>
    let inner := flatten (start + 1) body
    ⟨sel, .openBlock (start + 1 + inner.length)⟩ ::
      (inner ++ closing :: flatten (start + 1 + inner.length + 1) rest)

def Command.label? : Command → Option Bytes
  | .label l => some l
  | _ => none

def Command.isLabel (name : Bytes) (cmd : Command) : Bool := cmd.label? = some name

def Flat.isLabel (name : Bytes) (inst : Flat) : Bool :=
  match inst.op with
  | .command cmd _ => cmd.isLabel name
  | _ => false

/-- The index of a label, counted from `i`. If there are several of the name, it is the last one. -/
def findLabel (name : Bytes) : Nat → List Flat → Option Nat
  | _, [] => none
  | i, inst :: rest => findLabel name (i + 1) rest <|> if inst.isLabel name then some i else none

def resolve (flat : List Flat) (inst : Flat) : Except Bytes Flat :=
  match inst.op with
  | .command cmd _ =>
    match cmd.target? with
    | none => .ok inst
    | some [] => .ok ⟨inst.sel, .command cmd flat.length⟩
    | some name =>
      match findLabel name 0 flat with
      | some target => .ok ⟨inst.sel, .command cmd target⟩
      | none => .error (str "can't find label for jump to '" ++ name ++ str "'")
  | _ => .ok inst

def compileAst (script : Script) : Except Bytes (List Flat) :=
  let flat := flatten 0 script
  flat.mapM (resolve flat)

/-! ## Execution of the flat form -/

inductive Next where
  | goto (ip : Nat)
  | stop (s : Stop)
  deriving DecidableEq, Repr

def Flow.next (ip target : Nat) : Flow → Next
  | .on => .goto (ip + 1)
  | .jump => .goto target
  | .restart => .goto 0
  | .stop s => .stop s

/-- The body of the loop of `execFlat`. -/
def execInst (o : Options) (insts : List Flat) (ip : Nat) (e : Engine) : Next × Engine :=
  match insts[ip]? with
  | none => (.stop .finished, e)
  | some inst =>
    let (run, e) := e.shouldRun inst.sel
    match inst.op with
    | .openBlock jumpTarget => (.goto (if run then ip + 1 else jumpTarget + 1), e)
    | .closeBlock => (.goto (ip + 1), e)
    | .command cmd jumpTarget =>
      if run then
        let (flow, e) := cmd.exec o e
        (flow.next ip jumpTarget, e)
      else (.goto (ip + 1), e)

/-- `execFlat`, with at most `fuel` turns of its loop. -/
def execFlat (o : Options) (insts : List Flat) : (fuel ip : Nat) → Engine → Option (Stop × Engine)
  | 0, _, _ => none
  | fuel + 1, ip, e =>
    match execInst o insts ip e with
    | (.goto ip, e) => execFlat o insts fuel ip e
    | (.stop s, e) => some (s, e)

/-! ## The meaning of a script -/

/-- A place in a script: what is left of the innermost block, and of those around it. -/
structure Point where
  here : Script
  outer : List Script

/-- The place of a label; if there are several of the name, of the last one. -/
def Script.seek (name : Bytes) (outer : List Script) : Script → Option Point
  | .nil => none
  | .command sel cmd rest =>
    rest.seek name outer <|> if cmd.isLabel name then some ⟨.command sel cmd rest, outer⟩ else none
  | .block _ body rest => rest.seek name outer <|> body.seek name (rest :: outer)

/-- Where a jump leads: without a label it is the end of the script. -/
def Script.jump (script : Script) (cmd : Command) : Point :=
  match cmd.target? with
  | none | some [] => ⟨.nil, []⟩
  | some name => (script.seek name []).getD ⟨.nil, []⟩

/-- The place right after the command there. -/
def Point.pass : Point → Point
  | ⟨.command _ _ rest, outer⟩ => ⟨rest, outer⟩
  | p => p

/-- One step at a place. A block that is not selected is skipped as a whole; at its end, what is
around it goes on. `land` says how a jump continues at the place of its label. -/
def Point.step (o : Options) (land : Point → Point) (script : Script) (p : Point) (e : Engine) :
    (Point ⊕ Stop) × Engine :=
  match p.here, p.outer with
  | .nil, [] => (.inr .finished, e)
  | .nil, rest :: outer => (.inl ⟨rest, outer⟩, e)
  | .block sel body rest, outer =>
    let (run, e) := e.shouldRun sel
    (.inl (if run then ⟨body, rest :: outer⟩ else ⟨rest, outer⟩), e)
  | .command sel cmd rest, outer =>
    let (run, e) := e.shouldRun sel
    if run then
      let (flow, e) := cmd.exec o e
      match flow with
      | .on => (.inl ⟨rest, outer⟩, e)
      | .jump => (.inl (land (script.jump cmd)), e)
      | .restart => (.inl ⟨script, []⟩, e)
      | .stop s => (.inr s, e)
    else (.inl ⟨rest, outer⟩, e)

/-- From a place on, with at most `fuel` steps. -/
def Point.run (o : Options) (land : Point → Point) (script : Script) :
    (fuel : Nat) → Point → Engine → Option (Stop × Engine)
  | 0, _, _ => none
  | fuel + 1, p, e =>
    match p.step o land script e with
    | (.inl p, e) => Point.run o land script fuel p e
    | (.inr s, e) => some (s, e)

/-- The meaning of a script. A jump continues at its label, so that the addresses of a label are
looked at as those of any other command are. -/
def Script.meaning (o : Options) (script : Script) (fuel : Nat) (e : Engine) :
    Option (Stop × Engine) :=
  Point.run o id script fuel ⟨script, []⟩ e

/-! ## Labels -/

theorem findLabel_append (name : Bytes) (xs ys : List Flat) : ∀ i,
    findLabel name i (xs ++ ys) = (findLabel name (i + xs.length) ys <|> findLabel name i xs) := by
  induction xs with
  | nil =>
    intro i
    show findLabel name i ys = (findLabel name i ys <|> none)
    cases findLabel name i ys <;> rfl
  | cons x xs ih =>
    intro i
    show (findLabel name (i + 1) (xs ++ ys) <|> _) = _
    rw [ih, show i + 1 + xs.length = i + (xs.length + 1) by omega]
    cases findLabel name (i + (xs.length + 1)) ys <;> rfl

/-- What a place looks like in the flat form, if it comes after `start` instructions. -/
def code : (start : Nat) → Script → List Script → List Flat
  | start, here, [] => flatten start here
  | start, here, rest :: outer =>
    flatten start here ++ closing :: code (start + (flatten start here).length + 1) rest outer

def Point.code (start : Nat) (p : Point) : List Flat := Sed.code start p.here p.outer

theorem code_command (start : Nat) (s : Selector) (c : Command) (rest : Script) (o : List Script) :
    code start (.command s c rest) o = ⟨s, .command c 0⟩ :: code (start + 1) rest o := by
  cases o with
  | nil => rfl
  | cons r o =>
    show ⟨s, .command c 0⟩ :: (flatten (start + 1) rest ++ closing ::
      code (start + ((flatten (start + 1) rest).length + 1) + 1) r o) = _
    rw [show start + ((flatten (start + 1) rest).length + 1) + 1
      = start + 1 + (flatten (start + 1) rest).length + 1 by omega]
    rfl

theorem code_block (start : Nat) (s : Selector) (b rest : Script) (o : List Script) :
    code start (.block s b rest) o
      = ⟨s, .openBlock (start + 1 + (flatten (start + 1) b).length)⟩ ::
        code (start + 1) b (rest :: o) := by
  cases o with
  | nil => rfl
  | cons r o =>
    simp only [code, flatten, cons_append, append_assoc, length_cons, length_append]
    generalize (flatten (start + 1) b).length = n
    rw [show start + 1 + n + 1 + (flatten (start + 1 + n + 1) rest).length + 1
      = start + (n + ((flatten (start + 1 + n + 1) rest).length + 1) + 1) + 1 by omega]

theorem code_skip (start : Nat) (b rest : Script) (o : List Script) :
    (code start b (rest :: o)).drop ((flatten start b).length + 1)
      = code (start + (flatten start b).length + 1) rest o := by
  show (flatten start b ++ ([closing] ++ _)).drop _ = _
  rw [← append_assoc]
  exact drop_left' (by simp)

theorem findLabel_command (name : Bytes) (start : Nat) (s : Selector) (c : Command)
    (rest : Script) :
    findLabel name start (flatten start (.command s c rest))
      = (findLabel name (start + 1) (flatten (start + 1) rest) <|>
        if c.isLabel name then some start else none) := rfl

theorem findLabel_block (name : Bytes) (start : Nat) (s : Selector) (b rest : Script) :
    findLabel name start (flatten start (.block s b rest))
      = let after := start + 1 + (flatten (start + 1) b).length + 1
        (findLabel name after (flatten after rest) <|>
          findLabel name (start + 1) (flatten (start + 1) b)) := by
  show (findLabel name (start + 1) (_ ++ closing :: _) <|> none) = _
  rw [findLabel_append]
  show (((findLabel name (start + 1 + (flatten (start + 1) b).length + 1) _ <|> none) <|>
    findLabel name (start + 1) _) <|> none) = _
  simp

theorem seek_eq_none (s : Script) : ∀ {start : Nat} {o : List Script},
    findLabel name start (flatten start s) = none → s.seek name o = none := by
  induction s with
  | nil =>
    intro _ _ _
    rfl
  | command sel c rest ih =>
    intro start o h
    rw [findLabel_command, Option.orElse_eq_none] at h
    have hl : c.isLabel name = false := by simpa using h.2
    simp [Script.seek, ih h.1, hl]
  | block sel b rest ib ir =>
    intro start o h
    rw [findLabel_block, Option.orElse_eq_none] at h
    simp [Script.seek, ir h.1, ib h.2]

/-- **Labels are found where they are.** The last label in the flat form is the last one in the
script, and from its index on the flat form is that of its place. -/
theorem seek_eq_some {name : Bytes} (s : Script) : ∀ {start target : Nat} {outer : List Script},
      findLabel name start (flatten start s) = some target →
        start ≤ target ∧ ∃ p, s.seek name outer = some p ∧
          (code start s outer).drop (target - start) = p.code target := by
  induction s with
  | nil =>
    intro _ _ _ h
    cases h
  | command sel cmd rest ih =>
    intro start target outer h
    rw [findLabel_command] at h
    cases hf : findLabel name (start + 1) (flatten (start + 1) rest) with
    | some found =>
      rw [hf] at h
      obtain rfl : found = target := Option.some.inj h
      obtain ⟨hle, p, hp, hc⟩ := @ih (start + 1) found outer hf
      refine ⟨by omega, p, by simp [Script.seek, hp], ?_⟩
      rw [code_command, show found - start = found - (start + 1) + 1 by omega]
      exact hc
    | none =>
      rw [hf] at h
      have hn : rest.seek name outer = none := seek_eq_none rest hf
      by_cases hl : cmd.isLabel name
      · obtain rfl : start = target := by simpa [hl] using h
        refine ⟨Nat.le_refl _, ⟨.command sel cmd rest, outer⟩, ?_, ?_⟩
        · simp [Script.seek, hn, hl]
        · rw [Nat.sub_self]
          rfl
      · simp [hl] at h
  | block sel body rest ihBody ihRest =>
    intro start target outer h
    rw [findLabel_block] at h
    cases hf : findLabel name (start + 1 + (flatten (start + 1) body).length + 1)
        (flatten (start + 1 + (flatten (start + 1) body).length + 1) rest) with
    | some found =>
      simp only [hf] at h
      obtain rfl : found = target := Option.some.inj h
      obtain ⟨hle, p, hp, hc⟩ := @ihRest _ found outer hf
      refine ⟨by omega, p, by simp [Script.seek, hp], ?_⟩
      rw [code_block, ← hc, ← code_skip, drop_drop]
      generalize (flatten (start + 1) body).length = n at hle ⊢
      rw [show found - start = n + 1 + (found - (start + 1 + n + 1)) + 1 by omega]
      rfl
    | none =>
      simp only [hf] at h
      obtain ⟨hle, p, hp, hc⟩ := @ihBody (start + 1) target (rest :: outer) (by simpa using h)
      refine ⟨by omega, p, by simp [Script.seek, seek_eq_none rest hf, hp], ?_⟩
      rw [code_block, show target - start = target - (start + 1) + 1 by omega]
      exact hc

/-! ## Simulation -/

/-- The instruction at `ip` is the one of the place `p`: the flat form goes on as `p` does. -/
def At (script : Script) (ip : Nat) (p : Point) : Prop := (flatten 0 script).drop ip = p.code ip

namespace At

variable {script : Script}

theorem start (script : Script) : At script 0 ⟨script, []⟩ := rfl

theorem finish (script : Script) : At script (flatten 0 script).length ⟨.nil, []⟩ := drop_length

theorem getElem? (h : At script ip p) : (flatten 0 script)[ip]? = (p.code ip).head? := by
  rw [← List.head?_drop, show (flatten 0 script).drop ip = p.code ip from h]

theorem drop (h : At script ip p) (hc : (p.code ip).drop n = q.code (ip + n)) :
    At script (ip + n) q := by
  show (flatten 0 script).drop (ip + n) = _
  rw [← drop_drop, show (flatten 0 script).drop ip = p.code ip from h, hc]

theorem close (h : At script ip ⟨.nil, rest :: outer⟩) : At script (ip + 1) ⟨rest, outer⟩ :=
  h.drop rfl

theorem command (h : At script ip ⟨.command sel cmd rest, outer⟩) :
    At script (ip + 1) ⟨rest, outer⟩ := by
  apply h.drop
  show (Sed.code ip (.command sel cmd rest) outer).drop 1 = _
  rw [code_command]
  rfl

theorem enter (h : At script ip ⟨.block sel body rest, outer⟩) :
    At script (ip + 1) ⟨body, rest :: outer⟩ := by
  apply h.drop
  show (Sed.code ip (.block sel body rest) outer).drop 1 = _
  rw [code_block]
  rfl

theorem skip (h : At script ip ⟨body, rest :: outer⟩) :
    At script (ip + ((flatten ip body).length + 1)) ⟨rest, outer⟩ := by
  apply h.drop
  exact code_skip ip body rest outer

theorem label (h : findLabel name 0 (flatten 0 script) = some target) :
    At script target ((script.seek name []).getD ⟨.nil, []⟩) := by
  obtain ⟨-, p, hp, hc⟩ := @seek_eq_some name script 0 target [] h
  rw [hp]
  exact hc

end At

theorem map_of_mapM {f : α → Except ε β} {xs : List α} :
    ∀ {ys : List β}, xs.mapM f = .ok ys → xs.map f = ys.map Except.ok := by
  induction xs with
  | nil =>
    intro ys h
    obtain rfl : [] = ys := Except.ok.inj h
    rfl
  | cons x xs ih =>
    intro ys h
    rw [mapM_cons] at h
    cases hx : f x with
    | error err =>
      rw [hx] at h
      cases h
    | ok y =>
      cases hxs : xs.mapM f with
      | error err =>
        rw [hx, hxs] at h
        cases h
      | ok zs =>
        rw [hx, hxs] at h
        obtain rfl : y :: zs = ys := Except.ok.inj h
        rw [map_cons, map_cons, hx, ih hxs]

variable {script : Script} {insts : List Flat}

theorem getElem?_of_compileAst {ip : Nat} {i : Flat}
    (h : compileAst script = .ok insts) (hi : (flatten 0 script)[ip]? = some i) :
    ∃ resolved, insts[ip]? = some resolved ∧ resolve (flatten 0 script) i = .ok resolved := by
  have hm := congrArg (·[ip]?) (map_of_mapM h)
  simp only [List.getElem?_map, hi] at hm
  cases hr : insts[ip]? with
  | none =>
    rw [hr] at hm
    cases hm
  | some resolved =>
    rw [hr] at hm
    exact ⟨resolved, rfl, Option.some.inj hm⟩

theorem length_of_compileAst (h : compileAst script = .ok insts) :
    insts.length = (flatten 0 script).length := by
  simpa using congrArg List.length (map_of_mapM h).symm

theorem At.jump (hr : resolve (flatten 0 script) ⟨sel, .command cmd 0⟩ = .ok inst) :
    ∃ target, inst = ⟨sel, .command cmd target⟩ ∧
      (cmd.target? ≠ none → At script target (script.jump cmd)) := by
  unfold resolve at hr
  unfold Script.jump
  cases ht : cmd.target? with
  | none =>
    simp only [ht] at hr
    exact ⟨0, (Except.ok.inj hr).symm, fun h => absurd rfl h⟩
  | some name =>
    simp only [ht] at hr
    cases name with
    | nil => exact ⟨_, (Except.ok.inj hr).symm, fun _ => .finish script⟩
    | cons c name =>
      cases hf : findLabel (c :: name) 0 (flatten 0 script) with
      | none =>
        simp only [hf] at hr
        cases hr
      | some target =>
        simp only [hf] at hr
        exact ⟨target, (Except.ok.inj hr).symm, fun _ => .label hf⟩

/-- What the flat form and the script do in one step agree. -/
inductive Agree (script : Script) : Next × Engine → (Point ⊕ Stop) × Engine → Prop where
  | goto {ip : Nat} {p : Point} (e : Engine) (h : At script ip p) : Agree script (.goto ip, e)
    (.inl p, e)
  | stop (s : Stop) (e : Engine) : Agree script (.stop s, e) (.inr s, e)

/-- **One step.** At corresponding places the flat form and the script do the same thing, and come
to corresponding places. -/
theorem execInst_agree (h : compileAst script = .ok insts)
    (o : Options) {ip : Nat} (hat : At script ip p) (e : Engine) :
    Agree script (execInst o insts ip e) (p.step o id script e) := by
  have hin := hat.getElem?
  obtain ⟨here, ou⟩ := p
  cases here with
  | nil =>
    cases ou with
    | nil =>
      have hn : insts[ip]? = none := by
        rw [List.getElem?_eq_none_iff, length_of_compileAst h]
        exact List.getElem?_eq_none_iff.1 hin
      unfold execInst
      rw [hn]
      exact .stop .finished e
    | cons rest ou =>
      obtain ⟨i, hi, hr⟩ := getElem?_of_compileAst h hin
      obtain rfl : closing = i := Except.ok.inj hr
      unfold execInst
      rw [hi]
      exact .goto e hat.close
  | command sel c rest =>
    rw [Point.code, code_command] at hin
    obtain ⟨i, hi, hr⟩ := getElem?_of_compileAst h hin
    obtain ⟨target, rfl, hj⟩ := At.jump hr
    unfold execInst Point.step
    rw [hi]
    simp only
    generalize e.shouldRun sel = r
    obtain ⟨run, e⟩ := r
    cases run with
    | false => exact .goto e hat.command
    | true =>
      have hne : c.target? = none → (c.exec o e).1 ≠ .jump := Command.exec_ne_jump
      generalize c.exec o e = r at hne ⊢
      obtain ⟨f, e⟩ := r
      cases f with
      | on => exact .goto e hat.command
      | jump => exact .goto e (hj fun hn => hne hn rfl)
      | restart => exact .goto e (.start script)
      | stop s => exact .stop s e
  | block sel b rest =>
    rw [Point.code, code_block] at hin
    obtain ⟨i, hi, hr⟩ := getElem?_of_compileAst h hin
    obtain rfl := Except.ok.inj hr
    unfold execInst Point.step
    rw [hi]
    simp only
    generalize e.shouldRun sel = r
    obtain ⟨run, e⟩ := r
    cases run with
    | true => exact .goto e hat.enter
    | false => exact .goto e hat.enter.skip

/-- **A whole run.** From corresponding places on, and with the same number of steps. -/
theorem execFlat_eq_run (h : compileAst script = .ok insts)
    (o : Options) (f : Nat) : ∀ {ip : Nat} {p : Point}, At script ip p → ∀ e : Engine,
      execFlat o insts f ip e = Point.run o id script f p e := by
  induction f with
  | zero =>
    intro _ _ _ _
    rfl
  | succ f ih =>
    intro ip p hat e
    have hs := execInst_agree h o hat e
    unfold execFlat Point.run
    generalize execInst o insts ip e = r at hs ⊢
    generalize p.step o id script e = q at hs ⊢
    cases hs with
    | goto e hat => exact ih hat e
    | stop s e => rfl

/-! ## Results -/

/-- **The flat form means what the script means**, whatever the engine, and for every number of
steps: it also does not end if the script does not. -/
theorem execFlat_eq_meaning {script : Script} {insts : List Flat}
    (h : compileAst script = .ok insts) (o : Options) (fuel : Nat) (e : Engine) :
    execFlat o insts fuel 0 e = script.meaning o fuel e :=
  execFlat_eq_run h o fuel (.start script) e

/-- `1,2:a` and `1{N;ba}`. -/
def loopScript : Script :=
  .command ⟨some (.line 1 0), some (.line 2 0), false, 0⟩ (.label (str "a")) <|
    .block ⟨some (.line 1 0), none, false, 1⟩ (.command ⟨none, none, false, 2⟩ .appendNext <|
        .command ⟨none, none, false, 3⟩ (.branch (str "a")) .nil) .nil

def loopInsts : List Flat :=
  [⟨⟨some (.line 1 0), some (.line 2 0), false, 0⟩, .command (.label (str "a")) 0⟩,
    ⟨⟨some (.line 1 0), none, false, 1⟩, .openBlock 4⟩,
    ⟨⟨none, none, false, 2⟩, .command .appendNext 0⟩,
    ⟨⟨none, none, false, 3⟩, .command (.branch (str "a")) 0⟩,
    closing]

def firstOfTwo : Engine :=
  { Engine.initial 1 with
    patSpace := str "x", lineNum := 1, hasTrailingNewline := true, nextLine := str "y",
    nextHasTrailingNewline := true, hasNext := true }

def quiet : Options := ⟨true, false, fun _ => false⟩

theorem execFlat_eq_meaning_loop : compileAst loopScript = .ok loopInsts ∧
      execFlat quiet loopInsts 8 0 firstOfTwo = loopScript.meaning quiet 8 firstOfTwo :=
  ⟨rfl, execFlat_eq_meaning rfl quiet 8 firstOfTwo⟩

/-- A jump does not continue right after its label: the label of `loopScript` is a range, which the
second look at it ends. -/
theorem execFlat_range_at_label : compileAst loopScript = .ok loopInsts ∧
      (execFlat quiet loopInsts 8 0 firstOfTwo).map (fun r => r.2.addrState 0) = some false ∧
      (Point.run quiet Point.pass loopScript 8 ⟨loopScript, []⟩ firstOfTwo).map
        (fun r => r.2.addrState 0) = some true :=
  ⟨rfl, by decide +kernel, by decide +kernel⟩

end GoPosix.Sed
