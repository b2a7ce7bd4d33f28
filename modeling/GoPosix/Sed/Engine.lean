import GoPosix.Sed.Compile

/-!
# The loops of the engine

`runEngineInternal` goes through the files, and through the lines of each file; for every line it
runs the script. Its loops are unrolled into one machine, whose steps are short: opening a file, the
start of a cycle, one instruction with what may follow it.

Most commands neither look at where the engine is in its input nor touch it: if these fields are
replaced before such a command, it is as if they were replaced after it (`Command.exec_withInput`).
-/

namespace GoPosix.Sed

open Bytes Engine

/-! ## The machine -/

/-- A file: its path, what it yields or the error of opening it, and whether its temporary file can
be created. -/
structure Input where
  path : Bytes
  content : Except Bytes Bytes
  temp : Except Bytes Unit

def stdinPath : Bytes := str "-"

/-- What `runEngineInternal` is given, after the compilation of the script. -/
structure Job where
  o : Options
  insts : List Flat
  inputs : List Input

/-- Where the engine is: before the file of an index, at the head of the loop over the lines, at an
instruction of the script, or at the end. -/
inductive Pc where
  | file (i : Nat)
  | loop
  | exec (ip : Nat)
  | done
  deriving DecidableEq, Repr

structure Config where
  pc : Pc
  exitCode : Nat
  engine : Engine

namespace Engine

def renameTemp (o : Options) (e : Engine) : Engine :=
  match e.tmpFile with
  | some tmp => if o.inPlace then { e with events := e.events ++ [.rename tmp e.currentFile] }
    else e
  | none => e

def createTemp (e : Engine) : Engine :=
  let tmp := e.currentFile ++ str ".tmp"
  { e with tmpFile := some tmp, out := .temp tmp, events := e.events ++ [.create tmp] }

/-- The fields that are set at the beginning of each file. -/
def enterFile (o : Options) (i : Nat) (path : Bytes) (e : Engine) : Engine :=
  let e := { e with fileIdx := i, currentFile := path }
  if o.inPlace then
    { e with lineNum := 0, addrState := fun _ => false, matchedLineAddrs := fun _ => false }
  else e

/-- The line ahead becomes the pattern space, unless `D` has said otherwise. -/
def takeLine (e : Engine) : Engine :=
  if e.skipRead then { e with skipRead := false }
  else { e with
    patSpace := e.nextLine, hasTrailingNewline := e.nextHasTrailingNewline,
    lineNum := e.lineNum + 1, substituted := false, skipRead := false,
    taken := e.taken ++ [e.next?] }

def startCycle (o : Options) (e : Engine) : Engine := lookAhead o true e.takeLine

def flushAppends (o : Options) (e : Engine) : Engine :=
  { e.pendingAppend.foldl (fun e text => e.printText o text) e with pendingAppend := [] }

/-- What is done after the script, and whether the engine goes on. -/
def endCycle (o : Options) (s : Stop) (e : Engine) : Bool × Engine :=
  match s with
  | .quit => (false, if !o.suppress && !e.skipRead then e.printLine o e.patSpace else e)
  | .quitNoPrint => (false, e)
  | .next => (true, e.flushAppends o)
  | .finished => (true, (e.autoPrint o).flushAppends o)

end Engine

/-- Whether a temporary file is made for a file. -/
def Job.usesTemp (job : Job) (inp : Input) : Bool := job.o.inPlace && inp.path ≠ stdinPath

/-- What a file yields, if it can be worked on. -/
def Job.delivered (job : Job) (inp : Input) : Except Bytes Bytes :=
  match inp.content with
  | .error err => .error (inp.path ++ str ": " ++ err)
  | .ok data =>
    if job.usesTemp inp then
      match inp.temp with
      | .error err => .error err
      | .ok () => .ok data
    else .ok data

def Job.openFile (job : Job) (i : Nat) (inp : Input) (c : Config) : Config :=
  let e := c.engine.enterFile job.o i inp.path
  match job.delivered inp with
  | .error err => ⟨.file (i + 1), 1, e.emit .stderr (str "sed: " ++ err ++ str "\n")⟩
  | .ok data =>
    let e := if job.usesTemp inp then e.createTemp else e
    let e := lookAhead job.o false { e with reader := data }
    if e.hasNext then ⟨.loop, c.exitCode, e⟩
    else ⟨.file (i + 1), c.exitCode, e.renameTemp job.o⟩

def Job.step (job : Job) (c : Config) : Config :=
  match c.pc with
  | .file i =>
    match job.inputs[i]? with
    | some inp => job.openFile i inp c
    | none => { c with pc := .done }
  | .loop =>
    if c.engine.hasNext then ⟨.exec 0, c.exitCode, c.engine.startCycle job.o⟩
    else
      ⟨.file (c.engine.fileIdx + 1), c.exitCode,
        if c.engine.currentFile = stdinPath then c.engine else c.engine.renameTemp job.o⟩
  | .exec ip =>
    match execInst job.o job.insts ip c.engine with
    | (.goto ip, e) => ⟨.exec ip, c.exitCode, e⟩
    | (.stop s, e) =>
      let (continues, e) := e.endCycle job.o s
      ⟨if continues then .loop else .done, c.exitCode, e⟩
  | .done => c

/-- The files that `truncateWFiles` creates. -/
def Flat.wFile? (inst : Flat) : Option Bytes :=
  match inst.op with
  | .command (.write file) _ => if file ≠ [] then some file else none
  | .command (.substitute s) _ => if s.wFile ≠ [] then some s.wFile else none
  | _ => none

def truncateWFiles (insts : List Flat) : List Event := (insts.filterMap Flat.wFile?).map .truncate

def Job.start (job : Job) : Config :=
  ⟨.file 0, 0, { initial job.inputs.length with events := truncateWFiles job.insts }⟩

def Job.run (job : Job) (n : Nat) : Config := job.step^[n] job.start

/-- `runEngineInternal` and what it returns, if `fuel` steps are enough. -/
def runEngineInternal (o : Options) (script : Script) (readers : List Input) (stdin : Bytes)
    (fuel : Nat) : Option (Nat × List Event) :=
  match compileAst script with
  | .error err => some (1, [.write .stderr (str "sed: " ++ err ++ str "\n")])
  | .ok insts =>
    let readers := if readers.isEmpty then [⟨stdinPath, .ok stdin, .ok ()⟩] else readers
    let c := Job.run ⟨o, insts, readers⟩ fuel
    if c.pc = .done then some (c.exitCode, c.engine.events) else none

theorem Job.run_succ (job : Job) (n : Nat) : job.run (n + 1) = job.step (job.run n) :=
  Function.iterate_succ_apply' _ _ _

section Steps

variable {job : Job} {code : Nat}

theorem Job.step_file_none (h : job.inputs[i]? = none) :
    job.step ⟨.file i, code, e⟩ = ⟨.done, code, e⟩ := by
  unfold Job.step
  simp only [h]

theorem Job.step_file_some (h : job.inputs[i]? = some inp) :
    job.step ⟨.file i, code, e⟩ = job.openFile i inp ⟨.file i, code, e⟩ := by
  unfold Job.step
  simp only [h]

theorem Job.step_loop_next (h : e.hasNext = true) :
    job.step ⟨.loop, code, e⟩ = ⟨.exec 0, code, e.startCycle job.o⟩ :=
  if_pos h

theorem Job.step_loop_end (h : e.hasNext = false) : job.step ⟨.loop, code, e⟩
      = ⟨.file (e.fileIdx + 1), code, if e.currentFile = stdinPath then e
          else e.renameTemp job.o⟩ :=
  if_neg (by simp [h])

theorem Job.step_exec_goto {ip ip' : Nat} {x : Engine}
    (h : execInst job.o job.insts ip e = (.goto ip', x)) :
    job.step ⟨.exec ip, code, e⟩ = ⟨.exec ip', code, x⟩ := by
  unfold Job.step
  simp only [h]

theorem Job.step_exec_stop {ip : Nat} {s : Stop} {x : Engine}
    (h : execInst job.o job.insts ip e = (.stop s, x)) :
    job.step ⟨.exec ip, code, e⟩ =
      ⟨if (x.endCycle job.o s).1 then .loop else .done, code, (x.endCycle job.o s).2⟩ := by
  unfold Job.step
  simp only [h]

theorem Job.step_eq_of_done (h : c.pc = .done) : job.step c = c := by
  unfold Job.step
  rw [h]

end Steps

/-! ## Lines -/

/-- The lines of a text, with their newlines. -/
def rawLines : Bytes → List Bytes
  | [] => []
  | c :: s =>
    if c = newline then [c] :: rawLines s
    else
      match rawLines s with
      | [] => [[c]]
      | l :: ls => (c :: l) :: ls

/-- A line without its end. -/
def chomp (line : Bytes) : Bytes :=
  if hasSuffix line (str "\n") then dropCR line.dropLast else line

def lines (s : Bytes) : List Bytes := (rawLines s).map chomp

namespace Engine

theorem readString_newline (s : Bytes) : readString (newline :: s) = ([newline], s) := rfl

theorem readString_cons (hc : c ≠ newline) (s : Bytes) :
    readString (c :: s) = (c :: (readString s).1, (readString s).2) := by
  unfold readString indexByte
  rw [List.findIdx?_cons]
  simp only [hc]
  cases s.findIdx? (· = newline) <;> rfl

theorem rawLines_eq_cons (hs : s ≠ []) :
    rawLines s = (readString s).1 :: rawLines (readString s).2 := by
  induction s with
  | nil => exact absurd rfl hs
  | cons c s ih =>
    by_cases hc : c = newline
    · rw [hc]
      rfl
    · rw [readString_cons hc, rawLines, if_neg hc]
      cases s with
      | nil => rfl
      | cons d s => rw [ih (List.cons_ne_nil d s)]

theorem readString_ne_nil (hs : s ≠ []) : (readString s).1 ≠ [] := by
  cases s with
  | nil => exact absurd rfl hs
  | cons c s =>
    by_cases hc : c = newline
    · rw [hc]
      exact List.cons_ne_nil _ _
    · rw [readString_cons hc]
      exact List.cons_ne_nil _ _

/-! ## The line ahead -/

variable (o : Options) (clear : Bool)

theorem lookAhead_nil (h : e.reader = []) : lookAhead o clear e = { e with
      hasNext := false, nextLine := if clear then [] else e.nextLine,
      isEOF := o.inPlace || e.fileIdx == e.fileCount - 1 } := by
  unfold lookAhead
  rw [h]
  simp [readString, indexByte]

theorem lookAhead_cons (h : e.reader ≠ []) : lookAhead o clear e = { e with
      reader := (readString e.reader).2,
      nextHasTrailingNewline := hasSuffix (readString e.reader).1 (str "\n"),
      nextLine := chomp (readString e.reader).1, hasNext := true, isEOF := false } := by
  have hp := List.length_pos_iff.2 (readString_ne_nil h)
  unfold lookAhead chomp
  generalize readString e.reader = r at hp ⊢
  obtain ⟨ls, rest⟩ := r
  have hl : 0 < List.length ls := hp
  cases hs : hasSuffix ls (str "\n") <;> simp [hl, hs]

theorem lookAhead_fileIdx (e : Engine) : (lookAhead o clear e).fileIdx = e.fileIdx := by
  by_cases h : e.reader = []
  · rw [lookAhead_nil o clear h]
  · rw [lookAhead_cons o clear h]

theorem lookAhead_fileCount (e : Engine) : (lookAhead o clear e).fileCount = e.fileCount := by
  by_cases h : e.reader = []
  · rw [lookAhead_nil o clear h]
  · rw [lookAhead_cons o clear h]

theorem lookAhead_taken (e : Engine) : (lookAhead o clear e).taken = e.taken := by
  by_cases h : e.reader = []
  · rw [lookAhead_nil o clear h]
  · rw [lookAhead_cons o clear h]

theorem lookAhead_isEOF (e : Engine) : (lookAhead o clear e).isEOF
      = (!(lookAhead o clear e).hasNext && (o.inPlace || e.fileIdx == e.fileCount - 1)) := by
  by_cases h : e.reader = []
  · rw [lookAhead_nil o clear h]
    rfl
  · rw [lookAhead_cons o clear h]
    rfl

theorem takeLine_reader (e : Engine) : e.takeLine.reader = e.reader := by
  unfold takeLine
  cases e.skipRead <;> rfl

theorem takeLine_fileIdx (e : Engine) : e.takeLine.fileIdx = e.fileIdx := by
  unfold takeLine
  cases e.skipRead <;> rfl

theorem takeLine_fileCount (e : Engine) : e.takeLine.fileCount = e.fileCount := by
  unfold takeLine
  cases e.skipRead <;> rfl

/-! ## The input of the engine -/

/-- The lines that the engine has not read from the current file, with the line ahead. -/
def ahead (e : Engine) : List Bytes := e.next?.toList ++ lines e.reader

theorem ahead_lookAhead (e : Engine) : (lookAhead o clear e).ahead = lines e.reader := by
  by_cases h : e.reader = []
  · rw [lookAhead_nil o clear h]
    rfl
  · rw [lookAhead_cons o clear h, lines, rawLines_eq_cons h]
    rfl

theorem reader_lookAhead {e : Engine} (h : (lookAhead o clear e).hasNext = false) :
    (lookAhead o clear e).reader = [] := by
  by_cases hr : e.reader = []
  · rw [lookAhead_nil o clear hr]
    exact hr
  · rw [lookAhead_cons o clear hr] at h
    cases h

def withInput (src e : Engine) : Engine :=
  { e with
    isEOF := src.isEOF, fileCount := src.fileCount, fileIdx := src.fileIdx,
    currentFile := src.currentFile, reader := src.reader,
    nextHasTrailingNewline := src.nextHasTrailingNewline, nextLine := src.nextLine,
    hasNext := src.hasNext, taken := src.taken }

def SameInput (src e : Engine) : Prop := withInput src e = e

theorem SameInput.trans {a b c : Engine} (hab : SameInput a b) (hbc : SameInput b c) :
    SameInput a c := by
  have h : withInput b c = withInput (withInput a b) c := by rw [hab]
  exact h.symm.trans hbc

theorem SameInput.congr (h : SameInput src e) (f : Engine → α)
    (hf : f (withInput src e) = f src) : f e = f src := by
  rw [← hf, show withInput src e = e from h]

/-- The name of the file matters only with `-i`. -/
def SameStream (o : Options) (src e : Engine) : Prop :=
  o.inPlace = false ∨ src.currentFile = e.currentFile

theorem SameStream.of_sameInput {o : Options} (h : SameStream o src e)
    (hx : SameInput e x) : SameStream o src x := h.imp_right fun hf =>
      hf.trans (hx.congr currentFile rfl).symm

section Frame

variable {o : Options} {src e : Engine}

theorem streamID_withInput (h : SameStream o src e) :
    (withInput src e).streamID o = e.streamID o := by
  unfold streamID
  obtain h | h := h
  · rw [h]
    rfl
  · rw [show (withInput src e).currentFile = e.currentFile from h]

theorem ite_withInput [Decidable p] [Decidable q] (hpq : p ↔ q)
    (hx : x = withInput src a) (hy : y = withInput src b) :
    (if p then x else y) = withInput src (if q then a else b) := by
  by_cases h : q
  · rw [if_pos h, if_pos (hpq.2 h), hx]
  · rw [if_neg h, if_neg (mt hpq.1 h), hy]

theorem endLine_withInput (w : Stream) (id : Bytes) :
    (withInput src e).endLine w id = withInput src (e.endLine w id) := by
  exact ite_withInput Iff.rfl rfl rfl

theorem printStream_withInput (w : Stream) (s id : Bytes) :
    (withInput src e).printStream w s id = withInput src (e.printStream w s id) := by
  unfold printStream
  rw [endLine_withInput]
  exact ite_withInput Iff.rfl rfl rfl

theorem printLine_withInput (h : SameStream o src e) (s : Bytes) :
    (withInput src e).printLine o s = withInput src (e.printLine o s) := by
  unfold printLine
  rw [streamID_withInput h, printStream_withInput]
  rfl

theorem printText_withInput (h : SameStream o src e) (s : Bytes) :
    (withInput src e).printText o s = withInput src (e.printText o s) := by
  unfold printText
  rw [streamID_withInput h, endLine_withInput]
  rfl

theorem autoPrint_withInput (h : SameStream o src e) :
    (withInput src e).autoPrint o = withInput src (e.autoPrint o) :=
  ite_withInput Iff.rfl rfl (printLine_withInput h e.patSpace)

theorem autoPrint_sameInput (o : Options) (e : Engine) : SameInput e (e.autoPrint o) :=
  (autoPrint_withInput (.inr rfl)).symm

theorem printFile_withInput (file : Bytes) :
    (withInput src e).printFile o file = withInput src (e.printFile o file) := by
  unfold printFile
  rw [printStream_withInput]
  exact ite_withInput Iff.rfl rfl rfl

theorem substitute_withInput (h : SameStream o src e) (s : Substitution) :
    (withInput src e).substitute o s = withInput src (e.substitute o s) := by
  unfold substitute
  rw [show (withInput src e).lastRegex = e.lastRegex from rfl]
  cases s.regexp <|> e.lastRegex with
  | none => rfl
  | some re =>
    refine ite_withInput Iff.rfl ?_ rfl
    let e₁ : Engine := { e with
      lastRegex := some re, substituted := true, patSpace := s.replace re e.patSpace }
    have hp : (if s.print then (withInput src e₁).printLine o e₁.patSpace else withInput src e₁)
        = withInput src (if s.print then e₁.printLine o e₁.patSpace else e₁) :=
      ite_withInput Iff.rfl (printLine_withInput (show SameStream o src e₁ from h) _) rfl
    refine ite_withInput Iff.rfl ?_ hp
    rw [← printFile_withInput]
    exact congrArg (printFile o s.wFile) hp

/-! ### Addresses

An address that asks for the last line looks at the input, the others do not. -/

def mapInput {α : Type} (src : Engine) (r : α × Engine) : α × Engine := (r.1, withInput src r.2)

theorem matchAddress_withInput (h : src.isEOF = e.isEOF) (a : Address) :
    (withInput src e).matchAddress a = mapInput src (e.matchAddress a) := by
  unfold matchAddress
  cases a with
  | line line step => rfl
  | last => exact Prod.ext h rfl
  | regexp re =>
    simp only [show (withInput src e).lastRegex = e.lastRegex from rfl]
    cases re <|> e.lastRegex <;> rfl

theorem matchStart_withInput (h : src.isEOF = e.isEOF) (a1 : Address) (k : Nat) :
    (withInput src e).matchStart a1 k = mapInput src (e.matchStart a1 k) := by
  unfold matchStart
  cases a1 with
  | line line step =>
    by_cases hl : e.lineNum ≥ line ∧ e.matchedLineAddrs k = false
    · simp only [if_pos hl]
      exact if_pos hl
    · simp only [if_neg hl]
      exact if_neg hl
  | last => exact matchAddress_withInput h .last
  | regexp re => exact matchAddress_withInput h (.regexp re)

theorem openRange_withInput (a2 : Address) (k : Nat) :
    (withInput src e).openRange a2 k = withInput src (e.openRange a2 k) := by
  cases a2 with
  | line line step => exact ite_withInput Iff.rfl rfl rfl
  | last => rfl
  | regexp re => rfl

theorem matchEnd_withInput (h : src.isEOF = e.isEOF) (a2 : Address) (k : Nat) :
    (withInput src e).matchEnd a2 k = mapInput src (e.matchEnd a2 k) := by
  cases a2 with
  | line line step => rfl
  | last => exact matchAddress_withInput h .last
  | regexp re => exact matchAddress_withInput h (.regexp re)

theorem beginRange_withInput (h : src.isEOF = e.isEOF) (a1 a2 : Address) (k : Nat) :
    (withInput src e).beginRange a1 a2 k = mapInput src (e.beginRange a1 a2 k) := by
  unfold beginRange
  by_cases hs : e.addrState k
  · simp only [if_pos hs]
    exact if_pos hs
  · rw [if_neg hs, if_neg (show ¬ (withInput src e).addrState k from hs), matchStart_withInput h]
    exact Prod.ext rfl (ite_withInput Iff.rfl (openRange_withInput a2 k) rfl)

theorem closeRange_withInput (h : src.isEOF = e.isEOF) (a2 : Address) (k : Nat) :
    (withInput src e).closeRange a2 k = withInput src (e.closeRange a2 k) := by
  unfold closeRange
  rw [matchEnd_withInput h]
  exact ite_withInput Iff.rfl rfl rfl

theorem beginRange_isEOF (a1 a2 : Address) (k : Nat) : (e.beginRange a1 a2 k).2.isEOF = e.isEOF :=
  congrArg (fun r => r.2.isEOF) (@beginRange_withInput e e rfl a1 a2 k)

theorem matchRange_withInput (h : src.isEOF = e.isEOF) (a1 a2 : Address) (k : Nat) :
    (withInput src e).matchRange a1 a2 k = mapInput src (e.matchRange a1 a2 k) := by
  unfold matchRange
  rw [beginRange_withInput h]
  exact Prod.ext rfl (ite_withInput Iff.rfl
    (closeRange_withInput (h.trans (beginRange_isEOF a1 a2 k).symm) a2 k) rfl)

theorem shouldRun_withInput (h : src.isEOF = e.isEOF) (s : Selector) :
    (withInput src e).shouldRun s = mapInput src (e.shouldRun s) := by
  unfold shouldRun
  split
  · rfl
  · rw [matchAddress_withInput h]
    rfl
  · rw [matchRange_withInput h]
    rfl

end Frame

end Engine

/-! ### Commands -/

/-- The commands that take the line ahead. -/
def Command.reads : Command → Bool
  | .next | .appendNext => true
  | _ => false

section Commands

variable {o : Options} {src e : Engine} {c : Command}

theorem Command.exec_withInput (h : SameStream o src e) (hc : c.reads = false) :
    c.exec o (withInput src e) = mapInput src (c.exec o e) := by
  cases c with
  | substitute s => exact Prod.ext rfl (substitute_withInput h s)
  | print => exact Prod.ext rfl (printLine_withInput h e.patSpace)
  | printFirst =>
    unfold Command.exec
    simp only [show (withInput src e).patSpace = e.patSpace from rfl]
    cases indexByte e.patSpace newline with
    | none => exact Prod.ext rfl (printLine_withInput h e.patSpace)
    | some i => rfl
  | deleteFirst =>
    unfold Command.exec
    simp only [show (withInput src e).patSpace = e.patSpace from rfl]
    cases indexByte e.patSpace newline <;> rfl
  | next => cases hc
  | appendNext => cases hc
  | insert text => exact Prod.ext rfl (printText_withInput h text)
  | change text => exact Prod.ext rfl (printText_withInput h text)
  | write file => exact Prod.ext rfl (ite_withInput Iff.rfl (printFile_withInput file) rfl)
  | _ => rfl

/-- A command that takes the line ahead ends the run at the end of the input. -/
theorem Command.exec_reads_eof (hc : c.reads = true) (he : e.isEOF = true) :
    ∃ (s : Stop) (x : Engine), (s = .quit ∨ s = .quitNoPrint) ∧ SameInput e x ∧
      c.exec o e = (.stop s, x) ∧
      ∀ src, SameStream o src e → src.isEOF = true → c.exec o (withInput src e) =
          (.stop s, withInput src x) := by
  cases c with
  | next =>
    refine ⟨.quitNoPrint, e.autoPrint o, .inr rfl, autoPrint_sameInput o e, ?_, ?_⟩
    · have heof := ((autoPrint_sameInput o e).congr isEOF rfl).trans he
      exact if_pos heof
    · intro src h hs
      show (if ((withInput src e).autoPrint o).isEOF then _ else _) = _
      rw [autoPrint_withInput h]
      exact if_pos hs
  | appendNext => exact ⟨.quit, e, .inl rfl, rfl, if_pos he, fun src _ hs => if_pos hs⟩
  | _ => cases hc

/-- `n` and `N` take the next line, whatever stream it comes from. -/
theorem Command.exec_reads (hc : c.reads = true) (he : e.isEOF = false) :
    ∃ (p : Bytes) (x : Engine), SameInput e x ∧ c.exec o e = (.on, x.feed o p) ∧
      ∀ src, SameStream o src e → src.isEOF = false → src.nextLine = e.nextLine →
        c.exec o (withInput src e) = (.on, (withInput src x).feed o p) := by
  have hne : ¬ e.isEOF := by simp [he]
  cases c with
  | next =>
    refine ⟨e.nextLine, e.autoPrint o, autoPrint_sameInput o e, ?_, ?_⟩
    · have heof := (autoPrint_sameInput o e).congr isEOF rfl
      have hn := (autoPrint_sameInput o e).congr nextLine rfl
      show (if (e.autoPrint o).isEOF then _ else _) = _
      rw [heof, he, hn]
      rfl
    · intro src h hs hn
      show (if ((withInput src e).autoPrint o).isEOF then _
        else (_, ((withInput src e).autoPrint o).feed o _)) = _
      rw [autoPrint_withInput h]
      show (if src.isEOF then _ else (Flow.on, feed o src.nextLine _)) = _
      rw [hs, hn]
      rfl
  | appendNext =>
    refine ⟨e.patSpace ++ str "\n" ++ e.nextLine, e, rfl, if_neg hne, ?_⟩
    intro src _ hs hn
    show (if (withInput src e).isEOF then _ else
      (_, (withInput src e).feed o (e.patSpace ++ str "\n" ++ src.nextLine))) = _
    rw [show (withInput src e).isEOF = false from hs, hn]
    rfl
  | _ => cases hc

end Commands

/-! ### Instructions -/

/-- Whether the instruction at `ip` is selected and takes the line ahead. -/
def reads (insts : List Flat) (ip : Nat) (e : Engine) : Bool :=
  match insts[ip]? with
  | some ⟨sel, .command cmd _⟩ => (e.shouldRun sel).1 && cmd.reads
  | _ => false

/-- The instruction at `ip` is selected, or not, whichever of the two inputs the engine has. -/
def SameChoice (insts : List Flat) (ip : Nat) (src e : Engine) : Prop :=
  ∀ inst, insts[ip]? = some inst →
    (withInput src e).shouldRun inst.sel = mapInput src (e.shouldRun inst.sel)

section Instructions

variable {o : Options} {insts : List Flat}

theorem SameChoice.of_isEOF (h : src.isEOF = e.isEOF) : SameChoice insts ip src e :=
  fun i _ => shouldRun_withInput h i.sel

/-- The choice at the end of the input is known from the engine that is told so. -/
theorem SameChoice.of_eof (h : SameChoice insts ip { e with isEOF := true } e)
    (hs : src.isEOF = true) : SameChoice insts ip src e := by
  intro i hi
  have he : src.isEOF = (withInput { e with isEOF := true } e).isEOF := hs
  have hr := shouldRun_withInput he i.sel
  rw [h i hi] at hr
  exact hr

theorem Engine.shouldRun_sameInput (e : Engine) (s : Selector) : SameInput e (e.shouldRun s).2 :=
  (congrArg Prod.snd (@shouldRun_withInput e e rfl s)).symm

/-- An instruction that reads no input does not depend on it. -/
theorem execInst_withInput (h : SameStream o src e) (hc : SameChoice insts ip src e)
    (hr : reads insts ip e = false) :
    execInst o insts ip (.withInput src e) = mapInput src (execInst o insts ip e) := by
  unfold execInst
  unfold reads at hr
  cases hi : insts[ip]? with
  | none => rfl
  | some i =>
    obtain ⟨s, op⟩ := i
    have hs := h.of_sameInput (shouldRun_sameInput e s)
    rw [hi] at hr
    simp only [hc _ hi, mapInput]
    cases op with
    | openBlock target => rfl
    | closeBlock => rfl
    | command cmd target =>
      simp only at hr ⊢
      generalize e.shouldRun s = r at hr hs ⊢
      obtain ⟨run, x⟩ := r
      cases run with
      | false => rfl
      | true =>
        have he := Command.exec_withInput hs (show cmd.reads = false from hr)
        simp only [he]
        rfl

theorem execInst_sameInput (hr : reads insts ip e = false) :
    SameInput e (execInst o insts ip e).2 :=
  (congrArg Prod.snd (execInst_withInput (.inr rfl) (.of_isEOF rfl) hr)).symm

theorem execInst_of_reads (hr : reads insts ip e = true) :
    ∃ (cmd : Command) (target : Nat) (x : Engine), cmd.reads = true ∧ SameInput e x ∧
      execInst o insts ip e = ((cmd.exec o x).1.next ip target, (cmd.exec o x).2) ∧
      ∀ src, SameChoice insts ip src e → execInst o insts ip (.withInput src e)
          = ((cmd.exec o (.withInput src x)).1.next ip target,
              (cmd.exec o (.withInput src x)).2) := by
  unfold reads at hr
  unfold execInst
  cases hi : insts[ip]? with
  | none =>
    rw [hi] at hr
    cases hr
  | some i =>
    obtain ⟨s, op⟩ := i
    rw [hi] at hr
    cases op with
    | openBlock target => cases hr
    | closeBlock => cases hr
    | command cmd target =>
      obtain ⟨hruns, hcmd⟩ := Bool.and_eq_true_iff.1 hr
      refine ⟨cmd, target, (e.shouldRun s).2, hcmd, shouldRun_sameInput e s, ?_, ?_⟩
      · simp [hruns]
      · intro src hc
        simp [hc _ hi, mapInput, hruns]

theorem execInst_eof (hr : reads insts ip e = true) (he : e.isEOF = true) :
    ∃ (s : Stop) (x : Engine), (s = .quit ∨ s = .quitNoPrint) ∧ SameInput e x ∧
      execInst o insts ip e = (.stop s, x) ∧
      ∀ src, SameStream o src e → src.isEOF = true →
        execInst o insts ip (.withInput src e) = (.stop s, .withInput src x) := by
  obtain ⟨cmd, target, x, hc, hx, hexec, hsrc⟩ := @execInst_of_reads o insts ip e hr
  obtain ⟨s, y, hs, hy, hstate, hstate'⟩ :=
    @Command.exec_reads_eof o x cmd hc ((hx.congr isEOF rfl).trans he)
  refine ⟨s, y, hs, hx.trans hy, ?_, fun src h heof => ?_⟩
  · rw [hexec, hstate]
    rfl
  · rw [hsrc src (.of_isEOF (heof.trans he.symm)), hstate' src (h.of_sameInput hx) heof]
    rfl

theorem execInst_feed (hr : reads insts ip e = true) (he : e.isEOF = false) :
    ∃ (p : Bytes) (x : Engine), SameInput e x ∧
      execInst o insts ip e = (.goto (ip + 1), x.feed o p) ∧
      ∀ src, SameStream o src e → src.isEOF = false → src.nextLine = e.nextLine →
        execInst o insts ip (.withInput src e) = (.goto (ip + 1), (withInput src x).feed o p) := by
  obtain ⟨cmd, target, x, hc, hx, hexec, hs⟩ := @execInst_of_reads o insts ip e hr
  obtain ⟨p, y, hy, hf, hf'⟩ := @Command.exec_reads o x cmd hc ((hx.congr isEOF rfl).trans he)
  refine ⟨p, y, hx.trans hy, ?_, fun src h heof hn => ?_⟩
  · rw [hexec, hf]
    rfl
  · rw [hs src (.of_isEOF (heof.trans he.symm)),
      hf' src (h.of_sameInput hx) heof (hn.trans (hx.congr nextLine rfl).symm)]
    rfl

end Instructions

/-! ### The end of a cycle -/

section Cycles

theorem Engine.printTexts_withInput (t : List Bytes) : ∀ {e : Engine}, SameStream o src e →
      t.foldl (fun e text => e.printText o text) (withInput src e)
        = withInput src (t.foldl (fun e text => e.printText o text) e) := by
  induction t with
  | nil =>
    intro _ _
    rfl
  | cons text t ih =>
    intro e h
    have hs : SameInput e (e.printText o text) := (printText_withInput (.inr rfl) text).symm
    rw [List.foldl_cons, printText_withInput h]
    exact ih (h.of_sameInput hs)

theorem Engine.flushAppends_withInput (h : SameStream o src e) :
    (withInput src e).flushAppends o = withInput src (e.flushAppends o) := by
  have hp := printTexts_withInput e.pendingAppend h
  unfold flushAppends
  rw [show (withInput src e).pendingAppend = e.pendingAppend from rfl, hp]
  rfl

theorem Engine.endCycle_withInput (h : SameStream o src e) (s : Stop) :
    (withInput src e).endCycle o s = mapInput src (e.endCycle o s) := by
  cases s with
  | quit =>
    refine Prod.ext rfl ?_
    exact ite_withInput Iff.rfl (printLine_withInput h e.patSpace) rfl
  | quitNoPrint => rfl
  | next => exact Prod.ext rfl (flushAppends_withInput h)
  | finished =>
    refine Prod.ext rfl ?_
    have hs := autoPrint_sameInput o e
    show ((withInput src e).autoPrint o).flushAppends o = _
    rw [autoPrint_withInput h]
    exact flushAppends_withInput (h.of_sameInput hs)

theorem Engine.endCycle_sameInput (o : Options) (s : Stop) (e : Engine) :
    SameInput e (e.endCycle o s).2 :=
  (congrArg Prod.snd (@endCycle_withInput o e e (.inr rfl) s)).symm

end Cycles

end GoPosix.Sed
