import GoPosix.Lib.Runs
import GoPosix.Sed.Engine

/-!
# Several files and their concatenation

Without `-i` the files are meant to be one stream. The run on their concatenation has the engine of
the run on the files, with the later files appended to its reader, and with the next line already
ahead at the end of a file (`glue`). The steps between two files have no counterpart. The runs part
where the script looks over the end of a file (`Job.SeesBoundary`): there `n` and `N` do not find
the first line of the next file, and `$` does not know that all later files are empty.
-/

namespace GoPosix.Sed

open Bytes List Engine Job

/-! ## Reading over the end of a file -/

/-- A text without an unfinished line. -/
def Terminated (s : Bytes) : Prop := s = [] ∨ s.getLast? = some newline

namespace Engine

theorem readString_append (h : newline ∈ r) (s : Bytes) :
    readString (r ++ s) = ((readString r).1, (readString r).2 ++ s) := by
  induction r with
  | nil => cases h
  | cons c r ih =>
    by_cases hc : c = newline
    · rw [hc, cons_append, readString_newline, readString_newline]
    · have hr : newline ∈ r := (mem_cons.1 h).resolve_left (Ne.symm hc)
      rw [cons_append, readString_cons hc, readString_cons hc, ih hr]

theorem readString_fst_append_snd (r : Bytes) : (readString r).1 ++ (readString r).2 = r := by
  unfold readString
  cases indexByte r newline with
  | none => exact append_nil r
  | some i => exact take_append_drop (i + 1) r

end Engine

theorem Terminated.mem (h : Terminated s) (hs : s ≠ []) : newline ∈ s :=
  mem_of_getLast? (h.resolve_left hs)

theorem Terminated.readString (h : Terminated s) : Terminated (Engine.readString s).2 := by
  by_cases hr : (Engine.readString s).2 = []
  · exact .inl hr
  · refine .inr ?_
    have hs := readString_fst_append_snd s
    obtain rfl | hl := h
    · exact absurd rfl hr
    · rwa [← hs, List.getLast?_append_of_ne_nil _ hr] at hl

namespace Engine

variable (o : Options) (path later : Bytes)

/-- The engine that has the later files in its reader. -/
def shift (e : Engine) : Engine :=
  { e with reader := e.reader ++ later, fileIdx := 0, fileCount := 1, currentFile := path }

/-- The engine of the run on the concatenation. -/
def glue (e : Engine) : Engine :=
  if e.hasNext then e.shift path later else lookAhead o true (e.shift path later)

variable {o path later}

theorem lookAhead_reset (e : Engine) (hasNext isEOF : Bool) (nextLine : Bytes) :
    lookAhead o true { e with hasNext, isEOF, nextLine } = lookAhead o true e := by
  by_cases hr : e.reader = []
  · refine Eq.trans ?_ (lookAhead_nil o true hr).symm
    exact lookAhead_nil o true hr
  · refine Eq.trans ?_ (lookAhead_cons o true hr).symm
    exact lookAhead_cons o true hr

theorem glue_of_next {e : Engine} (h : e.hasNext = true) :
    e.glue o path later = e.shift path later := if_pos h

theorem glue_of_end {e : Engine} (h : e.hasNext = false) :
    e.glue o path later = lookAhead o true (e.shift path later) := if_neg (by simp [h])

theorem shift_lookAhead (hr : e.reader ≠ []) (h : later = [] ∨ Terminated e.reader) (clear : Bool) :
    (lookAhead o clear e).shift path later = lookAhead o true (e.shift path later) := by
  have hread : readString (e.reader ++ later) =
      ((readString e.reader).1, (readString e.reader).2 ++ later) := by
    obtain rfl | ht := h
    · rw [append_nil, append_nil]
    · exact readString_append (ht.mem hr) later
  have hne : (e.shift path later).reader ≠ [] := append_ne_nil_of_left_ne_nil hr later
  rw [lookAhead_cons o clear hr, lookAhead_cons o true hne]
  show _ = { e.shift path later with
    reader := (readString (e.reader ++ later)).2,
    nextHasTrailingNewline := hasSuffix (readString (e.reader ++ later)).1 (str "\n"),
    nextLine := chomp (readString (e.reader ++ later)).1, hasNext := true, isEOF := false }
  rw [hread]
  rfl

/-- The line ahead is the same, be it looked for before or after the files are joined. -/
theorem glue_lookAhead (h : later = [] ∨ Terminated e.reader) :
    (lookAhead o true e).glue o path later = lookAhead o true (e.shift path later) := by
  by_cases hr : e.reader = []
  · rw [lookAhead_nil o true hr]
    exact lookAhead_reset (e.shift path later) _ _ _
  · rw [← shift_lookAhead hr h true]
    apply glue_of_next
    rw [lookAhead_cons o true hr]

theorem lookAhead_withInput (clear : Bool) (s e : Engine) :
    lookAhead o clear (withInput s e) = withInput (lookAhead o clear s) e := by
  by_cases hr : s.reader = []
  · rw [lookAhead_nil o clear hr]
    exact lookAhead_nil o clear hr
  · rw [lookAhead_cons o clear hr]
    exact lookAhead_cons o clear hr

theorem glue_withInput (s e : Engine) :
    (withInput s e).glue o path later = withInput (s.glue o path later) e := by
  cases hn : s.hasNext with
  | true =>
    rw [glue_of_next hn]
    exact glue_of_next hn
  | false =>
    rw [glue_of_end hn, ← lookAhead_withInput]
    exact glue_of_end hn

theorem glue_of_sameInput {s e : Engine} (h : SameInput s e) :
    e.glue o path later = withInput (s.glue o path later) e := by
  rw [← glue_withInput, show withInput s e = e from h]

theorem Terminated.lookAhead (clear : Bool) {e : Engine} (h : Terminated e.reader) :
    Terminated (lookAhead o clear e).reader := by
  by_cases hr : e.reader = []
  · rw [lookAhead_nil o clear hr]
    exact .inl hr
  · rw [lookAhead_cons o clear hr]
    exact h.readString

end Engine

/-! ## Jobs on several files -/

/-- What a file yields; nothing, if it cannot be opened. -/
def Input.data (inp : Input) : Bytes :=
  match inp.content with
  | .ok data => data
  | .error _ => []

def allData (inputs : List Input) : Bytes := (inputs.map Input.data).flatten

/-- Files that can be read as one stream: not in place, all of them can be opened, and each but the
last is without an unfinished line. -/
structure IsStream (o : Options) (inputs : List Input) : Prop where
  inPlace : o.inPlace = false
  readable : ∀ inp ∈ inputs, ∃ data, inp.content = .ok data
  terminated : ∀ i inp, inputs[i]? = some inp → i + 1 < inputs.length → Terminated inp.data

def Job.later (job : Job) (i : Nat) : Bytes := allData (job.inputs.drop i)

def Job.concat (job : Job) (path : Bytes) : Job :=
  { job with inputs := [⟨path, .ok (allData job.inputs), .ok ()⟩] }

/-- A step that looks over the end of a file which is not the last one: it takes the line ahead, or
its address is `$` and there is no other line. -/
structure Job.SeesBoundary (job : Job) (c : Config) (ip : Nat) : Prop where
  pc : c.pc = .exec ip
  ends : c.engine.hasNext = false
  notLast : c.engine.isEOF = false
  looks : reads job.insts ip c.engine = true ∨
    job.later (c.engine.fileIdx + 1) = [] ∧
      ¬ SameChoice job.insts ip { c.engine with isEOF := true } c.engine

theorem Job.later_of_getElem? {job : Job} {inp : Input} (h : job.inputs[i]? = some inp) :
    job.later i = inp.data ++ job.later (i + 1) := by
  obtain ⟨hi, rfl⟩ := List.getElem?_eq_some_iff.1 h
  unfold later allData
  rw [drop_eq_getElem_cons hi, map_cons, flatten_cons]

theorem Job.later_of_le {job : Job} (h : job.inputs.length ≤ i) : job.later i = [] := by
  unfold later
  rw [drop_of_length_le h]
  rfl

/-! ## The simulation -/

/-- The state of the run on the concatenation. -/
def Job.merge (job : Job) (path : Bytes) (c : Config) : Config :=
  match c.pc with
  | .file i => ⟨.loop, c.exitCode, c.engine.glue job.o path (job.later i)⟩
  | pc => ⟨pc, c.exitCode, c.engine.glue job.o path (job.later (c.engine.fileIdx + 1))⟩

/-- How an engine inside of a file is. -/
structure Job.Within (job : Job) (e : Engine) : Prop where
  ends : e.hasNext = false → e.reader = []
  idx : e.fileIdx < job.inputs.length
  count : e.fileCount = job.inputs.length
  terminated : e.fileIdx + 1 < job.inputs.length → Terminated e.reader
  eof : e.isEOF = (!e.hasNext && e.fileIdx == job.inputs.length - 1)

def Job.Inv (job : Job) (c : Config) : Prop :=
  match c.pc with
  | .file i => c.engine.hasNext = false ∧ c.engine.reader = [] ∧ i ≤ c.engine.fileIdx + 1 ∧
      c.engine.fileCount = job.inputs.length
  | .done => True
  | _ => job.Within c.engine

/-- The number of files that are left, counted twice. -/
def Job.filesLeft (job : Job) (c : Config) : Nat :=
  match c.pc with
  | .file i => 2 * (job.inputs.length + 1 - i)
  | .done => 0
  | _ => 2 * (job.inputs.length - c.engine.fileIdx) + 1

section Simulation

variable {job : Job} {path : Bytes} {code : Nat} {e x : Engine}

/-- A step is some steps of the run on the concatenation; if it is none, there is less left. -/
abbrev Job.Simulates (job : Job) (path : Bytes) (c : Config) : Prop :=
  job.Inv (job.step c) ∧ ∃ j, (job.concat path).step^[j] (job.merge path c) =
    job.merge path (job.step c) ∧
    (j = 0 → job.filesLeft (job.step c) < job.filesLeft c)

theorem Job.Simulates.one (hi : job.Inv (job.step c))
    (hs : (job.concat path).step (job.merge path c) = job.merge path (job.step c)) :
    job.Simulates path c :=
  ⟨hi, 1, hs, nofun⟩

theorem Job.Simulates.none (hi : job.Inv (job.step c))
    (hm : job.merge path (job.step c) = job.merge path c)
    (hr : job.filesLeft (job.step c) < job.filesLeft c) : job.Simulates path c :=
  ⟨hi, 0, hm.symm, fun _ => hr⟩

namespace Job.Within

theorem of_sameInput (h : job.Within e) (hx : SameInput e x) : job.Within x := by
  rw [← show withInput e x = x from hx]
  exact ⟨h.ends, h.idx, h.count, h.terminated, h.eof⟩

theorem lookAhead (hp : job.o.inPlace = false) (hi : e.fileIdx < job.inputs.length)
    (hc : e.fileCount = job.inputs.length)
    (ht : e.fileIdx + 1 < job.inputs.length → Terminated e.reader) (clear : Bool) :
    job.Within (.lookAhead job.o clear e) where
  ends := reader_lookAhead job.o clear
  idx := by rwa [lookAhead_fileIdx]
  count := by rwa [lookAhead_fileCount]
  terminated h := by
    rw [lookAhead_fileIdx] at h
    exact Engine.Terminated.lookAhead clear (ht h)
  eof := by rw [lookAhead_isEOF, hp, lookAhead_fileIdx, hc, Bool.false_or]

theorem later_or_terminated (h : job.Within e) :
    job.later (e.fileIdx + 1) = [] ∨ Terminated e.reader := by
  by_cases hl : e.fileIdx + 1 < job.inputs.length
  · exact .inr (h.terminated hl)
  · exact .inl (later_of_le (Nat.le_of_not_lt hl))

theorem later_of_isEOF (h : job.Within e) (he : e.isEOF = true) :
    e.hasNext = false ∧ job.later (e.fileIdx + 1) = [] := by
  rw [h.eof, Bool.and_eq_true, Bool.not_eq_true', beq_iff_eq] at he
  exact ⟨he.1, later_of_le (by omega)⟩

theorem glue_isEOF (h : job.Within e) (hn : e.hasNext = false) :
    (e.glue job.o path (job.later (e.fileIdx + 1))).isEOF =
      decide (job.later (e.fileIdx + 1) = []) := by
  have hreader : (e.shift path (job.later (e.fileIdx + 1))).reader = job.later (e.fileIdx + 1) := by
    show e.reader ++ _ = _
    rw [h.ends hn, nil_append]
  rw [glue_of_end hn]
  by_cases hl : job.later (e.fileIdx + 1) = []
  · rw [lookAhead_nil _ _ (hreader.trans hl), decide_eq_true hl]
    exact Bool.or_true _
  · rw [lookAhead_cons _ _ (fun hr => hl (hreader.symm.trans hr)), decide_eq_false hl]

end Job.Within

/-- A step that does not look over the end of the file chooses in the same way. -/
theorem Job.Within.sameChoice (h : job.Within e) (hs : ¬ job.SeesBoundary ⟨.exec ip, code, e⟩ ip) :
    SameChoice job.insts ip (e.glue job.o path (job.later (e.fileIdx + 1))) e := by
  cases hn : e.hasNext with
  | true =>
    rw [glue_of_next hn]
    exact .of_isEOF rfl
  | false =>
    have heof := @Job.Within.glue_isEOF job path e h hn
    cases he : e.isEOF with
    | true =>
      rw [decide_eq_true (h.later_of_isEOF he).2] at heof
      exact .of_isEOF (heof.trans he.symm)
    | false =>
      by_cases hl : job.later (e.fileIdx + 1) = []
      · rw [decide_eq_true hl] at heof
        refine SameChoice.of_eof ?_ heof
        by_contra hc
        exact hs ⟨rfl, hn, he, .inr ⟨hl, hc⟩⟩
      · rw [decide_eq_false hl] at heof
        exact .of_isEOF (heof.trans he.symm)

/-- An instruction that reads no input does the same on both sides. -/
theorem Job.sim_exec_kept (hp : job.o.inPlace = false) (h : job.Within e)
    (hs : SameInput e (execInst job.o job.insts ip e).2)
    (he : execInst job.o job.insts ip (e.glue job.o path (job.later (e.fileIdx + 1)))
      = mapInput (e.glue job.o path (job.later (e.fileIdx + 1))) (execInst job.o job.insts ip e)) :
    job.Simulates path ⟨.exec ip, code, e⟩ := by
  have hg : ∀ {x : Engine}, SameInput e x →
      x.glue job.o path (job.later (x.fileIdx + 1)) =
          withInput (e.glue job.o path (job.later (e.fileIdx + 1))) x := by
    intro x hx
    rw [hx.congr fileIdx rfl, glue_of_sameInput hx]
  cases hx : execInst job.o job.insts ip e with
  | mk next x =>
    rw [hx] at hs he
    cases next with
    | goto ip' =>
      apply Simulates.one <;> rw [step_exec_goto hx]
      · exact h.of_sameInput hs
      refine (@step_exec_goto (job.concat path) code _ ip ip' _ he).trans ?_
      exact congrArg (Config.mk (.exec ip') code) (hg hs).symm
    | stop s =>
      have hend := hs.trans (endCycle_sameInput job.o s x)
      have hm := @endCycle_withInput job.o (e.glue job.o path (job.later (e.fileIdx + 1))) x
        (.inl hp) s
      have hstep := @step_exec_stop (job.concat path) code _ ip s _ he
      rw [show (job.concat path).o = job.o from rfl, hm] at hstep
      apply Simulates.one <;> rw [step_exec_stop hx]
      · cases (x.endCycle job.o s).1 with
        | true => exact h.of_sameInput hend
        | false => exact trivial
      · refine hstep.trans ?_
        simp only [mapInput]
        rw [← hg hend]
        generalize x.endCycle job.o s = r
        obtain ⟨c, y⟩ := r
        cases c <;> rfl

/-- **One instruction** that does not look over the end of the file. -/
theorem Job.sim_exec (hp : job.o.inPlace = false) (h : job.Within e)
    (hsees : ¬ job.SeesBoundary ⟨.exec ip, code, e⟩ ip) :
      job.Simulates path ⟨.exec ip, code, e⟩ := by
  have hs : SameStream job.o (e.glue job.o path (job.later (e.fileIdx + 1))) e := .inl hp
  have hse : e.glue job.o path (job.later (e.fileIdx + 1))
      = withInput (e.glue job.o path (job.later (e.fileIdx + 1))) e :=
    glue_of_sameInput rfl
  cases hr : reads job.insts ip e with
  | false =>
    apply sim_exec_kept hp h (execInst_sameInput hr)
    rw [hse]
    exact execInst_withInput hs (h.sameChoice hsees) hr
  | true =>
    cases heof : e.isEOF with
    | true =>
      obtain ⟨hn, hl⟩ := h.later_of_isEOF heof
      obtain ⟨s, x, -, hx, he, hsrc⟩ := @execInst_eof job.o job.insts ip e hr heof
      have hg := (@Job.Within.glue_isEOF job path e h hn).trans (decide_eq_true hl)
      apply sim_exec_kept hp h
      · rw [he]
        exact hx
      · rw [hse, hsrc _ hs hg, he]
        rfl
    | false =>
      have hn : e.hasNext = true := by
        by_contra hend
        exact hsees ⟨rfl, Bool.not_eq_true _ ▸ hend, heof, .inl hr⟩
      obtain ⟨p, x, hx, he, hsrc⟩ := @execInst_feed job.o job.insts ip e hr heof
      have hg := @glue_of_next job.o path (job.later (e.fileIdx + 1)) e hn
      rw [hg] at hse hs
      have hi : x.fileIdx = e.fileIdx := hx.congr fileIdx rfl
      have hreader : x.reader = e.reader := hx.congr reader rfl
      have hshift : withInput (e.shift path (job.later (e.fileIdx + 1))) x =
          x.shift path (job.later (e.fileIdx + 1)) :=
        congrArg (shift path (job.later (e.fileIdx + 1))) (show withInput e x = x from hx)
      have hf := hsrc _ hs heof rfl
      rw [hshift] at hf
      apply Simulates.one <;> rw [step_exec_goto he]
      · apply Job.Within.lookAhead hp
        · exact hi ▸ h.idx
        · exact (hx.congr fileCount rfl).trans h.count
        · exact fun hlast => hreader ▸ h.terminated (hi ▸ hlast)
      · show (job.concat path).step ⟨.exec ip, code, e.glue job.o path _⟩ = _
        rw [hg]
        refine (@step_exec_goto (job.concat path) code _ ip (ip + 1) _ hf).trans ?_
        refine congrArg (Config.mk (.exec (ip + 1)) code) ?_
        unfold feed
        rw [lookAhead_fileIdx, glue_lookAhead]
        · rw [show job.later (x.fileIdx + 1) = job.later (e.fileIdx + 1) by rw [hi]]
          rfl
        · rw [hi, hreader]
          exact h.later_or_terminated

theorem Engine.takeLine_shift (later : Bytes) (e : Engine) :
    (e.shift path later).takeLine = e.takeLine.shift path later := by
  unfold takeLine
  rw [show (e.shift path later).skipRead = e.skipRead from rfl]
  cases e.skipRead <;> rfl

theorem Job.sim_next (hp : job.o.inPlace = false) (h : job.Within e) (hn : e.hasNext = true) :
    job.Simulates path ⟨.loop, code, e⟩ := by
  apply Simulates.one <;> rw [step_loop_next hn]
  · apply Job.Within.lookAhead hp
    · rw [takeLine_fileIdx]
      exact h.idx
    · rw [takeLine_fileCount]
      exact h.count
    · rw [takeLine_fileIdx, takeLine_reader]
      exact h.terminated
  · show (job.concat path).step ⟨.loop, code, e.glue job.o path _⟩ = _
    rw [glue_of_next hn]
    rw [step_loop_next (show (e.shift path _).hasNext = true from hn)]
    refine congrArg (Config.mk (.exec 0) code) ?_
    show lookAhead job.o true (e.shift path _).takeLine
      = (lookAhead job.o true e.takeLine).glue job.o path
        (job.later ((lookAhead job.o true e.takeLine).fileIdx + 1))
    rw [lookAhead_fileIdx, takeLine_fileIdx, glue_lookAhead, takeLine_shift]
    rw [takeLine_reader]
    exact h.later_or_terminated

theorem Engine.renameTemp_of_not_inPlace {o : Options} (h : o.inPlace = false) (e : Engine) :
    e.renameTemp o = e := by
  unfold renameTemp
  rw [h]
  cases e.tmpFile <;> rfl

theorem Job.sim_end (hp : job.o.inPlace = false) (h : job.Within e) (hn : e.hasNext = false) :
    job.Simulates path ⟨.loop, code, e⟩ := by
  apply Simulates.none <;> rw [step_loop_end hn, renameTemp_of_not_inPlace hp, ite_self]
  · exact ⟨hn, h.ends hn, Nat.le_refl _, h.count⟩
  · rfl
  show 2 * (job.inputs.length + 1 - (e.fileIdx + 1)) < 2 * (job.inputs.length - e.fileIdx) + 1
  omega

theorem Engine.shift_of_reader_nil (h : e.reader = []) (later : Bytes) :
    e.shift path later =
      { e with reader := later, fileIdx := 0, fileCount := 1, currentFile := path } := by
  unfold shift
  rw [h]
  rfl

theorem Job.sim_file_none {i : Nat} (hp : job.o.inPlace = false)
    (h : job.Inv ⟨.file i, code, e⟩) (hi : job.inputs[i]? = none) :
    (job.concat path).step^[2] (job.merge path ⟨.file i, code, e⟩) =
      job.merge path (job.step ⟨.file i, code, e⟩) := by
  obtain ⟨hn, hr, hle, -⟩ := h
  have hl : job.inputs.length ≤ i := List.getElem?_eq_none_iff.1 hi
  have hg := @glue_of_end job.o path [] e hn
  have he : (e.shift path []).reader = [] := congrArg reader (shift_of_reader_nil hr [])
  have hend : (e.glue job.o path []).hasNext = false := by
    rw [hg, lookAhead_nil job.o true he]
  rw [step_file_none hi]
  show (job.concat path).step
    ((job.concat path).step ⟨.loop, code, e.glue job.o path (job.later i)⟩)
    = ⟨.done, code, e.glue job.o path (job.later (e.fileIdx + 1))⟩
  rw [later_of_le hl, later_of_le (hl.trans hle), step_loop_end hend,
    renameTemp_of_not_inPlace (show (job.concat path).o.inPlace = false from hp), ite_self]
  exact step_file_none rfl

theorem Job.openFile_of_ok {i : Nat} {data : Bytes} (hp : job.o.inPlace = false)
    (hd : inp.content = .ok data) :
    job.openFile i inp ⟨.file i, code, e⟩
      = let z := lookAhead job.o false
          { e with fileIdx := i, currentFile := inp.path, reader := data }
        if z.hasNext then ⟨.loop, code, z⟩ else ⟨.file (i + 1), code, z⟩ := by
  have ht : job.usesTemp inp = false := by
    unfold usesTemp
    rw [hp]
    rfl
  have hdelivered : job.delivered inp = .ok data := by
    unfold delivered
    rw [hd, ht]
    rfl
  unfold openFile enterFile
  simp only [hdelivered, ht, hp, renameTemp_of_not_inPlace hp]
  rfl

/-- **A file is opened**: over the concatenation the run goes on within the one file. -/
theorem Job.sim_file_some {i : Nat} (hj : IsStream job.o job.inputs)
    (h : job.Inv ⟨.file i, code, e⟩) (hi : job.inputs[i]? = some inp) :
    job.Simulates path ⟨.file i, code, e⟩ := by
  obtain ⟨hn, hr, _, hc⟩ := h
  obtain ⟨data, hd⟩ := hj.readable inp (mem_of_getElem? hi)
  have hlt : i < job.inputs.length := (List.getElem?_eq_some_iff.1 hi).1
  have ht := hj.terminated i inp hi
  have hl := later_of_getElem? hi
  rw [show inp.data = data by rw [Input.data, hd]] at ht hl
  have hm : job.merge path ⟨.file i, code, e⟩ = ⟨.loop, code, lookAhead job.o true
      { e with
        reader := data ++ job.later (i + 1), fileIdx := 0, fileCount := 1,
        currentFile := path }⟩ := by
    show Config.mk .loop code (e.glue job.o path (job.later i)) = _
    rw [glue_of_end hn, hl, shift_of_reader_nil hr]
  have hs : job.step ⟨.file i, code, e⟩ = _ :=
    (step_file_some hi).trans (openFile_of_ok hj.inPlace hd)
  by_cases he : data = []
  · subst he
    apply Simulates.none <;> rw [hs]
    · exact ⟨rfl, rfl, Nat.le_refl _, hc⟩
    · rw [hm]
      refine congrArg (Config.mk .loop code) ?_
      exact lookAhead_reset
        { e with reader := job.later (i + 1), fileIdx := 0, fileCount := 1, currentFile := path }
        false _ e.nextLine
    · show 2 * (job.inputs.length + 1 - (i + 1)) < 2 * (job.inputs.length + 1 - i)
      omega
  · let y : Engine := { e with fileIdx := i, currentFile := inp.path, reader := data }
    have hz : (lookAhead job.o false y).hasNext = true := by
      rw [lookAhead_cons job.o false (show y.reader ≠ [] from he)]
    have hzi : (lookAhead job.o false y).fileIdx = i := lookAhead_fileIdx _ _ _
    have hor : job.later (i + 1) = [] ∨ Terminated y.reader := by
      by_cases hlater : i + 1 < job.inputs.length
      · exact .inr (ht hlater)
      · exact .inl (later_of_le (Nat.le_of_not_lt hlater))
    rw [if_pos hz] at hs
    apply Simulates.none <;> rw [hs]
    · exact @Job.Within.lookAhead job y hj.inPlace hlt hc ht false
    · rw [hm]
      refine congrArg (Config.mk .loop code) ?_
      rw [hzi, glue_of_next hz, shift_lookAhead (show y.reader ≠ [] from he) hor]
      rfl
    · show 2 * (job.inputs.length - (lookAhead job.o false y).fileIdx) + 1
        < 2 * (job.inputs.length + 1 - i)
      omega

/-- **One step** of the run on the files is some steps of the run on the concatenation. -/
theorem Job.sim_step {c : Config} (hj : IsStream job.o job.inputs) (hc : job.Inv c)
    (hs : ∀ ip, ¬ job.SeesBoundary c ip) : job.Simulates path c := by
  obtain ⟨pc, code, e⟩ := c
  cases pc with
  | file i =>
    cases hi : job.inputs[i]? with
    | none =>
      refine ⟨?_, 2, sim_file_none hj.inPlace hc hi, nofun⟩
      rw [step_file_none hi]
      exact trivial
    | some inp => exact sim_file_some hj hc hi
  | loop =>
    cases hn : e.hasNext with
    | true => exact sim_next hj.inPlace hc hn
    | false => exact sim_end hj.inPlace hc hn
  | exec ip => exact sim_exec hj.inPlace hc (hs ip)
  | done => exact .one trivial rfl

end Simulation

/-! ## Whole runs -/

/-- The job ends from the state `c` on, with an exit code and what it has done to its files. -/
def Job.EndsFrom (job : Job) (c : Config) (r : Nat × List Event) : Prop :=
  ∃ n, (job.step^[n] c).pc = .done ∧ r = ((job.step^[n] c).exitCode, (job.step^[n] c).engine.events)

section Runs

variable {job : Job} {path : Bytes}

theorem Job.iterate_of_done (h : c.pc = .done) (n : Nat) : job.step^[n] c = c :=
  Function.iterate_fixed (step_eq_of_done h) n

theorem Job.endsFrom_step (c : Config) (r : Nat × List Event) :
    job.EndsFrom (job.step c) r ↔ job.EndsFrom c r := by
  constructor
  · rintro ⟨n, hd, hr⟩
    exact ⟨n + 1, hd, hr⟩
  rintro ⟨n, hd, hr⟩
  cases n with
  | zero =>
    refine ⟨0, ?_⟩
    rw [show job.step c = c from step_eq_of_done hd]
    exact ⟨hd, hr⟩
  | succ n => exact ⟨n, hd, hr⟩

theorem Job.merge_events (c : Config) : (job.merge path c).engine.events = c.engine.events := by
  have hg : ∀ later, (c.engine.glue job.o path later).events = c.engine.events := fun later => by
    rw [@glue_of_sameInput job.o path later c.engine c.engine rfl]
    rfl
  unfold merge
  split
  · exact hg _
  · exact hg _

theorem Job.merge_exitCode (c : Config) : (job.merge path c).exitCode = c.exitCode := by
  unfold merge
  split <;> rfl

theorem Job.merge_done (c : Config) : (job.merge path c).pc = .done ↔ c.pc = .done := by
  obtain ⟨pc, code, e⟩ := c
  cases pc with
  | file i => exact ⟨Pc.noConfusion, Pc.noConfusion⟩
  | _ => exact Iff.rfl

theorem Job.inv_run (hj : IsStream job.o job.inputs)
    (hs : ∀ n ip, ¬ job.SeesBoundary (job.run n) ip)
    (n : Nat) : job.Inv (job.run n) := by
  induction n with
  | zero => exact ⟨rfl, rfl, Nat.zero_le _, rfl⟩
  | succ n ih =>
    rw [run_succ]
    exact (@sim_step job [] _ hj ih (hs n)).1

/-- **The whole run.** The run on the concatenation ends if the run on the files does, and with the
same result. -/
theorem Job.endsFrom_merge (hj : IsStream job.o job.inputs)
    (hs : ∀ n ip, ¬ job.SeesBoundary (job.run n) ip)
    (r : Nat × List Event) :
    job.EndsFrom job.start r ↔ (job.concat path).EndsFrom (job.merge path job.start) r := by
  have hsim : ∀ n, ∃ j, (job.concat path).step^[j] (job.merge path (job.step^[n] job.start))
      = job.merge path (job.step^[n + 1] job.start) ∧
        (j = 0 → job.filesLeft (job.step^[n + 1] job.start) <
            job.filesLeft (job.step^[n] job.start)) := by
    intro n
    rw [Function.iterate_succ_apply']
    exact (sim_step hj (inv_run hj hs n) (hs n)).2
  have hrefine : ∀ {n m : Nat},
      (job.concat path).step^[m] (job.merge path job.start) =
        job.merge path (job.step^[n] job.start) →
      (((job.concat path).step^[m] (job.merge path job.start)).exitCode,
        ((job.concat path).step^[m] (job.merge path job.start)).engine.events)
        = ((job.step^[n] job.start).exitCode, (job.step^[n] job.start).engine.events) := by
    intro n m h
    rw [h, merge_exitCode, merge_events]
  constructor
  · rintro ⟨n, hd, hr⟩
    obtain ⟨m, hm⟩ := Runs.exists_iterate (fun n => (hsim n).imp fun _ => And.left) n
    refine ⟨m, ?_, hr.trans (hrefine hm).symm⟩
    rw [hm, merge_done]
    exact hd
  · rintro ⟨m, hd, hr⟩
    obtain ⟨n, k, hle, hk⟩ := Runs.exists_iterate_ge hsim m
    have hstep : (job.concat path).step^[k] (job.merge path job.start)
        = (job.concat path).step^[m] (job.merge path job.start) := by
      rw [← Nat.sub_add_cancel hle, Function.iterate_add_apply, iterate_of_done hd]
    rw [hstep] at hk
    refine ⟨n, ?_, hr.trans (hrefine hk)⟩
    rw [← @merge_done job path, ← hk]
    exact hd

theorem Job.concat_start (hp : job.o.inPlace = false) (r : Nat × List Event) :
    (job.concat path).EndsFrom (job.concat path).start r ↔
      (job.concat path).EndsFrom (job.merge path job.start) r := by
  have hp' : (job.concat path).o.inPlace = false := hp
  let z : Engine := { initial 1 with
    events := truncateWFiles job.insts, currentFile := path, reader := allData job.inputs }
  have hm : job.merge path job.start = ⟨.loop, 0, lookAhead job.o true z⟩ := rfl
  have hs : (job.concat path).step (job.concat path).start
      = if (lookAhead job.o true z).hasNext then ⟨.loop, 0, lookAhead job.o true z⟩
        else ⟨.file 1, 0, lookAhead job.o true z⟩ := by
    exact openFile_of_ok hp' rfl
  rw [← endsFrom_step (job.concat path).start, hs, hm]
  cases hn : (lookAhead job.o true z).hasNext with
  | true => exact Iff.rfl
  | false =>
    have hi : (lookAhead job.o true z).fileIdx = 0 := lookAhead_fileIdx _ _ _
    rw [← endsFrom_step ⟨.loop, 0, _⟩, step_loop_end hn, renameTemp_of_not_inPlace hp',
      ite_self, hi]
    exact Iff.rfl

end Runs

/-! ## Results -/

theorem runEngineInternal_ends {o : Options} {re : List Input} {st : Bytes}
    {i : List Flat} (hc : compileAst s = .ok i) (hne : re ≠ [])
    (r : Nat × List Event) :
    (∃ f, runEngineInternal o s re st f = some r) ↔ EndsFrom ⟨o, i, re⟩ (start ⟨o, i, re⟩) r := by
  have hr : ∀ f, runEngineInternal o s re st f
      = if (run ⟨o, i, re⟩ f).pc = .done then
          some ((run ⟨o, i, re⟩ f).exitCode, (run ⟨o, i, re⟩ f).engine.events)
        else none := by
    unfold runEngineInternal
    simp [hc, hne]
  refine exists_congr fun f => ?_
  rw [hr f]
  by_cases hd : (run ⟨o, i, re⟩ f).pc = .done
  · rw [if_pos hd, Option.some_inj]
    exact ⟨fun h => ⟨hd, h.symm⟩, fun h => h.2.symm⟩
  · rw [if_neg hd]
    exact ⟨fun h => absurd h.symm (Option.some_ne_none r), fun h => absurd h.1 hd⟩

/-- **Several files are one stream**, as long as the script does not look over the end of a file:
the run ends with the exit code and the output of the run on the concatenation, or both do not
end. -/
theorem runEngineInternal_concat {o : Options} {script : Script} {readers : List Input}
    (hne : readers ≠ []) (hstream : IsStream o readers)
    (hsees : ∀ insts, compileAst script = .ok insts → ∀ n ip,
      ¬ SeesBoundary ⟨o, insts, readers⟩ (run ⟨o, insts, readers⟩ n) ip)
    (path stdin : Bytes) (r : Nat × List Event) :
    (∃ fuel, runEngineInternal o script readers stdin fuel = some r) ↔
      ∃ fuel, runEngineInternal o script [⟨path, .ok (allData readers), .ok ()⟩] stdin fuel =
          some r := by
  cases hc : compileAst script with
  | error err =>
    have he : ∀ inputs fuel, runEngineInternal o script inputs stdin fuel
        = some (1, [.write .stderr (str "sed: " ++ err ++ str "\n")]) := by
      intro inputs fuel
      unfold runEngineInternal
      rw [hc]
    simp only [he]
  | ok insts =>
    let job : Job := ⟨o, insts, readers⟩
    rw [runEngineInternal_ends hc hne, runEngineInternal_ends hc (cons_ne_nil _ _)]
    exact (@endsFrom_merge job path hstream (hsees insts hc) r).trans
      (@concat_start job path hstream.inPlace r).symm

def outputOf (w : Stream) (events : List Event) : Bytes :=
  events.flatMap fun
    | .write w' data => if w' = w then data else []
    | _ => []

def verbose : Options := ⟨false, false, fun _ => false⟩

def file (content : String) : Input := ⟨str "f", .ok (str content), .ok ()⟩

/-- `=` -/
def numberScript : Script := .command ⟨none, none, false, 0⟩ .lineNumber .nil

theorem runEngineInternal_concat_number :
    (∃ fuel, runEngineInternal verbose numberScript [file "a\n", file "b\n"] [] fuel
      = some (0, [.write .stdout (str "1\n"), .write .stdout (str "a"), .write .stdout (str "\n"),
        .write .stdout (str "2\n"), .write .stdout (str "b"), .write .stdout (str "\n")])) ↔
    ∃ fuel, runEngineInternal verbose numberScript
      [⟨str "ab", .ok (allData [file "a\n", file "b\n"]), .ok ()⟩] [] fuel
      = some (0, [.write .stdout (str "1\n"), .write .stdout (str "a"), .write .stdout (str "\n"),
        .write .stdout (str "2\n"), .write .stdout (str "b"), .write .stdout (str "\n")]) := by
  apply runEngineInternal_concat (cons_ne_nil _ _)
  · refine ⟨rfl, fun inp hin => ?_, fun i inp hi hlt => ?_⟩
    · obtain rfl | rfl : inp = file "a\n" ∨ inp = file "b\n" := by simpa using hin
      · exact ⟨_, rfl⟩
      · exact ⟨_, rfl⟩
    · obtain rfl : i = 0 := Nat.lt_one_iff.1 (Nat.lt_of_succ_lt_succ hlt)
      obtain rfl : file "a\n" = inp := Option.some.inj hi
      exact .inr (by decide +kernel)
  · intro insts hc n ip hs
    obtain rfl : flatten 0 numberScript = insts := Except.ok.inj hc
    obtain hr | ⟨-, hch⟩ := hs.looks
    · cases ip with
      | zero => cases hr
      | succ ip => cases hr
    · refine hch fun inst hi => ?_
      cases ip with
      | zero =>
        obtain rfl := Option.some.inj hi
        rfl
      | succ ip => cases hi

/-- `n` and `d`, and `$d`. -/
def nextScript : Script :=
  .command ⟨none, none, false, 0⟩ .next (.command ⟨none, none, false, 1⟩ .delete .nil)

def lastScript : Script := .command ⟨some .last, none, false, 0⟩ .delete .nil

/-- At the end of a file `n` does not find the next line, and `$` does not know that it is the last
one if an empty file follows. -/
theorem runEngineInternal_splits :
    ((runEngineInternal verbose nextScript [file "a\n", file "b\n"] [] 20).map
      (fun r => outputOf .stdout r.2) = some (str "a\nb\n") ∧
      (runEngineInternal verbose nextScript [file "a\nb\n"] [] 20).map
        (fun r => outputOf .stdout r.2) = some (str "a\n")) ∧
    (runEngineInternal verbose lastScript [file "a\n", file ""] [] 20).map
      (fun r => outputOf .stdout r.2) = some (str "a\n") ∧
      (runEngineInternal verbose lastScript [file "a\n"] [] 20).map
        (fun r => outputOf .stdout r.2) = some [] :=
  ⟨⟨by decide +kernel, by decide +kernel⟩, by decide +kernel, by decide +kernel⟩

end GoPosix.Sed
