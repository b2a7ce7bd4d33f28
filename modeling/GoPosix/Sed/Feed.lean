import GoPosix.Sed.Engine

/-!
# Which lines reach the pattern space

A line comes into the pattern space when a cycle starts, or by `n` or `N`. All of them take the line
ahead and look for the next one. If nothing goes wrong, the lines that have been taken, followed by
those that are still to be read, are at any time the lines of all files (`Job.Keeps`).

It goes wrong in three ways (`Job.Loses`). After `D` the next cycle does not take the line ahead,
but still looks for the next one, so that a line is skipped. On the last line of a file `n` and `N`
take a line that does not exist, unless the file is the last one or `-i` is given. With `-i` they
end the run there, although other files may follow.
-/

namespace GoPosix.Sed

open Bytes List Job Engine

/-! ## The lines of the input -/

/-- The lines of a file, if it can be worked on. -/
def Job.linesOf (job : Job) (inp : Input) : List Bytes :=
  match job.delivered inp with
  | .ok data => lines data
  | .error _ => []

def Job.linesFrom (job : Job) (i : Nat) : List Bytes := (job.inputs.drop i).flatMap job.linesOf

def Job.rest (job : Job) (e : Engine) : List Bytes := e.ahead ++ job.linesFrom (e.fileIdx + 1)

def Job.unread (job : Job) (c : Config) : List Bytes :=
  match c.pc with
  | .file i => job.linesFrom i
  | _ => job.rest c.engine

theorem Job.linesFrom_of_getElem? {job : Job} {inp : Input}
    (h : job.inputs[i]? = some inp) :
    job.linesFrom i = job.linesOf inp ++ job.linesFrom (i + 1) := by
  obtain ⟨hi, rfl⟩ := List.getElem?_eq_some_iff.1 h
  unfold linesFrom
  rw [drop_eq_getElem_cons hi, flatMap_cons]

theorem Job.linesFrom_of_le {job : Job} (h : job.inputs.length ≤ i) : job.linesFrom i = [] := by
  unfold linesFrom
  rw [drop_of_length_le h]
  rfl

/-! ## What goes wrong -/

/-- A step at which a line is lost, or a line is taken that does not exist. -/
inductive Job.Loses (job : Job) (c : Config) : Prop where
  | skip (hpc : c.pc = .loop) (hnext : c.engine.hasNext = true) (hskip : c.engine.skipRead = true)
  | phantom {ip : Nat} (hpc : c.pc = .exec ip) (hreads : reads job.insts ip c.engine = true)
      (heof : c.engine.isEOF = false) (hnext : c.engine.hasNext = false)
  | abandon {ip : Nat} (hpc : c.pc = .exec ip) (hreads : reads job.insts ip c.engine = true)
      (heof : c.engine.isEOF = true) (hrest : job.unread c ≠ [])

/-- From `c` to `c'` no line is lost and none is invented. -/
def Job.Keeps (job : Job) (c c' : Config) : Prop :=
  c'.engine.taken ++ (job.unread c').map some = c.engine.taken ++ (job.unread c).map some

/-- Between two files nothing is left of the first one, and at the end of a file its reader is
empty. -/
def Job.Ready (c : Config) : Prop :=
  match c.pc with
  | .file i => c.engine.ahead = [] ∧ i ≤ c.engine.fileIdx + 1
  | .done => True
  | _ => c.engine.hasNext = false → c.engine.reader = []

/-! ## One step -/

namespace Engine

variable (o : Options) (clear : Bool) (e : Engine)

theorem ahead_of_next {e : Engine} (h : e.hasNext = true) :
    e.ahead = e.nextLine :: lines e.reader := by
  unfold ahead next?
  rw [h]
  rfl

theorem ahead_of_end {e : Engine} (h : e.hasNext = false) (hr : e.reader = []) : e.ahead = [] := by
  unfold ahead next?
  rw [h, hr]
  rfl

theorem renameTemp_sameInput : SameInput e (e.renameTemp o) := by
  unfold renameTemp
  cases e.tmpFile <;> cases o.inPlace <;> rfl

end Engine

section Step

variable {job : Job} {code : Nat}

theorem Job.rest_lookAhead (clear : Bool) (e : Engine) :
    job.rest (.lookAhead job.o clear e) = lines e.reader ++ job.linesFrom (e.fileIdx + 1) := by
  unfold rest
  rw [ahead_lookAhead, lookAhead_fileIdx]

theorem Job.rest_of_sameInput (h : SameInput e x) : job.rest x = job.rest e := h.congr job.rest rfl

/-- Opening a file takes no line: all of its lines and those of the later files are unread. -/
theorem Job.openFile_kept {i : Nat} (inp : Input) (hah : e.ahead = []) :
    let c := job.openFile i inp ⟨.file i, code, e⟩
    Ready c ∧ c.engine.taken = e.taken ∧ job.unread c = job.linesOf inp ++
        job.linesFrom (i + 1) := by
  have he : SameInput { e with fileIdx := i, currentFile := inp.path }
      (e.enterFile job.o i inp.path) := by
    unfold enterFile
    cases job.o.inPlace <;> rfl
  unfold openFile linesOf
  generalize e.enterFile job.o i inp.path = x at he ⊢
  have hi : x.fileIdx = i := he.congr fileIdx rfl
  have ht : x.taken = e.taken := he.congr taken rfl
  cases job.delivered inp with
  | error err =>
    have hx : x.ahead = e.ahead := he.congr ahead rfl
    exact ⟨⟨hx.trans hah, Nat.le_of_eq (congrArg (· + 1) hi.symm)⟩, ht, rfl⟩
  | ok data =>
    have htemp : SameInput x (if job.usesTemp inp then x.createTemp else x) := by
      cases job.usesTemp inp <;> rfl
    simp only
    generalize (if job.usesTemp inp then x.createTemp else x) = y at htemp ⊢
    have hi' : y.fileIdx = i := (htemp.congr fileIdx rfl).trans hi
    have hrest := @rest_lookAhead job false { y with reader := data }
    have hrc := lookAhead_taken job.o false { y with reader := data }
    have hr := @reader_lookAhead job.o false { y with reader := data }
    have hf := lookAhead_fileIdx job.o false { y with reader := data }
    generalize lookAhead job.o false { y with reader := data } = z at hrest hrc hr hf ⊢
    have hall : job.rest z = lines data ++ job.linesFrom (i + 1) := hi' ▸ hrest
    have hzt : z.taken = e.taken := hrc.trans ((htemp.congr taken rfl).trans ht)
    cases hz : z.hasNext with
    | true => exact ⟨fun h => Bool.noConfusion (hz.symm.trans h), hzt, hall⟩
    | false =>
      have hempty : z.ahead = [] := ahead_of_end hz (hr hz)
      have hrn := renameTemp_sameInput job.o z
      have hzi : z.fileIdx = i := hf.trans hi'
      refine ⟨⟨(hrn.congr ahead rfl).trans hempty, ?_⟩, ?_, ?_⟩
      · exact Nat.le_of_eq (congrArg (· + 1) ((hrn.congr fileIdx rfl).trans hzi).symm)
      · exact (hrn.congr taken rfl).trans hzt
      · rw [← hall, rest, hempty, hzi]
        rfl

theorem Job.step_file {i : Nat} (hc : Ready ⟨.file i, code, e⟩) :
    let c := job.step ⟨.file i, code, e⟩
    Ready c ∧ c.engine.taken = e.taken ∧ job.unread c = job.linesFrom i := by
  obtain ⟨hah, hle⟩ := hc
  cases hi : job.inputs[i]? with
  | none =>
    have hl : job.inputs.length ≤ i := List.getElem?_eq_none_iff.1 hi
    rw [step_file_none hi]
    refine ⟨trivial, rfl, ?_⟩
    show e.ahead ++ job.linesFrom (e.fileIdx + 1) = _
    rw [show e.ahead = [] from hah, linesFrom_of_le hl, linesFrom_of_le (hl.trans hle)]
    rfl
  | some inp =>
    rw [step_file_some hi, linesFrom_of_getElem? hi]
    exact openFile_kept inp hah

theorem Job.step_end (hc : Ready ⟨.loop, code, e⟩) (hn : e.hasNext = false) :
    let c := job.step ⟨.loop, code, e⟩
    Ready c ∧ c.engine.taken = e.taken ∧ job.unread c = job.rest e := by
  have hah : e.ahead = [] := ahead_of_end hn (hc hn)
  have hs : SameInput e (if e.currentFile = stdinPath then e else e.renameTemp job.o) := by
    split
    · rfl
    · exact renameTemp_sameInput job.o e
  rw [step_loop_end hn]
  refine ⟨⟨(hs.congr ahead rfl).trans hah, ?_⟩, hs.congr taken rfl, ?_⟩
  · exact Nat.le_of_eq (congrArg (· + 1) (hs.congr fileIdx rfl).symm)
  · unfold rest
    rw [hah]
    rfl

theorem Job.step_next (hn : e.hasNext = true) :
    let c := job.step ⟨.loop, code, e⟩
    Ready c ∧ job.unread ⟨.loop, code, e⟩ = e.nextLine :: job.unread c ∧
      c.engine.taken = if e.skipRead then e.taken else e.taken ++ [some e.nextLine] := by
  rw [step_loop_next hn]
  have hr : job.rest e = e.nextLine :: (lines e.reader ++ job.linesFrom (e.fileIdx + 1)) := by
    rw [rest, ahead_of_next hn]
    rfl
  refine ⟨reader_lookAhead job.o true, ?_, ?_⟩
  · refine hr.trans (congrArg _ ?_)
    show _ = job.rest (e.startCycle job.o)
    unfold startCycle
    rw [rest_lookAhead, e.takeLine_reader, e.takeLine_fileIdx]
  · refine (lookAhead_taken job.o true _).trans ?_
    unfold Engine.takeLine Engine.next?
    rw [hn]
    cases e.skipRead <;> rfl

/-- An instruction that leaves the input alone takes no line. -/
theorem Job.step_exec_sameInput (h : SameInput e (execInst job.o job.insts ip e).2)
    (hc : Ready ⟨.exec ip, code, e⟩) : let c := job.step ⟨.exec ip, code, e⟩
    Ready c ∧ c.engine.taken = e.taken ∧ job.unread c = job.rest e := by
  cases hx : execInst job.o job.insts ip e with
  | mk next x =>
    rw [hx] at h
    cases next with
    | goto ip' =>
      rw [step_exec_goto hx]
      refine ⟨?_, h.congr taken rfl, rest_of_sameInput h⟩
      intro hn
      rw [show x.hasNext = e.hasNext from h.congr hasNext rfl] at hn
      exact (h.congr reader rfl).trans (hc hn)
    | stop s =>
      have he := h.trans (endCycle_sameInput job.o s x)
      have hr : (x.endCycle job.o s).2.hasNext = false → (x.endCycle job.o s).2.reader = [] := by
        intro hn
        rw [he.congr hasNext rfl] at hn
        exact (he.congr reader rfl).trans (hc hn)
      rw [step_exec_stop hx]
      cases (x.endCycle job.o s).1 with
      | true => exact ⟨hr, he.congr taken rfl, rest_of_sameInput he⟩
      | false => exact ⟨trivial, he.congr taken rfl, rest_of_sameInput he⟩

theorem Job.step_exec_kept {ip : Nat} (hc : Ready ⟨.exec ip, code, e⟩)
    (h : reads job.insts ip e = false ∨ e.isEOF = true) :
    let c := job.step ⟨.exec ip, code, e⟩
    Ready c ∧ c.engine.taken = e.taken ∧ job.unread c = job.rest e := by
  apply step_exec_sameInput _ hc
  by_cases hr : reads job.insts ip e = false
  · exact execInst_sameInput hr
  · have heof := h.resolve_left hr
    obtain ⟨s, x, -, hx, he, -⟩ :=
      @execInst_eof job.o job.insts ip e (Bool.not_eq_false _ ▸ hr) heof
    rw [he]
    exact hx

theorem Job.step_exec_feed {ip : Nat} (hr : reads job.insts ip e = true) (heof : e.isEOF = false) :
    let c := job.step ⟨.exec ip, code, e⟩
    Ready c ∧ c.engine.taken = e.taken ++ [e.next?] ∧ job.rest e = e.next?.toList ++
        job.unread c := by
  obtain ⟨p, y, hs, he, -⟩ := @execInst_feed job.o job.insts ip e hr heof
  rw [step_exec_goto he]
  refine ⟨reader_lookAhead job.o true, ?_, ?_⟩
  · refine (lookAhead_taken job.o true _).trans ?_
    rw [hs.congr taken rfl, hs.congr next? rfl]
  · show _ = _ ++ job.rest (y.feed job.o p)
    unfold feed
    rw [rest_lookAhead, ← append_assoc]
    rw [hs.congr reader rfl, hs.congr fileIdx rfl]
    rfl

end Step

/-! ## All steps -/

/-- What a step may do to the lines that have been taken and those that are left. -/
inductive Job.Change (job : Job) (c c' : Config) : Prop where
  | keep (htaken : c'.engine.taken = c.engine.taken) (hunread : job.unread c' = job.unread c)
  | take (l : Bytes) (htaken : c'.engine.taken = c.engine.taken ++ [some l])
      (hunread : job.unread c = l :: job.unread c')
  | skip (l : Bytes) (hloses : job.Loses c) (htaken : c'.engine.taken = c.engine.taken)
      (hunread : job.unread c = l :: job.unread c')
  | phantom (hloses : job.Loses c) (htaken : c'.engine.taken = c.engine.taken ++ [none])
      (hunread : job.unread c' = job.unread c)

/-- **What one step does to the lines** is one of the changes. -/
theorem Job.step_change {job : Job} {c : Config} (hc : Ready c) :
    Ready (job.step c) ∧ job.Change c (job.step c) := by
  obtain ⟨pc, code, e⟩ := c
  cases pc with
  | file i =>
    obtain ⟨hr, ht, hu⟩ := @step_file job code e i hc
    exact ⟨hr, .keep ht hu⟩
  | loop =>
    cases hn : e.hasNext with
    | false =>
      obtain ⟨hr, ht, hu⟩ := @step_end job code e hc hn
      exact ⟨hr, .keep ht hu⟩
    | true =>
      obtain ⟨hr, hu, ht⟩ := @step_next job code e hn
      refine ⟨hr, ?_⟩
      cases hs : e.skipRead with
      | true =>
        rw [hs] at ht
        exact .skip e.nextLine (.skip rfl hn hs) ht hu
      | false =>
        rw [hs] at ht
        exact .take e.nextLine ht hu
  | exec ip =>
    by_cases h : reads job.insts ip e = false ∨ e.isEOF = true
    · obtain ⟨hr, ht, hu⟩ := @step_exec_kept job code e ip hc h
      exact ⟨hr, .keep ht hu⟩
    rw [not_or, Bool.not_eq_false, Bool.not_eq_true] at h
    obtain ⟨hr, ht, hu⟩ := @step_exec_feed job code e ip h.1 h.2
    refine ⟨hr, ?_⟩
    unfold Engine.next? at ht hu
    cases hn : e.hasNext with
    | true =>
      rw [hn] at ht hu
      exact .take e.nextLine ht hu
    | false =>
      rw [hn] at ht hu
      exact .phantom (.phantom rfl h.1 h.2 hn) ht hu.symm
  | done => exact ⟨trivial, .keep rfl rfl⟩

/-- The number of lines that have been taken or are left. -/
def Job.account (job : Job) (c : Config) : Nat :=
  (c.engine.taken.filterMap id).length + (job.unread c).length

namespace Job.Change

variable {job : Job} {c c' : Config}

theorem keeps (h : job.Change c c') (hl : ¬ job.Loses c) : job.Keeps c c' := by
  unfold Keeps
  cases h with
  | keep ht hu => rw [ht, hu]
  | take l ht hu =>
    rw [ht, hu, append_assoc]
    rfl
  | skip l hloses => exact absurd hloses hl
  | phantom hloses => exact absurd hloses hl

theorem taken_prefix (h : job.Change c c') : c.engine.taken <+: c'.engine.taken := by
  cases h with
  | keep ht _ => exact ht ▸ prefix_rfl
  | take l ht _ => exact ht ▸ prefix_append _ _
  | skip l _ ht _ => exact ht ▸ prefix_rfl
  | phantom _ ht _ => exact ht ▸ prefix_append _ _

theorem account_le (h : job.Change c c') : job.account c' ≤ job.account c := by
  unfold account
  cases h with
  | keep ht hu => rw [ht, hu]
  | take l ht hu =>
    rw [ht, hu, filterMap_append, length_append, length_cons]
    show _ + 1 + _ ≤ _
    omega
  | skip l _ ht hu =>
    rw [ht, hu]
    exact Nat.le_succ _
  | phantom _ ht hu =>
    rw [ht, hu, filterMap_append, length_append]
    exact Nat.le_refl _

end Job.Change

/-! ## The end of a run -/

/-- Something that cannot be made good: a line has been taken that does not exist, a line is missing
from the account, or the run has ended too early. -/
def Job.Spoilt (job : Job) (c : Config) : Prop :=
  none ∈ c.engine.taken ∨ job.account c < (job.linesFrom 0).length ∨ c.pc = .done ∧
    job.unread c ≠ []

section Ends

variable {job : Job} {code : Nat}

theorem Job.step_exec_eof (hr : reads job.insts ip e = true) (heof : e.isEOF = true) :
    (job.step ⟨.exec ip, code, e⟩).pc = .done := by
  obtain ⟨s, x, hs, -, he, -⟩ := @execInst_eof job.o job.insts ip e hr heof
  rw [step_exec_stop he]
  obtain rfl | rfl := hs <;> rfl

/-- A step that loses a line spoils the account. -/
theorem Job.step_loses (hc : Ready c) (hl : job.Loses c)
    (hle : job.account c ≤ (job.linesFrom 0).length) : job.Spoilt (job.step c) := by
  obtain ⟨pc, code, e⟩ := c
  cases hl with
  | skip hpc hn hs =>
    obtain rfl : pc = .loop := hpc
    obtain ⟨-, hu, ht⟩ := @step_next job code e hn
    rw [show e.skipRead = true from hs] at ht
    refine .inr (.inl ?_)
    unfold account at hle ⊢
    rw [hu] at hle
    rw [ht]
    exact hle
  | phantom hpc hr he hn =>
    obtain rfl := hpc
    obtain ⟨-, ht, -⟩ := @step_exec_feed job code e _ hr he
    refine .inl ?_
    rw [ht, Engine.next?, show e.hasNext = false from hn]
    exact mem_append_right _ (mem_singleton.2 rfl)
  | abandon hpc hr he hrest =>
    obtain rfl := hpc
    obtain ⟨-, -, hu⟩ := @step_exec_kept job code e _ hc (.inr he)
    exact .inr (.inr ⟨step_exec_eof hr he, hu ▸ hrest⟩)

theorem Job.step_spoilt (hc : Ready c) (hs : job.Spoilt c) : job.Spoilt (job.step c) := by
  have hchange := (@step_change job c hc).2
  obtain hn | hlt | ⟨hpc, hr⟩ := hs
  · exact .inl (hchange.taken_prefix.subset hn)
  · exact .inr (.inl (Nat.lt_of_le_of_lt hchange.account_le hlt))
  · obtain ⟨pc, code, e⟩ := c
    obtain rfl : pc = .done := hpc
    exact .inr (.inr ⟨rfl, hr⟩)

/-- An instruction that ends the run by its own. -/
def Flat.isQuit (inst : Flat) : Bool :=
  match inst.op with
  | .command .quit _ => true
  | _ => false

theorem Command.exec_stop {o : Options} {c : Command} {s : Stop} (hc : c.reads = false)
    (hq : c ≠ .quit) (h : (c.exec o e).1 = .stop s) : s = .next := by
  cases c <;> grind [Command.exec, Command.reads, testSubstituted]

/-- Where `q` is not selected, only a command that takes the line ahead ends the run. -/
theorem execInst_stop {o : Options} {insts : List Flat} {ip : Nat} {s : Stop} {x : Engine}
    (hq : ∀ i, insts[ip]? = some i → (e.shouldRun i.sel).1 = true → i.isQuit = false)
    (hr : reads insts ip e = false) (h : execInst o insts ip e = (.stop s, x)) : s = .finished ∨
      s = .next := by
  unfold reads at hr
  unfold execInst at h
  cases hi : insts[ip]? with
  | none =>
    rw [hi] at h
    exact .inl (Next.stop.inj (congrArg Prod.fst h)).symm
  | some i =>
    have hquit := hq i hi
    obtain ⟨sel, op⟩ := i
    rw [hi] at h hr
    cases op with
    | openBlock target => cases h
    | closeBlock => cases h
    | command cmd target =>
      simp only at h hr
      cases hrun : (e.shouldRun sel).1 with
      | false =>
        simp only [hrun] at h
        cases h
      | true =>
        rw [hrun] at hr
        simp only [hrun] at h
        have hne : cmd ≠ .quit := by
          rintro rfl
          cases hquit hrun
        have hs := congrArg Prod.fst h
        refine .inr (@Command.exec_stop (e.shouldRun sel).2 o cmd s hr hne ?_)
        cases hf : (cmd.exec o (e.shouldRun sel).2).1 <;> rw [hf] at hs <;> cases hs
        rfl

theorem Job.step_exec_continues {ip : Nat} (hq : ∀ i ∈ job.insts, i.isQuit = false)
    (hr : reads job.insts ip e = false) : (job.step ⟨.exec ip, code, e⟩).pc ≠ .done := by
  cases hx : execInst job.o job.insts ip e with
  | mk next x =>
    cases next with
    | goto ip' =>
      rw [step_exec_goto hx]
      exact Pc.noConfusion
    | stop s =>
      rw [step_exec_stop hx]
      have hq' : ∀ i, job.insts[ip]? = some i → (e.shouldRun i.sel).1 = true → i.isQuit = false :=
        fun i hi _ => hq i (mem_of_getElem? hi)
      obtain rfl | rfl := execInst_stop hq' hr hx <;> exact Pc.noConfusion

/-- After a file has been opened the engine is at its lines, or it goes on with the next file. -/
theorem Job.openFile_pc (i : Nat) (inp : Input) (c : Config) :
    (job.openFile i inp c).pc = .loop ∨ (job.openFile i inp c).pc = .file (i + 1) := by
  unfold openFile
  cases job.delivered inp with
  | error err => exact .inr rfl
  | ok data =>
    simp only
    generalize lookAhead job.o false _ = z
    cases z.hasNext with
    | true => exact .inl rfl
    | false => exact .inr rfl

theorem Job.openFile_ne_done (i : Nat) (inp : Input) (c : Config) :
    (job.openFile i inp c).pc ≠ .done := by
  obtain h | h := @openFile_pc job i inp c <;> rw [h] <;> exact Pc.noConfusion

/-- A run without `q` that loses nothing ends with nothing left to read. -/
theorem Job.unread_of_done {c : Config} (hq : ∀ inst ∈ job.insts, inst.isQuit = false)
    (hc : Ready c) (hl : ¬ job.Loses c) (ho : c.pc ≠ .done)
    (hd : (job.step c).pc = .done) : job.unread (job.step c) = [] := by
  obtain ⟨pc, code, e⟩ := c
  cases pc with
  | file i =>
    cases hi : job.inputs[i]? with
    | none =>
      obtain ⟨-, -, hu⟩ := @step_file job code e i hc
      rw [hu, linesFrom_of_le (List.getElem?_eq_none_iff.1 hi)]
    | some inp =>
      rw [step_file_some hi] at hd
      exact absurd hd (openFile_ne_done i inp _)
  | loop =>
    cases hn : e.hasNext with
    | true =>
      rw [step_loop_next hn] at hd
      cases hd
    | false =>
      rw [step_loop_end hn] at hd
      cases hd
  | exec ip =>
    cases hr : reads job.insts ip e with
    | false => exact absurd hd (step_exec_continues hq hr)
    | true =>
      cases heof : e.isEOF with
      | true =>
        obtain ⟨-, -, hu⟩ := @step_exec_kept job code e ip hc (.inr heof)
        rw [hu]
        by_contra hrest
        exact hl (.abandon rfl hr heof hrest)
      | false =>
        obtain ⟨p, x, -, he, -⟩ := @execInst_feed job.o job.insts ip e hr heof
        rw [step_exec_goto he] at hd
        cases hd
  | done => exact absurd rfl ho

end Ends

/-! ## Runs -/

section Runs

variable {job : Job}

theorem Job.run_ready (n : Nat) : Ready (job.run n) := by
  induction n with
  | zero => exact ⟨rfl, Nat.zero_le _⟩
  | succ n ih =>
    rw [run_succ]
    exact (step_change ih).1

theorem Job.account_start : job.account (job.run 0) = (job.linesFrom 0).length := Nat.zero_add _

theorem Job.account_run_le (n : Nat) : job.account (job.run n) ≤ (job.linesFrom 0).length := by
  induction n with
  | zero => exact Nat.le_of_eq account_start
  | succ n ih =>
    rw [run_succ]
    exact (step_change (run_ready n)).2.account_le.trans ih

variable {n : Nat}

/-- As long as nothing is lost, the lines that have been taken and those that are left are all
lines. -/
theorem Job.run_keeps (h : ∀ k < n, ¬ job.Loses (job.run k)) :
    (job.run n).engine.taken ++ (job.unread (job.run n)).map some = (job.linesFrom 0).map some := by
  induction n with
  | zero => rfl
  | succ n ih =>
    have hkeeps := (step_change (run_ready n)).2.keeps (h n (Nat.lt_succ_self n))
    rw [run_succ, hkeeps]
    exact ih fun k hk => h k (Nat.lt_succ_of_lt hk)

theorem Job.run_spoilt (hl : job.Loses (job.run k)) (hk : k < n) : job.Spoilt (job.run n) := by
  induction n, hk using Nat.le_induction with
  | base =>
    rw [run_succ]
    exact step_loses (run_ready k) hl (account_run_le k)
  | succ n _ ih =>
    rw [run_succ]
    exact step_spoilt (run_ready n) ih

/-- If nothing is lost and there is no `q`, a run ends when all lines have been read. -/
theorem Job.run_unread (hq : ∀ i ∈ job.insts, i.isQuit = false)
    (h : ∀ k < n, ¬ job.Loses (job.run k)) (hd : (job.run n).pc = .done) :
    job.unread (job.run n) = [] := by
  induction n with
  | zero => cases hd
  | succ n ih =>
    rw [run_succ] at hd ⊢
    by_cases ho : (job.run n).pc = .done
    · rw [step_eq_of_done ho]
      exact ih (fun k hk => h k (Nat.lt_succ_of_lt hk)) ho
    · exact unread_of_done hq (run_ready n) (h n (Nat.lt_succ_self n)) ho hd

/-- A run in which all lines have been taken in order has not gone wrong. -/
theorem Job.not_spoilt (h : (job.run n).engine.taken = (job.linesFrom 0).map some) :
    ¬ job.Spoilt (job.run n) := by
  have hc : ((job.run n).engine.taken.filterMap id).length = (job.linesFrom 0).length := by
    rw [h, filterMap_map]
    exact congrArg List.length (filterMap_some)
  rintro (hn | hlt | ⟨-, hr⟩)
  · rw [h] at hn
    obtain ⟨l, -, hl⟩ := mem_map.1 hn
    cases hl
  · unfold account at hlt
    omega
  · have hle := @account_run_le job n
    unfold account at hle
    exact hr (eq_nil_of_length_eq_zero (by omega))

/-- **The lines that reach the pattern space** are the first ones of the input, as long as no step
loses a line. A run without `q` has taken all lines, once and in order, exactly if there has been no
such step. -/
theorem Job.taken_eq_iff (hq : ∀ inst ∈ job.insts, inst.isQuit = false) (n : Nat) :
    ((∀ k < n, ¬ job.Loses (job.run k)) → (job.run n).engine.taken <+: (job.linesFrom 0).map some) ∧
    ((job.run n).pc = .done →
      ((job.run n).engine.taken = (job.linesFrom 0).map some ↔
        ∀ k < n, ¬ job.Loses (job.run k))) := by
  refine ⟨fun h => ⟨_, run_keeps h⟩, fun hd => ⟨fun h k hk hl => ?_, fun h => ?_⟩⟩
  · exact not_spoilt h (run_spoilt hl hk)
  · have hkeeps := run_keeps h
    rwa [run_unread hq h hd, map_nil, append_nil] at hkeeps

end Runs

/-- `1N`, `P` and `D`. -/
def windowScript : Script :=
  .command ⟨some (.line 1 0), none, false, 0⟩ .appendNext <|
    .command ⟨none, none, false, 1⟩ .printFirst <|
      .command ⟨none, none, false, 2⟩ .deleteFirst .nil

def windowJob (content : Bytes) : Job where
  o := ⟨false, false, fun _ => false⟩
  insts := flatten 0 windowScript
  inputs := [⟨str "f", .ok content, .ok ()⟩]

theorem Job.taken_eq_iff_two : ((windowJob (str "a\nb\n")).run 10).pc = .done ∧
    ((windowJob (str "a\nb\n")).run 10).engine.taken = [some (str "a"), some (str "b")] ∧
    ∀ k < 10, ¬ (windowJob (str "a\nb\n")).Loses ((windowJob (str "a\nb\n")).run k) := by
  have hdone : ((windowJob (str "a\nb\n")).run 10).pc = .done := by decide +kernel
  have htaken : ((windowJob (str "a\nb\n")).run 10).engine.taken =
      [some (str "a"), some (str "b")] := by
    decide +kernel
  exact ⟨hdone, htaken, ((taken_eq_iff (by decide +kernel) 10).2 hdone).mp htaken⟩

theorem Job.taken_skips_line : compileAst windowScript = .ok (windowJob (str "a\nb\nc\n")).insts ∧
      (∀ inst ∈ (windowJob (str "a\nb\nc\n")).insts, inst.isQuit = false) ∧
      ((windowJob (str "a\nb\nc\n")).run 14).pc = .done ∧
      ((windowJob (str "a\nb\nc\n")).run 14).engine.taken = [some (str "a"), some (str "b")] ∧
      (windowJob (str "a\nb\nc\n")).linesFrom 0 = [str "a", str "b", str "c"] :=
  ⟨rfl, by decide +kernel, by decide +kernel, by decide +kernel, by decide +kernel⟩

end GoPosix.Sed
