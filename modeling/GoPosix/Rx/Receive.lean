import GoPosix.Rx.Basic

/-!
# When a reception is reported as successful

The second loop of `receiveFile` is left through the label `done` by an `EOT`, and also if the input
ends or fails, if a block is cut short, if it has a number that is neither the expected one nor the
one before, and if its complement is wrong. The file is written and the reception reported as
successful in all of them. These are the only inputs on which the result cannot be trusted
(`receiveFile_faithful_iff`).
-/

namespace GoPosix.Rx

open Reader Machine

/-! ## What was received -/

/-- The states of the receiver before what it read, with what it read. -/
def run (input : List Item) : List (Machine × Event) := visits (limit input) .init input

def events (input : List Item) : List Event := (run input).map (·.2)

/-- The blocks with the expected number, a valid complement and a valid CRC. -/
def accepted : (expected : UInt8) → List Event → List Block
  | _, [] => []
  | expected, .block block :: es =>
    if block.number = expected ∧ block.complement = 255 - block.number ∧
      crc16 block.data = block.crc then
      block :: accepted (expected + 1) es
    else accepted expected es
  | expected, _ :: es => accepted expected es

/-- A block behind which the sequence cannot go on. -/
def Machine.refuses (m : Machine) (block : Block) : Bool :=
  match m.phase with
  | .handshake _ => block.number ≠ 1 || block.complement ≠ 0xFE
  | .receiving =>
    (block.number ≠ m.blockExpected && block.number ≠ m.blockExpected - 1) ||
      (block.number = m.blockExpected && block.complement ≠ 255 - block.number)
  | .closed _ => false

/-- **What the claimed receiver does**: it reports success only behind an `EOT` and for the blocks
it has accepted, and it reports an error if there is none or the sequence cannot go on. -/
structure Faithful (input : List Item) : Prop where
  eot : ∀ writeFile n, receiveFile writeFile input = .ok n → (events input).getLast? = some .eot
  data : ∀ writeFile n, receiveFile writeFile input = .ok n →
    (receive input).2.fileBuf = (accepted 1 (events input)).flatMap (·.data)
  ended : .eot ∉ events input → ∀ writeFile, ∃ msg, receiveFile writeFile input = .error msg
  refused : ∀ m block, (m, .block block) ∈ run input → m.refuses block = true →
    ∀ writeFile, ∃ msg, receiveFile writeFile input = .error msg

/-- Behind the first block: the input ends or fails, or a block comes that is refused. -/
def Machine.breaksOff (m : Machine) (e : Event) : Bool :=
  m.phase = .receiving &&
    match e with
    | .none => true
    | .short _ => true
    | .block block => m.refuses block
    | _ => false

/-! ## The last step -/

section Visits

variable {input : List Item}

/-- The step that closes the transfer is the last one. -/
theorem visits_closing (hv : v ∈ visits f m input) (h : (v.1.step v.2).phase = .closed exit) :
    (visits f m input).getLast? = some v ∧ drive f m input = v.1.step v.2 := by
  induction f generalizing m input with
  | zero => cases hv
  | succ f ih =>
    rw [visits] at hv ⊢
    rw [drive]
    split at hv
    · cases hv
    rcases List.mem_cons.mp hv with rfl | hv
    · -- nothing is visited behind it
      have hn : visits f (m.step (nextEvent input).1) (nextEvent input).2 = [] := by
        cases f with
        | zero => rfl
        | succ f =>
          rw [visits]
          rw [h]
      rw [hn, drive_closed h]
      exact ⟨rfl, rfl⟩
    · obtain ⟨hl, hd⟩ := ih hv
      refine ⟨?_, hd⟩
      rw [List.getLast?_cons, hl]
      rfl

theorem exists_closing (ho : m.isOpen) (h : (drive f m input).phase = .closed exit) :
    ∃ v, v ∈ visits f m input ∧ v.1.isOpen ∧ (v.1.step v.2).phase = .closed exit := by
  induction f generalizing m input with
  | zero => exact absurd h (ho exit)
  | succ f ih =>
    rw [drive_open ho] at h
    have hvisits : visits (f + 1) m input = (m, (nextEvent input).1) ::
          visits f (m.step (nextEvent input).1) (nextEvent input).2 := by
      rw [visits]
      split
      · next exit hp => exact absurd hp (ho exit)
      · rfl
    rw [hvisits]
    cases hp : (m.step (nextEvent input).1).phase with
    | closed e' =>
      rw [drive_closed hp, hp] at h
      exact ⟨_, List.mem_cons_self, ho, hp.trans h⟩
    | _ =>
      have ho' : (m.step (nextEvent input).1).isOpen := fun _ => hp ▸ Phase.noConfusion
      obtain ⟨v, hv, hr⟩ := ih ho' h
      exact ⟨v, List.mem_cons_of_mem _ hv, hr⟩

end Visits

/-! ## The accepted blocks -/

namespace Machine

variable {m : Machine}

@[simp] theorem attempt_fileBuf (a : Nat) : (m.attempt a).fileBuf = m.fileBuf := by
  cases a <;> rfl

@[simp] theorem attempt_blockExpected (a : Nat) :
    (m.attempt a).blockExpected = m.blockExpected := by
  cases a <;> rfl

def Started (m : Machine) : Prop := ∀ attempts, m.phase = .handshake attempts → m.blockExpected = 1

/-- The data that is stored, with that of the blocks to come. -/
def stored (m : Machine) (es : List Event) : Bytes :=
  m.fileBuf ++ (accepted m.blockExpected es).flatMap (·.data)

theorem stored_store {block : Block} (hn : block.number = m.blockExpected)
    (hc : block.complement = 255 - block.number) (hcrc : crc16 block.data = block.crc)
    (es : List Event) : (m.store block).stored es = m.stored (.block block :: es) := by
  simp [stored, store, reply, accepted, hn, hc, hcrc]

theorem stored_other {m' : Machine} (hb : m'.fileBuf = m.fileBuf)
    (he : m'.blockExpected = m.blockExpected)
    (h : ¬ (block.number = m.blockExpected ∧ block.complement = 255 - block.number ∧
      crc16 block.data = block.crc)) (es : List Event) :
    m'.stored es = m.stored (.block block :: es) := by
  rw [stored, stored, accepted, if_neg h, hb, he]

theorem started_of_phase {m' : Machine} (hp : ∀ a, m'.phase ≠ .handshake a) :
    m'.Started := fun a h => absurd h (hp a)

theorem started_attempt (h : m.blockExpected = 1) (a : Nat) : (m.attempt a).Started :=
  fun _ _ => (attempt_blockExpected a).trans h

theorem firstHeader_iff {block : Block} (h : m.blockExpected = 1) :
    ¬ (block.number ≠ 1 ∨ block.complement ≠ 0xFE) ↔
      block.number = m.blockExpected ∧ block.complement = 255 - block.number := by
  rw [h, not_or, not_not, not_not]
  constructor
  · rintro ⟨hn, hc⟩
    exact ⟨hn, by rw [hn, hc]; rfl⟩
  · rintro ⟨hn, hc⟩
    exact ⟨hn, by rw [hc, hn]; rfl⟩

theorem stored_firstBlock (h : m.blockExpected = 1) (a : Nat) (block : Block) (es : List Event) :
    (m.firstBlock a block).stored es = m.stored (.block block :: es) ∧
      (m.firstBlock a block).Started := by
  unfold firstBlock
  split_ifs with hf hcrc
  · refine ⟨stored_other rfl rfl (fun haccepted => ?_) es, started_of_phase fun _ =>
      Phase.noConfusion⟩
    exact (firstHeader_iff h).mpr ⟨haccepted.1, haccepted.2.1⟩ hf
  · exact ⟨stored_other (attempt_fileBuf _) (attempt_blockExpected _)
      (fun haccepted => hcrc haccepted.2.2) es,
      started_attempt (m := m.reply NAK) h a⟩
  · obtain ⟨hn, hc⟩ := (firstHeader_iff h).mp hf
    exact ⟨stored_store hn hc (not_not.mp hcrc) es, started_of_phase fun _ => Phase.noConfusion⟩

theorem stored_nextBlock (h : m.phase = .receiving) (block : Block) (es : List Event) :
    (m.nextBlock block).stored es = m.stored (.block block :: es) ∧
      (m.nextBlock block).Started := by
  have hr : m.Started := started_of_phase fun _ => h ▸ Phase.noConfusion
  obtain ⟨hn, -, heq⟩ | ⟨hb, heq⟩ | ⟨-, -, hcrc, heq⟩ | ⟨hn, hc, hcrc, heq⟩ :=
    nextBlock_cases m block
  · rw [heq]
    exact ⟨stored_other rfl rfl (fun haccepted => hn haccepted.1) es, hr⟩
  · rw [heq]
    refine ⟨stored_other rfl rfl (fun haccepted => ?_) es, started_of_phase fun _ =>
      Phase.noConfusion⟩
    rcases hb with ⟨hn, -⟩ | ⟨-, hc⟩
    · exact hn haccepted.1
    · exact hc haccepted.2.1
  · rw [heq]
    exact ⟨stored_other rfl rfl (fun haccepted => hcrc haccepted.2.2) es, hr⟩
  · rw [heq]
    exact ⟨stored_store hn hc hcrc es, started_of_phase fun _ => Phase.noConfusion⟩

/-- **A step stores what is accepted.** -/
theorem stored_step (hs : m.Started) (e : Event) (es : List Event) (ho : m.isOpen) :
    (m.step e).stored es = m.stored (e :: es) ∧ (m.step e).Started := by
  have hc : ∀ {m' : Machine} {ex : Exit}, (m'.close ex).Started := started_of_phase fun _ =>
    Phase.noConfusion
  unfold step
  cases hp : m.phase with
  | closed ex => exact absurd hp (ho ex)
  | handshake a =>
    have hone := hs a hp
    cases e with
    | block block => exact stored_firstBlock hone _ block es
    | none => exact ⟨by simp [stored, accepted], started_attempt hone _⟩
    | other => exact ⟨by simp [stored, accepted], started_attempt hone _⟩
    | _ => exact ⟨rfl, hc⟩
  | receiving =>
    cases e with
    | block block => exact stored_nextBlock hp block es
    | other => exact ⟨rfl, hs⟩
    | _ => exact ⟨rfl, hc⟩

end Machine

variable {m : Machine}

theorem drive_stored (f : Nat) (input : List Item) (hs : m.Started) :
    (drive f m input).fileBuf = m.stored ((visits f m input).map (·.2)) := by
  induction f generalizing m input with
  | zero => simp [drive, visits, stored, accepted]
  | succ f ih =>
    rw [drive, visits]
    split
    · simp [stored, accepted]
    · next hp =>
      obtain ⟨hstored, hs'⟩ := stored_step hs (nextEvent input).1
        ((visits f (m.step (nextEvent input).1) (nextEvent input).2).map (·.2)) hp
      rw [ih _ hs', hstored]
      rfl

/-! ## The result -/

theorem receiveFile_ok_iff (writeFile : Bytes → Option String) (input : List Item) (n : Nat) :
    receiveFile writeFile input = .ok n ↔
      (receive input).1 = .done ∧ writeFile (stripPadding (receive input).2.fileBuf) = none ∧
        (stripPadding (receive input).2.fileBuf).length = n := by
  unfold receiveFile
  generalize receive input = o
  obtain ⟨e, rx⟩ := o
  cases e with
  | done =>
    simp only
    split
    · next err heq => simp [heq]
    · next heq => simp [heq]
  | failed msg => simp
  | timeout => simp

theorem receiveFile_error (h : (receive input).1 ≠ .done) :
    ∃ msg, receiveFile writeFile input = .error msg := by
  cases hr : receiveFile writeFile input with
  | error msg => exact ⟨msg, rfl⟩
  | ok n => exact absurd ((receiveFile_ok_iff writeFile input n).mp hr).1 h

theorem drive_run (input : List Item) :
    (drive (limit input) .init input).phase = .closed (receive input).1 := by
  rw [(receive_eq_drive input).1]
  rfl

theorem attempt_phase_ne (m : Machine) (a : Nat) : (m.attempt a).phase ≠ .closed .done := by
  cases a with
  | zero => exact nofun
  | succ a => exact Phase.noConfusion

theorem firstBlock_phase_ne (m : Machine) (a : Nat) (block : Block) :
    (m.firstBlock a block).phase ≠ .closed .done := by
  unfold firstBlock
  split_ifs
  · exact nofun
  · exact attempt_phase_ne _ _
  · exact Phase.noConfusion

theorem nextBlock_phase_iff (h : m.phase = .receiving) (block : Block) :
    (m.nextBlock block).phase = .closed .done ↔ m.refuses block = true := by
  have ho : m.phase ≠ .closed .done := h ▸ Phase.noConfusion
  unfold refuses
  rw [h]
  obtain ⟨hn, hp, heq⟩ | ⟨hb, heq⟩ | ⟨hn, hc, -, heq⟩ |
    ⟨hn, hc, -, heq⟩ := nextBlock_cases m block
  · rw [heq]
    refine iff_of_false ho ?_
    simpa [hn] using hp
  · rw [heq]
    exact iff_of_true rfl (by simpa using hb)
  · rw [heq]
    exact iff_of_false ho (by simp [hn, hc])
  · rw [heq]
    exact iff_of_false Phase.noConfusion (by simp [hn, hc])

/-- What closes the machine at `done`: an `EOT`, or the sequence breaks off. -/
theorem done_iff (ho : m.isOpen) (e : Event) :
    (m.step e).phase = .closed .done ↔ e = .eot ∨ m.breaksOff e = true := by
  unfold step breaksOff
  cases hp : m.phase with
  | closed ex => exact absurd hp (ho ex)
  | handshake a =>
    cases e with
    | none => simpa using attempt_phase_ne m (a - 1)
    | other => simpa using attempt_phase_ne m (a - 1)
    | block block => simpa using firstBlock_phase_ne m (a - 1) block
    | _ => simp [close]
  | receiving =>
    cases e with
    | block block => simpa using nextBlock_phase_iff hp block
    | other => simp [hp]
    | _ => simp [close]

theorem run_last (input : List Item) : ∃ v ∈ run input, (run input).getLast? = some v ∧ v.1.isOpen ∧
      (v.1.step v.2).phase = .closed (receive input).1 := by
  have ho : init.isOpen := fun _ => Phase.noConfusion
  obtain ⟨v, hv, hvo, hc⟩ := exists_closing ho (drive_run input)
  exact ⟨v, hv, (visits_closing hv hc).1, hvo, hc⟩

/-- What closes the machine is the last thing that is read, and decides on the exit. -/
theorem closing_last (hv : v ∈ run input) (h : (v.1.step v.2).phase = .closed exit) :
    (run input).getLast? = some v ∧ (receive input).1 = exit := by
  obtain ⟨hl, hd⟩ := visits_closing hv h
  refine ⟨hl, ?_⟩
  have he := drive_run input
  rw [hd, h] at he
  exact (Phase.closed.inj he).symm

theorem visits_open (hv : v ∈ visits f m input) : v.1.isOpen := by
  induction f generalizing m input with
  | zero => cases hv
  | succ f ih =>
    rw [visits] at hv
    split at hv
    · cases hv
    · next hp =>
      rcases List.mem_cons.mp hv with rfl | hv
      · exact hp
      · exact ih hv

/-- **When a reported success can be trusted.** The receiver is faithful on an input if and only if
the sequence of blocks does not break off behind its first block. -/
theorem receiveFile_faithful_iff (input : List Item) :
    Faithful input ↔ ∀ v ∈ run input, v.1.breaksOff v.2 = false := by
  constructor
  · -- a break is the last thing that is read, and success is reported
    intro h v hv
    by_contra hb
    rw [Bool.not_eq_false] at hb
    have hc := (done_iff (visits_open hv) v.2).mpr (.inr hb)
    obtain ⟨hl, hd⟩ := closing_last hv hc
    have hok := (receiveFile_ok_iff (fun _ => none) input _).mpr ⟨hd, rfl, rfl⟩
    have he := h.eot _ _ hok
    rw [events, List.getLast?_map, hl] at he
    obtain ⟨m, e⟩ := v
    cases he
    simp [breaksOff] at hb
  · intro h
    have he : (receive input).1 = .done → (events input).getLast? = some .eot := by
      intro hd
      obtain ⟨v, hv, hl, ho, hc⟩ := run_last input
      rw [hd, done_iff ho, h v hv] at hc
      have he : v.2 = .eot := by simpa using hc
      rw [events, List.getLast?_map, hl, Option.map_some, he]
    refine ⟨fun writeFile n hok => ?_, fun writeFile n _ => ?_, fun hn writeFile => ?_,
      fun m block hv hr writeFile => ?_⟩
    · exact he ((receiveFile_ok_iff writeFile input n).mp hok).1
    · have hs := drive_stored (limit input) input (m := .init) fun _ _ => rfl
      rw [(receive_eq_drive input).1] at hs
      exact hs
    · refine receiveFile_error fun hd => hn ?_
      exact List.mem_of_getLast? (he hd)
    · apply receiveFile_error
      cases hp : m.phase with
      | closed exit => exact absurd hp (visits_open hv exit)
      | receiving =>
        have hb : m.breaksOff (.block block) = false := h _ hv
        simp [breaksOff, hp, hr] at hb
      | handshake attempts =>
        have hf : block.number ≠ 1 ∨ block.complement ≠ 0xFE := by
          simpa [refuses, hp] using hr
        have hc : (m.step (.block block)).phase = .closed (.failed "invalid first block") := by
          unfold step
          rw [hp]
          exact congrArg phase (if_pos hf)
        rw [(closing_last hv hc).2]
        exact Exit.noConfusion

/-- A block of zeros, with its number and the two bytes of its CRC, which are 0. -/
def zeroFrame (number : UInt8) : Bytes :=
  SOH :: number :: (255 - number) :: List.replicate blockSize 0 ++ [0, 0]

/-- **A cut line.** The input ends behind the first block: there is no `EOT`, and success is
reported. -/
theorem receiveFile_cut : receiveFile (fun _ => none) (ofBytes (zeroFrame 1)) = .ok 128 ∧
      .eot ∉ events (ofBytes (zeroFrame 1)) ∧ ¬ Faithful (ofBytes (zeroFrame 1)) := by
  have hok : receiveFile (fun _ => none) (ofBytes (zeroFrame 1)) = .ok 128 := by decide +kernel
  have hn : .eot ∉ events (ofBytes (zeroFrame 1)) := by decide +kernel
  refine ⟨hok, hn, fun h => ?_⟩
  obtain ⟨msg, he⟩ := h.ended hn fun _ => none
  rw [hok] at he
  cases he

example : receiveFile (fun _ => none) (ofBytes (zeroFrame 1 ++ zeroFrame 2 ++ [EOT])) =
    .ok 256 := by
  decide +kernel

end GoPosix.Rx
