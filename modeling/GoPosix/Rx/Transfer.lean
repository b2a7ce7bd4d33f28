import GoPosix.Lib.StopAndWait
import GoPosix.Rx.Receive

/-!
# A whole transfer

The receiver together with a sender that sends each block until it sees an `ACK`, and at the end an
`EOT`. In a round the sender sends, the frame arrives with whatever the line has made of it, and the
answer is seen or lost. What has arrived stays in front of the receiver until it can read a whole
message. Frames keep their length, and a frame whose data has changed fails the CRC (`Admissible`).

The receiver acknowledges a block that has the number of the one before without a look at its
complement and CRC. So a block whose number is changed to that one is lost, and the transfer still
ends well (`transfer_loses_block`). Without such damage the protocol is stop and wait, and a
transfer that is reported as successful has brought all blocks, in order and once
(`transfer_exact`).
-/

namespace GoPosix.Rx

open Reader List Machine System

/-! ## On the line -/

def Block.buf (block : Block) : Bytes :=
  block.number :: block.complement ::
    (block.data ++ [(block.crc >>> 8).toUInt8, block.crc.toUInt8])

/-- The receiver can read a byte, and behind an `SOH` a block, without waiting. -/
def complete : (pending : List Item) → Bool
  | [] => false
  | item :: rest => item ≠ .byte SOH || bufSize ≤ rest.length

/-- The receiver reads what has arrived, as far as it need not wait. -/
def Machine.absorb : (fuel : Nat) → Machine → (pending : List Item) → Machine × List Item
  | 0, m, pending => (m, pending)
  | fuel + 1, m, pending =>
    match m.phase with
    | .closed _ => (m, pending)
    | _ =>
      if complete pending then absorb fuel (m.step (nextEvent pending).1) (nextEvent pending).2
      else (m, pending)

/-! ## Rounds -/

/-- Between two states of the receiver there is an `ACK`. -/
def answers (m m' : Machine) : Bool := (m'.replies.drop m.replies.length).contains ACK

/-- What arrives of a frame, its first byte and the block behind it, and whether the sender sees the
answer. -/
structure Round where
  first : UInt8
  received : Block
  seen : Bool

/-- The receiver, what has arrived and is not read yet, and how many blocks the sender has seen
acknowledged. -/
structure System where
  machine : Machine
  pending : List Item
  acked : Nat

namespace System

def init : System := ⟨.init, [], 0⟩

def number (s : System) : UInt8 := UInt8.ofNat (s.acked + 1)

section Blocks

variable (blocks : List Bytes)

/-- What arrives: a frame, or an `EOT` behind the last block. -/
def frame (s : System) (r : Round) : List Item :=
  if s.acked < blocks.length then ofBytes (r.first :: r.received.buf) else ofBytes [EOT]

/-- The receiver reads on with what has arrived. -/
def receives (s : System) (r : Round) : Machine × List Item :=
  let arrived := s.pending ++ s.frame blocks r
  s.machine.absorb arrived.length arrived

def acknowledges (s : System) (r : Round) : Bool :=
  answers s.machine (s.receives blocks r).1

def round (s : System) (r : Round) : System where
  machine := (s.receives blocks r).1
  pending := (s.receives blocks r).2
  acked :=
    if s.acked < blocks.length ∧ s.acknowledges blocks r = true ∧ r.seen = true then s.acked + 1
    else s.acked

def run (s : System) (rounds : List Round) : System := rounds.foldl (round blocks) s

/-- The states before the rounds, with the rounds. -/
def trace (s : System) : List Round → List (System × Round)
  | [] => []
  | r :: rounds => (s, r) :: trace (s.round blocks r) rounds

end Blocks

end System

/-- The line keeps the length of a frame, and the CRC catches a change of its data. -/
def Admissible (blocks : List Bytes) (v : System × Round) : Prop :=
  ∀ data, blocks[v.1.acked]? = some data → v.2.received.data.length = blockSize ∧
      (v.2.received.data ≠ data → crc16 v.2.received.data ≠ v.2.received.crc)

/-- A frame starts with an `SOH`. Behind the first block the rest of the header arrives as it was
sent, too, and a block that the receiver has already arrives with a valid CRC. -/
def Orderly (blocks : List Bytes) (v : System × Round) : Prop :=
  v.1.acked < blocks.length → v.2.first = SOH ∧
    (v.1.machine.phase = .receiving →
      v.2.received.number = v.1.number ∧ v.2.received.complement = 255 - v.1.number ∧
        (v.2.received.number = v.1.machine.blockExpected - 1 →
          crc16 v.2.received.data = v.2.received.crc))

/-! ## Reading a frame -/

theorem uint16_split (c : UInt16) : uint16 (c >>> 8).toUInt8 c.toUInt8 = c := by
  have hh : ((c >>> 8).toUInt8.toUInt16 <<< 8).toNat = (c.toNat / 256) <<< 8 := by
    have := c.toNat_lt
    simp [Nat.shiftRight_eq_div_pow]
    omega
  have hl : c.toUInt8.toUInt16.toNat = c.toNat % 256 := by simp
  unfold uint16
  rw [← UInt16.toNat_inj, UInt16.toNat_or, hh, hl,
    ← Nat.shiftLeft_add_eq_or_of_lt (Nat.mod_lt _ (by decide))]
  omega

theorem ofBuf_buf (h : block.data.length = blockSize) : Block.ofBuf block.buf = block := by
  have hd : (block.buf.drop 2).take blockSize = block.data := by
    rw [← h]
    exact take_left
  have hh : block.buf.getD (2 + blockSize) 0 = (block.crc >>> 8).toUInt8 := by
    rw [← h]
    simp [Block.buf, Nat.add_comm 2]
  have hl : block.buf.getD (2 + blockSize + 1) 0 = block.crc.toUInt8 := by
    rw [← h]
    simp [Block.buf, Nat.add_comm 2]
  unfold Block.ofBuf
  rw [hd, hh, hl, uint16_split]
  rfl

theorem buf_length {block : Block} (h : block.data.length = blockSize) :
    block.buf.length = bufSize := by
  simp only [Block.buf, length_cons, length_append, h]
  rfl

theorem nextEvent_block (h : block.data.length = blockSize) :
    nextEvent (ofBytes (SOH :: block.buf)) = (.block block, []) := by
  have hfirst : readFull 1 (ofBytes (SOH :: block.buf)) = ([SOH], none, ofBytes block.buf) := rfl
  have hbuf := readFull_append (buf_length h) []
  rw [append_nil] at hbuf
  unfold nextEvent
  rw [hfirst]
  simp only [if_true, hbuf, ofBuf_buf h]
  rfl

/-- A message that is complete is read in the same way, whatever comes behind it. -/
theorem nextEvent_append (h : complete pending = true) (later : List Item) :
    nextEvent (pending ++ later) = ((nextEvent pending).1, (nextEvent pending).2 ++ later) := by
  cases pending with
  | nil => cases h
  | cons item rest =>
    cases item with
    | fail msg => rfl
    | byte b =>
      simp only [complete, Bool.or_eq_true, decide_eq_true_eq, ne_eq, Item.byte.injEq] at h
      have hfirst (l : List Item) : readFull 1 (.byte b :: l) = ([b], none, l) := rfl
      unfold nextEvent
      rw [cons_append, hfirst, hfirst]
      by_cases hb : b = SOH
      · have hlong : bufSize ≤ rest.length := h.resolve_left fun hne => hne hb
        simp only [hb, if_true, readFull_append_of_le hlong]
        rcases readFull bufSize rest with ⟨buf, _ | err, rest'⟩ <;> rfl
      · simp only [List.cons.injEq, and_true, hb, if_false]
        split_ifs <;> rfl

section Absorb

variable {m : Machine}

theorem absorb_closed (h : m.phase = .closed exit) (fuel : Nat) (pending : List Item) :
    m.absorb fuel pending = (m, pending) := by
  cases fuel with
  | zero => rfl
  | succ fuel =>
    unfold absorb
    rw [h]

theorem absorb_open (h : m.isOpen) (hc : complete pending = true) (fuel : Nat) :
    m.absorb (fuel + 1) pending =
      (m.step (nextEvent pending).1).absorb fuel (nextEvent pending).2 := by
  rw [absorb]
  split
  · next exit hp => exact absurd hp (h exit)
  · rw [if_pos hc]

theorem absorb_incomplete (h : complete pending = false) (fuel : Nat) :
    m.absorb fuel pending = (m, pending) := by
  cases fuel with
  | zero => rfl
  | succ fuel =>
    unfold absorb
    rw [h]
    split <;> rfl

/-- What has arrived is read as at the head of the whole input. -/
theorem drive_absorb (fuel : Nat) (m : Machine) (pending : List Item) :
    ∃ n, ∀ k later, drive (n + k) m (pending ++ later) =
      drive k (m.absorb fuel pending).1 ((m.absorb fuel pending).2 ++ later) := by
  induction fuel generalizing m pending with
  | zero => exact ⟨0, fun k later => by rw [Nat.zero_add]; rfl⟩
  | succ fuel ih =>
    by_cases ho : m.isOpen
    · cases hc : complete pending with
      | false =>
        rw [absorb_incomplete hc]
        exact ⟨0, fun k later => by rw [Nat.zero_add]⟩
      | true =>
        rw [absorb_open ho hc]
        obtain ⟨n, hn⟩ := ih (m.step (nextEvent pending).1) (nextEvent pending).2
        refine ⟨n + 1, fun k later => ?_⟩
        rw [Nat.add_right_comm, drive_open ho, nextEvent_append hc]
        exact hn k later
    · obtain ⟨exit, hp⟩ := not_forall_not.mp ho
      rw [absorb_closed hp]
      exact ⟨0, fun k later => by rw [Nat.zero_add]⟩

end Absorb

/-- Nothing is left in front of a receiver that reads. -/
def System.Idle (s : System) : Prop := s.machine.isOpen → s.pending = []

/-- The event of an orderly round: the frame, or an `EOT` behind the last block. -/
def System.event (blocks : List Bytes) (s : System) (r : Round) : Event :=
  if s.acked < blocks.length then .block r.received else .eot

theorem System.frame_event {blocks : List Bytes} {s : System}
    (hadmissible : Admissible blocks (s, r))
    (ho : Orderly blocks (s, r)) : complete (s.frame blocks r) = true ∧
      nextEvent (s.frame blocks r) = (s.event blocks r, []) := by
  unfold System.frame System.event
  split
  · next hs =>
    have hlen := (hadmissible _ (List.getElem?_eq_getElem hs)).1
    rw [show r.first = SOH from (ho hs).1]
    refine ⟨?_, nextEvent_block hlen⟩
    simp [complete, ofBytes, buf_length hlen]
  · exact ⟨rfl, rfl⟩

/-- **In an orderly round** the receiver takes one step, and waits for the next frame. -/
theorem System.receives_eq {blocks : List Bytes} {s : System} (hi : s.Idle)
    (hadmissible : Admissible blocks (s, r)) (ho : Orderly blocks (s, r)) :
    (s.receives blocks r).1 = s.machine.step (s.event blocks r) ∧ (s.round blocks r).Idle := by
  by_cases hop : s.machine.isOpen
  · obtain ⟨hc, he⟩ := frame_event hadmissible ho
    have hr : s.receives blocks r = (s.machine.step (s.event blocks r), []) := by
      simp only [System.receives, hi hop, nil_append]
      obtain ⟨n, hn⟩ : ∃ n, (s.frame blocks r).length = n + 1 := by
        unfold System.frame
        split <;> exact ⟨_, rfl⟩
      rw [hn, absorb_open hop hc, he]
      exact absorb_incomplete rfl n
    refine ⟨by rw [hr], fun _ => ?_⟩
    simp only [System.round, hr]
  · obtain ⟨exit, hp⟩ := not_forall_not.mp hop
    have hr : (s.receives blocks r).1 = s.machine := by rw [System.receives, absorb_closed hp]
    refine ⟨?_, fun hop' => absurd hp ?_⟩
    · rw [hr]
      unfold step
      rw [hp]
    · simp only [System.round, hr] at hop'
      exact hop' exit

/-! ## Numbers -/

theorem ofNat_succ_eq_iff (a b : Nat) :
    UInt8.ofNat (a + 1) = UInt8.ofNat (b + 1) ↔ a % 256 = b % 256 := by
  rw [← UInt8.toNat_inj, UInt8.toNat_ofNat', UInt8.toNat_ofNat']
  omega

theorem ofNat_succ_sub (n : Nat) : UInt8.ofNat (n + 1) - 1 = UInt8.ofNat n := by
  rw [UInt8.ofNat_add]
  exact UInt8.add_sub_cancel _ _

theorem ofNat_succ_add (n : Nat) : UInt8.ofNat n + 1 = UInt8.ofNat (n + 1) :=
  (UInt8.ofNat_add n 1).symm

/-! ## Answers -/

section Answers

variable (m : Machine)

theorem answers_self : answers m m = false := by simp [answers]

theorem answers_reply (b : UInt8) : answers m (m.reply b) = decide (b = ACK) := by
  simp [answers, reply, eq_comm]

theorem answers_close (e : Exit) : answers m (m.close e) = false := by
  simp [answers, close]

theorem answers_corrupt (a : Nat) : answers m ((m.reply NAK).attempt a) = false := by
  cases a with
  | zero => exact answers_reply m NAK
  | succ a =>
    simp only [answers, attempt, reply, append_assoc, drop_left]
    rfl

theorem answers_store (block : Block) : answers m (m.store block) = true := answers_reply m ACK

end Answers

/-! ## The protocol -/

/-- The receiver has the data of the blocks that it has taken, in the sense of stop and wait, and
its number is theirs. -/
structure Holds (blocks : List Bytes) (acked : Nat) (m : Machine) (taken : List Bytes) : Prop where
  inv : StopAndWait.Inv blocks ⟨acked, taken⟩
  fileBuf : m.fileBuf = taken.flatten
  expected : m.blockExpected = UInt8.ofNat (taken.length + 1)
  handshake : ∀ attempts, m.phase = .handshake attempts → taken = []
  done : m.phase = .closed .done → taken = blocks

namespace Holds

variable {blocks : List Bytes}

theorem init (blocks : List Bytes) : Holds blocks 0 .init [] where
  inv := .init blocks
  fileBuf := rfl
  expected := rfl
  handshake _ _ := rfl
  done h := by cases h

variable (h : Holds blocks acked m taken)
include h

theorem reply (b : UInt8) : Holds blocks acked (m.reply b) taken :=
  ⟨h.inv, h.fileBuf, h.expected, h.handshake, h.done⟩

theorem fail (msg : String) : Holds blocks acked (m.close (.failed msg)) taken :=
  ⟨h.inv, h.fileBuf, h.expected, fun _ => Phase.noConfusion, nofun⟩

theorem attempt (hn : taken = []) (a : Nat) : Holds blocks acked (m.attempt a) taken where
  inv := h.inv
  fileBuf := (attempt_fileBuf a).trans h.fileBuf
  expected := (attempt_blockExpected a).trans h.expected
  handshake _ _ := hn
  done hd := absurd hd (attempt_phase_ne m a)

theorem take (hn : taken.length = acked) (hb : blocks[acked]? = some block.data) (se : Bool) :
    Holds blocks (if se then acked + 1 else acked) (m.store block) (taken ++ [block.data]) where
  inv := (StopAndWait.Step.take hn hb se).inv h.inv
  fileBuf := by simp [Machine.store, Machine.reply, h.fileBuf]
  expected := by
    rw [length_append]
    exact (congrArg (· + 1) h.expected).trans (ofNat_succ_add _)
  handshake _ := Phase.noConfusion
  done := Phase.noConfusion

theorem again (hold : taken.length = acked + 1) : Holds blocks (acked + 1) m taken :=
  ⟨(StopAndWait.Step.again hold).inv h.inv, h.fileBuf, h.expected, h.handshake, h.done⟩

theorem finish (he : blocks.length ≤ acked) :
    Holds blocks acked ((m.reply ACK).close .done) taken where
  inv := h.inv
  fileBuf := h.fileBuf
  expected := h.expected
  handshake _ := Phase.noConfusion
  done _ := h.inv.complete he

/-- The number of the block that is sent is the expected one if and only if the block is new. -/
theorem number_eq_iff : UInt8.ofNat (acked + 1) = m.blockExpected ↔ taken.length = acked := by
  rw [h.expected, ofNat_succ_eq_iff]
  exact StopAndWait.number_eq_iff (by decide) h.inv

theorem old_of_ne (hne : UInt8.ofNat (acked + 1) ≠ m.blockExpected) : taken.length = acked + 1 := by
  have hn : taken.length ≠ acked := fun hn => hne (h.number_eq_iff.mpr hn)
  have hle : acked ≤ taken.length := h.inv.le
  have hah : taken.length ≤ acked + 1 := h.inv.ahead
  omega

end Holds

/-- What a step does to the blocks that have been taken, with the answer seen or lost. -/
def Keeps (blocks : List Bytes) (acked : Nat) (m m' : Machine) (seen : Bool) : Prop :=
  ∃ taken, Holds blocks (if answers m m' = true ∧ seen = true then acked + 1 else acked) m' taken

variable {blocks : List Bytes} {s : System}

theorem Holds.keeps (h : Holds blocks acked m' taken) (hnot : answers m m' = false) :
    Keeps blocks acked m m' seen := by
  refine ⟨taken, ?_⟩
  rw [hnot]
  simpa using h

theorem keeps_firstBlock (h : Holds blocks acked m taken) (hn : taken = [])
    (hd : crc16 block.data = block.crc → blocks[acked]? = some block.data) (se : Bool) :
    Keeps blocks acked m (m.firstBlock attempts block) se := by
  unfold firstBlock
  split_ifs with hf hc
  · exact (h.fail _).keeps (answers_close m _)
  · exact ((h.reply NAK).attempt hn attempts).keeps (answers_corrupt m attempts)
  have hnew : taken.length = acked := by
    have hle := h.inv.le
    rw [hn] at hle ⊢
    exact (Nat.le_zero.mp hle).symm
  refine ⟨taken ++ [block.data], ?_⟩
  rw [answers_store]
  simpa using h.take hnew (hd (not_not.mp hc)) se

/-- A frame with the next number: its block is stored, or it is refused. -/
theorem keeps_nextBlock (h : Holds blocks acked m taken)
    (hn : block.number = UInt8.ofNat (acked + 1))
    (hc : block.complement = 255 - block.number)
    (hd : crc16 block.data = block.crc → blocks[acked]? = some block.data) (se : Bool) :
    Keeps blocks acked m (m.nextBlock block) se := by
  obtain ⟨hne, _, heq⟩ | ⟨hb, _⟩ | ⟨-, -, -, heq⟩ | ⟨he, -, hcrc, heq⟩ := nextBlock_cases m block
  · have hold := h.old_of_ne (hn ▸ hne)
    rw [heq]
    refine ⟨taken, ?_⟩
    rw [answers_reply]
    cases se with
    | true => simpa using (h.again hold).reply ACK
    | false => simpa using h.reply ACK
  · -- no other number is ever sent
    exfalso
    rcases hb with ⟨hne, hp⟩ | ⟨-, hw⟩
    · have hold := h.old_of_ne (hn ▸ hne)
      apply hp
      rw [h.expected, ofNat_succ_sub, hold, hn]
    · exact hw hc
  · rw [heq]
    exact (h.reply NAK).keeps (answers_reply m NAK)
  · rw [heq]
    have hnew : taken.length = acked := h.number_eq_iff.mp (hn.symm.trans he)
    refine ⟨taken ++ [block.data], ?_⟩
    rw [answers_store]
    simpa using h.take hnew (hd hcrc) se

/-- **A round** keeps to stop and wait. -/
theorem keeps_round (h : Holds blocks s.acked s.machine taken) (hi : s.Idle)
    (hadmissible : Admissible blocks (s, r)) (ho : Orderly blocks (s, r)) :
    ∃ taken', Holds blocks (s.round blocks r).acked (s.round blocks r).machine taken' := by
  unfold System.round System.acknowledges
  rw [(System.receives_eq hi hadmissible ho).1]
  by_cases hs : s.acked < blocks.length
  · -- a frame arrives; with a valid CRC it has the data that was sent
    have hd : crc16 r.received.data = r.received.crc → blocks[s.acked]? = some r.received.data := by
      intro hcrc
      rw [List.getElem?_eq_getElem hs]
      by_contra hne
      exact (hadmissible _ (List.getElem?_eq_getElem hs)).2 (fun heq => hne (heq ▸ rfl)) hcrc
    simp only [System.event, hs, true_and]
    unfold step
    cases hp : s.machine.phase with
    | handshake att => exact keeps_firstBlock h (h.handshake att hp) hd r.seen
    | receiving =>
      obtain ⟨hn, hc, -⟩ := (ho hs).2 hp
      exact keeps_nextBlock h hn (hc.trans (by rw [hn])) hd r.seen
    | closed e => exact h.keeps (answers_self _)
  · simp only [System.event, hs, if_false]
    refine ⟨taken, ?_⟩
    unfold step
    cases hp : s.machine.phase with
    | closed e => exact h
    | _ => exact h.finish (not_lt.mp hs)

theorem keeps_run (h : Holds blocks s.acked s.machine taken) (hi : s.Idle)
    (hadm : ∀ v ∈ s.trace blocks rounds, Admissible blocks v)
    (hord : ∀ v ∈ s.trace blocks rounds, Orderly blocks v) :
    ∃ taken', Holds blocks (s.run blocks rounds).acked (s.run blocks rounds).machine taken' := by
  induction rounds generalizing s taken with
  | nil => exact ⟨taken, h⟩
  | cons r rounds ih =>
    obtain ⟨hadmissible, hadm⟩ := forall_mem_cons.mp hadm
    obtain ⟨ho, hord⟩ := forall_mem_cons.mp hord
    obtain ⟨taken', h'⟩ := keeps_round h hi hadmissible ho
    exact ih h' (System.receives_eq hi hadmissible ho).2 hadm hord

/-- The receiver has read all that has arrived before every round. -/
theorem idle_of_mem_trace (hi : s.Idle) (hadm : ∀ v ∈ s.trace blocks rounds, Admissible blocks v)
    (hord : ∀ v ∈ s.trace blocks rounds, Orderly blocks v) :
    ∀ v ∈ s.trace blocks rounds, v.1.Idle := by
  induction rounds generalizing s with
  | nil => exact fun v hv => absurd hv not_mem_nil
  | cons r rounds ih =>
    obtain ⟨hadmissible, hadm⟩ := forall_mem_cons.mp hadm
    obtain ⟨ho, hord⟩ := forall_mem_cons.mp hord
    exact forall_mem_cons.mpr ⟨hi, ih (System.receives_eq hi hadmissible ho).2 hadm hord⟩

/-! ## What is acknowledged -/

def Block.Valid (block : Block) : Prop :=
  block.complement = 255 - block.number ∧ crc16 block.data = block.crc

instance (block : Block) : Decidable block.Valid := inferInstanceAs (Decidable (_ ∧ _))

theorem firstBlock_valid (h : answers m (m.firstBlock attempts block) = true) : block.Valid := by
  unfold firstBlock at h
  split_ifs at h with hf hc
  · rw [answers_close] at h
    cases h
  · rw [answers_corrupt] at h
    cases h
  · rw [not_or, not_not, not_not] at hf
    exact ⟨by rw [hf.1, hf.2]; rfl, not_not.mp hc⟩

/-- Behind the first block, all that is acknowledged without a check is a block with the number of
the one before. -/
theorem nextBlock_valid (h : answers m (m.nextBlock block) = true)
    (hp : block.number = m.blockExpected - 1 → block.Valid) : block.Valid := by
  obtain ⟨-, heq, -⟩ | ⟨-, heq⟩ | ⟨-, -, -, heq⟩ | ⟨-, hc, hcrc, -⟩ := nextBlock_cases m block
  · exact hp heq
  · rw [heq, answers_close] at h
    cases h
  · rw [heq, answers_reply] at h
    cases h
  · exact ⟨hc, hcrc⟩

theorem acknowledged_valid {v : System × Round} (hi : v.1.Idle) (hadmissible : Admissible blocks v)
    (ho : Orderly blocks v) (hs : v.1.acked < blocks.length)
    (h : v.1.acknowledges blocks v.2 = true) : v.2.received.Valid := by
  obtain ⟨s, r⟩ := v
  rw [System.acknowledges, (System.receives_eq hi hadmissible ho).1] at h
  simp only [System.event, hs, if_true, Machine.step] at h
  cases hp : s.machine.phase with
  | handshake attempts =>
    rw [hp] at h
    exact firstBlock_valid h
  | receiving =>
    rw [hp] at h
    obtain ⟨hn, hc, hcrc⟩ := (ho hs).2 hp
    exact nextBlock_valid h fun hprev => ⟨hc.trans (by rw [hn]), hcrc hprev⟩
  | closed exit =>
    rw [hp] at h
    simp only [answers_self] at h
    cases h

/-! ## The whole input -/

/-- What is on the line in a run, as the receiver gets it. -/
def wire (blocks : List Bytes) (s : System) (rounds : List Round) : List Item :=
  (s.trace blocks rounds).flatMap fun v => v.1.frame blocks v.2

theorem drive_wire (blocks : List Bytes) (s : System) (rounds : List Round) :
    ∃ n, drive n s.machine (s.pending ++ wire blocks s rounds) = (s.run blocks rounds).machine := by
  induction rounds generalizing s with
  | nil => exact ⟨0, rfl⟩
  | cons r rounds ih =>
    obtain ⟨k, hk⟩ := ih (s.round blocks r)
    obtain ⟨n, hn⟩ :=
      drive_absorb (s.pending ++ s.frame blocks r).length s.machine (s.pending ++ s.frame blocks r)
    refine ⟨n + k, ?_⟩
    have hw : wire blocks s (r :: rounds) =
        s.frame blocks r ++ wire blocks (s.round blocks r) rounds := rfl
    rw [hw, ← append_assoc, hn]
    exact hk

/-- **The receiver on the line** ends as the receiver of the rounds does. -/
theorem receive_wire (h : (System.init.run blocks rounds).machine.phase = .closed exit) :
    (receive (wire blocks .init rounds)).2.machine
      (.closed (receive (wire blocks .init rounds)).1) =
      (System.init.run blocks rounds).machine := by
  obtain ⟨n, hn⟩ := drive_wire blocks .init rounds
  change drive n .init (wire blocks .init rounds) = _ at hn
  rw [← (receive_eq_drive _).1, ← hn]
  rw [← hn] at h
  rcases Nat.le_total n (limit (wire blocks .init rounds)) with hle | hle
  · exact drive_mono h hle
  · exact (drive_mono (drive_run _) hle).symm

/-- **A transfer.** If all frames start with an `SOH`, behind the first block all headers arrive as
they were sent and the blocks that are sent again have a valid CRC, a transfer that is reported as
successful has stored the blocks, in order and once, and no frame has been acknowledged that fails
its complement or its CRC. -/
theorem transfer_exact (blocks : List Bytes) (rounds : List Round)
    (hadm : ∀ v ∈ System.init.trace blocks rounds, Admissible blocks v)
    (hord : ∀ v ∈ System.init.trace blocks rounds, Orderly blocks v) :
    ((System.init.run blocks rounds).machine.phase = .closed .done →
      (receive (wire blocks .init rounds)).1 = .done ∧
        (receive (wire blocks .init rounds)).2.fileBuf = blocks.flatten) ∧
    ∀ v ∈ System.init.trace blocks rounds, v.1.acked < blocks.length →
      v.1.acknowledges blocks v.2 = true → v.2.received.Valid := by
  have hi : System.init.Idle := fun _ => rfl
  constructor
  · intro hd
    obtain ⟨taken, hh⟩ := keeps_run (.init blocks) hi hadm hord
    have hs := receive_wire hd
    refine ⟨?_, ?_⟩
    · have hp := congrArg phase hs
      rw [hd] at hp
      exact Phase.closed.inj hp
    · have hb := congrArg fileBuf hs
      rw [hh.fileBuf, hh.done hd] at hb
      exact hb
  · intro v hv hsent hacked
    exact acknowledged_valid (idle_of_mem_trace hi hadm hord v hv) (hadm v hv)
      (hord v hv) hsent hacked

def zeroBlocks : List Bytes := [List.replicate blockSize 0, List.replicate blockSize 0]

/-- The frame of a block of zeros as it is sent. -/
def zeroBlock (number : UInt8) : Block := ⟨number, 255 - number, List.replicate blockSize 0, 0⟩

/-- The second block arrives damaged, then its acknowledgement gets lost, and it is sent again. -/
def troubledRounds : List Round :=
  [⟨SOH, zeroBlock 1, true⟩, ⟨SOH, { zeroBlock 2 with data := 1 :: List.replicate 127 0 }, true⟩,
    ⟨SOH, zeroBlock 2, false⟩, ⟨SOH, zeroBlock 2, true⟩, ⟨SOH, zeroBlock 0, true⟩]

instance (blocks : List Bytes) (v : System × Round) : Decidable (Admissible blocks v) :=
  match h : blocks[v.1.acked]? with
  | none => isTrue fun data hdata => by simp [h] at hdata
  | some data => decidable_of_iff (v.2.received.data.length = blockSize ∧
      (v.2.received.data ≠ data → crc16 v.2.received.data ≠ v.2.received.crc))
      (by simp [Admissible, h])

instance (blocks : List Bytes) (v : System × Round) : Decidable (Orderly blocks v) :=
  inferInstanceAs (Decidable (_ → _ ∧ (_ → _)))

theorem transfer_exact_troubledRounds :
    (System.init.run zeroBlocks troubledRounds).machine.phase = .closed .done ∧
      (receive (wire zeroBlocks .init troubledRounds)).2.fileBuf = zeroBlocks.flatten := by
  have hadmissible : ∀ v ∈ System.init.trace zeroBlocks troubledRounds,
      Admissible zeroBlocks v := by
    decide +kernel
  have ho : ∀ v ∈ System.init.trace zeroBlocks troubledRounds, Orderly zeroBlocks v := by
    decide +kernel
  have hd : (System.init.run zeroBlocks troubledRounds).machine.phase = .closed .done := by
    decide +kernel
  exact ⟨hd, ((transfer_exact zeroBlocks troubledRounds hadmissible ho).1 hd).2⟩

/-- The number of the second block is changed to that of the first one. -/
def lossyRounds : List Round :=
  [⟨SOH, zeroBlock 1, true⟩, ⟨SOH, { zeroBlock 2 with number := 1 }, true⟩,
    ⟨SOH, zeroBlock 0, true⟩]

/-- **A block is lost.** The changed frame fails its complement and is acknowledged; the transfer is
reported as successful with one block of two. -/
theorem transfer_loses_block :
    (∀ v ∈ System.init.trace zeroBlocks lossyRounds, Admissible zeroBlocks v) ∧
      (System.init.run zeroBlocks lossyRounds).machine.phase = .closed .done ∧
      (receive (wire zeroBlocks .init lossyRounds)).1 = .done ∧
      (receive (wire zeroBlocks .init lossyRounds)).2.fileBuf ≠ zeroBlocks.flatten ∧
      ∃ v ∈ System.init.trace zeroBlocks lossyRounds, v.1.acked < zeroBlocks.length ∧
        v.1.acknowledges zeroBlocks v.2 = true ∧ ¬ v.2.received.Valid := by
  decide +kernel

end GoPosix.Rx
