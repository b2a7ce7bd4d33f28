import GoPosix.Lib.Reader

/-!
# The XMODEM receiver

`receiveFile` of `pkg/rx/rx.go`. The source has two loops and the label `done`, which several exits
of the second loop share: `handshake` and `recvLoop` are the loops, and an `Exit` says how they are
left. What the receiver reads is a stream that may fail in between and ends at some point; what it
writes back are its `replies`.

Both loops read a byte and, if it is `SOH`, a block: `nextEvent`. `Machine` is the receiver as it
reacts to one of them at a time, without an input of its own. The two agree (`receive_eq_drive`), so
the receiver can be put together with a sender that waits for its replies.
-/

namespace GoPosix.Rx

open Reader

/-! ## Constants and the checksum -/

def SOH : UInt8 := 0x01
def EOT : UInt8 := 0x04
def ACK : UInt8 := 0x06
def NAK : UInt8 := 0x15
def CAN : UInt8 := 0x18
def C : UInt8 := 0x43
def blockSize : Nat := 128
def maxRetries : Nat := 10

/-- The inner loop of `initCRC`, `n` turns of it. -/
def crcBits : (n : Nat) → UInt16 → UInt16
  | 0, crc => crc
  | n + 1, crc => crcBits n (if crc &&& 0x8000 ≠ 0 then (crc <<< 1) ^^^ 0x1021 else crc <<< 1)

def crcTable (i : UInt16) : UInt16 := crcBits 8 (i <<< 8)

def crc16 (data : Bytes) : UInt16 :=
  data.foldl (fun crc b => (crc <<< 8) ^^^ crcTable ((crc >>> 8) ^^^ b.toUInt16)) 0

/-! ## Blocks -/

structure Block where
  number : UInt8
  complement : UInt8
  data : Bytes
  crc : UInt16
  deriving DecidableEq, Repr

def uint16 (high low : UInt8) : UInt16 := (high.toUInt16 <<< 8) ||| low.toUInt16

def Block.ofBuf (buf : Bytes) : Block where
  number := buf.getD 0 0
  complement := buf.getD 1 0
  data := (buf.drop 2).take blockSize
  crc := uint16 (buf.getD (2 + blockSize) 0) (buf.getD (2 + blockSize + 1) 0)

def bufSize : Nat := 2 + blockSize + 2

/-! ## The loops -/

structure Receiver where
  input : List Item
  fileBuf : Bytes
  blockExpected : UInt8
  replies : Bytes

/-- How the loops are left: at the label `done`, or with an error. -/
inductive Exit
  | done
  | failed (msg : String)
  | timeout
  deriving DecidableEq, Repr

namespace Receiver

def reply (rx : Receiver) (b : UInt8) : Receiver := { rx with replies := rx.replies ++ [b] }

/-- The loop behind the label `recvLoop`. Every turn takes something from the input, so that the
fuel does not run out (`recvLoop_agrees`). -/
def recvLoop : (fuel : Nat) → Receiver → Exit × Receiver
  | 0, rx => (.timeout, rx)
  | fuel + 1, rx =>
    match readFull 1 rx.input with
    | (_, some _, rest) => (.done, { rx with input := rest })
    | (first, none, rest) =>
      let rx := { rx with input := rest }
      if first = [SOH] then
        match readFull bufSize rx.input with
        | (_, some _, rest) => (.done, { rx with input := rest })
        | (buf, none, rest) =>
          let rx := { rx with input := rest }
          let block := Block.ofBuf buf
          if block.number ≠ rx.blockExpected then
            if block.number = rx.blockExpected - 1 then recvLoop fuel (rx.reply ACK)
            else (.done, rx)
          else if block.complement ≠ 255 - block.number then (.done, rx)
          else if crc16 block.data ≠ block.crc then recvLoop fuel (rx.reply NAK)
          else
            recvLoop fuel ({ rx with
              fileBuf := rx.fileBuf ++ block.data, blockExpected := rx.blockExpected + 1 }.reply
                ACK)
      else if first = [EOT] then (.done, rx.reply ACK)
      else if first = [CAN] then (.failed "transfer cancelled", rx)
      else recvLoop fuel rx

def handshake : (attempts : Nat) → Receiver → Exit × Receiver
  | 0, rx => (.failed "no response from sender", rx)
  | attempts + 1, rx =>
    let rx := rx.reply C
    match readFull 1 rx.input with
    | (_, some _, rest) => handshake attempts { rx with input := rest }
    | (first, none, rest) =>
      let rx := { rx with input := rest }
      if first = [SOH] then
        match readFull bufSize rx.input with
        | (_, some err, rest) =>
          (.failed ("read first block: " ++ err.text), { rx with input := rest })
        | (buf, none, rest) =>
          let rx := { rx with input := rest }
          let block := Block.ofBuf buf
          if block.number ≠ 1 ∨ block.complement ≠ 0xFE then (.failed "invalid first block", rx)
          else if crc16 block.data ≠ block.crc then handshake attempts (rx.reply NAK)
          else
            let rx := { rx with
              fileBuf := rx.fileBuf ++ block.data, blockExpected := 2 }.reply ACK
            recvLoop (rx.input.length + 1) rx
      else if first = [EOT] then (.done, rx.reply ACK)
      else if first = [CAN] then (.failed "transfer cancelled", rx)
      else handshake attempts rx

end Receiver

def receive (input : List Item) : Exit × Receiver :=
  Receiver.handshake maxRetries ⟨input, [], 1, []⟩

/-- The end of the file without the bytes 0x1A that it is filled up with. -/
def stripPadding (raw : Bytes) : Bytes := (raw.reverse.dropWhile (· = 0x1A)).reverse

/-- `receiveFile`: the number of bytes that are stored. `writeFile` is the error of `os.WriteFile`,
if it has one. -/
def receiveFile (writeFile : Bytes → Option String) (input : List Item) : Except String Nat :=
  match receive input with
  | (.done, rx) =>
    let raw := stripPadding rx.fileBuf
    match writeFile raw with
    | some err => .error err
    | none => .ok raw.length
  | (.failed msg, _) => .error msg
  | (.timeout, _) => .error "timeout"

/-! ## Events -/

inductive Event
  /-- No byte: the read fails, or the input has ended. -/
  | none
  /-- `SOH` without a whole block behind it. -/
  | short (err : ReadErr)
  | block (block : Block)
  | eot
  | can
  | other
  deriving DecidableEq, Repr

def nextEvent (input : List Item) : Event × List Item :=
  match readFull 1 input with
  | (_, some _, rest) => (.none, rest)
  | (first, none, rest) =>
    if first = [SOH] then
      match readFull bufSize rest with
      | (_, some err, rest) => (.short err, rest)
      | (buf, none, rest) => (.block (Block.ofBuf buf), rest)
    else if first = [EOT] then (.eot, rest)
    else if first = [CAN] then (.can, rest)
    else (.other, rest)

/-! ## The machine -/

inductive Phase
  | handshake (attempts : Nat)
  | receiving
  | closed (exit : Exit)
  deriving DecidableEq, Repr

/-- The receiver between two events. In the handshake, the attempts that are left include the one
that is being made. -/
structure Machine where
  phase : Phase
  fileBuf : Bytes
  blockExpected : UInt8
  replies : Bytes
  deriving DecidableEq, Repr

open Machine

namespace Machine

def reply (m : Machine) (b : UInt8) : Machine := { m with replies := m.replies ++ [b] }

def close (m : Machine) (exit : Exit) : Machine := { m with phase := .closed exit }

/-- The next attempt of the handshake. -/
def attempt (m : Machine) : (attempts : Nat) → Machine
  | 0 => m.close (.failed "no response from sender")
  | attempts + 1 => { m with phase := .handshake (attempts + 1) }.reply C

def init : Machine := attempt ⟨.receiving, [], 1, []⟩ maxRetries

def store (m : Machine) (block : Block) : Machine :=
  { m with
    phase := .receiving, fileBuf := m.fileBuf ++ block.data,
    blockExpected := m.blockExpected + 1 }.reply ACK

def firstBlock (m : Machine) (attempts : Nat) (block : Block) : Machine :=
  if block.number ≠ 1 ∨ block.complement ≠ 0xFE then m.close (.failed "invalid first block")
  else if crc16 block.data ≠ block.crc then (m.reply NAK).attempt attempts
  else m.store block

def nextBlock (m : Machine) (block : Block) : Machine :=
  if block.number ≠ m.blockExpected then
    if block.number = m.blockExpected - 1 then m.reply ACK else m.close .done
  else if block.complement ≠ 255 - block.number then m.close .done
  else if crc16 block.data ≠ block.crc then m.reply NAK
  else m.store block

def step (m : Machine) (e : Event) : Machine :=
  match m.phase with
  | .handshake attempts =>
    match e with
    | .none => m.attempt (attempts - 1)
    | .short err => m.close (.failed ("read first block: " ++ err.text))
    | .block block => m.firstBlock (attempts - 1) block
    | .eot => (m.reply ACK).close .done
    | .can => m.close (.failed "transfer cancelled")
    | .other => m.attempt (attempts - 1)
  | .receiving =>
    match e with
    | .none => m.close .done
    | .short _ => m.close .done
    | .block block => m.nextBlock block
    | .eot => (m.reply ACK).close .done
    | .can => m.close (.failed "transfer cancelled")
    | .other => m
  | .closed _ => m

section Blocks

variable {m : Machine}

/-- **What a block behind the first one does.** -/
theorem nextBlock_cases (m : Machine) (block : Block) :
    (block.number ≠ m.blockExpected ∧ block.number = m.blockExpected - 1 ∧
      m.nextBlock block = m.reply ACK) ∨
      ((block.number ≠ m.blockExpected ∧ block.number ≠ m.blockExpected - 1 ∨
          block.number = m.blockExpected ∧ block.complement ≠ 255 - block.number) ∧
        m.nextBlock block = m.close .done) ∨
      (block.number = m.blockExpected ∧ block.complement = 255 - block.number ∧
        crc16 block.data ≠ block.crc ∧ m.nextBlock block = m.reply NAK) ∨
      (block.number = m.blockExpected ∧ block.complement = 255 - block.number ∧
        crc16 block.data = block.crc ∧ m.nextBlock block = m.store block) := by
  unfold nextBlock
  split_ifs with hn hp hc hcrc
  · exact .inl ⟨hn, hp, rfl⟩
  · exact .inr (.inl ⟨.inl ⟨hn, hp⟩, rfl⟩)
  · exact .inr (.inl ⟨.inr ⟨not_not.mp hn, hc⟩, rfl⟩)
  · exact .inr (.inr (.inl ⟨not_not.mp hn, not_not.mp hc, hcrc, rfl⟩))
  · exact .inr (.inr (.inr ⟨not_not.mp hn, not_not.mp hc, not_not.mp hcrc, rfl⟩))

/-- Behind the first block the machine goes on receiving, or it is closed. -/
theorem step_receiving (h : m.phase = .receiving) (e : Event) : (m.step e).phase = .receiving ∨
      ∃ ex, ex ≠ .timeout ∧ (m.step e).phase = .closed ex := by
  cases e with
  | none => exact .inr ⟨.done, Exit.noConfusion, by rw [step, h]; rfl⟩
  | short err => exact .inr ⟨.done, Exit.noConfusion, by rw [step, h]; rfl⟩
  | eot => exact .inr ⟨.done, Exit.noConfusion, by rw [step, h]; rfl⟩
  | can => exact .inr ⟨_, Exit.noConfusion, by rw [step, h]; rfl⟩
  | other => exact .inl (by rw [step, h]; exact h)
  | block block =>
    have hs : m.step (.block block) = m.nextBlock block := by rw [step, h]
    rw [hs]
    obtain ⟨-, -, heq⟩ | ⟨-, heq⟩ | ⟨-, -, -, heq⟩ | ⟨-, -, -, heq⟩ := nextBlock_cases m block
    · exact .inl (heq ▸ h)
    · exact .inr ⟨.done, Exit.noConfusion, heq ▸ rfl⟩
    · exact .inl (heq ▸ h)
    · exact .inl (heq ▸ rfl)

end Blocks

end Machine

/-- The machine on an input, as long as it is not closed. -/
def drive : (fuel : Nat) → Machine → List Item → Machine
  | 0, m, _ => m
  | fuel + 1, m, input =>
    match m.phase with
    | .closed _ => m
    | _ => drive fuel (m.step (nextEvent input).1) (nextEvent input).2

/-- The states of the machine before the events, with the events. -/
def visits : (fuel : Nat) → Machine → List Item → List (Machine × Event)
  | 0, _, _ => []
  | fuel + 1, m, input =>
    match m.phase with
    | .closed _ => []
    | _ => (m, (nextEvent input).1) :: visits fuel (m.step (nextEvent input).1) (nextEvent input).2

/-! ## The loops and the machine -/

def Receiver.machine (rx : Receiver) (phase : Phase) : Machine :=
  ⟨phase, rx.fileBuf, rx.blockExpected, rx.replies⟩

def Machine.receiver (m : Machine) (input : List Item) : Receiver :=
  ⟨input, m.fileBuf, m.blockExpected, m.replies⟩

variable {m : Machine}

theorem machine_receiver (h : m.phase = p) (i : List Item) : (m.receiver i).machine p = m := by
  subst h
  rfl

theorem nextEvent_rest (i : List Item) :
    (i = [] ∧ nextEvent i = (.none, [])) ∨ (nextEvent i).2.length < i.length := by
  cases i with
  | nil => exact .inl ⟨rfl, rfl⟩
  | cons it i =>
    right
    unfold nextEvent
    generalize hf : readFull 1 (it :: i) = first
    obtain ⟨bytes, e, rest⟩ := first
    have hlt := (readFull_rest hf).2 Nat.one_pos (List.cons_ne_nil _ _)
    cases e with
    | some e => exact hlt
    | none =>
      simp only
      split
      · generalize hb : readFull bufSize rest = buf
        obtain ⟨bytes', e', rest'⟩ := buf
        have hle := (readFull_rest hb).1
        cases e' <;> exact Nat.lt_of_le_of_lt hle hlt
      · split
        · exact hlt
        · split <;> exact hlt

def Machine.isOpen (m : Machine) : Prop := ∀ exit, m.phase ≠ .closed exit

theorem drive_closed (h : m.phase = .closed exit) (f : Nat) (i : List Item) : drive f m i = m := by
  cases f with
  | zero => rfl
  | succ f =>
    unfold drive
    rw [h]

theorem drive_open (h : m.isOpen) (f : Nat) (i : List Item) :
    drive (f + 1) m i = drive f (m.step (nextEvent i).1) (nextEvent i).2 := by
  rw [drive]
  split
  · next exit hp => exact absurd hp (h exit)
  · rfl

theorem drive_mono (h : (drive f m input).phase = .closed e) (hle : f ≤ f') :
    drive f' m input = drive f m input := by
  induction f generalizing f' m input with
  | zero => exact drive_closed h f' input
  | succ f ih =>
    obtain ⟨f', rfl⟩ := Nat.exists_eq_add_of_le' (Nat.one_le_of_lt hle)
    cases hp : m.phase with
    | closed e => rw [drive_closed hp, drive_closed hp]
    | _ =>
      have ho : m.isOpen := fun _ => hp ▸ Phase.noConfusion
      rw [drive_open ho] at h ⊢
      rw [drive_open ho]
      exact ih h (Nat.le_of_succ_le_succ hle)

/-- Within `n` steps the machine comes to the end that a loop comes to. -/
def Agrees (n : Nat) (m : Machine) (input : List Item) (o : Exit × Receiver) : Prop :=
  ∃ fuel ≤ n, drive fuel m input = o.2.machine (.closed o.1)

theorem Agrees.closed (h : m.phase = .closed exit) (n : Nat)
    (i i' : List Item) : Agrees n m i (exit, m.receiver i') := by
  refine ⟨0, Nat.zero_le n, ?_⟩
  exact (machine_receiver h i').symm

theorem Agrees.step (ho : m.isOpen)
    (h : Agrees n (m.step (nextEvent input).1) (nextEvent input).2 o)
    (hlt : n < n') : Agrees n' m input o := by
  obtain ⟨f, hle, hf⟩ := h
  exact ⟨f + 1, Nat.lt_of_le_of_lt hle hlt, (drive_open ho f input).trans hf⟩

/-- A loop goes on with the machine, unless it is closed. -/
def Machine.resume (m : Machine) (input : List Item) (loop : Receiver → Exit × Receiver) :
    Exit × Receiver :=
  match m.phase with
  | .closed exit => (exit, m.receiver input)
  | _ => loop (m.receiver input)

/-- One turn of the loop is a step of the machine. -/
theorem recvLoop_succ (f : Nat) (rx : Receiver) : Receiver.recvLoop (f + 1) rx =
      ((rx.machine .receiving).step (nextEvent rx.input).1).resume (nextEvent rx.input).2
        (Receiver.recvLoop f) := by
  rw [Receiver.recvLoop]
  unfold nextEvent
  generalize readFull 1 rx.input = first
  obtain ⟨bytes, e, rest⟩ := first
  cases e with
  | some e => rfl
  | none =>
    by_cases hs : bytes = [SOH]
    · simp only [hs, if_true]
      generalize readFull bufSize rest = buf
      obtain ⟨bytes', e', rest'⟩ := buf
      cases e' with
      | some e => rfl
      | none =>
        simp only [step, Receiver.machine]
        unfold nextBlock
        split_ifs <;> rfl
    · by_cases he : bytes = [EOT]
      · subst he
        rfl
      · by_cases hc : bytes = [CAN]
        · subst hc
          rfl
        · simp only [hs, he, hc]
          rfl

/-- **The loop is the machine**, and its fuel suffices. -/
theorem recvLoop_agrees {f : Nat} {rx : Receiver} (h : rx.input.length < f) :
    Agrees (rx.input.length + 1) (rx.machine .receiving) rx.input (Receiver.recvLoop f rx) ∧
      (Receiver.recvLoop f rx).1 ≠ .timeout := by
  induction f generalizing rx with
  | zero => exact absurd h (Nat.not_lt_zero _)
  | succ f ih =>
    have ho : (rx.machine .receiving).isOpen := fun _ => Phase.noConfusion
    rw [recvLoop_succ, resume]
    rcases step_receiving (m := rx.machine .receiving) rfl (nextEvent rx.input).1 with
      hp | ⟨exit, he, hp⟩
    · -- the input was not at its end, for then the machine would be closed
      have hs : (nextEvent rx.input).2.length < rx.input.length := by
        rcases nextEvent_rest rx.input with ⟨-, hnone⟩ | hlt
        · rw [hnone] at hp
          cases hp
        · exact hlt
      rw [hp]
      have hn := @ih (((rx.machine .receiving).step (nextEvent rx.input).1).receiver
        (nextEvent rx.input).2) (by change (nextEvent rx.input).2.length < f; omega)
      rw [machine_receiver hp] at hn
      exact ⟨.step ho hn.1 (Nat.succ_lt_succ hs), hn.2⟩
    · rw [hp]
      exact ⟨.step ho (.closed hp 0 _ _) (Nat.succ_pos _), he⟩

/-- **The handshake** does what the machine does, with the second loop behind it. -/
theorem handshake_agrees (a : Nat) {rx : Receiver} (he : rx.blockExpected = 1) :
    Agrees (rx.input.length + a + 1) ((rx.machine .receiving).attempt a) rx.input
      (Receiver.handshake a rx) ∧
      (Receiver.handshake a rx).1 ≠ .timeout := by
  induction a generalizing rx with
  | zero => exact ⟨.closed rfl _ _ _, Exit.noConfusion⟩
  | succ a ih =>
    have ho : ((rx.machine .receiving).attempt (a + 1)).isOpen := fun _ => Phase.noConfusion
    have hle : (nextEvent rx.input).2.length ≤ rx.input.length := by
      rcases nextEvent_rest rx.input with ⟨-, hn⟩ | hlt
      · rw [hn]
        exact Nat.zero_le _
      · exact Nat.le_of_lt hlt
    suffices hs : Agrees ((nextEvent rx.input).2.length + a + 1)
        (((rx.machine .receiving).attempt (a + 1)).step (nextEvent rx.input).1)
        (nextEvent rx.input).2 (Receiver.handshake (a + 1) rx) ∧
        (Receiver.handshake (a + 1) rx).1 ≠ .timeout from
      ⟨.step ho hs.1 (by omega), hs.2⟩
    rw [Receiver.handshake]
    unfold nextEvent
    simp only [Receiver.reply]
    generalize readFull 1 rx.input = first
    obtain ⟨bytes, e, rest⟩ := first
    cases e with
    | some e => exact @ih ⟨rest, _, _, _⟩ he
    | none =>
      by_cases hsoh : bytes = [SOH]
      · simp only [hsoh, if_true]
        generalize readFull bufSize rest = buf
        obtain ⟨bytes', e', rest'⟩ := buf
        cases e' with
        | some e => exact ⟨.closed rfl _ _ _, Exit.noConfusion⟩
        | none =>
          simp only
          generalize Block.ofBuf bytes' = block
          change Agrees _ (firstBlock _ a block) _ _ ∧ _
          unfold firstBlock
          split_ifs with hfirst hcrc
          · exact ⟨.closed rfl _ _ _, Exit.noConfusion⟩
          · exact @ih ⟨rest', _, _, _⟩ he
          obtain ⟨⟨f, hf, hd⟩, hexit⟩ := @recvLoop_agrees (rest'.length + 1)
            ⟨rest', rx.fileBuf ++ block.data, 2, rx.replies ++ [C] ++ [ACK]⟩
            (Nat.lt_succ_self _)
          have ht : rx.blockExpected + 1 = 2 := by rw [he]; rfl
          simp only [store, attempt, reply, Receiver.machine, ht]
          exact ⟨⟨f, Nat.le_trans hf (by simp), hd⟩, hexit⟩
      · by_cases heot : bytes = [EOT]
        · subst heot
          exact ⟨.closed rfl _ _ _, Exit.noConfusion⟩
        · by_cases hc : bytes = [CAN]
          · subst hc
            exact ⟨.closed rfl _ _ _, Exit.noConfusion⟩
          · simp only [hsoh, heot, hc]
            exact @ih ⟨rest, _, _, _⟩ he

/-- The number of steps after which the machine is closed. -/
def limit (input : List Item) : Nat := input.length + maxRetries + 1

/-- **The receiver is the machine.** -/
theorem receive_eq_drive (i : List Item) :
    drive (limit i) .init i = (receive i).2.machine (.closed (receive i).1) ∧
      (receive i).1 ≠ .timeout := by
  obtain ⟨⟨f, hle, hd⟩, he⟩ := @handshake_agrees maxRetries ⟨i, [], 1, []⟩ rfl
  have hc : (drive f .init i).phase = .closed (receive i).1 := by
    exact hd ▸ rfl
  exact ⟨(drive_mono hc hle).trans hd, he⟩

end GoPosix.Rx
