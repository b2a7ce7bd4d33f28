import GoPosix.Lib.Bytes

/-!
# The size of a request

`handleConn` of `internal/daemon/server.go` decodes one message after the other from a connection,
through a `PerRequestLimitReader` that lets at most `limit` bytes pass and is reset before each
message. What the decoder has read of later messages stays in its buffer. How the bytes are split
over the calls of `Read` is left open.

The decoder is given by its scanner. It asks for more bytes as long as there is no complete value in
its buffer; a value that does not end by itself, as a number, is complete with the byte behind it or
at the end of the stream. So a message is accepted if what is not in the buffer yet passes the limit
(`turn_spec`), which is not what its size says.
-/

namespace GoPosix.Daemon.Wire

open Bytes List

/-! ## The reader -/

/-- A connection: the bytes that are to come, and how many of them the calls of `Read` yield, one at
least. -/
structure Conn where
  data : Bytes
  split : Nat → Nat
  calls : Nat

inductive ReadResult
  | bytes (b : Bytes)
  | eof
  | exceeded

def Conn.read (c : Conn) (len : Nat) : ReadResult × Conn :=
  if c.data = [] then (.eof, { c with calls := c.calls + 1 })
  else
    let n := min (c.split c.calls + 1) len
    (.bytes (c.data.take n), { c with data := c.data.drop n, calls := c.calls + 1 })

structure PerRequestLimitReader where
  limit : Nat
  read : Nat

namespace PerRequestLimitReader

/-- `Read`, with room for `len` bytes. -/
def readFrom (pr : PerRequestLimitReader) (c : Conn) (len : Nat) :
    ReadResult × PerRequestLimitReader × Conn :=
  if pr.read ≥ pr.limit then (.exceeded, pr, c)
  else
    let max := pr.limit - pr.read
    let len := if len > max then max else len
    match c.read len with
    | (.bytes b, c) => (.bytes b, { pr with read := pr.read + b.length }, c)
    | (r, c) => (r, pr, c)

def reset (pr : PerRequestLimitReader) : PerRequestLimitReader := { pr with read := 0 }

end PerRequestLimitReader

/-! ## The decoder -/

/-- What is at the head of a buffer: a value behind some blanks, the beginning of one, or none. -/
inductive Scan
  | value (blanks size : Nat)
  | more
  | invalid
  deriving DecidableEq

structure Scanner where
  scan : Bytes → Scan
  /-- At the end of the stream. -/
  scanEnd : Bytes → Scan

/-- A connection with its decoder: what is in the buffer, and the room that is left in it, one byte
at least. -/
structure Link where
  conn : Conn
  reader : PerRequestLimitReader
  buf : Bytes
  room : Nat → Nat

inductive Decoded
  | value (raw : Bytes)
  | eof
  | error
  deriving DecidableEq

def Link.take (l : Link) (blanks size : Nat) : Decoded × Link :=
  (.value ((l.buf.drop blanks).take size), { l with buf := l.buf.drop (blanks + size) })

/-- `Decode`. Each call of `Read` yields a byte, so there are `limit` of them at most that do. -/
def decodeLoop (sc : Scanner) : (fuel : Nat) → Link → Decoded × Link
  | 0, l => (.error, l)
  | fuel + 1, l =>
    match sc.scan l.buf with
    | .value blanks size => l.take blanks size
    | .invalid => (.error, l)
    | .more =>
      match l.reader.readFrom l.conn (l.room l.conn.calls + 1) with
      | (.bytes b, reader, conn) => decodeLoop sc fuel { l with buf := l.buf ++ b, reader, conn }
      | (.exceeded, reader, conn) => (.error, { l with reader, conn })
      | (.eof, reader, conn) =>
        match sc.scanEnd l.buf with
        | .value blanks size => Link.take { l with reader, conn } blanks size
        | .invalid => (.error, { l with reader, conn })
        | .more => (.eof, { l with reader, conn })

def decode (sc : Scanner) (l : Link) : Decoded × Link := decodeLoop sc (l.reader.limit + 2) l

/-! ## The connection -/

/-- One turn of the loop: the state before `Decode`, and what it returned. -/
structure Turn where
  before : Link
  result : Decoded

def Link.reset (l : Link) : Link := { l with reader := l.reader.reset }

/-- The loop of `handleConn`, up to the first message that is not decoded. -/
def handleLoop (sc : Scanner) : (fuel : Nat) → Link → List Turn
  | 0, _ => []
  | fuel + 1, l =>
    match decode sc l.reset with
    | (.value raw, l') => ⟨l.reset, .value raw⟩ :: handleLoop sc fuel l'
    | (result, _) => [⟨l.reset, result⟩]

/-- `handleConn`. A message has a byte at least. -/
def handleConn (sc : Scanner) (l : Link) : List Turn :=
  handleLoop sc (l.buf.length + l.conn.data.length + 1) l

/-! ## Messages -/

structure Message where
  blanks : Bytes
  value : Bytes
  /-- The value ends by itself, as an object or an array does. -/
  closed : Bool

namespace Message

def text (m : Message) : Bytes := m.blanks ++ m.value

/-- The bytes behind the value that show its end. -/
def look (m : Message) : Nat := if m.closed then 0 else 1

/-- **The scanner reads a message** that is followed by `rest`: it has it as soon as it can, and not
before. -/
structure Reads (sc : Scanner) (m : Message) (rest : Bytes) : Prop where
  nonempty : m.value ≠ []
  early : ∀ b, b <+: m.text ++ rest → b.length < m.text.length + m.look → sc.scan b = .more
  enough : ∀ b, b <+: m.text ++ rest → m.text.length + m.look ≤ b.length →
    sc.scan b = .value m.blanks.length m.value.length
  atEnd : m.closed = false → rest = [] → sc.scanEnd m.text = .value m.blanks.length m.value.length

end Message

def Streams (sc : Scanner) : List Message → (tail : Bytes) → Prop
  | [], _ => True
  | m :: ms, tail => m.Reads sc (ms.flatMap Message.text ++ tail) ∧ Streams sc ms tail

section

variable {sc : Scanner} {m : Message} {rest : Bytes} {l : Link}

def Link.pending (l : Link) : Bytes := l.buf ++ l.conn.data

/-- A call of `Read` that yields bytes moves some of them to the buffer, at most as many as pass the
limit. -/
theorem readFrom_bytes (pr : PerRequestLimitReader) (c : Conn) (len : Nat) (hr : pr.read < pr.limit)
    (hd : c.data ≠ []) :
    ∃ b c', pr.readFrom c (len + 1) = (.bytes b, { pr with read := pr.read + b.length }, c') ∧
      b ++ c'.data = c.data ∧ 0 < b.length ∧ pr.read + b.length ≤ pr.limit := by
  have hp := length_pos_iff.mpr hd
  unfold PerRequestLimitReader.readFrom Conn.read
  rw [if_neg (by omega)]
  simp only [if_neg hd]
  refine ⟨_, _, rfl, take_append_drop _ _, ?_, ?_⟩
  · rw [length_take]
    split <;> omega
  · rw [length_take]
    split <;> omega

theorem readFrom_exceeded {pr : PerRequestLimitReader} (h : pr.limit ≤ pr.read) (c : Conn)
    (len : Nat) :
    pr.readFrom c len = (.exceeded, pr, c) := if_pos h

theorem readFrom_eof {pr : PerRequestLimitReader} (h : pr.read < pr.limit) (hd : c.data = [])
    (len : Nat) : pr.readFrom c len = (.eof, pr, { c with calls := c.calls + 1 }) := by
  unfold PerRequestLimitReader.readFrom Conn.read
  rw [if_neg (by omega)]
  simp only [if_pos hd]

theorem take_text (hp : l.pending = m.text ++ rest) (hl : m.text.length ≤ l.buf.length) :
    (l.take m.blanks.length m.value.length).1 = .value m.value ∧
      (l.take m.blanks.length m.value.length).2.pending = rest := by
  obtain ⟨ahead, hb⟩ : ∃ ahead, l.buf = m.text ++ ahead := by
    have hprefix : m.text <+: l.buf ++ l.conn.data := ⟨rest, hp.symm⟩
    obtain ⟨ahead, h⟩ := prefix_of_prefix_length_le hprefix (prefix_append _ _) hl
    exact ⟨ahead, h.symm⟩
  have hr : ahead ++ l.conn.data = rest := by
    rw [Link.pending, hb, append_assoc] at hp
    exact append_cancel_left hp
  constructor
  · show Decoded.value ((l.buf.drop m.blanks.length).take m.value.length) = _
    rw [hb, Message.text, append_assoc, drop_left, take_left]
  · show l.buf.drop (m.blanks.length + m.value.length) ++ l.conn.data = rest
    rw [hb, ← length_append, ← Message.text, drop_left, hr]

/-- **What is decoded** from a state in which `l.reader.read` bytes have been counted: a message
passes if the bytes that are missing do. -/
theorem decodeLoop_spec (hm : m.Reads sc rest) {f : Nat} (hp : l.pending = m.text ++ rest)
    (hread : l.reader.read ≤ l.reader.limit) (hfuel : l.reader.limit - l.reader.read + 2 ≤ f) :
    (m.text.length + m.look + l.reader.read ≤ l.reader.limit + l.buf.length →
      (decodeLoop sc f l).1 = .value m.value ∧ (decodeLoop sc f l).2.pending = rest ∧
        (decodeLoop sc f l).2.reader.limit = l.reader.limit) ∧
    (l.reader.limit + l.buf.length < m.text.length + m.look + l.reader.read →
      (decodeLoop sc f l).1 = .error) := by
  induction f generalizing l with
  | zero => omega
  | succ f ih =>
    have hpre : l.buf <+: m.text ++ rest := ⟨l.conn.data, hp⟩
    rw [decodeLoop]
    rcases Nat.lt_or_ge l.buf.length (m.text.length + m.look) with hs | hlook
    · rw [hm.early l.buf hpre hs]
      rcases Nat.lt_or_ge l.reader.read l.reader.limit with hlt | hge
      · by_cases hd : l.conn.data = []
        · -- the value is the last one, and does not end by itself
          have hb : l.buf = m.text ++ rest := by
            rw [← hp, Link.pending, hd, append_nil]
          have hlk : m.look ≤ 1 := by
            unfold Message.look
            split <;> omega
          rw [hb, length_append] at hs
          have hc : m.closed = false := by
            by_contra hc
            have hzero : m.look = 0 := if_pos (by simpa using hc)
            omega
          have hrest : rest = [] := eq_nil_of_length_eq_zero (by omega)
          have htext : l.buf = m.text := by rw [hb, hrest, append_nil]
          have hscan := hm.atEnd hc hrest
          rw [← htext] at hscan
          simp only [readFrom_eof hlt hd, hscan]
          have hlen := congrArg List.length htext
          have ht := @take_text m rest { l with conn := { l.conn with calls := l.conn.calls + 1 } }
            hp
            (Nat.le_of_eq hlen.symm)
          exact ⟨fun _ => ⟨ht.1, ht.2, rfl⟩, fun h => by omega⟩
        · obtain ⟨b, c', hr, hsp, hpos, hl⟩ :=
            readFrom_bytes l.reader l.conn (l.room l.conn.calls) hlt hd
          simp only [hr]
          have hp' : Link.pending { l with
              buf := l.buf ++ b, reader := { l.reader with read := l.reader.read + b.length },
                conn := c' }
              = m.text ++ rest := by
            rw [← hp, Link.pending, Link.pending, append_assoc, hsp]
          have hfuel' : l.reader.limit - (l.reader.read + b.length) + 2 ≤ f := by omega
          obtain ⟨hpass, hf⟩ := ih hp' hl hfuel'
          simp only [length_append] at hpass hf
          exact ⟨fun h => hpass (by omega), fun h => hf (by omega)⟩
      · simp only [readFrom_exceeded hge]
        exact ⟨fun h => by omega, fun _ => trivial⟩
    · rw [hm.enough l.buf hpre hlook]
      have ht := take_text hp (by omega)
      exact ⟨fun _ => ⟨ht.1, ht.2, rfl⟩, fun h => by omega⟩

/-- **One message**, from a state in which some of it may be in the buffer. -/
theorem decode_spec (hm : m.Reads sc rest) (hp : l.pending = m.text ++ rest) :
    (m.text.length + m.look ≤ l.reader.limit + l.buf.length →
      (decode sc l.reset).1 = .value m.value ∧ (decode sc l.reset).2.pending = rest ∧
        (decode sc l.reset).2.reader.limit = l.reader.limit) ∧
    (l.reader.limit + l.buf.length < m.text.length + m.look → (decode sc l.reset).1 = .error) :=
  @decodeLoop_spec sc m rest l.reset hm (l.reader.limit + 2) hp (Nat.zero_le _) (Nat.le_refl _)

end

/-! ## Whole connections -/

section

variable {sc : Scanner} {ms : List Message} {tail : Bytes} {l : Link}

/-- **A turn of the loop** decodes its message if what is not in the buffer yet passes the limit. -/
theorem turn_spec (hs : Streams sc ms tail) (hp : l.pending = ms.flatMap Message.text ++ tail)
    {f i : Nat}
    {m : Message} (ht : (handleLoop sc f l)[i]? = some t) (hm : ms[i]? = some m) :
    t.result = .value m.value ↔ m.text.length + m.look ≤ l.reader.limit + t.before.buf.length := by
  induction ms generalizing l f i with
  | nil => cases hm
  | cons m' ms ih =>
    cases f with
    | zero => cases ht
    | succ f =>
      rw [flatMap_cons, append_assoc] at hp
      obtain ⟨hpass, hf⟩ := decode_spec hs.1 hp
      obtain ⟨result, l', hd⟩ : ∃ r l', decode sc l.reset = (r, l') := ⟨_, _, rfl⟩
      rw [handleLoop, hd] at ht
      rw [hd] at hpass hf
      rcases Nat.lt_or_ge (l.reader.limit + l.buf.length)
        (m'.text.length + m'.look) with hl | hsmall
      · -- the loop ends here
        obtain rfl : result = .error := hf hl
        cases i with
        | zero =>
          obtain rfl : m' = m := Option.some.inj hm
          obtain rfl := Option.some.inj ht
          exact iff_of_false (by simp) (Nat.not_le.mpr hl)
        | succ i => cases ht
      · obtain ⟨rfl, hr, hlimit⟩ := hpass hsmall
        cases i with
        | zero =>
          obtain rfl : m' = m := Option.some.inj hm
          obtain rfl := Option.some.inj ht
          exact iff_of_true rfl hsmall
        | succ i =>
          have h := ih hs.2 hr ht hm
          rwa [hlimit] at h

/-- **Sizes are exact**: a message is accepted if its size is at most the limit, and only then. -/
def SizesExact (sc : Scanner) (l : Link) (ms : List Message) : Prop :=
  ∀ (i : Nat) (t : Turn) (m : Message), (handleConn sc l)[i]? = some t → ms[i]? = some m →
    (t.result = .value m.value ↔ m.value.length ≤ l.reader.limit)

/-- **When sizes are exact.** At each message, its blanks and its value, with the byte that shows
its end, pass the limit and the buffer together if the value alone passes the limit, and only
then. -/
theorem sizesExact_iff (hstream : Streams sc ms tail)
    (hpending : l.pending = ms.flatMap Message.text ++ tail) :
    SizesExact sc l ms ↔
      ∀ (i : Nat) (t : Turn) (m : Message), (handleConn sc l)[i]? = some t → ms[i]? = some m →
        (m.blanks.length + m.value.length + m.look ≤ l.reader.limit + t.before.buf.length ↔
          m.value.length ≤ l.reader.limit) := by
  refine forall₅_congr fun i t m ht hm => iff_congr ?_ Iff.rfl
  rw [← length_append]
  exact turn_spec hstream hpending ht hm

end

/-! ## Two messages -/

/-- The end of an object or an array that is open `depth` times; in a text, brackets do not
count. -/
def scanContainer : (depth : Nat) → (inText escaped : Bool) → Bytes → Option Nat
  | _, _, _, [] => none
  | depth, true, escaped, c :: s =>
    (scanContainer depth (escaped || c ≠ 34) (!escaped && c = 92) s).map (· + 1)
  | depth, false, _, c :: s =>
    if c = 34 then (scanContainer depth true false s).map (· + 1)
    else if c = 123 ∨ c = 91 then (scanContainer (depth + 1) false false s).map (· + 1)
    else if c = 125 ∨ c = 93 then
      if depth ≤ 1 then some 1 else (scanContainer (depth - 1) false false s).map (· + 1)
    else (scanContainer depth false false s).map (· + 1)

def isBlank (c : UInt8) : Bool := c = 32 || c = 9 || c = 13 || c = 10

/-- A scanner for requests and batches, that is, for objects and arrays. -/
def requestScan (buf : Bytes) : Scan :=
  match buf.dropWhile isBlank with
  | [] => .more
  | c :: s =>
    if c = 123 ∨ c = 91 then
      match scanContainer 0 false false (c :: s) with
      | some size => .value (buf.takeWhile isBlank).length size
      | none => .more
    else .invalid

def requestScanner : Scanner := ⟨requestScan, requestScan⟩

/-- An object without members, and one with a member. -/
def shortMessage : Message := ⟨[], str "\x7b\x7d", true⟩

def longMessage : Message := ⟨[], str "\x7b\"a\":1\x7d", true⟩

theorem reads_of_take {m : Message} (hc : m.closed = true) (hne : m.value ≠ [])
    (hm : ∀ k < m.text.length, sc.scan (m.text.take k) = .more)
    (hv : ∀ r, sc.scan (m.text ++ r) = .value m.blanks.length m.value.length) (rest : Bytes) :
    m.Reads sc rest := by
  have hl : m.look = 0 := if_pos hc
  refine ⟨hne, ?_, ?_, ?_⟩
  · intro b hb hlen
    have hp := prefix_of_prefix_length_le hb (prefix_append _ _) (by omega)
    rw [prefix_iff_eq_take.mp hp]
    exact hm b.length (by omega)
  · intro b hb hlen
    obtain ⟨r, rfl⟩ := prefix_of_prefix_length_le (prefix_append _ _) hb (by omega)
    exact hv r
  · intro h
    rw [hc] at h
    cases h

theorem streams_short_long : Streams requestScanner [shortMessage, longMessage] [] := by
  refine ⟨?_, ?_, trivial⟩
  · exact reads_of_take rfl (by decide) (by decide) (fun r => rfl) _
  · exact reads_of_take rfl (by decide) (by decide) (fun r => rfl) _

/-- A connection with both of them, with a limit of this size, that yields all that is asked for. -/
def shortLong (limit : Nat) : Link :=
  ⟨⟨shortMessage.text ++ longMessage.text, fun _ => 511, 0⟩, ⟨limit, 0⟩, [], fun _ => 511⟩

/-- **A message of seven bytes passes a limit of five**: three of its bytes were read before. -/
theorem not_sizesExact : longMessage.value.length = 7 ∧
    (handleConn requestScanner (shortLong 5)).map Turn.result =
      [.value shortMessage.value, .value longMessage.value, .eof] ∧
      ¬ SizesExact requestScanner (shortLong 5) [shortMessage, longMessage] := by
  refine ⟨rfl, by decide, ?_⟩
  intro h
  have hturn : ∃ t, (handleConn requestScanner (shortLong 5))[1]? = some t ∧
      t.result = .value longMessage.value :=
    ⟨_, rfl, by decide⟩
  obtain ⟨t, ht, hr⟩ := hturn
  exact absurd ((h 1 t longMessage ht rfl).mp hr) (by decide)

/-- With a limit of nine bytes both pass, with and without what is in the buffer. -/
theorem sizesExact_nine : SizesExact requestScanner (shortLong 9) [shortMessage, longMessage] := by
  have hfit : ∀ m ∈ [shortMessage, longMessage],
      m.blanks.length + m.value.length + m.look ≤ 9 ∧ m.value.length ≤ 9 := by decide
  refine (sizesExact_iff streams_short_long rfl).mpr ?_
  intro i t m _ hm
  obtain ⟨hall, hval⟩ := hfit m (mem_of_getElem? hm)
  exact iff_of_true (Nat.le_add_right_of_le hall) hval

end GoPosix.Daemon.Wire
