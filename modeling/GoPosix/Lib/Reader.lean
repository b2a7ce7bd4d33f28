import GoPosix.Lib.Bytes

/-!
# Reading from a stream

What an `io.Reader` has to give: bytes, and reads that fail in between. Behind the last item every
read says that the stream has ended. `readFull` is `io.ReadFull`, which calls `Read` until it has
all the bytes it was asked for; how they come in pieces does not matter to it.
-/

namespace Reader

open List

/-- One byte, or a read that fails. -/
inductive Item
  | byte (b : UInt8)
  | fail (msg : String)
  deriving DecidableEq, Repr

inductive ReadErr
  | eof
  | unexpectedEof
  | failed (msg : String)
  deriving DecidableEq, Repr

def ReadErr.text : ReadErr → String
  | .eof => "EOF"
  | .unexpectedEof => "unexpected EOF"
  | .failed msg => msg

/-- At most `n` bytes, up to an error, and what is left behind them. -/
def readBytes : (n : Nat) → List Item → Bytes × Option ReadErr × List Item
  | 0, input => ([], none, input)
  | _ + 1, [] => ([], some .eof, [])
  | _ + 1, .fail msg :: input => ([], some (.failed msg), input)
  | n + 1, .byte b :: input =>
    let (bytes, err, rest) := readBytes n input
    (b :: bytes, err, rest)

/-- `io.ReadFull`: the end of the stream is unexpected behind the first byte. -/
def readFull (n : Nat) (input : List Item) : Bytes × Option ReadErr × List Item :=
  match readBytes n input with
  | (b :: bytes, some .eof, rest) => (b :: bytes, some .unexpectedEof, rest)
  | res => res

/-- What one call of `Read` returns. Bytes may come together with an error. -/
structure Read where
  bytes : Bytes
  err : Option ReadErr
  deriving DecidableEq, Repr

/-- The calls of `Read` that give the bytes of a stream, in pieces of one to `size` bytes. The end
is reported with the last piece, or by the call behind it. -/
inductive Splits (size : Nat) : List Read → Bytes → Prop
  | nil : Splits size [] []
  | last {piece : Bytes} : piece ≠ [] → piece.length ≤ size → Splits size [⟨piece, some .eof⟩] piece
  | cons {piece data : Bytes} {reads : List Read} : piece ≠ [] → piece.length ≤ size →
      Splits size reads data → Splits size (⟨piece, none⟩ :: reads) (piece ++ data)

def ofBytes (bytes : Bytes) : List Item := bytes.map .byte

/-- What is left is shorter, if a byte has been asked for and there is an item. -/
theorem readBytes_rest (h : readBytes n i = (bytes, err, rest)) :
    rest.length ≤ i.length ∧ (0 < n → i ≠ [] → rest.length < i.length) := by
  induction n, i using readBytes.induct generalizing bytes with
  | case1 =>
    cases h
    exact ⟨Nat.le_refl _, fun hlt => absurd hlt (Nat.lt_irrefl 0)⟩
  | case2 =>
    cases h
    exact ⟨Nat.le_refl _, fun _ hne => absurd rfl hne⟩
  | case3 =>
    cases h
    exact ⟨Nat.le_succ _, fun _ _ => Nat.lt_succ_self _⟩
  | case4 n b i bytes' e' rest' heq ih =>
    simp only [readBytes, heq] at h
    cases h
    have hle := (ih heq).1
    exact ⟨Nat.le_succ_of_le hle, fun _ _ => Nat.lt_succ_of_le hle⟩

theorem readFull_rest (h : readFull n input = (bytes, err, rest)) :
    rest.length ≤ input.length ∧ (0 < n → input ≠ [] → rest.length < input.length) := by
  unfold readFull at h
  split at h
  · next heq =>
    cases h
    exact readBytes_rest heq
  · exact readBytes_rest h

theorem readBytes_ofBytes (bytes : Bytes) (i : List Item) :
    readBytes bytes.length (ofBytes bytes ++ i) = (bytes, none, i) := by
  induction bytes with
  | nil => rfl
  | cons b bytes ih =>
    unfold ofBytes at ih
    simp [readBytes, ofBytes, ih]

theorem readFull_ofBytes (bytes : Bytes) (i : List Item) :
    readFull bytes.length (ofBytes bytes ++ i) = (bytes, none, i) := by
  unfold readFull
  rw [readBytes_ofBytes]
  cases bytes <;> rfl

theorem readFull_append (hn : bytes.length = n) (rest : Bytes) :
    readFull n (ofBytes (bytes ++ rest)) = (bytes, none, ofBytes rest) := by
  rw [← hn, ← readFull_ofBytes bytes (ofBytes rest), ofBytes, map_append]
  rfl

/-- A read that need not wait does not depend on what comes later. -/
theorem readBytes_append_of_le (h : n ≤ input.length) (later : List Item) :
    readBytes n (input ++ later) = ((readBytes n input).1, (readBytes n input).2.1,
      (readBytes n input).2.2 ++ later) := by
  induction n, input using readBytes.induct with
  | case1 => simp [readBytes]
  | case2 => cases h
  | case3 => rfl
  | case4 n b input bytes err rest heq ih => simp [readBytes, ih (Nat.le_of_succ_le_succ h)]

theorem readFull_append_of_le (h : n ≤ input.length) (later : List Item) :
    readFull n (input ++ later) = ((readFull n input).1, (readFull n input).2.1,
      (readFull n input).2.2 ++ later) := by
  unfold readFull
  rw [readBytes_append_of_le h]
  rcases readBytes n input with ⟨_ | ⟨b, bytes⟩, _ | _ | _ | _, rest⟩ <;> rfl

/-! ## Pieces of one size -/

/-- A text cut into pieces of `n` bytes, with a shorter one at the end perhaps. -/
inductive Pieces (n : Nat) : List Bytes → Bytes → Prop
  | nil : Pieces n [] []
  | last {piece : Bytes} : piece ≠ [] → piece.length < n → Pieces n [piece] piece
  | cons {piece data : Bytes} {pieces : List Bytes} : piece.length = n → Pieces n pieces data →
      Pieces n (piece :: pieces) (piece ++ data)

theorem exists_pieces (hn : 0 < n) (data : Bytes) : ∃ pieces, Pieces n pieces data := by
  induction hl : data.length using Nat.strongRecOn generalizing data with
  | ind l ih =>
    by_cases hnil : data = []
    · exact ⟨[], hnil ▸ .nil⟩
    by_cases hlt : data.length < n
    · exact ⟨[data], .last hnil hlt⟩
    · have ht : (data.take n).length = n := by simp; omega
      obtain ⟨pieces, hp⟩ := ih (data.drop n).length (by simp; omega) (data.drop n) rfl
      have hc := Pieces.cons ht hp
      rw [take_append_drop] at hc
      exact ⟨_, hc⟩

theorem Pieces.size (h : Pieces n pieces data) (hn : 0 < n) :
    ∀ p ∈ pieces, 0 < p.length ∧ p.length ≤ n := by
  induction h with
  | nil => exact nofun
  | last hne hlt =>
    intro p hp
    rw [mem_singleton.mp hp]
    exact ⟨length_pos_iff.mpr hne, Nat.le_of_lt hlt⟩
  | cons hl _ ih =>
    intro p hp
    rcases mem_cons.mp hp with rfl | hp
    · exact ⟨hl ▸ hn, Nat.le_of_eq hl⟩
    · exact ih p hp

theorem readBytes_short (h : bytes.length < n) :
    readBytes n (ofBytes bytes) = (bytes, some .eof, []) := by
  induction bytes generalizing n with
  | nil =>
    cases n with
    | zero => cases h
    | succ n => rfl
  | cons b bytes ih =>
    cases n with
    | zero => cases h
    | succ n =>
      have hr := ih (Nat.lt_of_succ_lt_succ h)
      unfold ofBytes at hr
      simp [readBytes, ofBytes, hr]

theorem readFull_short (hne : bytes ≠ []) (h : bytes.length < n) :
    readFull n (ofBytes bytes) = (bytes, some .unexpectedEof, []) := by
  obtain ⟨b, rest, rfl⟩ := exists_cons_of_ne_nil hne
  rw [readFull, readBytes_short h]

end Reader
