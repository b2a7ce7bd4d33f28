import GoPosix.Lib.Binary
import GoPosix.Xxd.Reverse

/-!
# od

The four dumps of `pkg/od/od.go` and a reader of their output. They differ in the values of a line
and in how these are printed.
-/

namespace GoPosix.Od

open Bytes Reader Binary Xxd List

/-- `%0<width>o` and `%0<width>x`. -/
def sprintf (base width n : Nat) : Bytes :=
  padZeros width ((Nat.digits base n).reverse.map hexDigit)

def value (base : Nat) (s : Bytes) : Nat :=
  s.foldl (fun n c => n * base + ((hexVal c).getD 0).toNat) 0

theorem hexDigit_digit :
    ∀ d < 16, isGraphic (hexDigit d) = true ∧ ((hexVal (hexDigit d)).getD 0).toNat = d := by decide

theorem value_sprintf (hb : 2 ≤ base ∧ base ≤ 16) (width n : Nat) :
    value base (sprintf base width n) = n := by
  have hz (k : Nat) : (replicate k 48).foldl (fun n c => n * base + ((hexVal c).getD 0).toNat) 0 =
      0 := by
    induction k with
    | zero => rfl
    | succ k ih => simpa [replicate_succ, show hexVal 48 = some 0 from rfl] using ih
  have hd : ∀ d ∈ Nat.digits base n, d < 16 := fun d hd =>
    (Nat.digits_lt_base hb.1 hd).trans_le hb.2
  rw [value, sprintf, padZeros, foldl_append, hz, foldl_map, foldl_reverse]
  refine Eq.trans ?_ (Nat.ofDigits_digits base n)
  generalize Nat.digits base n = digits at *
  induction digits with
  | nil => rfl
  | cons d ds ih =>
    obtain ⟨h, hds⟩ := forall_mem_cons.mp hd
    rw [foldr_cons, ih hds, (hexDigit_digit d h).2, Nat.ofDigits_cons, Nat.add_comm, Nat.mul_comm]

/-- A word of a line. -/
theorem sprintf_word (hb : 2 ≤ base ∧ base ≤ 16) (hw : 0 < width) (n : Nat) :
    sprintf base width n ≠ [] ∧ ∀ c ∈ sprintf base width n, isGraphic c = true := by
  constructor
  · rw [← length_pos_iff, sprintf, padZeros, length_append, length_replicate]
    omega
  · intro c hc
    rw [sprintf, padZeros, mem_append, mem_map] at hc
    rcases hc with h | ⟨d, hd, rfl⟩
    · exact eq_of_mem_replicate h ▸ rfl
    · exact (hexDigit_digit d ((Nat.digits_lt_base hb.1 (mem_reverse.mp hd)).trans_le hb.2)).1

/-- The values of `size` bytes, the last one with what is left. -/
def values (size : Nat) : Bytes → List Nat
  | [] => []
  | b :: buf => ofLe (b :: buf.take (size - 1)) :: values size (buf.drop (size - 1))
termination_by buf => buf.length

/-- Zeros may follow the last value. -/
theorem flatMap_values (hs : 0 < size) (buf : Bytes) :
    ∃ pad, (values size buf).flatMap (le size) = buf ++ pad ∧
    (size ∣ buf.length → pad = []) := by
  fun_induction values size buf with
  | case1 => exact ⟨[], rfl, fun _ => rfl⟩
  | case2 b buf ih =>
    obtain ⟨pad, hp, hd⟩ := ih
    rw [flatMap_cons, le_ofLe (by simp; omega), hp]
    by_cases hl : size ≤ buf.length + 1
    · refine ⟨pad, ?_, fun h => hd ?_⟩
      · rw [show size - (b :: buf.take (size - 1)).length = 0 by simp; omega, replicate_zero,
          append_nil, ← append_assoc,
          cons_append, take_append_drop]
      · have := Nat.dvd_sub h (dvd_refl size)
        rwa [length_drop, show buf.length - (size - 1) = (b :: buf).length - size by simp; omega]
    · have hn : buf.length ≤ size - 1 := by omega
      refine ⟨replicate (size - (b :: buf).length) 0 ++ pad, ?_, fun h => ?_⟩
      · rw [take_of_length_le hn, drop_of_length_le hn, nil_append, append_assoc]
      · exact absurd (Nat.le_of_dvd (Nat.succ_pos _) h) hl

/-- `-b`, `-t x1`, `-x` and the default. -/
inductive Mode
  | dumpBytes
  | dumpHexBytes
  | dumpHex
  | dumpShorts

namespace Mode

def size : Mode → Nat
  | dumpBytes | dumpHexBytes => 1
  | dumpHex | dumpShorts => 2

def base : Mode → Nat
  | dumpBytes | dumpShorts => 8
  | dumpHexBytes | dumpHex => 16

def width : Mode → Nat
  | dumpBytes => 3
  | dumpHexBytes => 2
  | dumpHex => 4
  | dumpShorts => 7

variable (m : Mode)

def line (offset : Nat) (buf : Bytes) : Bytes :=
  sprintf 8 7 offset ++ (values m.size buf).flatMap fun val => 32 :: sprintf m.base m.width val

def dumpLoop (maxBytes : Int) (offset : Nat) (input : List Item) : List Bytes :=
  match _h : readFull 16 input with
  | ([], some .eof, _) => [sprintf 8 7 offset]
  | (buf, err, rest) =>
    let remaining := maxBytes - offset
    if 0 ≤ maxBytes ∧ remaining ≤ 0 then [sprintf 8 7 offset]
    else
      let buf := if 0 ≤ maxBytes then buf.take remaining.toNat else buf
      m.line offset buf ::
        if err = some .eof then [sprintf 8 7 (offset + buf.length)]
          else dumpLoop maxBytes (offset + buf.length) rest
termination_by input.length
decreasing_by
  rename_i hnot
  refine (readFull_rest _h).2 (by decide) ?_
  rintro rfl
  cases _h
  exact hnot rfl

def dump (maxBytes : Int) (input : List Item) : Bytes := unlines (m.dumpLoop maxBytes 0 input)

/-! ## The reader -/

def readLine (line : Bytes) : Bytes :=
  (fields line).tail.flatMap fun s => le m.size (value m.base s)

/-- The lines of values and the last line. -/
def undump (text : Bytes) : Bytes :=
  let lines := (text.splitOn newline).dropLast
  (lines.dropLast.flatMap m.readLine).take (value 8 (lines.getLastD []))

/-! ## Numbers and lines -/

theorem base_bounds : 2 ≤ m.base ∧ m.base ≤ 16 := by cases m <;> decide

theorem width_pos : 0 < m.width := by cases m <;> decide

theorem fields_line (offset : Nat) (buf : Bytes) :
    fields (m.line offset buf) = sprintf 8 7 offset ::
      (values m.size buf).map (sprintf m.base m.width) := by
  rw [line]
  have hu := @sprintf_word 8 7 (by decide) (by decide) offset
  generalize sprintf 8 7 offset = u at *
  induction values m.size buf generalizing u with
  | nil => simpa using fields_one hu.1 hu.2
  | cons val v ih =>
    rw [flatMap_cons, cons_append, fields_word hu.1 hu.2,
      ih _ (sprintf_word m.base_bounds m.width_pos val)]
    rfl

theorem newline_notMem_line (offset : Nat) (buf : Bytes) : newline ∉ m.line offset buf := by
  have hg {s : Bytes} (h : ∀ c ∈ s, isGraphic c = true) : newline ∉ s := fun hs =>
    absurd (h _ hs) (by decide)
  simp only [line, mem_append, mem_flatMap, mem_cons, not_or, not_exists, not_and]
  exact ⟨hg (sprintf_word (by decide) (by decide) _).2,
    fun val _ => ⟨by decide, hg (sprintf_word m.base_bounds m.width_pos val).2⟩⟩

theorem readLine_line (offset : Nat) (buf : Bytes) :
    ∃ pad, m.readLine (m.line offset buf) = buf ++ pad ∧
    (buf.length = 16 → pad = []) := by
  obtain ⟨pad, hp, hd⟩ := @flatMap_values m.size (by cases m <;> decide) buf
  refine ⟨pad, ?_, fun h => hd ?_⟩
  · rw [readLine, fields_line, tail_cons, flatMap_map, ← hp]
    simp only [value_sprintf m.base_bounds]
  · rw [h]
    cases m <;> decide

theorem dumpLoop_read (hr : readFull 16 input = (buf, err, rest)) (hne : buf ≠ [])
    (he : err ≠ some .eof) (offset : Nat) :
    m.dumpLoop (-1) offset input = m.line offset buf ::
      m.dumpLoop (-1) (offset + buf.length) rest := by
  rw [dumpLoop]
  split
  · next h => exact absurd (congrArg Prod.fst (hr.symm.trans h)) hne
  · next h =>
    cases hr.symm.trans h
    simp [he]

theorem dumpLoop_end (offset : Nat) : m.dumpLoop (-1) offset [] = [sprintf 8 7 offset] := by
  rw [dumpLoop]
  rfl

/-- **The lines** have the bytes and the offsets. -/
theorem dumpLoop_spec (h : Pieces 16 pieces data) (offset : Nat) : ∃ lines,
    m.dumpLoop (-1) offset (ofBytes data) = lines ++ [sprintf 8 7 (offset + data.length)] ∧
      (∃ pad, lines.flatMap m.readLine = data ++ pad) ∧ ∀ i line, lines[i]? = some line →
        newline ∉ line ∧ value 8 ((fields line).headD []) = offset + 16 * i := by
  have hv (offset : Nat) (buf : Bytes) : value 8 ((fields (m.line offset buf)).headD []) =
      offset := by
    rw [fields_line]
    exact value_sprintf (by decide) 7 offset
  induction h generalizing offset with
  | nil => exact ⟨[], m.dumpLoop_end offset, ⟨[], rfl⟩, nofun⟩
  | @last piece hne hlt =>
    obtain ⟨pad, hp, -⟩ := m.readLine_line offset piece
    refine ⟨[m.line offset piece], ?_, ⟨pad, by simpa using hp⟩, ?_⟩
    · rw [m.dumpLoop_read (readFull_short hne hlt) hne nofun, dumpLoop_end]
      rfl
    · intro i l hi
      cases i with
      | zero => cases hi; exact ⟨m.newline_notMem_line _ _, hv _ _⟩
      | succ i => cases hi
  | @cons piece data _ hlen _ ih =>
    obtain ⟨lines, hl, ⟨pad, hp⟩, hall⟩ := ih (offset + 16)
    refine ⟨m.line offset piece :: lines, ?_, ⟨pad, ?_⟩, ?_⟩
    · rw [m.dumpLoop_read (readFull_append hlen data) (by rintro rfl; cases hlen) nofun, hlen, hl,
        length_append, hlen,
        Nat.add_assoc]
      rfl
    · obtain ⟨_, hr, hn⟩ := m.readLine_line offset piece
      rw [flatMap_cons, hr, hn hlen, hp, append_nil, append_assoc]
    · intro i l hi
      cases i with
      | zero => cases hi; exact ⟨m.newline_notMem_line _ _, hv _ _⟩
      | succ i =>
        obtain ⟨hn, hl⟩ := hall i l hi
        exact ⟨hn, by omega⟩

/-- **A dump can be read back**, and the offset of a line is 16 times its index. -/
theorem undump_dump (data : Bytes) : m.undump (m.dump (-1) (ofBytes data)) = data ∧
    ∀ i line, ((m.dump (-1) (ofBytes data)).splitOn newline).dropLast.dropLast[i]? = some line →
      value 8 ((fields line).headD []) = 16 * i := by
  obtain ⟨pieces, h⟩ := exists_pieces (n := 16) (by decide) data
  obtain ⟨lines, hl, ⟨pad, hp⟩, hall⟩ := m.dumpLoop_spec h 0
  have hn : ∀ l ∈ m.dumpLoop (-1) 0 (ofBytes data), newline ∉ l := by
    rw [hl]
    intro l hm
    rcases mem_append.mp hm with hm | hm
    · obtain ⟨i, hi⟩ := getElem?_of_mem hm
      exact (hall i l hi).1
    · rw [mem_singleton.mp hm]
      simpa [line, values] using m.newline_notMem_line (0 + data.length) []
  have hs : ((m.dump (-1) (ofBytes data)).splitOn newline).dropLast = lines ++
      [sprintf 8 7 data.length] := by
    rw [dump, splitOn_unlines hn, dropLast_concat, hl, Nat.zero_add]
  constructor
  · rw [undump, hs, dropLast_concat, hp, getLastD_concat, value_sprintf (by decide), take_left]
  · intro i line hi
    rw [hs, dropLast_concat] at hi
    rw [(hall i line hi).2, Nat.zero_add]

end Mode

end GoPosix.Od
