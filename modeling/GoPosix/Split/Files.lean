import Mathlib.Data.List.Nodup
import Mathlib.Data.List.Range
import GoPosix.Lib.Pieces
import GoPosix.Split.Basic

/-!
# The files of split

Both loops of `Run` open a file, write a piece of the input to it and go on to the next number
(`emit`). What can go wrong is at the ends: the suffixes run out, which the byte mode does not
report and the letters do not notice; an input without a rest leaves an empty file behind; and a
line is written with a newline and without the carriage return it ended in.
-/

namespace GoPosix.Split

open Bytes Pieces List

/-! ## Suffixes -/

def Mode.names (m : Mode) : Nat :=
  if m.numeric then
    if m.suffixLen = 0 then 0
    else if 1000000 < m.suffixLen / 10 then 10 ^ (m.suffixLen - 24)
    else 10 ^ m.suffixLen
  else 26 ^ m.suffixLen

@[simp] theorem length_alphabetic (sl n : Nat) : (alphabetic sl n).length = sl := by
  induction sl generalizing n with
  | zero => rfl
  | succ sl ih => rw [alphabetic, length_append, ih, length_singleton]

theorem letter_injective (hi : i < 26) (hj : j < 26)
    (h : UInt8.ofNat (97 + i) = UInt8.ofNat (97 + j)) : i = j := by
  have hn := congrArg UInt8.toNat h
  rw [UInt8.toNat_ofNat', UInt8.toNat_ofNat'] at hn
  omega

theorem alphabetic_injective (hi : i < 26 ^ sl) (hj : j < 26 ^ sl)
    (h : alphabetic sl i = alphabetic sl j) : i = j := by
  induction sl generalizing i j with
  | zero =>
    omega
  | succ sl ih =>
    obtain ⟨hin, hl⟩ := append_inj' h rfl
    have hd := ih (by omega) (by omega) hin
    have hm := letter_injective (Nat.mod_lt i (by decide)) (Nat.mod_lt j (by decide))
      (List.cons.inj hl).1
    omega

theorem alphabetic_wrap (sl : Nat) : alphabetic sl (26 ^ sl) = alphabetic sl 0 := by
  induction sl with
  | zero => rfl
  | succ sl ih =>
    rw [alphabetic, alphabetic, Nat.pow_succ, Nat.mul_div_cancel _ (by decide), ih,
      Nat.mul_mod_left]

theorem sprintfPadded_injective (width : Nat) : Function.Injective (sprintfPadded width) := by
  intro i j h
  unfold sprintfPadded at h
  split at h
  · exact itoa_injective (append_cancel_left (append_cancel_right h))
  · have hv := congrArg decimalValue h
    rwa [decimalValue_zeros, decimalValue_zeros, decimalValue_itoa, decimalValue_itoa] at hv

section

variable {m : Mode}

theorem overflows_iff : m.overflows n = true ↔ m.numeric = true ∧ m.names ≤ n := by
  unfold Mode.overflows generateSuffix Mode.names
  rw [decide_eq_true_eq]
  cases m.numeric with
  | false => simp
  | true =>
    simp only [if_true, true_and]
    unfold sprintfPadded
    split_ifs with hb hzero hzero
    · omega
    · have hl := length_itoa_le_iff (n := n) (k := m.suffixLen - 24)
      have hc : (str "%!(NOVERB)%!(EXTRA int=").length = 23 ∧ (str ")").length = 1 := by decide
      rw [length_append, length_append]
      omega
    · have hp := length_pos_iff.mpr (itoa_ne_nil n)
      rw [length_append]
      omega
    · have hl := length_itoa_le_iff (n := n) (k := m.suffixLen)
      rw [length_append, length_replicate]
      omega

theorem name_injective (h : m.name i = m.name j)
    (hnames : m.numeric = true ∨ i < m.names ∧ j < m.names) : i = j := by
  have hs := append_cancel_left h
  unfold Mode.names at hnames
  cases hn : m.numeric with
  | true =>
    rw [hn] at hs
    exact sprintfPadded_injective _ hs
  | false =>
    rw [hn] at hs hnames
    obtain ⟨hi, hj⟩ := hnames.resolve_left (by decide)
    exact alphabetic_injective hi hj hs

/-- The first names are different exactly if the letters do not run out. -/
theorem nodup_names (c : Nat) :
    ((List.range' 0 c).map m.name).Nodup ↔ m.numeric = true ∨ c ≤ m.names := by
  constructor
  · intro h
    by_contra ho
    rw [not_or, Nat.not_le] at ho
    obtain ⟨hn, hlt⟩ := ho
    have hnames : m.names = 26 ^ m.suffixLen := by simp [Mode.names, hn]
    have hw : m.name m.names = m.name 0 := by
      simp [Mode.name, generateSuffix, hn, hnames, alphabetic_wrap]
    have hp : 0 < m.names := by
      rw [hnames]
      exact Nat.pow_pos (by decide)
    have hin := inj_on_of_nodup_map h (by simp [hlt]) (by simp; omega) hw
    omega
  · intro h
    refine List.Nodup.map_on (fun i hi j hj hij => name_injective hij (h.imp id fun hle => ?_))
      nodup_range'
    simp only [mem_range'_1] at hi hj
    omega

end

/-! ## Reading -/

/-- A chunk is read in full, however short the single reads are. -/
theorem readChunk_eq (s : Nat → Nat) (hf : data.length < f) : readChunk s f r data =
      (data.take r, data.drop r, decide (data.length < r)) := by
  induction f generalizing r data with
  | zero => cases hf
  | succ f ih =>
    rw [readChunk]
    split_ifs with hzero hnil
    · simp [hzero]
    · simp [hnil, Nat.pos_of_ne_zero hzero]
    have hp := length_pos_iff.mpr hnil
    have hb : 0 < bufSize := by decide
    dsimp only
    generalize hn : min (min (min bufSize r) (max 1 (s data.length))) data.length = n
    obtain ⟨hn0, hnr, hnd⟩ : 0 < n ∧ n ≤ r ∧ n ≤ data.length := by omega
    have hd : (data.drop n).length = data.length - n := length_drop
    have ht : data.take n ++ (data.drop n).take (r - n) = data.take r := by
      rw [← take_add, Nat.add_sub_cancel' hnr]
    have he : decide (data.length - n < r - n) = decide (data.length < r) := by
      rw [decide_eq_decide]
      omega
    rw [@ih (r - n) (data.drop n) (by omega)]
    rw [ht, drop_drop, Nat.add_sub_cancel' hnr, hd, he]

/-! ## Files with given texts -/

section

variable (m : Mode) (creat : Nat → Option Bytes)

/-- A file is opened, and an error in it is the result. -/
def openThen (opn : State → Except Bytes State) (s : State) (rest : State → Except Result State) :
    Except Result State :=
  match opn s with
  | .error err => .error (s.result (some err))
  | .ok s' => rest s'

def emit (opn : State → Except Bytes State) : List Bytes → State → Except Result State
  | [], s => .ok s
  | text :: texts, s => openThen opn s fun s' => emit opn texts (m.write text s').next

variable {m creat}

theorem openThen_ok (h : opn s = .ok s') (rest : State → Except Result State) :
    openThen opn s rest = rest s' := by
  rw [openThen, h]

theorem openThen_error (h : opn s = .error err) (rest : State → Except Result State) :
    openThen opn s rest = .error (s.result (some err)) := by
  rw [openThen, h]

@[simp] theorem next_chunkIdx (s : State) : s.next.chunkIdx = s.chunkIdx + 1 := rfl

@[simp] theorem write_chunkIdx (data : Bytes) (s : State) :
    (m.write data s).chunkIdx = s.chunkIdx := by
  unfold Mode.write
  split <;> rfl

theorem write_nil (s : State) : m.write [] s = s := by
  unfold Mode.write
  split
  · rfl
  · simp

theorem write_write (x y : Bytes) (s : State) : m.write y (m.write x s) = m.write (x ++ y) s := by
  unfold Mode.write
  split
  · rfl
  · simp [Function.comp_def]

theorem write_of_filter (h : m.filter ≠ []) (data : Bytes) (s : State) : m.write data s = s :=
  if_pos h

/-- **A way to open files** fails for the `bad` numbers, and does `upd` for the others. -/
structure Opens (opn : State → Except Bytes State) (bad : Nat → Prop) (upd : State → State) :
    Prop where
  ok : ∀ s, ¬ bad s.chunkIdx → opn s = .ok (upd s)
  error : ∀ s, bad s.chunkIdx → ∃ err, opn s = .error err
  idx : ∀ s, (upd s).chunkIdx = s.chunkIdx

section

theorem Opens.emit_ok (ho : Opens opn bad upd)
    (h : ∀ i < t.length, ¬ bad (s.chunkIdx + i)) :
    emit m opn t s = .ok (t.foldl (fun s text => (m.write text (upd s)).next) s) := by
  induction t generalizing s with
  | nil => rfl
  | cons text t ih =>
    rw [emit, openThen_ok (ho.ok s (h 0 (by simp)))]
    apply ih
    intro i hi
    rw [next_chunkIdx, write_chunkIdx, ho.idx, Nat.add_assoc, Nat.add_comm 1]
    exact h (i + 1) (by simpa using hi)

theorem Opens.emit_error (ho : Opens opn bad upd)
    (h : ∃ i < t.length, bad (s.chunkIdx + i)) : ∃ r, emit m opn t s = .error r := by
  induction t generalizing s with
  | nil =>
    obtain ⟨i, hi, -⟩ := h
    cases hi
  | cons text t ih =>
    by_cases hb : bad s.chunkIdx
    · obtain ⟨e, he⟩ := ho.error s hb
      exact ⟨_, openThen_error he _⟩
    rw [emit, openThen_ok (ho.ok s hb)]
    apply ih
    rw [next_chunkIdx, write_chunkIdx, ho.idx]
    obtain ⟨_ | i, hi, hb'⟩ := h
    · exact absurd hb' hb
    · exact ⟨i, Nat.lt_of_succ_lt_succ hi, by rwa [Nat.add_assoc, Nat.add_comm 1]⟩

end

theorem openThen_err (hr : ∀ s', rest s' = .error r → r.err ≠ none)
    (h : openThen opn s rest = .error r) :
    r.err ≠ none := by
  unfold openThen at h
  split at h
  · cases h
    simp [State.result]
  · exact hr _ h

theorem emit_err (h : emit m opn t s = .error r) : r.err ≠ none := by
  induction t generalizing s with
  | nil => cases h
  | cons text t ih => exact openThen_err (fun s' hs' => ih hs') h

/-- A state with the file of the current chunk, new and empty. -/
def State.fresh (m : Mode) (s : State) : State :=
  { s with
    files := s.files ++ [m.name s.chunkIdx]
    disk := Function.update s.disk (m.name s.chunkIdx) (some []) }

theorem opens_create (m : Mode) (creat : Nat → Option Bytes) :
    Opens (create m creat) (fun n => creat n ≠ none) (State.fresh m) where
  ok s h := by rw [create, not_not.mp h]; rfl
  error s h := by
    obtain ⟨e, he⟩ := Option.ne_none_iff_exists'.mp h
    exact ⟨_, by rw [create, he]⟩
  idx _ := rfl

/-- The state with a file for every text. -/
def State.after (m : Mode) (s : State) (texts : List Bytes) : State where
  files := s.files ++ (List.range' s.chunkIdx texts.length).map m.name
  chunkIdx := s.chunkIdx + texts.length
  disk := putAll s.disk (((List.range' s.chunkIdx texts.length).map m.name).zip texts)

theorem foldl_fresh (hf : m.filter = []) (t : List Bytes) (s : State) :
    t.foldl (fun s text => (m.write text (s.fresh m)).next) s = s.after m t := by
  induction t generalizing s with
  | nil => simp [State.after, putAll]
  | cons text t ih =>
    rw [foldl_cons, ih]
    simp [State.after, State.next, State.fresh, Mode.write, hf, putAll, List.range'_succ,
      Nat.add_assoc, Nat.add_comm 1]

/-! ## The loops -/

theorem opens_openChunk (m : Mode) (creat : Nat → Option Bytes) :
    Opens (openChunk m creat) (fun n => m.filter = [] ∧ creat n ≠ none)
      (fun s => if m.filter ≠ [] then s else s.fresh m) := by
  have hc := opens_create m creat
  unfold openChunk
  by_cases hf : m.filter = []
  · simpa [hf] using hc
  · simp only [ne_eq, hf, false_and]
    exact ⟨fun _ _ => rfl, fun _ h => h.elim, fun _ => rfl⟩

theorem openChunk_idx (h : openChunk m creat s = .ok s') : s'.chunkIdx = s.chunkIdx := by
  have ho := opens_openChunk m creat
  by_cases hb : m.filter = [] ∧ creat s.chunkIdx ≠ none
  · obtain ⟨e, he⟩ := ho.error s hb
    rw [he] at h
    cases h
  · rw [ho.ok s hb] at h
    cases h
    exact ho.idx s

/-- The texts there are suffixes for, from the number `n` on. -/
def Mode.fit (m : Mode) (n : Nat) (texts : List Bytes) : List Bytes :=
  if m.numeric then texts.take (m.names - n) else texts

theorem fit_cons (n : Nat) (text : Bytes) (t : List Bytes) :
    m.fit n (text :: t) = if m.overflows n then [] else text :: m.fit (n + 1) t := by
  unfold Mode.fit
  split_ifs with hn ho ho
  · rw [Nat.sub_eq_zero_of_le (overflows_iff.mp ho).2, take_zero]
  · have hlt : ¬ m.names ≤ n := fun hle => ho (overflows_iff.mpr ⟨hn, hle⟩)
    rw [show m.names - n = m.names - (n + 1) + 1 by omega, take_succ_cons]
  · exact absurd (overflows_iff.mp ho).1 hn
  · rfl

theorem fit_nil (n : Nat) : m.fit n [] = [] := by
  unfold Mode.fit
  split <;> simp

def finish : Except Result State → Result
  | .error r => r
  | .ok s => s.result none

/-- **The byte mode** writes the pieces of the input that there are suffixes for. -/
theorem splitBytes_eq (sh : Nat → Nat) (hbytes : 0 < m.bytesPerFile) (s : State)
    (hf : data.length < f) : splitBytes m creat sh f data s = finish (emit m (openChunk m creat)
      (m.fit s.chunkIdx (pieces m.bytesPerFile.toNat m.bytesPerFile.toNat data)) s) := by
  have hb : 0 < m.bytesPerFile.toNat := by omega
  induction f generalizing data s with
  | zero => cases hf
  | succ f ih =>
    rw [splitBytes, readChunk_eq sh (Nat.lt_succ_self _)]
    have hne : pieces m.bytesPerFile.toNat m.bytesPerFile.toNat data ≠ [] := pieces_ne_nil
    obtain ⟨p, ps, hps⟩ := exists_cons_of_ne_nil hne
    rw [hps, fit_cons]
    split_ifs with hover
    · rfl
    cases ho : openChunk m creat s with
    | error e => rw [emit, openThen_error ho]; rfl
    | ok s' =>
      rw [emit, openThen_ok ho]
      have hi := openChunk_idx ho
      simp only [decide_eq_true_eq]
      split_ifs with hlt
      · rw [pieces_of_lt hlt] at hps
        cases hps
        rw [take_of_length_le (by omega), fit_nil]
        rfl
      · rw [pieces_of_le hb hb (by omega)] at hps
        cases hps
        rw [ih _ (by rw [length_drop]; omega), next_chunkIdx, write_chunkIdx, hi]

theorem opens_openFile (m : Mode) (creat : Nat → Option Bytes) :
    Opens (openFile m creat)
      (fun n => m.overflows n = true ∨ m.filter = [] ∧ creat n ≠ none)
      (fun s => if m.filter ≠ [] then { s with files := s.files ++ [m.name s.chunkIdx] }
          else s.fresh m) := by
  have hc := opens_create m creat
  refine ⟨fun s h => ?_, fun s h => ?_, fun s => ?_⟩
  · rw [not_or] at h
    rw [openFile, if_neg h.1]
    split_ifs with hf
    · rfl
    · exact hc.ok s fun hb => h.2 ⟨not_not.mp hf, hb⟩
  · rw [openFile]
    split_ifs with ho hf
    · exact ⟨_, rfl⟩
    · exact absurd (h.resolve_left ho).1 hf
    · exact hc.error s (h.resolve_left ho).2
  · split_ifs
    · rfl
    · exact hc.idx s

theorem writeLines_short (h : currentLines + lines.length ≤ m.lines) :
    writeLines m creat lines currentLines s = .ok (m.write (unlines lines) s) := by
  induction lines generalizing currentLines s with
  | nil => rw [writeLines, unlines, map_nil, flatten_nil, write_nil]
  | cons line lines ih =>
    rw [length_cons] at h
    rw [writeLines, if_neg (by omega), ih (by omega), write_write]
    simp [unlines]

theorem writeLines_long (hl : 0 < m.lines)
    (hc : currentLines ≤ m.lines) (h : m.lines < currentLines + lines.length) :
    writeLines m creat lines currentLines s =
      openThen (openFile m creat)
        (m.write (unlines (lines.take (m.lines - currentLines).toNat)) s).next
        (writeLines m creat (lines.drop (m.lines - currentLines).toNat) 0) := by
  induction lines generalizing currentLines s with
  | nil =>
    rw [length_nil] at h
    omega
  | cons line lines ih =>
    rw [length_cons] at h
    rw [writeLines]
    split_ifs with hf
    · rw [show (m.lines - currentLines).toNat = 0 by omega, take_zero, drop_zero, unlines,
        map_nil, flatten_nil, write_nil, openThen]
      cases openFile m creat s.next with
      | error e => rfl
      | ok s' =>
        dsimp only
        rw [writeLines, if_neg (by omega)]
        rfl
    · rw [ih (by omega) (by omega), write_write,
        show (m.lines - currentLines).toNat = (m.lines - (currentLines + 1)).toNat + 1 by omega]
      simp [unlines]

/-- Each block of lines goes to a file of its own. -/
theorem openThen_writeLines (creat : Nat → Option Bytes) (hl : 0 < m.lines) (lines : List Bytes)
    (s : State) :
    (openThen (openFile m creat) s (writeLines m creat lines 0)).map State.next =
      emit m (openFile m creat)
          ((pieces m.lines.toNat (m.lines.toNat + 1) lines).map unlines) s := by
  induction hn : lines.length using Nat.strongRecOn generalizing lines s with
  | ind n ih =>
    by_cases hlt : lines.length < m.lines.toNat + 1
    · rw [pieces_of_lt hlt, map_singleton, emit, openThen, openThen]
      cases openFile m creat s with
      | error e => rfl
      | ok s' =>
        dsimp only
        rw [writeLines_short (by omega)]
        rfl
    · rw [pieces_of_le (by omega) (by omega) (by omega), map_cons, emit, openThen, openThen]
      cases openFile m creat s with
      | error e => rfl
      | ok s' =>
        dsimp only
        rw [writeLines_long hl (by omega) (by omega), Int.sub_zero]
        exact ih (lines.drop m.lines.toNat).length (by rw [length_drop]; omega) _ _ rfl

/-- **The line mode** writes the lines in pieces, if the scanner comes to the end. -/
theorem splitLines_eq (hl : 0 < m.lines) (lines : List Bytes) :
    splitLines m creat (lines, true) =
      finish (emit m (openFile m creat)
        ((pieces m.lines.toNat (m.lines.toNat + 1) lines).map unlines)
        .start) := by
  rw [← openThen_writeLines creat hl, splitLines, openThen]
  cases openFile m creat .start with
  | error e => rfl
  | ok s =>
    dsimp only
    cases writeLines m creat lines 0 s with
    | error r => rfl
    | ok s' => rfl

theorem splitLines_tooLong (hl : 0 < m.lines) (lines : List Bytes) :
    (splitLines m creat (lines, false)).err ≠ none := by
  have he := openThen_writeLines creat hl lines .start
  rw [openThen] at he
  rw [splitLines]
  cases ho : openFile m creat .start with
  | error e => simp [State.result]
  | ok s =>
    rw [ho] at he
    dsimp only at he ⊢
    cases hw : writeLines m creat lines 0 s with
    | error r =>
      rw [hw] at he
      exact emit_err he.symm
    | ok s' => simp [State.result]

end

end GoPosix.Split
