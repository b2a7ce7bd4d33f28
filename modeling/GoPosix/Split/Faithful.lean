import GoPosix.Split.Files

/-!
# When split keeps its input

`Faithful` says what the files of a run should be: different names, the input in order, the size
that was asked for, none empty. `run_faithful_iff` says exactly for which inputs and modes a run
without an error is.
-/

namespace GoPosix.Split

open Bytes Pieces List

/-- The text of a full file. -/
def Mode.Requested (m : Mode) (text : Bytes) : Prop :=
  if 0 < m.bytesPerFile then (text.length : Int) = m.bytesPerFile
  else ∃ lines : List Bytes, (lines.length : Int) = m.lines ∧ (∀ l ∈ lines, newline ∉ l) ∧
    text = unlines lines

/-- **What a split is to be**: the names are different, the files in order are the input, each but
the last has the size that was asked for, and none is empty. -/
def Faithful (m : Mode) (data : Bytes) (r : Result) : Prop :=
  r.files.Nodup ∧ ∃ texts : List Bytes, r.files.map r.disk = texts.map some ∧ texts.flatten = data ∧
    (∀ text ∈ texts.dropLast, m.Requested text) ∧ [] ∉ texts

def Mode.byteFiles (m : Mode) (data : Bytes) : Nat :=
  let count := data.length / m.bytesPerFile.toNat + 1
  if m.numeric then min count m.names else count

/-- When the byte mode is faithful: a file cannot be created, which is reported, or there is a rest
and a suffix for it, or the numbers run out right behind the last full file. -/
def BytesFine (m : Mode) (creat : Nat → Option Bytes) (data : Bytes) : Prop :=
  if m.filter ≠ [] then data = []
  else (∃ i < m.byteFiles data, creat i ≠ none) ∨
    (data.length % m.bytesPerFile.toNat ≠ 0 ∧ data.length / m.bytesPerFile.toNat < m.names) ∨
    (m.numeric = true ∧ data.length = m.names * m.bytesPerFile.toNat)

def Mode.lineFiles (m : Mode) (data : Bytes) : Nat :=
  ((scanLines data).1.length - 1) / m.lines.toNat + 1

/-- When the line mode is faithful: a line is too long, the numbers run out or a file cannot be
created, which is reported, or the input ends in a newline, no line in a carriage return, and there
are names enough. -/
def LinesFine (m : Mode) (creat : Nat → Option Bytes) (data : Bytes) : Prop :=
  (∃ l ∈ data.splitOn newline, maxScanTokenSize ≤ l.length) ∨
  (m.numeric = true ∧ m.names < m.lineFiles data) ∨
  (m.filter = [] ∧ ((∃ i < m.lineFiles data, creat i ≠ none) ∨
      (data.getLast? = some newline ∧ (∀ l ∈ data.splitOn newline, l.getLast? ≠ some 13) ∧
        (m.numeric = true ∨ m.lineFiles data ≤ m.names))))

section

variable {m : Mode} {creat : Nat → Option Bytes} {data : Bytes}

theorem zip_names (m : Mode) (t : List Bytes) :
    (((List.range' 0 t.length).map m.name).zip t).map Prod.fst =
      (List.range' 0 t.length).map m.name ∧
      (((List.range' 0 t.length).map m.name).zip t).map Prod.snd = t := by
  constructor
  · exact map_fst_zip (by simp)
  · exact map_snd_zip (by simp)

/-- What the files must be if all texts are written. -/
theorem faithful_after (t : List Bytes) : Faithful m data ((State.start.after m t).result none) ↔
      (m.numeric = true ∨ t.length ≤ m.names) ∧ t.flatten = data ∧
        (∀ text ∈ t.dropLast, m.Requested text) ∧ [] ∉ t := by
  have hf : ((State.start.after m t).result none).files = (List.range' 0 t.length).map m.name :=
    nil_append _
  unfold Faithful
  rw [hf, nodup_names]
  refine and_congr_right fun hn => ?_
  have hnodup := (nodup_names t.length).mpr hn
  obtain ⟨hfs, hs⟩ := zip_names m t
  have hd : ((List.range' 0 t.length).map m.name).map ((State.start.after m t).result none).disk =
      t.map some := by
    have hp := map_putAll (d := State.start.disk) (hfs ▸ hnodup)
    rw [hfs, hs] at hp
    exact hp
  constructor
  · rintro ⟨t', hm, hr⟩
    rw [hd] at hm
    obtain rfl := (map_inj_right fun _ _ => Option.some.inj).mp hm
    exact hr
  · exact fun hr => ⟨t, hd, hr⟩

theorem faithful_of_no_files (h : r.files = []) : Faithful m data r ↔ data = [] := by
  unfold Faithful
  rw [h]
  constructor
  · rintro ⟨-, t, hm, hf, -⟩
    rw [← hf, map_eq_nil_iff.mp hm.symm]
    rfl
  · rintro rfl
    exact ⟨nodup_nil, [], rfl, rfl, by simp, by simp⟩

/-! ## Bytes -/

abbrev Mode.bytePieces (m : Mode) (data : Bytes) : List Bytes :=
  pieces m.bytesPerFile.toNat m.bytesPerFile.toNat data

section

variable (hbytes : 0 < m.bytesPerFile)

include hbytes

theorem length_bytePieces (data : Bytes) :
    (m.bytePieces data).length = data.length / m.bytesPerFile.toNat + 1 := by
  rw [length_pieces (by omega) le_rfl, Nat.add_sub_cancel]

theorem requested_of_length (h : text.length = m.bytesPerFile.toNat) : m.Requested text := by
  rw [Mode.Requested, if_pos hbytes]
  omega

theorem faithful_pieces : Faithful m data ((State.start.after m (m.bytePieces data)).result none) ↔
    (m.numeric = true ∨ data.length / m.bytesPerFile.toNat < m.names) ∧
      data.length % m.bytesPerFile.toNat ≠ 0 := by
  have hb : 0 < m.bytesPerFile.toNat := by omega
  have hs : ∀ text ∈ (m.bytePieces data).dropLast, m.Requested text :=
    fun text ht => requested_of_length hbytes (length_of_mem_dropLast le_rfl text ht)
  rw [faithful_after, length_bytePieces hbytes data, nil_mem_pieces hb rfl, Nat.succ_le_iff]
  rw [flatten_pieces, eq_self_iff_true, true_and, and_iff_right hs]

/-- Only the first pieces are written, and the last one is not among them. -/
theorem faithful_take (hn : m.numeric = true) (ho : m.names ≤ data.length / m.bytesPerFile.toNat) :
    Faithful m data ((State.start.after m ((m.bytePieces data).take m.names)).result none) ↔
    data.length = m.names * m.bytesPerFile.toNat := by
  have hb : 0 < m.bytesPerFile.toNat := by omega
  have hl : (pieces _ _ data).length = _ := length_bytePieces hbytes data
  -- the pieces that are written are full
  have hf : ∀ text ∈ (m.bytePieces data).take m.names, text.length = m.bytesPerFile.toNat := by
    intro text ht
    apply length_of_mem_dropLast le_rfl
    rw [dropLast_eq_take]
    exact (take_subset_take_left _ (by omega)) ht
  have hnil : [] ∉ (m.bytePieces data).take m.names := by
    intro hm
    have hzero := hf [] hm
    rw [length_nil] at hzero
    omega
  have hs : ∀ text ∈ ((m.bytePieces data).take m.names).dropLast, m.Requested text :=
    fun text ht => requested_of_length hbytes (hf text (dropLast_subset _ ht))
  have hle : m.names * m.bytesPerFile.toNat ≤ data.length := (Nat.le_div_iff_mul_le hb).mp ho
  rw [faithful_after, flatten_take_pieces (by omega), and_iff_right (.inl hn), and_iff_right hs,
    and_iff_left hnil]
  constructor
  · intro htaken
    have hlen := congrArg List.length htaken
    rw [length_take] at hlen
    omega
  · exact fun heq => take_of_length_le (by omega)

/-- **By bytes**: when a run without an error is faithful. -/
theorem bytes_faithful_iff (sh : Nat → Nat) :
    ((run m creat sh data).err = none → Faithful m data (run m creat sh data)) ↔
      BytesFine m creat data := by
  have hb : 0 < m.bytesPerFile.toNat := by omega
  have hrun : run m creat sh data =
      finish (emit m (openChunk m creat) (m.fit 0 (m.bytePieces data)) .start) := by
    rw [run, if_pos hbytes]
    exact splitBytes_eq sh hbytes .start (Nat.lt_succ_self _)
  have hc : (m.fit 0 (m.bytePieces data)).length = m.byteFiles data := by
    have hl := length_bytePieces hbytes data
    unfold Mode.fit Mode.byteFiles
    split_ifs
    · rw [length_take, hl, Nat.sub_zero, Nat.min_comm]
    · exact hl
  have ho := opens_openChunk m creat
  unfold BytesFine
  by_cases hf : m.filter = []
  · rw [if_neg (not_not.mpr hf)]
    by_cases hfail : ∃ i < m.byteFiles data, creat i ≠ none
    · -- the error is returned
      obtain ⟨i, hi, hcreat⟩ := hfail
      obtain ⟨r, hr⟩ :=
        ho.emit_error (s := .start) ⟨i, hc ▸ hi, hf, by rwa [State.start, Nat.zero_add]⟩
      rw [hrun, hr]
      exact iff_of_true (fun hnone => absurd hnone (emit_err hr)) (.inl ⟨i, hi, hcreat⟩)
    · have hok := ho.emit_ok (m := m) (s := .start) fun i hi hbad =>
        hfail ⟨i, hc ▸ hi, by simpa [State.start] using hbad.2⟩
      simp only [ne_eq, hf, not_true_eq_false, if_false, foldl_fresh hf] at hok
      rw [hrun, hok, or_iff_right hfail]
      show (none = none → Faithful m data ((State.start.after m _).result none)) ↔ _
      rw [Mode.fit, Nat.sub_zero]
      have hl := length_bytePieces hbytes data
      split_ifs with hn
      · rcases Nat.lt_or_ge (data.length / m.bytesPerFile.toNat) m.names with hlt | hge
        · have hne : data.length ≠ m.names * m.bytesPerFile.toNat := by
            intro heq
            rw [heq, Nat.mul_div_cancel _ hb] at hlt
            exact Nat.lt_irrefl _ hlt
          rw [take_of_length_le (by omega), faithful_pieces hbytes]
          simp [hlt, hne]
        · rw [faithful_take hbytes hn hge]
          simp [hn, Nat.not_lt.mpr hge]
      · rw [faithful_pieces hbytes]
        simp [hn, and_comm]
  · -- with a filter nothing is written
    rw [if_pos hf]
    have hok : emit m (openChunk m creat) (m.fit 0 (m.bytePieces data)) .start = _ :=
      ho.emit_ok fun i _ hbad => hf hbad.1
    have hfiles : ∀ (t : List Bytes) (s : State), (t.foldl (fun s text =>
        (m.write text (if m.filter ≠ [] then s else s.fresh m)).next) s).files = s.files := by
      intro t
      induction t with
      | nil => exact fun _ => rfl
      | cons text t ih =>
        intro s
        rw [foldl_cons, ih, if_pos hf, write_of_filter hf]
        rfl
    rw [hrun, hok]
    exact (forall_prop_of_true rfl).trans (faithful_of_no_files (hfiles _ .start))

end

/-! ## Lines -/

theorem flatten_map_unlines (p : List (List Bytes)) :
    (p.map unlines).flatten = unlines p.flatten := by
  induction p with
  | nil => rfl
  | cons ps p ih => rw [map_cons, flatten_cons, ih, flatten_cons, unlines_append]

theorem not_faithful_of_unwritten (hf : r.files ≠ []) (hd : ∀ name, r.disk name = none) :
    ¬ Faithful m data r := by
  rintro ⟨-, t, hm, -⟩
  obtain ⟨name, names, hc⟩ := exists_cons_of_ne_nil hf
  rw [hc, map_cons, hd name] at hm
  cases t with
  | nil => cases hm
  | cons text t => cases hm

/-- With a filter the files of the lines are listed and nothing is written. -/
theorem foldl_listed (hf : m.filter ≠ []) (t : List Bytes) (s : State) :
    let s' := t.foldl (fun s text => (m.write text (if m.filter ≠ [] then
      { s with files := s.files ++ [m.name s.chunkIdx] } else s.fresh m)).next) s
    s'.files.length = s.files.length + t.length ∧ s'.disk = s.disk := by
  induction t generalizing s with
  | nil => exact ⟨rfl, rfl⟩
  | cons text t ih =>
    obtain ⟨hl, hd⟩ := ih (s := { s with files := s.files ++ [m.name s.chunkIdx] }.next)
    simp only [foldl_cons, if_pos hf, write_of_filter hf] at hl hd ⊢
    refine ⟨?_, hd⟩
    rw [hl, State.next, length_append, length_singleton, length_cons]
    omega

section

variable (hlines : 0 < m.lines) (hbytes : ¬ 0 < m.bytesPerFile)

include hlines

theorem length_linePieces (lines : List Bytes) :
    ((pieces m.lines.toNat (m.lines.toNat + 1) lines).map unlines).length =
      (lines.length - 1) / m.lines.toNat + 1 := by
  rw [length_map, length_pieces (by omega) (Nat.le_succ _)]
  congr 2
  omega

include hbytes

/-- The texts are blocks of lines. -/
theorem faithful_lines (hf : ∀ l ∈ lines, newline ∉ l) : Faithful m data ((State.start.after m
      ((pieces m.lines.toNat (m.lines.toNat + 1) lines).map unlines)).result none) ↔
    (m.numeric = true ∨ (lines.length - 1) / m.lines.toNat + 1 ≤ m.names) ∧ unlines lines = data ∧
      lines ≠ [] := by
  have hs : ∀ text ∈ ((pieces m.lines.toNat (m.lines.toNat + 1) lines).map unlines).dropLast,
      m.Requested text := by
    intro text ht
    rw [← map_dropLast, mem_map] at ht
    obtain ⟨p, hp, rfl⟩ := ht
    have hlen := length_of_mem_dropLast (Nat.le_succ _) p hp
    rw [Mode.Requested, if_neg hbytes]
    refine ⟨p, by omega, fun l hl => hf l ?_, rfl⟩
    rw [← flatten_pieces m.lines.toNat (m.lines.toNat + 1) lines]
    exact mem_flatten.mpr ⟨p, dropLast_subset _ hp, hl⟩
  have hn : [] ∉ (pieces m.lines.toNat (m.lines.toNat + 1) lines).map unlines ↔ lines ≠ [] := by
    rw [ne_eq, ← nil_mem_pieces_succ (k := m.lines.toNat) (by omega) rfl, mem_map, not_iff_not]
    constructor
    · rintro ⟨p, hp, he⟩
      cases p with
      | nil => exact hp
      | cons l p => simp [unlines_cons] at he
    · exact fun h => ⟨[], h, rfl⟩
  rw [faithful_after, length_linePieces hlines, flatten_map_unlines, flatten_pieces, hn,
    and_iff_right hs]

/-- The same for the lines that the scanner has delivered, of which there are `c` files. -/
theorem splitLines_faithful_iff (hfree : ∀ l ∈ lines, newline ∉ l)
    (hc : c = (lines.length - 1) / m.lines.toNat + 1) :
    ((splitLines m creat (lines, true)).err = none →
      Faithful m data (splitLines m creat (lines, true))) ↔
      (m.numeric = true ∧ m.names < c) ∨
      (m.filter = [] ∧ ((∃ i < c, creat i ≠ none) ∨
        (unlines lines = data ∧ lines ≠ []) ∧ (m.numeric = true ∨ c ≤ m.names))) := by
  have ho := opens_openFile m creat
  have hl := length_linePieces hlines lines
  rw [← hc] at hl
  rw [splitLines_eq hlines]
  by_cases hfail : ∃ i < c, m.overflows i = true ∨ m.filter = [] ∧ creat i ≠ none
  · -- the error is returned
    obtain ⟨i, hi, hb⟩ := hfail
    obtain ⟨r, hr⟩ :=
      ho.emit_error (s := .start) ⟨i, by rwa [hl], by rwa [State.start, Nat.zero_add]⟩
    rw [hr]
    refine iff_of_true (fun hnone => absurd hnone (emit_err hr)) ?_
    rcases hb with hoverflows | ⟨hf, hcreat⟩
    · obtain ⟨hn, hle⟩ := overflows_iff.mp hoverflows
      exact .inl ⟨hn, Nat.lt_of_le_of_lt hle hi⟩
    · exact .inr ⟨hf, .inl ⟨i, hi, hcreat⟩⟩
  · have hok := ho.emit_ok (m := m) (s := .start) fun i hi hb =>
      hfail ⟨i, by rwa [← hl], by rwa [State.start, Nat.zero_add] at hb⟩
    have hnames : ¬ (m.numeric = true ∧ m.names < c) := by
      rintro ⟨hn, hlt⟩
      exact hfail ⟨m.names, hlt, .inl (overflows_iff.mpr ⟨hn, Nat.le_refl _⟩)⟩
    rw [hok, or_iff_right hnames]
    by_cases hf : m.filter = []
    · have hcreat : ¬ ∃ i < c, creat i ≠ none := fun ⟨i, hi, hb⟩ => hfail ⟨i, hi, .inr ⟨hf, hb⟩⟩
      rw [and_iff_right hf, or_iff_right hcreat]
      simp only [ne_eq, hf, not_true_eq_false, if_false, foldl_fresh hf]
      apply (forall_prop_of_true rfl).trans
      show Faithful m data ((State.start.after m _).result none) ↔ _
      rw [faithful_lines hlines hbytes hfree, ← hc]
      exact and_comm
    · obtain ⟨hfiles, hd⟩ :=
        foldl_listed hf ((pieces m.lines.toNat (m.lines.toNat + 1) lines).map unlines) .start
      refine iff_of_false (fun hfits => ?_) fun h => hf h.1
      refine not_faithful_of_unwritten (length_pos_iff.mp ?_) (congrFun hd) (hfits rfl)
      refine Nat.lt_of_lt_of_eq ?_ hfiles.symm
      rw [hl, hc]
      exact Nat.add_pos_right _ (Nat.succ_pos _)

/-- **By lines**: when a run without an error is faithful. -/
theorem lines_faithful_iff (s : Nat → Nat) :
    ((run m creat s data).err = none → Faithful m data (run m creat s data)) ↔
      LinesFine m creat data := by
  have hr : run m creat s data = splitLines m creat ((scanLines data).1, (scanLines data).2) :=
    if_neg hbytes
  have hl := scanLines_snd data
  rw [hr]
  cases hc : (scanLines data).2 with
  | false =>
    -- a line is too long
    have ht : ∃ l ∈ data.splitOn newline, maxScanTokenSize ≤ l.length := by
      simpa [hc] using hl
    exact iff_of_true (fun hn => absurd hn (splitLines_tooLong hlines _)) (.inl ht)
  | true =>
    have hs : ¬ ∃ l ∈ data.splitOn newline, maxScanTokenSize ≤ l.length := by
      simpa [hc] using hl
    have hk : unlines (scanLines data).1 = data ∧ (scanLines data).1 ≠ [] ↔
        data.getLast? = some newline ∧ ∀ l ∈ data.splitOn newline, l.getLast? ≠ some 13 := by
      by_cases hd : data = []
      · subst hd
        refine iff_of_false (fun h => h.2 rfl) fun h => ?_
        cases h.1
      · rw [← unlines_scanLines hc hd]
        refine and_iff_left_of_imp fun hsame hnil => hd ?_
        rw [← hsame, hnil]
        rfl
    rw [splitLines_faithful_iff hlines hbytes (newline_notMem_scanLines data) rfl, LinesFine,
      or_iff_right hs, hk, and_assoc]
    rfl

end

end

/-- **What `split` keeps.** A run without an error is a split of its input exactly under the
conditions of its mode. -/
theorem run_faithful_iff (m : Mode) (creat : Nat → Option Bytes) (short : Nat → Nat)
    (data : Bytes) :
    ((run m creat short data).err = none → Faithful m data (run m creat short data)) ↔
      if 0 < m.bytesPerFile then BytesFine m creat data else LinesFine m creat data := by
  split_ifs with hbytes
  · exact bytes_faithful_iff hbytes short
  · apply lines_faithful_iff _ hbytes short
    unfold Mode.lines
    split_ifs with hd
    · decide
    · omega

/-- `split -d -a 1 -b 1`. -/
def oneDigit : Mode := ⟨str "x", 0, 1, 1, true, []⟩

/-- Eleven bytes in files of one byte, numbered with one digit: the last byte is lost, and no error
says so. -/
theorem not_faithful_digits : (run oneDigit (fun _ => none) id (str "abcdefghijk")).err = none ∧
      ¬ Faithful oneDigit (str "abcdefghijk")
          (run oneDigit (fun _ => none) id (str "abcdefghijk")) := by
  refine ⟨by decide +kernel, ?_⟩
  rintro ⟨-, texts, hm, hf, -⟩
  have ht : (run oneDigit (fun _ => none) id (str "abcdefghijk")).files.map
      (run oneDigit (fun _ => none) id (str "abcdefghijk")).disk =
      ((str "abcdefghij").map fun c => [c]).map some := by decide +kernel
  rw [ht] at hm
  obtain rfl := (map_inj_right fun _ _ => Option.some.inj).mp hm
  exact absurd hf (by decide)

end GoPosix.Split
