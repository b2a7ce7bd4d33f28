import GoPosix.Lib.Runes
import GoPosix.Lib.Text
import Mathlib.Data.Finset.Basic

/-!
# tr

`Run` of `pkg/tr/tr.go` on the whole input. A rune is its number; what is no character is written as
U+FFFD.
-/

namespace GoPosix.Tr

open Bytes Runes List

/-! ## Sets -/

def charClasses : List (Bytes × Bytes) :=
  let lower := str "abcdefghijklmnopqrstuvwxyz"
  let upper := str "ABCDEFGHIJKLMNOPQRSTUVWXYZ"
  let digit := str "0123456789"
  let graph := (range' 33 94).map UInt8.ofNat
  [(str "[:digit:]", digit), (str "[:xdigit:]", digit ++ str "ABCDEFabcdef"),
    (str "[:alpha:]", upper ++ lower),
    (str "[:alnum:]", digit ++ upper ++ lower), (str "[:lower:]", lower), (str "[:upper:]", upper),
    (str "[:space:]", [32, 9, 10, 13, 12, 11]), (str "[:blank:]", [32, 9]),
    (str "[:punct:]", graph.filter fun b => b ∉ digit ++ upper ++ lower),
      (str "[:print:]", 32 :: graph),
    (str "[:graph:]", graph), (str "[:cntrl:]", (range 32).map UInt8.ofNat ++ [127])]

/-- `strings.ReplaceAll`; `skip` bytes of the last match are still to come. -/
def replaceAll (old new : Bytes) : (skip : Nat) → Bytes → Bytes
  | _, [] => []
  | skip + 1, _ :: s => replaceAll old new skip s
  | 0, c :: s =>
    if hasPrefix (c :: s) old then new ++ replaceAll old new (old.length - 1) s
      else c :: replaceAll old new 0 s

def expandRanges : List Nat → List Nat
  | a :: 45 :: b :: rest => range' a (b + 1 - a) ++ expandRanges rest
  | a :: rest => a :: expandRanges rest
  | [] => []

/-- The classes are those of the table, in the order in which the map is gone through. -/
def expandSetList (classes : List (Bytes × Bytes)) (s : Bytes) : List Nat :=
  let expanded := classes.foldl (fun s c => replaceAll c.1 c.2 0 s) s
  expandRanges ((runes expanded).map (·.val.toNat))

/-- The ranges of `expandSet`, whose map is `set`. -/
def setRanges (set : Finset Nat) : List Nat → Finset Nat
  | a :: 45 :: b :: rest => setRanges (set ∪ (range' a (b + 1 - a)).toFinset) rest
  | a :: rest => setRanges (insert a set) rest
  | [] => set

def expandSet (classes : List (Bytes × Bytes)) (s : Bytes) : Finset Nat :=
  let expanded := classes.foldl (fun s c => replaceAll c.1 c.2 0 s) s
  setRanges ∅ ((runes expanded).map (·.val.toNat))

/-! ## The loop -/

structure Flags where
  delete : Bool := false
  squeeze : Bool := false
  complement : Bool := false

structure Mode extends Flags where
  s1List : List Nat
  s2List : List Nat

namespace Mode

variable (m : Mode)

/-- The table: a rune that stands in the first set twice has its last place. -/
def trans (rn : Nat) : Option Nat :=
  if !m.delete && !m.squeeze && m.s2List ≠ [] then
    (m.s1List.zipIdx.reverse.find? (·.1 = rn)).map fun e => m.s2List.getD e.2 (m.s2List.getLastD 0)
  else none

def inSet1 (rn : Nat) : Bool := decide (rn ∈ m.s1List) ^^ m.complement

def deleted (rn : Nat) : Bool := m.delete && m.inSet1 rn

def outRune (rn : Nat) : Nat :=
  if m.inSet1 rn && !m.delete && m.s2List ≠ [] then
    match m.trans rn with
    | some mapped => mapped
    | none => if m.complement then m.s2List.getLastD 0 else rn
  else rn

/-- A rune that is written only once in a row. -/
def squeezed (rn : Nat) : Bool :=
  m.squeeze && if m.s2List ≠ [] then decide (m.outRune rn ∈ m.s2List) else m.inSet1 rn

/-- What is written for each rune, if anything. -/
def loop : (lastWrite : Nat) → List Nat → List (Option Nat)
  | _, [] => []
  | lastWrite, rn :: rest =>
    if m.deleted rn || m.squeezed rn && m.outRune rn = lastWrite then none :: loop lastWrite rest
    else some (m.outRune rn) :: loop (m.outRune rn) rest

/-- The character that `WriteRune` writes. -/
def writeRune (r : Nat) : Char := if r.isValidChar then Char.ofNat r else runeError

/-- The text that `WriteRune` writes, if it is called. -/
def written (r : Option Nat) : Bytes := (r.map (String.utf8EncodeChar <| writeRune ·)).getD []

/-- The texts that are written for the runes of the input. -/
def outputs (input : Bytes) : List Bytes :=
  (m.loop runeError.toNat ((runes input).map (·.val.toNat))).map written

end Mode

def run (classes : List (Bytes × Bytes)) (flags : Flags) (set1 set2 input : Bytes) : Bytes :=
  (Mode.outputs ⟨flags, expandSetList classes set1, expandSetList classes set2⟩ input).flatten

/-! ## Translating and squeezing -/

namespace Mode

theorem writeRune_toNat (c : Char) : writeRune c.toNat = c := by
  rw [writeRune, if_pos (show c.toNat.isValidChar from c.valid), Char.ofNat_toNat]

theorem written_toNat (c : Char) : written (some c.toNat) = String.utf8EncodeChar c :=
  congrArg String.utf8EncodeChar (writeRune_toNat c)

/-- Without `-d` and `-s` every rune is written. -/
theorem loop_plain {m : Mode} (hd : m.delete = false) (hs : m.squeeze = false) (rs : List Nat)
    (l : Nat) :
    m.loop l rs = rs.map fun rn => some (m.outRune rn) := by
  induction rs generalizing l with
  | nil => rfl
  | cons rn rs ih => simp [loop, deleted, squeezed, hd, hs, ih]

theorem loop_congr {m m' : Mode} (h : ∀ rn ∈ rs, m.deleted rn = m'.deleted rn ∧
    m.outRune rn = m'.outRune rn ∧ m.squeezed rn = m'.squeezed rn) (l : Nat) : m.loop l rs =
      m'.loop l rs := by
  induction rs generalizing l with
  | nil => rfl
  | cons rn rs ih =>
    rw [forall_mem_cons] at h
    obtain ⟨⟨hd, ho, hs⟩, h⟩ := h
    simp only [loop, hd, ho, hs, ih h]

end Mode

open Mode

/-- What squeezing the members of `chosen` makes of some characters. -/
def squeezeText (chosen : List Nat) (cs : List Char) : Bytes :=
  ((loop ⟨{ squeeze := true }, chosen, []⟩ runeError.toNat (cs.map Char.toNat)).map written).flatten

theorem squeezeText_congr {ch c' : List Nat}
    (h : ∀ c ∈ cs, c.toNat ∈ ch ↔ c.toNat ∈ c') : squeezeText ch cs = squeezeText c' cs := by
  unfold squeezeText
  rw [loop_congr]
  simpa [deleted, outRune, squeezed, inSet1] using h

theorem squeezeText_single (ch : List Nat) (c : Char) :
    squeezeText ch [c] = if c.toNat ∈ ch ∧ c = runeError then [] else String.utf8EncodeChar c := by
  have hv : c.toNat = runeError.toNat ↔ c = runeError := Char.toNat_inj
  by_cases hs : c.toNat ∈ ch ∧ c = runeError
  · obtain ⟨hm, rfl⟩ := hs
    simp [squeezeText, loop, outRune, squeezed, inSet1, written, hm]
  · rw [← written_toNat]
    simp [squeezeText, loop, deleted, outRune, squeezed, inSet1, hv, hs]

section

variable (classes : List (Bytes × Bytes)) (set1 set2 : Bytes)

abbrev translate (c : Char) : Char :=
  writeRune (outRune ⟨{}, expandSetList classes set1, expandSetList classes set2⟩ c.toNat)

theorem run_translate (i : Bytes) : run classes {} set1 set2 i =
    ((runes i).map fun r => translate classes set1 set2 r.val).flatMap String.utf8EncodeChar := by
  simp only [run, outputs, loop_plain, map_map, flatMap_def]
  rfl

/-- With two sets `-s` translates nothing. -/
theorem run_squeeze (i : Bytes) : run classes { squeeze := true } set1 set2 i =
    squeezeText (if expandSetList classes set2 = [] then expandSetList classes set1
      else expandSetList classes set2)
      ((runes i).map Rune.val) := by
  unfold run outputs squeezeText
  rw [map_map]
  refine congrArg (fun l => (map written l).flatten) (loop_congr (fun rn _ => ?_) _)
  by_cases h : expandSetList classes set2 = []
    <;> simp [deleted, outRune, squeezed, inSet1, Mode.trans, h]

/-- The two passes together. -/
theorem run_squeeze_translate (i : Bytes) :
    run classes { squeeze := true } set2 [] (run classes {} set1 set2 i) =
      squeezeText (expandSetList classes set2)
          ((runes i).map fun r => translate classes set1 set2 r.val) := by
  have hn : expandSetList classes [] = [] := by
    have hk : classes.foldl (fun s c => replaceAll c.1 c.2 0 s) [] = [] :=
      foldl_fixed' (fun c => by rfl) classes
    simp [expandSetList, hk, runes, expandRanges]
  rw [run_squeeze, run_translate, runes_encode, if_pos hn, map_map, map_map]
  rfl

variable {classes set1 set2}

theorem translate_of_notMem
    (h : c.toNat ∉ expandSetList classes set1 ∨ expandSetList classes set2 = []) :
    translate classes set1 set2 c = c := by
  have ho : outRune ⟨{}, expandSetList classes set1, expandSetList classes set2⟩ c.toNat =
      c.toNat := by
    rcases h with h | h <;> simp [outRune, inSet1, h]
  rw [translate, ho, writeRune_toNat]

/-- **When `-s` does what it is to do with two sets**: only if the translation changes nothing. -/
theorem squeeze_translate_iff :
    (∀ input, run classes { squeeze := true } set1 set2 input =
        run classes { squeeze := true } set2 [] (run classes {} set1 set2 input)) ↔
      ∀ c : Char, c.toNat ∈ expandSetList classes set1 →
        expandSetList classes set2 ≠ [] ∧ translate classes set1 set2 c = c := by
  simp only [run_squeeze_translate, run_squeeze classes set1 set2]
  constructor
  · intro h c hc
    have hs2 : expandSetList classes set2 ≠ [] := by
      intro hs2
      have ht := h ([c, c].flatMap String.utf8EncodeChar)
      simp only [runes_encode, hs2, map_cons, Rune.val, translate_of_notMem (.inr hs2)] at ht
      by_cases he : c.toNat = runeError.toNat
      · rw [he] at hc
        simp [squeezeText, loop, deleted, outRune, squeezed, inSet1, written, he, hc] at ht
      · simp [squeezeText, loop, deleted, outRune, squeezed, inSet1, written, he, hc] at ht
    have ho := h ([c].flatMap String.utf8EncodeChar)
    rw [runes_encode] at ho
    simp only [map_cons, map_nil, Rune.val, squeezeText_single] at ho
    have hne : ∀ d : Char, String.utf8EncodeChar d ≠ [] := by simp
    grind [encode_inj]
  · intro h input
    have hs : ∀ c : Char, translate classes set1 set2 c = c := by
      intro c
      by_cases hc : c.toNat ∈ expandSetList classes set1
      · exact (h c hc).2
      · exact translate_of_notMem (.inl hc)
    simp only [hs]
    split_ifs with hs2
    · refine squeezeText_congr fun c _ => ?_
      simpa [hs2] using fun hc => (h c hc).1 hs2
    · rfl

end

/-- `tr -s a b` leaves an `a` alone. -/
theorem squeeze_untranslated : run charClasses { squeeze := true } (str "a") (str "b") (str "a") ≠
    run charClasses { squeeze := true } (str "b") []
        (run charClasses {} (str "a") (str "b") (str "a")) := by
  have ha : runes (str "a") = [.char 'a'] := runes_encode ['a']
  have hb : runes (str "b") = [.char 'b'] := runes_encode ['b']
  have hs : expandSetList charClasses (str "a") = [97] ∧ expandSetList charClasses (str "b") =
      [98] := by
    constructor
    · rw [expandSetList, show charClasses.foldl (fun s c => replaceAll c.1 c.2 0 s) (str "a") =
        str "a" by decide, ha]
      rfl
    · rw [expandSetList, show charClasses.foldl (fun s c => replaceAll c.1 c.2 0 s) (str "b") =
        str "b" by decide, hb]
      rfl
  rw [run_squeeze_translate, run_squeeze, ha]
  simp only [translate, hs]
  decide

/-! ## What is copied -/

namespace Mode

variable (m : Mode)

/-- A rune for which the sets have another one. -/
def translated (rn : Nat) : Bool :=
  m.inSet1 rn && !m.delete && m.s2List ≠ [] && ((m.trans rn).isSome || m.complement)

/-- What a rune of the input becomes: the one that the sets have for it, or itself. Bytes that
belong to no character differ from each other and from every character. -/
def symbol (r : Rune) : Nat ⊕ UInt8 :=
  if m.translated r.val.toNat then .inl (m.outRune r.val.toNat)
  else
    match r with
    | .char c => .inl c.toNat
    | .byte b => .inr b

/-- What is to be written for each rune: it is copied unless it is deleted or translated, and of a
row of squeezed ones the first is kept. -/
def ideal : (last : Option (Nat ⊕ UInt8)) → List Rune → List Bytes
  | _, [] => []
  | last, r :: rest =>
    let rn := r.val.toNat
    if m.deleted rn || m.squeezed rn && some (m.symbol r) = last then [] :: ideal last rest
    else
      (if m.translated rn then written (some (m.outRune rn)) else r.bytes)
        :: ideal (some (m.symbol r)) rest

variable {m}

theorem outRune_of_not_translated (h : m.translated rn = false) : m.outRune rn = rn := by
  unfold outRune
  unfold translated at h
  split
  · next hset =>
    simp only [Bool.and_eq_true, decide_eq_true_eq] at hset
    cases ht : m.trans rn <;> simp_all
  · rfl

/-- The bytes that belong to no character are not to be copied. -/
def Plain (m : Mode) (rs : List Rune) : Prop :=
  ∀ b, .byte b ∈ rs → m.deleted runeError.toNat ∨ m.translated runeError.toNat

theorem plain_cons (r : Rune) (rs : List Rune) : m.Plain (r :: rs) ↔ m.Plain [r] ∧ m.Plain rs := by
  grind [Plain]

/-- A rune that is to be written as it is, or as the sets have it, is written so. -/
theorem symbol_of_plain (h : m.Plain [r]) (hd : m.deleted r.val.toNat = false) :
    m.symbol r = .inl (m.outRune r.val.toNat) ∧
      (if m.translated r.val.toNat then written (some (m.outRune r.val.toNat)) else r.bytes)
        = written (some (m.outRune r.val.toNat)) := by
  unfold symbol
  cases ht : m.translated r.val.toNat with
  | true => simp
  | false =>
    rw [outRune_of_not_translated ht]
    cases r with
    | char c => exact ⟨rfl, (written_toNat c).symm⟩
    | byte b =>
      have hd' : m.deleted runeError.toNat = false := hd
      have ht' : m.translated runeError.toNat = false := ht
      exact absurd (h b (mem_singleton_self _)) (by simp [hd', ht'])

/-- A byte that is to be copied never is. -/
theorem not_copied (h : ¬ m.Plain [r]) (last : Nat) (l : Option Nat) (rs : List Rune) :
    (m.loop last ((r :: rs).map (·.val.toNat))).map written ≠ m.ideal (l.map Sum.inl)
      (r :: rs) := by
  cases r with
  | char c => exact absurd (by simp [Plain]) h
  | byte b =>
    have hd : m.deleted runeError.toNat = false ∧ m.translated runeError.toNat = false := by
      simpa [Plain] using h
    have hs : m.symbol (.byte b) = .inr b := by simp [symbol, Rune.val, hd.2]
    have hne : some (Sum.inr b) ≠ l.map Sum.inl := by cases l <;> simp
    intro heq
    have hhead := congrArg (fun t => (t.headD []).length) heq
    rw [map_cons, loop] at hhead
    simp only [ideal, Rune.val, hd, hs, hne, Bool.false_or, decide_false, Bool.and_false,
      Bool.false_eq_true, if_false, headD_cons, Rune.bytes, length_singleton] at hhead
    split at hhead
    · simp [written] at hhead
    · rw [outRune_of_not_translated hd.2, map_cons, headD_cons] at hhead
      exact absurd hhead (by decide)

/-- Once a character has been written, only bytes that belong to none can go wrong. -/
theorem loop_eq_ideal_iff (rs : List Rune) (l : Nat) :
    (m.loop l (rs.map (·.val.toNat))).map written = m.ideal (some (.inl l)) rs ↔ m.Plain rs := by
  induction rs generalizing l with
  | nil => simp [loop, ideal, Plain]
  | cons r rs ih =>
    rw [plain_cons]
    by_cases hp : m.Plain [r]
    · cases hd : m.deleted r.val.toNat with
      | true => simp [loop, ideal, hd, written, ih, hp]
      | false =>
        obtain ⟨hs, hb⟩ := symbol_of_plain hp hd
        rw [map_cons, loop, ideal]
        simp only [hs, hb, hd, Option.some.injEq, Sum.inl.injEq]
        split
        · simp [written, ih, hp]
        · simp [ih, hp]
    · exact iff_of_false (not_copied hp l (some l) rs) fun h => hp h.1

/-- **What `tr` copies and squeezes**: all as it should be, unless a byte that belongs to no
character is to be copied or the first rune that is not deleted is a squeezed U+FFFD. -/
theorem outputs_eq_ideal_iff (input : Bytes) : m.outputs input = m.ideal none (runes input) ↔
    m.Plain (runes input) ∧ ∀ r, (runes input).find? (!m.deleted ·.val.toNat) = some r →
      ¬(m.squeezed r.val.toNat ∧ m.outRune r.val.toNat = runeError.toNat) := by
  unfold outputs
  induction runes input with
  | nil => simp [loop, ideal, Plain]
  | cons r rs ih =>
    rw [plain_cons]
    by_cases hp : m.Plain [r]
    · cases hd : m.deleted r.val.toNat with
      | true => simp [loop, ideal, hd, written, ih, hp]
      | false =>
        obtain ⟨hs, hb⟩ := symbol_of_plain hp hd
        rw [map_cons, loop, ideal]
        simp only [hs, hb, hd]
        by_cases hf : m.squeezed r.val.toNat ∧ m.outRune r.val.toNat = runeError.toNat
        · simp [hd, hf, written]
        · simpa [hd, hf, hp, loop_eq_ideal_iff] using fun _ => not_and.mp hf
    · exact iff_of_false (not_copied hp _ none rs) fun h => hp h.1.1

/-- The byte `FF` is replaced by a character of three bytes. -/
theorem outputs_invalid_byte :
    outputs ⟨{}, [97], [98]⟩ [0xFF] ≠ ideal ⟨{}, [97], [98]⟩ none (runes [0xFF]) := by
  have hr : runes [0xFF] = [.byte 0xFF] := by simp [runes, show decodeChar [0xFF] = none by decide]
  rw [outputs, hr]
  decide

end Mode

/-! ## The order of the classes -/

/-- What begins inside `u` does not meet `v`. -/
abbrev Apart (u v : Bytes) : Prop := ∀ t ∈ u.tails, t ≠ [] → ¬ t <+: v ∧ ¬ v <+: t

theorem Apart.tail (h : Apart (x :: u) v) : Apart u v := fun t ht => h t (by simp_all)

theorem Apart.not_meets (h : Apart (x :: u) v) (hp : x :: u <+: s) : ¬ v <+: s := by
  obtain ⟨h1, h2⟩ := h (x :: u) (by simp) nofun
  intro hv
  have hor := prefix_or_prefix_of_prefix hp hv
  exact hor.elim h1 h2

/-- The replacements of the first class do not touch those of the second. -/
abbrev Separate (c d : Bytes × Bytes) : Prop :=
  c.1 ≠ [] ∧ Apart c.1 d.1 ∧ Apart c.1 d.2 ∧ Apart c.2 d.1

theorem charClasses_separate :
    ∀ c ∈ charClasses, ∀ d ∈ charClasses, c = d ∨ Separate c d := by decide +kernel

theorem replaceAll_skip (s : Bytes) : replaceAll n t s.length (s ++ r) = replaceAll n t 0 r := by
  induction s with
  | nil => rfl
  | cons _ _ ih => exact ih

theorem replaceAll_match (hn : n ≠ []) : replaceAll n t 0 (n ++ r) = t ++ replaceAll n t 0 r := by
  obtain ⟨c, n, rfl⟩ := exists_cons_of_ne_nil hn
  rw [cons_append, replaceAll, if_pos (by simp [hasPrefix])]
  exact congrArg _ (replaceAll_skip n)

theorem replaceAll_cons (h : ¬ n <+: c :: s) :
    replaceAll n t 0 (c :: s) = c :: replaceAll n t 0 s := by
  rw [replaceAll, if_neg (by simpa [hasPrefix] using h)]

theorem replaceAll_append (h : Apart u n) :
    replaceAll n t 0 (u ++ r) = u ++ replaceAll n t 0 r := by
  induction u with
  | nil => rfl
  | cons x u ih =>
    exact (replaceAll_cons (h.not_meets (prefix_append ..))).trans (congrArg _ (ih h.tail))

/-- No name comes about by a replacement. -/
theorem prefix_of_replaceAll (h : Apart w t) (hp : w <+: replaceAll n t 0 s) : w <+: s := by
  induction w generalizing s with
  | nil => exact nil_prefix
  | cons x w ih =>
    cases s with
    | nil => exact hp
    | cons c s =>
      rw [replaceAll] at hp
      split at hp
      · exact (h.not_meets hp (prefix_append ..)).elim
      · rw [cons_prefix_cons] at hp ⊢
        exact ⟨hp.1, ih h.tail hp.2⟩

/-- Replacements that do not touch each other may be made in any order. -/
theorem replaceAll_comm (h : Separate (n, t) (n', t')) (h' : Separate (n', t') (n, t)) (s : Bytes) :
    replaceAll n t 0 (replaceAll n' t' 0 s) = replaceAll n' t' 0 (replaceAll n t 0 s) := by
  obtain ⟨hne, hnn, hnt, htn⟩ := h
  obtain ⟨hne', hnn', hnt', htn'⟩ := h'
  induction hk : s.length using Nat.strong_induction_on generalizing s with
  | _ k ih =>
    subst hk
    by_cases hm : n <+: s
    · obtain ⟨r, rfl⟩ := hm
      have hr := ih _ (by have := length_pos_of_ne_nil hne; simp; omega) r rfl
      rw [replaceAll_match hne, replaceAll_append hnn, replaceAll_match hne, replaceAll_append htn,
        hr]
    by_cases hm' : n' <+: s
    · obtain ⟨r, rfl⟩ := hm'
      have hr := ih _ (by have := length_pos_of_ne_nil hne'; simp; omega) r rfl
      rw [replaceAll_match hne', replaceAll_append hnn', replaceAll_match hne',
        replaceAll_append htn', hr]
    cases s with
    | nil => rfl
    | cons c s =>
      have hc := mt (prefix_of_replaceAll (n := n') hnt) hm
      have hc' := mt (prefix_of_replaceAll (n := n) hnt') hm'
      rw [replaceAll_cons hm'] at hc ⊢
      rw [replaceAll_cons hm] at hc' ⊢
      rw [replaceAll_cons hc, replaceAll_cons hc', ih _ (by simp) s rfl]

theorem mem_setRanges (set : Finset Nat) (l : List Nat) :
    r ∈ setRanges set l ↔ r ∈ set ∨ r ∈ expandRanges l := by
  fun_induction expandRanges l generalizing set <;> simp_all [setRanges, or_assoc, or_left_comm]

theorem expanded_eq (o : {l // l ~ charClasses}) (s : Bytes) :
    o.1.foldl (fun s c => replaceAll c.1 c.2 0 s) s =
    charClasses.foldl (fun s c => replaceAll c.1 c.2 0 s) s := by
  refine o.2.foldl_eq' (fun c hc d hd s => ?_) s
  rw [o.2.mem_iff] at hc hd
  obtain rfl | h := charClasses_separate c hc d hd
  · rfl
  obtain rfl | h' := charClasses_separate d hd c hc
  · rfl
  exact replaceAll_comm h' h s

/-- **Neither the list nor the set depends on the order of the classes**, and they have the same
runes. -/
theorem expandSet_order (o o' : {classes // classes ~ charClasses}) (s : Bytes) :
    expandSetList o.1 s = expandSetList o'.1 s ∧ expandSet o.1 s = expandSet o'.1 s ∧
      ∀ r, r ∈ expandSetList o.1 s ↔ r ∈ expandSet o'.1 s := by
  simp only [expandSetList, expandSet, expanded_eq]
  simp [mem_setRanges]

/-! ## Running it twice -/

/-- The runes that a loop leaves, it leaves again. -/
theorem Mode.loop_again {m : Mode} (ho : ∀ rn, m.outRune rn = rn) (cs : List Char) (l : Nat) :
    ∃ ks : List Char, ((m.loop l (cs.map Char.toNat)).map written).flatten =
      ks.flatMap String.utf8EncodeChar ∧
      m.loop l (ks.map Char.toNat) = ks.map fun c => some c.toNat := by
  induction cs generalizing l with
  | nil => exact ⟨[], rfl, rfl⟩
  | cons c cs ih =>
    rw [map_cons, loop, ho]
    split_ifs with hc
    · exact ih l
    · obtain ⟨ks, hk, hl⟩ := ih c.toNat
      exact ⟨c :: ks, by simp [hk, written_toNat], by simp [loop, ho, hc, hl]⟩

theorem Mode.outputs_again {m : Mode} (ho : ∀ rn, m.outRune rn = rn) (i : Bytes) :
    (m.outputs (m.outputs i).flatten).flatten = (m.outputs i).flatten := by
  obtain ⟨ks, hk, hl⟩ := loop_again ho ((runes i).map (·.val)) runeError.toNat
  rw [map_map] at hk
  rw [show (m.outputs i).flatten = _ from hk, outputs, runes_encode, map_map]
  refine (congrArg (fun l => (map written l).flatten) hl).trans ?_
  simp [flatMap_def, Function.comp_def, written_toNat]

/-- **What only deletes or squeezes** changes nothing in its own output. -/
theorem run_idempotent (flags : Flags) (set1 set2 input : Bytes) (o o' : {l // l ~ charClasses}) :
    run o.1 flags set1 [] (run o'.1 flags set1 [] input) = run o'.1 flags set1 [] input ∧
    run o.1 { flags with delete := true } set1 set2
      (run o'.1 { flags with delete := true } set1 set2 input) =
      run o'.1 { flags with delete := true } set1 set2 input := by
  have hk : charClasses.foldl (fun s c => replaceAll c.1 c.2 0 s) [] = [] := by decide
  simp only [run, expandSetList, expanded_eq, hk]
  exact ⟨outputs_again (by simp [outRune, runes, expandRanges]) input,
    outputs_again (by simp [outRune]) input⟩

end GoPosix.Tr
