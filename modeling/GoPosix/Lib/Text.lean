import Mathlib.Data.List.TakeWhile
import GoPosix.Lib.Bytes

/-!
# Text: prefixes, fields and scanned lines

More of package `strings`, and `bufio.Scanner` with `bufio.ScanLines`.
-/

namespace Bytes

open List

def hasPrefix (s p : Bytes) : Bool := p.isPrefixOf s

def hasSuffix (s p : Bytes) : Bool := p.isSuffixOf s

def trimPrefix (s p : Bytes) : Bytes := if hasPrefix s p then s.drop p.length else s

/-- The string without the white space at its head. -/
def trimLeft (s : Bytes) : Bytes :=
  go s.length s
where
  go : Nat → Bytes → Bytes
  | 0, s => s
  | fuel + 1, s => match dropSpace s with
    | some rest => go fuel rest
    | none => s

/-- The string without the white space at its end. No character of white space is the end of another
one, so it begins where there is only white space from then on. -/
def trimRight : Bytes → Bytes
  | [] => []
  | c :: s => if isBlank (c :: s) then [] else c :: trimRight s

def trimSpace (s : Bytes) : Bytes := trimRight (trimLeft s)

/-- `strings.IndexByte(s, c)`, if it is not negative. -/
def indexByte (s : Bytes) (c : UInt8) : Option Nat := s.findIdx? (· = c)

/-- `strings.Index(s, sub)`, if it is not negative. -/
def indexOf (s sub : Bytes) : Option Nat :=
  match s with
  | [] => if sub = [] then some 0 else none
  | c :: s' => if hasPrefix (c :: s') sub then some 0 else (indexOf s' sub).map (· + 1)

/-- `strings.Split(s, sep)`, for a separator that is not empty. Every piece but the last is followed
by the separator, so `s.length` turns suffice. -/
def split (s sep : Bytes) : List Bytes :=
  go s.length s
where
  go : Nat → Bytes → List Bytes
  | 0, s => [s]
  | fuel + 1, s =>
    match indexOf s sep with
    | some i => s.take i :: go fuel (s.drop (i + sep.length))
    | none => [s]

/-- `strings.Fields(s)`: the maximal pieces without white space. A byte of a character that is no
white space cannot start one that is, so the characters need not be decoded. -/
def fields (s : Bytes) : List Bytes :=
  go s.length [] s
where
  go : Nat → (field : Bytes) → Bytes → List Bytes
  | 0, field, _ | _ + 1, field, [] => if field = [] then [] else [field]
  | fuel + 1, field, c :: s =>
    match dropSpace (c :: s) with
    | some rest => if field = [] then go fuel [] rest else field :: go fuel [] rest
    | none => go fuel (field ++ [c]) s

/-- The fields, each with the number of bytes of the white space character behind it. At the end of
the text that number is 1. -/
def delimited (s : Bytes) : List (Bytes × Nat) :=
  go s.length [] s
where
  go : Nat → (field : Bytes) → Bytes → List (Bytes × Nat)
  | 0, field, _ | _ + 1, field, [] => if field = [] then [] else [(field, 1)]
  | fuel + 1, field, c :: s =>
    match dropSpace (c :: s) with
    | some rest =>
      if field = [] then go fuel [] rest
      else (field, (c :: s).length - rest.length) :: go fuel [] rest
    | none => go fuel (field ++ [c]) s

/-- The longest line a `bufio.Scanner` takes is one byte shorter than its buffer. -/
def maxScanTokenSize : Nat := 65536

def dropCR (line : Bytes) : Bytes := if line.getLast? = some 13 then line.dropLast else line

/-- The tokens of a `bufio.Scanner` until a line is too long, and whether it reached the end. -/
def scanTokens : List Bytes → List Bytes × Bool
  | [] => ([], true)
  | line :: rest =>
    if line.length < maxScanTokenSize then
      (dropCR line :: (scanTokens rest).1, (scanTokens rest).2)
    else ([], false)

def scanLines (data : Bytes) : List Bytes × Bool :=
  let lines := data.splitOn newline
  scanTokens (if lines.getLast? = some [] then lines.dropLast else lines)

/-- The tokens of a `bufio.Scanner` with `bufio.ScanWords` until a word is too long: the buffer has
to hold the word and the whole white space character behind it. At the end of the text there has to
be room for the read that finds the end. -/
def scanWords (data : Bytes) : List Bytes :=
  ((delimited data).takeWhile fun p => p.1.length + p.2 ≤ maxScanTokenSize).map Prod.fst

/-- The tokens of a `bufio.Scanner` whose buffer has another size. -/
def scanTokensUpTo (size : Nat) : List Bytes → List Bytes × Bool
  | [] => ([], true)
  | line :: rest =>
    if line.length < size then
      (dropCR line :: (scanTokensUpTo size rest).1, (scanTokensUpTo size rest).2)
    else ([], false)

def scanLinesUpTo (size : Nat) (data : Bytes) : List Bytes × Bool :=
  let lines := data.splitOn newline
  scanTokensUpTo size (if lines.getLast? = some [] then lines.dropLast else lines)

/-! ## Prefixes -/

theorem hasPrefix_append (p s : Bytes) : hasPrefix (p ++ s) p = true :=
  isPrefixOf_iff_prefix.mpr (prefix_append p s)

theorem indexOf_append_byte (hs : c ∉ s) (t : Bytes) :
    indexOf (s ++ c :: t) [c] = some s.length := by
  induction s with
  | nil => simp [indexOf, hasPrefix]
  | cons d s ih =>
    have hd : c ≠ d := fun h => hs (h ▸ mem_cons_self)
    rw [cons_append, indexOf, ih fun h => hs (mem_cons_of_mem _ h)]
    simp [hasPrefix, hd]

/-! ## Words -/

/-- A byte that is printed and is no blank. -/
def isGraphic (c : UInt8) : Bool := 33 ≤ c && c ≤ 126

theorem dropSpace_graphic (hc : isGraphic c = true) (s : Bytes) : dropSpace (c :: s) = none := by
  have hne : ∀ {b : UInt8}, isGraphic b = false → c ≠ b := by
    rintro b hb rfl
    rw [hc] at hb
    cases hb
  have hs : ((9 ≤ c && c ≤ 13) || decide (c = 32)) = false := by
    simp only [isGraphic, Bool.and_eq_true, decide_eq_true_eq] at hc
    simp only [Bool.or_eq_false_iff, Bool.and_eq_false_iff, decide_eq_false_iff_not]
    refine ⟨.inr fun h => ?_, hne rfl⟩
    exact absurd (UInt8.le_trans hc.1 h) (by decide)
  unfold dropSpace
  split
  iterate 5 next h => exact absurd (List.cons.inj h).1 (hne rfl)
  · next h =>
    rw [← (List.cons.inj h).1, hs]
    rfl
  · next h => cases h

theorem isBlank_graphic (hc : isGraphic c = true) (s : Bytes) : isBlank (c :: s) = false := by
  simp [isBlank, isBlank.go, dropSpace_graphic hc]

theorem trimLeft_graphic (hc : isGraphic c = true) (s : Bytes) : trimLeft (c :: s) = c :: s := by
  rw [trimLeft, length_cons, trimLeft.go, dropSpace_graphic hc]

theorem trimRight_word (hw : ∀ c ∈ w, isGraphic c = true) (s : Bytes) :
    trimRight (w ++ s) = w ++ trimRight s := by
  induction w with
  | nil => rfl
  | cons c w ih =>
    have hb := isBlank_graphic (hw c mem_cons_self) (w ++ s)
    rw [cons_append, trimRight, hb, ih fun c' h => hw c' (mem_cons_of_mem _ h)]
    rfl

theorem trimRight_blank (hc : isGraphic c = true) (s : Bytes) :
    trimRight (32 :: c :: s) = 32 :: trimRight (c :: s) := by
  have hb : isBlank (32 :: c :: s) = isBlank (c :: s) := rfl
  rw [trimRight, hb, isBlank_graphic hc]
  rfl

theorem trimSpace_word (hw : ∀ c ∈ w, isGraphic c = true) : trimSpace w = w := by
  cases w with
  | nil => rfl
  | cons c w =>
    rw [trimSpace, trimLeft_graphic (hw c mem_cons_self)]
    have hr := trimRight_word hw []
    rw [append_nil] at hr
    rw [hr]
    exact append_nil _

theorem fields_go_word (hw : ∀ c ∈ w, isGraphic c = true) : ∀ (f : Nat)
    (fi s : Bytes), fields.go (w.length + f) fi (w ++ s) = fields.go f (fi ++ w) s := by
  induction w with
  | nil => simp
  | cons c w ih =>
    intro f fi s
    have hc := dropSpace_graphic (hw c mem_cons_self) (w ++ s)
    rw [length_cons, Nat.add_right_comm, cons_append, fields.go, hc]
    rw [ih (fun c' h => hw c' (mem_cons_of_mem _ h)), append_assoc]
    rfl

theorem fields_word (hu : u ≠ []) (hu' : ∀ c ∈ u, isGraphic c = true) (s : Bytes) :
    fields (u ++ 32 :: s) = u :: fields s := by
  have hl : (u ++ 32 :: s).length = u.length + (s.length + 1) := by simp
  rw [fields, hl, fields_go_word hu', nil_append, fields.go]
  simp only [if_neg hu]
  rfl

theorem fields_one (hv : v ≠ []) (hv' : ∀ c ∈ v, isGraphic c = true) : fields v = [v] := by
  have he := fields_go_word hv' 0 [] []
  rw [append_nil, Nat.add_zero] at he
  rw [fields, he]
  simp [fields.go, hv]

/-! ## The words of a scanner -/

theorem map_fst_delimited_go (fuel : Nat) (field s : Bytes) :
    (delimited.go fuel field s).map Prod.fst = fields.go fuel field s := by
  induction fuel generalizing field s with
  | zero =>
    unfold delimited.go fields.go
    split <;> rfl
  | succ fuel ih =>
    cases s with
    | nil =>
      unfold delimited.go fields.go
      split <;> rfl
    | cons c s =>
      unfold delimited.go fields.go
      cases dropSpace (c :: s) with
      | none => exact ih _ _
      | some rest =>
        dsimp only
        split
        · exact ih _ _
        · rw [map_cons, ih]

/-- Where every word fits with what stands behind it, the scanner reads the fields. -/
theorem scanWords_eq_fields (h : ∀ p ∈ delimited s, p.1.length + p.2 ≤ maxScanTokenSize) :
    scanWords s = fields s := by
  have hall := takeWhile_eq_self_iff.mpr fun p hp => decide_eq_true (h p hp)
  rw [scanWords, hall]
  exact map_fst_delimited_go _ _ _

/-! ## Lines -/

def unlines (ls : List Bytes) : Bytes := (ls.map (· ++ [newline])).flatten

theorem unlines_cons (l : Bytes) (ls : List Bytes) :
    unlines (l :: ls) = l ++ newline :: unlines ls := by
  simp [unlines]

theorem unlines_append (ls ls' : List Bytes) : unlines (ls ++ ls') = unlines ls ++ unlines ls' := by
  simp [unlines]

theorem getLast?_unlines (h : ls ≠ []) : (unlines ls).getLast? = some newline := by
  rw [← dropLast_append_getLast h]
  simp [unlines]

theorem splitOn_unlines (h : ∀ l ∈ ls, newline ∉ l) :
    (unlines ls).splitOn newline = ls ++ [[]] := by
  induction ls with
  | nil => rfl
  | cons l ls ih =>
    rw [unlines_cons, splitOn_append_cons_self, ih fun l' hl' => h l' (mem_cons_of_mem _ hl'),
      splitOn_eq_singleton (h l mem_cons_self)]
    rfl

/-! ## The lines of a scanner -/

theorem dropCR_eq_self : dropCR l = l ↔ l.getLast? ≠ some 13 := by
  unfold dropCR
  split
  · next h =>
    refine iff_of_false (fun hs => ?_) (not_not.mpr h)
    have hne : l ≠ [] := by
      rintro rfl
      cases h
    have hl := congrArg List.length hs
    rw [length_dropLast] at hl
    have hp := length_pos_iff.mpr hne
    omega
  · next h => exact iff_of_true rfl h

section

variable {data : Bytes}

theorem scanTokensUpTo_snd : (scanTokensUpTo size ls).2 = true ↔ ∀ l ∈ ls, l.length < size := by
  induction ls with
  | nil => simp [scanTokensUpTo]
  | cons l ls ih =>
    rw [scanTokensUpTo, forall_mem_cons]
    split
    · next h => simp only [ih, h, true_and]
    · next h => simp [h]

theorem scanTokensUpTo_fst (h : (scanTokensUpTo size ls).2 = true) :
    (scanTokensUpTo size ls).1 = ls.map dropCR := by
  induction ls with
  | nil => rfl
  | cons l ls ih =>
    rw [scanTokensUpTo] at h ⊢
    split
    · next hl =>
      rw [if_pos hl] at h
      rw [map_cons, ih h]
    · next hl =>
      rw [if_neg hl] at h
      cases h

theorem newline_notMem_scanTokensUpTo (h : ∀ l ∈ ls, newline ∉ l) :
    ∀ l ∈ (scanTokensUpTo size ls).1, newline ∉ l := by
  induction ls with
  | nil => simp [scanTokensUpTo]
  | cons l ls ih =>
    rw [forall_mem_cons] at h
    rw [scanTokensUpTo]
    split
    · rw [forall_mem_cons]
      refine ⟨?_, ih h.2⟩
      unfold dropCR
      split
      · exact fun hm => h.1 (dropLast_subset _ hm)
      · exact h.1
    · simp

theorem mem_scanned (hl : l ∈ (if (data.splitOn newline).getLast? = some [] then
    (data.splitOn newline).dropLast else data.splitOn newline)) : l ∈ data.splitOn newline := by
  split at hl
  · exact dropLast_subset _ hl
  · exact hl

theorem scanLinesUpTo_snd (hsize : 0 < size) :
    (scanLinesUpTo size data).2 = true ↔ ∀ l ∈ data.splitOn newline, l.length < size := by
  simp only [scanLinesUpTo, scanTokensUpTo_snd]
  refine ⟨fun h l hl => ?_, fun h l hl => h l (mem_scanned hl)⟩
  by_cases hn : l = []
  · rw [hn]
    exact hsize
  split at h
  · next hlast =>
    obtain ⟨init, hs⟩ := List.getLast?_eq_some_iff.mp hlast
    rw [hs, dropLast_concat] at h
    rw [hs, mem_append, mem_singleton] at hl
    exact h l (hl.resolve_right hn)
  · exact h l hl

theorem newline_notMem_scanLinesUpTo (size : Nat) (data : Bytes) :
    ∀ l ∈ (scanLinesUpTo size data).1, newline ∉ l :=
  newline_notMem_scanTokensUpTo fun _ hl => (mem_splitOn (mem_scanned hl)).1

/-- **When scanning loses nothing**: the text ends in a newline, and no line in a carriage
return. -/
theorem unlines_scanLinesUpTo (h : (scanLinesUpTo size data).2 = true) (hd : data ≠ []) :
    unlines (scanLinesUpTo size data).1 = data ↔
      data.getLast? = some newline ∧ ∀ l ∈ data.splitOn newline, l.getLast? ≠ some 13 := by
  have hfs := scanTokensUpTo_fst h
  change (scanLinesUpTo size data).1 = _ at hfs
  have hf := newline_notMem_scanLinesUpTo size data
  rw [hfs] at hf ⊢
  by_cases hl : data.getLast? = some newline
  · obtain ⟨s, rfl⟩ := List.getLast?_eq_some_iff.mp hl
    have hp := splitOn_newline_snoc s
    simp only [hp, List.getLast?_concat, if_true, dropLast_concat] at hf ⊢
    rw [← splitOn_newline_inj, splitOn_unlines hf, hp, append_cancel_right_eq]
    have hm : (s.splitOn newline).map dropCR = s.splitOn newline ↔ ∀ l ∈ s.splitOn newline,
        dropCR l = l := by
      simpa using map_inj_left (g := id)
    rw [hm, forall_mem_append]
    simp [dropCR_eq_self]
  · -- the last line gets a newline
    refine iff_of_false (fun hs => ?_) (fun hcr => hl hcr.1)
    have hne := getLast?_splitOn_newline hd hl
    simp only [if_neg hne] at hs
    apply hl
    rw [← hs]
    exact getLast?_unlines (by simp)

theorem length_unlines_cons (l : Bytes) (ls : List Bytes) :
    (unlines (l :: ls)).length = l.length + 1 + (unlines ls).length := by
  rw [unlines_cons, length_append, length_cons]
  omega

theorem length_dropCR_le (l : Bytes) : (dropCR l).length ≤ l.length := by
  unfold dropCR
  split
  · rw [length_dropLast]
    omega
  · exact Nat.le_refl _

theorem length_unlines_scanTokensUpTo (h : (scanTokensUpTo size ls).2 = false) :
    (unlines (scanTokensUpTo size ls).1).length + size < (unlines ls).length := by
  induction ls with
  | nil => cases h
  | cons l ls ih =>
    rw [scanTokensUpTo] at h ⊢
    rw [length_unlines_cons l ls]
    by_cases hl : l.length < size
    · rw [if_pos hl] at h ⊢
      have hr := ih h
      have hd := length_dropCR_le l
      rw [length_unlines_cons]
      omega
    · rw [if_neg hl]
      show 0 + size < _
      omega

theorem length_unlines_splitOn (data : Bytes) :
    (unlines (data.splitOn newline)).length = data.length + 1 := by
  have hs : unlines (data.splitOn newline) = data ++ [newline] := by
    rw [← splitOn_newline_inj, splitOn_newline_snoc, splitOn_unlines fun l hl => (mem_splitOn hl).1]
  rw [hs, length_append]
  rfl

theorem length_unlines_scanLinesUpTo (hsize : 0 < size) (h : (scanLinesUpTo size data).2 = false) :
    (unlines (scanLinesUpTo size data).1).length < data.length := by
  have hlong := length_unlines_scanTokensUpTo h
  have hall := length_unlines_splitOn data
  rw [scanLinesUpTo]
  -- dropping the empty last line only makes the lines fewer
  have hf : (unlines
    (if (data.splitOn newline).getLast? = some [] then (data.splitOn newline).dropLast
      else data.splitOn newline)).length ≤ (unlines (data.splitOn newline)).length := by
    split
    · next hl =>
      obtain ⟨init, hs⟩ := List.getLast?_eq_some_iff.mp hl
      rw [hs, dropLast_concat, unlines_append, length_append]
      omega
    · exact Nat.le_refl _
  omega

/-- **When scanning loses nothing**, lines that are too long included. -/
theorem unlines_scanLinesUpTo_iff (hs : 0 < size) :
    unlines (scanLinesUpTo size data).1 = data ↔ data = [] ∨ data.getLast? = some newline ∧
      ∀ l ∈ data.splitOn newline, l.getLast? ≠ some 13 ∧ l.length < size := by
  by_cases hd : data = []
  · subst hd
    exact iff_of_true rfl (.inl rfl)
  rw [or_iff_right hd]
  cases he : (scanLinesUpTo size data).2 with
  | false =>
    have hlong := length_unlines_scanLinesUpTo hs he
    refine iff_of_false (fun hsame => ?_) fun hall => ?_
    · rw [hsame] at hlong
      exact Nat.lt_irrefl _ hlong
    · rw [(scanLinesUpTo_snd hs).mpr fun l hl => (hall.2 l hl).2] at he
      cases he
  | true =>
    rw [unlines_scanLinesUpTo he hd]
    have hshort := (scanLinesUpTo_snd hs).mp he
    refine and_congr_right fun _ => forall₂_congr fun l hl => ?_
    exact (and_iff_left (hshort l hl)).symm

end

/-! ## The size of the usual buffer -/

theorem scanTokens_eq_upTo (ls : List Bytes) :
    scanTokens ls = scanTokensUpTo maxScanTokenSize ls := by
  induction ls with
  | nil => rfl
  | cons l ls ih => rw [scanTokens, scanTokensUpTo, ih]

theorem scanLines_eq_upTo (data : Bytes) : scanLines data = scanLinesUpTo maxScanTokenSize data :=
  scanTokens_eq_upTo _

theorem scanLines_snd (data : Bytes) :
    (scanLines data).2 = true ↔ ∀ l ∈ data.splitOn newline, l.length < maxScanTokenSize := by
  rw [scanLines_eq_upTo]
  exact scanLinesUpTo_snd (by decide)

theorem newline_notMem_scanLines (data : Bytes) : ∀ l ∈ (scanLines data).1, newline ∉ l := by
  rw [scanLines_eq_upTo]
  exact newline_notMem_scanLinesUpTo maxScanTokenSize data

theorem unlines_scanLines (h : (scanLines data).2 = true) (hd : data ≠ []) :
    unlines (scanLines data).1 = data ↔
      data.getLast? = some newline ∧ ∀ l ∈ data.splitOn newline, l.getLast? ≠ some 13 := by
  rw [scanLines_eq_upTo] at h ⊢
  exact unlines_scanLinesUpTo h hd

/-- A line a scanner passes on as it is. -/
def Scannable (l : Bytes) : Prop := newline ∉ l ∧ 13 ∉ l ∧ l.length < maxScanTokenSize

instance (l : Bytes) : Decidable (Scannable l) := inferInstanceAs (Decidable (_ ∧ _))

theorem scanTokens_eq (h : ∀ l ∈ ls, Scannable l) : scanTokens ls = (ls, true) := by
  induction ls with
  | nil => rfl
  | cons l ls ih =>
    obtain ⟨-, hcr, hlen⟩ := h l mem_cons_self
    have hd : dropCR l = l := if_neg fun hl => hcr (mem_of_getLast? hl)
    rw [scanTokens, if_pos hlen, ih fun l' hl' => h l' (mem_cons_of_mem _ hl'), hd]

/-- **A scanner yields the lines that were written.** -/
theorem scanLines_unlines (h : ∀ l ∈ ls, Scannable l) : scanLines (unlines ls) = (ls, true) := by
  have hs := splitOn_unlines fun l hl => (h l hl).1
  have hlast : (ls ++ [([] : Bytes)]).getLast? = some [] := by simp
  simp only [scanLines, hs, if_pos hlast, dropLast_concat]
  exact scanTokens_eq h

end Bytes
