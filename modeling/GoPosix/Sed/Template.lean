import GoPosix.Lib.Strconv

/-!
# Replacements

A replacement of sed is a list of `Piece`s: bytes, and references to groups. The parser writes it as
a template of Go's package `regexp` (`template`), which is expanded at a match (`Names.expand`).

Behind a dollar sign, a template takes all letters, digits and underscores for a name. So `\1bar` is
a name that no group has, and so is `$HOME`, which was no reference. `Clean` says where nothing of
that kind happens, and `expand_template` that the template stands for the replacement then.
-/

namespace GoPosix.Sed

open List Bytes

/-! ## Templates of Go -/

/-- The letters, the digits and the underscore of ASCII. -/
def isWord (c : UInt8) : Bool :=
  isDigit c || (65 ≤ c && c ≤ 90) || (97 ≤ c && c ≤ 122) || c = 95

/-- What is known about names: the groups that have them, and the size of a letter or digit outside
ASCII at the head of a text, 0 if there is none. -/
structure Names where
  named : Bytes → Option Nat
  wide : Bytes → Nat

/-- The number that a name is. It has no leading zero and at most nine digits. -/
def groupNumber (name : Bytes) : Option Nat :=
  if name.all isDigit = true ∧ ¬ (name.head? = some 48 ∧ 1 < name.length) ∧
      decimalValue name.dropLast < 10 ^ 8 then some (decimalValue name)
  else none

namespace Names

variable (names : Names)

/-- The size of what can stand in a name, at the head of a text. -/
def wordSize : Bytes → Nat
  | [] => 0
  | c :: s => if c < 128 then if isWord c then 1 else 0 else names.wide (c :: s)

/-- The longest name at the head of a text, and what is left. -/
def spanWord : (fuel : Nat) → Bytes → Bytes × Bytes
  | 0, s => ([], s)
  | fuel + 1, s =>
    match names.wordSize s with
    | 0 => ([], s)
    | n + 1 =>
      let (name, rest) := spanWord fuel (s.drop (n + 1))
      (s.take (n + 1) ++ name, rest)

/-- `extract`: the name behind a dollar sign, which may stand in braces. -/
def extract : Bytes → Option (Bytes × Bytes)
  | 123 :: s =>
    match names.spanWord s.length s with
    | ([], _) => none
    | (name, 125 :: rest) => some (name, rest)
    | _ => none
  | s =>
    match names.spanWord s.length s with
    | ([], _) => none
    | res => some res

/-- What a name stands for: nothing, if there is no such group. -/
def value (groups : Nat → Bytes) (name : Bytes) : Bytes :=
  match groupNumber name <|> names.named name with
  | some n => groups n
  | none => []

/-- The loop of `expand`. A dollar sign without a name stands for itself. -/
def expandFrom (groups : Nat → Bytes) : (fuel : Nat) → Bytes → Bytes
  | 0, template => template
  | _ + 1, [] => []
  | fuel + 1, c :: template =>
    if c ≠ 36 then c :: expandFrom groups fuel template
    else if template.head? = some 36 then 36 :: expandFrom groups fuel template.tail
    else match names.extract template with
      | none => 36 :: expandFrom groups fuel template
      | some (name, rest) => names.value groups name ++ expandFrom groups fuel rest

def expand (template : Bytes) (groups : Nat → Bytes) : Bytes :=
  names.expandFrom groups template.length template

end Names

/-! ## Replacements of sed -/

inductive Piece
  | byte (b : UInt8)
  | group (digit : Fin 10)
  deriving DecidableEq, Repr

def digit? (c : UInt8) : Option (Fin 10) :=
  if h : 48 ≤ c.toNat ∧ c.toNat - 48 < 10 then some ⟨c.toNat - 48, h.2⟩ else none

/-- A byte behind a backslash. -/
def escaped (delim next : UInt8) : Piece :=
  if next = delim then .byte next
  else match digit? next with
    | some d => .group d
    | none => .byte
      (if next = 110 then 10 else if next = 116 then 9 else if next = 114 then 13 else next)

/-- What the text of a replacement means. The ampersand is the whole match. -/
def pieces (delim : UInt8) : Bytes → List Piece
  | 92 :: next :: s => escaped delim next :: pieces delim s
  | 38 :: s => .group 0 :: pieces delim s
  | c :: s => .byte c :: pieces delim s
  | [] => []

def Piece.text (groups : Nat → Bytes) : Piece → Bytes
  | .byte b => [b]
  | .group d => groups d

/-- The text that a replacement stands for. -/
def texts (groups : Nat → Bytes) (ps : List Piece) : Bytes := ps.flatMap (·.text groups)

theorem texts_congr {groups groups' : Nat → Bytes} (h : ∀ d : Fin 10, groups d = groups' d)
    (ps : List Piece) : texts groups ps = texts groups' ps := by
  unfold texts
  congr
  funext piece
  cases piece with
  | byte b => rfl
  | group d => exact h d

/-! ## From the one to the other -/

/-- `string(b)` of a byte: the character with this number, in UTF-8. -/
def ofByte (b : UInt8) : Bytes :=
  if b < 128 then [b] else [(0xC0 : UInt8) ||| (b >>> 6), (0x80 : UInt8) ||| (b &&& 0x3F)]

/-- `Repl`: what the parser makes of the text of a replacement. -/
def template (delim : UInt8) : Bytes → Bytes
  | 92 :: next :: s =>
    (if next = delim then ofByte delim
    else if 48 ≤ next ∧ next ≤ 57 then 36 :: ofByte next
    else if next = 38 then [38]
    else if next = 92 then [92]
    else if next = 110 then [10]
    else if next = 116 then [9]
    else if next = 114 then [13]
    else ofByte next) ++ template delim s
  | 38 :: s => [36, 48] ++ template delim s
  | c :: s => ofByte c ++ template delim s
  | [] => []

def Piece.render : Piece → Bytes
  | .byte b => ofByte b
  | .group d => [36, UInt8.ofNat (48 + d)]

def render (ps : List Piece) : Bytes := ps.flatMap Piece.render

theorem digit?_of_digit {c : UInt8} (h : 48 ≤ c ∧ c ≤ 57) :
    ∃ d, digit? c = some d ∧ UInt8.ofNat (48 + d) = c ∧ c < 128 := by
  simp only [UInt8.le_iff_toNat_le, UInt8.reduceToNat] at h
  refine ⟨⟨c.toNat - 48, by omega⟩, dif_pos ⟨h.1, by omega⟩, ?_, ?_⟩
  · rw [Nat.add_sub_cancel' h.1, UInt8.ofNat_toNat]
  · exact UInt8.lt_iff_toNat_lt.mpr (Nat.lt_of_le_of_lt h.2 (by decide))

theorem digit?_of_not {c : UInt8} (h : ¬ (48 ≤ c ∧ c ≤ 57)) : digit? c = none := by
  simp only [UInt8.le_iff_toNat_le, UInt8.reduceToNat] at h
  exact dif_neg fun hc => h ⟨hc.1, by omega⟩

/-- What the parser makes of a backslash and the byte behind it. -/
theorem render_escaped (delim next : UInt8) : (escaped delim next).render =
    if next = delim then ofByte delim
    else if 48 ≤ next ∧ next ≤ 57 then 36 :: ofByte next
    else if next = 38 then [38]
    else if next = 92 then [92]
    else if next = 110 then [10]
    else if next = 116 then [9]
    else if next = 114 then [13]
    else ofByte next := by
  unfold escaped
  by_cases hdelim : next = delim
  · rw [if_pos hdelim, if_pos hdelim, hdelim]
    rfl
  rw [if_neg hdelim, if_neg hdelim]
  by_cases hdigit : 48 ≤ next ∧ next ≤ 57
  · obtain ⟨d, hd, hc, hascii⟩ := digit?_of_digit hdigit
    rw [hd, if_pos hdigit, Piece.render, hc, ofByte, if_pos hascii]
  · rw [digit?_of_not hdigit, if_neg hdigit, Piece.render]
    -- the other bytes stand for themselves, three letters for a control character
    by_cases h38 : next = 38
    · rw [h38]
      rfl
    by_cases h92 : next = 92
    · rw [h92]
      rfl
    rw [if_neg h38, if_neg h92]
    split_ifs <;> rfl

theorem template_eq_render (delim : UInt8) (raw : Bytes) :
    template delim raw = render (pieces delim raw) := by
  fun_induction pieces delim raw with
  | case1 next s ih =>
    rw [template, ih, render, render, flatMap_cons, render_escaped]
  | case2 s ih =>
    rw [template, ih]
    rfl
  | case3 c s hesc hamp ih =>
    rw [template, ih]
    · rfl
    · exact hesc
    · exact hamp
  | case4 => rfl

/-! ## Clean replacements -/

/-- The replacement is in ASCII, no reference stands before a letter, a digit or an underscore, and
no dollar sign before another one, a reference or a name. -/
def Clean (names : Names) : List Piece → Prop
  | [] => True
  | .byte b :: ps => b < 128 ∧ (b = 36 → (render ps).head? ≠ some 36 ∧
      names.extract (render ps) = none) ∧ Clean names ps
  | .group _ :: ps => names.wordSize (render ps) = 0 ∧ Clean names ps

variable {names : Names}

theorem spanWord_nil (h : names.wordSize s = 0) (fuel : Nat) : names.spanWord fuel s = ([], s) := by
  cases fuel with
  | zero => rfl
  | succ fuel => rw [Names.spanWord, h]

theorem pieces_digit :
    ∀ d : Fin 10, pieces 47 [92, UInt8.ofNat (48 + d)] = [.group d] := by
  decide

theorem digit_facts : ∀ d : Fin 10, UInt8.ofNat (48 + d) < 128 ∧
    isWord (UInt8.ofNat (48 + d)) = true ∧ UInt8.ofNat (48 + d) ≠ 123 ∧
      UInt8.ofNat (48 + d) ≠ 36 := by
  decide

/-- A reference is read as one, unless something follows that can stand in a name. -/
theorem extract_digit (d : Fin 10) (h : names.wordSize s = 0) :
    names.extract (UInt8.ofNat (48 + d) :: s) = some ([UInt8.ofNat (48 + d)], s) := by
  obtain ⟨hascii, hisWord, hbrace, -⟩ := digit_facts d
  have hsize : names.wordSize (UInt8.ofNat (48 + d) :: s) = 1 := by
    rw [Names.wordSize, if_pos hascii, if_pos hisWord]
  rw [Names.extract.eq_2 _ _ fun s' hs => hbrace (cons.inj hs).1, length_cons, Names.spanWord,
    hsize]
  simp only [drop_succ_cons, drop_zero, spanWord_nil h]
  rfl

theorem groupNumber_digit (d : Fin 10) : groupNumber [UInt8.ofNat (48 + d)] = some d := by
  revert d
  decide

/-- **The template of clean pieces expands to what they stand for.** -/
theorem expandFrom_render {ps : List Piece} (h : Clean names ps) (groups : Nat → Bytes)
    {fuel : Nat} (hfuel : (render ps).length ≤ fuel) :
    names.expandFrom groups fuel (render ps) = texts groups ps := by
  induction ps generalizing fuel with
  | nil => cases fuel <;> rfl
  | cons piece ps ih =>
    cases piece with
    | byte b =>
      obtain ⟨hb, hdollar, hps⟩ := h
      have hr : render (.byte b :: ps) = b :: render ps := by
        rw [render, flatMap_cons, Piece.render, ofByte, if_pos hb]
        rfl
      rw [hr] at hfuel ⊢
      obtain ⟨fuel, rfl⟩ := Nat.exists_eq_add_of_le' (Nat.one_le_of_lt hfuel)
      have hrest := ih hps (Nat.le_of_succ_le_succ hfuel)
      have ht : texts groups (.byte b :: ps) = b :: texts groups ps := rfl
      rw [ht, ← hrest, Names.expandFrom]
      by_cases h36 : b = 36
      · obtain ⟨hhead, hextract⟩ := hdollar h36
        rw [if_neg (not_not.mpr h36), if_neg hhead, hextract, h36]
      · rw [if_pos h36]
    | group d =>
      obtain ⟨hword, hps⟩ := h
      have hr : render (.group d :: ps) = 36 :: UInt8.ofNat (48 + d) :: render ps := rfl
      rw [hr] at hfuel ⊢
      obtain ⟨fuel, rfl⟩ := Nat.exists_eq_add_of_le' (Nat.one_le_of_lt hfuel)
      have hlen : (render ps).length ≤ fuel := by
        simp only [length_cons] at hfuel
        omega
      have h36 : (UInt8.ofNat (48 + d) :: render ps).head? ≠ some 36 := by
        rw [head?_cons, Ne, Option.some.injEq]
        exact (digit_facts d).2.2.2
      rw [Names.expandFrom, if_neg (not_not.mpr rfl), if_neg h36, extract_digit d hword]
      have hv : names.value groups [UInt8.ofNat (48 + d)] = groups d := by
        rw [Names.value, groupNumber_digit]
        rfl
      simp only [hv, ih hps hlen]
      rfl

/-- **The template of a clean replacement** stands for what the replacement means. -/
theorem expand_template (h : Clean names (pieces delim raw)) (groups : Nat → Bytes) :
    names.expand (template delim raw) groups = texts groups (pieces delim raw) := by
  rw [Names.expand, template_eq_render]
  exact expandFrom_render h groups (Nat.le_refl _)

end GoPosix.Sed
