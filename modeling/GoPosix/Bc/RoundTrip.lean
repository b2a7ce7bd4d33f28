import Mathlib.Data.List.TakeWhile
import Mathlib.Data.Nat.Digits.Lemmas
import Mathlib.Data.Rat.Floor
import GoPosix.Lib.Decimal
import GoPosix.Bc.Discipline

/-!
# Printing a number and reading it again

`formatRat` divides the integer part by the base and multiplies the fraction by it;
`parseNumberInBase` adds the digits up at their places. Between the two stand `Nat.digits` and,
behind the dot, `HasDigits`, which says how many are needed. In the bases with one character for a
digit, what is printed is read as the same number (`parseNumberInBase_formatRat`).
-/

namespace GoPosix.Bc

open Effects Decimal List

/-! ## Characters -/

def digitChar (d : Nat) : Char := Char.ofNat (if d < 10 then '0'.toNat + d else 'A'.toNat + d - 10)

/-- A character that is neither a sign nor the dot, and is read as it is. -/
def Plain (c : Char) : Prop := c.toUpper = c ∧ c ≠ '.' ∧ c ≠ '-' ∧ c ≠ '+'

instance (c : Char) : Decidable (Plain c) := inferInstanceAs (Decidable (_ ∧ _))

theorem digitChar_spec : ∀ d < 16, digitVal (digitChar d) = d ∧ Plain (digitChar d) := by decide

theorem formatDigit_nat {b : Nat} (hb : b ≤ 16) :
    ∀ d < 16, formatDigit (d : Nat) b = [digitChar d] := by
  intro d hd
  unfold formatDigit
  rw [if_pos (by exact_mod_cast hb)]
  revert d
  decide

variable {b : Nat}

/-! ## Before the dot -/

/-- The loop gives the digits of the number in the base. -/
theorem digitLoop_eq_digits (hb : 2 ≤ b) {f n : Nat} (h : n < 2 ^ f) :
    digitLoop b (f + 1) n = .ok ((Nat.digits b n).map fun d => formatDigit (d : Nat) b) := by
  induction f generalizing n with
  | zero =>
    obtain rfl : n = 0 := by omega
    rw [Nat.digits_zero]
    rfl
  | succ f ih =>
    unfold digitLoop
    split
    · next hp =>
      have hdiv : n / b < 2 ^ f := by
        apply Nat.div_lt_of_lt_mul
        calc n < 2 ^ (f + 1) := h
          _ = 2 * 2 ^ f := pow_succ' 2 f
          _ ≤ b * 2 ^ f := Nat.mul_le_mul_right _ hb
      have hd : Nat.digits b n = n % b :: Nat.digits b (n / b) :=
        Nat.digits_def' (by omega) (by exact_mod_cast hp)
      rw [if_neg (by omega), ← Int.natCast_div, ih hdiv, hd]
      rfl
    · next hzero =>
      obtain rfl : n = 0 := by omega
      simp

theorem intLoop_append (i : Int) (sd : Bool) (iv : Int) (s t : List Char) :
    intLoop i sd iv (s ++ t) = intLoop i sd (intLoop i sd iv s) t := by
  induction s generalizing iv with
  | nil => rfl
  | cons c s ih =>
    simp only [cons_append, intLoop]
    split
    · exact ih _
    · exact ih _

/-- **Horner's rule.** The digits of a number give the number, also where a digit that stands alone
would not be limited to the base. -/
theorem intLoop_digits (hb : b ≤ 16) (sd : Bool) (hds : ∀ d ∈ ds, d < b) :
    intLoop b sd 0 (ds.reverse.map digitChar) = Nat.ofDigits b ds := by
  induction ds with
  | nil => rfl
  | cons d ds ih =>
    obtain ⟨hd, hds⟩ := forall_mem_cons.mp hds
    rw [reverse_cons, map_append, intLoop_append, ih hds, map_singleton, intLoop,
      (digitChar_spec d (hd.trans_le hb)).1, if_neg (by omega), if_neg (by omega), intLoop,
      Nat.ofDigits_cons]
    push_cast
    ring

/-! ## Behind the dot -/

theorem next_digit (hb : 2 ≤ b) {f : Rat} (hn : 0 ≤ f) (hlt : f < 1) :
    ∃ d : Nat, d < b ∧ (f * (b : Int)).num / ((f * (b : Int)).den : Int) = d ∧
      0 ≤ f * (b : Int) - (d : Int) ∧ f * (b : Int) - (d : Int) < 1 := by
  have hbp : (0 : Rat) < (b : Int) := by exact_mod_cast Nat.zero_lt_of_lt hb
  have hf : 0 ≤ ⌊f * (b : Int)⌋ := Int.floor_nonneg.mpr (mul_nonneg hn hbp.le)
  have hf' : ⌊f * (b : Int)⌋ < b := by
    rw [Int.floor_lt]
    exact mul_lt_of_lt_one_left hbp hlt
  obtain ⟨d, hd⟩ := Int.eq_ofNat_of_zero_le hf
  refine ⟨d, by omega, ?_, ?_, ?_⟩
  · rw [← Rat.floor_def]
    exact hd
  · rw [← hd]
    exact Int.fract_nonneg _
  · rw [← hd]
    exact Int.fract_lt_one _

/-- **The digits of a fraction** that has no more of them than are printed. -/
theorem fracDigits_spec (hb : 2 ≤ b) (hb1 : b ≤ 16) {n : Nat} (hn : 0 ≤ f)
    (hlt : f < 1) (hf : HasDigits b f n) :
    ∃ s, (∀ c ∈ s, Plain c) ∧ (fracDigits b n f).flatten = s ∧ ∀ (power : Int) (fv : Rat),
      power ≠ 0 →
        fracLoop b power fv s = .ok (fv + f / power) := by
  induction n generalizing f with
  | zero =>
    -- no digits: the fraction is an integer
    obtain ⟨k, hk⟩ := hf
    rw [pow_zero, mul_one] at hk
    subst hk
    obtain rfl : k = 0 := by
      have hk0 : 0 ≤ k := Int.cast_nonneg_iff.mp hn
      have hk1 : k < 1 := by exact_mod_cast hlt
      omega
    exact ⟨[], nofun, rfl, fun _ _ _ => by simp [fracLoop]⟩
  | succ n ih =>
    obtain ⟨d, hdb, hd, hr, hrest⟩ := next_digit hb hn hlt
    obtain ⟨s, hs, hflatten, hl⟩ := ih hr hrest (hf.shift d)
    have hd1 : d < 16 := hdb.trans_le hb1
    refine ⟨digitChar d :: s, forall_mem_cons.mpr ⟨(digitChar_spec d hd1).2, hs⟩, ?_,
      fun power fv hp => ?_⟩
    · simp only [fracDigits, hd]
      rw [formatDigit_nat hb1 d hd1, flatten_cons, hflatten]
      rfl
    · have hb0 : (b : Int) ≠ 0 := by omega
      have hp' : power * (b : Int) ≠ 0 := mul_ne_zero hp hb0
      rw [fracLoop, (digitChar_spec d hd1).1, if_neg (by omega), if_neg (by omega)]
      simp only [quo_of_ne_zero _ (Int.cast_ne_zero.mpr hp')]
      -- the digit and the rest behind it are the fraction again
      have hsum : fv + ((d : Int) : Rat) / ((power * b : Int) : Rat) +
          (f * (b : Int) - (d : Int)) / ((power * b : Int) : Rat) = fv + f / power := by
        have hbq : ((b : Int) : Rat) ≠ 0 := Int.cast_ne_zero.mpr hb0
        rw [Int.cast_mul, add_assoc, ← add_div, add_sub_cancel, mul_div_mul_right _ _ hbq]
      rw [← hsum, ← hl _ _ hp']
      rfl

theorem join_nil (parts : List (List Char)) : join [] parts = parts.flatten := by
  unfold join
  induction parts with
  | nil => rfl
  | cons p parts ih =>
    cases parts with
    | nil => rfl
    | cons next parts => simpa using ih

/-! ## The text -/

theorem map_toUpper {s : List Char} (hs : ∀ c ∈ s, Plain c) : s.map Char.toUpper = s :=
  (map_congr_left fun c hc => (hs c hc).1).trans (map_id s)

theorem span_dot (hints : ∀ c ∈ ints, Plain c)
    (hb : behind = [] ∧ fracs = [] ∨ behind = '.' :: fracs) :
    (ints ++ behind).takeWhile (· ≠ '.') = ints ∧ (ints ++ behind).dropWhile (· ≠ '.') =
      behind := by
  have hd : ∀ c ∈ ints, decide (c ≠ '.') = true := fun c hc => decide_eq_true (hints c hc).2.1
  rw [takeWhile_append_of_pos hd, dropWhile_append_of_pos hd]
  obtain ⟨rfl, -⟩ | rfl := hb
  · simp
  · simp

/-- A sign, the digits before the dot, and the dot with those behind it, unless there are none. -/
theorem parseNumberInBase_text {ib : Int} (neg : Bool)
    (hints : ∀ c ∈ i, Plain c) (hf : ∀ c ∈ f, Plain c)
    (hb : behind = [] ∧ f = [] ∨ behind = '.' :: f) {z : Int} {q : Rat}
    (hi : ∀ sd, intLoop ib sd 0 i = z)
    (hfrac : fracLoop ib 1 0 f = .ok q) :
    parseNumberInBase ((if neg then ['-'] else []) ++ (i ++ behind)) ib =
      .ok (if neg then -(z + q) else z + q) := by
  have hu : (i ++ behind).map Char.toUpper = i ++ behind := by
    rw [map_append, map_toUpper hints]
    obtain ⟨rfl, -⟩ | rfl := hb
    · rfl
    · rw [map_cons, map_toUpper hf]
      rfl
  have hh : (i ++ behind).head? ≠ some '-' ∧ (i ++ behind).head? ≠ some '+' := by
    cases i with
    | nil =>
      obtain ⟨rfl, -⟩ | rfl := hb
      · simp
      · simp
    | cons c i =>
      have hc := hints c mem_cons_self
      simp [hc.2.2.1, hc.2.2.2]
  have ht : behind.tail.takeWhile (· ≠ '.') = f := by
    obtain ⟨rfl, rfl⟩ | rfl := hb
    · rfl
    · have hdots : ∀ c ∈ f, decide (c ≠ '.') = true := fun c hc => decide_eq_true (hf c hc).2.1
      exact takeWhile_eq_self_iff.mpr hdots
  obtain ⟨htail, hd⟩ := span_dot hints hb
  unfold parseNumberInBase
  cases neg with
  | true =>
    simp only [if_true, singleton_append, map_cons, hu, List.head?_cons,
      show Char.toUpper '-' = '-' from rfl, true_or, tail_cons, htail, hd, ht, hfrac,
      hi]
    rfl
  | false =>
    simp only [Bool.false_eq_true, if_false, nil_append, hu, hh, or_self, htail, hd, ht, hfrac, hi]
    rfl

/-! ## Printing and reading -/

/-- The number of digits that are printed behind the dot. -/
def printedScale (host : Host) (obase scale : Int) : Int :=
  if obase ≠ 10 ∧ 0 < scale then host.printScale obase scale else scale

theorem rat_parts (hv : 0 ≤ v) : ∃ n : Nat, v.num / (v.den : Int) = n ∧
      (((v.num % v.den : Int) : Rat) / (v.den : Rat)) = v - (n : Int) ∧
      0 ≤ v - (n : Int) ∧ v - (n : Int) < 1 := by
  have hf : 0 ≤ ⌊v⌋ := Int.floor_nonneg.mpr hv
  obtain ⟨n, hn⟩ := Int.eq_ofNat_of_zero_le hf
  have hd : v.num / (v.den : Int) = n := by
    rw [← Rat.floor_def]
    exact hn
  refine ⟨n, hd, ?_, ?_, ?_⟩
  · have hden : (v.den : Rat) ≠ 0 := Nat.cast_ne_zero.mpr v.den_nz
    rw [Int.emod_def, hd, div_eq_iff hden, sub_mul, Rat.mul_den_eq_num]
    push_cast
    ring
  · rw [← hn]
    exact Int.fract_nonneg v
  · rw [← hn]
    exact Int.fract_lt_one v

theorem fracLoop_zeros (hi : 0 < ibase) (hp : power ≠ 0) (fv : Rat) (n : Nat) :
    fracLoop ibase power fv (List.replicate n '0') = .ok fv := by
  induction n generalizing power with
  | zero => rfl
  | succ n ih =>
    have hp' : power * ibase ≠ 0 := mul_ne_zero hp hi.ne'
    rw [replicate_succ, fracLoop, show digitVal '0' = 0 from rfl, if_neg (by decide),
      if_neg (by omega)]
    simp only [quo_of_ne_zero _ (Int.cast_ne_zero.mpr hp')]
    rw [← ih hp']
    simp [bind, Except.bind]

theorem intLoop_zero (hb : 2 ≤ b) (sd : Bool) : intLoop b sd 0 ['0'] = 0 := by
  rw [intLoop, show digitVal '0' = 0 from rfl, if_neg (by decide), if_neg (by omega)]
  simp [intLoop]

theorem parseNumberInBase_formatZero (hb : 2 ≤ b) (hb1 : b ≤ 16) (scale : Int) (fn : Bool) :
    parseNumberInBase (formatZero b scale fn) b = .ok 0 := by
  have hzero : Plain '0' := by decide
  unfold formatZero
  split
  · rw [if_neg (by omega)]
    have hf : ∀ c ∈ List.replicate scale.toNat '0', Plain c := fun c hc =>
      (eq_of_mem_replicate hc) ▸ hzero
    have hfrac :=
      fracLoop_zeros (Int.natCast_pos.mpr (Nat.zero_lt_of_lt hb)) one_ne_zero 0 scale.toNat
    have hints : ∀ c ∈ ([] : List Char), Plain c := nofun
    simpa using parseNumberInBase_text true hints hf (.inr rfl) (fun _ => rfl) hfrac
  · have hints : ∀ c ∈ ['0'], Plain c := fun c hc => (mem_singleton.mp hc) ▸ hzero
    have hn : ∀ c ∈ ([] : List Char), Plain c := nofun
    simpa using parseNumberInBase_text false hints hn (.inl ⟨rfl, rfl⟩) (intLoop_zero hb) rfl

/-- The text of an integer part is plain and is read back. -/
theorem formatInt_spec (hb : 2 ≤ b) (hb1 : b ≤ 16) (n : Nat) (ps : Int) :
    ∃ i, (∀ c ∈ i, Plain c) ∧ (∀ sd, intLoop b sd 0 i = n) ∧
      formatInt b n ps ((Nat.digits b n).map fun d => formatDigit (d : Nat) b) = i := by
  have hlt : ∀ d ∈ Nat.digits b n, d < b := fun d hd => Nat.digits_lt_base (by omega) hd
  have hf : (((Nat.digits b n).map fun d => formatDigit (d : Nat) b).reverse).flatten =
      (Nat.digits b n).reverse.map digitChar := by
    have hm : ((Nat.digits b n).map fun d => formatDigit (d : Nat) b) = (Nat.digits b n).map
        fun d => [digitChar d] :=
      map_congr_left fun d hd => formatDigit_nat hb1 d ((hlt d hd).trans_le hb1)
    rw [hm, ← map_reverse, ← flatMap_def, map_eq_flatMap]
  unfold formatInt
  by_cases hn : n = 0
  · subst hn
    rw [Nat.digits_zero, map_nil, if_pos rfl]
    split
    · exact ⟨[], nofun, fun _ => rfl, rfl⟩
    · rw [if_neg (by omega)]
      exact ⟨['0'], fun c hc => (mem_singleton.mp hc) ▸ (by decide), intLoop_zero hb, rfl⟩
  · refine ⟨(Nat.digits b n).reverse.map digitChar, ?_, fun sd => ?_, ?_⟩
    · intro c hc
      obtain ⟨d, hd, rfl⟩ := mem_map.mp hc
      exact (digitChar_spec d ((hlt d (mem_reverse.mp hd)).trans_le hb1)).2
    · rw [intLoop_digits hb1 sd hlt, Nat.ofDigits_digits]
    · have hdigits : Nat.digits b n ≠ [] := Nat.digits_ne_nil_iff_ne_zero.mpr hn
      rw [if_neg (by omega), if_neg (by omega), if_neg (by simpa using hdigits), hf]

/-- **What is printed is read again**, in the bases up to 16, if the number has no more digits than
are printed behind the dot. -/
theorem parseNumberInBase_formatRat (host : Host) (hb : 2 ≤ b) (hb1 : b ≤ 16) {r : Rat}
    {fn : Bool} (hneg : fn = true → r ≤ 0)
    (hr : HasDigits b r (printedScale host b scale).toNat) :
    ∃ text, formatRat host r b scale fn = .ok text ∧ parseNumberInBase text b = .ok r := by
  by_cases hzero : r = 0
  · subst hzero
    exact ⟨_, if_pos rfl, parseNumberInBase_formatZero hb hb1 scale fn⟩
  have hs : (r < 0 ∨ fn = true) ↔ r < 0 :=
    ⟨fun h => h.elim id fun hfo => lt_of_le_of_ne (hneg hfo) hzero, .inl⟩
  obtain ⟨n, hin, hfra, hn, hlt⟩ := rat_parts (abs_nonneg r)
  have habs : HasDigits b |r| (printedScale host b scale).toNat := by
    rcases abs_choice r with heq | heq
    · rwa [heq]
    · rw [heq]
      exact hr.neg
  -- the digits on the two sides of the dot
  obtain ⟨f, hfrac, hfl, hl⟩ := fracDigits_spec hb hb1 hn hlt (habs.sub (hasDigits_int n _))
  obtain ⟨i, hints, hi, hf⟩ := formatInt_spec hb hb1 n (printedScale host b scale)
  have hd := digitLoop_eq_digits hb (Nat.lt_log2_self (n := n))
  have hps : (if (b : Int) ≠ 10 ∧ 0 < scale then host.printScale b scale else scale) =
    printedScale host b scale := rfl
  have hse : ¬ (16 : Int) < b := by omega
  have hv : (if decide (r < 0) then -((n : Int) + (0 + (|r| - (n : Int)) / (1 : Int))) else
      ((n : Int) + (0 + (|r| - (n : Int)) / (1 : Int))) : Rat) = r := by
    by_cases hlt0 : r < 0
    · simp [hlt0, abs_of_neg]
    · simp [hlt0, abs_of_nonneg (not_lt.mp hlt0)]
  unfold formatRat
  rw [if_neg hzero]
  simp only [hin, hfra, Int.natAbs_natCast, hd, hps, hs, hse, if_false, join_nil, hfl]
  by_cases hle : printedScale host b scale ≤ 0
  · have hnonpos : f = [] := by
      rw [← hfl, Int.toNat_of_nonpos hle]
      rfl
    refine ⟨(if decide (r < 0) then ['-'] else []) ++ (i ++ []), ?_, ?_⟩
    · simp [bind, Except.bind, pure, Except.pure, hle, hf]
    · exact (parseNumberInBase_text _ hints hfrac (.inl ⟨rfl, hnonpos⟩) hi
        (hl 1 0 one_ne_zero)).trans (congrArg Except.ok hv)
  · refine ⟨(if decide (r < 0) then ['-'] else []) ++ (i ++ '.' :: f), ?_, ?_⟩
    · simp [bind, Except.bind, pure, Except.pure, hle, hf]
    · exact (parseNumberInBase_text _ hints hfrac (.inr rfl) hi (hl 1 0 one_ne_zero)).trans
        (congrArg Except.ok hv)

/-- **The round trips.** A number that its scale is enough for is read from its decimal text, and an
integer from its text in any base up to 16. The sign is forced only for numbers that are not
positive. -/
theorem formatRat_roundTrip (host : Host) (forceNeg : Bool) :
    (∀ (r : Rat) (s : Int), 0 ≤ s → (∃ k : Int, r * 10 ^ s.toNat = k) → (forceNeg = true → r ≤ 0) →
      ∃ text, formatRat host r 10 s forceNeg = .ok text ∧ parseNumberInBase text 10 = .ok r) ∧
    (∀ (n b scale : Int), 2 ≤ b → b ≤ 16 → (forceNeg = true → n ≤ 0) →
      ∃ text, formatRat host n b scale forceNeg = .ok text ∧ parseNumberInBase text b = .ok n) := by
  constructor
  · intro r s _ hr hn
    have hd : HasDigits (10 : Nat) r (printedScale host (10 : Nat) s).toNat := by
      exact hr
    exact parseNumberInBase_formatRat host (by decide) (by decide) hn hd
  · intro n b scale hb hb1 hn
    obtain ⟨b, rfl⟩ := Int.eq_ofNat_of_zero_le (by omega : 0 ≤ b)
    exact parseNumberInBase_formatRat host (by omega) (by omega) (by exact_mod_cast hn)
      (hasDigits_int n _)

theorem formatRat_roundTrip_quarters : (∃ text, formatRat plainHost (-7 / 4) 10 3 true = .ok text ∧
        parseNumberInBase text 10 = .ok (-7 / 4)) ∧
      ∃ text, formatRat plainHost ((255 : Int) : Rat) 16 0 false = .ok text ∧
        parseNumberInBase text 16 = .ok ((255 : Int) : Rat) :=
  ⟨(formatRat_roundTrip plainHost true).1 (-7 / 4) 3 (by decide) ⟨-1750, by decide +kernel⟩
    (by decide +kernel),
    (formatRat_roundTrip plainHost false).2 255 16 0 (by decide) (by decide) (by decide)⟩

example : formatRat plainHost (-7 / 40) 10 3 true = .ok "-.175".toList := by decide +kernel

example : formatRat plainHost 255 16 0 false = .ok "FF".toList := by decide +kernel

/-! ## Wrapped lines -/

theorem byteChars_ascii (h : ∀ c ∈ s, c.toNat < 128) : byteChars s = s := by
  induction s with
  | nil => rfl
  | cons c s ih =>
    obtain ⟨hc, hs⟩ := forall_mem_cons.mp h
    have he : String.utf8EncodeChar c = [UInt8.ofNat c.toNat] := if_pos (Nat.le_of_lt_succ hc)
    have hn : (UInt8.ofNat c.toNat).toNat = c.toNat :=
      Nat.mod_eq_of_lt (Nat.lt_trans hc (by decide))
    rw [byteChars, flatMap_cons, he, map_singleton, hn, Char.ofNat_toNat]
    exact congrArg (c :: ·) (ih hs)

theorem newLexer_cons (h : c ≠ '\\') (s : List Char) : newLexer (c :: s) = c :: newLexer s := by
  cases s with
  | nil => rfl
  | cons d s => simp [newLexer, h]

theorem newLexer_wrapLoop (ll : Int) (h : '\\' ∉ s) (col : Int) :
    newLexer (wrapLoop ll col s) = s := by
  induction s generalizing col with
  | nil => rfl
  | cons c s ih =>
    obtain ⟨hc, hs⟩ := not_or.mp (mem_cons.not.mp h)
    have hc : c ≠ '\\' := Ne.symm hc
    unfold wrapLoop
    split_ifs
    · rw [newLexer_cons hc, ih hs]
    · rw [newLexer, if_pos ⟨rfl, rfl⟩, newLexer_cons hc, ih hs]
    · rw [newLexer_cons hc, ih hs]

/-- The characters `cur` are on the line already. -/
theorem wrapLoop_width (hL : 2 < lineLength) (s : List Char) :
    ∀ cur, '\n' ∉ cur → (cur.length : Int) ≤ lineLength - 2 →
    ∀ l ∈ (cur ++ wrapLoop lineLength cur.length s).splitOn '\n', (l.length : Int) ≤
      lineLength - 1 := by
  induction s with
  | nil =>
    intro cur hn hle l hl
    rw [wrapLoop, append_nil, splitOn_eq_singleton hn, mem_singleton] at hl
    rw [hl]
    omega
  | cons c s ih =>
    intro cur hn hle l hl
    unfold wrapLoop at hl
    split_ifs at hl with hc hw
    · rw [hc, splitOn_append_cons_self, splitOn_eq_singleton hn] at hl
      rcases mem_cons.mp hl with rfl | hl
      · omega
      · exact ih [] (by simp) (by simp; omega) l hl
    · rw [← singleton_append, ← append_assoc, splitOn_append_cons_self,
        splitOn_eq_singleton (by simpa using hn)] at hl
      rcases mem_cons.mp hl with rfl | hl
      · simp
        omega
      · exact ih [c] (by simpa using Ne.symm hc) (by simp; omega) l hl
    · refine ih (cur ++ [c]) ?_ ?_ l (by simpa using hl)
      · simpa [hn] using Ne.symm hc
      · simp
        omega

/-- **What is printed can be read**: a text without backslashes comes back, and no line is too
long. -/
theorem newLexer_printWrapped (host : Host) (ha : ∀ c ∈ s, c.toNat < 128) (hs : '\\' ∉ s) :
    newLexer (printWrapped host s) = s ∧ (2 < host.lineLength →
      ∀ l ∈ (printWrapped host s).splitOn '\n', (l.length : Int) ≤ host.lineLength - 1) := by
  rw [printWrapped, byteChars_ascii ha]
  exact ⟨newLexer_wrapLoop _ hs 0, fun hL => wrapLoop_width hL s [] (by simp) (by simp; omega)⟩

/-- Eight digits on lines of length 5. -/
theorem newLexer_printWrapped_digits :
    printWrapped { plainHost with lineLength := 5 } "12345678".toList
        = "123\\\n456\\\n78".toList ∧
      newLexer (printWrapped { plainHost with lineLength := 5 } "12345678".toList)
        = "12345678".toList ∧
      ∀ l ∈ (printWrapped { plainHost with lineLength := 5 } "12345678".toList).splitOn '\n',
        (l.length : Int) ≤ 5 - 1 := by
  have hascii : "12345678".toList.all (fun c => c.toNat < 128) = true := by decide
  obtain ⟨hback, hwidth⟩ := newLexer_printWrapped (s := "12345678".toList)
    { plainHost with lineLength := 5 }
    (fun c hc => of_decide_eq_true (List.all_eq_true.mp hascii c hc)) (by decide)
  exact ⟨by decide +kernel, hback, hwidth (by decide)⟩

end GoPosix.Bc
