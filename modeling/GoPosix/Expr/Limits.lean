import GoPosix.Expr.Posix

/-!
# Numbers out of range

A number of an expression is read as an `int` at every operator. The arithmetic wraps around without
a word, and two integers of which one is out of range are compared as texts (`eval_exact_iff`).
-/

namespace GoPosix.Expr

open Bytes Levels MachineInt

/-! ## Texts of integers -/

theorem head?_itoaInt (z : Int) : (itoaInt z).head? = some 45 ↔ z < 0 := by
  unfold itoaInt
  split_ifs with hn
  · exact iff_of_true rfl hn
  · exact iff_of_false (head?_itoa rfl _) hn

theorem isInteger_itoaInt (z : Int) : isInteger (itoaInt z) = true := by
  have hd : (itoa z.natAbs).all isDigit = true := List.all_eq_true.mpr (isDigit_of_mem_itoa _)
  have hne := itoa_ne_nil z.natAbs
  by_cases hn : z < 0
  · have ht : (itoaInt z).tail = itoa z.natAbs := by rw [itoaInt, if_pos hn]; rfl
    simp [isInteger, (head?_itoaInt z).mpr hn, ht, hd, hne]
  · have hs : itoaInt z = itoa z.natAbs := if_neg hn
    simp [isInteger, mt (head?_itoaInt z).mp hn, hs ▸ hd, hs ▸ hne]

theorem intValue_itoaInt (z : Int) : intValue (itoaInt z) = z := by
  unfold intValue
  by_cases hn : z < 0
  · have ht : (itoaInt z).tail = itoa z.natAbs := by rw [itoaInt, if_pos hn]; rfl
    rw [if_pos ((head?_itoaInt z).mpr hn), ht, decimalValue_itoa]
    omega
  · rw [if_neg (mt (head?_itoaInt z).mp hn), itoaInt, if_neg hn, decimalValue_itoa]
    omega

theorem atoi_snd_of_isInteger (h : isInteger s = true) :
    (atoi s).2 = true ↔ FitsInt (intValue s) := by
  rw [← atoi_of_isInteger h]
  constructor
  · intro hr
    have hv : atoi s = ((atoi s).1, true) := Prod.ext rfl hr
    have hz := ((atoi_eq_true rfl).mp hv).2.2.2
    simp only [head_of_isInteger h, or_false] at hz
    rw [hv, hz, intValue]
    split_ifs <;> rfl
  · intro hr
    rw [hr]

theorem wrap64_eq_self_iff (z : Int) : wrap64 z = z ↔ FitsInt z := by
  constructor
  · intro h
    have hle := @Int.le_bmod z (2 ^ 64) (by norm_num)
    have hlt := @Int.bmod_lt z (2 ^ 64) (by norm_num)
    unfold wrap64 at h
    constructor <;> omega
  · exact fun h => wrap64_of_lt h.1 h.2

/-! ## Exact values -/

def IsArithmetic : Tree → Prop
  | .atom a => isInteger a.text = true
  | .node (.arith _) _ _ => True
  | .node (.cmp _) _ _ => True
  | .node _ _ _ => False

/-- The exact value of an expression, unless it divides by zero. -/
def value : Tree → Option Int
  | .atom a => some (intValue a.text)
  | .node (.arith a) l r => (value l).bind fun x => (value r).bind (a.apply x)
  | .node (.cmp c) l r => (value l).bind fun x => (value r).map fun y =>
    (c.holds (compare x y)).toNat
  | .node _ _ _ => none

/-- The exact result of an operator on the texts of two integers. The arithmetic has none if an
operand is out of range or it divides by zero: there an error is reported. -/
def exactOp : Op → Bytes → Bytes → Option Bytes
  | .arith a, l, r =>
    if FitsInt (intValue l) ∧ FitsInt (intValue r) then
      (a.apply (intValue l) (intValue r)).map itoaInt
    else none
  | .cmp c, l, r => some (truth (c.holds (compare (intValue l) (intValue r))))
  | _, _, _ => none

def exact : Tree → Option Bytes
  | .atom a => some a.text
  | .node op l r => (exact l).bind fun left => (exact r).bind (exactOp op left)

/-- An operator on two integers. The arithmetic does not leave the range; the comparison does not
either, or it makes no difference that the texts are compared. -/
def Stays : Op → Bytes → Bytes → Prop
  | .arith a, l, r => FitsInt (intValue l) → FitsInt (intValue r) →
      ∀ z, a.apply (intValue l) (intValue r) = some z → FitsInt z
  | .cmp c, l, r => (FitsInt (intValue l) ∧ FitsInt (intValue r)) ∨
      c.holds (compare l r) = c.holds (compare (intValue l) (intValue r))
  | _, _, _ => True

/-- The condition on an expression: every operator that is reached, on the exact results of its
operands. -/
def InRange : Tree → Prop
  | .atom _ => True
  | .node op l r => InRange l ∧ (exact l ≠ none → InRange r) ∧
      ∀ left right, exact l = some left → exact r = some right → Stays op left right

section

variable (compile : Bytes → Except Bytes Regexp)

/-- The result of `Eval` on the printed expression, with nothing for an error. -/
def result (t : Tree) : Option Bytes := ((eval compile (t.print table 1)).map Prod.fst).toOption

/-- **The exact value or an error.** -/
def Exact (t : Tree) : Prop :=
  ∀ v, result compile t = some v → isInteger v = true ∧ value t = some (intValue v)

/-- A property of an expression and of the expressions in it that are evaluated: behind an error
nothing is. -/
def Evaluated (P : Tree → Prop) (t : Tree) : Prop :=
  t.Reached (fun _ => True) (fun _ l => result compile l ≠ none) P

end

variable {compile : Bytes → Except Bytes Regexp}

theorem result_eq (t : Tree) : result compile t = meaning compile t := eval_toOption t

/-- The result of an operator on two integers is what the operator gives for their values. -/
def Faithful (op : Op) (l r : Bytes) (z : Option Int) : Prop :=
  ∀ v, (opResult compile op l r).toOption = some v → isInteger v = true ∧ z = some (intValue v)

theorem arith_faithful_iff (a : Arith) (hl : isInteger l = true) (hr : isInteger r = true) :
    @Faithful compile (.arith a) l r (a.apply (intValue l) (intValue r)) ↔
      Stays (.arith a) l r := by
  by_cases hresult : (atoi l).2 = true ∧ (atoi r).2 = true
  · have hf := hresult.imp (atoi_snd_of_isInteger hl).mp (atoi_snd_of_isInteger hr).mp
    unfold Faithful
    rw [arith_result a hresult, (atoi_of_isInteger hl).mpr hf.1, (atoi_of_isInteger hr).mpr hf.2]
    cases happly : a.apply (intValue l) (intValue r) with
    | none => exact iff_of_true (nofun) fun _ _ z h => by rw [happly] at h; cases h
    | some z =>
      constructor
      · intro h _ _ z' hz'
        obtain ⟨-, hz⟩ := h _ rfl
        rw [intValue_itoaInt, Option.some.injEq] at hz
        obtain rfl : z = z' := Option.some.inj (happly.symm.trans hz')
        exact (wrap64_eq_self_iff z).mp hz.symm
      · rintro h v ⟨⟩
        have hz := (wrap64_eq_self_iff z).mpr (h hf.1 hf.2 z happly)
        rw [hz, intValue_itoaInt]
        exact ⟨isInteger_itoaInt z, rfl⟩
  · refine iff_of_true (fun v h => ?_) fun hfl hfr => ?_
    · rw [arith_error a hresult] at h
      cases h
    · exact absurd ⟨(atoi_snd_of_isInteger hl).mpr hfl, (atoi_snd_of_isInteger hr).mpr hfr⟩ hresult

theorem intValue_truth (b : Bool) : isInteger (truth b) = true ∧ intValue (truth b) = b.toNat := by
  cases b <;> decide

theorem cmp_faithful_iff (c : Cmp) (hl : isInteger l = true) (hr : isInteger r = true) :
    @Faithful compile (.cmp c) l r (some (c.holds (compare (intValue l) (intValue r))).toNat) ↔
      Stays (.cmp c) l r := by
  have ht : ∀ a b : Bool, (a.toNat : Int) = b.toNat ↔ b = a := by decide
  unfold Faithful Stays
  rw [opResult, cmpResult, relation_token, relation_token]
  simp only [atoi_snd_of_isInteger hl, atoi_snd_of_isInteger hr]
  split_ifs with hf
  · rw [(atoi_of_isInteger hl).mpr hf.1, (atoi_of_isInteger hr).mpr hf.2]
    refine iff_of_true ?_ (.inl hf)
    rintro v ⟨⟩
    rw [(intValue_truth _).2]
    exact ⟨(intValue_truth _).1, rfl⟩
  rw [or_iff_right hf, ← ht, ← (intValue_truth (c.holds (compare l r))).2]
  constructor
  · intro h
    exact Option.some.inj (h _ rfl).2
  · rintro h v ⟨⟩
    exact ⟨(intValue_truth _).1, congrArg some h⟩

/-- **One operator**: exact if its result stays in range. -/
theorem exact_node (hop : IsArithmetic (.node op l r)) (hl : Exact compile l)
    (hr : result compile l ≠ none → Exact compile r) :
    Exact compile (.node op l r) ↔ ∀ left right, result compile l = some left →
      result compile r = some right → Stays op left right := by
  have hne : op ≠ .colon := by
    rintro rfl
    exact hop
  unfold Exact at *
  simp only [result_eq] at *
  rw [meaning_node hne]
  cases hleft : meaning compile l with
  | none => exact iff_of_true (nofun) nofun
  | some left =>
    cases hright : meaning compile r with
    | none => exact iff_of_true (nofun) nofun
    | some right =>
      obtain ⟨hil, hvl⟩ := hl left hleft
      obtain ⟨hir, hvr⟩ := hr (hleft ▸ Option.some_ne_none left) right hright
      have hs : Stays op left right ↔ ∀ left' right', some left = some left' →
          some right = some right' → Stays op left' right' := by
        constructor
        · rintro h _ _ ⟨⟩ ⟨⟩
          exact h
        · exact fun h => h left right rfl rfl
      rw [← hs]
      cases op with
      | arith a => rw [← @arith_faithful_iff compile left right a hil hir, value, hvl, hvr]; rfl
      | cmp c => rw [← @cmp_faithful_iff compile left right c hil hir, value, hvl, hvr]; rfl
      | _ => exact hop.elim

/-- An operator that stays in range gives the exact result, or there is none and it is an error. -/
theorem opResult_of_stays (hop : IsArithmetic (.node op l r)) (hl : isInteger left = true)
    (hr : isInteger right = true) (h : Stays op left right) :
    (opResult compile op left right).toOption = exactOp op left right := by
  have hfl := atoi_snd_of_isInteger hl
  have hfr := atoi_snd_of_isInteger hr
  cases op with
  | arith a =>
    rw [exactOp]
    split_ifs with hf
    · rw [arith_result a ⟨hfl.mpr hf.1, hfr.mpr hf.2⟩, (atoi_of_isInteger hl).mpr hf.1,
        (atoi_of_isInteger hr).mpr hf.2]
      cases hz : a.apply (intValue left) (intValue right) with
      | none => rfl
      | some z =>
        rw [arithResult, (wrap64_eq_self_iff z).mpr (h hf.1 hf.2 z hz)]
        rfl
    · rw [arith_error a fun hre => hf (hre.imp hfl.mp hfr.mp)]
      rfl
  | cmp c =>
    rw [opResult, cmpResult, relation_token, relation_token, exactOp]
    simp only [hfl, hfr]
    split_ifs with hf
    · rw [(atoi_of_isInteger hl).mpr hf.1, (atoi_of_isInteger hr).mpr hf.2]
      rfl
    · rw [h.resolve_left hf]
      rfl
  | _ => exact hop.elim

theorem exact_atom {a : Atom} (h : isInteger a.text = true) :
    Exact compile (.atom a) ∧ result compile (.atom a) = some a.text := by
  have hne : a.text ≠ [] := by
    intro ha
    rw [ha] at h
    cases h
  have hr : result compile (.atom a) = some a.text := by rw [result_eq, meaning, if_neg hne]
  refine ⟨fun v hv => ?_, hr⟩
  obtain rfl : a.text = v := Option.some.inj (hr.symm.trans hv)
  exact ⟨h, rfl⟩

theorem evaluated_node (op : Op) (l r : Tree) : Evaluated compile P (.node op l r) ↔
    P (.node op l r) ∧ Evaluated compile P l ∧
      (result compile l ≠ none → Evaluated compile P r) := by
  show _ ∧ (True → _) ∧ _ ↔ _
  rw [true_imp_iff]
  rfl

theorem result_node (hop : IsArithmetic (.node op l r)) : result compile (.node op l r) =
    (result compile l).bind fun left => (result compile r).bind fun right =>
      (opResult compile op left right).toOption := by
  have hne : op ≠ .colon := by
    rintro rfl
    exact hop
  simp only [result_eq, meaning_node hne]

/-- An operator whose operands have their exact results. -/
theorem result_node_exact (hop : IsArithmetic (.node op l r)) (hl : Exact compile l)
    (hr : exact l ≠ none → Exact compile r) (hel : result compile l = exact l)
    (herr : exact l ≠ none → result compile r = exact r)
    (h : ∀ left right, exact l = some left → exact r = some right → Stays op left right) :
    result compile (.node op l r) = exact (.node op l r) := by
  rw [result_node hop, exact, hel]
  cases hleft : exact l with
  | none => rfl
  | some left =>
    have hone : exact l ≠ none := hleft ▸ Option.some_ne_none left
    rw [herr hone, Option.bind_some, Option.bind_some]
    cases hright : exact r with
    | none => rfl
    | some right =>
      exact opResult_of_stays hop (hl left (hel.trans hleft)).1
        (hr hone right ((herr hone).trans hright)).1 (h left right hleft hright)

/-- In range, every result is the exact one; and out of range one of them is not. -/
theorem inRange_iff (compile : Bytes → Except Bytes Regexp) {t : Tree} (h : t.All IsArithmetic) :
    (Evaluated compile (Exact compile) t ↔ InRange t) ∧
      (InRange t → result compile t = exact t) := by
  induction t with
  | atom a =>
    obtain ⟨hexact, hr⟩ := @exact_atom compile a h
    exact ⟨iff_of_true hexact trivial, fun _ => hr⟩
  | node op l r ihl ihr =>
    obtain ⟨hop, hl, hr⟩ := h
    obtain ⟨hiffl, hresl⟩ := ihl hl
    obtain ⟨hiffr, hresr⟩ := ihr hr
    rw [evaluated_node, hiffl, hiffr, InRange]
    by_cases hin : InRange l
    · have hel := hresl hin
      have hexl : Exact compile l := (hiffl.mpr hin).self
      rw [hel]
      by_cases hir : exact l ≠ none → InRange r
      · have hexr (hone : exact l ≠ none) : Exact compile r := (hiffr.mpr (hir hone)).self
        have herr (hone : exact l ≠ none) := hresr (hir hone)
        have hstays : Exact compile (.node op l r) ↔ ∀ left right, exact l = some left →
            exact r = some right → Stays op left right := by
          rw [exact_node hop hexl (hel.symm ▸ hexr), hel]
          refine forall₂_congr fun left right => forall_congr' fun hleft => ?_
          rw [herr (hleft ▸ Option.some_ne_none left)]
        refine ⟨⟨fun hc => ⟨hin, hir, hstays.mp hc.1⟩, fun hc => ⟨hstays.mpr hc.2.2, hin, hir⟩⟩,
            fun hc =>
          ?_⟩
        exact result_node_exact hop hexl hexr hel herr hc.2.2
      · exact ⟨iff_of_false (fun hc => hir hc.2.2) fun hc => hir hc.2.1, fun hc =>
          absurd hc.2.1 hir⟩
    · exact ⟨iff_of_false (fun hc => hin hc.2.1) fun hc => hin hc.1, fun hc => absurd hc.1 hin⟩

/-- **When no wrong number is returned**, by an expression and all expressions in it that are
evaluated: no operator leaves the range of an `int`, and no comparison of texts goes another way
than that of the numbers. -/
theorem eval_exact_iff (compile : Bytes → Except Bytes Regexp) {t : Tree}
    (h : t.All IsArithmetic) : Evaluated compile (Exact compile) t ↔ InRange t :=
  (inRange_iff compile h).1

/-- `9223372036854775807 + 1`. -/
def largestPlusOne : Tree :=
  .node (.arith .add) (.atom ⟨str "9223372036854775807", by decide⟩) (.atom ⟨str "1", by decide⟩)

/-- `1 / 0 + ( 9223372036854775807 + 1 )`. -/
def behindZero : Tree :=
  .node (.arith .add)
    (.node (.arith .div) (.atom ⟨str "1", by decide⟩) (.atom ⟨str "0", by decide⟩)) largestPlusOne

/-- The sum is out of range, unless an error comes before it. -/
theorem eval_exact_iff_largest : ¬ Evaluated noRegexp (Exact noRegexp) largestPlusOne ∧
    Evaluated noRegexp (Exact noRegexp) behindZero := by
  have hsum : largestPlusOne.All IsArithmetic := ⟨trivial, by rfl, by rfl⟩
  have hzero : behindZero.All IsArithmetic := ⟨trivial, ⟨trivial, by rfl, by rfl⟩, hsum⟩
  constructor
  · rw [eval_exact_iff noRegexp hsum]
    rintro ⟨-, -, h⟩
    have hfits := h _ _ rfl rfl (by decide) (by decide) 9223372036854775808 (by decide)
    exact absurd hfits (by decide)
  · rw [eval_exact_iff noRegexp hzero]
    have hnone : exact (.node (.arith .div) (.atom ⟨str "1", by decide⟩)
        (.atom ⟨str "0", by decide⟩)) = none := by decide
    refine ⟨⟨trivial, fun _ => trivial, ?_⟩, fun h => absurd hnone h, ?_⟩
    · rintro _ _ ⟨⟩ ⟨⟩ _ _ z hz
      have hz' : Arith.apply .div (intValue (str "1")) (intValue (str "0")) = none := by decide
      exact absurd (hz'.symm.trans hz) nofun
    · intro left _ hleft
      exact absurd (hnone.symm.trans hleft) nofun

/-- The sum wraps around, and of two integers of 20 digits the texts are compared. -/
theorem eval_wraps :
    eval noRegexp (largestPlusOne.print table 1) = .ok (str "-9223372036854775808", 0) ∧
      value largestPlusOne = some 9223372036854775808 ∧
      eval noRegexp [str "10000000000000000000", str "<", str "9223372036854775808"] =
        .ok (str "1", 0) := by
  decide +kernel

end GoPosix.Expr
