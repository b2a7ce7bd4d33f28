import GoPosix.Bc.Arithmetic
import GoPosix.Bc.Discipline

/-!
# Values and their scales

`Val.Exact` says that a number has no more digits behind its dot than its scale. Every value of a
run is exact (`run_exact`), unless the run comes to a step that is not `Step.exact`: a square root
that is not the root of a short square, since roots are not truncated; `++` or `--` of `last`, which
drops the scale of a fraction; and results with a negative scale, which come from a negative
register `scale` or from scales whose sum or product leaves the range of an `int`.
-/

namespace GoPosix.Bc

open Effects MachineInt Decimal Rounding List

/-- The number is an exact multiple of 10 to the power of its negated scale. -/
def Val.Exact : Val → Prop
  | .num r scale _ => ∃ k : ℤ, r = k * (10 : ℚ) ^ (-scale)
  | _ => True

/-- The number is a square, its root has no more than `targetScale` digits behind its dot, and the
floating point numbers of the precision that `valSqrt` asks for hold both. -/
def exactRoot (r : Rat) (targetScale : Int) : Bool :=
  let num := r.num.toNat.sqrt
  let den := r.den.sqrt
  num ^ 2 = r.num && den ^ 2 = r.den && den = 2 ^ den.log2 && den.log2 ≤ targetScale &&
    r.num < 2 ^ precision targetScale

/-- `big.Float` gives the root itself where it loses no bit. So it does if it rounds correctly
(`Rounds.eq`). -/
def ExactRoots (host : Host) : Prop :=
  ∀ p q, 0 ≤ q → IsFloat p q → IsFloat p (q ^ 2) → host.sqrt p (q ^ 2) = q

/-- A step whose result gets all the digits it has. -/
def Step.exact (s : Step) : Bool :=
  match s.prim with
  | .incDec "last" _ (.num r _ _) => r.den = 1
  | .binary .mul (.num _ aScale _) (.num _ bScale _) => aScale + bScale < 2 ^ 63
  | .binary .div _ _ => 0 ≤ s.state.scale
  | .binary .power (.num _ aScale _) (.num b _ _) =>
    if ratToInt64 b < 0 then 0 ≤ s.state.scale else aScale * ratToInt64 b < 2 ^ 63
  | .sqrt (.num r aScale _) =>
    r ≤ 0 || exactRoot r (max aScale s.state.scale)
  | _ => true

/-- A number with a scale that is not negative, and with no digits behind it. -/
def Val.Digits : Val → Prop
  | .num r scale _ => 0 ≤ scale ∧ HasDigits 10 r scale.toNat
  | _ => True

variable {v : Val}

theorem Val.Digits.exact (h : v.Digits) : v.Exact := by
  cases v with
  | num r scale n =>
    obtain ⟨hs, k, hk⟩ := h
    refine ⟨k, ?_⟩
    have hp : (10 : ℚ) ^ scale.toNat ≠ 0 := pow_ne_zero _ (by norm_num)
    rw [zpow_neg, ← Int.toNat_of_nonneg hs, zpow_natCast, ← hk]
    push_cast
    rw [mul_assoc, mul_inv_cancel₀ hp, mul_one]
  | _ => trivial

/-! ## Results -/

theorem digits_int (n : Int) : (newValNum n 0).Digits := ⟨le_refl 0, hasDigits_int n 0⟩

theorem ratTruncate_hasDigits (r : Rat) (scale : Int) :
    HasDigits 10 (ratTruncate r scale) scale.toNat := by
  unfold ratTruncate
  split
  · exact_mod_cast hasDigits_int 0 scale.toNat
  · have h := hasDigits_div (b := 10) (by decide)
      ((r * ((10 ^ scale.toNat : Int) : Rat)).num.tdiv (r * ((10 ^ scale.toNat : Int) : Rat)).den)
      scale.toNat
    push_cast at h ⊢
    exact h

theorem digits_truncated (r : Rat) (h : 0 ≤ resScale) : (truncated r resScale).Digits := by
  unfold truncated
  simp only
  split
  · next hzero =>
    rw [hzero]
    exact digits_int 0
  · exact ⟨h, ratTruncate_hasDigits r resScale⟩

theorem digits_truth (b : Bool) : (truth b).Digits := by
  cases b with
  | false => exact digits_int 0
  | true => exact digits_int 1

theorem digits_max (ha : 0 ≤ aScale) (hb : 0 ≤ bScale)
    (h : HasDigits 10 res (max aScale.toNat bScale.toNat)) :
    (newValNum res (max aScale bScale)).Digits := by
  refine ⟨le_max_of_le_left ha, ?_⟩
  have hm : (max aScale bScale).toNat = max aScale.toNat bScale.toNat := by omega
  rw [hm]
  exact h

theorem wrap64_of_range (hl : 0 ≤ z) (hh : z < 2 ^ 63) : wrap64 z = z := by
  apply Int.bmod_eq_of_le <;> omega

/-- The same for `^`, where the scales are multiplied. -/
theorem digits_power
    (hok : Step.exact ⟨.binary .power (.num a aScale aNeg) (.num b bScale bNeg), ip⟩ = true)
    (has : 0 ≤ aScale)
    (h : binaryOp ip.scale .power (.num a aScale aNeg) (.num b bScale bNeg) = .ok v) :
    v.Digits := by
  simp only [binaryOp] at h
  cases hr : ratPower a (ratToInt64 b) with
  | error e =>
    rw [hr] at h
    cases h
  | ok r =>
    rw [hr] at h
    cases h
    apply digits_truncated
    simp only [Step.exact] at hok
    split
    · exact le_refl 0
    split at hok
    · next hneg =>
      rw [if_pos hneg]
      exact of_decide_eq_true hok
    · next hneg =>
      have hp : aScale * ratToInt64 b < 2 ^ 63 := of_decide_eq_true hok
      have hn : 0 ≤ aScale * ratToInt64 b := Int.mul_nonneg has (by omega)
      rw [if_neg hneg, wrap64_of_range hn hp]
      exact le_min hn (le_max_of_le_right has)

/-- Every operator gives a multiple of the unit of its scale, if the step is exact. -/
theorem digits_binaryOp
    (hok : Step.exact ⟨.binary op lhs rhs, ip⟩ = true) (hl : lhs.Digits) (hr : rhs.Digits)
    (h : binaryOp ip.scale op lhs rhs = .ok v) : v.Digits := by
  cases lhs with
  | num a aScale an =>
    cases rhs with
    | num b bs bn =>
      obtain ⟨has, ha⟩ := hl
      obtain ⟨hbs, hb⟩ := hr
      cases op <;> simp only [binaryOp] at h
      case plus =>
        cases h
        exact digits_max has hbs (ha.add_max hb)
      case minus =>
        cases h
        exact digits_max has hbs (ha.sub_max hb)
      case mul =>
        cases h
        have hsum : aScale + bs < 2 ^ 63 := of_decide_eq_true hok
        rw [wrap64_of_range (by omega) hsum]
        exact digits_truncated _ (by omega)
      case div =>
        have hs : 0 ≤ ip.scale := of_decide_eq_true hok
        split at h
        · cases h
        · next hb =>
          rw [quo_of_ne_zero a hb] at h
          cases h
          exact digits_truncated _ hs
      case mod =>
        split at h
        · cases h
        · next hb =>
          rw [quo_of_ne_zero a hb] at h
          cases h
          -- the scale of the remainder is at least that of the dividend
          exact digits_truncated _ (le_max_of_le_right has)
      case power => exact digits_power hok has h
      case eq | ne | lt | le | gt | ge | and | or =>
        cases h
        exact digits_truth _
      all_goals cases h
    | _ => cases h
  | _ => cases h

theorem digits_unaryOp (hv : v.Digits) (h : unaryOp op v = .ok w) : w.Digits := by
  cases v with
  | num r scale n =>
    obtain ⟨hs, hr⟩ := hv
    cases op <;> simp only [unaryOp] at h
    case minus =>
      cases h
      exact ⟨hs, hr.neg⟩
    case plus =>
      cases h
      exact ⟨hs, hr⟩
    case not =>
      cases h
      refine ⟨hs, ?_⟩
      split
      · exact_mod_cast hasDigits_int 1 scale.toNat
      · exact_mod_cast hasDigits_int 0 scale.toNat
    all_goals cases h
  | _ => cases h

/-! ## Numbers of the program -/

theorem fracLoop_hasDigits (hf : HasDigits 10 fracVal j)
    (h : fracLoop 10 (10 ^ j) fracVal s = .ok r) :
    HasDigits 10 r (j + s.length) := by
  induction s generalizing j fracVal with
  | nil =>
    cases h
    exact hf
  | cons c s ih =>
    unfold fracLoop at h
    simp only at h
    split at h
    · exact (ih hf h).mono (by simp)
    have hp : ((10 ^ j * 10 : Int) : Rat) ≠ 0 := by simp
    rw [quo_of_ne_zero _ hp] at h
    have hn := ih ((hf.mono (Nat.le_succ j)).add ?_) h
    · rw [length_cons, Nat.add_comm s.length 1, ← Nat.add_assoc]
      exact hn
    · exact_mod_cast hasDigits_div (by decide) _ (j + 1)

theorem toUpper_eq_dot (c : Char) : c.toUpper = '.' ↔ c = '.' := by
  unfold Char.toUpper
  split
  · next hl =>
    have hd : c ≠ '.' := by
      rintro rfl
      exact absurd hl (by decide)
    refine iff_of_false (fun heq => ?_) hd
    have hv := congrArg UInt32.toNat (congrArg Char.val heq)
    obtain ⟨hlow, hh⟩ := hl
    rw [UInt32.le_iff_toNat_le] at hlow hh
    simp at hlow hh hv
    omega
  · rfl

theorem dotted_length (s : List Char) :
    ((if (s.map Char.toUpper).head? = some '-' ∨ (s.map Char.toUpper).head? = some '+' then
      (s.map Char.toUpper).tail else s.map Char.toUpper).dropWhile (· ≠ '.')).length =
      (s.dropWhile (· ≠ '.')).length := by
  have hm : ((s.map Char.toUpper).dropWhile (· ≠ '.')).length = (s.dropWhile (· ≠ '.')).length := by
    rw [dropWhile_map, length_map]
    congr 2
    funext c
    simp [toUpper_eq_dot]
  rw [← hm]
  generalize s.map Char.toUpper = t
  split
  · next hs =>
    cases t with
    | nil => rfl
    | cons c t =>
      have hd : c ≠ '.' := by
        rintro rfl
        simp at hs
      simp [hd]
  · rfl

/-- **A number of the program** has no more digits than its scale says. -/
theorem parseNumberInBase_hasDigits (h : parseNumberInBase s 10 = .ok r) :
    HasDigits 10 r (literalScale s).toNat := by
  have hl := dotted_length s
  unfold parseNumberInBase at h
  simp only at h
  generalize (if (s.map Char.toUpper).head? = some '-' ∨ (s.map Char.toUpper).head? = some '+' then
    (s.map Char.toUpper).tail else s.map Char.toUpper) = t at h hl
  cases hf : fracLoop 10 1 0 ((t.dropWhile (· ≠ '.')).tail.takeWhile (· ≠ '.')) with
  | error e =>
    rw [hf] at h
    cases h
  | ok fv =>
    rw [hf] at h
    have hzero : HasDigits 10 0 0 := by exact_mod_cast hasDigits_int 0 0
    have hd : HasDigits 10 fv (literalScale s).toNat := by
      apply (fracLoop_hasDigits hzero hf).mono
      have ht := (takeWhile_sublist (· ≠ '.') (l := (t.dropWhile (· ≠ '.')).tail)).length_le
      rw [length_tail, hl] at ht
      simpa [literalScale] using ht
    have hs := (hasDigits_int (intLoop 10 (decide (t.dropWhile (· ≠ '.') = [] ∧
        (((t.takeWhile (· ≠ '.')).dropWhile (· = '0')).length = 1 ∨
          ((t.takeWhile (· ≠ '.')).dropWhile (· = '0')).length = 0 ∧
            (t.takeWhile (· ≠ '.')).length = 1))) 0 (t.takeWhile (· ≠ '.')))
      (literalScale s).toNat).add hd
    cases h
    split
    · exact hs.neg
    · exact hs

/-! ## The discipline -/

theorem HasDigits.step (h : HasDigits 10 r n) (hn : nx ∈ [r + 1, r - 1]) :
    HasDigits 10 nx n := by
  have ho : HasDigits 10 1 n := by exact_mod_cast hasDigits_int 1 n
  simp only [mem_cons, not_mem_nil, or_false] at hn
  rcases hn with rfl | rfl
  · exact h.add ho
  · exact h.sub ho

/-- `++` and `--` keep the scale of a variable, and a register has none. -/
theorem digits_incDec
    (hok : Step.exact ⟨.incDec name index (ip.current name index), ip⟩ = true)
    (hc : (ip.current name index).Digits) (hr : (ip.current name index).rat = .ok r)
    (hnext : nx ∈ [r + 1, r - 1]) :
    (newValNum nx (if name ∈ ["scale", "ibase", "obase", "last"] then 0
      else (ip.current name index).scale)).Digits := by
  by_cases hn : name ∈ ["scale", "ibase", "obase", "last"]
  · rw [if_pos hn]
    refine ⟨le_refl 0, HasDigits.step ?_ hnext⟩
    simp only [mem_cons, not_mem_nil, or_false] at hn
    rcases hn with rfl | rfl | rfl | rfl
    · cases hr
      exact hasDigits_int _ _
    · cases hr
      exact hasDigits_int _ _
    · cases hr
      exact hasDigits_int _ _
    have hl : ip.current "last" index = ip.last := rfl
    rw [hl] at hok hr
    cases hv : ip.last with
    | num q scale n =>
      rw [hv] at hok hr
      cases hr
      have hd : r.den = 1 := of_decide_eq_true hok
      rw [← (Rat.den_eq_one_iff r).mp hd]
      exact hasDigits_int _ _
    | _ =>
      rw [hv] at hr
      cases hr
  · rw [if_neg hn]
    cases hv : ip.current name index with
    | num q scale n =>
      rw [hv] at hc hr
      cases hr
      exact ⟨hc.1, HasDigits.step hc.2 hnext⟩
    | _ =>
      rw [hv] at hr
      cases hr

theorem digits_length (h : builtinLength host v ip = .ok w) : w.Digits := by
  cases v with
  | num r scale i =>
    cases hl : valLength host r scale with
    | ok n =>
      simp only [builtinLength, Val.rat, Val.scale, bind, Except.bind, hl] at h
      cases h
      exact digits_int n
    | error e =>
      simp only [builtinLength, Val.rat, Val.scale, bind, Except.bind, hl] at h
      cases h
  | arrayRef a =>
    cases h
    exact digits_int _
  | _ => cases h

/-- A root without lost bits has the digits of its scale. -/
theorem exactRoot_hasDigits (hroots : ExactRoots host) (h : exactRoot r t = true) :
    HasDigits 10 (host.sqrt (precision t) r) t.toNat := by
  simp only [exactRoot, Bool.and_eq_true, decide_eq_true_eq] at h
  obtain ⟨⟨⟨⟨hnum, hden⟩, hpow⟩, hplaces⟩, hbits⟩ := h
  generalize r.num.toNat.sqrt = num at hnum
  generalize r.den.sqrt = den at hden hpow hplaces
  generalize den.log2 = places at hpow hplaces
  have hroot : r = (num / den : ℚ) ^ 2 := by
    rw [div_pow, ← Rat.num_div_den r, ← hnum, ← hden]
    push_cast
    rfl
  have hfloat : (num / den : ℚ) = (num : ℤ) * 2 ^ (-places : ℤ) := by
    rw [hpow, zpow_neg, zpow_natCast, div_eq_mul_inv]
    push_cast
    rfl
  have hsquare : (num : ℤ) ^ 2 < 2 ^ precision t := hnum ▸ hbits
  have hsmall : (num : ℤ) ≤ num ^ 2 := by exact_mod_cast Nat.le_self_pow two_ne_zero num
  rw [hroot, hroots _ _ (by positivity)]
  · obtain ⟨extra, hextra⟩ := Int.le.dest hplaces
    refine ⟨num * 5 ^ places * 10 ^ extra, ?_⟩
    rw [← hextra, ← Int.natCast_add, Int.toNat_natCast, hpow, pow_add]
    push_cast
    rw [(by norm_num : (10 : ℚ) ^ places = (2 * 5) ^ places), mul_pow]
    field_simp
  · exact ⟨num, -places, by rw [Nat.abs_cast]; omega, hfloat⟩
  · refine ⟨num ^ 2, -places + -places, by rwa [abs_of_nonneg (by positivity)], ?_⟩
    rw [hfloat, zpow_add₀ two_ne_zero]
    push_cast
    ring

/-- The same for `sqrt`, of which exact roots are assumed. -/
theorem digits_sqrt (hroots : ExactRoots host) (hok : Step.exact ⟨.sqrt v, ip⟩ = true)
    (hv : v.Digits) (h : builtinSqrt host v ip = .ok w) : w.Digits := by
  cases v with
  | num r scale n =>
    have hs : 0 ≤ max scale ip.scale := le_max_of_le_left hv.1
    simp only [builtinSqrt, Val.rat, valSqrt, bind, Except.bind] at h
    by_cases hn : r < 0
    · rw [if_pos hn] at h
      cases h
    rw [if_neg hn] at h
    by_cases hzero : r = 0
    · rw [if_pos hzero] at h
      cases h
      exact ⟨hs, by exact_mod_cast hasDigits_int 0 _⟩
    · rw [if_neg hzero] at h
      cases h
      have hpos : ¬ r ≤ 0 := fun hle => hn (lt_of_le_of_ne hle hzero)
      simp only [Step.exact, hpos, decide_false, Bool.false_or] at hok
      exact ⟨hs, exactRoot_hasDigits hroots hok⟩
  | _ => cases h

/-- The steps whose results have the digits of their scale, with the numbers of the program read in
base 10. -/
def exactValues (hroots : ExactRoots host) : Discipline host where
  ok s := s.exact = true ∧ ∀ val, s.prim = .literal val → s.state.ibase = 10
  strict := False
  val v := v.Digits
  regs _ _ _ := True
  frame := .any _
  int := digits_int
  notNum v hv := by
    cases v with
    | num r scale isNeg => cases hv
    | _ => trivial
  value _ := ⟨rfl, nofun⟩
  arrayRef h := h.elim
  write h := h.elim
  writeScale _ _ := trivial
  writeIbase _ _ := trivial
  writeObase _ _ := trivial
  literal {s ip} _ := does_lax fun hok r hr =>
    ⟨Int.natCast_nonneg _, parseNumberInBase_hasDigits (hok.2 s rfl ▸ hr)⟩
  index := does_lax fun _ _ _ => trivial
  incDec _ hcurr := does_lax fun hok r hr next hnext =>
    digits_incDec hok.1 hcurr hr hnext
  binary _ hlhs hrhs := does_lax fun hok v hv => digits_binaryOp hok.1 hlhs hrhs hv
  unary hv hw := digits_unaryOp hv hw
  length _ := does_lax fun _ w hw => digits_length hw
  sqrt _ hv := does_lax fun hok w hw => digits_sqrt hroots hok.1 hv hw
  format _ := does_lax fun _ _ _ => trivial

/-- **Values are exact.** In a run in base 10 with exact steps, every value is a multiple of 10 to
its negated scale. -/
theorem run_exact (hroots : ExactRoots host) (fuel : Nat) (program : List Char)
    (stdin : Option Stdin)
    (mathLib : Bool) (hibase : ∀ s ∈ steps host fuel program stdin mathLib, s.state.ibase = 10)
    (hexact : ∀ s ∈ steps host fuel program stdin mathLib, s.exact = true) :
    ∀ s ∈ steps host fuel program stdin mathLib, ∀ v, s.prim = .value v → v.Exact := by
  rcases (exactValues hroots).run_sound fuel program stdin mathLib trivial with hf | hb
  · intro s hs v hv
    exact Val.Digits.exact ((hf.steps s hs).val v hv)
  · obtain ⟨s, hs, hn⟩ := hb.step
    exact absurd ⟨hexact s hs, fun _ _ => hibase s hs⟩ hn

/-- A host that takes the roots of squares. -/
def squareHost : Host :=
  { plainHost with sqrt := fun _ r => (r.num.toNat.sqrt : Rat) / r.den.sqrt }

theorem exactRoots_squareHost : ExactRoots squareHost := by
  intro p q h0 _ _
  obtain ⟨n, hn⟩ := Int.eq_ofNat_of_zero_le (Rat.num_nonneg.mpr h0)
  change (((q ^ 2).num.toNat.sqrt : ℕ) : ℚ) / ((q ^ 2).den.sqrt : ℕ) = q
  rw [Rat.num_pow, Rat.den_pow, hn, ← Int.natCast_pow, Int.toNat_natCast, Nat.sqrt_eq',
    Nat.sqrt_eq',
    ← Int.cast_natCast, ← hn, Rat.num_div_den]

/-- Quotients, products, powers and remainders under a scale, and the root of a square. -/
def exactProgram : List Char :=
  "scale = 3; x = 2 / 3; y = x * x + 1.25; y % x; x ^ 3; x--; sqrt(2.25)".toList

theorem run_exact_exactProgram : (steps squareHost 12 exactProgram none false).all
        (fun s => s.state.ibase = 10 && s.exact) = true ∧
      ∀ s ∈ steps squareHost 12 exactProgram none false, ∀ v, s.prim = .value v → v.Exact := by
  have hall : (steps squareHost 12 exactProgram none false).all
      (fun s => s.state.ibase = 10 && s.exact) = true := by
    decide +kernel
  have hboth := fun s hs => Bool.and_eq_true_iff.mp (all_eq_true.mp hall s hs)
  exact ⟨hall, run_exact exactRoots_squareHost 12 exactProgram none false
    (fun s hs => of_decide_eq_true (hboth s hs).1) fun s hs => (hboth s hs).2⟩

/-- **A square root is not truncated**: `sqrt(2)` has the scale 0 and is not an integer. -/
theorem run_inexact_sqrt : Rounds 256 2 (rootHost.sqrt 256 2) ∧
    ∃ s ∈ steps rootHost 12 "sqrt(2)".toList none false, ∃ v, s.prim = .value v ∧ ¬ v.Exact := by
  have hmem : Prim.value (.num rootTwo 0 false)
      ∈ (steps rootHost 12 "sqrt(2)".toList none false).map (·.prim) := by
    decide +kernel
  obtain ⟨s, hs, hprim⟩ := mem_map.mp hmem
  refine ⟨rounds_rootTwo, s, hs, _, hprim, ?_⟩
  rintro ⟨k, hk⟩
  have hden : rootTwo.den = 1 := by
    rw [hk, neg_zero, zpow_zero, mul_one]
    exact Rat.den_intCast k
  exact absurd hden (by decide +kernel)

end GoPosix.Bc
