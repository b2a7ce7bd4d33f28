import GoPosix.Bc.Discipline

/-!
# When bc panics

Four steps take the rational of a value without a look at its type: an index, `++` and `--`,
`length()` and `sqrt()`. A number of 1 or more is formatted by divisions by `obase`, which may be 0.
These are the `faulty` steps, and a run panics if and only if it comes to one (`run_ne_panic_iff`):
`ibase` is never 0, the power of a number that is not 0 can be inverted, and `last` is always a
number.
-/

namespace GoPosix.Bc

open Effects

def Step.faulty (s : Step) : Bool :=
  match s.prim with
  | .index val => !val.isNum
  | .incDec _ _ curr => !curr.isNum
  | .length (.num _ _ _) => false
  | .length (.arrayRef _) => false
  | .length _ => true
  | .sqrt val => !val.isNum
  | .format (.num r _ _) => s.state.obase = 0 && 1 ≤ |r|
  | _ => false

/-! ## Arithmetic -/

theorem powerLoop_ne_zero (f : Nat) (e : Int) (hb : base ≠ 0)
    (hr : r ≠ 0) : powerLoop f e base r ≠ 0 := by
  induction f generalizing e base r with
  | zero => exact hr
  | succ f ih =>
    unfold powerLoop
    split
    · apply ih
      · exact mul_ne_zero hb hb
      · split
        · exact mul_ne_zero hr hb
        · exact hr
    · exact hr

theorem ratPower_ok (r : Rat) (e : Int) : ∃ res, ratPower r e = .ok res := by
  unfold ratPower
  split
  · exact ⟨_, rfl⟩
  · split
    · split
      · exact ⟨_, rfl⟩
      · next hr => exact ⟨_, quo_of_ne_zero 1 (powerLoop_ne_zero 64 _ hr one_ne_zero)⟩
    · exact ⟨_, rfl⟩

theorem fracLoop_ok (hi : i ≠ 0) (hp : power ≠ 0) (fv : Rat)
    (s : List Char) : ∃ r, fracLoop i power fv s = .ok r := by
  induction s generalizing power fv with
  | nil => exact ⟨_, rfl⟩
  | cons c s ih =>
    unfold fracLoop
    simp only
    split
    · exact ih hp _
    · have hn : power * i ≠ 0 := mul_ne_zero hp hi
      rw [quo_of_ne_zero _ (Int.cast_ne_zero.mpr hn)]
      exact ih hn _

theorem parseNumberInBase_ok (s : List Char) (hi : i ≠ 0) :
    ∃ r, parseNumberInBase s i = .ok r := by
  unfold parseNumberInBase
  simp only
  obtain ⟨fv, hf⟩ := fracLoop_ok hi one_ne_zero 0
    ((((if (s.map Char.toUpper).head? = some '-' ∨ (s.map Char.toUpper).head? = some '+' then
      (s.map Char.toUpper).tail else s.map Char.toUpper).dropWhile (· ≠ '.')).tail).takeWhile
        (· ≠ '.'))
  rw [hf]
  exact ⟨_, rfl⟩

theorem binaryOp_ne_panic (scale : Int) (op : TokenType) (l r : Val) :
    binaryOp scale op l r ≠ .error .panic := by
  unfold binaryOp
  split
  · split
    case h_4 | h_5 =>
      split
      · exact error_ne_panic _
      · next hb =>
        rw [quo_of_ne_zero _ hb]
        exact ok_ne_panic _
    case h_6 a _ _ b _ _ _ =>
      obtain ⟨res, hres⟩ := ratPower_ok a (ratToInt64 b)
      simp only [hres]
      exact ok_ne_panic _
    case h_15 => exact error_ne_panic _
    all_goals exact ok_ne_panic _
  · exact error_ne_panic _

/-! ## Formatting -/

theorem digitLoop_ne_panic (ho : o ≠ 0) (f : Nat) (t : Int) :
    digitLoop o f t ≠ .error .panic := by
  induction f generalizing t with
  | zero => exact nofun
  | succ f ih =>
    unfold digitLoop
    split
    · exact (bind_panic_iff fun _ => ok_ne_panic _).not.mpr (ih _)
    · exact ok_ne_panic _

/-- The part of a number before its dot is 0 if and only if the number is less than 1. -/
theorem intPart_pos_iff (r : Rat) : 0 < |r|.num / (|r|.den : Int) ↔ 1 ≤ |r| := by
  have hd : (0 : Int) < |r|.den := Int.natCast_pos.mpr |r|.den_pos
  have hdiv : 0 < |r|.num / (|r|.den : Int) ↔ (|r|.den : Int) ≤ |r|.num := by
    have h := Int.le_ediv_iff_mul_le hd (a := 1) (b := |r|.num)
    rw [one_mul] at h
    exact h
  rw [hdiv, Rat.le_iff]
  simp

/-- **`formatRat` panics** for a number of 1 or more in base 0, and for no other one. -/
theorem formatRat_panic_iff (host : Host) (r : Rat) (o scale : Int) (fn : Bool) :
    formatRat host r o scale fn = .error .panic ↔ o = 0 ∧ 1 ≤ |r| := by
  unfold formatRat
  split
  · next hr =>
    subst hr
    simp
  · simp only
    rw [← intPart_pos_iff r]
    generalize |r|.num / (|r|.den : Int) = intPart
    have hd : digitLoop o (intPart.natAbs.log2 + 2) intPart = .error .panic ↔ o = 0 ∧
        0 < intPart := by
      constructor
      · intro hp
        have hzero : o = 0 := by
          by_contra hne
          exact digitLoop_ne_panic hne _ _ hp
        refine ⟨hzero, ?_⟩
        by_contra hn
        unfold digitLoop at hp
        rw [if_neg hn] at hp
        cases hp
      · rintro ⟨rfl, hpos⟩
        unfold digitLoop
        rw [if_pos hpos, if_pos rfl]
    rw [← hd]
    apply bind_panic_iff
    intro d
    -- the number of digits behind the dot, and whether there is a dot
    split <;> split <;> exact ok_ne_panic _

theorem valLength_ne_panic (host : Host) (r : Rat) (scale : Int) :
    valLength host r scale ≠ .error .panic := by
  unfold valLength
  split
  · exact ok_ne_panic _
  · refine (bind_panic_iff fun _ => ok_ne_panic _).not.mpr fun hp => ?_
    have hzero := ((formatRat_panic_iff host r 10 scale (r < 0)).mp hp).1
    exact absurd hzero (by decide)

theorem valSqrt_ne_panic (host : Host) (r : Rat) (x gs : Int) :
    valSqrt host r x gs ≠ .error .panic := by
  unfold valSqrt
  split
  · exact error_ne_panic _
  · split <;> exact ok_ne_panic _

/-! ## The discipline -/

theorem does_of_iff (h : x = .error .panic ↔ s.faulty = true) :
    Does (fun s => s.faulty = false) True (fun _ => True) s x :=
  ⟨fun hok => ⟨fun _ _ => trivial, fun _ hp => by simp [h.mp hp] at hok⟩, fun _ hn =>
    h.mpr (by simpa using hn)⟩

theorem does_of_ne_panic (hs : s.faulty = false)
    (h : x ≠ .error .panic) : Does (fun s => s.faulty = false) True (fun _ => True) s x :=
  does_of_iff ⟨fun hp => absurd hp h, fun hf => by simp [hs] at hf⟩

theorem rat_panic_iff (v : Val) : v.rat = .error .panic ↔ v.isNum = false := by
  cases v with
  | num r scale n => exact iff_of_false (ok_ne_panic r) Bool.noConfusion
  | _ => exact ⟨fun _ => rfl, fun _ => rfl⟩

/-- The steps that do not panic, with a base that is not 0 to read numbers in. -/
def noFaults (host : Host) : Discipline host where
  ok s := s.faulty = false
  strict := True
  val _ := True
  regs _ ibase _ := ibase ≠ 0
  frame := .any _
  int _ := trivial
  notNum _ _ := trivial
  value _ := rfl
  arrayRef _ := rfl
  write _ := rfl
  writeScale h _ := h
  writeIbase _ _ := by
    unfold clampIbase
    split
    · decide
    · split
      · decide
      · omega
  writeObase h _ := h
  literal h := by
    obtain ⟨res, hres⟩ := parseNumberInBase_ok _ h.regs
    rw [hres]
    exact does_of_ne_panic rfl (ok_ne_panic res)
  index {v _} := does_of_iff ((rat_panic_iff v).trans (by simp [Step.faulty]))
  incDec {name index ip} _ _ := by
    have h := does_of_iff (s := ⟨.incDec name index (ip.current name index), ip⟩)
      ((rat_panic_iff (ip.current name index)).trans (by simp [Step.faulty]))
    exact ⟨fun hok => ⟨fun _ _ _ _ => trivial, (h.1 hok).2⟩, h.2⟩
  binary _ _ _ := does_of_ne_panic rfl (binaryOp_ne_panic _ _ _ _)
  unary _ _ := trivial
  length {v ip} _ := by
    cases v with
    | num r scale isNeg =>
      apply does_of_ne_panic rfl
      exact (bind_panic_iff fun _ => ok_ne_panic _).not.mpr (valLength_ne_panic host r scale)
    | arrayRef addr => exact does_of_ne_panic rfl (ok_ne_panic _)
    | _ => exact does_of_iff ⟨fun _ => rfl, fun _ => rfl⟩
  sqrt {v ip} _ _ := by
    cases v with
    | num r scale isNeg =>
      apply does_of_ne_panic rfl
      exact (bind_panic_iff fun _ => ok_ne_panic _).not.mpr (valSqrt_ne_panic host r scale ip.scale)
    | _ => exact does_of_iff ⟨fun _ => rfl, fun _ => rfl⟩
  format {r scale isNeg ip} _ :=
    does_of_iff ((formatRat_panic_iff host r ip.obase scale isNeg).trans (by simp [Step.faulty]))

/-- **When bc panics.** A run does not panic if and only if none of its steps is faulty. -/
theorem run_ne_panic_iff (host : Host) (fuel : Nat) (program : List Char) (stdin : Option Stdin)
    (mathLib : Bool) : (run host fuel program stdin mathLib).1 ≠ .error .panic ↔
      ∀ s ∈ steps host fuel program stdin mathLib, s.faulty = false := by
  have hr : (noFaults host).regs (if mathLib then 20 else 0) 10 10 := by
    change (10 : Int) ≠ 0
    decide
  rcases (noFaults host).run_sound fuel program stdin mathLib hr with hf | hb
  · exact ⟨fun _ s hs => (hf.steps s hs).ok, fun _ => hf.noPanic trivial⟩
  · obtain ⟨s, hs, hn⟩ := hb.step
    exact ⟨fun hne => absurd (hb.panic trivial) hne, fun hall => absurd (hall s hs) hn⟩

def lengthProgram : List Char := "length(\"a\")".toList

/-- **A text has no rational.** -/
theorem run_panics_length : (run plainHost 12 lengthProgram none false).1 = .error .panic := by
  decide +kernel

example : ((steps plainHost 12 "obase = 0; 1".toList none false).map (·.faulty)).getLast? =
    some true := by
  decide +kernel

end GoPosix.Bc
