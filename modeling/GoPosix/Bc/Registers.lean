import GoPosix.Bc.Discipline

/-!
# The registers `ibase`, `obase` and `scale`

`ibase` is limited to the bases from 2 to 36 wherever it is set; `obase` and `scale` take what they
are given. As long as that is a base of 2 or more and a scale of 0 or more, the registers stay in
their ranges in every state of a run, and the digits of every number come to an end
(`run_registers`). In base 1 they do not (`digitLoop_one`).
-/

namespace GoPosix.Bc

open Effects

def Interp.RegistersValid (ip : Interp) : Prop :=
  2 ≤ ip.ibase ∧ ip.ibase ≤ 36 ∧ 2 ≤ ip.obase ∧ 0 ≤ ip.scale

/-- A step that does not set `obase` below 2 or `scale` below 0. -/
def Step.inRange (s : Step) : Bool :=
  match s.prim with
  | .write "obase" none (.num r _ _) => 2 ≤ ratToInt64 r
  | .write "scale" none (.num r _ _) => 0 ≤ ratToInt64 r
  | _ => true

theorem clampIbase_range (n : Int) : 2 ≤ clampIbase n ∧ clampIbase n ≤ 36 := by
  unfold clampIbase
  split
  · decide
  · split
    · decide
    · omega

/-- The steps that keep the registers in their ranges. -/
def rangedRegisters (host : Host) : Discipline host where
  ok s := s.inRange = true
  strict := False
  val _ := True
  regs scale ibase obase := 2 ≤ ibase ∧ ibase ≤ 36 ∧ 2 ≤ obase ∧ 0 ≤ scale
  frame := .any _
  int _ := trivial
  notNum _ _ := trivial
  value _ := rfl
  arrayRef h := h.elim
  write h := h.elim
  writeScale h hok := ⟨h.1, h.2.1, h.2.2.1, of_decide_eq_true hok⟩
  writeIbase h _ := ⟨(clampIbase_range _).1, (clampIbase_range _).2, h.2.2⟩
  writeObase h hok := ⟨h.1, h.2.1, of_decide_eq_true hok, h.2.2.2⟩
  literal _ := does_lax fun _ _ _ => trivial
  index := does_lax fun _ _ _ => trivial
  incDec _ _ := does_lax fun _ _ _ _ _ => trivial
  binary _ _ _ := does_lax fun _ _ _ => trivial
  unary _ _ := trivial
  length _ := does_lax fun _ _ _ => trivial
  sqrt _ _ := does_lax fun _ _ _ => trivial
  format _ := does_lax fun _ _ _ => trivial

/-! ## The digits come to an end -/

theorem formatRat_ne_timeout (host : Host) (r : Rat) (ho : obase ≠ 1) (scale : Int)
    (fn : Bool) : formatRat host r obase scale fn ≠ .error .timeout := by
  unfold formatRat
  split
  · exact nofun
  simp only
  generalize |r|.num / (|r|.den : Int) = intPart
  have hlt : intPart < 2 ^ (intPart.natAbs.log2 + 1) := by
    have hl : intPart.natAbs < 2 ^ (intPart.natAbs.log2 + 1) := Nat.lt_log2_self
    exact_mod_cast lt_of_le_of_lt Int.le_natAbs (Int.ofNat_lt.mpr hl)
  have hd := digitLoop_ne_timeout ho hlt
  intro heq
  generalize digitLoop obase (intPart.natAbs.log2 + 1 + 1) intPart = o at hd heq
  cases o with
  | error e =>
    cases heq
    exact hd rfl
  | ok d =>
    simp only [bind, Except.bind] at heq
    split at heq <;> split at heq <;> cases heq

theorem digitLoop_one (h : 0 < temp) (f : Nat) : digitLoop 1 f temp = .error .timeout := by
  induction f with
  | zero => rfl
  | succ f ih =>
    unfold digitLoop
    rw [if_pos h, if_neg one_ne_zero, Int.ediv_one, ih]
    rfl

/-! ## Runs -/

/-- **The registers stay in their ranges** in every state of a run, and every number can be printed,
if no step sets `obase` below 2 or `scale` below 0. -/
theorem run_registers (host : Host) (fuel : Nat) (program : List Char) (stdin : Option Stdin)
    (mathLib : Bool) (hsteps : ∀ s ∈ steps host fuel program stdin mathLib, s.inRange = true) :
    ∀ ip ∈ (run host fuel program stdin mathLib).2 ::
      (steps host fuel program stdin mathLib).map (·.state),
      ip.RegistersValid ∧ ∀ r scale isNeg, formatRat host r ip.obase scale isNeg ≠
          .error .timeout := by
  have hr : (rangedRegisters host).regs (if mathLib then 20 else 0) 10 10 := by
    refine ⟨by decide, by decide, by decide, ?_⟩
    split <;> decide
  have hv : ∀ ip ∈ (run host fuel program stdin mathLib).2 ::
      (steps host fuel program stdin mathLib).map (·.state), ip.RegistersValid := by
    rcases (rangedRegisters host).run_sound fuel program stdin mathLib hr with hf | hb
    · refine List.forall_mem_cons.mpr ⟨hf.inv.regs, fun ip hip => ?_⟩
      obtain ⟨s, hs, rfl⟩ := List.mem_map.mp hip
      exact (hf.steps s hs).inv.regs
    · obtain ⟨s, hs, hn⟩ := hb.step
      exact absurd (hsteps s hs) hn
  intro ip hip
  obtain ⟨hl, hh, ho, hscale⟩ := hv ip hip
  exact ⟨⟨hl, hh, ho, hscale⟩, fun r scale isNeg =>
    formatRat_ne_timeout host r (by omega) scale isNeg⟩

/-- The registers are set, too low and too high for `ibase`, and stepped. -/
def registersProgram : List Char :=
  "obase = 16; scale = 3; ibase = 50; ++scale; obase--; 2 / 3".toList

theorem run_registers_registersProgram :
    (steps plainHost 12 registersProgram none false).all (·.inRange) = true ∧
      ∀ ip ∈ (run plainHost 12 registersProgram none false).2 ::
          (steps plainHost 12 registersProgram none false).map (·.state),
        ip.RegistersValid ∧ ∀ r scale isNeg, formatRat plainHost r ip.obase scale isNeg ≠
            .error .timeout := by
  have hall : (steps plainHost 12 registersProgram none false).all (·.inRange) = true := by
    decide +kernel
  exact ⟨hall, run_registers plainHost 12 registersProgram none false (List.all_eq_true.mp hall)⟩

/-- **`obase` takes a 1**, and behind it the digits of a number have no end. -/
theorem run_obase_one : ¬ (run plainHost 12 "obase = 1".toList none false).2.RegistersValid ∧
      ∀ fuel, digitLoop (run plainHost 12 "obase = 1".toList none false).2.obase fuel 1 =
          .error .timeout := by
  have ho : (run plainHost 12 "obase = 1".toList none false).2.obase = 1 := by decide +kernel
  constructor
  · rintro ⟨-, -, h, -⟩
    rw [ho] at h
    exact absurd h (by decide)
  · intro fuel
    rw [ho]
    exact digitLoop_one one_pos fuel

end GoPosix.Bc
