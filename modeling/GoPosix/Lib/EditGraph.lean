import Mathlib.Data.List.Basic
import Mathlib.Tactic.Ring

/-!
# The edit graph of two sequences

At the point `(x, y)`, `x` elements of `a` and `y` elements of `b` have been consumed. A step to the
right deletes an element of `a`, a step down inserts an element of `b`, and a diagonal step keeps an
element that both have.

`Reach a b d x y`: some path from the origin to `(x, y)` has exactly `d` steps that are not
diagonal. It may go past the ends of the sequences: a greedy search over diagonals does not clip its
points, and `Reach.clamp` makes that harmless.

`Furthest a b d k x` is what the greedy search computes: `x` is the largest abscissa on diagonal `k`
that such a path can reach. `Furthest.zero` and `Furthest.succ` are its two introduction rules.
-/

namespace EditGraph

open List

variable {α : Type}

/-- Position `x` of `a` and position `y` of `b` hold the same element. -/
def Matches (a b : List α) (x y : Nat) : Prop := ∃ c, a[x]? = some c ∧ b[y]? = some c

/-- `(x, y)` is the end of a path from the origin with `d` non-diagonal steps. -/
inductive Reach (a b : List α) : Nat → Nat → Nat → Prop
  | start : Reach a b 0 0 0
  | right {d x y} : Reach a b d x y → Reach a b (d + 1) (x + 1) y
  | down {d x y} : Reach a b d x y → Reach a b (d + 1) x (y + 1)
  | diag {d x y} : Reach a b d x y → Matches a b x y → Reach a b d (x + 1) (y + 1)

variable {a b : List α} {d x y : Nat}

theorem Matches.lt_left (h : Matches a b x y) : x < a.length := by
  obtain ⟨c, ha, _⟩ := h
  exact (List.getElem?_eq_some_iff.mp ha).1

theorem Matches.lt_right (h : Matches a b x y) : y < b.length := by
  obtain ⟨c, _, hb⟩ := h
  exact (List.getElem?_eq_some_iff.mp hb).1

/-! ## Where a path with `d` steps can end -/

/-- A path with `d` non-diagonal steps ends on a diagonal between `-d` and `d`, of the parity
of `d`. -/
theorem Reach.diagonal (h : Reach a b d x y) : x ≤ y + d ∧ y ≤ x + d ∧ (x + y + d) % 2 = 0 := by
  induction h with
  | start => omega
  | right _ ih => omega
  | down _ ih => omega
  | diag _ _ ih => omega

theorem Reach.rights (h : Reach a b d x y) (i : Nat) : Reach a b (d + i) (x + i) y := by
  induction i with
  | zero => exact h
  | succ i ih => exact ih.right

theorem Reach.downs (h : Reach a b d x y) (i : Nat) : Reach a b (d + i) x (y + i) := by
  induction i with
  | zero => exact h
  | succ i ih => exact ih.down

theorem Reach.snake (h : Reach a b d x y) (l : Nat)
    (hm : ∀ i < l, Matches a b (x + i) (y + i)) : Reach a b d (x + l) (y + l) := by
  induction l with
  | zero => exact h
  | succ l ih =>
    have hl : Reach a b d (x + l) (y + l) := ih (fun i hi => hm i (by omega))
    exact hl.diag (hm l (by omega))

/-- **Clamping.** Steps past the end of either sequence are wasted: leaving them out gives a
cheaper path to the clamped point. -/
theorem Reach.clamp (h : Reach a b d x y) : ∃ e, e + (x - a.length) + (y - b.length) = d ∧
      Reach a b e (min x a.length) (min y b.length) := by
  induction h with
  | start => exact ⟨0, by omega, by simpa using Reach.start⟩
  | @right d x y _ ih =>
    obtain ⟨e, he, hr⟩ := ih
    by_cases hx : x < a.length
    · refine ⟨e + 1, by omega, ?_⟩
      rw [Nat.min_eq_left (by omega : x ≤ a.length)] at hr
      rw [Nat.min_eq_left (by omega : x + 1 ≤ a.length)]
      exact hr.right
    · refine ⟨e, by omega, ?_⟩
      rw [Nat.min_eq_right (by omega : a.length ≤ x)] at hr
      rw [Nat.min_eq_right (by omega : a.length ≤ x + 1)]
      exact hr
  | @down d x y _ ih =>
    obtain ⟨e, he, hr⟩ := ih
    by_cases hy : y < b.length
    · refine ⟨e + 1, by omega, ?_⟩
      rw [Nat.min_eq_left (by omega : y ≤ b.length)] at hr
      rw [Nat.min_eq_left (by omega : y + 1 ≤ b.length)]
      exact hr.down
    · refine ⟨e, by omega, ?_⟩
      rw [Nat.min_eq_right (by omega : b.length ≤ y)] at hr
      rw [Nat.min_eq_right (by omega : b.length ≤ y + 1)]
      exact hr
  | @diag d x y _ hm ih =>
    obtain ⟨e, he, hr⟩ := ih
    have hx := hm.lt_left
    have hy := hm.lt_right
    refine ⟨e, by omega, ?_⟩
    rw [Nat.min_eq_left (by omega : x ≤ a.length), Nat.min_eq_left (by omega : y ≤ b.length)] at hr
    rw [Nat.min_eq_left (by omega : x + 1 ≤ a.length),
      Nat.min_eq_left (by omega : y + 1 ≤ b.length)]
    exact hr.diag hm

/-! ## Common subsequences are paths -/

/-- A list that starts with `c` and is a subsequence of what is left of `a` after `x` pins down
an occurrence of `c` at or after `x`. -/
theorem exists_getElem?_of_cons_sublist (h : (c :: l).Sublist (a.drop x)) :
    ∃ i, a[x + i]? = some c ∧ l.Sublist (a.drop (x + i + 1)) := by
  obtain ⟨r₁, r₂, hr, hc, hl⟩ := cons_sublist_iff.mp h
  obtain ⟨i, hi, hci⟩ := getElem_of_mem hc
  refine ⟨i, ?_, ?_⟩
  · rw [← List.getElem?_drop, hr, List.getElem?_append_left hi, List.getElem?_eq_getElem hi, hci]
  · have hd : a.drop (x + i + 1) = r₁.drop (i + 1) ++ r₂ := by
      rw [Nat.add_assoc, ← drop_drop, hr, drop_append_of_le_length (by omega)]
    rw [hd]
    exact hl.trans (sublist_append_right _ _)

/-- From any point, a common subsequence of what is left can be walked along its diagonal
steps; every other element costs one step. -/
theorem Reach.of_sublist_drop (l : List α) : ∀ {d x y : Nat}, Reach a b d x y →
    x ≤ a.length → y ≤ b.length → l.Sublist (a.drop x) → l.Sublist (b.drop y) →
    ∃ e, e + 2 * l.length = (a.length - x) + (b.length - y) ∧
      Reach a b (d + e) a.length b.length := by
  induction l with
  | nil =>
    intro d x y h hx hy _ _
    refine ⟨(a.length - x) + (b.length - y), by simp, ?_⟩
    have h₁ := (h.rights (a.length - x)).downs (b.length - y)
    rw [Nat.add_sub_cancel' hx, Nat.add_sub_cancel' hy, Nat.add_assoc] at h₁
    exact h₁
  | cons c l ih =>
    intro d x y h hx hy hla hlb
    obtain ⟨i, hai, hla'⟩ := exists_getElem?_of_cons_sublist hla
    obtain ⟨j, hbj, hlb'⟩ := exists_getElem?_of_cons_sublist hlb
    have hm : Matches a b (x + i) (y + j) := ⟨c, hai, hbj⟩
    have hx' := hm.lt_left
    have hy' := hm.lt_right
    obtain ⟨e, he, hr⟩ := ih (((h.rights i).downs j).diag hm) (by omega) (by omega) hla' hlb'
    refine ⟨i + j + e, by simp only [length_cons]; omega, ?_⟩
    rw [show d + (i + j + e) = d + i + j + e by omega]
    exact hr

/-- **Common subsequences bound the distance from above**: a common subsequence of length `l`
gives a path across the whole graph with `|a| + |b| - 2 l` non-diagonal steps. -/
theorem Reach.of_common_sublist {l : List α} (hla : l.Sublist a) (hlb : l.Sublist b) :
    ∃ d, d + 2 * l.length = a.length + b.length ∧ Reach a b d a.length b.length := by
  obtain ⟨e, he, hr⟩ := Reach.of_sublist_drop l Reach.start
    (Nat.zero_le _) (Nat.zero_le _) (by simpa using hla) (by simpa using hlb)
  exact ⟨e, by omega, by simpa using hr⟩

/-! ## Furthest-reaching points -/

/-- `x` is the furthest abscissa on diagonal `k` reachable with `d` non-diagonal steps. -/
structure Furthest (a b : List α) (d : Nat) (k x : Int) : Prop where
  reach : ∃ X Y : Nat, (X : Int) = x ∧ (X : Int) - Y = k ∧ Reach a b d X Y
  le : ∀ X Y : Nat, Reach a b d X Y → (X : Int) - Y = k → (X : Int) ≤ x

theorem Furthest.unique (h : Furthest a b d k x) (h' : Furthest a b d k x') : x = x' := by
  obtain ⟨X, Y, r, hk, hr⟩ := h.reach
  obtain ⟨X', Y', r, hk', hr'⟩ := h'.reach
  have h₁ := h.le X' Y' hr' hk'
  have h₂ := h'.le X Y hr hk
  omega

/-- A path that ends on the diagonal of a maximal run of matches, and starts that diagonal no
further than the run does, ends no further than the run does. -/
theorem Reach.le_snake_end (hr : Reach a b d X Y)
    (hk : (X : Int) - Y = (x : Int) - y) (hmatches : ¬ Matches a b (x + l) (y + l))
    (hright : ∀ X Y e, Reach a b e X Y → e + 1 = d → (X : Int) - Y = (x : Int) - y - 1 → X + 1 ≤ x)
    (hd : ∀ X Y e, Reach a b e X Y → e + 1 = d → (X : Int) - Y = (x : Int) - y + 1 → X ≤ x) :
    X ≤ x + l := by
  induction hr with
  | start => omega
  | @right e X Y h _ =>
    have := hright X Y e h rfl (by omega)
    omega
  | @down e X Y h _ =>
    have := hd X Y e h rfl (by omega)
    omega
  | @diag e X Y h hm ih =>
    have hX : X ≤ x + l := ih (by omega) hright hd
    rcases Nat.lt_or_ge X (x + l) with hlt | hge
    · omega
    · -- the path would have to step over the mismatch that ends the run
      have hX' : X = x + l := by omega
      have hY' : Y = y + l := by omega
      subst hX' hY'
      exact absurd hm hmatches

/-- With no edit allowed, the furthest point is the end of the common head of the sequences. -/
theorem Furthest.zero (hm : ∀ i < l, Matches a b i i) (hmatches : ¬ Matches a b l l) :
    Furthest a b 0 0 l := by
  refine ⟨⟨l, l, rfl, by omega, ?_⟩, ?_⟩
  · simpa using Reach.start.snake l (by simpa using hm)
  · intro X Y hr hk
    have hle : X ≤ 0 + l :=
      hr.le_snake_end (y := 0) (by omega) (by simpa using hmatches) (by omega) (by omega)
    omega

/-- **The greedy step.** From a point that is reachable with `d + 1` non-diagonal steps, and that no
step from a neighbouring diagonal overshoots, the matches lead to the furthest point of the
diagonal. -/
theorem Furthest.succ (hr : Reach a b (d + 1) x y)
    (hright : ∀ X Y, Reach a b d X Y → (X : Int) - Y = (x : Int) - y - 1 → X + 1 ≤ x)
    (hd : ∀ X Y, Reach a b d X Y → (X : Int) - Y = (x : Int) - y + 1 → X ≤ x)
    (hm : ∀ i < l, Matches a b (x + i) (y + i)) (hmatches : ¬ Matches a b (x + l) (y + l)) :
    Furthest a b (d + 1) ((x : Int) - y) (x + l : Nat) := by
  refine ⟨⟨x + l, y + l, rfl, by omega, hr.snake l hm⟩, ?_⟩
  intro X Y hr' hk
  have hle : X ≤ x + l := by
    refine hr'.le_snake_end hk hmatches ?_ ?_
    · intro X Y e h he hk'
      obtain rfl : e = d := by omega
      exact hright X Y h hk'
    · intro X Y e h he hk'
      obtain rfl : e = d := by omega
      exact hd X Y h hk'
  exact_mod_cast hle

end EditGraph
