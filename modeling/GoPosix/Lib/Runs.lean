import Mathlib.Data.Nat.Basic
import Mathlib.Logic.Function.Iterate

/-!
# Runs of a transition system

A run is an infinite sequence of states that starts in an initial one; at every time the system
makes a step or nothing happens. What every step keeps holds at all times (`IsRun.invariant`), and a
quantity that no step increases is never larger than it was (`IsRun.le_of_le`). A goal is reached
if, as long as it is not, a rank gets smaller at some later time (`eventually_of_rank`); when that
happens is a matter of fairness, on which nothing is fixed here.

Of two systems whose steps are functions, one follows the other if each step of the first is some
steps of the second. If it is none, a rank gets smaller, so that the second one also comes as far as
one likes (`exists_iterate_ge`).
-/

namespace Runs

variable {σ : Type} {f : ℕ → σ}

structure IsRun (init : σ → Prop) (step : σ → σ → Prop) (f : ℕ → σ) : Prop where
  start : init (f 0)
  next : ∀ n, step (f n) (f (n + 1)) ∨ f (n + 1) = f n

theorem IsRun.invariant {P : σ → Prop} (h : IsRun init step f) (hi : ∀ s, init s → P s)
    (hstep : ∀ s s', P s → step s s' → P s') : ∀ n, P (f n) := by
  intro n
  induction n with
  | zero => exact hi _ h.start
  | succ n ih =>
    rcases h.next n with hs | hs
    · exact hstep _ _ ih hs
    · rwa [hs]

theorem IsRun.le_of_le {μ : σ → ℕ} (h : IsRun init step f) (hstep : ∀ s s', step s s' → μ s' ≤ μ s)
    (hnm : n ≤ m) : μ (f m) ≤ μ (f n) := by
  induction m, hnm using Nat.le_induction with
  | base => exact Nat.le_refl _
  | succ m _ ih =>
    rcases h.next m with hs | hs
    · exact Nat.le_trans (hstep _ _ hs) ih
    · rwa [hs]

theorem IsRun.eq_of_rank_eq {α : Type} {μ : σ → ℕ} (h : IsRun init step f) (p : σ → α)
    (hstep : ∀ s s', step s s' → μ s' < μ s ∨ μ s' = μ s ∧ p s' = p s) {n m : ℕ} (hnm : n ≤ m)
    (hr : μ (f m) = μ (f n)) : p (f m) = p (f n) := by
  have hle : ∀ s s', step s s' → μ s' ≤ μ s := by
    intro s s' hs
    rcases hstep s s' hs with hlt | ⟨heq, -⟩
    · exact Nat.le_of_lt hlt
    · exact Nat.le_of_eq heq
  induction m, hnm using Nat.le_induction with
  | base => rfl
  | succ m hm ih =>
    have hb : μ (f m) ≤ μ (f n) := h.le_of_le hle hm
    rcases h.next m with hs | hs
    · rcases hstep _ _ hs with hlt | ⟨heq, hp⟩
      · omega
      · rw [hp, ih (heq ▸ hr)]
    · rw [hs, ih (hs ▸ hr)]

/-- **A rank that goes down again and again** as long as the goal is not reached. -/
theorem eventually_of_rank (g : σ → Prop) (μ : σ → ℕ)
    (h : ∀ n, ¬ g (f n) → ∃ m, n ≤ m ∧ μ (f m) < μ (f n)) : ∃ n, g (f n) := by
  have hr : ∀ k n, μ (f n) = k → ∃ m, g (f m) := by
    intro k
    induction k using Nat.strongRecOn with
    | ind k ih =>
      intro n hn
      by_cases hg : g (f n)
      · exact ⟨n, hg⟩
      · obtain ⟨m, -, hm⟩ := h n hg
        exact ih _ (hn ▸ hm) m rfl
  exact hr _ 0 rfl

/-! ## Simulation -/

section Simulation

variable {σ τ : Type} {f : σ → τ}

theorem exists_iterate (h : ∀ n, ∃ j, stepT^[j] (f (stepS^[n] s)) = f (stepS^[n + 1] s)) (n : ℕ) :
    ∃ m, stepT^[m] (f s) = f (stepS^[n] s) := by
  induction n with
  | zero => exact ⟨0, rfl⟩
  | succ n ih =>
    obtain ⟨m, hm⟩ := ih
    obtain ⟨j, hj⟩ := h n
    refine ⟨j + m, ?_⟩
    rw [Function.iterate_add_apply, hm, hj]

theorem exists_iterate_gt {μ : σ → ℕ}
    (h : ∀ n, ∃ j, stepT^[j] (f (stepS^[n] s)) = f (stepS^[n + 1] s) ∧
      (j = 0 → μ (stepS^[n + 1] s) < μ (stepS^[n] s))) (r : ℕ) :
    ∀ n m, μ (stepS^[n] s) = r → stepT^[m] (f s) = f (stepS^[n] s) →
      ∃ n' m', m < m' ∧ stepT^[m'] (f s) = f (stepS^[n'] s) := by
  induction r using Nat.strongRecOn with
  | ind r ih =>
    intro n m hr hm
    obtain ⟨j, hj, hra⟩ := h n
    have hn : stepT^[j + m] (f s) = f (stepS^[n + 1] s) := by
      rw [Function.iterate_add_apply, hm, hj]
    cases j with
    | zero =>
      rw [Nat.zero_add] at hn
      exact ih _ (hr ▸ hra rfl) (n + 1) m rfl hn
    | succ j => exact ⟨n + 1, j + 1 + m, by omega, hn⟩

/-- **As far as one likes.** -/
theorem exists_iterate_ge {μ : σ → ℕ}
    (h : ∀ n, ∃ j, stepT^[j] (f (stepS^[n] s)) = f (stepS^[n + 1] s) ∧
      (j = 0 → μ (stepS^[n + 1] s) < μ (stepS^[n] s))) (m : ℕ) :
    ∃ n k, m ≤ k ∧ stepT^[k] (f s) = f (stepS^[n] s) := by
  induction m with
  | zero => exact ⟨0, 0, Nat.le_refl 0, rfl⟩
  | succ m ih =>
    obtain ⟨n, k, hle, hk⟩ := ih
    obtain ⟨n', k', hlt, hk'⟩ := exists_iterate_gt h _ n k rfl hk
    exact ⟨n', k', Nat.lt_of_le_of_lt hle hlt, hk'⟩

end Simulation

end Runs
