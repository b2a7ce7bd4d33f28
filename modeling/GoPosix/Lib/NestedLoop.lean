import GoPosix.Lib.Sorted

/-!
# The nested-loop join

The join of two lists on a key, as two loops say it: the pairs of rows with equal keys, and the rows
of either list that are in no pair. The lemmas say what the nested loop makes of the rows that a
step of a merge leaves behind.
-/

namespace NestedLoop

open List

variable {α β κ γ : Type} [DecidableEq κ] {kl : α → κ} {kr : β → κ}

/-- The pairs of rows with equal keys, each made a record. -/
def pairs (kl : α → κ) (kr : β → κ) (record : α → β → γ) (l : List α) (r : List β) : List γ :=
  l.flatMap fun a => (r.filter fun b => kr b = kl a).map (record a)

/-- The rows that are in no pair. -/
def unpaired (kl : α → κ) (kr : β → κ) (l : List α) (r : List β) : List α :=
  l.filter fun a => r.all fun b => kr b ≠ kl a

section Alone

variable {a : α} {r : List β} (h : ∀ b ∈ r, kr b ≠ kl a)

include h

theorem pairs_cons_alone (re : α → β → γ) : pairs kl kr re (a :: l) r = pairs kl kr re l r := by
  have hn : (r.filter fun b => kr b = kl a) = [] := by
    rw [filter_eq_nil_iff]
    intro b hb
    simpa using h b hb
  rw [pairs, flatMap_cons, hn]
  rfl

theorem unpaired_cons_alone : unpaired kl kr (a :: l) r = a :: unpaired kl kr l r := by
  apply filter_cons_of_pos
  simpa using h

theorem unpaired_of_alone : unpaired kr kl r (a :: l) = unpaired kr kl r l := by
  apply filter_congr
  intro b hb
  simp [(h b hb).symm]

end Alone

theorem pairs_alone_cons (h : ∀ a ∈ l, kl a ≠ kr b)
    (re : α → β → γ) : pairs kl kr re l (b :: r) = pairs kl kr re l r := by
  apply flatMap_congr
  intro a ha
  rw [filter_cons_of_neg (by simpa using (h a ha).symm)]

section Runs

variable {k : κ} {l₁ l₂ : List α} {r₁ r₂ : List β} (hl₁ : ∀ a ∈ l₁, kl a = k)
    (hl₂ : ∀ a ∈ l₂, kl a ≠ k)
  (hr₁ : ∀ b ∈ r₁, kr b = k)

include hl₁ hl₂ hr₁

/-- **Runs of one key** on both sides are paired with each other, in full. -/
theorem pairs_runs (hr₂ : ∀ b ∈ r₂, kr b ≠ k) (re : α → β → γ) :
    pairs kl kr re (l₁ ++ l₂) (r₁ ++ r₂) =
    (l₁.flatMap fun a => r₁.map (re a)) ++ pairs kl kr re l₂ r₂ := by
  unfold pairs
  rw [flatMap_append]
  congr 1
  · apply flatMap_congr
    intro a ha
    have hrun : (r₁.filter fun b => kr b = kl a) = r₁ := by
      rw [filter_eq_self]
      intro b hb
      simp [hr₁ b hb, hl₁ a ha]
    have hr : (r₂.filter fun b => kr b = kl a) = [] := by
      rw [filter_eq_nil_iff]
      intro b hb
      simp [hr₂ b hb, hl₁ a ha]
    rw [filter_append, hrun, hr, append_nil]
  · apply flatMap_congr
    intro a ha
    have hrun : (r₁.filter fun b => kr b = kl a) = [] := by
      rw [filter_eq_nil_iff]
      intro b hb
      simpa [hr₁ b hb] using (hl₂ a ha).symm
    rw [filter_append, hrun, nil_append]

theorem unpaired_runs (hne : r₁ ≠ []) :
    unpaired kl kr (l₁ ++ l₂) (r₁ ++ r₂) = unpaired kl kr l₂ r₂ := by
  obtain ⟨b, r, rfl⟩ := exists_cons_of_ne_nil hne
  have hkb : kr b = k := hr₁ b mem_cons_self
  unfold unpaired
  rw [filter_append]
  have hr : (l₁.filter fun a => (b :: r ++ r₂).all fun b => kr b ≠ kl a) = [] := by
    rw [filter_eq_nil_iff]
    intro a ha
    simp [hkb, hl₁ a ha]
  rw [hr]
  apply filter_congr
  intro a ha
  have ho : ∀ c ∈ b :: r, kr c ≠ kl a := by
    intro c hc
    rw [hr₁ c hc]
    exact (hl₂ a ha).symm
  rw [all_append, all_eq_true.mpr (by simpa using ho), Bool.true_and]

end Runs

/-! ## Runs of a sorted list -/

section Sorted

variable {cmp : κ → κ → Ordering} [Std.TransCmp cmp] [Std.LawfulEqCmp cmp] {l : List α}

theorem dropWhile_ne (h : AscendingBy cmp (l.map kl)) (hle : ∀ b ∈ l, (cmp k (kl b)).isLE = true) :
    ∀ b ∈ l.dropWhile fun b => kl b = k, kl b ≠ k := by
  induction l with
  | nil => simp
  | cons a l ih =>
    by_cases ha : kl a = k
    · rw [dropWhile_cons_of_pos (by simpa using ha)]
      exact ih h.tail fun b hb => hle b (mem_cons_of_mem a hb)
    rw [dropWhile_cons_of_neg (by simpa using ha)]
    have hlt : cmp k (kl a) = .lt := by
      cases hc : cmp k (kl a) with
      | lt => rfl
      | eq => exact absurd (Std.LawfulEqCmp.compare_eq_iff_eq.mp hc).symm ha
      | gt =>
        have := hle a mem_cons_self
        rw [hc] at this
        cases this
    -- the first other key is greater, and so are all behind it
    intro b hb heq
    exact h.not_mem_of_lt hlt (heq ▸ mem_map_of_mem hb)

theorem dropWhile_head_ne (h : AscendingBy cmp ((a :: l).map kl)) :
    ∀ b ∈ (a :: l).dropWhile fun b => kl b = kl a, kl b ≠ kl a := by
  apply dropWhile_ne h
  intro b hb
  rcases mem_cons.mp hb with rfl | hb
  · rw [show cmp (kl b) (kl b) = .eq from Std.ReflCmp.compare_self]
    rfl
  · exact h.head _ (mem_map_of_mem hb)

theorem takeWhile_eq (k : κ) (l : List α) : ∀ b ∈ l.takeWhile fun b => kl b = k, kl b = k := by
  intro b hb
  have hall := all_takeWhile (l := l) (p := fun b => decide (kl b = k))
  simpa using all_eq_true.mp hall b hb

end Sorted

end NestedLoop
