import Mathlib.Data.List.Nodup
import Mathlib.Data.List.Perm.Subperm

/-!
# Kahn's algorithm

Topological sorting with a queue of the nodes that have no predecessor left. `adj u` are the
successors of `u`. The degree of a node counts its predecessors that have not been taken from the
queue (`Inv.count`); a node enters the queue when its degree becomes 0, so it is behind all of them
in the result (`sort_before`). What is left at the end has a predecessor that is left, so there is a
cycle (`sort_all_iff`).
-/

namespace Kahn

open List

variable {α : Type} [DecidableEq α]

/-- One successor of the node that is taken has one predecessor less. -/
def relax (s : (α → Int) × List α) (v : α) : (α → Int) × List α :=
  let degree := Function.update s.1 v (s.1 v - 1)
  (degree, if degree v = 0 then s.2 ++ [v] else s.2)

/-- The loop. Every turn takes a node from the queue. -/
def loop (adj : α → List α) : (fuel : Nat) → (α → Int) × List α → List α
  | 0, _ => []
  | _ + 1, (_, []) => []
  | fuel + 1, (degree, u :: queue) => u :: loop adj fuel ((adj u).foldl relax (degree, queue))

/-- The nodes in the order in which they are taken. No node is taken twice, so as many turns as
there are nodes suffice. -/
def sort (nodes : List α) (adj : α → List α) (degree : α → Int) : List α :=
  loop adj nodes.length (degree, nodes.filter fun n => degree n = 0)

/-! ## One turn -/

/-- One node is taken: its successors lose a degree, and those that had one are ready. -/
theorem foldl_relax {vs : List α} (hvs : vs.Nodup) : ∀ (degree : α → Int) (q : List α),
    vs.foldl relax (degree, q) =
      (fun n => if n ∈ vs then degree n - 1 else degree n, q ++ vs.filter fun n =>
          degree n = 1) := by
  induction vs with
  | nil => simp
  | cons v vs ih =>
    intro degree q
    obtain ⟨hv, hvs⟩ := nodup_cons.mp hvs
    have hdegree : ∀ n, (if n ∈ vs then Function.update degree v (degree v - 1) n - 1
        else Function.update degree v (degree v - 1) n) =
        if n ∈ v :: vs then degree n - 1 else degree n := by
      intro n
      rcases eq_or_ne n v with rfl | hn
      · simp [hv]
      · simp [hn]
    have hq : (vs.filter fun n => Function.update degree v (degree v - 1) n = 1) =
        vs.filter fun n => degree n = 1 := by
      apply filter_congr
      intro n hn
      rw [Function.update_of_ne (ne_of_mem_of_not_mem hn hv)]
    rw [foldl_cons, relax, ih hvs, Prod.mk.injEq]
    refine ⟨funext hdegree, ?_⟩
    rw [hq]
    by_cases h1 : degree v = 1
    · simp [h1]
    · have h0 : degree v - 1 ≠ 0 := by omega
      simp [h1, h0]

/-- The predecessors of a node that have not been taken. -/
def preds (nodes : List α) (adj : α → List α) (done : List α) (v : α) : List α :=
  nodes.filter fun u => u ∉ done ∧ v ∈ adj u

structure Graph (nodes : List α) (adj : α → List α) : Prop where
  nodup : nodes.Nodup
  nodup_adj : ∀ u, (adj u).Nodup
  ends : ∀ u, ∀ v ∈ adj u, u ∈ nodes ∧ v ∈ nodes

/-- The state after `done` has been taken. -/
structure Inv (nodes : List α) (adj : α → List α) (done queue : List α) (degree : α → Int) :
    Prop where
  count : ∀ v, degree v = (preds nodes adj done v).length
  nodup : (done ++ queue).Nodup
  subset : ∀ v ∈ done ++ queue, v ∈ nodes
  ready : ∀ v ∈ nodes, v ∈ done ++ queue ↔ degree v = 0

section

variable {nodes : List α} {adj : α → List α} {degree : α → Int}

theorem mem_preds : u ∈ preds nodes adj done v ↔ u ∈ nodes ∧ u ∉ done ∧ v ∈ adj u := by
  simp [preds]

theorem length_preds_snoc (hg : Graph nodes adj) (hu : u ∈ nodes) (hd : u ∉ done) (v : α) :
    ((preds nodes adj (done ++ [u]) v).length : Int) =
      if v ∈ adj u then ((preds nodes adj done v).length : Int) - 1
      else (preds nodes adj done v).length := by
  have he : preds nodes adj (done ++ [u]) v = (preds nodes adj done v).erase u := by
    unfold preds
    rw [(hg.nodup.filter _).erase_eq_filter, filter_filter]
    apply filter_congr
    intro n _
    by_cases hn : n = u <;> simp [hn]
  rw [he]
  split_ifs with hv
  · have hm : u ∈ preds nodes adj done v := mem_preds.mpr ⟨hu, hd, hv⟩
    have hp := length_pos_of_mem hm
    rw [length_erase_of_mem hm]
    omega
  · rw [erase_of_not_mem fun h => hv (mem_preds.mp h).2.2]

theorem Inv.zero (h : Inv nodes adj done queue degree) (hv : v ∈ done ++ queue) (hu : v ∈ adj u)
    (hn : u ∈ nodes) : u ∈ done := by
  by_contra hd
  have hm : u ∈ preds nodes adj done v := mem_preds.mpr ⟨hn, hd, hu⟩
  have hzero := (h.ready v (h.subset v hv)).mp hv
  have hp := length_pos_of_mem hm
  rw [h.count] at hzero
  omega

/-- **One turn keeps the invariant.** -/
theorem Inv.step (hg : Graph nodes adj) (h : Inv nodes adj done (u :: queue) degree) :
    Inv nodes adj (done ++ [u]) ((adj u).foldl relax (degree, queue)).2
      ((adj u).foldl relax (degree, queue)).1 := by
  rw [foldl_relax (hg.nodup_adj u)]
  have hu : u ∈ nodes := h.subset u (by simp)
  have hd : u ∉ done := fun hm => (nodup_append.mp h.nodup).2.2 u hm u (by simp) rfl
  have hass : ∀ new, done ++ [u] ++ (queue ++ new) = (done ++ u :: queue) ++ new := by simp
  -- a successor of `u` whose degree is 1 has not been ready
  have hnew : ∀ n ∈ adj u, degree n = 1 → n ∉ done ++ u :: queue := by
    intro n hn h1 hm
    have h0 := (h.ready n (hg.ends u n hn).2).mp hm
    omega
  constructor
  · intro v
    dsimp only
    rw [length_preds_snoc hg hu hd, h.count v]
  · rw [hass, nodup_append]
    refine ⟨h.nodup, (hg.nodup_adj u).filter _, ?_⟩
    rintro a ha b hb rfl
    obtain ⟨hb, h1⟩ := mem_filter.mp hb
    exact hnew a hb (by simpa using h1) ha
  · intro n hn
    rw [hass, mem_append] at hn
    rcases hn with hn | hn
    · exact h.subset n hn
    · exact (hg.ends u n (mem_of_mem_filter hn)).2
  · intro n hn
    rw [hass, mem_append, mem_filter, h.ready n hn]
    by_cases hadj : n ∈ adj u
    · have hp : degree n ≠ 0 := by
        intro h0
        exact hd (h.zero ((h.ready n hn).mpr h0) hadj hu)
      simp only [hadj, if_true, true_and, decide_eq_true_eq]
      omega
    · simp [hadj]

/-! ## The whole run -/

/-- **What the loop takes**: all that becomes ready, every node behind its predecessors. -/
theorem loop_spec (hg : Graph nodes adj) (f : Nat) : ∀ {done q : List α} {degree : α → Int},
    Inv nodes adj done q degree → nodes.length ≤ done.length + f →
    (∃ degree', Inv nodes adj (done ++ loop adj f (degree, q)) [] degree') ∧
      ∀ pre v post, loop adj f (degree, q) = pre ++ v :: post → ∀ u, v ∈ adj u →
          u ∈ done ++ pre := by
  induction f with
  | zero =>
    intro done q degree h hf
    have hq : q = [] := by
      have hle := (h.nodup.subperm h.subset).length_le
      rw [length_append] at hle
      exact eq_nil_of_length_eq_zero (by omega)
    subst hq
    exact ⟨⟨degree, by simpa [loop] using h⟩, by simp [loop]⟩
  | succ f ih =>
    intro done q degree h hf
    cases q with
    | nil => exact ⟨⟨degree, by simpa [loop] using h⟩, by simp [loop]⟩
    | cons u q =>
      obtain ⟨hi, hb⟩ := ih (h.step hg) (by simp; omega)
      rw [loop]
      refine ⟨by simpa using hi, ?_⟩
      intro pre v post hs w hw
      cases pre with
      | nil =>
        cases hs
        simpa using h.zero (by simp) hw (hg.ends w u hw).1
      | cons p pre =>
        obtain rfl : u = p := (List.cons.inj hs).1
        simpa using hb pre v post (List.cons.inj hs).2 w hw

def Before (l : List α) (u v : α) : Prop := ∃ pre post, l = pre ++ v :: post ∧ u ∈ pre

variable {l : List α}

theorem length_eq_idxOf (h : l.Nodup) (hs : l = pre ++ v :: post) : pre.length = l.idxOf v := by
  have hp : v ∉ pre := by
    intro hm
    rw [hs, nodup_append] at h
    exact h.2.2 v hm v mem_cons_self rfl
  rw [hs, idxOf_append_of_notMem hp, idxOf_cons_self, Nat.add_zero]

theorem Before.idxOf_lt (h : l.Nodup) (huv : Before l u v) : l.idxOf u < l.idxOf v := by
  obtain ⟨pre, p, hs, hu⟩ := huv
  rw [← length_eq_idxOf h hs, hs, idxOf_append_of_mem hu]
  exact idxOf_lt_length_of_mem hu

theorem Before.trans (h : l.Nodup) (huv : Before l u v) (hvw : Before l v w) : Before l u w := by
  obtain ⟨pre, p, hs, hv⟩ := hvw
  refine ⟨pre, p, hs, ?_⟩
  have hlt := Nat.lt_trans (huv.idxOf_lt h) (Before.idxOf_lt h ⟨pre, p, hs, hv⟩)
  rw [← length_eq_idxOf h hs] at hlt
  by_contra hu
  rw [hs, idxOf_append_of_notMem hu] at hlt
  omega

def Edge (adj : α → List α) (u v : α) : Prop := v ∈ adj u

/-- No path leads back to where it begins. -/
def Acyclic (r : α → α → Prop) : Prop := ∀ u, ¬ Relation.TransGen r u u

omit [DecidableEq α] in
/-- Among finitely many nodes of an acyclic graph, not none, there is one that no other leads to. -/
theorem Acyclic.exists_first (h : Acyclic r) (hl : l ≠ []) :
    ∃ m ∈ l, ∀ n ∈ l, ¬ Relation.TransGen r n m := by
  induction l with
  | nil => exact absurd rfl hl
  | cons a l ih =>
    rcases eq_or_ne l [] with rfl | hl
    · exact ⟨a, by simp, by simpa using h a⟩
    obtain ⟨m, hm, hf⟩ := ih hl
    by_cases ham : Relation.TransGen r a m
    · refine ⟨a, by simp, fun n hn hna => ?_⟩
      rcases mem_cons.mp hn with rfl | hn
      · exact h n hna
      · exact hf n hn (hna.trans ham)
    · refine ⟨m, mem_cons_of_mem a hm, fun n hn => ?_⟩
      rcases mem_cons.mp hn with rfl | hn
      · exact ham
      · exact hf n hn

section Whole

variable (hg : Graph nodes adj) (hdegree : ∀ v, degree v = (preds nodes adj [] v).length)

include hg hdegree

theorem Inv.start : Inv nodes adj [] (nodes.filter fun n => degree n = 0) degree where
  count := hdegree
  nodup := hg.nodup.filter _
  subset _ hv := mem_of_mem_filter hv
  ready v hv := by simp [hv]

theorem sort_inv : ∃ degree', Inv nodes adj (sort nodes adj degree) [] degree' := by
  obtain ⟨hi, -⟩ := loop_spec hg nodes.length (Inv.start hg hdegree) (by simp)
  simpa [sort] using hi

theorem sort_nodup : (sort nodes adj degree).Nodup := by
  obtain ⟨_, h⟩ := sort_inv hg hdegree
  simpa using h.nodup

theorem sort_subset : sort nodes adj degree ⊆ nodes := by
  obtain ⟨_, h⟩ := sort_inv hg hdegree
  intro v hv
  exact h.subset v (by simpa using hv)

/-- **A node is behind its predecessors.** -/
theorem sort_before (huv : Edge adj u v) (hv : v ∈ sort nodes adj degree) :
    Before (sort nodes adj degree) u v := by
  obtain ⟨-, hb⟩ := loop_spec hg nodes.length (Inv.start hg hdegree) (by simp)
  obtain ⟨pre, p, hs⟩ := append_of_mem hv
  exact ⟨pre, p, hs, by simpa using hb pre v p hs u huv⟩

/-- If every node is taken, the nodes along a path come later and later. -/
theorem sort_before_path (hall : ∀ v ∈ nodes, v ∈ sort nodes adj degree)
    (huv : Relation.TransGen (Edge adj) u v) : Before (sort nodes adj degree) u v := by
  have he : ∀ {a b}, Edge adj a b → Before (sort nodes adj degree) a b :=
    fun h => sort_before hg hdegree h (hall _ (hg.ends _ _ h).2)
  induction huv with
  | single h => exact he h
  | tail _ h ih => exact ih.trans (sort_nodup hg hdegree) (he h)

/-- **Every node is taken exactly if there is no cycle.** -/
theorem sort_all_iff : (∀ v ∈ nodes, v ∈ sort nodes adj degree) ↔ Acyclic (Edge adj) := by
  constructor
  · intro hall u hc
    exact Nat.lt_irrefl _ ((sort_before_path hg hdegree hall hc).idxOf_lt (sort_nodup hg hdegree))
  intro hacyclic v hv
  by_contra hl
  obtain ⟨_, h⟩ := sort_inv hg hdegree
  have hne : (nodes.filter fun n => n ∉ sort nodes adj degree) ≠ [] :=
    ne_nil_of_mem (mem_filter.mpr ⟨hv, by simpa using hl⟩)
  obtain ⟨m, hm, hf⟩ := hacyclic.exists_first hne
  obtain ⟨hmn, hml⟩ := mem_filter.mp hm
  -- what is left has a predecessor that is left
  have hp : preds nodes adj (sort nodes adj degree) m ≠ [] := by
    intro hn
    have hzero := h.count m
    rw [hn] at hzero
    have hmem := (h.ready m hmn).mpr hzero
    rw [append_nil] at hmem
    simp [hmem] at hml
  obtain ⟨u, hu⟩ := exists_mem_of_ne_nil _ hp
  obtain ⟨hun, hul, hum⟩ := mem_preds.mp hu
  exact hf u (mem_filter.mpr ⟨hun, by simpa using hul⟩) (.single hum)

theorem sort_length_iff :
    (sort nodes adj degree).length < nodes.length ↔ ¬ ∀ v ∈ nodes, v ∈ sort nodes adj degree := by
  have hn := sort_nodup hg hdegree
  have hs := hn.subperm (sort_subset hg hdegree)
  constructor
  · intro hlt hall
    have hle := (hg.nodup.subperm hall).length_le
    omega
  · intro hno
    by_contra hle
    have hp := hs.perm_of_length_le (Nat.not_lt.mp hle)
    exact hno fun v hv => hp.mem_iff.mpr hv

end Whole

end

end Kahn
