import Mathlib.Data.List.Dedup
import Mathlib.Data.List.Induction
import GoPosix.Lib.Kahn
import GoPosix.Lib.Text

/-!
# tsort

`run` of `pkg/tsort/tsort.go`, from the words on. The graph is built pair by pair, and a pair is
dropped if its key has been seen. The key is the two words with `->` between them, so different
pairs of words that contain `->` can have one key. The words are sorted as they should be if every
pair that is dropped follows from pairs that are kept (`tsort_sorts`).
-/

namespace GoPosix.Tsort

open Bytes Kahn List

/-! ## The graph -/

structure State where
  uniqueNodes : List Bytes
  adj : Bytes → List Bytes
  edgeMap : List Bytes
  inDegree : Bytes → Int

def State.empty : State := ⟨[], fun _ => [], [], fun _ => 0⟩

def State.addNode (s : State) (node : Bytes) : State :=
  if node ∈ s.uniqueNodes then s else { s with uniqueNodes := s.uniqueNodes ++ [node] }

def edgeKey (u v : Bytes) : Bytes := u ++ str "->" ++ v

/-- A pair of words. A word that is paired with itself is a node and nothing else. -/
def State.addPair (s : State) (p : Bytes × Bytes) : State :=
  let s := (s.addNode p.1).addNode p.2
  if p.1 = p.2 then s
  else if edgeKey p.1 p.2 ∈ s.edgeMap then s
  else { s with
    edgeMap := s.edgeMap ++ [edgeKey p.1 p.2]
    adj := Function.update s.adj p.1 (s.adj p.1 ++ [p.2])
    inDegree := Function.update s.inDegree p.2 (s.inDegree p.2 + 1) }

def pairs : List Bytes → List (Bytes × Bytes)
  | u :: v :: words => (u, v) :: pairs words
  | _ => []

def build (words : List Bytes) : State := (pairs words).foldl State.addPair .empty

/-- Kahn's algorithm on the graph. -/
def State.result (s : State) : List Bytes := Kahn.sort s.uniqueNodes s.adj s.inDegree

/-- The exit code and the nodes that are printed, for a list of words. -/
def tsort (words : List Bytes) : Nat × List Bytes :=
  if words.length % 2 ≠ 0 then (1, [])
  else
    let s := build words
    (if s.result.length < s.uniqueNodes.length then 1 else 0, s.result)

/-- `run`, on what it reads: the exit code and the output. -/
def run (data : Bytes) : Nat × Bytes :=
  let (exitCode, nodes) := tsort (fields data)
  (exitCode, unlines nodes)

/-! ## The pairs that are kept -/

/-- The first pair of different words with each key. -/
def keep (kept : List (Bytes × Bytes)) (p : Bytes × Bytes) : List (Bytes × Bytes) :=
  if p.1 = p.2 ∨ edgeKey p.1 p.2 ∈ kept.map fun q => edgeKey q.1 q.2 then kept else kept ++ [p]

def kept (ps : List (Bytes × Bytes)) : List (Bytes × Bytes) := ps.foldl keep []

/-- A relation between words, given by pairs of them. A word paired with itself does not count. -/
def Rel (ps : List (Bytes × Bytes)) (u v : Bytes) : Prop := u ≠ v ∧ (u, v) ∈ ps

/-- The state after the pairs `ps`: its nodes are their words, its edges the pairs that are kept. -/
structure Built (ps : List (Bytes × Bytes)) (s : State) : Prop where
  nodup : s.uniqueNodes.Nodup
  nodes : ∀ n, n ∈ s.uniqueNodes ↔ ∃ p ∈ ps, n = p.1 ∨ n = p.2
  keys : s.edgeMap = (kept ps).map fun q => edgeKey q.1 q.2
  adj : ∀ u, s.adj u = ((kept ps).filter fun q => q.1 = u).map Prod.snd
  inDegree : ∀ v, s.inDegree v = ((kept ps).filter fun q => q.2 = v).length

section

variable {s : State}

theorem kept_snoc (ps : List (Bytes × Bytes)) (p : Bytes × Bytes) :
    kept (ps ++ [p]) = keep (kept ps) p := by
  simp [kept]

theorem mem_addNode : n ∈ (s.addNode node).uniqueNodes ↔ n ∈ s.uniqueNodes ∨ n = node := by
  unfold State.addNode
  split
  · next h =>
    constructor
    · exact .inl
    · rintro (h' | rfl)
      · exact h'
      · exact h
  · simp

theorem nodup_addNode (h : s.uniqueNodes.Nodup) (n : Bytes) : (s.addNode n).uniqueNodes.Nodup := by
  unfold State.addNode
  split
  · exact h
  · next hn =>
    rw [nodup_append]
    refine ⟨h, nodup_singleton n, ?_⟩
    rintro a ha b hb rfl
    exact hn (mem_singleton.mp hb ▸ ha)

@[simp] theorem addNode_adj (s : State) (n : Bytes) : (s.addNode n).adj = s.adj := by
  unfold State.addNode
  split <;> rfl

@[simp] theorem addNode_edgeMap (s : State) (n : Bytes) : (s.addNode n).edgeMap = s.edgeMap := by
  unfold State.addNode
  split <;> rfl

@[simp] theorem addNode_inDegree (s : State) (n : Bytes) : (s.addNode n).inDegree = s.inDegree := by
  unfold State.addNode
  split <;> rfl

theorem addPair_uniqueNodes (s : State) (p : Bytes × Bytes) :
    (s.addPair p).uniqueNodes = ((s.addNode p.1).addNode p.2).uniqueNodes := by
  unfold State.addPair
  dsimp only
  split
  · rfl
  · split <;> rfl

/-- **One pair.** -/
theorem Built.step (h : Built ps s) (p : Bytes × Bytes) : Built (ps ++ [p]) (s.addPair p) := by
  have hnodup : (s.addPair p).uniqueNodes.Nodup := by
    rw [addPair_uniqueNodes]
    exact nodup_addNode (nodup_addNode h.nodup p.1) p.2
  have hn : ∀ n, n ∈ (s.addPair p).uniqueNodes ↔ ∃ q ∈ ps ++ [p], n = q.1 ∨ n = q.2 := by
    intro n
    rw [addPair_uniqueNodes, mem_addNode, mem_addNode, h.nodes]
    simp only [mem_append, mem_singleton, or_and_right, exists_or, exists_eq_left, or_assoc]
  by_cases hskip : p.1 = p.2 ∨ edgeKey p.1 p.2 ∈ s.edgeMap
  · -- nothing is kept
    have hk : kept (ps ++ [p]) = kept ps := by
      rw [kept_snoc, keep, if_pos (h.keys ▸ hskip)]
    have hs : s.addPair p = (s.addNode p.1).addNode p.2 := by
      unfold State.addPair
      rcases hskip with heq | hkey
      · exact if_pos heq
      · simp [hkey]
    refine ⟨hnodup, hn, ?_, ?_, ?_⟩
    · rw [hs, hk, addNode_edgeMap, addNode_edgeMap, h.keys]
    · intro u
      rw [hs, hk, addNode_adj, addNode_adj, h.adj]
    · intro v
      rw [hs, hk, addNode_inDegree, addNode_inDegree, h.inDegree]
  · have hk : kept (ps ++ [p]) = kept ps ++ [p] := by
      rw [kept_snoc, keep, if_neg (h.keys ▸ hskip)]
    obtain ⟨hne, hkey⟩ := not_or.mp hskip
    have hs : s.addPair p = { (s.addNode p.1).addNode p.2 with
        edgeMap := s.edgeMap ++ [edgeKey p.1 p.2]
        adj := Function.update s.adj p.1 (s.adj p.1 ++ [p.2])
        inDegree := Function.update s.inDegree p.2 (s.inDegree p.2 + 1) } := by
      simp [State.addPair, hne, hkey]
    refine ⟨hnodup, hn, ?_, ?_, ?_⟩
    · simp [hs, hk, h.keys]
    · intro u
      rcases eq_or_ne u p.1 with rfl | hu
      · simp [hs, hk, h.adj]
      · simp [hs, hk, h.adj, hu, hu.symm]
    · intro v
      rcases eq_or_ne v p.2 with rfl | hv
      · simp [hs, hk, h.inDegree]
      · simp [hs, hk, h.inDegree, hv, hv.symm]

theorem built_foldl (qs : List (Bytes × Bytes)) : ∀ {ps : List (Bytes × Bytes)} {s : State},
    Built ps s → Built (ps ++ qs) (qs.foldl State.addPair s) := by
  induction qs with
  | nil => simp
  | cons q qs ih =>
    intro ps s h
    have := ih (h.step q)
    rwa [append_assoc] at this

theorem built (words : List Bytes) : Built (pairs words) (build words) := by
  have he : Built [] .empty := ⟨nodup_nil, by simp [State.empty], rfl, fun _ => rfl, fun _ => rfl⟩
  exact built_foldl (pairs words) he

/-! ## What is kept is a graph -/

theorem nodup_kept_keys (ps : List (Bytes × Bytes)) :
    ((kept ps).map fun q => edgeKey q.1 q.2).Nodup := by
  induction ps using List.reverseRecOn with
  | nil => exact nodup_nil
  | append_singleton ps p ih =>
    rw [kept_snoc, keep]
    split
    · exact ih
    next h =>
    rw [map_append, nodup_append]
    refine ⟨ih, nodup_singleton _, ?_⟩
    rintro a ha b hb rfl
    rw [map_singleton, mem_singleton] at hb
    exact (not_or.mp h).2 (hb ▸ ha)

theorem nodup_filter_keys (ps : List (Bytes × Bytes)) (f : Bytes × Bytes → Bool) :
    (((kept ps).filter f).map fun q => edgeKey q.1 q.2).Nodup :=
      (nodup_kept_keys ps).sublist (filter_sublist.map _)

theorem mem_kept (h : p ∈ kept ps) : Rel ps p.1 p.2 := by
  induction ps using List.reverseRecOn with
  | nil => cases h
  | append_singleton ps q ih =>
    have hold : p ∈ kept ps → Rel (ps ++ [q]) p.1 p.2 := fun h =>
      ⟨(ih h).1, mem_append_left [q] (ih h).2⟩
    rw [kept_snoc, keep] at h
    split at h
    · exact hold h
    · next hn =>
      rcases mem_append.mp h with h | h
      · exact hold h
      · cases mem_singleton.mp h
        exact ⟨(not_or.mp hn).1, by simp⟩

theorem Built.mem_adj (h : Built ps s) : v ∈ s.adj u ↔ (u, v) ∈ kept ps := by
  rw [h.adj]
  simp

theorem Built.graph (h : Built ps s) : Graph s.uniqueNodes s.adj where
  nodup := h.nodup
  nodup_adj u := by
    -- the second words of pairs with one first word differ as their keys do
    have hk : (((kept ps).filter fun q => q.1 = u).map fun q => edgeKey q.1 q.2) =
        (s.adj u).map (edgeKey u) := by
      rw [h.adj, map_map]
      apply map_congr_left
      intro q hq
      have hqu : q.1 = u := by simpa using (mem_filter.mp hq).2
      rw [Function.comp_apply, hqu]
    have hn := nodup_filter_keys ps fun q => q.1 = u
    rw [hk] at hn
    exact hn.of_map
  ends u v huv := by
    have hr := mem_kept (h.mem_adj.mp huv)
    exact ⟨(h.nodes u).mpr ⟨_, hr.2, .inl rfl⟩, (h.nodes v).mpr ⟨_, hr.2, .inr rfl⟩⟩

/-- The degree of a node is the number of its predecessors. -/
theorem Built.degree (h : Built ps s) (v : Bytes) :
    s.inDegree v = (preds s.uniqueNodes s.adj [] v).length := by
  have hk : (((kept ps).filter fun q => q.2 = v).map fun q => edgeKey q.1 q.2) =
      (((kept ps).filter fun q => q.2 = v).map Prod.fst).map (edgeKey · v) := by
    rw [map_map]
    apply map_congr_left
    intro q hq
    have hqv : q.2 = v := by simpa using (mem_filter.mp hq).2
    rw [Function.comp_apply, hqv]
  have hn := nodup_filter_keys ps fun q => q.2 = v
  rw [hk] at hn
  have hp : (((kept ps).filter fun q => q.2 = v).map Prod.fst).Perm
      (preds s.uniqueNodes s.adj [] v) := by
    apply (perm_ext_iff_of_nodup hn.of_map (h.nodup.filter _)).mpr
    intro u
    show _ ↔ u ∈ preds s.uniqueNodes s.adj [] v
    rw [mem_preds, h.mem_adj]
    constructor
    · intro hm
      have hm : (u, v) ∈ kept ps := by simpa using hm
      exact ⟨(h.nodes u).mpr ⟨_, (mem_kept hm).2, .inl rfl⟩, not_mem_nil, hm⟩
    · simp
  rw [h.inDegree, ← hp.length_eq, length_map]

end

/-! ## The words in order -/

/-- **What `tsort` is to do**: exit with 0 exactly if the pairs have no cycle, and then print every
word once, the first word of a pair before the second. -/
def Sorts (words : List Bytes) : Prop :=
  ((tsort words).1 = 0 ↔ Acyclic (Rel (pairs words))) ∧
    ((tsort words).1 = 0 → (tsort words).2.Perm words.dedup ∧
      ∀ u v, Rel (pairs words) u v → Before (tsort words).2 u v)

def Kept (words : List Bytes) (u v : Bytes) : Prop := (u, v) ∈ kept (pairs words)

/-- Every pair of different words follows from pairs that are kept. -/
def Covered (words : List Bytes) : Prop :=
  ∀ u v, Rel (pairs words) u v → Relation.TransGen (Kept words) u v

theorem acyclic_kept (h : Acyclic (Rel (pairs words))) : Acyclic (Kept words) :=
  fun u hu => h u (Relation.TransGen.mono (fun _ _ => mem_kept) _ _ hu)

theorem Covered.path (hc : Covered words)
    (huv : Relation.TransGen (Rel (pairs words)) u v) : Relation.TransGen (Kept words) u v := by
  induction huv with
  | single h => exact hc _ _ h
  | tail _ h ih => exact ih.trans (hc _ _ h)

theorem mem_pairs (heven : words.length % 2 = 0) (n : Bytes) :
    (∃ p ∈ pairs words, n = p.1 ∨ n = p.2) ↔ n ∈ words := by
  fun_induction pairs words with
  | case1 u v words ih =>
    have heven' : words.length % 2 = 0 := by
      simp only [length_cons] at heven
      omega
    simp only [mem_cons, or_and_right, exists_or, exists_eq_left, ih heven', or_assoc]
  | case2 words hw =>
    have hn : words = [] := by
      rcases words with _ | ⟨u, _ | ⟨v, words⟩⟩
      · rfl
      · simp at heven
      · exact absurd rfl (hw u v words)
    simp [hn]

section

variable {words : List Bytes} (heven : words.length % 2 = 0)

include heven

theorem tsort_even :
    tsort words = (if (build words).result.length < (build words).uniqueNodes.length
    then 1 else 0, (build words).result) := by
  simp [tsort, heven]

theorem exit_zero_iff :
    (tsort words).1 = 0 ↔ ∀ n ∈ (build words).uniqueNodes, n ∈ (build words).result := by
  have h := built words
  have hl : (build words).result.length < (build words).uniqueNodes.length ↔
      ¬ ∀ n ∈ (build words).uniqueNodes, n ∈ (build words).result :=
        sort_length_iff h.graph h.degree
  rw [tsort_even heven]
  split_ifs with hlt
  · simpa using hl.mp hlt
  · simpa using mt hl.mpr hlt

/-- The exit code is 0 exactly if the pairs that are kept have no cycle. -/
theorem exit_zero_iff_acyclic : (tsort words).1 = 0 ↔ Acyclic (Kept words) := by
  have h := built words
  have he : Edge (build words).adj = Kept words := by
    funext u v
    exact propext h.mem_adj
  rw [exit_zero_iff heven, ← he]
  exact sort_all_iff h.graph h.degree

theorem sorts_of_covered (hc : Covered words) : Sorts words := by
  have h := built words
  refine ⟨?_, fun he => ?_⟩
  · rw [exit_zero_iff_acyclic heven]
    exact ⟨fun hacyclic u hu => hacyclic u (hc.path hu), acyclic_kept⟩
  have hall := (exit_zero_iff heven).mp he
  have hr : (tsort words).2 = (build words).result := by rw [tsort_even heven]
  rw [hr]
  constructor
  · apply (perm_ext_iff_of_nodup (sort_nodup h.graph h.degree) (nodup_dedup words)).mpr
    intro n
    rw [mem_dedup, ← mem_pairs heven, ← h.nodes]
    exact ⟨fun hn => sort_subset h.graph h.degree hn, hall n⟩
  · intro u v huv
    apply sort_before_path h.graph h.degree hall
    exact Relation.TransGen.mono (fun a b => h.mem_adj.mpr) _ _ (hc u v huv)

/-- **What `tsort` gets right.** The exit code tells whether the pairs have a cycle exactly if no
cycle is lost with those that are dropped, and the words are sorted if every pair follows from pairs
that are kept. -/
theorem tsort_sorts : (((tsort words).1 = 0 ↔ Acyclic (Rel (pairs words))) ↔
      (Acyclic (Kept words) → Acyclic (Rel (pairs words)))) ∧
    (Covered words → Sorts words) := by
  refine ⟨?_, sorts_of_covered heven⟩
  rw [exit_zero_iff_acyclic heven]
  exact ⟨Iff.mp, fun h => ⟨h, acyclic_kept⟩⟩

end

/-- **With or without a cycle**, no word is printed twice, and none before one that has to precede
it. -/
theorem tsort_before (words : List Bytes) : (tsort words).2.Nodup ∧
    ∀ u v, Relation.TransGen (Kept words) u v → v ∈ (tsort words).2 →
      Before (tsort words).2 u v := by
  by_cases heven : words.length % 2 = 0
  · have h := built words
    have hn := sort_nodup h.graph h.degree
    rw [tsort_even heven]
    refine ⟨hn, fun u v huv hv => ?_⟩
    induction huv with
    | single hk => exact sort_before h.graph h.degree (h.mem_adj.mpr hk) hv
    | tail _ hk ih =>
      have hb := sort_before h.graph h.degree (h.mem_adj.mpr hk) hv
      obtain ⟨_, _, hs, hm⟩ := id hb
      exact (ih (by simp_all [State.result])).trans hn hb
  · simp [tsort, heven]

/-- Words without `->`: every pair is kept, and `tsort` prints them sorted. -/
theorem tsort_sorts_chain : Sorts [str "b", str "c", str "a", str "b", str "b", str "c"] := by
  have heven : [str "b", str "c", str "a", str "b", str "b", str "c"].length % 2 = 0 := rfl
  refine (tsort_sorts heven).2 fun u v huv => .single ?_
  have hm : ∀ p ∈ pairs [str "b", str "c", str "a", str "b", str "b", str "c"],
      p ∈ kept (pairs [str "b", str "c", str "a", str "b", str "b", str "c"]) := by decide +kernel
  exact hm (u, v) huv.2

/-- The pairs `a b->c` and `a->b c` have one key, and the second is dropped: `c` is printed before
`a->b`. -/
theorem not_sorts_arrow : ¬ Sorts [str "c", str "c", str "a", str "b->c", str "a->b", str "c"] := by
  intro h
  have ho : tsort [str "c", str "c", str "a", str "b->c", str "a->b", str "c"] =
      (0, [str "c", str "a", str "a->b", str "b->c"]) := by decide +kernel
  have hr : Rel (pairs [str "c", str "c", str "a", str "b->c", str "a->b", str "c"])
      (str "a->b") (str "c") := ⟨by decide, by decide⟩
  obtain ⟨pre, post, hs, hm⟩ := (h.2 (by rw [ho])).2 _ _ hr
  rw [ho] at hs
  have hp : pre = [] := by
    rcases pre with _ | ⟨x, pre⟩
    · rfl
    · have hc : str "c" ∈ [str "a", str "a->b", str "b->c"] := by
        rw [(List.cons.inj hs).2]
        simp
      exact absurd hc (by decide)
  rw [hp] at hm
  exact not_mem_nil hm

end GoPosix.Tsort
