import Mathlib.Data.List.Nodup

/-!
# Ordered maps

A list of entries with different keys, as a map that remembers the order in which keys came. `put`
replaces the entry of a key where it stands, or appends; a sequence of puts is described by the keys
(`keys_foldl_put`) and by what is found under each of them (`lookup_foldl_put`).
-/

namespace OrderedMap

open List

section

variable {ε κ : Type} [DecidableEq κ] (key : ε → κ)

def lookup (l : List ε) (k : κ) : Option ε := l.find? fun x => key x = k

def put (l : List ε) (e : ε) : List ε :=
  if key e ∈ l.map key then l.map fun x => if key x = key e then e else x else l ++ [e]

def firsts : List κ → List κ
  | [] => []
  | k :: ks => k :: (firsts ks).filter (· ≠ k)

/-- The keys that are new, in the order in which they come. -/
def newKeys (keys ks : List κ) : List κ := firsts (ks.filter (· ∉ keys))

variable {key} {l es : List ε}

theorem keys_put :
    (put key l e).map key = if key e ∈ l.map key then l.map key else l.map key ++ [key e] := by
  unfold put
  split
  · rw [map_map]
    apply map_congr_left
    intro x _
    show key (if key x = key e then e else x) = key x
    split
    · next h => exact h.symm
    · rfl
  · rw [map_append]
    rfl

theorem nodup_put (h : (l.map key).Nodup) : ((put key l e).map key).Nodup := by
  rw [keys_put]
  split
  · exact h
  next hn =>
  rw [nodup_append]
  refine ⟨h, nodup_singleton _, ?_⟩
  intro a ha b hb hab
  rw [mem_singleton.mp hb] at hab
  exact hn (hab ▸ ha)

/-- Replacing the entry of a key changes the lookup of this key only. -/
theorem lookup_map_replace (hk : key e ∈ l.map key) :
    lookup key (l.map fun x => if key x = key e then e else x) k = if k = key e then some e
      else lookup key l k := by
  induction l with
  | nil => cases hk
  | cons x l ih =>
    unfold lookup at ih ⊢
    rw [map_cons]
    by_cases hx : key x = key e
    · rw [if_pos hx]
      by_cases hk' : k = key e
      · rw [if_pos hk', List.find?_cons_of_pos (by simp [hk'])]
      have hne : key x ≠ k := fun h => hk' (by rw [← h, hx])
      rw [if_neg hk', List.find?_cons_of_neg (by simpa using Ne.symm hk'),
        List.find?_cons_of_neg (by simpa using hne)]
      -- the key may occur again, or not
      by_cases hagain : key e ∈ l.map key
      · rw [ih hagain, if_neg hk']
      congr 1
      conv => rhs; rw [← map_id l]
      apply map_congr_left
      intro y hy
      have hy' : key y ≠ key e := fun h => hagain (by rw [← h]; exact mem_map_of_mem hy)
      rw [if_neg hy']
      rfl
    · rw [if_neg hx]
      have hm : key e ∈ l.map key := by
        rw [map_cons, mem_cons] at hk
        exact hk.resolve_left fun h => hx h.symm
      by_cases hxk : key x = k
      · rw [List.find?_cons_of_pos (by simpa using hxk),
          List.find?_cons_of_pos (by simpa using hxk),
          if_neg fun h => hx (hxk.trans h)]
      · rw [List.find?_cons_of_neg (by simpa using hxk),
          List.find?_cons_of_neg (by simpa using hxk), ih hm]

/-- **One put**: the entry is found under its key, and the others as before. -/
theorem lookup_put : lookup key (put key l e) k = if k = key e then some e else lookup key l k := by
  unfold put
  split
  · next h => exact lookup_map_replace h
  next h =>
  unfold lookup
  rw [List.find?_append]
  by_cases hk : k = key e
  · have hn : (l.find? fun x => key x = k) = none := by
      rw [List.find?_eq_none]
      intro x hx
      simp only [decide_eq_true_eq]
      exact fun hxk => h (by rw [← hk, ← hxk]; exact mem_map_of_mem hx)
    rw [if_pos hk, hn, Option.none_or, List.find?_cons_of_pos (by simp [hk])]
  · rw [if_neg hk, List.find?_cons_of_neg (by simpa using Ne.symm hk), List.find?_nil,
      Option.or_none]

theorem nodup_foldl_put (h : (l.map key).Nodup) : ((es.foldl (put key) l).map key).Nodup := by
  induction es generalizing l with
  | nil => exact h
  | cons e _ ih => exact ih (nodup_put h)

theorem firsts_filter (p : κ → Bool) (ks : List κ) :
    firsts (ks.filter p) = (firsts ks).filter p := by
  induction ks with
  | nil => rfl
  | cons k ks ih =>
    rw [firsts, filter_cons]
    by_cases hk : p k = true
    · rw [if_pos hk, firsts, ih, filter_cons, if_pos hk, filter_filter, filter_filter]
      simp only [Bool.and_comm]
    rw [if_neg hk, ih, filter_cons, if_neg hk, filter_filter]
    apply filter_congr
    intro x _
    by_cases hx : x = k
    · rw [hx, Bool.eq_false_iff.mpr hk, Bool.false_and]
    · simp [hx]

/-- **The keys of a run**: those that were there, and then the new ones. -/
theorem keys_foldl_put :
    (es.foldl (put key) l).map key = l.map key ++ newKeys (l.map key) (es.map key) := by
  induction es generalizing l with
  | nil => exact (append_nil _).symm
  | cons e es ih =>
    rw [foldl_cons, ih, keys_put, map_cons, newKeys, newKeys, filter_cons]
    by_cases he : key e ∈ l.map key
    · rw [if_pos he, if_neg (by simpa using he)]
    rw [if_neg he, if_pos (by simpa using he), firsts, append_assoc, singleton_append,
      firsts_filter, firsts_filter, filter_filter]
    congr 2
    apply filter_congr
    intro x _
    rw [← Bool.decide_and, decide_eq_decide, mem_append, mem_singleton, not_or, and_comm]

/-- **What is found after a run**: the last entry that came for a key, or the one that was there. -/
theorem lookup_foldl_put :
    lookup key (es.foldl (put key) l) k = (lookup key es.reverse k).or (lookup key l k) := by
  induction es generalizing l with
  | nil => rfl
  | cons e es ih =>
    rw [foldl_cons, ih, lookup_put, reverse_cons]
    have hs : lookup key (es.reverse ++ [e]) k =
        (lookup key es.reverse k).or (if k = key e then some e else none) := by
      unfold lookup
      rw [List.find?_append, List.find?_singleton]
      by_cases hk : key e = k
      · rw [if_pos (by simpa using hk), if_pos hk.symm]
      · rw [if_neg (by simpa using hk), if_neg (Ne.symm hk)]
    rw [hs, Option.or_assoc]
    split <;> rfl

/-- Setting the entry at an index is putting it under its key. -/
theorem set_eq_put (h : (l.map key).Nodup) (hi : l[i]? = some x) (hk : key x = key e) :
    l.set i e = put key l e := by
  have hm : key e ∈ l.map key := by
    rw [← hk]
    exact mem_map_of_mem (mem_of_getElem? hi)
  rw [put, if_pos hm]
  clear hm
  induction l generalizing i with
  | nil => cases hi
  | cons y l ih =>
    rw [map_cons, nodup_cons] at h
    cases i with
    | zero =>
      obtain rfl : y = x := Option.some.inj hi
      rw [set_cons_zero, map_cons, if_pos hk]
      congr 1
      conv => lhs; rw [← map_id l]
      apply map_congr_left
      intro z hz
      rw [if_neg fun hz' => h.1 (by rw [hk, ← hz']; exact mem_map_of_mem hz)]
      rfl
    | succ i =>
      have hne : key y ≠ key e := by
        intro hy
        apply h.1
        rw [hy, ← hk]
        exact mem_map_of_mem (mem_of_getElem? hi)
      rw [set_cons_succ, map_cons, if_neg hne, ih h.2 hi]

end

end OrderedMap
