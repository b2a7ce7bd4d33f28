import Mathlib.Data.List.Basic

/-!
# A list in pieces of one length

`pieces k stop l` cuts pieces of `k` elements from the head of a list while at least `stop` elements
are there; what is left then is the last piece. With `stop = k` it is shorter than the others and
may be empty, with `stop = k + 1` it may be as long and is empty only if the list is.
-/

namespace Pieces

open List

variable {α : Type}

def pieces (k stop : Nat) (l : List α) : List (List α) :=
  if 0 < k ∧ 0 < stop ∧ stop ≤ l.length then l.take k :: pieces k stop (l.drop k) else [l]
termination_by l.length
decreasing_by
  rw [List.length_drop]
  omega

section

variable {l : List α}

theorem pieces_of_lt (h : l.length < stop) : pieces k stop l = [l] := by
  rw [pieces, if_neg (by omega)]

theorem pieces_of_le (hk : 0 < k) (hs : 0 < stop) (h : stop ≤ l.length) :
    pieces k stop l = l.take k :: pieces k stop (l.drop k) := by
  rw [pieces, if_pos ⟨hk, hs, h⟩]

theorem pieces_ne_nil : pieces k stop l ≠ [] := by
  rw [pieces]
  split <;> simp

/-- **The pieces are the list.** -/
theorem flatten_pieces (k stop : Nat) (l : List α) : (pieces k stop l).flatten = l := by
  fun_induction pieces k stop l with
  | case1 l _ ih => rw [flatten_cons, ih, take_append_drop]
  | case2 l _ => simp

theorem length_pieces (hk : 0 < k) (hs : k ≤ stop) :
    (pieces k stop l).length = (l.length + k - stop) / k + 1 := by
  fun_induction pieces k stop l with
  | case1 l h ih =>
    have hl : l.length + k - stop = (l.length - stop) + k := by omega
    rw [length_cons, ih, hl, Nat.add_div_right _ hk, length_drop,
      show l.length - k + k - stop = l.length - stop by omega]
  | case2 l h =>
    have hlt : (l.length + k - stop) / k = 0 := Nat.div_eq_of_lt (by omega)
    rw [hlt]
    rfl

theorem length_of_mem_dropLast (hs : k ≤ stop) :
    ∀ p ∈ (pieces k stop l).dropLast, p.length = k := by
  fun_induction pieces k stop l with
  | case1 l h ih =>
    intro p hp
    rw [dropLast_cons_of_ne_nil pieces_ne_nil, mem_cons] at hp
    rcases hp with rfl | hp
    · rw [length_take]
      omega
    · exact ih p hp
  | case2 l _ => simp

theorem flatten_take_pieces : ∀ {n : Nat}, n < (pieces k stop l).length →
    ((pieces k stop l).take n).flatten = l.take (n * k) := by
  fun_induction pieces k stop l with
  | case1 l _ ih =>
    intro n hn
    cases n with
    | zero => simp
    | succ n =>
      rw [take_succ_cons, flatten_cons, ih (Nat.lt_of_succ_lt_succ hn), Nat.succ_mul, Nat.add_comm,
        take_add]
  | case2 l _ =>
    intro n hn
    have hzero : n = 0 := by simpa using hn
    simp [hzero]

theorem nil_mem_pieces (hk : 0 < k) (hs : stop = k) : [] ∈ pieces k stop l ↔ l.length % k = 0 := by
  fun_induction pieces k stop l with
  | case1 l h ih =>
    have ht : [] ≠ l.take k := by
      intro hn
      have hl := congrArg List.length hn
      rw [length_take, length_nil] at hl
      omega
    rw [mem_cons, or_iff_right ht, ih, length_drop, ← Nat.mod_eq_sub_mod (by omega)]
  | case2 l h =>
    have hlt : l.length < k := by omega
    rw [mem_singleton, Nat.mod_eq_of_lt hlt, length_eq_zero_iff]
    exact eq_comm

theorem nil_mem_pieces_succ (hk : 0 < k) (hs : stop = k + 1) : [] ∈ pieces k stop l ↔ l = [] := by
  fun_induction pieces k stop l with
  | case1 l h ih =>
    have hne : ∀ l' : List α, 0 < l'.length → l' ≠ [] := fun _ => length_pos_iff.mp
    have ht : [] ≠ l.take k := (hne _ (by rw [length_take]; omega)).symm
    have hd : l.drop k ≠ [] := hne _ (by rw [length_drop]; omega)
    rw [mem_cons, or_iff_right ht, ih, iff_false_left hd]
    exact hne l (by omega)
  | case2 l _ =>
    rw [mem_singleton]
    exact eq_comm

end

/-! ## Texts under names -/

section

variable {K V : Type} [DecidableEq K] {l : List (K × V)}

/-- Every text is put under its name, one after the other. -/
def putAll (d : K → Option V) (l : List (K × V)) : K → Option V :=
  l.foldl (fun d p => Function.update d p.1 (some p.2)) d

theorem putAll_of_notMem (h : x ∉ l.map Prod.fst) : putAll d l x = d x := by
  induction l generalizing d with
  | nil => rfl
  | cons p l ih =>
    rw [map_cons, mem_cons, not_or] at h
    exact (ih h.2).trans (Function.update_of_ne h.1 _ _)

/-- **Under different names every text is found again.** -/
theorem map_putAll (h : (l.map Prod.fst).Nodup) :
    (l.map Prod.fst).map (putAll d l) = (l.map Prod.snd).map some := by
  induction l generalizing d with
  | nil => rfl
  | cons p l ih =>
    rw [map_cons, nodup_cons] at h
    have hh : putAll d (p :: l) p.1 = some p.2 :=
      (putAll_of_notMem h.1).trans (Function.update_self _ _ _)
    rw [map_cons, map_cons, hh]
    exact congrArg _ (ih h.2)

end

end Pieces
