import Mathlib.Data.List.Basic

/-!
# Sorted lists

Lists that ascend in the order of a comparison function. What is less than the head of such a list
is less than everything in it (`AscendingBy.lt_of_lt`). `strings.Compare` is `compare` on byte
strings: the order of bytes, and of a string and what it begins with.
-/

/-- No element is greater than a later one. -/
def AscendingBy {α : Type} (cmp : α → α → Ordering) (l : List α) : Prop :=
  l.Pairwise fun a b => (cmp a b).isLE = true

namespace AscendingBy

variable {α : Type} {cmp : α → α → Ordering}

instance [DecidableEq α] : Decidable (AscendingBy cmp l) :=
  inferInstanceAs (Decidable (l.Pairwise fun a b => (cmp a b).isLE = true))

theorem tail (h : AscendingBy cmp (y :: l)) : AscendingBy cmp l := List.Pairwise.of_cons h

theorem sublist (h : AscendingBy cmp l) (hl : l'.Sublist l) : AscendingBy cmp l' :=
  List.Pairwise.sublist hl h

theorem head (h : AscendingBy cmp (y :: l)) : ∀ z ∈ l, (cmp y z).isLE = true :=
  (List.pairwise_cons.mp h).1

variable [Std.TransCmp cmp]

/-- **What is less than the head is less than everything.** -/
theorem lt_of_lt (h : AscendingBy cmp (y :: l)) (hxy : cmp x y = .lt) :
    ∀ z ∈ y :: l, cmp x z = .lt := by
  intro z hz
  rcases List.mem_cons.mp hz with rfl | hz
  · exact hxy
  · exact Std.TransCmp.lt_of_lt_of_isLE hxy (h.head z hz)

theorem not_mem_of_lt (h : AscendingBy cmp (y :: l)) (hxy : cmp x y = .lt) : x ∉ y :: l := by
  intro hx
  have hs : cmp x x = .eq := Std.ReflCmp.compare_self
  rw [h.lt_of_lt hxy x hx] at hs
  cases hs

end AscendingBy
