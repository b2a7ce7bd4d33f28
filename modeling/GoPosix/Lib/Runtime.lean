import Mathlib.Data.List.Basic
import Mathlib.Tactic.Ring

/-!
# Slices with checked indices, loops that may fault, and integers that wrap

Slices are lists here, indices are `Int` (a machine integer may be negative before it is used as an
index), and a computation that can panic runs in `Exec`: `index` and `store` fault unless the index
is in range. `Fault.nil` is the panic of a program that uses a nil pointer or interface.

`Fault.fuel` is not an outcome of the program. A loop without a structural bound runs on fuel, and
running out of it is kept apart from a panic: a theorem that a loop returns says that its fuel
suffices.

`wrap64` is the value a 64-bit signed integer takes. It stands where a sum or a product can leave
the range.
-/

namespace Slice

inductive Fault
  | index
  | nil
  | fuel
  deriving DecidableEq, Repr

abbrev Exec := Except Fault

variable {α β : Type}

def index (l : List α) (i : Int) : Exec α :=
  if 0 ≤ i then
    match l[i.toNat]? with
    | some v => .ok v
    | none => .error .index
  else .error .index

def store (l : List α) (i : Int) (v : α) : Exec (List α) :=
  if 0 ≤ i ∧ i < l.length then .ok (l.set i.toNat v) else .error .index

def upTo (l : List α) (i : Int) : Exec (List α) :=
  if 0 ≤ i ∧ i ≤ l.length then .ok (l.take i.toNat) else .error .index

def startingAt (l : List α) (i : Int) : Exec (List α) :=
  if 0 ≤ i ∧ i ≤ l.length then .ok (l.drop i.toNat) else .error .index

/-! ## Reading -/

variable {l : List α} {i : Int}

theorem index_natCast {i : Nat} (h : l[i]? = some v) : index l (i : Int) = .ok v := by
  simp [index, h]

theorem index_of_eq {n : Nat} (hi : i = n) (h : l[n]? = some v) : index l i = .ok v := by
  subst hi
  exact index_natCast h

theorem index_eq_ok : index l i = .ok v ↔ 0 ≤ i ∧ l[i.toNat]? = some v := by
  unfold index
  split
  · next hi =>
    cases h : l[i.toNat]? with
    | none => simp
    | some w => simp [hi]
  · next hi => simp [hi]

theorem index_neg (h : i < 0) : index l i = .error .index := by
  simp [index, Int.not_le.mpr h]

/-! ## Writing -/

theorem store_ok (h0 : 0 ≤ i) (hl : i < l.length) : store l i v = .ok (l.set i.toNat v) := by
  simp [store, h0, hl]

theorem index_set_self (h0 : 0 ≤ i) (hl : i < l.length) : index (l.set i.toNat v) i = .ok v := by
  refine index_eq_ok.mpr ⟨h0, ?_⟩
  rw [List.getElem?_set_self (by omega)]

theorem index_set_ne (h0 : 0 ≤ i) (hne : i ≠ j) : index (l.set i.toNat v) j = index l j := by
  unfold index
  split
  · rw [List.getElem?_set_ne (by omega)]
  · rfl

end Slice

namespace MachineInt

/-- The signed 64-bit value that is congruent to `z`. -/
def wrap64 (z : Int) : Int := Int.bmod z (2 ^ 64)

theorem wrap64_natAbs_lt (z : Int) : (wrap64 z).natAbs < 2 ^ 64 := by
  unfold wrap64
  have hl := Int.le_bmod (x := z) (m := 2 ^ 64) (by decide)
  have hh := Int.bmod_lt (x := z) (m := 2 ^ 64) (by decide)
  omega

theorem wrap64_of_lt (h0 : -2 ^ 63 ≤ z) (h1 : z < 2 ^ 63) : wrap64 z = z := by
  unfold wrap64
  rw [Int.bmod_eq_of_le (by omega) (by omega)]

theorem wrap64_overflow (h0 : 2 ^ 63 ≤ z) (h1 : z < 2 ^ 64) : wrap64 z = z - 2 ^ 64 := by
  unfold wrap64
  rw [Int.bmod_def]
  omega

end MachineInt
