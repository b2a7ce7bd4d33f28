import Mathlib.Data.Nat.ModEq

/-!
# Stop and wait

A sender sends a block until it is acknowledged and then goes on to the next one. The receiver takes
a block that it does not have yet and acknowledges it, and acknowledges one that comes again. A
block that is not taken is not acknowledged, and an acknowledgement can get lost. `Step` says what
can happen, in numbers of blocks. A receiver that counts them modulo some `m ≥ 2` knows a new block
from an old one (`number_eq_iff`).

The receiver is never more than one block ahead (`Step.inv`), so when the sender has come to its end
the receiver has all the blocks, in order and each of them once (`Inv.complete`).
-/

namespace StopAndWait

variable {α : Type}

/-- How many blocks have been acknowledged, as the sender knows, and what the receiver has taken. -/
structure State (α : Type) where
  acked : ℕ
  taken : List α

/-- A block is sent and perhaps answered. -/
inductive Step (blocks : List α) : State α → State α → Prop
  /-- The block is refused, or the acknowledgement of a block that came again gets lost. -/
  | none (s : State α) : Step blocks s s
  /-- A new block is taken. -/
  | take {s : State α} {b : α} (hnew : s.taken.length = s.acked) (hb : blocks[s.acked]? = some b)
      (seen : Bool) :
      Step blocks s ⟨if seen then s.acked + 1 else s.acked, s.taken ++ [b]⟩
  /-- A block that came again is acknowledged. -/
  | again {s : State α} (hold : s.taken.length = s.acked + 1) : Step blocks s ⟨s.acked + 1, s.taken⟩

/-- The receiver has the first blocks: those that have been acknowledged, and perhaps one more. -/
structure Inv (blocks : List α) (s : State α) : Prop where
  taken : s.taken = blocks.take s.taken.length
  le : s.acked ≤ s.taken.length
  ahead : s.taken.length ≤ s.acked + 1

theorem Inv.init (b : List α) : Inv b ⟨0, []⟩ := ⟨rfl, Nat.le_refl 0, Nat.zero_le 1⟩

theorem Step.inv (h : Step blocks s s') (hi : Inv blocks s) : Inv blocks s' := by
  cases h with
  | none => exact hi
  | take hn hb se =>
    refine ⟨?_, ?_, ?_⟩
    · rw [List.length_append, List.length_singleton, List.take_add_one, ← hi.taken, hn, hb]
      rfl
    · split <;> simp [hn]
    · split <;> simp [hn]
  | again hold => exact ⟨hi.taken, hold.ge, hold.le.trans (Nat.le_succ _)⟩

/-- **The end.** When all blocks have been acknowledged, the receiver has them all. -/
theorem Inv.complete (hi : Inv blocks s) (he : blocks.length ≤ s.acked) : s.taken = blocks := by
  rw [hi.taken]
  exact List.take_of_length_le (he.trans hi.le)

/-- **Counting modulo `m`.** A block has the number that is expected if and only if it is new. -/
theorem number_eq_iff (hm : 2 ≤ m) (hi : Inv blocks s) :
    s.acked % m = s.taken.length % m ↔ s.taken.length = s.acked := by
  constructor
  · intro h
    rcases Nat.eq_or_lt_of_le hi.le with heq | hlt
    · exact heq.symm
    -- one ahead, and 1 is not 0 modulo `m`
    have ho : s.taken.length = s.acked + 1 := by
      have := hi.ahead
      omega
    rw [ho] at h
    have hd : m ∣ s.acked + 1 - s.acked := (Nat.modEq_iff_dvd' (Nat.le_succ _)).mp h
    rw [Nat.add_sub_cancel_left] at hd
    have := Nat.le_of_dvd Nat.one_pos hd
    omega
  · intro h
    rw [h]

end StopAndWait
