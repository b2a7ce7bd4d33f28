import GoPosix.Lib.Bytes
import GoPosix.Lib.Runtime

/-!
# Programs that write to an `io.Writer`

A program in `Output` writes, may panic, and may stop with an error. A writer takes each call or
refuses it, with an error and after some of the bytes: `faults` says which, and a statement about a
program is about all writers.

`Writes m image a`: on every writer `m` does not panic, and it writes `image` and returns `a` unless
a call is refused. It is proved along the program with `Writes.bind`.
-/

open Slice

/-- A writer: what it has taken so far, and for each call whether it is refused, after how many
bytes and with which error. -/
structure Output.Writer where
  written : Bytes := []
  faults : Nat → Option (Nat × Bytes) := fun _ => none
  calls : Nat := 0

/-- Programs. A panic ends them without a result. -/
def Output (α : Type) := Output.Writer → Exec (Except Bytes α × Output.Writer)

namespace Output

/-- The writer after a call that took `data`. -/
def Writer.take (w : Writer) (data : Bytes) : Writer :=
  { w with written := w.written ++ data, calls := w.calls + 1 }

instance : Monad Output where
  pure a := fun w => .ok (.ok a, w)
  bind m f := fun w => match m w with
    | .error fault => .error fault
    | .ok (.error e, w') => .ok (.error e, w')
    | .ok (.ok a, w') => f a w'

/-- A computation that only may panic. -/
def exec {α : Type} (e : Exec α) : Output α := fun w => e.map fun a => (.ok a, w)

instance : MonadLift Exec Output := ⟨exec⟩

/-- `w.Write(data)`, with a return on an error. -/
def write (data : Bytes) : Output Unit := fun w =>
  match w.faults w.calls with
  | some (n, e) => .ok (.error e, w.take (data.take n))
  | none => .ok (.ok (), w.take data)

def times (m : Output Unit) : Nat → Output Unit
  | 0 => pure ()
  | n + 1 => do
    m
    times m n

/-- `m` writes `image` and returns `a`, or a call is refused. -/
def Writes {α : Type} (m : Output α) (image : Bytes) (a : α) : Prop :=
  ∀ w, (∃ w', m w = .ok (.ok a, w') ∧ w'.written = w.written ++ image ∧ w'.faults = w.faults) ∨
    ∃ e w', m w = .ok (.error e, w') ∧ ∃ n, w.faults n ≠ none

section

variable {α β : Type}

theorem Writes.pure (a : α) : Writes (Pure.pure a) [] a :=
  fun w => .inl ⟨w, rfl, (List.append_nil _).symm, rfl⟩

/-- **Composition.** -/
theorem Writes.bind (hm : Writes m image a) (hf : Writes (f a) image' b) :
    Writes (m >>= f) (image ++ image') b := by
  intro w
  rcases hm w with ⟨w', hw, hwritten, hfails⟩ | ⟨e, w', hw, hr⟩
  · have hrun : (m >>= f) w = f a w' := by
      simp only [Bind.bind, hw]
    rw [hrun]
    rcases hf w' with ⟨w'', hw', hwritten', hfails'⟩ | ⟨e, w'', hw', n, hn⟩
    · refine .inl ⟨w'', hw', ?_, hfails'.trans hfails⟩
      rw [hwritten', hwritten, List.append_assoc]
    · exact .inr ⟨e, w'', hw', n, hfails ▸ hn⟩
  · refine .inr ⟨e, w', ?_, hr⟩
    simp only [Bind.bind, hw]

theorem Writes.write (data : Bytes) : Writes (write data) data () := by
  intro w
  unfold Output.write
  cases hw : w.faults w.calls with
  | none => exact .inl ⟨_, rfl, rfl, rfl⟩
  | some refusal => exact .inr ⟨_, _, rfl, w.calls, by rw [hw]; exact Option.some_ne_none _⟩

theorem Writes.exec_bind (he : e = .ok a) (hf : Writes (f a) image b) :
    Writes (exec e >>= f) image b := by
  subst he
  exact hf

theorem Writes.times (data : Bytes) (n : Nat) :
    Writes (times (Output.write data) n) (List.replicate n data).flatten () := by
  induction n with
  | zero => exact Writes.pure ()
  | succ n ih =>
    exact (Writes.write data).bind ih

theorem Writes.written (hm : Writes m image a)
    (hr : m w = .ok (.ok a', w')) : a' = a ∧ w'.written = w.written ++ image := by
  rcases hm w with ⟨w₁, hw, hwritten, -⟩ | ⟨e, w₁, hw, -⟩
  · rw [hr] at hw
    cases hw
    exact ⟨rfl, hwritten⟩
  · rw [hr] at hw
    cases hw

theorem Writes.complete (hm : Writes m image a) (hw : ∀ n, w.faults n = none) :
    ∃ w', m w = .ok (.ok a, w') ∧ w'.written = w.written ++ image := by
  rcases hm w with ⟨w', hr, hwritten, -⟩ | ⟨e, w', -, n, hn⟩
  · exact ⟨w', hr, hwritten⟩
  · exact absurd (hw n) hn

end

end Output
