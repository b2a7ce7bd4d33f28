import GoPosix.Lib.Bytes

/-!
# Making one file from another

A program reads a source, makes an output file from it and may remove the source, in steps all of
which can fail; `Outcomes` says how they end. There is a step for every operand (`Step`); `run`
takes a list of them.

`Safe` is what one wants of it: a source is removed only behind a complete output, a failure leaves
no output behind, and it is reported. `safe_iff` takes this apart into the single steps.
-/

open Bytes Function

namespace Replace

/-! ## Files -/

inductive Entry
  | dir (size : Nat)
  | file (content : Bytes)

def Entry.size : Entry → Nat
  | .dir size => size
  | .file content => content.length

/-- What there is under a path. -/
abbrev Files := Bytes → Option Entry

/-- How a call into a library ends. -/
inductive Ending
  | ok
  | err (msg : Bytes)
  | panic
  deriving DecidableEq

/-- How the calls end that are made for one operand. An error has a text where it is printed. -/
structure Outcomes where
  /-- The source cannot be looked up, whether or not it is there. -/
  statErr : Option Bytes
  openErr : Option Bytes
  /-- The constructor of the compressor or decompressor. -/
  start : Ending
  /-- The output cannot be looked up although it is there. -/
  outStatErr : Bool
  createErr : Option Bytes
  /-- What a copy has written when it ends. -/
  written : Bytes
  copy : Ending
  /-- What closing the compressor writes, and whether it succeeds. -/
  flushed : Bytes
  flush : Bool
  /-- Whether the output is closed without an error. -/
  close : Bool
  removeOut : Bool
  removeSource : Bool

def Files.stat (files : Files) (p : Bytes) : (err : Option Bytes) → Except Bytes Entry
  | some msg => .error msg
  | none =>
    match files p with
    | some e => .ok e
    | none => .error (str "stat " ++ p ++ str ": no such file or directory")

/-- `os.OpenFile` for an output, which creates or empties it. -/
def Files.create (files : Files) (p : Bytes) : (err : Option Bytes) → Except Bytes Files
  | some msg => .error msg
  | none =>
    match files p with
    | some (.dir _) => .error (str "open " ++ p ++ str ": is a directory")
    | _ => .ok (update files p (some (.file [])))

/-- The output is filled. -/
def Files.put (files : Files) (p content : Bytes) : Files := update files p (some (.file content))

def Files.remove (files : Files) (succeeds : Bool) (p : Bytes) : Files :=
  if succeeds then update files p none else files

section

variable {files files' : Files}

@[simp] theorem put_same : files.put p content p = some (.file content) := update_self ..

theorem put_other (h : q ≠ p) : files.put p content q = files q := update_of_ne h ..

@[simp] theorem remove_same : files.remove true p p = none := update_self ..

@[simp] theorem remove_false : files.remove false p = files := rfl

theorem remove_other (h : q ≠ p) (s : Bool) : files.remove s p q = files q := by
  cases s with
  | false => rfl
  | true => exact update_of_ne h ..

theorem remove_eq_none (h : files p ≠ none) (s : Bool) : files.remove s p p = none ↔ s = true := by
  cases s with
  | false => simp [h]
  | true => simp

theorem create_other (h : files.create p err = .ok files') (hq : q ≠ p) : files' q = files q := by
  unfold Files.create at h
  split at h
  · cases h
  · split at h
    · cases h
    · cases h
      exact update_of_ne hq ..

end

/-! ## Operand by operand -/

/-- How a step ends: without an error, with one that the exit code remembers, or with the end of the
program. -/
inductive Verdict
  | fine
  | failed
  | returned
  | crashed
  deriving DecidableEq

def Verdict.stops : Verdict → Bool
  | .fine => false
  | .failed => false
  | .returned => true
  | .crashed => true

/-- The exit code behind a step: 1 for an error, and 2 for a panic. -/
def Verdict.exitCode : Verdict → Nat → Nat
  | .fine, code => code
  | .failed, _ => 1
  | .returned, _ => 1
  | .crashed, _ => 2

/-- What a program does with one operand. It may have opened an output, and it says something. -/
structure Step (β : Type) where
  after : Files
  output : Option Bytes
  verdict : Verdict
  messages : List β

section

variable {α β : Type} (step : Files → α → Step β)

/-- The operands that have their turn, with the files that the program finds. -/
def run : Files → List α → List (Files × α)
  | _, [] => []
  | files, a :: as =>
    (files, a) :: if (step files a).verdict.stops then [] else run (step files a).after as

def exitCode (turns : List (Files × α)) : Nat :=
  turns.foldl (fun code t => (step t.1 t.2).verdict.exitCode code) 0

/-- **What one wants**, where `source` is the file of an operand and `complete` says whether every
step to an output of it succeeds. -/
structure Safe (source : α → Option Bytes) (complete : Files → α → Bool) (files : Files)
    (operands : List α) :
    Prop where
  keeps : ∀ t ∈ run step files operands, complete t.1 t.2 = false →
    ∀ s, source t.2 = some s → t.1 s ≠ none → (step t.1 t.2).after s ≠ none
  clears : ∀ t ∈ run step files operands, complete t.1 t.2 = false →
    ∀ o, (step t.1 t.2).output = some o → (step t.1 t.2).after o = none
  reports : (∃ t ∈ run step files operands, complete t.1 t.2 = false) ∨
      (run step files operands).length < operands.length →
    exitCode step (run step files operands) ≠ 0

/-- The first two, for one operand. -/
structure Tidy (source : α → Option Bytes) (complete : Files → α → Bool) (files : Files) (a : α) :
    Prop where
  keeps : complete files a = false → ∀ s, source a = some s → files s ≠ none →
    (step files a).after s ≠ none
  clears : complete files a = false → ∀ o, (step files a).output = some o →
    (step files a).after o = none

/-- An operand is not complete, and nobody says so. -/
def Silent (complete : Files → α → Bool) (files : Files) (a : α) : Prop :=
  complete files a = false ∧ (step files a).verdict = .fine

variable {step} {complete : Files → α → Bool}

theorem tidy_of_complete (h : complete files a = true) : Tidy step source complete files a :=
  ⟨fun hf => absurd (h.symm.trans hf) Bool.true_eq_false.mp, fun hf =>
    absurd (h.symm.trans hf) Bool.true_eq_false.mp⟩

theorem tidy_of_unchanged (hafter : (step files a).after = files)
    (houtput : (step files a).output = none) :
    Tidy step source complete files a := by
  constructor
  · intro _ s _ ht
    rw [hafter]
    exact ht
  · intro _ o ho
    rw [houtput] at ho
    cases ho

section

variable {a : α} (hincomplete : complete files a = false)
  (houtput : (step files a).output = some dst)

include hincomplete houtput

theorem not_tidy_of_left (hl : (step files a).after dst ≠ none) :
    ¬ Tidy step source complete files a :=
  fun ht => hl (ht.clears hincomplete dst houtput)

/-- **An output that is removed again.** -/
theorem tidy_iff_removed (hsource : source a = some src)
    (ht : files src ≠ none) (hc : files.create dst err = .ok created)
    (hafter : (step files a).after = (created.put dst content).remove removed dst) :
    Tidy step source complete files a ↔ removed = true ∧ src ≠ dst := by
  constructor
  · intro htidy
    have hg := htidy.clears hincomplete dst houtput
    rw [hafter, remove_eq_none (by simp)] at hg
    refine ⟨hg, ?_⟩
    rintro rfl
    have hk := htidy.keeps hincomplete src hsource ht
    rw [hafter, hg, remove_same] at hk
    exact hk rfl
  · rintro ⟨rfl, hne⟩
    constructor
    · intro _ s hs _
      obtain rfl : src = s := Option.some.inj (hsource.symm.trans hs)
      rw [hafter, remove_other hne, put_other hne, create_other hc hne]
      exact ht
    · intro _ out ho
      obtain rfl : dst = out := Option.some.inj (houtput.symm.trans ho)
      rw [hafter, remove_same]

end

theorem exitCode_ne_zero (turns : List (Files × α)) :
    exitCode step turns ≠ 0 ↔ ∃ t ∈ turns, (step t.1 t.2).verdict ≠ .fine := by
  -- the exit code so far is kept or becomes an error
  have hl : ∀ code, turns.foldl (fun code t => (step t.1 t.2).verdict.exitCode code) code ≠ 0 ↔
      code ≠ 0 ∨ ∃ t ∈ turns, (step t.1 t.2).verdict ≠ .fine := by
    induction turns with
    | nil => simp
    | cons t turns ih =>
      intro code
      rw [List.foldl_cons, ih]
      cases h : (step t.1 t.2).verdict <;> simp [h, Verdict.exitCode]
  exact (hl 0).trans (or_iff_right (fun h => h rfl))

theorem exists_stop (h : (run step files operands).length < operands.length) :
    ∃ t ∈ run step files operands, (step t.1 t.2).verdict ≠ .fine := by
  induction operands generalizing files with
  | nil => exact absurd h (Nat.not_lt_zero _)
  | cons a as ih =>
    rw [run] at h ⊢
    by_cases hs : (step files a).verdict.stops = true
    · refine ⟨_, List.mem_cons_self, fun hf => ?_⟩
      rw [hf] at hs
      cases hs
    · rw [if_neg hs] at h ⊢
      obtain ⟨t, ht, hne⟩ := ih (Nat.lt_of_succ_lt_succ h)
      exact ⟨t, List.mem_cons_of_mem _ ht, hne⟩

/-- **Step by step.** Every operand is tidy, and if one fails in silence another one does not. -/
theorem safe_iff : Safe step source complete files operands ↔
    (∀ t ∈ run step files operands, Tidy step source complete t.1 t.2) ∧
      ((∃ t ∈ run step files operands, Silent step complete t.1 t.2) →
        ∃ t ∈ run step files operands, (step t.1 t.2).verdict ≠ .fine) := by
  constructor
  · intro h
    refine ⟨fun t ht => ⟨h.keeps t ht, h.clears t ht⟩, ?_⟩
    rintro ⟨t, ht, hincomplete, -⟩
    exact (exitCode_ne_zero _).mp (h.reports (.inl ⟨t, ht, hincomplete⟩))
  · rintro ⟨htidy, hs⟩
    refine ⟨fun t ht => (htidy t ht).keeps, fun t ht => (htidy t ht).clears, fun h => ?_⟩
    rw [exitCode_ne_zero]
    rcases h with ⟨t, ht, hincomplete⟩ | hl
    · by_cases hf : (step t.1 t.2).verdict = .fine
      · exact hs ⟨t, ht, hincomplete, hf⟩
      · exact ⟨t, ht, hf⟩
    · exact exists_stop hl

end

end Replace
