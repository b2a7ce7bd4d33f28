import GoPosix.Common.DecompressSafe
import GoPosix.Gzip.Basic

/-!
# What a failed compression leaves behind

`execute` looks at the result of the copy where it works on a file, but never at what the last
`Close` of the compressor and that of the output return, and on the standard input at neither.
`sources_safe_iff` says what must not happen for a run to be safe.
-/

namespace GoPosix.Gzip

open Bytes Replace Common

section

variable (opts : Options)

def source (a : Bytes × Outcomes) : Option Bytes := if a.1 = str "-" then none else some a.1

/-- Where a file gets to: the files behind the opening of its output, and the output, if it is not
the standard output. Nothing if it is refused before. -/
def reach (files : Files) (file : Bytes) (o : Outcomes) : Option (Files × Option Bytes) :=
  if !(files.stat file o.statErr).isOk ||
      (opts.decompress && !hasSuffix file (str ".gz")) || o.openErr.isSome then
    none
  else if opts.toStdout then some (files, none)
  else if taken opts files (outName opts file) o then none
  else (files.create (outName opts file) o.createErr).toOption.map (·, some (outName opts file))

/-- The compressor is closed; there is nothing to close for the other direction. -/
def flushes (o : Outcomes) : Bool := opts.decompress || o.flush

def complete (files : Files) (a : Bytes × Outcomes) : Bool :=
  if a.1 = str "-" then a.2.start = .ok && a.2.copy = .ok && flushes opts a.2
  else (reach opts files a.1 a.2).any fun r =>
    a.2.start = .ok && a.2.copy = .ok && flushes opts a.2 && (r.2.isNone || a.2.close)

/-- The failures that the exit code tells. -/
def noticed (files : Files) (a : Bytes × Outcomes) : Bool :=
  if a.1 = str "-" then a.2.start ≠ .ok || a.2.copy = .panic
  else (reach opts files a.1 a.2).isNone || a.2.start ≠ .ok || a.2.copy ≠ .ok

/-- **The condition on a file**: if its output is opened, a failure of the compressor or of the copy
is followed by a removal that succeeds, and otherwise both are closed without an error; and there is
no panic. -/
def Careful (files : Files) (a : Bytes × Outcomes) : Prop :=
  ∀ created out, a.1 ≠ str "-" → reach opts files a.1 a.2 = some (created, some out) →
    panics a.2 = false ∧
      if processErr a.2 = none then flushes opts a.2 = true ∧ a.2.close = true
        else a.2.removeOut = true

variable {opts} {files created : Files}

theorem outName_ne (file : Bytes) : outName opts file ≠ file := by
  have happend : ∀ t : Bytes, t ≠ [] → file ++ t ≠ file := fun t ht h =>
    ht (List.append_right_eq_self.mp h)
  have htrim : ∀ t : Bytes, (if t = file then file ++ str ".unpacked" else t) ≠ file := by
    intro t
    by_cases h : t = file
    · rw [if_pos h]
      exact happend _ (by decide)
    · rw [if_neg h]
      exact h
  unfold outName
  by_cases hd : opts.decompress = true
  · rw [if_pos hd]
    exact htrim _
  · rw [if_neg hd]
    exact happend _ (by decide)

/-- **One file** is refused before anything is opened, or processed. -/
theorem executeFile_reach (files : Files) (file : Bytes) (o : Outcomes) :
    (reach opts files file o = none → ∃ m, executeFile opts files file o = refused files m) ∧
      ∀ created out, reach opts files file o = some (created, out) →
        ∃ ins, executeFile opts files file o = process opts created file ins out o := by
  unfold executeFile reach
  cases hsta : files.stat file o.statErr with
  | error msg =>
    refine ⟨fun _ => ?_, nofun⟩
    simp only
    split
    · exact ⟨_, rfl⟩
    · exact ⟨_, rfl⟩
  | ok i =>
    by_cases hs : (opts.decompress && !hasSuffix file (str ".gz")) = true
    · simp only [hs, Bool.or_true]
      exact ⟨fun _ => ⟨_, rfl⟩, nofun⟩
    cases ho : o.openErr with
    | some msg =>
      simp only [hs]
      exact ⟨fun _ => ⟨_, rfl⟩, nofun⟩
    | none =>
      have hg : (!(.ok i : Except Bytes Entry).isOk ||
          (opts.decompress && !hasSuffix file (str ".gz")) || (none : Option Bytes).isSome) =
              false := by
        rw [Bool.eq_false_iff.mpr hs]
        rfl
      simp only [hg, if_neg hs, openOutput, Bool.false_eq_true]
      by_cases hstdout : opts.toStdout = true
      · simp only [hstdout]
        refine ⟨nofun, fun created out h => ⟨i.size, ?_⟩⟩
        cases h
        rfl
      · by_cases ht : taken opts files (outName opts file) o = true
        · simp only [hstdout, ht, Bool.false_eq_true]
          exact ⟨fun _ => ⟨_, rfl⟩, nofun⟩
        simp only [hstdout, ht, Bool.false_eq_true]
        cases files.create (outName opts file) o.createErr with
        | error msg => exact ⟨fun _ => ⟨_, rfl⟩, nofun⟩
        | ok created =>
          refine ⟨nofun, fun created' out h => ⟨i.size, ?_⟩⟩
          cases h
          rfl

/-- The output file has been created, and the source is there. -/
theorem reach_out (h : reach opts files file o = some (created, some out)) :
    out = outName opts file ∧ files.create out o.createErr = .ok created ∧ files file ≠ none := by
  unfold reach at h
  split at h
  · cases h
  next hg =>
    split at h
    · cases h
    split at h
    · cases h
    cases hc : files.create (outName opts file) o.createErr with
    | error m =>
      rw [hc] at h
      cases h
    | ok created' =>
      rw [hc] at h
      cases h
      refine ⟨rfl, hc, fun hn => hg ?_⟩
      -- what is not there is not found
      unfold Files.stat
      cases o.statErr with
      | some m => rfl
      | none =>
        simp only [hn]
        rfl

theorem reach_stdout (h : reach opts files file o = some (created, none)) : created = files := by
  unfold reach at h
  split at h
  · cases h
  split at h
  · cases h
    rfl
  split at h
  · cases h
  generalize files.create (outName opts file) o.createErr = res at h
  cases res <;> cases h

theorem processed_iff (o : Outcomes) :
    (decide (o.start = .ok) && decide (o.copy = .ok)) = true ↔ panics o = false ∧
      processErr o = none := by
  unfold panics processErr
  cases o.start <;> cases o.copy <;> simp

theorem process_output (i : Nat) : (process opts created file i out o).output = out := by
  unfold process
  cases panics o with
  | true => rfl
  | false => cases processErr o <;> rfl

theorem process_verdict (i : Nat) : (process opts created file i out o).verdict = .fine ↔
      (decide (o.start = .ok) && decide (o.copy = .ok)) = true := by
  rw [processed_iff]
  unfold process
  cases panics o with
  | true => exact iff_of_false nofun nofun
  | false =>
    cases processErr o with
    | some m => exact iff_of_false nofun nofun
    | none => exact iff_of_true rfl ⟨rfl, rfl⟩

/-- **What the exit code tells.** -/
theorem fine_iff (files : Files) (a : Bytes × Outcomes) :
    (executeStep opts files a).verdict = .fine ↔ noticed opts files a = false := by
  obtain ⟨file, o⟩ := a
  unfold executeStep noticed
  by_cases hf : file = str "-"
  · simp only [hf, executeStdin]
    cases o.start with
    | err msg => simp
    | panic => simp
    | ok => cases o.copy <;> simp
  · simp only [if_neg hf]
    obtain ⟨hn, hsource⟩ := @executeFile_reach opts files file o
    cases hr : reach opts files file o with
    | none =>
      obtain ⟨m, hs⟩ := hn hr
      rw [hs]
      exact iff_of_false (nofun) nofun
    | some r =>
      obtain ⟨created, out⟩ := r
      obtain ⟨i, hs⟩ := hsource created out hr
      rw [hs, process_verdict]
      cases o.start <;> cases o.copy <;> simp

theorem complete_of_out (hf : file ≠ str "-")
    (h : reach opts files file o = some (created, some out)) :
    complete opts files (file, o) = true ↔
      panics o = false ∧ processErr o = none ∧ flushes opts o = true ∧ o.close = true := by
  unfold complete
  simp only [if_neg hf, h, Option.any_some, Option.isNone_some]
  rw [Bool.and_eq_true, Bool.and_eq_true, processed_iff]
  tauto

/-- When nothing is left behind, if there is an output file. -/
theorem tidy_iff_of_out (hf : file ≠ str "-")
    (h : reach opts files file o = some (created, some out)) :
    Tidy (executeStep opts) source (complete opts) files (file, o) ↔ panics o = false ∧
      if processErr o = none then flushes opts o = true ∧ o.close = true else o.removeOut =
          true := by
  obtain ⟨rfl, hcreated, ht⟩ := reach_out h
  have hne := @outName_ne opts file
  obtain ⟨i, hs⟩ := (@executeFile_reach opts files file o).2 _ _ h
  replace hs : executeStep opts files (file, o) =
      process opts created file i (some (outName opts file)) o := by
    rw [← hs, executeStep, if_neg hf]
  by_cases hc : complete opts files (file, o) = true
  · obtain ⟨hp, he, hclosed⟩ := (complete_of_out hf h).mp hc
    refine iff_of_true (tidy_of_complete hc) ⟨hp, ?_⟩
    rw [if_pos he]
    exact hclosed
  · have hi := Bool.eq_false_iff.mpr hc
    have ho : (executeStep opts files (file, o)).output = some (outName opts file) := by
      rw [hs, process_output]
    by_cases hp : panics o = true
    · rw [hp]
      refine iff_of_false (not_tidy_of_left hi ho ?_) nofun
      simp [hs, process, hp]
    · have hp := Bool.eq_false_iff.mpr hp
      cases he : processErr o with
      | none =>
        refine iff_of_false (not_tidy_of_left hi ho ?_) fun hcomplete => ?_
        · simp only [hs, process, hp, he, Bool.false_eq_true, if_false]
          split
          · rw [remove_other hne]
            simp
          · simp
        · exact hc ((complete_of_out hf h).mpr ⟨hp, he, hcomplete.2⟩)
      | some msg =>
        have hafter : (executeStep opts files (file, o)).after
            = (created.put (outName opts file) (payload opts o)).remove o.removeOut
                (outName opts file) := by
          simp [hs, process, hp, he]
        rw [tidy_iff_removed hi ho (if_neg hf) ht hcreated hafter]
        simp [hp, hne.symm]

theorem stdin_unchanged :
    (executeStdin opts files o).after = files ∧ (executeStdin opts files o).output = none := by
  unfold executeStdin
  cases o.start with
  | err m => exact ⟨rfl, rfl⟩
  | panic => exact ⟨rfl, rfl⟩
  | ok =>
    simp only
    split
    · exact ⟨rfl, rfl⟩
    · exact ⟨rfl, rfl⟩

theorem stdout_unchanged (i : Nat) : (process opts files file i none o).after = files ∧
    (process opts files file i none o).output = none := by
  refine ⟨?_, process_output i⟩
  unfold process
  cases panics o with
  | true => rfl
  | false => cases processErr o <;> rfl

/-- **One operand.** -/
theorem tidy_iff (a : Bytes × Outcomes) :
    Tidy (executeStep opts) source (complete opts) files a ↔ Careful opts files a := by
  obtain ⟨file, o⟩ := a
  by_cases hf : file = str "-"
  · have hs : executeStep opts files (file, o) = executeStdin opts files o := if_pos hf
    refine iff_of_true (tidy_of_unchanged ?_ ?_) fun _ _ hne => absurd hf hne
    · rw [hs, stdin_unchanged.1]
    · rw [hs, stdin_unchanged.2]
  · have hs : executeStep opts files (file, o) = executeFile opts files file o := if_neg hf
    obtain ⟨hn, hsource⟩ := @executeFile_reach opts files file o
    cases hr : reach opts files file o with
    | none =>
      obtain ⟨m, hremoved⟩ := hn hr
      refine iff_of_true (tidy_of_unchanged ?_ ?_) fun created out _ h => ?_
      · rw [hs, hremoved]
        rfl
      · rw [hs, hremoved]
        rfl
      · rw [hr] at h
        cases h
    | some r =>
      obtain ⟨created, _ | out⟩ := r
      · obtain ⟨i, hp⟩ := hsource _ _ hr
        obtain rfl := reach_stdout hr
        refine iff_of_true (tidy_of_unchanged ?_ ?_) fun created out _ h => ?_
        · rw [hs, hp, (stdout_unchanged i).1]
        · rw [hs, hp, (stdout_unchanged i).2]
        · rw [hr] at h
          cases h
      · rw [tidy_iff_of_out hf hr]
        constructor
        · intro hcomplete created' o' _ _
          exact hcomplete
        · intro hc
          exact hc created out hf hr

/-- **When a run of `execute` is safe**: every operand is careful, and if one is not complete and is
not noticed, another one is. -/
theorem execute_safe_iff (opts : Options) (files : Files) (a : List (Bytes × Outcomes)) :
    Safe (executeStep opts) source (complete opts) files a ↔
      (∀ t ∈ run (executeStep opts) files a, Careful opts t.1 t.2) ∧
        ((∃ t ∈ run (executeStep opts) files a, complete opts t.1 t.2 = false ∧
          noticed opts t.1 t.2 = false) →
          ∃ t ∈ run (executeStep opts) files a, noticed opts t.1 t.2 = true) := by
  rw [Replace.safe_iff]
  apply and_congr
  · exact forall₂_congr fun t _ => tidy_iff t.2
  have hs : ∀ t : Files × Bytes × Outcomes, Silent (executeStep opts) (complete opts) t.1 t.2 ↔
      complete opts t.1 t.2 = false ∧ noticed opts t.1 t.2 = false := by
    intro t
    rw [Silent, fine_iff]
  have hn : ∀ t : Files × Bytes × Outcomes, (executeStep opts t.1 t.2).verdict ≠ .fine ↔
      noticed opts t.1 t.2 = true := by
    intro t
    rw [ne_eq, fine_iff, Bool.not_eq_false]
  simp only [hs, hn]

end

/-- **When a source is safe**, for `execute` and for `DecompressMode`. -/
theorem sources_safe_iff (files : Files) (args : List (Bytes × Outcomes)) (stdin : Outcomes) :
    (∀ opts : Options, Safe (executeStep opts) source (complete opts) files (operands args stdin) ↔
      (∀ t ∈ run (executeStep opts) files (operands args stdin), Careful opts t.1 t.2) ∧
        ((∃ t ∈ run (executeStep opts) files (operands args stdin),
            complete opts t.1 t.2 = false ∧ noticed opts t.1 t.2 = false) →
          ∃ t ∈ run (executeStep opts) files (operands args stdin), noticed opts t.1 t.2 = true))
            ∧
    ∀ (spec : DecompressSpec) (opts : DecompressOptions),
      Safe (decompressStep spec opts) (decompressSource opts) (decompressComplete spec opts) files
          (decompressOperands args stdin) ↔
        ∀ t ∈ run (decompressStep spec opts) files (decompressOperands args stdin),
            Common.Careful spec opts t.1 t.2 :=
  ⟨fun opts => execute_safe_iff opts files (operands args stdin),
    fun spec opts => decompress_safe_iff spec opts files (decompressOperands args stdin)⟩

def gunzip : Options := ⟨str "gunzip", false, false, false, false, true⟩

/-- The input ends within the compressed data. -/
def cutOff : Outcomes where
  statErr := none
  openErr := none
  start := .ok
  outStatErr := false
  createErr := none
  written := str "hel"
  copy := .err (str "unexpected EOF")
  flushed := []
  flush := true
  close := true
  removeOut := true
  removeSource := true

/-- The standard input is not decompressed to its end, and the exit code is 0. -/
theorem not_safe_cutOff :
    ¬ Safe (executeStep gunzip) source (complete gunzip) (fun _ => none) (operands [] cutOff) := by
  intro h
  exact h.reports (.inl ⟨_, List.mem_cons_self, rfl⟩) rfl

end GoPosix.Gzip
