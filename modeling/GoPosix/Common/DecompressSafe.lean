import GoPosix.Common.Decompress

/-!
# What a failed decompression leaves behind

A source is lost, or a part of an output is left, in three ways: the output cannot be closed, which
nobody looks at; the decompressor panics while it is copied, which passes the removal; or the
removal itself fails. Otherwise `DecompressMode` is safe (`decompress_safe_iff`). What goes to the
standard output does not matter here.
-/

namespace GoPosix.Common

open Bytes Replace

section

variable (spec : DecompressSpec) (opts : DecompressOptions)

def decompressSource (a : Option Bytes × Outcomes) : Option Bytes := a.1.map (absolutePath opts)

def isFile (files : Files) (p : Bytes) (o : Outcomes) : Bool :=
  match files.stat p o.statErr with
  | .ok (.file _) => true
  | _ => false

/-- An output `dest` can be made: there is none that has to be kept, and it is opened and closed. -/
def makesFile (files : Files) (dest : Bytes) (o : Outcomes) : Bool :=
  !taken opts files dest o && (files.create (absolutePath opts dest) o.createErr).isOk && o.close

def decompressComplete (files : Files) : Option Bytes × Outcomes → Bool
  | (none, o) => o.start = .ok && o.copy = .ok
  | (some file, o) =>
    isFile files (absolutePath opts file) o && o.openErr = none && o.start = .ok && o.copy = .ok &&
      (destName spec file).any fun dest => stdoutMode spec opts || makesFile opts files dest o

/-- The output `dest` of an operand is opened, which leaves the files as `created`. -/
structure Opens (files : Files) (file : Bytes) (o : Outcomes) (dest : Bytes) (created : Files) :
    Prop where
  regular : isFile files (absolutePath opts file) o = true
  name : destName spec file = some dest
  source : o.openErr = none
  start : o.start = .ok
  mode : stdoutMode spec opts = false
  free : taken opts files dest o = false
  create : files.create (absolutePath opts dest) o.createErr = .ok created

/-- **The condition.** If an output is opened, a copy that succeeds is followed by a `Close` that
does, and one that fails by a removal that succeeds and spares the source; and there is no panic. -/
def Careful (files : Files) (a : Option Bytes × Outcomes) : Prop :=
  ∀ file dest created, a.1 = some file → Opens spec opts files file a.2 dest created →
    (a.2.copy = .ok → a.2.close = true) ∧
      (∀ msg, a.2.copy = .err msg → a.2.removeOut = true ∧
        absolutePath opts file ≠ absolutePath opts dest) ∧
      a.2.copy ≠ .panic

variable {spec opts}

theorem isFile_iff :
    isFile files p o = true ↔ ∃ content, files.stat p o.statErr = .ok (.file content) := by
  unfold isFile
  constructor
  · intro h
    split at h
    · next content heq => exact ⟨content, heq⟩
    · cases h
  · rintro ⟨content, h⟩
    rw [h]

/-- A step that leaves the files as they are, and is complete if it says nothing. -/
structure Inert (files : Files) (complete : Prop) (s : Step DecompMessage) : Prop where
  after : s.after = files
  output : s.output = none
  honest : s.verdict = .fine → complete

theorem inert_failure :
    Inert files complete (failure spec opts files none file line error) := ⟨rfl, rfl, nofun⟩

theorem inert_panicked : Inert files complete (panicked spec opts files none file) := by
  unfold panicked
  split
  · exact inert_failure
  · exact ⟨rfl, rfl, nofun⟩

theorem inert_stdout : Inert files (o.copy = .ok) (extractToStdout spec opts files file o) := by
  unfold extractToStdout
  cases o.copy with
  | ok => exact ⟨rfl, rfl, fun _ => rfl⟩
  | err m => exact inert_failure
  | panic =>
    simp only
    split
    · exact inert_failure
    · exact inert_panicked

theorem step_of_opens (h : Opens spec opts files file o dest created) :
    decompressStep spec opts files (some file, o) = extractToFile spec opts files file dest o := by
  obtain ⟨content, hs⟩ := isFile_iff.mp h.regular
  show decompressFile spec opts files file o = _
  unfold decompressFile
  rw [hs]
  simp only [h.name, extract, h.source, h.start, h.mode]
  rfl

theorem complete_of_opens (h : Opens spec opts files file o dest created) :
    decompressComplete spec opts files (some file, o) = (decide (o.copy = .ok) && o.close) := by
  have hm : makesFile opts files dest o = o.close := by
    rw [makesFile, h.free, h.create]
    rfl
  simp only [decompressComplete, h.regular, h.source, h.start, h.name, h.mode, hm, Option.any_some]
  rfl

/-- An operand whose output is not opened. -/
theorem step_of_not_opens (h : ∀ dest created, ¬ Opens spec opts files file o dest created) :
    Inert files (decompressComplete spec opts files (some file, o) = true)
      (decompressStep spec opts files (some file, o)) := by
  show Inert _ _ (decompressFile spec opts files file o)
  unfold decompressFile
  cases hstat : files.stat (absolutePath opts file) o.statErr with
  | error m => exact inert_failure
  | ok entry =>
    cases entry with
    | dir size => exact inert_failure
    | file content =>
      have hf := isFile_iff.mpr ⟨content, hstat⟩
      cases hd : destName spec file with
      | none => exact inert_failure
      | some dest =>
        simp only [extract]
        cases hop : o.openErr with
        | some m => exact inert_failure
        | none =>
          cases hs : o.start with
          | err m => exact inert_failure
          | panic => exact inert_panicked
          | ok =>
            by_cases hm : stdoutMode spec opts = true
            · obtain ⟨hafter, ho, hv⟩ := @inert_stdout spec opts files file o
              simp only [if_pos hm]
              refine ⟨hafter, ho, fun hfi => ?_⟩
              simp [decompressComplete, hf, hop, hs, hv hfi, hd, hm]
            · simp only [if_neg hm, extractToFile]
              by_cases ht : taken opts files dest o = true
              · rw [if_pos ht]
                exact inert_failure
              rw [if_neg ht]
              cases hc : files.create (absolutePath opts dest) o.createErr with
              | error m => exact inert_failure
              | ok created =>
                exact absurd ⟨hf, hd, hop, hs, Bool.eq_false_iff.mpr hm, Bool.eq_false_iff.mpr ht,
                  hc⟩ (h dest created)

theorem ne_none_of_isFile (h : isFile files p o = true) : files p ≠ none := by
  obtain ⟨content, hs⟩ := isFile_iff.mp h
  intro hn
  unfold Files.stat at hs
  split at hs
  · cases hs
  · rw [hn] at hs
    cases hs

section Opened

variable (h : Opens spec opts files file o dest created)

include h

theorem toFile_ok (hc : o.copy = .ok) : extractToFile spec opts files file dest o =
    { after := if opts.keep then created.put (absolutePath opts dest) o.written
        else (created.put (absolutePath opts dest) o.written).remove o.removeSource
          (absolutePath opts file)
      output := some (absolutePath opts dest)
      verdict := .fine
      messages := [.result ⟨file, dest, o.written.length, [], []⟩] } := by
  unfold extractToFile
  simp only [h.free, h.create, hc]
  rfl

theorem toFile_err (hc : o.copy = .err msg) : extractToFile spec opts files file dest o =
    failure spec opts
      ((created.put (absolutePath opts dest) o.written).remove o.removeOut (absolutePath opts dest))
      (some (absolutePath opts dest)) file spec.corruptMsg spec.corruptMsg := by
  unfold extractToFile
  simp only [h.free, h.create, hc]
  rfl

theorem toFile_panic (hc : o.copy = .panic) : extractToFile spec opts files file dest o =
    panicked spec opts (created.put (absolutePath opts dest) o.written)
      (some (absolutePath opts dest)) file := by
  unfold extractToFile
  simp only [h.free, h.create, hc]
  rfl

/-- A `Close` that fails behind a successful copy leaves the output, or takes the source. -/
theorem not_tidy_of_close (hcopy : o.copy = .ok) (hclose : o.close = false) :
    ¬ Tidy (decompressStep spec opts) (decompressSource opts) (decompressComplete spec opts) files
      (some file, o) := by
  intro ht
  have hi : decompressComplete spec opts files (some file, o) = false := by
    rw [complete_of_opens h, hclose, Bool.and_false]
  have hk := ht.keeps hi _ rfl (ne_none_of_isFile h.regular)
  have hc := ht.clears hi
  rw [step_of_opens h, toFile_ok h hcopy] at hk hc
  have hg := hc _ rfl
  simp only at hk hg
  by_cases hkeep : opts.keep = true
  · rw [if_pos hkeep, put_same] at hg
    cases hg
  rw [if_neg hkeep] at hk hg
  by_cases hs : absolutePath opts dest = absolutePath opts file
  · rw [← hs] at hk hg
    exact hk hg
  · rw [remove_other hs, put_same] at hg
    cases hg

theorem not_tidy_of_panic (hc : o.copy = .panic) :
    ¬ Tidy (decompressStep spec opts) (decompressSource opts) (decompressComplete spec opts) files
      (some file, o) := by
  have hi : decompressComplete spec opts files (some file, o) = false := by
    rw [complete_of_opens h, hc]
    rfl
  have hs := (step_of_opens h).trans (toFile_panic h hc)
  unfold panicked at hs
  split at hs
  · exact not_tidy_of_left hi (by rw [hs]; rfl) (by simp [hs, failure])
  · exact not_tidy_of_left hi (by rw [hs]) (by simp [hs])

theorem tidy_iff_of_err (hc : o.copy = .err msg) :
    Tidy (decompressStep spec opts) (decompressSource opts) (decompressComplete spec opts) files
      (some file, o) ↔
      o.removeOut = true ∧ absolutePath opts file ≠ absolutePath opts dest := by
  have hi : decompressComplete spec opts files (some file, o) = false := by
    rw [complete_of_opens h, hc]
    rfl
  have hs := (step_of_opens h).trans (toFile_err h hc)
  exact tidy_iff_removed hi (by rw [hs]; rfl) rfl (ne_none_of_isFile h.regular) h.create
    (by rw [hs]; rfl)

end Opened

theorem step_stdin : Inert files (decompressComplete spec opts files (none, o) = true)
    (decompressStep spec opts files (none, o)) := by
  show Inert _ _ (decompressStdin spec opts files o)
  unfold decompressStdin
  split
  · exact ⟨rfl, rfl, nofun⟩
  cases hs : o.start with
  | err m => exact ⟨rfl, rfl, nofun⟩
  | panic => exact ⟨rfl, rfl, nofun⟩
  | ok =>
    cases hc : o.copy with
    | err m => exact ⟨rfl, rfl, nofun⟩
    | panic => exact ⟨rfl, rfl, nofun⟩
    | ok =>
      refine ⟨rfl, rfl, fun _ => ?_⟩
      simp only [decompressComplete, hs, hc]
      rfl

/-- **One operand.** -/
theorem decompress_tidy_iff (a : Option Bytes × Outcomes) :
    Tidy (decompressStep spec opts) (decompressSource opts) (decompressComplete spec opts) files a ↔
      Careful spec opts files a := by
  obtain ⟨_ | file, o⟩ := a
  · obtain ⟨hafter, ho, -⟩ := @step_stdin spec opts files o
    exact iff_of_true (tidy_of_unchanged hafter ho) nofun
  constructor
  · rintro ht _ dest created ⟨⟩ h
    refine ⟨fun hc => ?_, fun m hc => (tidy_iff_of_err h hc).mp ht, fun hc =>
      not_tidy_of_panic h hc ht⟩
    by_contra hclose
    exact not_tidy_of_close h hc (Bool.eq_false_iff.mpr hclose) ht
  · intro hca
    by_cases hop : ∃ dest created, Opens spec opts files file o dest created
    · obtain ⟨dest, created, h⟩ := hop
      obtain ⟨hclose, hr, hp⟩ := hca file dest created rfl h
      cases hc : o.copy with
      | ok =>
        have hcomplete : decompressComplete spec opts files (some file, o) = true := by
          rw [complete_of_opens h, hc]
          exact hclose hc
        exact tidy_of_complete hcomplete
      | err m => exact (tidy_iff_of_err h hc).mpr (hr m hc)
      | panic => exact absurd hc hp
    · obtain ⟨hafter, ho, -⟩ := step_of_not_opens fun dest created h => hop ⟨dest, created, h⟩
      exact tidy_of_unchanged hafter ho

theorem not_silent (h : Careful spec opts files a) :
    ¬ Silent (decompressStep spec opts) (decompressComplete spec opts) files a := by
  rintro ⟨hi, hf⟩
  obtain ⟨_ | file, o⟩ := a
  · rw [step_stdin.honest hf] at hi
    cases hi
  by_cases hop : ∃ dest created, Opens spec opts files file o dest created
  · obtain ⟨dest, created, ho⟩ := hop
    rw [complete_of_opens ho] at hi
    obtain ⟨hcl, -, hp⟩ := h file dest created rfl ho
    cases hc : o.copy with
    | ok =>
      rw [hc, hcl hc] at hi
      cases hi
    | err m =>
      rw [step_of_opens ho, toFile_err ho hc] at hf
      cases hf
    | panic => exact hp hc
  · rw [(step_of_not_opens fun dest created h => hop ⟨dest, created, h⟩).honest hf] at hi
    cases hi

end

/-- **When a run of `DecompressMode` is safe**: every operand is careful. -/
theorem decompress_safe_iff (spec : DecompressSpec) (opts : DecompressOptions) (files : Files)
    (operands : List (Option Bytes × Outcomes)) :
    Safe (decompressStep spec opts) (decompressSource opts)
      (decompressComplete spec opts) files operands ↔
      ∀ t ∈ run (decompressStep spec opts) files operands, Careful spec opts t.1 t.2 := by
  rw [safe_iff]
  constructor
  · rintro ⟨htidy, -⟩ t ht
    exact (decompress_tidy_iff t.2).mp (htidy t ht)
  · intro hc
    refine ⟨fun t ht => (decompress_tidy_iff t.2).mpr (hc t ht), ?_⟩
    rintro ⟨t, ht, hs⟩
    exact absurd hs (not_silent (hc t ht))

end GoPosix.Common
