import GoPosix.Lib.Vfs.Sys
import GoPosix.Patch.Parse

/-!
# `patch`: the command

`Run` parses the patch, reads the target, applies the hunks of the first file section one after
another and writes the target back. The hunks stop at the first one that does not apply, and the
source says there: keep original content on failure. But the target is written if hunks were applied
before it. So a rejected hunk leaves the target alone exactly when there was none, or the target
cannot be opened for writing (`run_keeps_target_iff`).
-/

namespace GoPosix.Patch

open Slice MachineInt Bytes Vfs

/-! ## File names -/

/-- The loop of `stripPath` that looks for the end of the `n`-th component. It is behind `pos` bytes
and `components` components, and `inComponent` tells whether the last byte belonged to one. -/
def skipComponents (n : Nat) : (pos components : Nat) → (inComponent : Bool) → Bytes → Option Nat
  | _, _, _, [] => none
  | pos, components, inComponent, c :: rest =>
    if c = slash then
      if inComponent then
        if components + 1 = n then some (pos + 1 + (rest.takeWhile (· = slash)).length)
        else skipComponents n (pos + 1) (components + 1) false rest
      else skipComponents n (pos + 1) components false rest
    else skipComponents n (pos + 1) components true rest

/-- The last component of a path, for a path with too few of them. -/
def lastComponent (path : Bytes) : Bytes :=
  ((path.reverse.dropWhile (· = slash)).takeWhile (· ≠ slash)).reverse

def stripPath (path : Bytes) (n : Int) : Bytes :=
  let path := match indexByte path 9 with
    | some idx => path.take idx
    | none => path
  if n ≤ 0 then path
  else match skipComponents n.toNat 0 0 false path with
    | some pos => path.drop pos
    | none => lastComponent path

/-! ## The command -/

structure PatchResult where
  file : Bytes
  applied : Nat := 0
  rejected : Nat := 0
  isNew : Bool := false
  msg : Bytes := []
  failedHunk : Option Hunk := none
  failedHunkNum : Nat := 0
  deriving DecidableEq, Repr

def rejectMsg (lines : List Bytes) (num : Nat) (hunk : Hunk) : Exec Bytes := do
  let reversed ← alreadyApplied lines hunk
  let head := if reversed then str "Possibly reversed hunk " ++ itoa num ++ str " at " ++
    itoaInt (wrap64 (hunk.newStart + hunk.newCount)) ++ str "\n" else []
  .ok (head ++ str "Hunk " ++ itoa num ++ str " FAILED 1/1.\n" ++
    (hunk.lines.map (· ++ str "\n")).flatten)

def orient (reverse : Bool) (hunk : Hunk) : Hunk := if reverse then reverseHunk hunk else hunk

/-- The loop over the hunks: the lines it leaves and the result. -/
def applyHunks (reverse ignoreApplied : Bool) :
    (num : Nat) → List Bytes → PatchResult → List Hunk → Exec (List Bytes × PatchResult)
  | _, lines, result, [] => .ok (lines, result)
  | num, lines, result, hunk :: hunks => do
    match ← applyHunk lines (orient reverse hunk) ignoreApplied with
    | (newLines, true) =>
      applyHunks reverse ignoreApplied
        (num + 1) newLines { result with applied := result.applied + 1 } hunks
    | (_, false) => do
      let msg ← rejectMsg lines num hunk
      .ok (lines, { result with
        rejected := result.rejected + 1, failedHunk := some hunk, failedHunkNum :=
          num, msg := msg })

/-- The lines of a target that is not created by the patch. -/
def targetLines (original : Bytes) : List Bytes :=
  let lines := original.splitOn newline
  if original.getLast? = some newline then lines.dropLast else lines

def joinLines (lines : List Bytes) (finalNewline : Bool) : Bytes :=
  [newline].intercalate lines ++ if finalNewline then [newline] else []

def errnoText : Errno → Bytes
  | .enoent => str "no such file or directory"
  | .enotdir => str "not a directory"
  | .eisdir => str "is a directory"
  | .eexist => str "file exists"
  | .eloop => str "too many levels of symbolic links"
  | .enotempty => str "directory not empty"
  | .eperm => str "operation not permitted"
  | .eacces => str "permission denied"
  | .einval => str "invalid argument"
  | .exdev => str "invalid cross-device link"
  | .enospc => str "no space left on device"
  | .eio => str "input/output error"

def pathErrorText (e : PathError) : Bytes :=
  e.op ++ str " " ++ e.path ++ str ": " ++ errnoText e.errno

/-- What `Run` returns: a result or none, and the text of an error or none. A panic is neither. -/
abbrev Outcome := Exec (Option PatchResult × Option Bytes)

/-- The result for a target that cannot be read. -/
def cannotOpen (target : Bytes) (hunks : Nat) (e : PathError) : Outcome :=
  let msg := if e.errno = .enoent then str "No such file or directory" else pathErrorText e
  let text := str "can't open '" ++ target ++ str "': " ++ msg
  .ok (some { file := target, rejected := hunks, msg := str "patch: " ++ text }, some text)

/-- What `Run` works on: the target with its content, and the hunks. -/
structure Job where
  target : Bytes
  isNewFile : Bool
  original : Bytes
  hunks : List Hunk

def Job.lines (job : Job) : List Bytes := if job.isNewFile then [] else targetLines job.original

/-- The part of `Run` behind the reading of the target. -/
def patchTarget (job : Job) (reverse ignoreApplied : Bool) : Sys Outcome :=
  match applyHunks reverse ignoreApplied 1 job.lines
      { file := job.target, isNew := job.isNewFile } job.hunks with
  | .error fault => pure (.error fault)
  | .ok (lines, result) => do
    let rejected := if result.rejected > 0 then some (itoa result.rejected ++ str " hunk(s) failed")
      else none
    if result.applied > 0 then
      let output := joinLines lines (job.isNewFile || decide (job.original.getLast? = some newline))
      match ← writeFile job.target output with
      | .error e =>
        pure (.ok (some result, some (str "write " ++ job.target ++ str ": " ++ pathErrorText e)))
      | .ok () => pure (.ok (some result, rejected))
    else pure (.ok (some result, rejected))

/-- The target: the one that is given, or the new file of the patch. -/
def targetOf (p : Patch) (targetPath : Bytes) (stripLevel : Int) : Bytes :=
  if targetPath = [] then stripPath p.newFile stripLevel else targetPath

/-- `isNewFile`: the patch creates its target. -/
def createsFile (oldFile : Bytes) (stripLevel : Int) : Bool :=
  stripPath oldFile stripLevel = str "/dev/null" || oldFile = str "/dev/null"

def run (patchData targetPath : Bytes) (stripLevel : Int) (reverse ignoreApplied : Bool) :
    Sys Outcome :=
  match parsePatch patchData with
  | (_, false) => pure (.ok (none, some (str "parse patch: bufio.Scanner: token too long")))
  | ([], true) => pure (.ok (none, some (str "no patches found in input")))
  | (p :: _, true) =>
    let target := targetOf p targetPath stripLevel
    if createsFile p.oldFile stripLevel then
      patchTarget ⟨target, true, [], p.hunks⟩ reverse ignoreApplied
    else do
      match ← readFile target with
      | .error e => pure (cannotOpen target p.hunks.length e)
      | .ok original => patchTarget ⟨target, false, original, p.hunks⟩ reverse ignoreApplied

/-! ## What a rejected hunk leaves behind -/

/-- Up to some hunk every one applies, and that one is rejected. The check for the message about
it does not panic. -/
def StopsAt (reverse ignoreApplied : Bool) : List Bytes → List Hunk → Prop
  | _, [] => False
  | lines, hunk :: hunks =>
    (∃ lines', applyHunk lines (orient reverse hunk) ignoreApplied = .ok (lines', true) ∧
      StopsAt reverse ignoreApplied lines' hunks) ∨
    (∃ lines', applyHunk lines (orient reverse hunk) ignoreApplied = .ok (lines', false)) ∧
      ∃ there, alreadyApplied lines hunk = .ok there

/-- The first hunk applies and a later one is rejected. -/
def Job.PartlyApplied (job : Job) (reverse ignoreApplied : Bool) : Prop :=
  ∃ hunk hunks lines, job.hunks = hunk :: hunks ∧
    applyHunk job.lines (orient reverse hunk) ignoreApplied = .ok (lines, true) ∧
    StopsAt reverse ignoreApplied lines hunks

/-- The job `Run` gets to, and the state in which it starts on it: the patch parses, and the target
is new or can be read. -/
def startingJob (os : Os) (patchData targetPath : Bytes) (stripLevel : Int) : Option (Job × Os) :=
  match parsePatch patchData with
  | (p :: _, true) =>
    let target := targetOf p targetPath stripLevel
    if createsFile p.oldFile stripLevel then some (⟨target, true, [], p.hunks⟩, os)
    else match (readFile target os).1 with
      | .ok original => some (⟨target, false, original, p.hunks⟩, os.tick.tick)
      | .error _ => none
  | (_, _) => none

section

variable {reverse ignoreApplied : Bool}

/-- **One hunk of the loop.** A hunk that applies is counted; a rejected one ends the loop. -/
theorem applyHunks_cons
    (h : applyHunks reverse ignoreApplied num lines result (hunk :: hunks) = .ok r) :
    (∃ lines', applyHunk lines (orient reverse hunk) ignoreApplied = .ok (lines', true) ∧
      applyHunks reverse ignoreApplied (num + 1) lines'
        { result with applied := result.applied + 1 } hunks = .ok r) ∨
    ((∃ lines', applyHunk lines (orient reverse hunk) ignoreApplied = .ok (lines', false)) ∧
      (∃ t, alreadyApplied lines hunk = .ok t) ∧
      r.2.rejected = result.rejected + 1 ∧ r.2.applied = result.applied) := by
  rw [applyHunks] at h
  cases hh : applyHunk lines (orient reverse hunk) ignoreApplied with
  | error f => simp [hh, bind, Except.bind] at h
  | ok applied =>
    obtain ⟨lines', _ | _⟩ := applied
    · simp only [hh, bind, Except.bind, rejectMsg] at h
      cases ha : alreadyApplied lines hunk with
      | error f => simp [ha] at h
      | ok t =>
        simp only [ha] at h
        cases h
        exact .inr ⟨⟨lines', rfl⟩, ⟨t, rfl⟩, rfl, rfl⟩
    · simp only [hh, bind] at h
      exact .inl ⟨lines', rfl, h⟩

theorem applyHunks_counts (hunks : List Hunk) : ∀ {num : Nat} {lines : List Bytes}
    {result : PatchResult} {r : List Bytes × PatchResult},
    applyHunks reverse ignoreApplied num lines result hunks = .ok r → result.applied ≤ r.2.applied ∧
      (r.2.rejected = result.rejected ∨
        r.2.rejected = result.rejected + 1 ∧ StopsAt reverse ignoreApplied lines hunks) := by
  induction hunks with
  | nil =>
    intro num lines result r h
    cases h
    exact ⟨le_rfl, .inl rfl⟩
  | cons hunk hunks ih =>
    intro num lines result r h
    rcases applyHunks_cons h with ⟨lines', hh, hr⟩ | ⟨hh, hm, hrest, happly⟩
    · obtain ⟨hle, hstops⟩ := ih hr
      refine ⟨Nat.le_of_succ_le hle, hstops.imp id ?_⟩
      exact fun hs => ⟨hs.1, .inl ⟨lines', hh, hs.2⟩⟩
    · exact ⟨happly.ge, .inr ⟨hrest, .inr ⟨hh, hm⟩⟩⟩

theorem applyHunks_of_stopsAt (hunks : List Hunk) : ∀ (num : Nat) {lines : List Bytes}
    (result : PatchResult), StopsAt reverse ignoreApplied lines hunks →
      ∃ r, applyHunks reverse ignoreApplied num lines result hunks = .ok r ∧
          r.2.rejected = result.rejected + 1 := by
  induction hunks with
  | nil => exact fun _ _ _ h => h.elim
  | cons hunk hunks ih =>
    intro num lines result h
    rcases h with ⟨lines', hh, hs⟩ | ⟨⟨lines', hh⟩, there, ht⟩
    · obtain ⟨r, hr, hresult⟩ := ih (num + 1) { result with applied := result.applied + 1 } hs
      exact ⟨r, by simp only [applyHunks, hh, bind, Except.bind, hr], hresult⟩
    · simp only [applyHunks, hh, rejectMsg, ht]
      exact ⟨_, rfl, rfl⟩

variable (os : Os) (patchData targetPath : Bytes) (stripLevel : Int)

/-- `Run` stops early without touching anything, or it goes to work on its job. -/
theorem run_cases (reverse ignoreApplied : Bool) :
    (startingJob os patchData targetPath stripLevel = none ∧
      Untouched os (run patchData targetPath stripLevel reverse ignoreApplied os).2) ∨
    ∃ j os', startingJob os patchData targetPath stripLevel = some (j, os') ∧ Untouched os os' ∧
      run patchData targetPath stripLevel reverse ignoreApplied os =
          patchTarget j reverse ignoreApplied os' := by
  unfold run startingJob
  cases hp : parsePatch patchData with
  | mk pa ok =>
    rcases pa with _ | ⟨p, ps⟩ <;> rcases ok with _ | _
    · exact .inl ⟨rfl, .refl os⟩
    · exact .inl ⟨rfl, .refl os⟩
    · exact .inl ⟨rfl, .refl os⟩
    by_cases hn : createsFile p.oldFile stripLevel = true
    · simp only [if_pos hn]
      exact .inr ⟨_, os, rfl, .refl os, rfl⟩
    simp only [if_neg hn, Sys.bind_apply]
    have huntouched := readFile_untouched os (targetOf p targetPath stripLevel)
    cases hr : (readFile (targetOf p targetPath stripLevel) os).1 with
    | error e => exact .inl ⟨rfl, huntouched⟩
    | ok o =>
      have hs := readFile_ok os _ hr
      rw [hs] at huntouched
      simp only [hs]
      exact .inr ⟨_, _, rfl, huntouched, rfl⟩

theorem patchTarget_state
    (h : applyHunks reverse ignoreApplied 1 job.lines { file := job.target, isNew := job.isNewFile }
      job.hunks = .ok (lines, result)) :
    (∃ e, (patchTarget job reverse ignoreApplied os).1 = .ok (some result, e)) ∧
      (patchTarget job reverse ignoreApplied os).2 =
        if 0 < result.applied then (writeFile job.target (joinLines lines
          (job.isNewFile || decide (job.original.getLast? = some newline))) os).2 else os := by
  unfold patchTarget
  rw [h]
  by_cases happlied : 0 < result.applied
  · simp only [if_pos happlied, Sys.bind_apply]
    cases hw : (writeFile job.target _ os).1 <;> exact ⟨⟨_, rfl⟩, rfl⟩
  · simp only [if_neg happlied]
    exact ⟨⟨_, rfl⟩, rfl⟩

/-- **When the target is only rewritten with all hunks applied.** `Run` touches the file system only
with a result that has no rejected hunk, unless the first hunk applied, a later one was rejected,
and the target can be opened for writing. -/
theorem run_keeps_target_iff (reverse ignoreApplied : Bool) :
    (¬ Untouched os (run patchData targetPath stripLevel reverse ignoreApplied os).2 →
      ∃ result err, (run patchData targetPath stripLevel reverse ignoreApplied os).1 =
        .ok (some result, err) ∧ result.rejected = 0) ↔
    ∀ job os', startingJob os patchData targetPath stripLevel = some (job, os') →
      ¬ (job.PartlyApplied reverse ignoreApplied ∧ os'.fault = none ∧ os'.Writable job.target) := by
  rcases run_cases os patchData targetPath stripLevel reverse ignoreApplied with
    ⟨hn, huntouched⟩ | ⟨job, os', hj, huntouched, hrun⟩
  · rw [hn]
    exact ⟨fun _ job os' h => (nomatch h), fun _ h => absurd huntouched h⟩
  rw [hrun, hj]
  constructor
  · rintro hk _ _ ⟨⟩ ⟨⟨hunk, hunks, lines, hhunk, hfirst, hs⟩, hf, hw⟩
    obtain ⟨⟨lines', result⟩, hr, hrest⟩ := applyHunks_of_stopsAt hunks 2
      { file := job.target, applied := 1, isNew := job.isNewFile } hs
    have happlied : 0 < result.applied := (applyHunks_counts hunks hr).1
    have hall : applyHunks reverse ignoreApplied 1 job.lines
        { file := job.target, isNew := job.isNewFile } job.hunks = .ok (lines', result) := by
      simp only [hhunk, applyHunks, hfirst, bind]
      exact hr
    obtain ⟨⟨err, hout⟩, hstate⟩ := patchTarget_state os' hall
    rw [if_pos happlied] at hstate
    obtain ⟨result', err', hout', hzero⟩ := hk fun h => by
      rw [hstate] at h
      exact (writeFile_untouched_iff os' _ _).mp (huntouched.symm.trans h) ⟨hf, hw⟩
    rw [hout] at hout'
    cases hout'
    rw [hzero] at hrest
    cases hrest
  · intro hc ht
    cases hall : applyHunks reverse ignoreApplied 1 job.lines
        { file := job.target, isNew := job.isNewFile } job.hunks with
    | error f =>
      refine absurd ?_ ht
      simp only [patchTarget, hall]
      exact huntouched
    | ok r =>
      obtain ⟨lines, result⟩ := r
      obtain ⟨⟨err, hout⟩, hstate⟩ := patchTarget_state os' hall
      rw [hstate] at ht
      refine ⟨result, err, hout, ?_⟩
      by_cases happlied : 0 < result.applied
      · rw [if_pos happlied] at ht
        have ho : os'.fault = none ∧ os'.Writable job.target := by
          by_contra hnot
          exact ht (huntouched.trans ((writeFile_untouched_iff os' _ _).mpr hnot))
        rcases (applyHunks_counts job.hunks hall).2 with hzero | ⟨-, hs⟩
        · exact hzero
        -- a hunk was applied, so the one that was rejected is not the first
        refine absurd ⟨?_, ho⟩ (hc job os' rfl)
        cases hh : job.hunks with
        | nil =>
          rw [hh] at hs
          exact hs.elim
        | cons hunk hunks =>
          rw [hh] at hall hs
          rcases applyHunks_cons hall with ⟨lines', hfirst, -⟩ | ⟨-, -, -, hn⟩
          · rcases hs with ⟨lines'', hfirst', hl⟩ | ⟨⟨lines'', hfailed⟩, -⟩
            · exact ⟨hunk, hunks, lines'', hh, hfirst', hl⟩
            · rw [hfirst] at hfailed
              cases hfailed
          · rw [show result.applied = 0 from hn] at happlied
            cases happlied
      · rw [if_neg happlied] at ht
        exact absurd huntouched ht

end

/-- Two hunks for the file `a, b`: the first replaces `a`, the second expects a line `c`. It is
rejected, and the file is rewritten with the first one applied. -/
theorem run_rewrites_partly : ¬ (¬ Untouched (Os.single (str "t") (str "a\nb\n"))
        (run (str "--- t\n+++ t\n@@ -1 +1 @@\n-a\n+x\n@@ -2 +2 @@\n-c\n+y\n")
          (str "t") 0 false false
          (Os.single (str "t") (str "a\nb\n"))).2 →
      ∃ result err,
        (run (str "--- t\n+++ t\n@@ -1 +1 @@\n-a\n+x\n@@ -2 +2 @@\n-c\n+y\n")
          (str "t") 0 false false
          (Os.single (str "t") (str "a\nb\n"))).1 = .ok (some result, err) ∧
              result.rejected = 0) := by
  intro h
  have hl : (run (str "--- t\n+++ t\n@@ -1 +1 @@\n-a\n+x\n@@ -2 +2 @@\n-c\n+y\n") (str "t") 0 false
      false (Os.single (str "t") (str "a\nb\n"))).2.log ≠ [] := by decide +kernel
  have hr : ((run (str "--- t\n+++ t\n@@ -1 +1 @@\n-a\n+x\n@@ -2 +2 @@\n-c\n+y\n") (str "t") 0 false
      false (Os.single (str "t") (str "a\nb\n"))).1.map fun r => r.1.map (·.rejected)) =
        .ok (some 1) := by decide +kernel
  obtain ⟨result, err, ho, hzero⟩ := h fun huntouched => hl huntouched.log
  rw [ho] at hr
  simp [Except.map, hzero] at hr

end GoPosix.Patch
