import GoPosix.Mv.Basic

/-!
# What a failed move leaves behind

Opening the destination empties it if it is a regular file, whatever the rename failed for. From
there on every failure loses what it contained: the source turns out to be a directory, the copy is
interrupted, or the source cannot be removed. `CopySafe` says when nothing is lost, on the state in
which the rename has failed.
-/

namespace GoPosix.Mv

open Slice Bytes Vfs

/-! ## The copy -/

/-- What a copy from `input` writes, and whether it succeeds. -/
def copyResult (os : Os) (input : Handle) : Bytes × Bool :=
  match os.content input with
  | .error _ => ([], false)
  | .ok data => match os.fault with
    | some fault => (data.take fault.written, false)
    | none => (data, true)

/-- What the copy, the fourth call in `s`, leaves in the regular file `j`, and whether it
succeeds. -/
def copied (s : Os) (input : Handle) (j : Ino) : Bytes × Bool :=
  copyResult { s.tick.tick.tick with fs := s.fs.setNode j (.file []) } input

/-- Both files can be opened, the source as `input` and the destination as `target`, and `Stat` on
the source does not fail. -/
structure Opened (s : Os) (src dst : Bytes) (input : Handle) (target : WriteTarget) : Prop where
  source : (openRead src s).1 = .ok input
  stat : s.tick.fault = none
  call : s.tick.tick.fault = none
  destination : s.writeTarget true dst = .ok target

/-- The copy behind a failed rename loses nothing: the files cannot both be opened, the destination
is no regular file, copy and removal succeed, or the file holds what an interrupted copy leaves. -/
def CopySafe (s : Os) (src dst : Bytes) : Prop :=
  ∀ input ℓ j old, Opened s src dst input (.regular ℓ j) → s.fs.nodes j = .file old →
    ((copied s input j).2 = true ∧ s.tick.tick.tick.tick.fault = none ∧
      ∃ k, s.removeTarget src = .ok k) ∨
      (copied s input j).1 = old

section Copy

variable {os : Os} {ℓ : Loc}

/-- **A copy into an empty regular file.** -/
theorem copy_empty (hj : os.fs.nodes j = .file []) :
    (copy (.obj ℓ j) input os).2.fs = os.fs.setNode j (.file (copyResult os input).1) ∧
      (copy (.obj ℓ j) input os).2.fault = os.tick.fault ∧
      (copy (.obj ℓ j) input os).2.cwd = os.cwd ∧
      ((copy (.obj ℓ j) input os).1 = .ok () ↔ (copyResult os input).2 = true) := by
  have he : os.fs.setNode j (.file []) = os.fs := Fs.setNode_self hj
  unfold copy copyResult
  cases hc : os.content input with
  | error e => exact ⟨he.symm, rfl, rfl, by simp⟩
  | ok data =>
    by_cases hd : data = []
    · simp only [hd, call]
      cases hf : os.fault with
      | some fault => exact ⟨by simp only [List.take_nil, he]; rfl, rfl, rfl, by simp⟩
      | none => exact ⟨by simp only [he]; rfl, rfl, rfl, by simp⟩
    · simp only [if_neg hd, write]
      cases hf : os.fault <;> exact ⟨append_file os.tick hj ℓ _, rfl, rfl, by simp⟩

theorem copy_special (hj : os.fs.nodes j = .special stream) :
    (copy (.obj ℓ j) input os).2.fs = os.fs := by
  unfold copy
  cases os.content input with
  | error e => rfl
  | ok data =>
    by_cases hd : data = []
    · simp only [hd, if_true]
      rw [call_state os fun _ => rfl]
      rfl
    · simp only [if_neg hd, write]
      cases hf : os.fault <;> exact append_other os.tick (fun _ h => by cases hj.symm.trans h) ℓ _

/-- If the copy or the removal fails, the file system is as the copy left it. -/
theorem copyThenRemove_error (h : (copyThenRemove input out src os).1 = .error e) :
    (copyThenRemove input out src os).2.fs = (copy out input os).2.fs := by
  unfold copyThenRemove at h ⊢
  rw [Sys.bind_apply] at h ⊢
  cases hc : (copy out input os).1 with
  | error e' => rfl
  | ok u =>
    rw [hc] at h
    rw [remove_error_state h]
    rfl

/-- Into a regular file, both succeed exactly if the copy does and the source can be removed. -/
theorem copyThenRemove_regular {src : Bytes} (hj : os.fs.nodes j = .file []) :
    (copyThenRemove input (.obj ℓ j) src os).1 = .ok () ↔
      (copyResult os input).2 = true ∧ os.tick.fault = none ∧ ∃ k, os.removeTarget src = .ok k := by
  obtain ⟨hfs, hfa, hcwd, hd⟩ := @copy_empty os ℓ j input hj
  have ht : (copy (.obj ℓ j) input os).2.removeTarget src = os.removeTarget src :=
    removeTarget_setNode hj hfs hcwd
  unfold copyThenRemove
  rw [Sys.bind_apply, ← hd]
  cases hc : (copy (.obj ℓ j) input os).1 with
  | error e => simp
  | ok u =>
    simp only [remove, call, hfa]
    cases hf : os.tick.fault with
    | some fault => simp
    | none =>
      have htick : (copy (.obj ℓ j) input os).2.tick.removeTarget src = os.removeTarget src := ht
      simp only [htick]
      cases os.removeTarget src <;> simp

end Copy

/-! ## The move -/

section

variable {os s : Os} {src dst : Bytes}

/-- If the two files are not opened, nothing is touched. -/
theorem moveByCopy_of_not_opened (h : ∀ input t, ¬ Opened s src dst input t) :
    Untouched s (moveByCopy src dst s).2 := by
  have ht : Untouched s s.tick := .tick s
  have ht₂ : Untouched s s.tick.tick := ht.trans (.tick _)
  unfold moveByCopy
  rw [Sys.bind_apply, openRead_state]
  cases ho : (openRead src s).1 with
  | error e => exact ht
  | ok input =>
    simp only
    rw [Sys.bind_apply]
    cases hs : s.tick.fault with
    | some fault =>
      simp only [fstat, call, hs]
      exact ht₂
    | none =>
      have hf : fstat s.tick = (.ok (), s.tick.tick) := by simp only [fstat, call, hs]
      simp only [hf]
      rcases openWrite_cases s.tick.tick dst true with ⟨e, he⟩ | ⟨hc, t, htarget⟩
      · rw [Sys.bind_apply, he]
        exact ht₂.trans (.tick _)
      · exact absurd ⟨ho, hs, hc, htarget⟩ (h input t)

theorem moveByCopy_of_opened (h : Opened s src dst input t) : moveByCopy src dst s =
      let r := copyThenRemove input (.obj (s.openTarget t).1.1 (s.openTarget t).1.2) src
        (s.tick.tick.tick.openTarget t).2
      (.ok r.1, r.2) := by
  have hf : fstat s.tick = (.ok (), s.tick.tick) := by simp only [fstat, call, h.stat]
  have hw := openWrite_ok s.tick.tick dst h.call h.destination
  unfold moveByCopy
  rw [Sys.bind_apply, openRead_state, h.source]
  simp only [Sys.bind_apply, hf, hw]
  cases t <;> rfl

section Regular

variable (h : Opened s src dst input (.regular ℓ j))

include h

/-- With a regular file as its destination, the move succeeds if the copy and the removal do. -/
theorem moveByCopy_regular : (moveByCopy src dst s).1 = .ok (.ok ()) ↔
    (copied s input j).2 = true ∧ s.tick.tick.tick.tick.fault = none ∧
      ∃ k, s.removeTarget src = .ok k := by
  obtain ⟨o, -, -, -, hj⟩ := writeTarget_regular h.destination
  have ht : (s.tick.tick.tick.truncate ℓ j).removeTarget src = s.removeTarget src :=
    removeTarget_setNode hj rfl rfl
  have he : (s.tick.tick.tick.truncate ℓ j).fs.nodes j = .file [] := by
    simp [Os.truncate, Fs.setNode]
  have hd := @copyThenRemove_regular _ ℓ j input src he
  rw [ht] at hd
  rw [moveByCopy_of_opened h, Except.ok.injEq]
  exact hd

theorem moveByCopy_regular_error (herror : (moveByCopy src dst s).1 = .ok (.error e)) :
    (moveByCopy src dst s).2.fs = s.fs.setNode j (.file (copied s input j).1) := by
  rw [moveByCopy_of_opened h] at herror ⊢
  have he : (s.tick.tick.tick.truncate ℓ j).fs.nodes j = .file [] := by
    simp [Os.truncate, Fs.setNode]
  apply (copyThenRemove_error (Except.ok.inj herror)).trans
  apply (copy_empty he).1.trans
  apply Fs.setNode_setNode

end Regular

/-- With any other destination a move that fails changes nothing that was there. -/
theorem moveByCopy_kept (hnot : ∀ input ℓ j, ¬ Opened s src dst input (.regular ℓ j))
    (herror : (moveByCopy src dst s).1 = .ok (.error e)) (p : Bytes) :
    Kept s (moveByCopy src dst s).2 p := by
  by_cases ho : ∃ input t, Opened s src dst input t
  · obtain ⟨input, t, h⟩ := ho
    rw [moveByCopy_of_opened h] at herror ⊢
    have hfs := copyThenRemove_error (Except.ok.inj herror)
    rcases writeTarget_cases h.destination with ⟨ℓ, j, old, rfl, -⟩ | ⟨ℓ, j, stream, rfl, -, -, -,
      hj⟩ | ⟨d, c, rfl, hr⟩
    · exact absurd h (hnot input ℓ j)
    · exact kept_of_fs (hfs.trans (copy_special hj)) p
    · -- the destination is new
      have he : (s.tick.tick.tick.create (d ++ [c]) (.file [])).fs.nodes s.fs.next = .file [] := by
        simp [Os.create, Fs.add, Fs.link, Os.tick]
      have hadd := (hfs.trans (copy_empty he).1).trans Fs.setNode_add
      exact kept_add (by simp) (resolve_free hr).2 hadd p
  · exact (moveByCopy_of_not_opened fun input t h => ho ⟨input, t, h⟩).kept p

/-- **Behind a failed rename**, a failure loses nothing exactly if the copy is safe. -/
theorem moveByCopy_keeps_iff : (∀ e, (moveByCopy src dst s).1 = .ok (.error e) →
      Kept s (moveByCopy src dst s).2 src ∧ Kept s (moveByCopy src dst s).2 dst) ↔
    CopySafe s src dst := by
  constructor
  · intro hk input ℓ j o h hj
    by_cases hd : (moveByCopy src dst s).1 = .ok (.ok ())
    · exact .inl ((moveByCopy_regular h).mp hd)
    obtain ⟨-, hr, hℓ, hi, -⟩ := writeTarget_regular h.destination
    have hb : s.found (s.resolve true dst) = .ok (ℓ, .file o) := by
      rw [Os.found_eq_ok, Fs.node?_of_ino? s.fs hℓ hi, hj]
      exact ⟨hr, rfl⟩
    -- it does not panic any more, so it returns an error
    obtain ⟨e, he⟩ : ∃ e, (moveByCopy src dst s).1 = .ok (.error e) := by
      rw [moveByCopy_of_opened h] at hd ⊢
      cases hremove : (copyThenRemove input (.obj ℓ j) src (s.tick.tick.tick.truncate ℓ j)).1 with
      | ok u => exact absurd (congrArg Except.ok hremove) hd
      | error e => exact ⟨e, congrArg Except.ok hremove⟩
    obtain ⟨hafter, -⟩ := (hk e he).2 true ℓ _ hb
    rw [found_setNode hj (moveByCopy_regular_error h he) hr hi hℓ] at hafter
    cases hafter
    exact .inr rfl
  · intro hs e he
    by_cases ho : ∃ input ℓ j, Opened s src dst input (.regular ℓ j)
    · obtain ⟨input, ℓ, j, h⟩ := ho
      obtain ⟨o, -, -, -, hj⟩ := writeTarget_regular h.destination
      have hfs := moveByCopy_regular_error h he
      rcases hs input ℓ j o h hj with hd | hold
      · rw [(moveByCopy_regular h).mpr hd] at he
        cases he
      · rw [hold, Fs.setNode_self hj] at hfs
        exact ⟨kept_of_fs hfs src, kept_of_fs hfs dst⟩
    · have hnot : ∀ input ℓ j, ¬ Opened s src dst input (.regular ℓ j) := fun input ℓ j h =>
        ho ⟨input, ℓ, j, h⟩
      exact ⟨moveByCopy_kept hnot he src, moveByCopy_kept hnot he dst⟩

end

/-- **A move that returns an error loses nothing** exactly if the rename succeeds or, in the state
the failed rename leaves, the copy is safe. -/
theorem moveFile_keeps_iff (os : Os) (src dst : Bytes) :
    (∀ e, (moveFile src dst os).1 = .ok (.error e) →
      Kept os (moveFile src dst os).2 src ∧ Kept os (moveFile src dst os).2 dst) ↔
      (rename src dst os).1 = .ok () ∨ CopySafe (rename src dst os).2 src dst := by
  unfold moveFile
  rw [Sys.bind_apply]
  cases hr : (rename src dst os).1 with
  | ok u => simp
  | error e =>
    obtain ⟨huntouched, hc⟩ := rename_error hr
    simp [← moveByCopy_keeps_iff, kept_congr huntouched.fs hc]

/-- **Moving a directory onto a regular file.** The file is emptied before the directory turns out
not to be readable. -/
theorem moveFile_empties_destination :
    let s : Os :=
      ⟨(Fs.empty.add [str "d"] .dir).add [str "f"] (.file (str "data")), [], [], fun _ => none, 0⟩
    s.fs.node? [str "f"] = some (.file (str "data")) ∧
      (moveFile (str "d") (str "f") s).1 = .ok (.error .eisdir) ∧
      (moveFile (str "d") (str "f") s).2.fs.node? [str "f"] = some (.file []) := by
  decide +kernel

end GoPosix.Mv
