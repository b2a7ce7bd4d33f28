import GoPosix.Lib.Vfs.Sys
import Mathlib.Data.List.Sort

/-!
# Calls that change the tree

Making, linking, removing and renaming, as package `os` does it. `os.MkdirAll` is made of `os.Stat`,
`os.Mkdir` and `os.Lstat`; `os.Rename` refuses to replace a directory before it makes the system
call.
-/

namespace Vfs

open Bytes List

/-! ## New names -/

/-- Where a new object comes to stand, if the lookup of its path leaves one component over. -/
def newName : Reached → Except Errno Loc
  | .error e => .error e
  | .ok (_, []) => .error .eexist
  | .ok (d, [c]) => .ok (d ++ [c])
  | .ok (_, _ :: _ :: _) => .error .enoent

def trimSlashes (p : Bytes) : Bytes := (p.reverse.dropWhile (· = slash)).reverse

/-- The lookup of a path whose trailing slashes do not matter. -/
def Os.resolveDir (os : Os) (p : Bytes) : Reached :=
  if p = [] then .error .enoent
  else walk os.fs.shape? false maxLinks (start os.cwd p) (comps (trimSlashes p))

def mkdir (p : Bytes) : Sys (Except Errno Unit) :=
  call fun os => match newName (os.resolveDir p) with
    | .error e => (.error e, os)
    | .ok ℓ => (.ok (), os.create ℓ .dir)

def symlink (target p : Bytes) : Sys (Except Errno Unit) :=
  call fun os =>
    if target = [] then (.error .enoent, os)
    else match newName (os.resolve false p) with
      | .error e => (.error e, os)
      | .ok ℓ => (.ok (), os.create ℓ (.symlink target))

/-- What a hard link to `p` is made to. A symbolic link is not followed, and a directory has no
hard links. -/
def Os.linkSource (os : Os) (p : Bytes) : Except Errno Loc :=
  match os.found (os.resolve false p) with
  | .error e => .error e
  | .ok (_, .dir) => .error .eperm
  | .ok (ℓ, _) => .ok ℓ

def Os.link (os : Os) (source ℓ : Loc) : Os :=
  match h : os.fs.ino? source with
  | none => os
  | some i => { os with
      fs := os.fs.link ℓ i (os.fs.ino?_lt h), log := os.log ++ [.link source i ℓ] }

def link (old new : Bytes) : Sys (Except Errno Unit) :=
  call fun os => match os.linkSource old, newName (os.resolve false new) with
    | .error e, _ => (.error e, os)
    | .ok _, .error e => (.error e, os)
    | .ok source, .ok ℓ => (.ok (), os.link source ℓ)

/-- The part of a path that names its parent: everything up to the last slash, trailing slashes
apart. -/
def parentOf (p : Bytes) : Bytes :=
  ((p.reverse.dropWhile (· = slash)).dropWhile (· ≠ slash)).reverse

/-- `Mkdir`, which may fail because the directory is there. -/
def mkdirLast (p : Bytes) : Sys (Except Errno Unit) := do
  match ← mkdir p with
  | .ok () => pure (.ok ())
  | .error e =>
    match ← lstat p with
    | .ok .dir => pure (.ok ())
    | _ => pure (.error e)

/-- `os.MkdirAll` with a way to make the parent. -/
def mkdirBelow (parents : Sys (Except Errno Unit)) (p : Bytes) : Sys (Except Errno Unit) := do
  match ← stat true p with
  | .ok .dir => pure (.ok ())
  | .ok _ => pure (.error .enotdir)
  | .error _ =>
    match ← parents with
    | .error e => pure (.error e)
    | .ok () => mkdirLast p

/-- `os.MkdirAll`. The path gets shorter with every call of itself, so `p.length` calls suffice
(`mkdirAll_eq`). -/
def mkdirAll (p : Bytes) : Sys (Except Errno Unit) :=
  go p.length p
where
  go : Nat → Bytes → Sys (Except Errno Unit)
  | 0, p => mkdirBelow (pure (.ok ())) p
  | fuel + 1, p => mkdirBelow (if parentOf p = [] then pure (.ok ()) else go fuel (parentOf p)) p

theorem length_parentOf (hp : p ≠ []) : (parentOf p).length < p.length := by
  obtain ⟨c, s, hs⟩ := exists_cons_of_ne_nil (mt reverse_eq_nil_iff.mp hp)
  have hp' : p.length = s.length + 1 := by
    rw [← length_reverse, hs, length_cons]
  rw [hp', Nat.lt_succ_iff, parentOf, length_reverse, hs]
  apply List.Sublist.length_le
  by_cases hc : c = slash
  · rw [dropWhile_cons_of_pos (by simpa using hc)]
    exact (dropWhile_sublist _).trans (dropWhile_sublist _)
  · rw [dropWhile_cons_of_neg (by simpa using hc), dropWhile_cons_of_pos (by simpa using hc)]
    exact dropWhile_sublist _

theorem mkdirAll_go_eq (f : Nat) : ∀ {f' : Nat} {p : Bytes}, p.length ≤ f →
    p.length ≤ f' → mkdirAll.go f p = mkdirAll.go f' p := by
  have hn : ∀ f, mkdirAll.go f [] = mkdirBelow (pure (.ok ())) [] := by
    intro f
    cases f <;> rfl
  induction f with
  | zero =>
    intro f' p h _
    rw [eq_nil_of_length_eq_zero (Nat.le_zero.mp h), hn, hn]
  | succ f ih =>
    intro f' p h h'
    rcases eq_or_ne p [] with rfl | hp
    · rw [hn, hn]
    have hparent := length_parentOf hp
    cases f' with
    | zero => exact absurd (eq_nil_of_length_eq_zero (Nat.le_zero.mp h')) hp
    | succ f' => rw [mkdirAll.go, mkdirAll.go, @ih f' (parentOf p) (by omega) (by omega)]

/-- **`os.MkdirAll` as it calls itself.** -/
theorem mkdirAll_eq (p : Bytes) : mkdirAll p =
    mkdirBelow (if parentOf p = [] then pure (.ok ()) else mkdirAll (parentOf p)) p := by
  rcases eq_or_ne p [] with rfl | hp
  · rfl
  have hparent := length_parentOf hp
  rw [mkdirAll, mkdirAll_go_eq _ le_rfl (Nat.le_succ p.length), mkdirAll.go, mkdirAll,
    mkdirAll_go_eq p.length (Nat.le_of_lt hparent) le_rfl]

/-! ## Old names -/

def endsInDots (p : Bytes) : Bool :=
  (comps (trimSlashes p)).getLast? = some dot || (comps (trimSlashes p)).getLast? = some dotdot

def Fs.hasChildren (fs : Fs) (ℓ : Loc) : Bool :=
  fs.names.keys.any fun k => ℓ.isPrefixOf k && k ≠ ℓ

def Os.remove (os : Os) (ℓ : Loc) : Os :=
  { os with fs := os.fs.unlink ℓ, log := os.log ++ [.remove ℓ] }

/-- What `os.Remove` removes: a directory must be empty. -/
def Os.removeTarget (os : Os) (p : Bytes) : Except Errno Loc :=
  match os.found (os.resolve false p) with
  | .error e => .error e
  | .ok ([], _) => .error .eperm
  | .ok (ℓ, .dir) =>
    if endsInDots p then .error .einval
    else if os.fs.hasChildren ℓ then .error .enotempty
    else .ok ℓ
  | .ok (ℓ, _) => .ok ℓ

def remove (p : Bytes) : Sys (Except Errno Unit) :=
  call fun os => match os.removeTarget p with
    | .error e => (.error e, os)
    | .ok ℓ => (.ok (), os.remove ℓ)

/-- Give the object at `k`, which is `a` or below it, the corresponding name at `b`. -/
def Fs.relocate (a b : Loc) (fs : Fs) (k : Loc) : Fs :=
  match h : fs.ino? k with
  | none => fs
  | some i => (fs.unlink k).link (b ++ k.drop a.length) i (fs.ino?_lt h)

/-- Move the object at `a`, with everything below it, to `b`. -/
def Os.move (os : Os) (a b : Loc) : Os :=
  { os with
    fs := (os.fs.names.keys.filter fun k => a.isPrefixOf k).foldl (Fs.relocate a b) (os.fs.unlink b)
    log := os.log ++ [.move a b] }

def Fs.same (fs : Fs) (a b : Loc) : Bool := a = b || (fs.ino? a).isSome && fs.ino? a = fs.ino? b

/-- What the system call `rename` moves, and where to; nothing if both names are of one object. -/
def Os.renameTarget (os : Os) (old new : Bytes) : Except Errno (Option (Loc × Loc)) :=
  match os.found (os.resolve false old), os.resolve false new with
  | .error e, _ => .error e
  | _, .error e => .error e
  | _, .ok (_, _ :: _ :: _) => .error .enoent
  | .ok (a, _), .ok (d, [c]) =>
    if a = [] ∨ endsInDots old ∨ a.isPrefixOf (d ++ [c]) then .error .einval
    else .ok (some (a, d ++ [c]))
  | .ok (a, n), .ok (b, []) =>
    if a = [] ∨ b = [] ∨ endsInDots old ∨ endsInDots new then .error .einval
    else if os.fs.same a b then .ok none
    else if a.isPrefixOf b then .error .einval
    else match n, os.fs.node? b with
      | .dir, some .dir => if os.fs.hasChildren b then .error .enotempty else .ok (some (a, b))
      | .dir, _ => .error .enotdir
      | _, some .dir => .error .eisdir
      | _, _ => .ok (some (a, b))

def renameCall (old new : Bytes) : Sys (Except Errno Unit) :=
  call fun os => match os.renameTarget old new with
    | .error e => (.error e, os)
    | .ok none => (.ok (), os)
    | .ok (some (a, b)) => (.ok (), os.move a b)

/-- `os.SameFile` of what is at two paths. -/
def sameFile (p q : Bytes) : Sys Bool := fun os =>
  (match os.found (os.resolve false p), os.found (os.resolve false q) with
    | .ok (a, _), .ok (b, _) => os.fs.same a b
    | _, _ => false, os)

/-- `os.Rename`: a directory is not replaced. -/
def rename (old new : Bytes) : Sys (Except Errno Unit) := do
  match ← lstat new with
  | .ok .dir =>
    match ← lstat old with
    | .error e => pure (.error e)
    | .ok _ => do
      let same ← sameFile old new
      if new = old ∨ same = false then pure (.error .eexist)
      else renameCall old new
  | _ => renameCall old new

/-! ## Links and directories -/

def readlink (p : Bytes) : Sys (Except Errno Bytes) :=
  call fun os => (match os.found (os.resolve false p) with
    | .ok (_, .symlink target) => .ok target
    | .ok _ => .error .einval
    | .error e => .error e, os)

def nameLE (a b : Name) : Prop := (compare a b).isLE = true

instance : DecidableRel nameLE := fun a b => inferInstanceAs (Decidable ((compare a b).isLE = true))

def Fs.children (fs : Fs) (ℓ : Loc) : List Name :=
  let names := fs.names.keys.filterMap fun k => if k.dropLast = ℓ then k.getLast? else none
  names.insertionSort nameLE

def readDir (p : Bytes) : Sys (Except Errno (List Name)) :=
  call fun os => (match os.found (os.resolve true p) with
    | .ok (ℓ, .dir) => .ok (os.fs.children ℓ)
    | .ok _ => .error .enotdir
    | .error e => .error e, os)

/-- `os.Lstat`, with the inode number. -/
def lstatIno (p : Bytes) : Sys (Except Errno (Node × Option Ino)) :=
  call fun os => ((os.found (os.resolve false p)).map fun x => (x.2, os.fs.ino? x.1), os)

/-! ## Attributes -/

/-- `os.Chmod` and `os.Chtimes`, which follow symbolic links. Modes and times are left out. -/
def setAttr (p : Bytes) : Sys (Except Errno Unit) :=
  call fun os => ((os.found (os.resolve true p)).map fun _ => (), os)

/-! ## Calls that make a name -/

section

variable (os : Os) (p : Bytes)

theorem newName_cases (r : Reached) : (∃ e, newName r = .error e) ∨ ∃ d c, r = .ok (d, [c]) := by
  rcases r with e | ⟨d, _ | ⟨c, _ | ⟨c', r⟩⟩⟩
  · exact .inl ⟨e, rfl⟩
  · exact .inl ⟨_, rfl⟩
  · exact .inr ⟨d, c, rfl⟩
  · exact .inl ⟨_, rfl⟩

theorem mkdir_cases : (∃ e, mkdir p os = (.error e, os.tick)) ∨
    ∃ d c, os.resolveDir p = .ok (d, [c]) ∧
      mkdir p os = (.ok (), os.tick.create (d ++ [c]) .dir) := by
  unfold mkdir call
  cases os.fault with
  | some fault => exact .inl ⟨_, rfl⟩
  | none =>
    rcases newName_cases (os.tick.resolveDir p) with ⟨e, he⟩ | ⟨d, c, hr⟩
    · simp only [he]
      exact .inl ⟨e, rfl⟩
    · simp only [hr]
      exact .inr ⟨d, c, hr, rfl⟩

theorem symlink_cases (target : Bytes) : (∃ e, symlink target p os = (.error e, os.tick)) ∨
    ∃ d c, os.resolve false p = .ok (d, [c]) ∧
      symlink target p os = (.ok (), os.tick.create (d ++ [c]) (.symlink target)) := by
  unfold symlink call
  cases os.fault with
  | some fault => exact .inl ⟨_, rfl⟩
  | none =>
    split_ifs
    · exact .inl ⟨_, rfl⟩
    rcases newName_cases (os.tick.resolve false p) with ⟨e, he⟩ | ⟨d, c, hr⟩
    · simp only [he]
      exact .inl ⟨e, rfl⟩
    · simp only [hr]
      exact .inr ⟨d, c, hr, rfl⟩

theorem link_cases (o : Bytes) : (∃ e, link o p os = (.error e, os.tick)) ∨
    ∃ source d c, os.linkSource o = .ok source ∧ os.resolve false p = .ok (d, [c]) ∧
      link o p os = (.ok (), os.tick.link source (d ++ [c])) := by
  unfold link call
  cases os.fault with
  | some fault => exact .inl ⟨_, rfl⟩
  | none =>
    cases hs : os.tick.linkSource o with
    | error e =>
      simp only [hs]
      exact .inl ⟨e, rfl⟩
    | ok source =>
      rcases newName_cases (os.tick.resolve false p) with ⟨e, he⟩ | ⟨d, c, hr⟩
      · simp only [hs, he]
        exact .inl ⟨e, rfl⟩
      · simp only [hs, hr]
        exact .inr ⟨source, d, c, hs, hr, rfl⟩

end

/-! ## Calls that fail -/

section

/-- A call that does nothing on an error of its own does nothing on a refusal either. -/
theorem call_error_state {f : Os → Except Errno α × Os}
    (hf : ∀ os e, (f os).1 = .error e → (f os).2 = os) (h : (call f os).1 = .error e) :
    (call f os).2 = os.tick := by
  unfold call at *
  cases hfault : os.fault with
  | some fault => rfl
  | none =>
    simp only [hfault] at h
    exact hf _ e h

theorem remove_error_state (h : (remove p os).1 = .error e) : (remove p os).2 = os.tick := by
  refine call_error_state ?_ h
  intro os e h
  split at h
  · rfl
  · cases h

theorem renameCall_error_state (h : (renameCall old new os).1 = .error e) :
    (renameCall old new os).2 = os.tick := by
  refine call_error_state ?_ h
  intro os e h
  split at h
  · rfl
  · cases h
  · cases h

theorem rename_triple (os : Os) : Sys.Triple (fun s => Untouched os s ∧ s.cwd = os.cwd)
    (rename old new) fun r s => ∀ e, r = .error e → Untouched os s ∧ s.cwd = os.cwd := by
  have hl : ∀ p, Sys.Triple (fun s => Untouched os s ∧ s.cwd = os.cwd) (lstat p)
      fun _ s => Untouched os s ∧ s.cwd = os.cwd := by
    intro p s ⟨huntouched, hcwd⟩
    rw [lstat, stat_state]
    exact ⟨huntouched.trans (.tick s), hcwd⟩
  have hc : Sys.Triple (fun s => Untouched os s ∧ s.cwd = os.cwd) (renameCall old new)
      fun r s => ∀ e, r = .error e → Untouched os s ∧ s.cwd = os.cwd := by
    intro s ⟨huntouched, hcwd⟩ e he
    rw [renameCall_error_state he]
    exact ⟨huntouched.trans (.tick s), hcwd⟩
  refine .bind (hl new) fun r => ?_
  split
  · refine .bind (hl old) fun r => ?_
    cases r with
    | error e => exact .pure fun _ h _ _ => h
    | ok n =>
      refine .bind (R := fun _ s => Untouched os s ∧ s.cwd = os.cwd) (fun _ h => h) fun same => ?_
      split
      · exact .pure fun _ h _ _ => h
      · exact hc
  · exact hc

theorem rename_error (h : (rename old new os).1 = .error e) :
    Untouched os (rename old new os).2 ∧ (rename old new os).2.cwd = os.cwd :=
      rename_triple os os ⟨.refl os, rfl⟩ e h

end

end Vfs
