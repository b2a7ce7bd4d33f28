import GoPosix.Lib.Vfs.Walk

/-!
# System calls

A program runs in `Sys`, with the state `Os` of the system: the file system, the current directory,
and what the calls so far did (`log`). Any call may be refused for a reason the file system does not
show (permissions, quotas, a failing disk): `faults` says which are. A refused call has no effect,
except that a refused write may have written some of its bytes. The calls are those of package `os`,
with the checks it makes on top of the kernel's.
-/

namespace Vfs

open Bytes

/-- What a call did to an object. The location is where the object really is. -/
inductive Effect where
  | create (ℓ : Loc)
  | truncate (ℓ : Loc) (i : Ino)
  | write (ℓ : Loc) (i : Ino)
  | link (source : Loc) (i : Ino) (ℓ : Loc)
  | remove (ℓ : Loc)
  | move (source ℓ : Loc)
  deriving DecidableEq, Repr

/-- A refusal: its reason, and for a write the number of bytes written before it. -/
structure Fault where
  errno : Errno
  written : Nat := 0
  deriving DecidableEq, Repr

structure Os where
  fs : Fs
  cwd : Loc
  log : List Effect
  faults : Nat → Option Fault
  clock : Nat

/-- The system with one regular file, in the root directory, and no refusals. -/
def Os.single (name content : Bytes) : Os where
  fs := Fs.empty.add [name] (.file content)
  cwd := []
  log := []
  faults := fun _ => none
  clock := 0

abbrev Sys := StateM Os

@[simp] theorem Sys.pure_apply (a : α) (os : Os) : (pure a : Sys α) os = (a, os) := rfl

@[simp] theorem Sys.bind_apply (m : Sys α) (f : α → Sys β) (os : Os) :
    (m >>= f) os = f (m os).1 (m os).2 := rfl

/-- A program that starts in a state with `P` ends with a result and in a state with `Q`. -/
def Sys.Triple {α : Type} (P : Os → Prop) (m : Sys α) (Q : α → Os → Prop) : Prop :=
  ∀ os, P os → Q (m os).1 (m os).2

section Triple

variable {α β : Type}

theorem Sys.Triple.pure (h : ∀ os, P os → Q b os) : Sys.Triple P (Pure.pure b) Q := h

theorem Sys.Triple.bind (hm : Sys.Triple P m R) (hf : ∀ a, Sys.Triple (R a) (f a) Q) :
    Sys.Triple P (m >>= f) Q :=
  fun os hos => hf _ _ (hm os hos)

theorem Sys.Triple.pre (h : ∀ os, P os → P' os) (hm : Sys.Triple P' m R) : Sys.Triple P m R :=
  fun os hos => hm os (h os hos)

theorem Sys.Triple.assume (hm : φ → Sys.Triple P m R) : Sys.Triple (fun os => P os ∧ φ) m R :=
  fun os hos => hm hos.2 os hos.1

theorem Sys.Triple.bind_any (hf : ∀ a, Sys.Triple (fun _ => True) (f a) Q) :
    Sys.Triple (fun _ => True) (m >>= f) Q :=
  fun _ _ => hf _ _ trivial

end Triple

/-- The state after a call, whatever its outcome. -/
def Os.tick (os : Os) : Os := { os with clock := os.clock + 1 }

/-- What the next call is refused with, if it is. -/
def Os.fault (os : Os) : Option Fault := os.faults os.clock

/-- A call that does `f` unless it is refused. -/
def call {α : Type} (f : Os → Except Errno α × Os) : Sys (Except Errno α) := fun os =>
  match os.fault with
  | some fault => (.error fault.errno, os.tick)
  | none => f os.tick

namespace Os

variable (os : Os)

def resolve (follow : Bool) (p : Bytes) : Reached := os.fs.resolve os.cwd follow p

def found : Reached → Except Errno (Loc × Node)
  | .error e => .error e
  | .ok (_, _ :: _) => .error .enoent
  | .ok (ℓ, []) => match os.fs.node? ℓ with
    | some n => .ok (ℓ, n)
    | none => .error .enoent

def create (ℓ : Loc) (n : Node) : Os :=
  { os with fs := os.fs.add ℓ n, log := os.log ++ [.create ℓ] }

def truncate (ℓ : Loc) (i : Ino) : Os :=
  { os with fs := os.fs.setNode i (.file []), log := os.log ++ [.truncate ℓ i] }

/-- Write `data` behind what the file `i` has. A special file takes it without keeping it. -/
def append (ℓ : Loc) (i : Ino) (data : Bytes) : Os :=
  { os with
    fs := match os.fs.nodes i with
      | .file old => os.fs.setNode i (.file (old ++ data))
      | _ => os.fs
    log := os.log ++ [.write ℓ i] }

end Os

/-! ## Reading -/

/-- `os.Stat` and `os.Lstat`: what is at the end of a path. -/
def stat (follow : Bool) (p : Bytes) : Sys (Except Errno Node) :=
  call fun os => ((os.found (os.resolve follow p)).map Prod.snd, os)

def lstat (p : Bytes) : Sys (Except Errno Node) := stat false p

/-- An open file: a directory, or the object it was opened as. -/
inductive Handle where
  | dir
  | obj (ℓ : Loc) (i : Ino)
  deriving DecidableEq, Repr

def openRead (p : Bytes) : Sys (Except Errno Handle) :=
  call fun os => match os.found (os.resolve true p) with
    | .error e => (.error e, os)
    | .ok (_, .dir) => (.ok .dir, os)
    | .ok (ℓ, _) => match os.fs.ino? ℓ with
      | some i => (.ok (.obj ℓ i), os)
      | none => (.error .enoent, os)

/-- What reading an open file to its end yields. -/
def Os.content (os : Os) : Handle → Except Errno Bytes
  | .dir => .error .eisdir
  | .obj _ i => match os.fs.nodes i with
    | .file data => .ok data
    | .special stream => .ok stream
    | .dir => .error .eisdir
    | .symlink _ => .error .eloop

def readAll (h : Handle) : Sys (Except Errno Bytes) := call fun os => (os.content h, os)

structure PathError where
  op : Bytes
  path : Bytes
  errno : Errno
  deriving DecidableEq, Repr

def readFile (p : Bytes) : Sys (Except PathError Bytes) := do
  match ← openRead p with
  | .error e => pure (.error ⟨str "open", p, e⟩)
  | .ok h =>
    match ← readAll h with
    | .error e => pure (.error ⟨str "read", p, e⟩)
    | .ok data => pure (.ok data)

/-! ## Writing -/

/-- What a file opened for writing is: an existing regular or special file, or a new one. -/
inductive WriteTarget where
  | regular (ℓ : Loc) (i : Ino)
  | special (ℓ : Loc) (i : Ino)
  | free (ℓ : Loc)
  deriving DecidableEq, Repr

/-- What opening `p` for writing is going to open. -/
def Os.writeTarget (os : Os) (create : Bool) (p : Bytes) : Except Errno WriteTarget :=
  match os.resolve true p with
  | .error e => .error e
  | .ok (ℓ, []) => match os.fs.node? ℓ, os.fs.ino? ℓ with
    | some (.file _), some i => .ok (.regular ℓ i)
    | some (.special _), some i => .ok (.special ℓ i)
    | some .dir, _ => .error .eisdir
    | some (.symlink _), _ => .error .eloop
    | _, _ => .error .enoent
  | .ok (d, [c]) => if create then .ok (.free (d ++ [c])) else .error .enoent
  | .ok (_, _ :: _ :: _) => .error .enoent

/-- The open file, by location and inode: an existing regular file is emptied. -/
def Os.openTarget (os : Os) : WriteTarget → (Loc × Ino) × Os
  | .regular ℓ i => ((ℓ, i), os.truncate ℓ i)
  | .special ℓ i => ((ℓ, i), os)
  | .free ℓ => ((ℓ, os.fs.next), os.create ℓ (.file []))

/-- `os.OpenFile(p, O_WRONLY|O_TRUNC)`, with `O_CREATE` if `create` says so. -/
def openWrite (create : Bool) (p : Bytes) : Sys (Except Errno Handle) :=
  call fun os => match os.writeTarget create p with
    | .error e => (.error e, os)
    | .ok t => (.ok (.obj (os.openTarget t).1.1 (os.openTarget t).1.2), (os.openTarget t).2)

/-- Write to an open file. A refusal may come after some of the bytes. -/
def write (h : Handle) (data : Bytes) : Sys (Except Errno Unit) := fun os =>
  match h with
  | .dir => (.error .eisdir, os.tick)
  | .obj ℓ i => match os.fault with
    | some fault => (.error fault.errno, os.tick.append ℓ i (data.take fault.written))
    | none => (.ok (), os.tick.append ℓ i data)

def writeFile (p : Bytes) (data : Bytes) : Sys (Except PathError Unit) := do
  match ← openWrite true p with
  | .error e => pure (.error ⟨str "open", p, e⟩)
  | .ok h =>
    match ← write h data with
    | .error e => pure (.error ⟨str "write", p, e⟩)
    | .ok () => pure (.ok ())

/-- `io.Copy` between two open files. Nothing is written if there is nothing to read. -/
def copy (dst src : Handle) : Sys (Except Errno Unit) := fun os =>
  match os.content src with
  | .error e => (.error e, os.tick)
  | .ok data => if data = [] then call (fun os => (.ok (), os)) os else write dst data os

/-! ## What the calls change -/

/-- Nothing was done to the file system. -/
structure Untouched (os os' : Os) : Prop where
  fs : os'.fs = os.fs
  log : os'.log = os.log

theorem Untouched.refl (os : Os) : Untouched os os := ⟨rfl, rfl⟩

theorem Untouched.symm (h : Untouched a b) : Untouched b a := ⟨h.fs.symm, h.log.symm⟩

theorem Untouched.trans (hab : Untouched a b) (hbc : Untouched b c) :
    Untouched a c := ⟨hbc.fs.trans hab.fs, hbc.log.trans hab.log⟩

section

variable (os : Os) (p : Bytes)

theorem Untouched.tick : Untouched os os.tick := ⟨rfl, rfl⟩

theorem call_state {f : Os → Except Errno α × Os} (hf : ∀ os, (f os).2 = os) :
    (call f os).2 = os.tick := by
  unfold call
  split
  · rfl
  · exact hf _

/-- What a call keeps: it is refused, or it does what it does. -/
theorem call_triple {f : Os → Except Errno α × Os} {P Q : Os → Prop} (ht : ∀ s, P s → Q s.tick)
    (hf : ∀ s, P s → Q (f s.tick).2) : Sys.Triple P (call f) fun _ => Q := by
  intro s hs
  unfold call
  split
  · exact ht s hs
  · exact hf s hs

theorem stat_state (f : Bool) : (stat f p os).2 = os.tick := call_state os fun _ => rfl

theorem openRead_state : (openRead p os).2 = os.tick := by
  refine call_state os fun os => ?_
  split
  · rfl
  · rfl
  · split <;> rfl

theorem readAll_state (h : Handle) : (readAll h os).2 = os.tick := call_state os fun _ => rfl

theorem readFile_ok (h : (readFile p os).1 = .ok data) : (readFile p os).2 = os.tick.tick := by
  have ho := openRead_state os p
  unfold readFile at h ⊢
  rw [Sys.bind_apply] at h ⊢
  cases hr : (openRead p os).1 with
  | error e =>
    rw [hr] at h
    cases h
  | ok hd =>
    simp only [ho, Sys.bind_apply] at h ⊢
    have hread := readAll_state os.tick hd
    cases hd' : (readAll hd os.tick).1 <;> exact hread

theorem readFile_untouched : Untouched os (readFile p os).2 := by
  have ho := openRead_state os p
  unfold readFile
  rw [Sys.bind_apply]
  cases hr : (openRead p os).1 with
  | error e =>
    simp only [ho]
    exact .tick os
  | ok hd =>
    have hread := readAll_state os.tick hd
    simp only [ho, Sys.bind_apply]
    cases hd' : (readAll hd os.tick).1 <;> exact hread ▸ (Untouched.tick os).trans (.tick _)

/-- The path can be opened for writing. -/
def Os.Writable : Prop := ∃ t, os.writeTarget true p = .ok t

instance : Decidable (os.Writable p) :=
  match h : os.writeTarget true p with
  | .ok t => .isTrue ⟨t, h⟩
  | .error _ => .isFalse fun ⟨t, ht⟩ => by rw [h] at ht; cases ht

/-- What is opened is known, unless the call fails, which does nothing. -/
theorem openWrite_cases (create : Bool) :
    (∃ e, openWrite create p os = (.error e, os.tick)) ∨ os.fault = none ∧
      ∃ t, os.writeTarget create p = .ok t := by
  cases hf : os.fault with
  | some fault => exact .inl ⟨fault.errno, by simp only [openWrite, call, hf]⟩
  | none =>
    cases ht : os.writeTarget create p with
    | error e =>
      exact .inl ⟨e, by
      simp only [openWrite, call, hf, show os.tick.writeTarget create p = .error e from ht]⟩
    | ok t => exact .inr ⟨rfl, t, rfl⟩

theorem openWrite_ok (hf : os.fault = none) (ht : os.writeTarget create p = .ok t) :
    openWrite create p os =
      (.ok (.obj (os.tick.openTarget t).1.1 (os.tick.openTarget t).1.2),
          (os.tick.openTarget t).2) := by
  simp only [openWrite, call, hf, show os.tick.writeTarget create p = .ok t from ht]

theorem write_cases (ℓ : Loc) (i : Ino) (data : Bytes) :
    ∃ d, (write (.obj ℓ i) data os).2 = os.tick.append ℓ i d := by
  cases hf : os.fault <;> simp only [write, hf] <;> exact ⟨_, rfl⟩

theorem append_file (h : os.fs.nodes i = .file old) (ℓ : Loc) (data : Bytes) :
    (os.append ℓ i data).fs = os.fs.setNode i (.file (old ++ data)) := by
  unfold Os.append
  rw [h]

theorem append_other (h : ∀ old, os.fs.nodes i ≠ .file old) (ℓ : Loc) (data : Bytes) :
    (os.append ℓ i data).fs = os.fs := by
  unfold Os.append
  split
  · next old hold => exact absurd hold (h old)
  · rfl

theorem writeFile_state (hf : os.fault = none) (ht : os.writeTarget true p = .ok t) (data : Bytes) :
    (writeFile p data os).2 =
      (write (.obj (os.tick.openTarget t).1.1 (os.tick.openTarget t).1.2) data
      (os.tick.openTarget t).2).2 := by
  simp only [writeFile, Sys.bind_apply, openWrite_ok os p hf ht]
  generalize write _ data (os.tick.openTarget t).2 = written
  obtain ⟨_ | _, os'⟩ := written <;> rfl

theorem writeFile_untouched_iff (data : Bytes) :
    Untouched os (writeFile p data os).2 ↔ ¬ (os.fault = none ∧ os.Writable p) := by
  constructor
  · rintro h ⟨hf, t, ht⟩
    obtain ⟨d, hw⟩ := write_cases (os.tick.openTarget t).2 (os.tick.openTarget t).1.1
      (os.tick.openTarget t).1.2 data
    have hl := congrArg List.length h.log
    rw [writeFile_state os p hf ht, hw] at hl
    cases t <;> simp [Os.openTarget, Os.truncate, Os.create, Os.append, Os.tick] at hl
  · intro h
    rcases openWrite_cases os p true with ⟨e, ho⟩ | ho
    · simp only [writeFile, Sys.bind_apply, ho]
      exact .tick os
    · exact absurd ho h

/-! ## A regular file that is there -/

variable {os p}

theorem Os.found_eq_ok : os.found r = .ok (ℓ, n) ↔ r = .ok (ℓ, []) ∧ os.fs.node? ℓ = some n := by
  rcases r with e | ⟨ℓ', _ | ⟨c, rest⟩⟩
  · simp [Os.found]
  · cases hn : os.fs.node? ℓ' with
    | none =>
      simp only [Os.found, hn]
      constructor
      · intro h
        cases h
      · rintro ⟨h, h'⟩
        cases h
        rw [hn] at h'
        cases h'
    | some m =>
      simp only [Os.found, hn]
      constructor
      · intro h
        cases h
        exact ⟨rfl, hn⟩
      · rintro ⟨h, h'⟩
        cases h
        rw [hn] at h'
        cases h'
        rfl
  · simp [Os.found]

/-- What is opened for writing: a regular file, a special file, or a free name. -/
theorem writeTarget_cases (h : os.writeTarget create p = .ok t) :
    (∃ ℓ i data, t = .regular ℓ i ∧ os.resolve true p = .ok (ℓ, []) ∧ ℓ ≠ [] ∧
      os.fs.ino? ℓ = some i ∧ os.fs.nodes i = .file data) ∨
      (∃ ℓ i stream, t = .special ℓ i ∧ os.resolve true p = .ok (ℓ, []) ∧ ℓ ≠ [] ∧
        os.fs.ino? ℓ = some i ∧ os.fs.nodes i = .special stream) ∨
      ∃ d c, t = .free (d ++ [c]) ∧ os.resolve true p = .ok (d, [c]) := by
  unfold Os.writeTarget at h
  split at h
  · cases h
  · next ℓ hr =>
    split at h
    · next data i hn hi =>
      cases h
      obtain ⟨hℓ, i', hi', hnode⟩ := os.fs.exists_ino?_of_node? hn (by simp)
      rw [hi] at hi'
      cases hi'
      exact .inl ⟨ℓ, i, data, rfl, hr, hℓ, hi, hnode⟩
    · next stream i hn hi =>
      cases h
      obtain ⟨hℓ, i', hi', hnode⟩ := os.fs.exists_ino?_of_node? hn (by simp)
      rw [hi] at hi'
      cases hi'
      exact .inr (.inl ⟨ℓ, i, stream, rfl, hr, hℓ, hi, hnode⟩)
    · cases h
    · cases h
    · cases h
  · next d c hr =>
    split_ifs at h
    cases h
    exact .inr (.inr ⟨d, c, rfl, hr⟩)
  · cases h

theorem writeTarget_free (h : os.writeTarget create p = .ok (.free ℓ)) :
    ∃ d c, ℓ = d ++ [c] ∧ os.resolve true p = .ok (d, [c]) := by
  rcases writeTarget_cases h with ⟨_, _, _, heq, -⟩ | ⟨_, _, _, heq, -⟩ | ⟨d, c, heq, hr⟩
    <;> cases heq
  exact ⟨d, c, rfl, hr⟩

/-- A path that leaves one name over ends in a directory that does not have it. -/
theorem resolve_free (h : os.resolve follow p = .ok (d, [c])) :
    os.fs.node? d = some .dir ∧ os.fs.node? (d ++ [c]) = none := by
  unfold Os.resolve Fs.resolve at h
  split_ifs at h
  obtain ⟨hd, -, hn⟩ := (walk_eq_ok.mp h).stopped
  exact ⟨Fs.shape?_eq_dir.mp hd, Fs.shape?_eq_none.mp hn⟩

end

end Vfs
