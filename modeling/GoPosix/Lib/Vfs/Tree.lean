import Mathlib.Data.List.AList
import GoPosix.Lib.Bytes

/-!
# A POSIX file system: names and inodes

A file system gives names to inodes. A name is a *location*, the list of components from the root
along which no symbolic link is followed. Two locations with one inode are hard links of each other.
Permissions and times are left out; a refusal by the system is a fault of the call.
-/

namespace Vfs

abbrev Name := Bytes

/-- Where an object really is: the components from the root, no symbolic link among them. -/
abbrev Loc := List Name

abbrev Ino := Nat

/-- What an inode is. A `special` file (device, FIFO, socket) stands for itself: `stream` is what
reading it yields. -/
inductive Node where
  | dir
  | file (data : Bytes)
  | symlink (target : Bytes)
  | special (stream : Bytes)
  deriving DecidableEq, Repr

def Node.isSymlink : Node → Bool
  | .symlink _ => true
  | _ => false

/-- A file system. Inode numbers are handed out from `next` on and never used again, so a number
identifies an object for good. -/
structure Fs where
  names : AList fun _ : Loc => Ino
  nodes : Ino → Node
  next : Ino
  fresh : ∀ e ∈ names.entries, e.2 < next

def Fs.empty : Fs where
  names := ∅
  nodes := fun _ => .dir
  next := 0
  fresh := fun _ he => (List.not_mem_nil he).elim

namespace Fs

variable (fs : Fs)

def ino? (ℓ : Loc) : Option Ino := fs.names.lookup ℓ

/-- The object at a location. The root is always a directory. -/
def node? (ℓ : Loc) : Option Node :=
  if ℓ = [] then some .dir else (fs.ino? ℓ).map fs.nodes

theorem ino?_lt (h : fs.ino? ℓ = some i) : i < fs.next :=
  fs.fresh ⟨ℓ, i⟩ (AList.mem_lookup_iff.mp h)

/-- Give the location `ℓ` the inode `i`, which is in use. -/
def link (ℓ : Loc) (i : Ino) (hi : i < fs.next) : Fs where
  names := fs.names.insert ℓ i
  nodes := fs.nodes
  next := fs.next
  fresh := by
    intro e he
    rw [AList.entries_insert, List.mem_cons] at he
    rcases he with rfl | he
    · exact hi
    · exact fs.fresh e ((List.kerase_sublist ℓ _).subset he)

def add (ℓ : Loc) (n : Node) : Fs :=
  Fs.link
    { names := fs.names
      nodes := Function.update fs.nodes fs.next n
      next := fs.next + 1
      fresh := fun e he => Nat.lt_succ_of_lt (fs.fresh e he) }
    ℓ fs.next (Nat.lt_succ_self _)

def setNode (i : Ino) (n : Node) : Fs := { fs with nodes := Function.update fs.nodes i n }

def unlink (ℓ : Loc) : Fs where
  names := fs.names.erase ℓ
  nodes := fs.nodes
  next := fs.next
  fresh := fun e he => fs.fresh e ((List.kerase_sublist ℓ _).subset he)

theorem ino?_link (hi : i < fs.next) :
    (fs.link ℓ i hi).ino? ℓ' = if ℓ' = ℓ then some i else fs.ino? ℓ' := by
  unfold ino? link
  split
  · next h => rw [h, AList.lookup_insert]
  · next h => exact AList.lookup_insert_ne h

theorem ino?_add : (fs.add ℓ n).ino? ℓ' = if ℓ' = ℓ then some fs.next else fs.ino? ℓ' :=
  ino?_link ..

theorem ino?_unlink : (fs.unlink ℓ).ino? ℓ' = if ℓ' = ℓ then none else fs.ino? ℓ' := by
  unfold ino? unlink
  split
  · next h => rw [h, AList.lookup_erase]
  · next h => exact AList.lookup_erase_ne h

@[simp] theorem ino?_setNode : (fs.setNode i n).ino? ℓ = fs.ino? ℓ := rfl

@[simp] theorem node?_nil : fs.node? [] = some .dir := if_pos rfl

theorem node?_of_ino? (hℓ : ℓ ≠ []) (h : fs.ino? ℓ = some i) : fs.node? ℓ = some (fs.nodes i) := by
  rw [node?, if_neg hℓ, h, Option.map_some]

theorem exists_ino?_of_node? (h : fs.node? ℓ = some n) (hn : n ≠ .dir) :
    ℓ ≠ [] ∧ ∃ i, fs.ino? ℓ = some i ∧ fs.nodes i = n := by
  rcases eq_or_ne ℓ [] with rfl | hℓ
  · exact absurd (Option.some.inj h).symm hn
  · rw [node?, if_neg hℓ, Option.map_eq_some_iff] at h
    exact ⟨hℓ, h⟩

theorem node?_link (hℓ : ℓ ≠ []) (hi : i < fs.next) :
    (fs.link ℓ i hi).node? ℓ' = if ℓ' = ℓ then some (fs.nodes i) else fs.node? ℓ' := by
  rcases eq_or_ne ℓ' [] with rfl | hn
  · rw [node?_nil, node?_nil, if_neg hℓ.symm]
  · rw [node?, node?, if_neg hn, ino?_link]
    split <;> rfl

theorem node?_add (hℓ : ℓ ≠ []) :
    (fs.add ℓ n).node? ℓ' = if ℓ' = ℓ then some n else fs.node? ℓ' := by
  rw [add, node?_link _ hℓ]
  split
  · simp
  -- the new inode number is not in use
  rcases eq_or_ne ℓ' [] with rfl | hn
  · simp
  · rw [node?, node?, if_neg hn, if_neg hn]
    show (fs.ino? ℓ').map _ = _
    cases h : fs.ino? ℓ' with
    | none => rfl
    | some j => simp [Function.update_of_ne (Nat.ne_of_lt (fs.ino?_lt h))]

theorem node?_unlink (hℓ : ℓ ≠ []) :
    (fs.unlink ℓ).node? ℓ' = if ℓ' = ℓ then none else fs.node? ℓ' := by
  rcases eq_or_ne ℓ' [] with rfl | hn
  · rw [node?_nil, node?_nil, if_neg hℓ.symm]
  · rw [node?, node?, if_neg hn, ino?_unlink]
    split <;> rfl

theorem node?_setNode (hℓ : ℓ ≠ []) :
    (fs.setNode i n).node? ℓ = if fs.ino? ℓ = some i then some n else fs.node? ℓ := by
  rw [node?, node?, if_neg hℓ, if_neg hℓ, ino?_setNode]
  cases h : fs.ino? ℓ with
  | none => simp
  | some j =>
    rcases eq_or_ne j i with rfl | hj
    · simp [setNode]
    · simp [setNode, hj]

end Fs

end Vfs
