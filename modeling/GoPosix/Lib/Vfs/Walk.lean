import GoPosix.Lib.Vfs.Tree

/-!
# Path lookup

`walk` is the kernel's path lookup. It reads a path component by component, goes through at most 40
symbolic links, and reports the last location it reached together with the components that do not
exist from there. An existing object is reached with nothing left over, and a path whose last
component alone is missing can be created.

The lookup reads the file system through `look` only, which tells directories, symbolic links and
the rest apart. Two facts carry the reasoning about programs that change the tree:

* `Lookup.append`: a path is looked up by looking up its first part and going on from there;
* `Lookup.extend`: when an object appears at a free location `ℓ`, a lookup changes only if it had
  stopped at `ℓ`.
-/

namespace Vfs

open Bytes List

/-- The reasons for which a call fails, as far as a program here tells them apart. -/
inductive Errno where
  | enoent | enotdir | eisdir | eexist | eloop | enotempty | eperm | eacces | einval | exdev
    | enospc
  | eio
  deriving DecidableEq, Repr

/-- What path lookup sees of an object. -/
inductive Shape where
  | dir
  | link (target : Bytes)
  | leaf
  deriving DecidableEq, Repr

def Node.shape : Node → Shape
  | .dir => .dir
  | .symlink target => .link target
  | .file _ | .special _ => .leaf

def Fs.shape? (fs : Fs) (ℓ : Loc) : Option Shape := (fs.node? ℓ).map Node.shape

section

variable {fs : Fs}

theorem Fs.shape?_eq_none : fs.shape? ℓ = none ↔ fs.node? ℓ = none := Option.map_eq_none_iff

theorem Fs.shape?_eq_dir : fs.shape? ℓ = some .dir ↔ fs.node? ℓ = some .dir := by
  rw [Fs.shape?]
  rcases fs.node? ℓ with _ | (_ | _ | _ | _) <;> simp [Node.shape]

theorem Fs.shape?_add (hℓ : ℓ ≠ []) :
    (fs.add ℓ n).shape? ℓ' = if ℓ' = ℓ then some n.shape else fs.shape? ℓ' := by
  rw [Fs.shape?, Fs.node?_add fs hℓ]
  split <;> rfl

theorem Fs.shape?_unlink (hℓ : ℓ ≠ []) :
    (fs.unlink ℓ).shape? ℓ' = if ℓ' = ℓ then none else fs.shape? ℓ' := by
  rw [Fs.shape?, Fs.node?_unlink fs hℓ]
  split <;> rfl

end

def slash : UInt8 := 47

def dot : Name := str "."

def dotdot : Name := str ".."

def comps (p : Bytes) : List Name := p.splitOn slash

def isAbs (p : Bytes) : Bool := p.head? = some slash

/-- Where the lookup of `p` starts, seen from the directory `cur`. -/
def start (cur : Loc) (p : Bytes) : Loc := if isAbs p then [] else cur

/-- How far a path leads: the last location reached, and the components that do not exist from
there. -/
abbrev Reached := Except Errno (Loc × List Name)

/-- The lookup of a list of components from `cur`. `expand` continues behind a symbolic link; one in
the last place is only followed if `follow` says so. -/
def walkWith (look : Loc → Option Shape) (follow : Bool) (expand : Loc → List Name → Reached) :
    Loc → List Name → Reached
  | cur, [] => .ok (cur, [])
  | cur, c :: rest =>
    match look cur with
    | none => .error .enoent
    | some .leaf | some (.link _) => .error .enotdir
    | some .dir =>
      if c = [] ∨ c = dot then walkWith look follow expand cur rest
      else if c = dotdot then walkWith look follow expand cur.dropLast rest
      else match look (cur ++ [c]) with
        | none => .ok (cur, c :: rest)
        | some (.link target) =>
          if rest = [] ∧ follow = false then .ok (cur ++ [c], [])
          else expand (start cur target) (comps target ++ rest)
        | some .dir | some .leaf => walkWith look follow expand (cur ++ [c]) rest

/-- The lookup with at most `n` symbolic links. -/
def walk (look : Loc → Option Shape) (follow : Bool) : (n : Nat) → Loc → List Name → Reached
  | 0 => walkWith look follow fun _ _ => .error .eloop
  | n + 1 => walkWith look follow (walk look follow n)

/-- The number of symbolic links the kernel follows in one lookup. -/
def maxLinks : Nat := 40

/-- The lookup of the path `p` by a process in the directory `cwd`. -/
def Fs.resolve (fs : Fs) (cwd : Loc) (follow : Bool) (p : Bytes) : Reached :=
  if p = [] then .error .enoent else walk fs.shape? follow maxLinks (start cwd p) (comps p)

/-! ## The lookup as a relation -/

/-- A component that names an object. -/
def Plain (c : Name) : Prop := c ≠ [] ∧ c ≠ dot ∧ c ≠ dotdot

/-- A lookup that does not fail, step by step: the components `xs` lead from `cur` to `ℓ` with `r`
left over, through at most `n` symbolic links. -/
inductive Lookup (look : Loc → Option Shape) (follow : Bool) :
    (n : Nat) → (cur : Loc) → (xs : List Name) → (ℓ : Loc) → (r : List Name) → Prop
  | nil {n : Nat} {cur : Loc} : Lookup look follow n cur [] cur []
  | stay {n : Nat} {cur ℓ : Loc} {c : Name} {rest r : List Name} (hdir : look cur = some .dir)
      (hc : c = [] ∨ c = dot) (h : Lookup look follow n cur rest ℓ r) :
      Lookup look follow n cur (c :: rest) ℓ r
  | up {n : Nat} {cur ℓ : Loc} {rest r : List Name} (hdir : look cur = some .dir)
      (h : Lookup look follow n cur.dropLast rest ℓ r) :
      Lookup look follow n cur (dotdot :: rest) ℓ r
  | missing {n : Nat} {cur : Loc} {c : Name} {rest : List Name} (hdir : look cur = some .dir)
      (hc : Plain c) (hnone : look (cur ++ [c]) = none) :
      Lookup look follow n cur (c :: rest) cur (c :: rest)
  | last {n : Nat} {cur : Loc} {c : Name} {t : Bytes} (hdir : look cur = some .dir) (hc : Plain c)
      (hlink : look (cur ++ [c]) = some (.link t)) (hf : follow = false) :
      Lookup look follow n cur [c] (cur ++ [c]) []
  | link {n : Nat} {cur ℓ : Loc} {c : Name} {rest r : List Name} {t : Bytes}
      (hdir : look cur = some .dir) (hc : Plain c) (hlink : look (cur ++ [c]) = some (.link t))
      (hf : ¬ (rest = [] ∧ follow = false))
      (h : Lookup look follow n (start cur t) (comps t ++ rest) ℓ r) :
      Lookup look follow (n + 1) cur (c :: rest) ℓ r
  | down {n : Nat} {cur ℓ : Loc} {c : Name} {rest r : List Name} {s : Shape}
      (hdir : look cur = some .dir) (hc : Plain c) (hsome : look (cur ++ [c]) = some s)
      (hs : ∀ t, s ≠ .link t) (h : Lookup look follow n (cur ++ [c]) rest ℓ r) :
      Lookup look follow n cur (c :: rest) ℓ r

section Walk

variable {look look' : Loc → Option Shape}

@[simp] theorem walk_nil : walk look follow n cur [] = .ok (cur, []) := by
  cases n <;> rfl

/-- What follows behind a symbolic link: the lookup with one link less, or `ELOOP`. -/
def behind (look : Loc → Option Shape) (follow : Bool) : Nat → Loc → List Name → Reached
  | 0, _, _ => .error .eloop
  | n + 1, cur, rest => walk look follow n cur rest

theorem walk_cons : walk look follow n cur (c :: rest) =
    match look cur with
    | none => .error .enoent
    | some .leaf | some (.link _) => .error .enotdir
    | some .dir =>
      if c = [] ∨ c = dot then walk look follow n cur rest
      else if c = dotdot then walk look follow n cur.dropLast rest
      else match look (cur ++ [c]) with
        | none => .ok (cur, c :: rest)
        | some (.link target) =>
          if rest = [] ∧ follow = false then .ok (cur ++ [c], [])
          else behind look follow n (start cur target) (comps target ++ rest)
        | some .dir | some .leaf => walk look follow n (cur ++ [c]) rest := by
  cases n <;> rfl

section Steps

variable (hdir : look cur = some .dir)

include hdir

theorem walk_stay (hc : c = [] ∨ c = dot) :
    walk look follow n cur (c :: rest) = walk look follow n cur rest := by
  rw [walk_cons, hdir]
  exact if_pos hc

theorem walk_up :
    walk look follow n cur (dotdot :: rest) = walk look follow n cur.dropLast rest := by
  rw [walk_cons, hdir]
  rfl

theorem walk_plain (hc : Plain c) : walk look follow n cur (c :: rest) =
    match look (cur ++ [c]) with
    | none => .ok (cur, c :: rest)
    | some (.link target) =>
      if rest = [] ∧ follow = false then .ok (cur ++ [c], [])
      else behind look follow n (start cur target) (comps target ++ rest)
    | some .dir | some .leaf => walk look follow n (cur ++ [c]) rest := by
  rw [walk_cons, hdir]
  simp only [if_neg (not_or.mpr ⟨hc.1, hc.2.1⟩), if_neg hc.2.2]

theorem walk_missing (hc : Plain c) (hn : look (cur ++ [c]) = none) :
    walk look follow n cur (c :: rest) = .ok (cur, c :: rest) := by
  rw [walk_plain hdir hc, hn]

theorem walk_last (hc : Plain c) (hl : look (cur ++ [c]) = some (.link t))
    (hf : follow = false) : walk look follow n cur [c] = .ok (cur ++ [c], []) := by
  rw [walk_plain hdir hc, hl]
  exact if_pos ⟨rfl, hf⟩

theorem walk_link (hc : Plain c) (hl : look (cur ++ [c]) = some (.link t))
    (hf : ¬ (rest = [] ∧ follow = false)) :
    walk look follow (n + 1) cur (c :: rest) =
      walk look follow n (start cur t) (comps t ++ rest) := by
  rw [walk_plain hdir hc, hl]
  exact if_neg hf

theorem walk_down (hc : Plain c) (hsome : look (cur ++ [c]) = some s) (hs : ∀ t, s ≠ .link t) :
    walk look follow n cur (c :: rest) = walk look follow n (cur ++ [c]) rest := by
  rw [walk_plain hdir hc, hsome]
  cases s with
  | dir => rfl
  | leaf => rfl
  | link t => exact absurd rfl (hs t)

end Steps

theorem Lookup.walk_eq (h : Lookup look follow n cur xs ℓ r) :
    walk look follow n cur xs = .ok (ℓ, r) := by
  induction h with
  | nil => exact walk_nil
  | stay hdir hc _ ih => rw [walk_stay hdir hc, ih]
  | up hdir _ ih => rw [walk_up hdir, ih]
  | missing hdir hc hn => exact walk_missing hdir hc hn
  | last hdir hc hl hf => exact walk_last hdir hc hl hf
  | link hdir hc hl hf _ ih => rw [walk_link hdir hc hl hf, ih]
  | down hdir hc hsome hs _ ih => rw [walk_down hdir hc hsome hs, ih]

/-- One level of links: the lookup is in the relation if what follows behind a link is. -/
theorem lookup_of_behind
    (hb : ∀ {cur ℓ : Loc} {xs r : List Name}, behind look follow n cur xs = .ok (ℓ, r) →
      ∃ m, n = m + 1 ∧ Lookup look follow m cur xs ℓ r) (xs : List Name) :
    ∀ {cur ℓ : Loc} {r : List Name}, walk look follow n cur xs = .ok (ℓ, r) →
      Lookup look follow n cur xs ℓ r := by
  induction xs with
  | nil =>
    intro cur ℓ r h
    rw [walk_nil] at h
    cases h
    exact .nil
  | cons c rest ih =>
    intro cur ℓ r h
    rw [walk_cons] at h
    split at h
    · cases h
    · cases h
    · cases h
    next hdir =>
    by_cases hs : c = [] ∨ c = dot
    · rw [if_pos hs] at h
      exact .stay hdir hs (ih h)
    rw [if_neg hs] at h
    by_cases hup : c = dotdot
    · subst hup
      exact .up hdir (ih h)
    rw [if_neg hup] at h
    have hc : Plain c := ⟨fun e => hs (.inl e), fun e => hs (.inr e), hup⟩
    cases hlook : look (cur ++ [c]) with
    | none =>
      rw [hlook] at h
      cases h
      exact .missing hdir hc hlook
    | some s =>
      rw [hlook] at h
      cases s with
      | dir => exact .down hdir hc hlook (by simp) (ih h)
      | leaf => exact .down hdir hc hlook (by simp) (ih h)
      | link t =>
        by_cases hf : rest = [] ∧ follow = false
        · simp only [if_pos hf] at h
          cases h
          obtain ⟨rfl, hfalse⟩ := hf
          exact .last hdir hc hlook hfalse
        · simp only [if_neg hf] at h
          obtain ⟨m, rfl, hl⟩ := hb h
          exact .link hdir hc hlook hf hl

theorem lookup_of_walk_eq (n : Nat) : ∀ {cur : Loc} (xs : List Name) {ℓ : Loc} {r : List Name},
    walk look follow n cur xs = .ok (ℓ, r) → Lookup look follow n cur xs ℓ r := by
  induction n with
  | zero => exact fun xs => lookup_of_behind (fun h => by cases h) xs
  | succ n ih => exact fun xs => lookup_of_behind (fun h => ⟨n, rfl, ih _ h⟩) xs

theorem walk_eq_ok :
    walk look follow n cur xs = .ok (ℓ, r) ↔ Lookup look follow n cur xs ℓ r :=
      ⟨lookup_of_walk_eq n xs, Lookup.walk_eq⟩

/-! ## Lookups of longer paths and of larger trees -/

section

theorem Lookup.stopped (h : Lookup look follow n cur xs ℓ (c :: r)) :
    look ℓ = some .dir ∧ Plain c ∧ look (ℓ ++ [c]) = none := by
  generalize hr : c :: r = left at h
  induction h with
  | nil => cases hr
  | stay _ _ _ ih => exact ih hr
  | up _ _ ih => exact ih hr
  | missing hdir hc hn =>
    cases hr
    exact ⟨hdir, hc, hn⟩
  | last => cases hr
  | link _ _ _ _ _ ih => exact ih hr
  | down _ _ _ _ _ ih => exact ih hr

/-- **A path in two parts.** If the first part leads to `ℓ`, the lookup of the whole path goes on
from there. -/
theorem Lookup.append (h : Lookup look true n cur xs ℓ []) (hys : ys ≠ []) :
    ∃ m, walk look follow n cur (xs ++ ys) = walk look follow m ℓ ys := by
  generalize hr : ([] : List Name) = left at h
  induction h with
  | @nil n _ => exact ⟨n, rfl⟩
  | stay hdir hc _ ih => rw [cons_append, walk_stay hdir hc]; exact ih hr
  | up hdir _ ih => rw [cons_append, walk_up hdir]; exact ih hr
  | missing => cases hr
  | last _ _ _ hf => cases hf
  | link hdir hc hl _ _ ih =>
    rw [cons_append,
      walk_link hdir hc hl (fun h => hys (append_eq_nil_iff.mp h.1).2), ← append_assoc]
    exact ih hr
  | down hdir hc hsome hs _ ih => rw [cons_append, walk_down hdir hc hsome hs]; exact ih hr

/-- If the first part stops at a missing component, so does the whole path. -/
theorem Lookup.append_stopped (h : Lookup look f n cur xs ℓ (c :: r))
    (hys : ys ≠ [] ∨ follow = true) :
    Lookup look follow n cur (xs ++ ys) ℓ (c :: r ++ ys) := by
  generalize hr : c :: r = left at h
  induction h with
  | nil => cases hr
  | stay hdir hc _ ih => exact .stay hdir hc (ih hr)
  | up hdir _ ih => exact .up hdir (ih hr)
  | missing hdir hc hn => exact .missing hdir hc hn
  | last => cases hr
  | link hdir hc hl _ _ ih =>
    rw [cons_append]
    refine .link hdir hc hl (by rcases hys with h | h <;> simp [h]) ?_
    rw [← append_assoc]
    exact ih hr
  | down hdir hc hsome hs _ ih => exact .down hdir hc hsome hs (ih hr)

theorem Lookup.stops (h : Lookup look f n cur xs ℓ (c :: r)) :
    Lookup look true n cur xs ℓ (c :: r) := by
  simpa using h.append_stopped (.inr rfl : ([] : List Name) ≠ [] ∨ true = true)

/-- A lookup of a longer path first looks up the beginning of it. -/
theorem Lookup.first (h : Lookup look follow n cur (xs ++ ys) ℓ r) (hys : ys ≠ []) :
    ∃ ℓ' r', Lookup look true n cur xs ℓ' r' := by
  generalize hzs : xs ++ ys = zs at h
  induction h generalizing xs with
  | nil => exact absurd (append_eq_nil_iff.mp hzs).2 hys
  | stay hdir hc _ ih =>
    cases xs with
    | nil => exact ⟨_, _, .nil⟩
    | cons x xs =>
      cases hzs
      obtain ⟨ℓ', r', h'⟩ := ih rfl
      exact ⟨ℓ', r', .stay hdir hc h'⟩
  | up hdir _ ih =>
    cases xs with
    | nil => exact ⟨_, _, .nil⟩
    | cons x xs =>
      cases hzs
      obtain ⟨ℓ', r', h'⟩ := ih rfl
      exact ⟨ℓ', r', .up hdir h'⟩
  | missing hdir hc hn =>
    cases xs with
    | nil => exact ⟨_, _, .nil⟩
    | cons x xs =>
      cases hzs
      exact ⟨_, _, .missing hdir hc hn⟩
  | last =>
    cases xs with
    | nil => exact ⟨_, _, .nil⟩
    | cons x xs => exact absurd (append_eq_nil_iff.mp (List.cons.inj hzs).2).2 hys
  | link hdir hc hl _ _ ih =>
    cases xs with
    | nil => exact ⟨_, _, .nil⟩
    | cons x xs =>
      cases hzs
      obtain ⟨ℓ', r', h'⟩ := ih (append_assoc ..)
      exact ⟨ℓ', r', .link hdir hc hl (by simp) h'⟩
  | down hdir hc hsome hs _ ih =>
    cases xs with
    | nil => exact ⟨_, _, .nil⟩
    | cons x xs =>
      cases hzs
      obtain ⟨ℓ', r', h'⟩ := ih rfl
      exact ⟨ℓ', r', .down hdir hc hsome hs h'⟩

theorem Lookup.det (h : Lookup look follow n cur xs ℓ r)
    (h' : Lookup look follow n cur xs ℓ' r') : ℓ = ℓ' ∧ r = r' := by
  have heq := h.walk_eq.symm.trans h'.walk_eq
  cases heq
  exact ⟨rfl, rfl⟩

/-- **A path and its last name.** The lookup stops before the last name, at it, or finds it where
the rest of the path leads; a link there is not followed. -/
theorem Lookup.snoc (hc : Plain c) (h : Lookup look false n cur (xs ++ [c]) ℓ r) :
    (∃ b rest, Lookup look true n cur xs ℓ (b :: rest) ∧ r = b :: rest ++ [c]) ∨
      (∃ d, Lookup look true n cur xs d [] ∧ look d = some .dir ∧
          (ℓ = d ∧ r = [c] ∨ ℓ = d ++ [c] ∧ r = [])) := by
  obtain ⟨d, left, hfirst⟩ := h.first (cons_ne_nil c [])
  cases left with
  | cons b rest =>
    obtain ⟨rfl, rfl⟩ := h.det (hfirst.append_stopped (.inl (cons_ne_nil c [])))
    exact .inl ⟨b, rest, hfirst, rfl⟩
  | nil =>
    obtain ⟨m, hm⟩ : ∃ m, walk look false n cur (xs ++ [c]) = walk look false m d [c] :=
      hfirst.append (cons_ne_nil c [])
    rw [h.walk_eq] at hm
    refine .inr ⟨d, hfirst, ?_⟩
    cases walk_eq_ok.mp hm.symm with
    | stay _ hs => exact absurd hs (not_or.mpr ⟨hc.1, hc.2.1⟩)
    | up => exact absurd rfl hc.2.2
    | missing hdir => exact ⟨hdir, .inl ⟨rfl, rfl⟩⟩
    | last hdir => exact ⟨hdir, .inr ⟨rfl, rfl⟩⟩
    | link _ _ _ hf => exact absurd ⟨rfl, rfl⟩ hf
    | down hdir _ _ _ hr =>
      cases hr
      exact ⟨hdir, .inr ⟨rfl, rfl⟩⟩

/-- **A larger tree.** When an object appears at the free location `d ++ [b]`, a lookup changes
only if it had stopped there; behind a new directory it then goes on. -/
theorem Lookup.extend (hsame : ∀ ℓ, ℓ ≠ d ++ [b] → look' ℓ = look ℓ)
    (hfree : look (d ++ [b]) = none)
    (h : Lookup look follow n cur xs ℓ r) :
    Lookup look' follow n cur xs ℓ r ∨ ∃ rest, ℓ = d ∧ r = b :: rest ∧
      (look' (d ++ [b]) = some .dir →
        ∃ m, walk look' follow n cur xs = walk look' follow m (d ++ [b]) rest) := by
  -- what the lookup saw is still there
  have hseen : ∀ {ℓ : Loc} {s : Shape}, look ℓ = some s → look' ℓ = some s := by
    intro ℓ s hs
    rw [hsame ℓ, hs]
    rintro rfl
    rw [hfree] at hs
    cases hs
  induction h with
  | nil => exact .inl .nil
  | stay hdir hc _ ih =>
    rcases ih with h' | ⟨rest, rfl, rfl, hgo⟩
    · exact .inl (.stay (hseen hdir) hc h')
    · exact .inr ⟨rest, rfl, rfl, fun hd => by rw [walk_stay (hseen hdir) hc]; exact hgo hd⟩
  | up hdir _ ih =>
    rcases ih with h' | ⟨rest, rfl, rfl, hgo⟩
    · exact .inl (.up (hseen hdir) h')
    · exact .inr ⟨rest, rfl, rfl, fun hd => by rw [walk_up (hseen hdir)]; exact hgo hd⟩
  | @missing n cur c rest hdir hc hn =>
    by_cases hat : cur ++ [c] = d ++ [b]
    · obtain ⟨rfl, hcb⟩ := append_inj' hat rfl
      cases hcb
      exact .inr ⟨rest, rfl, rfl, fun hd =>
        ⟨n, walk_down (hseen hdir) hc hd (by simp)⟩⟩
    · exact .inl (.missing (hseen hdir) hc (by rw [hsame _ hat, hn]))
  | last hdir hc hl hf => exact .inl (.last (hseen hdir) hc (hseen hl) hf)
  | link hdir hc hl hf _ ih =>
    rcases ih with h' | ⟨rest, rfl, rfl, hgo⟩
    · exact .inl (.link (hseen hdir) hc (hseen hl) hf h')
    · exact .inr ⟨rest, rfl, rfl, fun hd => by
        rw [walk_link (hseen hdir) hc (hseen hl) hf]; exact hgo hd⟩
  | down hdir hc hsome hs _ ih =>
    rcases ih with h' | ⟨rest, rfl, rfl, hgo⟩
    · exact .inl (.down (hseen hdir) hc (hseen hsome) hs h')
    · exact .inr ⟨rest, rfl, rfl, fun hd => by
        rw [walk_down (hseen hdir) hc (hseen hsome) hs]; exact hgo hd⟩

end

end Walk

end Vfs
