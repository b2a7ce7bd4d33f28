import GoPosix.Lib.Vfs.Walk

/-!
# Paths as texts

Package `path/filepath` on byte strings: nothing here looks at a file system. `clean` resolves the
components `.` and `..` one after another on a stack of names (`push`); an absolute path cannot be
left upwards, a relative one keeps the `..` it starts with.

A clean absolute path is the text of a list of names. A text is a prefix of it if its components but
the last are the first names of the list and the last one is a prefix of the next name
(`prefix_unsplit`), so a prefix of the text need not be a prefix of the list. A clean relative path
that does not begin with two dots is the text of its names as well (`clean_eq_relative`).
-/

namespace Filepath

open Bytes Vfs List

/-! ## Definitions -/

/-- One component of a path is resolved. -/
def push (rooted : Bool) (stack : List Name) (c : Name) : List Name :=
  if c = [] ∨ c = dot then stack
  else if c = dotdot then
    if stack ≠ [] ∧ stack.getLast? ≠ some dotdot then stack.dropLast
    else if rooted then stack
    else stack ++ [dotdot]
  else stack ++ [c]

def resolveFrom (rooted : Bool) (stack cs : List Name) : List Name := cs.foldl (push rooted) stack

def unsplit (cs : List Name) : Bytes := [slash].intercalate cs

def clean (p : Bytes) : Bytes :=
  let names := unsplit (resolveFrom (isAbs p) [] (comps p))
  if isAbs p then slash :: names
  else if names = [] then dot
  else names

def join (elems : List Bytes) : Bytes :=
  match elems.dropWhile (· = []) with
  | [] => []
  | e :: es => clean (unsplit (e :: es))

def dir (p : Bytes) : Bytes := clean (p.reverse.dropWhile (· ≠ slash)).reverse

def base (p : Bytes) : Bytes :=
  if p = [] then dot
  else
    let last := ((p.reverse.dropWhile (· = slash)).takeWhile (· ≠ slash)).reverse
    if last = [] then [slash] else last

/-! ## Names -/

/-- A name of an object: no slash in it, and not `.` or `..`. -/
def IsName (c : Name) : Prop := Plain c ∧ slash ∉ c

section

theorem push_plain (hc : Plain c) : push rooted stack c = stack ++ [c] := by
  rw [push, if_neg (not_or.mpr ⟨hc.1, hc.2.1⟩), if_neg hc.2.2]

theorem resolveFrom_append (cs ds : List Name) :
    resolveFrom rooted stack (cs ++ ds) = resolveFrom rooted (resolveFrom rooted stack cs) ds :=
      foldl_append

theorem resolveFrom_plain (h : ∀ c ∈ cs, Plain c) : resolveFrom rooted stack cs = stack ++ cs := by
  induction cs generalizing stack with
  | nil => exact (append_nil stack).symm
  | cons c cs ih =>
    rw [resolveFrom, foldl_cons, push_plain (h c mem_cons_self)]
    refine (ih fun d hd => h d (mem_cons_of_mem c hd)).trans ?_
    rw [append_assoc, singleton_append]

theorem push_isName (hs : ∀ d ∈ stack, IsName d) (hc : slash ∉ c) :
    ∀ d ∈ push true stack c, IsName d := by
  simp only [push]
  split_ifs with hstay hup ht
  · exact hs
  · exact fun d hd => hs d ((dropLast_sublist stack).subset hd)
  · exact hs
  intro d hd
  rcases mem_append.mp hd with hd | hd
  · exact hs d hd
  · rw [mem_singleton] at hd
    subst hd
    exact ⟨⟨fun h => hstay (.inl h), fun h => hstay (.inr h), hup⟩, hc⟩

theorem resolveFrom_isName (hs : ∀ d ∈ stack, IsName d) (hcs : ∀ c ∈ cs, slash ∉ c) :
    ∀ d ∈ resolveFrom true stack cs, IsName d := by
  induction cs generalizing stack with
  | nil => exact hs
  | cons c cs ih =>
    apply ih
    · exact push_isName hs (hcs c mem_cons_self)
    · exact fun d hd => hcs d (mem_cons_of_mem c hd)

end

theorem slash_notMem_of_mem_comps (h : c ∈ comps p) : slash ∉ c := (mem_splitOn h).1

/-! ## Texts of names -/

@[simp] theorem unsplit_nil : unsplit [] = [] := rfl

@[simp] theorem unsplit_singleton (c : Name) : unsplit [c] = c := by
  simp [unsplit]

theorem unsplit_cons_cons (c d : Name) (cs : List Name) :
    unsplit (c :: d :: cs) = c ++ slash :: unsplit (d :: cs) := by
  simp [unsplit]

theorem comps_append_slash {p : Bytes} (q : Bytes) : comps (p ++ slash :: q) = comps p ++ comps q :=
  splitOn_append_cons_self ..

theorem comps_of_notMem (h : slash ∉ c) : comps c = [c] := splitOn_eq_singleton h

theorem comps_unsplit (hne : cs ≠ []) (h : ∀ c ∈ cs, slash ∉ c) : comps (unsplit cs) = cs := by
  induction cs with
  | nil => exact absurd rfl hne
  | cons c cs ih =>
    have hc := comps_of_notMem (h c mem_cons_self)
    cases cs with
    | nil => rw [unsplit_singleton, hc]
    | cons d cs =>
      rw [unsplit_cons_cons, comps_append_slash, hc, singleton_append,
        ih (cons_ne_nil d cs) fun e he => h e (mem_cons_of_mem c he)]

theorem unsplit_comps (p : Bytes) : unsplit (comps p) = p := intercalate_splitOn ..

theorem unsplit_extend (init : List Name) (l e : Name) (rest : List Name) :
    unsplit (init ++ [l]) <+: unsplit (init ++ (l ++ e) :: rest) := by
  induction init with
  | nil =>
    cases rest with
    | nil =>
      simp only [nil_append, unsplit_singleton]
      exact prefix_append l e
    | cons d rest =>
      simp only [nil_append, unsplit_singleton, unsplit_cons_cons, append_assoc]
      exact prefix_append l _
  | cons c init ih =>
    have hc : ∀ (x : Name) (xs : List Name),
        unsplit (c :: (init ++ x :: xs)) = c ++ slash :: unsplit (init ++ x :: xs) := by
      intro x xs
      cases init <;> exact unsplit_cons_cons ..
    rw [cons_append, cons_append, hc, hc, prefix_append_right_inj]
    exact cons_prefix_cons.mpr ⟨rfl, ih⟩

/-- **A prefix of a text of names**: names, and a prefix of the next one. -/
theorem prefix_unsplit (hn : ∀ c ∈ names, slash ∉ c) :
    ∀ {t : Bytes}, t <+: unsplit names → ∃ init u, comps t = init ++ [u] ∧
      (names = [] ∧ init = [] ∧ u = [] ∨ ∃ ext rest, names = init ++ (u ++ ext) :: rest) := by
  induction names with
  | nil =>
    intro t ht
    rw [prefix_nil.mp ht]
    exact ⟨[], [], rfl, .inl ⟨rfl, rfl, rfl⟩⟩
  | cons c names ih =>
    intro t ht
    have hc : slash ∉ c := hn c mem_cons_self
    -- a prefix of the first name
    have hf : t <+: c → ∃ init u, comps t = init ++ [u] ∧ (c :: names = [] ∧ init = [] ∧ u = [] ∨
          ∃ ext rest, c :: names = init ++ (u ++ ext) :: rest) := by
      rintro ⟨ext, rfl⟩
      refine ⟨[], t, comps_of_notMem fun h => hc (mem_append_left ext h), .inr ⟨ext, names, rfl⟩⟩
    cases names with
    | nil =>
      rw [unsplit_singleton] at ht
      exact hf ht
    | cons d names =>
      rw [unsplit_cons_cons] at ht
      rcases prefix_or_prefix_of_prefix ht (prefix_append c _) with h | ⟨s, rfl⟩
      · exact hf h
      rw [prefix_append_right_inj] at ht
      cases s with
      | nil =>
        rw [append_nil] at hf ⊢
        exact hf prefix_rfl
      | cons a t =>
        obtain ⟨rfl, htail⟩ := cons_prefix_cons.mp ht
        obtain ⟨init, u, hcons, hs⟩ := ih (fun e he => hn e (mem_cons_of_mem c he)) htail
        refine ⟨c :: init, u, ?_, .inr ?_⟩
        · rw [comps_append_slash, comps_of_notMem hc, hcons]
          rfl
        · rcases hs with ⟨h, -, -⟩ | ⟨ext, rest, h⟩
          · cases h
          · exact ⟨ext, rest, congrArg (c :: ·) h⟩

/-! ## Clean absolute paths -/

section

def location (p : Bytes) : List Name := resolveFrom true [] (comps p)

theorem isName_of_mem_location (h : c ∈ location p) : IsName c := by
  refine resolveFrom_isName ?_ ?_ c h
  · intro d hd
    cases hd
  · exact fun d hd => slash_notMem_of_mem_comps hd

theorem clean_of_isAbs (hp : isAbs p = true) : clean p = slash :: unsplit (location p) := by
  simp [clean, hp, location]

theorem location_slash_unsplit (h : ∀ c ∈ names, IsName c) :
    location (slash :: unsplit names) = names := by
  have hs : comps (slash :: unsplit names) = [] :: comps (unsplit names) :=
    @comps_append_slash [] (unsplit names)
  rw [location, hs]
  cases names with
  | nil => rfl
  | cons c names =>
    rw [comps_unsplit (cons_ne_nil c names) fun d hd => (h d hd).2]
    exact resolveFrom_plain fun d hd => (h d hd).1

theorem join_of_isAbs (hp : isAbs p = true) (q : Bytes) :
    join [p, q] = slash :: unsplit (resolveFrom true (location p) (comps q)) := by
  have hne : p ≠ [] := by
    rintro rfl
    cases hp
  have habs : isAbs (p ++ slash :: q) = true := by
    cases p with
    | nil => exact absurd rfl hne
    | cons a p => exact hp
  have ht : unsplit [p, q] = p ++ slash :: q := by
    rw [unsplit_cons_cons, unsplit_singleton]
  rw [join, dropWhile_cons, if_neg (by simpa using hne)]
  simp only [ht]
  rw [clean_of_isAbs habs, location, comps_append_slash, resolveFrom_append]
  rfl

/-- **A clean directory as a text prefix** of another path: its names but the last come first there,
followed by a name that begins like the last one. -/
theorem prefix_iff_of_clean (hp : isAbs p = true) (hclean : clean p = p)
    (hlocation : location p = init ++ [last]) (hn : ∀ c ∈ names, IsName c) :
    p <+: slash :: unsplit names ↔ ∃ ext rest, names = init ++ (last ++ ext) :: rest := by
  have hl : IsName last := isName_of_mem_location (hlocation ▸ mem_append_right _ mem_cons_self)
  have ht : p = slash :: unsplit (init ++ [last]) := by
    rw [← hlocation, ← clean_of_isAbs hp, hclean]
  rw [ht, cons_prefix_cons]
  constructor
  · rintro ⟨-, h⟩
    obtain ⟨init', u, hcomps, hs⟩ := prefix_unsplit (fun c hc => (hn c hc).2) h
    rw [comps_unsplit (by simp) fun c hc => (isName_of_mem_location (hlocation ▸ hc)).2] at hcomps
    obtain ⟨rfl, hu⟩ := append_inj' hcomps rfl
    obtain rfl := singleton_inj.mp hu
    rcases hs with ⟨-, -, rfl⟩ | hs
    · exact absurd rfl hl.1.1
    · exact hs
  · rintro ⟨ext, rest, rfl⟩
    exact ⟨rfl, unsplit_extend init last ext rest⟩

/-- A path that is not clean can only be a text prefix of a path below it. -/
theorem location_prefix_of_not_clean (hp : isAbs p = true) (hclean : clean p ≠ p)
    (hn : ∀ c ∈ names, IsName c) (h : p <+: slash :: unsplit names) : location p <+: names := by
  obtain ⟨a, t, rfl⟩ : ∃ a t, p = a :: t := by
    cases p with
    | nil => cases hp
    | cons a t => exact ⟨a, t, rfl⟩
  obtain ⟨rfl, ht⟩ := cons_prefix_cons.mp h
  obtain ⟨init, u, hcomps, hs⟩ := prefix_unsplit (fun c hc => (hn c hc).2) ht
  -- the components of the path are names, but for the last one
  have hs' : ∃ rest, names = init ++ rest := by
    rcases hs with ⟨rfl, rfl, -⟩ | ⟨ext, rest, hr⟩
    · exact ⟨[], rfl⟩
    · exact ⟨_, hr⟩
  obtain ⟨rest, rfl⟩ := hs'
  have hi : ∀ c ∈ init, IsName c := fun c hc => hn c (mem_append_left rest hc)
  have hl : location (slash :: t) = push true init u := by
    have hcomps' : comps (slash :: t) = [] :: (init ++ [u]) := by
      rw [← hcomps]
      exact @comps_append_slash [] t
    rw [location, hcomps']
    show resolveFrom true [] (init ++ [u]) = _
    rw [resolveFrom_append, resolveFrom_plain fun c hc => (hi c hc).1]
    rfl
  rw [hl]
  simp only [push]
  split_ifs with hstay hup hto
  · exact prefix_append init rest
  · have hdrop := dropLast_prefix init
    exact hdrop.trans (prefix_append init rest)
  · exact prefix_append init rest
  · -- the last one is a name as well, so the path is clean
    exfalso
    have hu : Plain u := ⟨fun h => hstay (.inl h), fun h => hstay (.inr h), hup⟩
    apply hclean
    rw [clean_of_isAbs hp, hl, push_plain hu, ← hcomps, unsplit_comps]

end

/-! ## Clean relative paths -/

/-- The text of a relative path that does not go up. -/
def relative (names : List Name) : Bytes := if names = [] then dot else unsplit names

section

theorem unsplit_snoc (hi : init ≠ []) : unsplit (init ++ [c]) = unsplit init ++ slash :: c := by
  induction init with
  | nil => exact absurd rfl hi
  | cons b init ih =>
    cases init with
    | nil => simp [unsplit_cons_cons]
    | cons b' init =>
      have := ih (cons_ne_nil b' init)
      rw [cons_append, cons_append, unsplit_cons_cons, unsplit_cons_cons,
        ← cons_append, this, append_assoc, cons_append]

/-- Where the last name of a text begins. -/
def above (init : List Name) : Bytes := if init = [] then [] else unsplit init ++ [slash]

theorem unsplit_snoc_eq (init : List Name) (c : Name) :
    unsplit (init ++ [c]) = above init ++ c := by
  unfold above
  split_ifs with hi
  · rw [hi, nil_append, unsplit_singleton, nil_append]
  · rw [unsplit_snoc hi, append_assoc, singleton_append]

theorem unsplit_ne_nil (hne : names ≠ []) (h : ∀ c ∈ names, IsName c) : unsplit names ≠ [] := by
  obtain ⟨init, c, rfl⟩ := eq_nil_or_concat' names |>.resolve_left hne
  rw [unsplit_snoc_eq]
  exact fun hn => (h c (by simp)).1.1 (append_eq_nil_iff.mp hn).2

theorem isAbs_unsplit (h : ∀ c ∈ names, IsName c) : isAbs (unsplit names) = false := by
  cases names with
  | nil => rfl
  | cons c names =>
    obtain ⟨⟨hne, -, -⟩, hs⟩ := h c mem_cons_self
    obtain ⟨a, c, rfl⟩ := exists_cons_of_ne_nil hne
    have ha : a ≠ slash := fun e => hs (e ▸ mem_cons_self)
    cases names with
    | nil => simp [isAbs, ha]
    | cons d names => simp [isAbs, unsplit_cons_cons, ha]

theorem reverse_above (init : List Name) :
    (above init).reverse = [] ∨ ∃ q, (above init).reverse = slash :: q := by
  unfold above
  split_ifs
  · exact .inl rfl
  · exact .inr ⟨(unsplit init).reverse, by simp⟩

theorem dropWhile_unsplit (hc : slash ∉ c) :
    ((unsplit (init ++ [c])).reverse.dropWhile (· ≠ slash)).reverse = above init := by
  have hc' : ∀ a ∈ c.reverse, decide (a ≠ slash) = true := by
    intro a ha
    rw [decide_eq_true_eq]
    rintro rfl
    exact hc (mem_reverse.mp ha)
  rw [unsplit_snoc_eq, reverse_append, dropWhile_append_of_pos hc']
  rcases reverse_above init with hn | ⟨q, hq⟩
  · rw [reverse_eq_nil_iff.mp hn]
    rfl
  · rw [hq, dropWhile_cons_of_neg (by simp), ← hq, reverse_reverse]

theorem resolveFrom_names (h : ∀ c ∈ names, IsName c) : resolveFrom false [] names = names :=
  resolveFrom_plain fun c hc => (h c hc).1

theorem dir_unsplit (hi : ∀ c ∈ init, IsName c) (hc : slash ∉ c) :
    dir (unsplit (init ++ [c])) = relative init := by
  rw [dir, dropWhile_unsplit hc]
  unfold above relative
  split_ifs with hnil
  · rfl
  have habs : isAbs (unsplit init ++ [slash]) = false := by
    have := isAbs_unsplit hi
    obtain ⟨a, t, ht⟩ := exists_cons_of_ne_nil (unsplit_ne_nil hnil hi)
    rw [ht] at this ⊢
    exact this
  have hcomps : comps (unsplit init ++ [slash]) = init ++ [[]] := by
    rw [comps_append_slash, comps_unsplit hnil fun c hc => (hi c hc).2]
    rfl
  have hn : resolveFrom false [] (init ++ [[]]) = init := by
    rw [resolveFrom_append, resolveFrom_names hi]
    rfl
  simp only [clean, habs, hcomps, hn, Bool.false_eq_true, if_false, if_neg (unsplit_ne_nil hnil hi)]

theorem dir_relative (h : ∀ c ∈ names, IsName c) :
    dir (relative names) = relative names.dropLast := by
  rcases eq_nil_or_concat' names with rfl | ⟨init, c, rfl⟩
  · rfl
  · rw [relative, if_neg (by simp), dropLast_concat,
      dir_unsplit (fun d hd => h d (mem_append_left _ hd)) (h c (by simp)).2]

theorem comps_relative (hne : names ≠ []) (h : ∀ c ∈ names, IsName c) :
    comps (relative names) = names := by
  rw [relative, if_neg hne, comps_unsplit hne fun c hc => (h c hc).2]

/-! ### Relative paths that are cleaned -/

/-- In a relative path the stack has names behind the `..` that lead out. -/
def Climbs (stack : List Name) : Prop :=
  ∃ k names, stack = List.replicate k dotdot ++ names ∧ ∀ c ∈ names, IsName c

/-- Another component keeps the shape. -/
theorem push_climbs (hs : Climbs stack) (hc : slash ∉ c) : Climbs (push false stack c) := by
  obtain ⟨k, names, rfl, hn⟩ := hs
  unfold push
  simp only [Bool.false_eq_true, if_false]
  split_ifs with hstay hup ht
  · exact ⟨k, names, rfl, hn⟩
  · rcases eq_nil_or_concat' names with rfl | ⟨init, d, rfl⟩
    · exfalso
      obtain ⟨hne, hl⟩ := ht
      cases k with
      | zero => exact hne rfl
      | succ k => exact hl (by simp [replicate_succ'])
    · refine ⟨k, init, ?_, fun e he => hn e (mem_append_left _ he)⟩
      rw [← append_assoc, dropLast_concat]
  · -- there is nothing to go back from
    have hnil : names = [] := by
      by_contra hne
      obtain ⟨init, d, rfl⟩ := (eq_nil_or_concat' names).resolve_left hne
      refine ht ⟨by simp, ?_⟩
      rw [← append_assoc, List.getLast?_concat]
      exact fun h => (hn d (by simp)).1.2.2 (Option.some.inj h)
    refine ⟨k + 1, [], ?_, by simp⟩
    rw [hnil, append_nil, append_nil, replicate_succ']
  · refine ⟨k, names ++ [c], (append_assoc ..), ?_⟩
    intro d hd
    rcases mem_append.mp hd with hd | hd
    · exact hn d hd
    · rw [mem_singleton.mp hd]
      exact ⟨⟨fun h => hstay (.inl h), fun h => hstay (.inr h), hup⟩, hc⟩

theorem resolveFrom_climbs (hcs : ∀ c ∈ cs, slash ∉ c) :
    ∀ {s : List Name}, Climbs s → Climbs (resolveFrom false s cs) := by
  induction cs with
  | nil => exact fun hs => hs
  | cons c cs ih =>
    intro s hs
    apply ih fun d hd => hcs d (mem_cons_of_mem c hd)
    exact push_climbs hs (hcs c mem_cons_self)

/-- **A path that does not lead out.** If its clean form is not absolute and does not begin with
two dots, it is the text of names. -/
theorem clean_eq_relative (habs : ¬ [slash] <+: clean p) (hup : ¬ dotdot <+: clean p) :
    ∃ names, (∀ c ∈ names, IsName c) ∧ clean p = relative names := by
  have hr : isAbs p = false := by
    by_contra h
    rw [Bool.not_eq_false] at h
    rw [clean_of_isAbs h] at habs
    exact habs ⟨_, rfl⟩
  obtain ⟨k, names, hs, hn⟩ : Climbs (resolveFrom false [] (comps p)) :=
    resolveFrom_climbs (fun c hc => slash_notMem_of_mem_comps hc) ⟨0, [], rfl, by simp⟩
  simp only [clean, hr, Bool.false_eq_true, if_false, hs] at hup ⊢
  cases k with
  | zero =>
    refine ⟨names, hn, ?_⟩
    rw [replicate_zero, nil_append, relative]
    rcases eq_or_ne names [] with rfl | hne
    · rfl
    · rw [if_neg hne, if_neg (unsplit_ne_nil hne hn)]
  | succ k =>
    exfalso
    have hp : dotdot <+: unsplit (List.replicate (k + 1) dotdot ++ names) := by
      have := unsplit_extend [] dotdot [] (List.replicate k dotdot ++ names)
      rwa [append_nil] at this
    rw [if_neg (fun h => by rw [h] at hp; exact absurd hp (by decide))] at hup
    exact hup hp

end

/-! ## Absolute paths taken apart -/

def absolute (names : List Name) : Bytes := slash :: unsplit names

section

theorem isAbs_absolute (names : List Name) : isAbs (absolute names) = true := rfl

theorem location_absolute (h : ∀ c ∈ names, IsName c) : location (absolute names) = names :=
  location_slash_unsplit h

theorem clean_absolute (h : ∀ c ∈ names, IsName c) : clean (absolute names) = absolute names := by
  rw [clean_of_isAbs (isAbs_absolute names), location_absolute h, absolute]

theorem absolute_inj (h : ∀ c ∈ names, IsName c) (h' : ∀ c ∈ names', IsName c)
    (heq : absolute names = absolute names') : names = names' := by
  rw [← location_absolute h, heq, location_absolute h']

/-- The components of an absolute path: nothing before the first slash, then its names. -/
theorem comps_absolute (hne : names ≠ []) (h : ∀ c ∈ names, IsName c) :
    comps (absolute names) = [] :: names := by
  rw [absolute, show slash :: unsplit names = [] ++ slash :: unsplit names from rfl,
    comps_append_slash, comps_unsplit hne fun c hc => (h c hc).2]
  rfl

theorem absolute_snoc (init : List Name) (c : Name) :
    absolute (init ++ [c]) = (slash :: above init) ++ c := by
  rw [absolute, unsplit_snoc_eq, cons_append]

theorem reverse_slash_above (init : List Name) :
    ∃ q, (slash :: above init).reverse = slash :: q := by
  rw [reverse_cons]
  rcases reverse_above init with hn | ⟨q, hq⟩
  · exact ⟨[], by rw [hn]; rfl⟩
  · exact ⟨q ++ [slash], by rw [hq]; rfl⟩

theorem dir_absolute_snoc (hi : ∀ c ∈ init, IsName c) (hc : slash ∉ c) :
    dir (absolute (init ++ [c])) = absolute init := by
  have hc' : ∀ a ∈ c.reverse, decide (a ≠ slash) = true := by
    intro a ha
    rw [decide_eq_true_eq]
    rintro rfl
    exact hc (mem_reverse.mp ha)
  have ht : ((absolute (init ++ [c])).reverse.dropWhile (· ≠ slash)).reverse = slash ::
      above init := by
    obtain ⟨q, hq⟩ := reverse_slash_above init
    rw [absolute_snoc, reverse_append, dropWhile_append_of_pos hc', hq,
      dropWhile_cons_of_neg (by simp), ← hq, reverse_reverse]
  rw [dir, ht]
  unfold above
  split_ifs with hn
  · rw [hn]
    rfl
  have habs : isAbs (slash :: (unsplit init ++ [slash])) = true := rfl
  have hcomps : comps (slash :: (unsplit init ++ [slash])) = [] :: init ++ [[]] := by
    show comps (absolute init ++ slash :: []) = _
    rw [comps_append_slash, comps_absolute hn hi]
    rfl
  have hl : location (slash :: (unsplit init ++ [slash])) = init := by
    rw [location, hcomps, resolveFrom_append]
    show resolveFrom true (resolveFrom true [] init) [[]] = init
    rw [resolveFrom_plain fun d hd => (hi d hd).1]
    rfl
  rw [clean_of_isAbs habs, hl, absolute]

theorem base_absolute_snoc (init : List Name) (hc : IsName c) :
    base (absolute (init ++ [c])) = c := by
  obtain ⟨q, hq⟩ := reverse_slash_above init
  have hc' : ∀ a ∈ c.reverse, a ≠ slash := by
    rintro a ha rfl
    exact hc.2 (mem_reverse.mp ha)
  obtain ⟨a, t, ht⟩ := exists_cons_of_ne_nil (mt reverse_eq_nil_iff.mp hc.1.1)
  have hd : ((absolute (init ++ [c])).reverse.dropWhile (· = slash)) = c.reverse ++ slash :: q := by
    rw [absolute_snoc, reverse_append, hq, ht, cons_append,
      dropWhile_cons_of_neg (by simpa using hc' a (ht ▸ mem_cons_self))]
  have htake : (c.reverse ++ slash :: q).takeWhile (· ≠ slash) = c.reverse := by
    rw [takeWhile_append_of_pos (by simpa using hc'), takeWhile_cons_of_neg (by simp), append_nil]
  have hne : absolute (init ++ [c]) ≠ [] := cons_ne_nil _ _
  simp only [base, if_neg hne, hd, htake, reverse_reverse, if_neg hc.1.1]

theorem join_unsplit (hz : IsName z) (hne : zs ≠ []) (h : ∀ c ∈ zs, IsName c) :
    join [z, unsplit zs] = unsplit (z :: zs) := by
  have hall : ∀ c ∈ z :: zs, IsName c := forall_mem_cons.mpr ⟨hz, h⟩
  have ht : unsplit [z, unsplit zs] = unsplit (z :: zs) := by
    obtain ⟨d, ds, rfl⟩ := exists_cons_of_ne_nil hne
    rw [unsplit_cons_cons, unsplit_singleton, unsplit_cons_cons]
  rw [join, dropWhile_cons, if_neg (by simpa using hz.1.1)]
  simp only [ht]
  rw [clean, isAbs_unsplit hall, comps_unsplit (cons_ne_nil z zs) fun c hc =>
    (hall c hc).2, resolveFrom_names hall]
  simp only [Bool.false_eq_true, if_false, if_neg (unsplit_ne_nil (cons_ne_nil z zs) hall)]

theorem join_absolute (h : ∀ c ∈ names, IsName c) (hne : zs ≠ []) (hzs : ∀ c ∈ zs, IsName c) :
    join [absolute names, unsplit zs] = absolute (names ++ zs) := by
  rw [join_of_isAbs (isAbs_absolute names), location_absolute h,
    comps_unsplit hne fun c hc => (hzs c hc).2, resolveFrom_plain fun c hc =>
      (hzs c hc).1, absolute]

/-- **Directories compared as texts.** With a slash behind it, the text of a directory is a prefix
of the text of a path if the path is below the directory. -/
theorem prefix_of_slash_prefix (hne : init ≠ []) (hi : ∀ c ∈ init, IsName c)
    (hn : ∀ c ∈ names, IsName c)
    (h : absolute init ++ [slash] <+: absolute names ++ [slash]) : init <+: names := by
  rcases eq_or_ne names [] with rfl | hn'
  · -- the root is only below itself
    have hl := h.length_le
    have hp := length_pos_of_ne_nil (unsplit_ne_nil hne hi)
    simp only [absolute, unsplit_nil, cons_append, length_cons, length_append, nil_append] at hl
    omega
  have ht : unsplit init ++ [slash] <+: unsplit (names ++ [[]]) := by
    rw [unsplit_snoc hn']
    exact (cons_prefix_cons.mp h).2
  have hf : ∀ c ∈ names ++ [[]], slash ∉ c := by
    intro c hc
    rcases mem_append.mp hc with hc | hc
    · exact (hn c hc).2
    · rw [mem_singleton.mp hc]
      exact not_mem_nil
  obtain ⟨init', u, hcomps, hs⟩ := prefix_unsplit hf ht
  rw [comps_append_slash, comps_unsplit hne fun c hc => (hi c hc).2] at hcomps
  obtain ⟨rfl, _⟩ := append_inj' hcomps rfl
  rcases hs with ⟨hnil, -, -⟩ | ⟨ext, rest, hs⟩
  · exact absurd hnil (by simp)
  · rcases eq_nil_or_concat' rest with rfl | ⟨rest, last, rfl⟩
    · exact ⟨[], (append_nil init).trans (append_inj' hs rfl).1.symm⟩
    · rw [show init ++ (u ++ ext) :: (rest ++ [last]) = (init ++ (u ++ ext) :: rest) ++ [last] by
        simp] at hs
      exact ⟨_, (append_inj' hs rfl).1.symm⟩

end

/-! ## Names joined to a path -/

/-- What is left of the components of a path. -/
def parts (p : Bytes) : List Name := resolveFrom (isAbs p) [] (comps p)

def text (rooted : Bool) (names : List Name) : Bytes :=
  if rooted then slash :: unsplit names else if unsplit names = [] then dot else unsplit names

theorem clean_eq_text (p : Bytes) : clean p = text (isAbs p) (parts p) := rfl

theorem resolveFrom_climbs_self (h : Climbs cs) : resolveFrom false [] cs = cs := by
  obtain ⟨k, names, rfl, hn⟩ := h
  have hup : resolveFrom false [] (replicate k dotdot) = replicate k dotdot := by
    induction k with
    | zero => rfl
    | succ k ih =>
      rw [replicate_succ', resolveFrom_append, ih]
      have hd : ¬ (dotdot = [] ∨ dotdot = dot) := by decide
      cases k with
      | zero => rfl
      | succ k => simp [resolveFrom, push, hd, replicate_succ']
  rw [resolveFrom_append, hup, resolveFrom_plain fun c hc => (hn c hc).1]

structure Resolved (rooted : Bool) (names : List Name) : Prop where
  solid : ∀ c ∈ names, c ≠ [] ∧ slash ∉ c
  fixed : resolveFrom rooted [] names = names

theorem parts_resolved (p : Bytes) : Resolved (isAbs p) (parts p) := by
  unfold parts
  cases isAbs p with
  | true =>
    have hn : ∀ c ∈ location p, IsName c := fun c => isName_of_mem_location
    exact ⟨fun c hc => ⟨(hn c hc).1.1, (hn c hc).2⟩, resolveFrom_plain fun c hc => (hn c hc).1⟩
  | false =>
    have hc : Climbs (resolveFrom false [] (comps p)) :=
      resolveFrom_climbs (fun c => slash_notMem_of_mem_comps) ⟨0, [], rfl, by simp⟩
    refine ⟨?_, resolveFrom_climbs_self hc⟩
    obtain ⟨k, names, hs, hn⟩ := hc
    rw [hs]
    intro c hc
    rcases mem_append.mp hc with hc | hc
    · rw [eq_of_mem_replicate hc]
      decide
    · exact ⟨(hn c hc).1.1, (hn c hc).2⟩

theorem Resolved.append (h : Resolved rooted names) (hns : ∀ n ∈ ns, IsName n) :
    Resolved rooted (names ++ ns) := by
  refine ⟨fun c hc => ?_, ?_⟩
  · rcases mem_append.mp hc with hc | hc
    · exact h.solid c hc
    · exact ⟨(hns c hc).1.1, (hns c hc).2⟩
  · rw [resolveFrom_append, h.fixed, resolveFrom_plain fun n hn => (hns n hn).1]

theorem comps_slash_cons (q : Bytes) : comps (slash :: q) = [] :: comps q :=
  @comps_append_slash [] q

theorem Resolved.comps_unsplit (h : Resolved rooted names) (hne : names ≠ []) :
    comps (unsplit names) = names :=
  Filepath.comps_unsplit hne fun c hc => (h.solid c hc).2

theorem Resolved.text_false (h : Resolved rooted names) (hne : names ≠ []) :
    text false names = unsplit names := by
  simp only [text, Bool.false_eq_true, if_false]
  refine if_neg fun he => ?_
  have hc := h.comps_unsplit hne
  rw [he] at hc
  exact (h.solid [] (hc ▸ by decide)).1 rfl

theorem Resolved.text_append (h : Resolved rooted names) (hne : names ≠ [])
    (hns : ∀ n ∈ ns, IsName n) (hne' : ns ≠ []) :
    text rooted (names ++ ns) = text rooted names ++ slash :: unsplit ns := by
  have hu : unsplit (names ++ ns) = unsplit names ++ slash :: unsplit ns := by
    rw [← unsplit_comps (unsplit names ++ slash :: unsplit ns), comps_append_slash,
      h.comps_unsplit hne,
      Filepath.comps_unsplit hne' fun c hc => (hns c hc).2]
  cases rooted with
  | true => exact congrArg (slash :: ·) hu
  | false => rw [(h.append hns).text_false (by simp [hne]), h.text_false hne, hu]

/-- The texts of such parts are clean paths. -/
theorem Resolved.parts_text (h : Resolved rooted names) (hne : names ≠ []) :
    isAbs (text rooted names) = rooted ∧ parts (text rooted names) = names := by
  have hc := h.comps_unsplit hne
  cases rooted with
  | true =>
    refine ⟨rfl, ?_⟩
    change resolveFrom true [] (comps (slash :: unsplit names)) = names
    rw [comps_slash_cons, hc]
    exact h.fixed
  | false =>
    have ha : isAbs (unsplit names) = false := by
      by_contra ha
      obtain ⟨q, hq⟩ : ∃ q, unsplit names = slash :: q := by simpa [isAbs, head?_eq_some_iff]
        using ha
      rw [hq, comps_slash_cons] at hc
      exact (h.solid [] (hc ▸ mem_cons_self)).1 rfl
    rw [h.text_false hne]
    refine ⟨ha, ?_⟩
    rw [parts, ha, hc]
    exact h.fixed

theorem join_name (p : Bytes) (hn : IsName n) : join [p, n] = text (isAbs p) (parts p ++ [n]) := by
  have hp : parts p ++ [n] = resolveFrom (isAbs p) [] (comps p ++ [n]) := by
    rw [resolveFrom_append]
    exact (push_plain hn.1).symm
  rw [hp]
  cases p with
  | nil =>
    have ha : isAbs n = false := by simpa using @isAbs_unsplit [n] (by simpa using hn)
    have hj : join [[], n] = clean n := by simp [join, hn.1.1]
    rw [hj, clean_eq_text, parts, ha, comps_of_notMem hn.2]
    rfl
  | cons b p =>
    have hj : join [b :: p, n] = clean (b :: p ++ slash :: n) := by simp [join, unsplit_cons_cons]
    rw [hj, clean_eq_text, parts, comps_append_slash, comps_of_notMem hn.2]
    rfl

/-- **The path of names below a path.** -/
theorem foldl_join (p : Bytes) (hns : ∀ n ∈ ns, IsName n) (hne : ns ≠ []) :
    ns.foldl (fun p n => join [p, n]) p = text (isAbs p) (parts p ++ ns) := by
  induction ns generalizing p with
  | nil => exact absurd rfl hne
  | cons n ns ih =>
    obtain ⟨hn, hns⟩ := forall_mem_cons.mp hns
    rw [foldl_cons, join_name p hn]
    rcases eq_or_ne ns [] with rfl | hne
    · rfl
    · have ho : ∀ c ∈ [n], IsName c := by simpa using hn
      obtain ⟨ha, hp⟩ := ((parts_resolved p).append ho).parts_text (by simp)
      rw [ih _ hns hne, ha, hp, append_assoc, singleton_append]

end Filepath
