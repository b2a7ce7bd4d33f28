import Mathlib.Data.List.Infix
import GoPosix.Lib.Vfs.Confined

/-!
# Calls that stay inside a directory

The calls of package `os` on a relative path that does not go up, the text of a list of names
(`relative names`), seen from a directory that is not to be left. A call that makes or removes the
last name does so in the directory to which the other names lead; a call that opens the path does so
at the end of its links. So the first need that the names but the last stay inside, the second that
the path does.

`mkdirAll_relative` is the rule for `os.MkdirAll`: what every `os.Mkdir` on the way keeps, it keeps.
-/

namespace Vfs

open Bytes Filepath List

/-! ## The texts of relative paths -/

/-- The text of names, with a trailing slash or without. -/
def Spells (p : Bytes) (names : List Name) : Prop :=
  p = unsplit names ∨ p = unsplit names ++ [slash]

section

variable {s : Os}

theorem Spells.dropWhile_slash (hc : IsName c) (h : Spells p (init ++ [c])) :
    p.reverse.dropWhile (· = slash) = (unsplit (init ++ [c])).reverse := by
  have he : (unsplit (init ++ [c])).reverse.dropWhile (· = slash) =
      (unsplit (init ++ [c])).reverse := by
    obtain ⟨⟨hne, -, -⟩, hs⟩ := hc
    obtain ⟨a, t, ht⟩ := exists_cons_of_ne_nil (mt reverse_eq_nil_iff.mp hne)
    have ha : a ≠ slash := by
      rintro rfl
      exact hs (mem_reverse.mp (ht ▸ mem_cons_self))
    rw [unsplit_snoc_eq, reverse_append, ht, cons_append, dropWhile_cons_of_neg (by simpa using ha)]
  rcases h with rfl | rfl
  · exact he
  · rw [reverse_append, reverse_singleton, singleton_append, dropWhile_cons_of_pos (by simp), he]

theorem Spells.trimSlashes (hc : IsName c) (h : Spells p (init ++ [c])) :
    trimSlashes p = unsplit (init ++ [c]) := by
  rw [Vfs.trimSlashes, h.dropWhile_slash hc, reverse_reverse]

theorem Spells.parentOf (hc : IsName c) (h : Spells p (init ++ [c])) : parentOf p = above init := by
  rw [Vfs.parentOf, h.dropWhile_slash hc, dropWhile_unsplit hc.2]

variable (hne : names ≠ []) (hnames : ∀ c ∈ names, IsName c)

include hne hnames

theorem resolve_unsplit :
    s.resolve follow (unsplit names) = walk s.fs.shape? follow maxLinks s.cwd names := by
  rw [Os.resolve, Fs.resolve, if_neg (unsplit_ne_nil hne hnames), start, isAbs_unsplit hnames,
    comps_unsplit hne fun c hc => (hnames c hc).2]
  rfl

theorem resolve_relative :
    s.resolve follow (relative names) = walk s.fs.shape? follow maxLinks s.cwd names := by
  rw [relative, if_neg hne, resolve_unsplit hne hnames]

theorem Spells.resolveDir (h : Spells p names) :
    s.resolveDir p = walk s.fs.shape? false maxLinks s.cwd names := by
  obtain ⟨init, c, rfl⟩ := (eq_nil_or_concat' names).resolve_left hne
  obtain ⟨a, t, ht⟩ := exists_cons_of_ne_nil (unsplit_ne_nil hne hnames)
  have hr := isAbs_unsplit hnames
  have hp : ∃ t', p = a :: t' := by
    rcases h with rfl | rfl
    · exact ⟨t, ht⟩
    · exact ⟨t ++ [slash], by rw [ht, cons_append]⟩
  have hs : start s.cwd p = s.cwd := by
    obtain ⟨t', rfl⟩ := hp
    rw [ht] at hr
    rw [start, show isAbs (a :: t') = false from hr]
    rfl
  have hcomps : comps (Vfs.trimSlashes p) = init ++ [c] := by
    rw [h.trimSlashes (hnames c (by simp)), comps_unsplit hne fun c hc => (hnames c hc).2]
  rw [Os.resolveDir, hs, hcomps, if_neg]
  rintro rfl
  obtain ⟨t', ht'⟩ := hp
  cases ht'

end

theorem resolve_dot {s : Os} {f : Bool} {ℓ : Loc} {r : List Name}
    (h : s.resolve f dot = .ok (ℓ, r)) : r = [] ∧ s.fs.node? ℓ = some .dir := by
  have hl : Lookup s.fs.shape? f maxLinks s.cwd [dot] ℓ r := walk_eq_ok.mp h
  cases hl with
  | stay hd _ hr =>
    cases hr
    exact ⟨rfl, Fs.shape?_eq_dir.mp hd⟩
  | missing _ hc => exact absurd rfl hc.2.1
  | last _ hc => exact absurd rfl hc.2.1
  | link _ hc => exact absurd rfl hc.2.1
  | down _ hc => exact absurd rfl hc.2.1

/-! ## Directories -/

theorem mkdir_dot (s : Os) : (mkdir dot s).2 = s.tick := by
  rcases mkdir_cases s dot with ⟨e, he⟩ | ⟨d, c, hr, -⟩
  · rw [he]
  · cases (@resolve_dot s false d [c] hr).1

section

variable {P : Os → Prop} (htick : ∀ s, P s → P s.tick)

include htick

theorem stat_triple (f : Bool) (p : Bytes) : Sys.Triple P (stat f p) fun _ => P := by
  exact call_triple htick htick

theorem mkdirBelow_triple
    (hp : Sys.Triple P parents fun _ => P) (hm : Sys.Triple P (mkdir p) fun _ => P) :
    Sys.Triple P (mkdirBelow parents p) fun _ => P := by
  have hl : Sys.Triple P (mkdirLast p) fun _ => P := by
    refine .bind hm fun r => ?_
    cases r with
    | ok u => exact .pure fun _ h => h
    | error e =>
      refine .bind (stat_triple htick false p) fun r => ?_
      split <;> exact .pure fun _ h => h
  refine .bind (stat_triple htick true p) fun r => ?_
  split
  · exact .pure fun _ h => h
  · exact .pure fun _ h => h
  · refine .bind hp fun r => ?_
    cases r with
    | error e => exact .pure fun _ h => h
    | ok u => exact hl

theorem mkdirAll_triple (names : List Name) : ∀ {p : Bytes}, names ≠ [] →
    (∀ c ∈ names, IsName c) → Spells p names →
    (∀ pre q, pre ≠ [] → pre <+: names → Spells q pre → Sys.Triple P (mkdir q) fun _ => P) →
    Sys.Triple P (mkdirAll p) fun _ => P := by
  induction names using List.reverseRecOn with
  | nil => exact fun hne => absurd rfl hne
  | append_singleton init c ih =>
    intro p hne hnames hp hm
    rw [mkdirAll_eq, hp.parentOf (hnames c (by simp))]
    apply mkdirBelow_triple htick
    · unfold above
      split_ifs with hi hn
      · exact .pure fun _ h => h
      · exact absurd rfl hn
      · exact .pure fun _ h => h
      · apply ih hi (fun d hd => hnames d (mem_append_left [c] hd)) (.inr rfl)
        intro pre q hpre hpre' hq
        exact hm pre q hpre (hpre'.trans (prefix_append init [c])) hq
    · exact hm _ p hne prefix_rfl hp

/-- **`os.MkdirAll`** keeps what `os.Mkdir` keeps on every part of the path. -/
theorem mkdirAll_relative (hnames : ∀ c ∈ names, IsName c)
    (hm : ∀ pre q, pre ≠ [] → pre <+: names → Spells q pre → Sys.Triple P (mkdir q) fun _ => P) :
    Sys.Triple P (mkdirAll (relative names)) fun _ => P := by
  unfold relative
  split_ifs with hne
  · have hd : Sys.Triple P (mkdir dot) fun _ => P := by
      intro s hs
      rw [mkdir_dot]
      exact htick s hs
    exact mkdirBelow_triple htick (.pure fun _ h => h) hd
  · exact mkdirAll_triple htick names hne hnames (.inl rfl) hm

end

/-! ## Straight paths -/

/-- No name of the path but the last is a symbolic link, so it leads where its names say; the object
there is a good one. -/
def Os.Straight (s : Os) (good : Ino → Prop) (names : List Name) : Prop :=
  (∀ pre ∈ names.inits, pre ≠ names → ∀ n ∈ s.fs.node? (s.cwd ++ pre), n.isSymlink = false) ∧
    ∀ i ∈ s.fs.ino? (s.cwd ++ names), good i

instance (s : Os) (good : Ino → Prop) [DecidablePred good] (names : List Name) :
    Decidable (s.Straight good names) := inferInstanceAs (Decidable (_ ∧ _))

section

variable {s : Os}

theorem Os.Straight.create_dir (h : s.Straight good names) (hℓ : ℓ ≠ []) (hnew : good s.fs.next) :
    (s.create ℓ .dir).Straight good names := by
  refine ⟨fun pre hp hne n hn => ?_, fun i hi => ?_⟩
  · rw [Os.create, Fs.node?_add s.fs hℓ] at hn
    split_ifs at hn
    · cases hn
      rfl
    · exact h.1 pre hp hne n hn
  · rw [Os.create, Fs.ino?_add] at hi
    split_ifs at hi
    · cases hi
      exact hnew
    · exact h.2 i hi

theorem Os.Straight.remove (h : s.Straight good names) (hℓ : ℓ ≠ []) :
    (s.remove ℓ).Straight good names := by
  refine ⟨fun pre hp hne n hn => ?_, fun i hi => ?_⟩
  · rw [Os.remove, Fs.node?_unlink s.fs hℓ] at hn
    split_ifs at hn
    · cases hn
    · exact h.1 pre hp hne n hn
  · rw [Os.remove, Fs.ino?_unlink] at hi
    split_ifs at hi
    · cases hi
    · exact h.2 i hi

/-- Without links on the way, names lead where they say. -/
theorem Lookup.straight : ∀ {cur : Loc}, (∀ c ∈ names, IsName c) →
      (∀ pre ∈ names.inits, pre ≠ names → ∀ t, look (cur ++ pre) ≠ some (.link t)) →
      Lookup look false n cur names ℓ [] → ℓ = cur ++ names := by
  induction names with
  | nil =>
    intro cur _ _ h
    cases h
    rw [append_nil]
  | cons c names ih =>
    intro cur hnames hl h
    have hc := (hnames c mem_cons_self).1
    cases h with
    | stay _ hs => exact absurd hs (not_or.mpr ⟨hc.1, hc.2.1⟩)
    | up => exact absurd rfl hc.2.2
    | last => rfl
    | link _ _ hlink hf =>
      -- only the last name can be a link, and that one is not followed
      refine absurd hlink (hl [c] ?_ ?_ _)
      · rw [mem_inits]
        exact cons_prefix_cons.mpr ⟨rfl, nil_prefix⟩
      · exact fun he => hf ⟨(List.cons.inj he).2.symm, rfl⟩
    | down _ _ _ _ hr =>
      rw [ih (fun d hd => hnames d (mem_cons_of_mem c hd)) ?_ hr, append_assoc, singleton_append]
      intro pre hp hne t
      have hm : c :: pre ∈ (c :: names).inits := by
        rw [mem_inits] at hp ⊢
        exact cons_prefix_cons.mpr ⟨rfl, hp⟩
      have := hl (c :: pre) hm (fun he => hne (List.cons.inj he).2) t
      rwa [append_cons] at this

theorem linkSource_ok (h : s.linkSource p = .ok ℓ) :
    ∃ n, s.found (s.resolve false p) = .ok (ℓ, n) ∧ n ≠ .dir := by
  unfold Os.linkSource at h
  split at h
  · cases h
  · cases h
  · next ℓ' n hd hf =>
    cases h
    exact ⟨n, hf, hd⟩

theorem linkSource_dot : s.linkSource dot ≠ .ok ℓ := by
  intro h
  obtain ⟨n, hf, hd⟩ := linkSource_ok h
  obtain ⟨hr, hn⟩ := Os.found_eq_ok.mp hf
  exact hd (Option.some.inj (hn.symm.trans (resolve_dot hr).2))

/-- **A hard link to a straight path** is made to the object its names say. -/
theorem Os.Straight.linkSource (h : s.Straight good names) (hne : names ≠ [])
    (hnames : ∀ c ∈ names, IsName c) (hs : s.linkSource (relative names) = .ok ℓ) :
    s.cwd <+: ℓ ∧ ∀ i, s.fs.ino? ℓ = some i → good i := by
  obtain ⟨n, hf, -⟩ := linkSource_ok hs
  obtain ⟨hr, -⟩ := Os.found_eq_ok.mp hf
  rw [resolve_relative hne hnames, walk_eq_ok] at hr
  have hloc : ℓ = s.cwd ++ names := by
    refine hr.straight hnames fun pre hp hne t hl => ?_
    rw [Fs.shape?, Option.map_eq_some_iff] at hl
    obtain ⟨n, hn, hshape⟩ := hl
    have hnot := h.1 pre hp hne n hn
    cases n <;> cases hshape
    cases hnot
  subst hloc
  exact ⟨prefix_append _ _, h.2⟩

end

/-! ## The calls, seen from a directory -/

/-- The lookup of a path is inside, as far as it goes. -/
abbrev Os.Stays (s : Os) (xs : List Name) : Prop := s.Leads (fun _ => True) xs

section

variable {os₀ s : Os}

theorem stays_nil (s : Os) : s.Stays [] := by
  intro ℓ r h
  cases h
  exact ⟨prefix_rfl, fun _ _ _ => trivial⟩

/-- **`os.MkdirAll` on a path that leads inside**, or on the first names of one, stays inside and
keeps the path inside. It also keeps whatever new directories do not change. -/
theorem mkdirAll_confined {E : Os → Prop} (htick : ∀ s, E s → E s.tick)
    (hd : ∀ s d c, Confined os₀ s → E s → E (s.create (d ++ [c]) .dir))
    (hg : ∀ i, os₀.fs.next ≤ i → good i) (hnames : ∀ c ∈ names, IsName c)
    (hys : ∀ c ∈ ys, Plain c) :
    Sys.Triple (fun s => Confined os₀ s ∧ s.Leads good (names ++ ys) ∧ E s)
      (mkdirAll (relative names)) fun _ s => Confined os₀ s ∧ s.Leads good (names ++ ys) ∧ E s := by
  apply mkdirAll_relative (fun s ⟨hs, hl, hE⟩ => ⟨hs.tick, hl, htick s hE⟩) hnames
  rintro pre q hpre ⟨rest, rfl⟩ hq s ⟨hs, hl, hE⟩
  have hpre' : ∀ c ∈ pre, IsName c := fun c hc => hnames c (mem_append_left rest hc)
  have hr : ∀ c ∈ rest ++ ys, Plain c := by
    intro c hc
    rcases mem_append.mp hc with hc | hc
    · exact (hnames c (mem_append_right pre hc)).1
    · exact hys c hc
  rcases mkdir_cases s q with ⟨e, he⟩ | ⟨d, c, hstop, he⟩
  · rw [he]
    exact ⟨hs.tick, hl, htick s hE⟩
  rw [he]
  rw [hq.resolveDir hpre hpre', walk_eq_ok] at hstop
  rw [append_assoc] at hl ⊢
  have hl' : s.tick.Leads good (pre ++ (rest ++ ys)) := hl
  obtain ⟨hp, -, hf⟩ := hstop.stopped
  have hin := (hl.stop hstop).2
  refine ⟨?_, ?_, hd _ d c hs.tick (htick s hE)⟩
  · exact hs.tick.create (Fs.shape?_eq_dir.mp hp) (Fs.shape?_eq_none.mp hf) (hs.cwd ▸ hin)
  · exact hl'.create_dir hs.tree hr (hg _ hs.next) hstop

theorem resolve_inside (hnames : ∀ c ∈ names, IsName c) (hl : s.Stays names.dropLast)
    (hr : s.resolve false (relative names) = .ok (d, [c])) : s.cwd <+: d := by
  rcases eq_nil_or_concat' names with rfl | ⟨init, b, rfl⟩
  · cases (resolve_dot hr).1
  rw [resolve_relative (by simp) hnames, walk_eq_ok] at hr
  rw [dropLast_concat] at hl
  rcases hr.snoc (hnames b (by simp)).1 with ⟨b', rest, -, hrest⟩ | ⟨d', hd', -, ⟨rfl, -⟩ | ⟨-, hn⟩⟩
  · exact absurd (congrArg List.length hrest) (by simp)
  · exact (hl d [] hd'.walk_eq).1
  · cases hn

theorem symlink_confined (hnames : ∀ c ∈ names, IsName c) :
    Sys.Triple (fun s => Confined os₀ s ∧ s.Stays names.dropLast) (symlink target (relative names))
      fun _ s => Confined os₀ s := by
  rintro s ⟨hs, hl⟩
  rcases symlink_cases s (relative names) target with ⟨e, he⟩ | ⟨d, c, hr, he⟩
  · rw [he]
    exact hs.tick
  · obtain ⟨hd, hf⟩ := resolve_free hr
    rw [he]
    exact hs.tick.create hd hf (hs.cwd ▸ resolve_inside hnames hl hr)

theorem link_confined (hnames : ∀ c ∈ names, IsName c) (hsource : ∀ c ∈ source, IsName c) :
    Sys.Triple (fun s => Confined os₀ s ∧ s.Stays names.dropLast ∧
      (source ≠ [] → s.Straight (fun i => ¬ os₀.fs.Foreign os₀.cwd i) source))
      (link (relative source) (relative names)) fun _ s => Confined os₀ s := by
  rintro s ⟨hs, hl, hstraight⟩
  rcases link_cases s (relative names) (relative source) with ⟨e, he⟩ | ⟨ℓ, d, c, hold, hr, he⟩
  · rw [he]
    exact hs.tick
  rcases eq_or_ne source [] with rfl | hne
  · exact absurd hold linkSource_dot
  obtain ⟨hd, hf⟩ := resolve_free hr
  obtain ⟨hi, hg⟩ := (hstraight hne).linkSource hne hsource hold
  rw [he]
  exact hs.tick.link hd hf (hs.cwd ▸ resolve_inside hnames hl hr) (hs.cwd ▸ hi) hg

theorem node?_of_hasChildren {fs : Fs} (h : fs.hasChildren ℓ = false) (c : Name) :
    fs.node? (ℓ ++ [c]) = none := by
  by_contra hc
  rw [Fs.node?, if_neg (by simp)] at hc
  obtain ⟨i, hi⟩ : ∃ i, fs.ino? (ℓ ++ [c]) = some i := Option.ne_none_iff_exists'.mp fun hn =>
    hc (by rw [hn]; rfl)
  have hk : ℓ ++ [c] ∈ fs.names.keys := mem_map.mpr ⟨⟨ℓ ++ [c], i⟩, AList.mem_lookup_iff.mp hi, rfl⟩
  rw [Fs.hasChildren, any_eq_false] at h
  exact h _ hk (by simp)

/-- What can be removed: anything but the root, and a directory only if it is empty. -/
theorem removeTarget_ok (h : s.removeTarget p = .ok ℓ) :
    ∃ n, s.found (s.resolve false p) = .ok (ℓ, n) ∧
      (n = .dir → endsInDots p = false ∧ s.fs.hasChildren ℓ = false) := by
  unfold Os.removeTarget at h
  split at h
  · cases h
  · cases h
  · next ℓ' hne hf =>
    split_ifs at h with hd hc
    cases h
    exact ⟨.dir, hf, fun _ => ⟨Bool.not_eq_true _ ▸ hd, Bool.not_eq_true _ ▸ hc⟩⟩
  · next ℓ' n hne hdir hf =>
    cases h
    exact ⟨n, hf, fun hn => (hdir hn).elim⟩

/-- What `os.Remove` does: nothing, or it removes a name in the directory to which the other names
lead, with nothing below it. -/
theorem remove_cases (hs : Confined os₀ s) (hnames : ∀ c ∈ names, IsName c) :
    (remove (relative names) s).2 = s.tick ∨
      ∃ init c d, names = init ++ [c] ∧ Lookup s.fs.shape? true maxLinks s.cwd init d [] ∧
        s.fs.node? d = some .dir ∧ (∀ c', s.fs.node? (d ++ [c] ++ [c']) = none) ∧
        (remove (relative names) s).2 = s.tick.remove (d ++ [c]) := by
  unfold remove call
  cases s.fault with
  | some fault => exact .inl rfl
  | none =>
    simp only
    cases ht : s.tick.removeTarget (relative names) with
    | error e => exact .inl rfl
    | ok ℓ =>
      refine .inr ?_
      obtain ⟨n, hf, he⟩ := removeTarget_ok ht
      obtain ⟨hr, hn⟩ := Os.found_eq_ok.mp hf
      have hc : ∀ c', s.fs.node? (ℓ ++ [c']) = none := by
        by_cases hdir : n = .dir
        · exact node?_of_hasChildren (he hdir).2
        · apply hs.tree.below
          exact fun h => hdir (Option.some.inj (hn.symm.trans h))
      rcases eq_nil_or_concat' names with rfl | ⟨init, c, rfl⟩
      · -- a path that ends in a dot is not removed
        rw [(resolve_dot hr).2] at hn
        exact absurd (he (Option.some.inj hn).symm).1 (by decide)
      · rw [resolve_relative (by simp) hnames, walk_eq_ok] at hr
        rcases hr.snoc
          (hnames c (by simp)).1 with ⟨b, rest, -, hrest⟩ | ⟨d, hd, hdir, ⟨-, hnil⟩ | ⟨rfl, -⟩⟩
        · cases hrest
        · cases hnil
        · exact ⟨init, c, d, rfl, hd, Fs.shape?_eq_dir.mp hdir, hc, rfl⟩

/-- **`os.Remove` of a path whose other names lead inside** stays inside and keeps them inside, and
what a removal does not change. -/
theorem remove_confined {E : Os → Prop} (htick : ∀ s, E s → E s.tick)
    (hr : ∀ s d c, E s → E (s.remove (d ++ [c]))) (hnames : ∀ c ∈ names, IsName c) :
    Sys.Triple (fun s => Confined os₀ s ∧ s.Stays names.dropLast ∧ E s) (remove (relative names))
      fun _ s => Confined os₀ s ∧ s.Stays names.dropLast ∧ E s := by
  rintro s ⟨hs, hl, hE⟩
  have hl' : s.tick.Stays names.dropLast := hl
  rcases remove_cases hs hnames with he | ⟨init, c, d, rfl, hd, -, hc, he⟩
  · rw [he]
    exact ⟨hs.tick, hl, htick s hE⟩
  rw [he]
  rw [dropLast_concat] at hl hl' ⊢
  have hin : s.cwd <+: d := (hl d [] hd.walk_eq).1
  refine ⟨hs.tick.remove (by simp) hc ?_, hl'.remove hin, hr _ d c (htick s hE)⟩
  rw [← hs.cwd]
  exact hin.trans (prefix_append d [c])

/-- When the last name of a path is gone, the path stops where it was, or before that. -/
theorem Os.Leads.remove_last (hc : Plain c)
    (hd : Lookup s.fs.shape? true maxLinks s.cwd init d []) (hdir : s.fs.node? d = some .dir)
    (hin : s.cwd <+: d) : (s.remove (d ++ [c])).Leads good (init ++ [c]) := by
  obtain ⟨hs, hf⟩ := Os.Leads.shape?_remove s d c
  have hdir' : (s.remove (d ++ [c])).fs.shape? d = some .dir := by
    rw [← hs d (fun e => by simpa using congrArg List.length e), Fs.shape?_eq_dir.mpr hdir]
  intro ℓ r hw
  -- the other names lead to `d` as before, or stop at the name that was removed
  have hstop : ℓ = d ∧ r ≠ [] := by
    have hall := walk_eq_ok.mp hw
    obtain ⟨ℓ', r', hi⟩ := hall.first (cons_ne_nil c [])
    rcases hi.extend hs hf with hold | ⟨rest, rfl, rfl, -⟩
    · obtain ⟨rfl, rfl⟩ := hold.det hd
      obtain ⟨m, hm⟩ : ∃ m, walk _ true maxLinks (s.remove (ℓ' ++ [c])).cwd (init ++ [c]) =
        walk _ true m ℓ' [c] := hi.append (cons_ne_nil c [])
      rw [hw, walk_missing hdir' hc hf] at hm
      cases hm
      exact ⟨rfl, cons_ne_nil c []⟩
    · obtain ⟨rfl, rfl⟩ := hall.det (hi.append_stopped (.inl (cons_ne_nil c [])))
      exact ⟨rfl, by simp⟩
  obtain ⟨rfl, hr⟩ := hstop
  exact ⟨hin, fun h => absurd h hr⟩

theorem writeTarget_dot : s.writeTarget create dot ≠ .ok t := by
  intro h
  rcases writeTarget_cases h with ⟨ℓ, i, data, -, hr, hℓ, hi, hn⟩ |
    ⟨ℓ, i, stream, -, hr, hℓ, hi, hn⟩ | ⟨d, c, -, hr⟩
  · have hd := (resolve_dot hr).2
    rw [Fs.node?_of_ino? s.fs hℓ hi, hn] at hd
    cases hd
  · have hd := (resolve_dot hr).2
    rw [Fs.node?_of_ino? s.fs hℓ hi, hn] at hd
    cases hd
  · cases (resolve_dot hr).1

/-- An open file inside, without a name outside. -/
def Handle.Inside (os₀ : Os) (h : Handle) : Prop :=
  ∃ ℓ i, h = .obj ℓ i ∧ os₀.cwd <+: ℓ ∧ ¬ os₀.fs.Foreign os₀.cwd i

/-- **`os.OpenFile` for writing** on a path that leads inside, and to an object without a name
outside, empties or makes a file there. -/
theorem openWrite_confined (hnames : ∀ c ∈ names, IsName c) : Sys.Triple (fun s => Confined os₀ s ∧
        (names ≠ [] → s.Leads (fun i => ¬ os₀.fs.Foreign os₀.cwd i) names))
      (openWrite create (relative names)) fun r s => Confined os₀ s ∧ ∀ h, r = .ok h →
          h.Inside os₀ := by
  rintro s ⟨hs, hl⟩
  rcases openWrite_cases s (relative names) create with ⟨e, ho⟩ | ⟨hf, t, ht⟩
  · rw [ho]
    exact ⟨hs.tick, nofun⟩
  rw [openWrite_ok _ _ hf ht]
  rcases eq_or_ne names [] with rfl | hne
  · exact absurd ht writeTarget_dot
  have hl := hl hne
  rw [Os.Leads, ← resolve_relative hne hnames, hs.cwd] at hl
  rcases writeTarget_cases ht with ⟨ℓ, i, data, rfl, hr, -, hi, hn⟩ |
    ⟨ℓ, i, stream, rfl, hr, -, hi, -⟩ | ⟨d, c, rfl, hr⟩
  · obtain ⟨hin, hg⟩ := hl ℓ [] hr
    have hi' := hg rfl i hi
    refine ⟨hs.tick.setNode hn hi' (e := .truncate ℓ i) ⟨hin, hi'⟩ rfl rfl rfl, ?_⟩
    rintro h ⟨⟩
    exact ⟨ℓ, i, rfl, hin, hi'⟩
  · obtain ⟨hin, hg⟩ := hl ℓ [] hr
    refine ⟨hs.tick, ?_⟩
    rintro h ⟨⟩
    exact ⟨ℓ, i, rfl, hin, hg rfl i hi⟩
  · obtain ⟨hin, -⟩ := hl d [c] hr
    obtain ⟨hd, hfree⟩ := resolve_free hr
    refine ⟨hs.tick.create hd hfree hin, ?_⟩
    rintro h ⟨⟩
    exact ⟨d ++ [c], s.fs.next, rfl, hin.trans (prefix_append d [c]), hs.not_foreign le_rfl⟩

theorem write_confined (hh : h.Inside os₀) (data : Bytes) :
    Sys.Triple (Confined os₀) (write h data) fun _ s => Confined os₀ s := by
  obtain ⟨ℓ, i, rfl, hin, hg⟩ := hh
  intro s hs
  obtain ⟨d, hw⟩ := write_cases s ℓ i data
  rw [hw]
  exact hs.tick.append hin hg

end

end Vfs
