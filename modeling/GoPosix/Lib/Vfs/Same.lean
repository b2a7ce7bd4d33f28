import GoPosix.Lib.Vfs.ConfinedCalls
import GoPosix.Lib.Vfs.Kept

/-!
# Paths that a step leaves alone

`Same os os' follow p`: what was at the end of a path is there in the later state, with the content
it had. Unlike `Kept` it is about the object alone and not about what is below it. A new name
disturbs no path that leads somewhere (`same_grown`), and writing to a file only those that lead to
it (`same_setNode`).
-/

namespace Vfs

open Bytes

def Os.look (os : Os) (follow : Bool) (p : Bytes) : Except Errno (Loc × Node) :=
  os.found (os.resolve follow p)

def Os.fileOf (os : Os) (follow : Bool) (p : Bytes) : Option Ino :=
  match os.look follow p with
  | .ok (ℓ, _) => os.fs.ino? ℓ
  | .error _ => none

/-- The path leads to what it led to. -/
def Same (os os' : Os) (follow : Bool) (p : Bytes) : Prop :=
  ∀ x, os.look follow p = .ok x → os'.look follow p = .ok x

section

variable {os os' os'' : Os}

theorem Same.trans (h : Same os os' follow p) (h' : Same os' os'' follow p) :
    Same os os'' follow p := fun x hx => h' x (h x hx)

theorem look_eq_ok : os.look follow p = .ok (ℓ, n) ↔
    os.fs.resolve os.cwd follow p = .ok (ℓ, []) ∧ os.fs.node? ℓ = some n := Os.found_eq_ok

theorem look_congr (hfs : os'.fs = os.fs) (hc : os'.cwd = os.cwd) (f : Bool) (p : Bytes) :
    os'.look f p = os.look f p := by
  have hf : ∀ r, os'.found r = os.found r := by
    intro r
    unfold Os.found
    rw [hfs]
  rw [Os.look, Os.look, hf, Os.resolve, Os.resolve, hfs, hc]

theorem same_of_fs (hfs : os'.fs = os.fs) (hc : os'.cwd = os.cwd) : Same os os' follow p := by
  intro x hx
  rw [look_congr hfs hc, hx]

theorem fileOf_eq (h : os.look follow p = .ok (ℓ, n)) : os.fileOf follow p = os.fs.ino? ℓ := by
  simp only [Os.fileOf, h]

theorem look_ino (h : os.look follow p = .ok (ℓ, n)) (hn : n ≠ .dir) :
    ℓ ≠ [] ∧ ∃ i, os.fs.ino? ℓ = some i ∧ os.fs.nodes i = n :=
      os.fs.exists_ino?_of_node? (look_eq_ok.mp h).2 hn

/-! ## Writing -/

/-- **A write is seen only along paths that lead to the file.** -/
theorem same_setNode (hi : os.fs.nodes i = .file x)
    (hfs : os'.fs = os.fs.setNode i (.file y)) (hc : os'.cwd = os.cwd)
    (ho : os.fileOf follow p ≠ some i) : Same os os' follow p := by
  rintro ⟨ℓ, n⟩ h
  rw [fileOf_eq h] at ho
  rw [look_eq_ok] at h ⊢
  rw [hfs, hc, resolve_setNode hi]
  refine ⟨h.1, ?_⟩
  rcases eq_or_ne ℓ [] with rfl | hℓ
  · exact h.2
  · rw [Fs.node?_setNode os.fs hℓ, if_neg ho, h.2]

theorem look_setNode (hi : os.fs.nodes i = .file x)
    (hfs : os'.fs = os.fs.setNode i (.file y)) (hc : os'.cwd = os.cwd)
    (h : os.resolve follow p = .ok (ℓ, [])) (hℓ : ℓ ≠ []) (hin : os.fs.ino? ℓ = some i) :
    os'.look follow p = .ok (ℓ, .file y) := by
  have hf := found_setNode hi hfs h hin hℓ
  rw [Os.look, Os.resolve, hc, hf]

/-! ## New names -/

theorem grown_link (hd : d ≠ []) (hf : fs.node? d = none) (hi : i < fs.next) :
    Grown fs (fs.link d i hi) d (fs.nodes i) := ⟨hd, hf, fun _ => Fs.node?_link fs hd hi⟩

/-- **A new name disturbs no path that leads somewhere.** -/
theorem same_grown (hfs : Grown os.fs os'.fs d n) (hc : os'.cwd = os.cwd) :
    Same os os' follow p := by
  rintro ⟨ℓ, m⟩ h
  rw [look_eq_ok] at h ⊢
  rw [hc]
  exact ⟨hfs.resolve h.1, hfs.node_eq h.2⟩

end

/-- A name that was free is found after it has been made. -/
theorem Lookup.arrive
    (hsame : ∀ ℓ, ℓ ≠ d ++ [c] → look' ℓ = look ℓ)
    (hfree : look (d ++ [c]) = none) (hn : look' (d ++ [c]) = some s)
    (hs : (∀ t, s ≠ .link t) ∨ f = false) (h : Lookup look f k cur xs d [c]) :
    Lookup look' f k cur xs (d ++ [c]) [] := by
  have hseen : ∀ {ℓ : Loc} {s : Shape}, look ℓ = some s → look' ℓ = some s := by
    intro ℓ s hs
    rw [hsame ℓ, hs]
    rintro rfl
    rw [hfree] at hs
    cases hs
  generalize hr : [c] = r at h
  induction h with
  | nil => cases hr
  | stay hd hc _ ih => exact .stay (hseen hd) hc (ih hsame hfree hn hr)
  | up hd _ ih => exact .up (hseen hd) (ih hsame hfree hn hr)
  | missing hd hc _ =>
    cases hr
    -- the new object is a link in the last place, or no link
    by_cases hlink : ∃ t, s = .link t
    · obtain ⟨t, rfl⟩ := hlink
      exact .last (hseen hd) hc hn (hs.resolve_left fun h => h t rfl)
    · exact .down (hseen hd) hc hn (fun t ht => hlink ⟨t, ht⟩) .nil
  | last => cases hr
  | link hd hc hl hf _ ih => exact .link (hseen hd) hc (hseen hl) hf (ih hsame hfree hn hr)
  | down hd hc hsome hs' _ ih => exact .down (hseen hd) hc (hseen hsome) hs' (ih hsame hfree hn hr)

section

variable {os os' : Os}

/-- **What a new name leads to.** -/
theorem look_grown (hfs : Grown os.fs os'.fs (d ++ [c]) n) (hc : os'.cwd = os.cwd)
    (h : os.resolve follow p = .ok (d, [c])) (hn : n.isSymlink = false ∨ follow = false) :
    os'.look follow p = .ok (d ++ [c], n) := by
  obtain ⟨hs, hf, hnew⟩ := hfs.shape
  rw [look_eq_ok, hc]
  refine ⟨?_, by rw [hfs.node, if_pos rfl]⟩
  unfold Os.resolve Fs.resolve at h
  unfold Fs.resolve
  split_ifs at h with hp
  rw [if_neg hp]
  refine ((walk_eq_ok.mp h).arrive hs hf hnew (hn.imp_left fun hl t ht => ?_)).walk_eq
  cases n with
  | symlink target => cases hl
  | dir => cases ht
  | file data => cases ht
  | special stream => cases ht

end

/-! ## Calls that only add -/

section

variable {os : Os}

/-- Every path leads where it led. -/
def Os.Extends (os os' : Os) : Prop := ∀ follow p, Same os os' follow p

theorem Os.Extends.trans (h : os.Extends os') (h' : os'.Extends os'') :
    os.Extends os'' := fun f p => (h f p).trans (h' f p)

theorem Os.extends_of_fs (hfs : os'.fs = os.fs) (hc : os'.cwd = os.cwd) :
    os.Extends os' := fun _ _ => same_of_fs hfs hc

theorem mkdir_extends (os : Os) (p : Bytes) : os.Extends (mkdir p os).2 := by
  rcases mkdir_cases os p with ⟨e, he⟩ | ⟨d, c, hr, he⟩
  · rw [he]
    exact Os.extends_of_fs rfl rfl
  · have hf : os.fs.node? (d ++ [c]) = none := by
      unfold Os.resolveDir at hr
      split_ifs at hr
      exact Fs.shape?_eq_none.mp (walk_eq_ok.mp hr).stopped.2.2
    rw [he]
    exact fun f p => same_grown (grown_add (by simp) hf .dir) rfl

/-- **`os.MkdirAll` adds directories and nothing else.** -/
theorem mkdirAll_extends (os : Os) (p : Bytes) : os.Extends (mkdirAll p os).2 := by
  have ht : ∀ s, os.Extends s → os.Extends s.tick := fun s h => h.trans (Os.extends_of_fs rfl rfl)
  have hm : ∀ p, Sys.Triple os.Extends (mkdir p) fun _ => os.Extends := fun p s hs =>
    hs.trans (mkdir_extends s p)
  have hgo : ∀ f p, Sys.Triple os.Extends (mkdirAll.go f p) fun _ => os.Extends := by
    intro f
    induction f with
    | zero => exact fun p => mkdirBelow_triple ht (.pure fun _ h => h) (hm p)
    | succ f ih =>
      intro p
      apply mkdirBelow_triple ht _ (hm p)
      split_ifs
      · exact .pure fun _ h => h
      · exact ih (parentOf p)
  exact hgo p.length p os (Os.extends_of_fs rfl rfl)

end

/-! ## What calls find and make -/

section

variable {os : Os}

theorem openRead_ok (h : (openRead src os).1 = .ok input) : input = .dir ∨
    ∃ ℓ i, input = .obj ℓ i ∧ os.look true src = .ok (ℓ, os.fs.nodes i) ∧
      os.fs.ino? ℓ = some i := by
  unfold openRead call at h
  split at h
  · cases h
  dsimp only at h
  split at h
  · cases h
  · cases h
    exact .inl rfl
  next ℓ n hd hf =>
  split at h
  · next i hi =>
    cases h
    have hl : os.look true src = .ok (ℓ, n) := hf
    obtain ⟨-, j, hj, hn⟩ := look_ino hl hd
    obtain rfl : j = i := Option.some.inj (hj.symm.trans hi)
    exact .inr ⟨ℓ, j, rfl, hn ▸ hl, hj⟩
  · cases h

theorem readlink_ok (h : (readlink src os).1 = .ok target) :
    ∃ ℓ, os.look false src = .ok (ℓ, .symlink target) := by
  unfold readlink call at h
  split at h
  · cases h
  dsimp only at h
  split at h
  · next ℓ _ hf =>
    cases h
    exact ⟨ℓ, hf⟩
  · cases h
  · cases h

theorem symlink_extends (os : Os) (target dst : Bytes) : os.Extends (symlink target dst os).2 ∧
    ((symlink target dst os).1 = .ok () →
      ∃ ℓ, (symlink target dst os).2.look false dst = .ok (ℓ, .symlink target)) := by
  rcases symlink_cases os dst target with ⟨e, he⟩ | ⟨d, c, hr, he⟩
  · rw [he]
    exact ⟨Os.extends_of_fs rfl rfl, nofun⟩
  · have hg : Grown os.fs (os.fs.add (d ++ [c]) (.symlink target)) (d ++ [c])
        (.symlink target) := grown_add (by simp) (resolve_free hr).2 _
    rw [he]
    exact ⟨fun f p => same_grown hg rfl, fun _ => ⟨d ++ [c], look_grown hg rfl hr (.inr rfl)⟩⟩

theorem resolve_stops (h : os.resolve false dst = .ok (d, [c])) :
    os.resolve true dst = .ok (d, [c]) := by
  unfold Os.resolve Fs.resolve at h ⊢
  split_ifs at h with hp
  rw [if_neg hp]
  exact (walk_eq_ok.mp h).stops.walk_eq

theorem link_state {i : Ino} (h : os.fs.ino? ℓ = some i) (k : Loc) :
    (os.link ℓ k).fs = os.fs.link k i (os.fs.ino?_lt h) ∧ (os.link ℓ k).cwd = os.cwd := by
  unfold Os.link
  split
  · next hn =>
    rw [h] at hn
    cases hn
  · next j hj =>
    obtain rfl : i = j := Option.some.inj (h.symm.trans hj)
    exact ⟨rfl, rfl⟩

theorem link_extends (os : Os) (first dst : Bytes) : os.Extends (link first dst os).2 ∧
    ((link first dst os).1 = .ok () → ∃ ℓ n, os.look false first = .ok (ℓ, n) ∧ n ≠ .dir ∧
      (n.isSymlink = false → ∃ ℓ', (link first dst os).2.look true dst = .ok (ℓ', n))) := by
  rcases link_cases os dst first with ⟨e, he⟩ | ⟨source, d, c, hs, hr, he⟩
  · rw [he]
    exact ⟨Os.extends_of_fs rfl rfl, nofun⟩
  · obtain ⟨n, hl, hn⟩ := linkSource_ok hs
    obtain ⟨-, i, hi, rfl⟩ := look_ino hl hn
    obtain ⟨hfs, hc⟩ := @link_state os.tick source i hi (d ++ [c])
    have hg : Grown os.fs (os.tick.link source (d ++ [c])).fs (d ++ [c]) (os.fs.nodes i) := by
      rw [hfs]
      exact grown_link (by simp) (resolve_free hr).2 _
    rw [he]
    refine ⟨fun f p => same_grown hg hc, fun _ => ⟨source, _, hl, hn, fun hlink => ?_⟩⟩
    exact ⟨d ++ [c], look_grown hg hc (resolve_stops hr) (.inl hlink)⟩

end

end Vfs
