import GoPosix.Unzip.Basic

/-!
# The guard of `unzip` against directory traversal

A member is allowed if the text of the destination directory is a prefix of the text of its path.
What is wanted is a relation between lists of names (`Inside`). For a destination directory that is
written as a clean path the two agree unless the member enters a sibling of the directory whose name
begins like it (`EntersSibling`). A directory that is not written as a clean path turns down members
that are inside, and never lets one out.
-/

namespace GoPosix.Unzip

open Bytes Vfs Filepath List

def stripped (name : Bytes) : Bytes := if hasPrefix name (str "/") then name.drop 1 else name

/-- The names under which a member comes to stand: its components resolved from the directory. -/
def resolved (destDir name : Bytes) : List Name :=
  resolveFrom true (location destDir) (comps (stripped name))

def Inside (destDir name : Bytes) : Prop := location destDir <+: resolved destDir name

instance (destDir name : Bytes) : Decidable (Inside destDir name) :=
  inferInstanceAs (Decidable (_ <+: _))

/-- The member goes to a sibling of the directory, or below it, whose name is longer than that of
the directory and begins like it. -/
def EntersSibling (destDir name : Bytes) : Prop :=
  ∃ init last ext rest, location destDir = init ++ [last] ∧ ext ≠ [] ∧
    resolved destDir name = init ++ (last ++ ext) :: rest

/-- When the guard decides as it should. -/
def GuardSuits (destDir name : Bytes) : Prop :=
  if clean destDir = destDir then ¬ EntersSibling destDir name
  else Inside destDir name → destDir <+: slash :: unsplit (resolved destDir name)

section

theorem isName_of_mem_resolved (h : c ∈ resolved D n) : IsName c := by
  refine resolveFrom_isName ?_ ?_ c h
  · exact fun d hd => isName_of_mem_location hd
  · exact fun d hd => slash_notMem_of_mem_comps hd

theorem destPath_eq (hD : isAbs D = true) : destPath D n = slash :: unsplit (resolved D n) := by
  have hclean : clean (slash :: unsplit (resolved D n)) = slash :: unsplit (resolved D n) := by
    rw [clean_of_isAbs rfl, location_slash_unsplit fun c hc => isName_of_mem_resolved hc]
  have hj : join [D, stripped n] = slash :: unsplit (resolved D n) := join_of_isAbs hD _
  unfold destPath
  split_ifs with hs
  · rw [stripped, if_pos hs] at hj
    rw [hj, hclean]
  · rw [stripped, if_neg hs] at hj
    rw [hj, hclean]

theorem location_destPath (hD : isAbs D = true) : location (destPath D n) = resolved D n := by
  rw [destPath_eq hD, location_slash_unsplit fun c hc => isName_of_mem_resolved hc]

theorem allowed_iff (hD : isAbs D = true) :
    allowed D n = true ↔ D <+: slash :: unsplit (resolved D n) := by
  rw [allowed, destPath_eq hD, hasPrefix, isPrefixOf_iff_prefix]

theorem Inside.not_entersSibling (h : Inside D n) : ¬ EntersSibling D n := by
  rintro ⟨init, l, e, rest, hl, he, hr⟩
  rw [Inside, hl, hr, prefix_append_right_inj, cons_prefix_cons] at h
  exact he (append_right_eq_self.mp h.1.symm)

/-- **The guard** decides as it should exactly if the directory is clean and the member does not
enter a sibling that begins like it, or the directory is not clean and is not above a member whose
path it is no text prefix of. -/
theorem allowed_iff_inside_iff (hD : isAbs D = true) :
    (allowed D n = true ↔ Inside D n) ↔ GuardSuits D n := by
  have hn : ∀ c ∈ resolved D n, IsName c := fun c hc => isName_of_mem_resolved hc
  rw [allowed_iff hD]
  unfold GuardSuits
  split_ifs with hclean
  · rcases eq_nil_or_concat (location D) with hnil | ⟨init, last, hlocation⟩
    · -- the root: every path begins with a slash, and every member is inside
      have ht : D = [slash] := by
        rw [← hclean, clean_of_isAbs hD, hnil]
        rfl
      have hin : Inside D n := by
        rw [Inside, hnil]
        exact nil_prefix
      refine iff_of_true (iff_of_true ?_ hin) hin.not_entersSibling
      rw [ht]
      exact cons_prefix_cons.mpr ⟨rfl, nil_prefix⟩
    · rw [concat_eq_append] at hlocation
      rw [prefix_iff_of_clean hD hclean hlocation hn]
      constructor
      · rintro h ⟨init', l', ext, rest, hlocation', he, hrest⟩
        obtain ⟨rfl, hl⟩ := append_inj' (hlocation.symm.trans hlocation') rfl
        obtain rfl := singleton_inj.mp hl
        exact (h.mp ⟨ext, rest, hrest⟩).not_entersSibling ⟨_, _, ext, rest, hlocation', he, hrest⟩
      · intro h
        constructor
        · rintro ⟨ext, rest, hrest⟩
          rcases eq_or_ne ext [] with rfl | he
          · refine ⟨rest, ?_⟩
            rw [hlocation, hrest, append_nil, ← append_cons]
          · exact absurd ⟨_, _, ext, rest, hlocation, he, hrest⟩ h
        · rintro ⟨rest, hr⟩
          refine ⟨[], rest, ?_⟩
          rw [← hr, hlocation, append_nil, ← append_cons]
  · exact ⟨fun h => h.mpr, fun h =>
      ⟨fun hp => location_prefix_of_not_clean hD hclean hn hp, h⟩⟩

end

/-! ## The command -/

section

variable {opts : Options} {f : Member} {rc : Stream}

theorem copyStream_ne (o : Handle) (rc : Stream) (name : Bytes) :
    Sys.Triple (fun _ => True) (copyStream o rc) fun r _ => r ≠ .error (.traversal name) := by
  apply Sys.Triple.bind_any
  intro r
  cases r with
  | error e => exact .pure nofun
  | ok u => cases rc.err <;> exact .pure nofun

theorem makeDir_ne (path name : Bytes) :
    Sys.Triple (fun _ => True) (makeDir path) fun r _ => r ≠ .error (.traversal name) := by
  apply Sys.Triple.bind_any
  intro r
  cases r <;> exact .pure nofun

theorem writeMember_ne (om : Bool) (path : Bytes) (rc : Stream) (name : Bytes) :
    Sys.Triple (fun _ => True) (writeMember om path rc)
      fun r _ => r ≠ .error (.traversal name) := by
  apply Sys.Triple.bind_any
  intro r
  cases r with
  | error e => exact .pure nofun
  | ok u =>
    apply Sys.Triple.bind_any
    intro t
    split
    · exact .pure nofun
    · apply Sys.Triple.bind_any
      intro r
      cases r with
      | error e => exact .pure nofun
      | ok o => exact copyStream_ne o rc name

/-- A member that can be opened is refused exactly if it is not allowed. -/
theorem extract_eq_traversal_iff (ho : f.opened = .ok rc) (hm : opts.stdoutMode = false)
    (os : Os) : (extract opts f os).1 = .error (.traversal f.name) ↔
      allowed opts.destDir f.name = false := by
  unfold extract
  simp only [ho, hm, Bool.false_eq_true, if_false]
  cases hall : allowed opts.destDir f.name with
  | false => exact iff_of_true rfl rfl
  | true =>
    refine iff_of_false ?_ Bool.true_eq_false.mp
    rw [if_pos rfl]
    split
    · exact makeDir_ne _ _ os trivial
    · exact writeMember_ne _ _ _ _ os trivial

theorem extract_untouched (ho : f.opened = .ok rc) (hm : opts.stdoutMode = false)
    (hall : allowed opts.destDir f.name = false) : Untouched os (extract opts f os).2 := by
  unfold extract
  simp only [ho, hm, hall, Bool.false_eq_true]
  exact .refl os

/-- **When `unzip` extracts what it should**, from a member that can be opened, to an absolute path:
the member is refused exactly if it leaves the directory, and something is only done at the
directory or below it, exactly if the guard suits the directory and the name. -/
theorem extract_inside_iff (hD : isAbs opts.destDir = true) (hopen : f.opened = .ok rc)
    (hmode : opts.stdoutMode = false) (os : Os) :
    (((extract opts f os).1 ≠ .error (.traversal f.name) ↔ Inside opts.destDir f.name) ∧
      (¬ Untouched os (extract opts f os).2 →
        location opts.destDir <+: location (destPath opts.destDir f.name))) ↔
    GuardSuits opts.destDir f.name := by
  have hr : (extract opts f os).1 ≠ .error (.traversal f.name) ↔
      allowed opts.destDir f.name = true := by
    rw [Ne, extract_eq_traversal_iff hopen hmode, Bool.not_eq_false]
  rw [hr, allowed_iff_inside_iff hD, and_iff_left_iff_imp, location_destPath hD]
  intro hs ht
  apply ((allowed_iff_inside_iff hD).mpr hs).mp
  by_contra hall
  exact ht (extract_untouched hopen hmode (Bool.not_eq_true _ ▸ hall))

/-- A system with the directory `/tmp/x`. -/
def tmpx : Os where
  fs := (Fs.empty.add [str "tmp"] .dir).add [str "tmp", str "x"] .dir
  cwd := []
  log := []
  faults := fun _ => none
  clock := 0

theorem extract_inside_dots :
    ((extract { destDir := str "/tmp/x" } ⟨str "/a/../b", false, .ok ⟨str "data", none⟩⟩ tmpx).1 ≠
        .error (.traversal (str "/a/../b")) ↔ Inside (str "/tmp/x") (str "/a/../b")) ∧
      (¬ Untouched tmpx
          (extract { destDir := str "/tmp/x" }
            ⟨str "/a/../b", false, .ok ⟨str "data", none⟩⟩ tmpx).2 →
        location (str "/tmp/x") <+: location (destPath (str "/tmp/x") (str "/a/../b"))) := by
  refine (extract_inside_iff (by decide) rfl rfl tmpx).mpr ?_
  exact Inside.not_entersSibling (by decide)

/-- The member `../xy/f` is not inside `/tmp/x`, but it is extracted, to `/tmp/xy/f`. -/
theorem extract_sibling : ¬ Inside (str "/tmp/x") (str "../xy/f") ∧
    (extract { destDir := str "/tmp/x" } ⟨str "../xy/f", false, .ok ⟨str "data", none⟩⟩ tmpx).1 =
      .ok () ∧
    (extract { destDir := str "/tmp/x" } ⟨str "../xy/f", false, .ok ⟨str "data", none⟩⟩
      tmpx).2.fs.node? [str "tmp", str "xy", str "f"] = some (.file (str "data")) := by
  refine ⟨by decide, by decide +kernel, by decide +kernel⟩

end

end GoPosix.Unzip
