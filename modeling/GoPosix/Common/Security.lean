import Mathlib.Data.List.Induction
import GoPosix.Lib.Text
import GoPosix.Lib.Vfs.RealPath

/-!
# `SecurePath`

`SecurePath` resolves a path against a base directory and refuses it if it leads outside. A path
that does not exist is resolved as far as it does (`Resolved`), and the names that are missing are
put behind the result as they are.

The first of these need not be free: it may be a symbolic link that leads nowhere, through which a
file can be created outside the base directory. `securePath_touches_iff` says that this is the only
way out.
-/

namespace GoPosix.Common

open Bytes Vfs Filepath List

/-! ## Definitions -/

inductive SecureError where
  | eval (errno : Errno)
  | traversal
  deriving DecidableEq, Repr

/-- The loop of `resolveSymlinks` over the parents of `path`. Each turn takes a name off
`current`. -/
def walkUp (fs : Fs) (path : Bytes) (fuel : Nat) (missing current : Bytes) : Except Errno Bytes :=
  match evalSymlinks fs current with
  | .ok resolved =>
    if missing = [] then .ok (clean resolved) else .ok (clean (join [resolved, missing]))
  | .error .enoent =>
    let missing := if missing = [] then base current else join [base current, missing]
    if dir current = current then .ok (clean path)
    else match fuel with
      | 0 => .error .eio
      | fuel + 1 => walkUp fs path fuel missing (dir current)
  | .error e => .error e

def resolveSymlinks (fs : Fs) (path : Bytes) : Except Errno Bytes :=
  match evalSymlinks fs path with
  | .ok resolved => .ok (clean resolved)
  | .error .enoent => walkUp fs path (comps path).length [] path
  | .error e => .error e

/-- `filepath.Abs`, in the directory `wd`. -/
def abs (wd p : Bytes) : Bytes := if isAbs p then clean p else join [wd, p]

def absBase (wd baseDir : Bytes) : Bytes :=
  clean (abs wd (if baseDir = [] then str "/" else baseDir))

def absTarget (wd baseDir target : Bytes) : Bytes :=
  if isAbs target then clean target else clean (join [absBase wd baseDir, target])

def withSeparator (p : Bytes) : Bytes := if hasSuffix p (str "/") then p else p ++ str "/"

/-- `SecurePath(target, baseDir)`, by a process in the directory `wd`. -/
def securePath (fs : Fs) (wd target baseDir : Bytes) : Except SecureError Bytes :=
  match resolveSymlinks fs (absBase wd baseDir) with
  | .error e => .error (.eval e)
  | .ok realBase =>
    if realBase = str "/" ∨ realBase = str "\\" then .ok (absTarget wd baseDir target)
    else match resolveSymlinks fs (absTarget wd baseDir target) with
      | .error e => .error (.eval e)
      | .ok realTarget =>
        if realTarget ≠ realBase ∧ hasPrefix (withSeparator realTarget) (withSeparator realBase) =
            false then
          .error .traversal
        else .ok realTarget

/-! ## Absolute paths -/

section

variable {wd baseDir target : Bytes}

theorem abs_absolute (hwd : isAbs wd = true) (p : Bytes) :
    ∃ names, (∀ c ∈ names, IsName c) ∧ clean (abs wd p) = absolute names := by
  have hl : ∀ names, (∀ c ∈ names, IsName c) → ∃ names', (∀ c ∈ names', IsName c) ∧
      clean (absolute names) = absolute names' := fun names h => ⟨names, h, clean_absolute h⟩
  unfold abs
  split_ifs with hp
  · rw [clean_of_isAbs hp]
    exact hl _ fun c hc => isName_of_mem_location hc
  · rw [join_of_isAbs hwd]
    apply hl
    exact resolveFrom_isName (fun c hc => isName_of_mem_location hc) fun c hc =>
      slash_notMem_of_mem_comps hc

theorem absBase_absolute (hwd : isAbs wd = true) (baseDir : Bytes) :
    ∃ names, (∀ c ∈ names, IsName c) ∧ absBase wd baseDir = absolute names := abs_absolute hwd _

theorem absBase_of_absolute (hbs : ∀ c ∈ bs, IsName c) (wd : Bytes) :
    absBase wd (absolute bs) = absolute bs := by
  rw [absBase, if_neg (show absolute bs ≠ [] from cons_ne_nil _ _), abs,
    if_pos (isAbs_absolute bs), clean_absolute hbs, clean_absolute hbs]

theorem absTarget_absolute (hbs : ∀ c ∈ bs, IsName c)
    (heq : absBase wd baseDir = absolute bs) (target : Bytes) :
    ∃ names, (∀ c ∈ names, IsName c) ∧ absTarget wd baseDir target = absolute names := by
  unfold absTarget
  split_ifs with ht
  · exact ⟨location target, fun c hc => isName_of_mem_location hc, clean_of_isAbs ht⟩
  · have hn : ∀ c ∈ resolveFrom true bs (comps target), IsName c :=
      resolveFrom_isName hbs fun c hc => slash_notMem_of_mem_comps hc
    refine ⟨_, hn, ?_⟩
    rw [heq, join_of_isAbs (isAbs_absolute bs), location_absolute hbs]
    exact clean_absolute hn

end

/-! ## The loop over the parents -/

section

variable {fs : Fs} {ℓ : Loc} {path p : Bytes}

/-- The names `xs` lead to `ℓ` as far as they lead anywhere, and `zs` are left over. -/
structure Resolved (fs : Fs) (xs : List Name) (ℓ : Loc) (zs : List Name) : Prop where
  found : ∃ ys, xs = ys ++ zs ∧ fs.eval ys = .ok (ℓ, []) ∧
    ∀ z rest, zs = z :: rest → NotExist (fs.eval (ys ++ [z]))

theorem evalSymlinks_cases (h : ∀ c ∈ names, IsName c) :
    (∃ ℓ, fs.eval names = .ok (ℓ, []) ∧ evalSymlinks fs (absolute names) = .ok (absolute ℓ)) ∨
      (NotExist (fs.eval names) ∧ evalSymlinks fs (absolute names) = .error .enoent) ∨
      ∃ e, e ≠ .enoent ∧ fs.eval names = .error e ∧ evalSymlinks fs (absolute names) =
          .error e := by
  rw [evalSymlinks, Fs.eval_absolute h]
  rcases fs.eval names with e | ⟨ℓ, _ | ⟨c, r⟩⟩
  · by_cases he : e = .enoent
    · subst he
      exact .inr (.inl ⟨rfl, rfl⟩)
    · exact .inr (.inr ⟨e, he, rfl, rfl⟩)
  · exact .inl ⟨ℓ, rfl, rfl⟩
  · exact .inr (.inl ⟨cons_ne_nil c r, rfl⟩)

theorem evalSymlinks_root (fs : Fs) : evalSymlinks fs (absolute []) = .ok (absolute []) := by
  rcases @evalSymlinks_cases fs [] (by simp) with ⟨ℓ, hok, h⟩ | ⟨hm, -⟩ | ⟨e, -, he, -⟩
  · cases hok
    exact h
  · exact absurd rfl hm
  · cases he

theorem unsplit_eq_nil_iff (h : ∀ c ∈ zs, IsName c) : unsplit zs = [] ↔ zs = [] := by
  constructor
  · intro hn
    by_contra hne
    exact unsplit_ne_nil hne h hn
  · rintro rfl
    rfl

/-- One turn of the loop: what is missing gets a name, and the path loses it. -/
theorem walkUp_snoc (hys : ∀ c ∈ ys, IsName c) (hy : IsName y) (hzs : ∀ c ∈ zs, IsName c)
    (hmissing : evalSymlinks fs (absolute (ys ++ [y])) = .error .enoent) :
    walkUp fs path (fuel + 1) (unsplit zs) (absolute (ys ++ [y])) =
      walkUp fs path fuel (unsplit (y :: zs)) (absolute ys) := by
  have hall : ∀ c ∈ ys ++ [y], IsName c := by
    intro c hc
    rcases mem_append.mp hc with hc | hc
    · exact hys c hc
    · rwa [mem_singleton.mp hc]
  have hne : absolute ys ≠ absolute (ys ++ [y]) := fun heq => by
    simpa using congrArg List.length (absolute_inj hys hall heq)
  have hm : (if unsplit zs = [] then base (absolute (ys ++ [y]))
      else join [base (absolute (ys ++ [y])), unsplit zs]) = unsplit (y :: zs) := by
    rw [base_absolute_snoc ys hy]
    split_ifs with hn
    · rw [(unsplit_eq_nil_iff hzs).mp hn, unsplit_singleton]
    · exact join_unsplit hy (mt (unsplit_eq_nil_iff hzs).mpr hn) hzs
  rw [walkUp, hmissing]
  simp only [hm, dir_absolute_snoc hys hy.2, if_neg hne]

theorem walkUp_found (hzs : ∀ c ∈ zs, IsName c) (hys : ∀ c ∈ ys, IsName c)
    (hok : fs.eval ys = .ok (ℓ, [])) (he : evalSymlinks fs (absolute ys) = .ok (absolute ℓ)) :
    walkUp fs path fuel (unsplit zs) (absolute ys) = .ok (absolute (ℓ ++ zs)) := by
  have hℓ : ∀ c ∈ ℓ, IsName c := (Fs.eval_real hys hok).isName
  rw [walkUp, he]
  rcases eq_or_ne zs [] with rfl | hne
  · simp [clean_absolute hℓ]
  have hall : ∀ c ∈ ℓ ++ zs, IsName c := by
    intro c hc
    rcases mem_append.mp hc with hc | hc
    · exact hℓ c hc
    · exact hzs c hc
  simp only [if_neg (unsplit_ne_nil hne hzs), join_absolute hℓ hne hzs, clean_absolute hall]

/-- **What the loop finds.** -/
theorem walkUp_ok (ys : List Name) : ∀ {f : Nat} {zs : List Name}, ys.length ≤ f →
    (∀ c ∈ ys, IsName c) → (∀ c ∈ zs, IsName c) →
    (∀ z rest, zs = z :: rest → NotExist (fs.eval (ys ++ [z]))) →
    walkUp fs path f (unsplit zs) (absolute ys) = .ok p →
      ∃ ℓ left, Resolved fs (ys ++ zs) ℓ left ∧ p = absolute (ℓ ++ left) := by
  induction ys using List.reverseRecOn with
  | nil =>
    intro f zs _ hys hzs hm h
    have hr : fs.eval [] = .ok ([], []) := walk_nil
    rw [walkUp_found hzs hys hr (evalSymlinks_root fs)] at h
    cases h
    exact ⟨[], zs, ⟨[], rfl, hr, hm⟩, rfl⟩
  | append_singleton ys y ih =>
    intro f zs hf hys hzs hm h
    rcases evalSymlinks_cases hys with ⟨ℓ, hok, heval⟩ | ⟨hnot, heval⟩ | ⟨e, he, -, heval⟩
    · rw [walkUp_found hzs hys hok heval] at h
      cases h
      exact ⟨ℓ, zs, ⟨ys ++ [y], rfl, hok, hm⟩, rfl⟩
    · have hi : ∀ c ∈ ys, IsName c := fun c hc => hys c (mem_append_left _ hc)
      have hy : IsName y := hys y (by simp)
      cases f with
      | zero => simp at hf
      | succ f =>
        rw [walkUp_snoc hi hy hzs heval] at h
        have hl : ys.length ≤ f := by simpa using hf
        have hn : ∀ z rest, y :: zs = z :: rest → NotExist (fs.eval (ys ++ [z])) := by
          intro z rest heq
          cases heq
          exact hnot
        have hzs' : ∀ c ∈ y :: zs, IsName c := forall_mem_cons.mpr ⟨hy, hzs⟩
        obtain ⟨ℓ, left, hrest, hp⟩ := ih hl hi hzs' hn h
        exact ⟨ℓ, left, by simpa using hrest, hp⟩
    · rw [walkUp, heval] at h
      cases e with
      | enoent => exact absurd rfl he
      | _ => cases h

theorem length_le_comps_absolute (h : ∀ c ∈ xs, IsName c) :
    xs.length ≤ (comps (absolute xs)).length := by
  rcases eq_or_ne xs [] with rfl | hne
  · exact Nat.zero_le _
  · rw [comps_absolute hne h]
    exact Nat.le_succ _

/-- **What `resolveSymlinks` finds.** -/
theorem resolveSymlinks_ok (hxs : ∀ c ∈ xs, IsName c)
    (h : resolveSymlinks fs (absolute xs) = .ok p) :
    ∃ ℓ zs, Resolved fs xs ℓ zs ∧ p = absolute (ℓ ++ zs) := by
  unfold resolveSymlinks at h
  rcases evalSymlinks_cases hxs with ⟨ℓ, hok, heval⟩ | ⟨-, heval⟩ | ⟨e, he, -, heval⟩
  · rw [heval] at h
    cases h
    refine ⟨ℓ, [], ⟨xs, by simp, hok, by simp⟩, ?_⟩
    rw [append_nil, clean_absolute (Fs.eval_real hxs hok).isName]
  · rw [heval] at h
    have := @walkUp_ok fs (absolute xs) p xs _ [] (length_le_comps_absolute hxs) hxs (by simp)
      (by simp) h
    rwa [append_nil] at this
  · rw [heval] at h
    cases e with
    | enoent => exact absurd rfl he
    | _ => cases h

theorem resolveSymlinks_found (hxs : ∀ c ∈ xs, IsName c) (hok : fs.eval xs = .ok (ℓ, [])) :
    resolveSymlinks fs (absolute xs) = .ok (absolute ℓ) := by
  rcases @evalSymlinks_cases fs xs hxs with ⟨ℓ', hok', he⟩ | ⟨hnot, -⟩ | ⟨e, -, herr, -⟩
  · rw [hok] at hok'
    cases hok'
    rw [resolveSymlinks, he]
    exact congrArg Except.ok (clean_absolute (Fs.eval_real hxs hok).isName)
  · rw [hok] at hnot
    exact absurd rfl hnot
  · rw [hok] at herr
    cases herr

/-! ## What the path leads to -/

theorem Resolved.real (h : Resolved fs xs ℓ zs) (hxs : ∀ c ∈ xs, IsName c) : Real fs.shape? ℓ := by
  obtain ⟨ys, rfl, hok, -⟩ := h.found
  exact Fs.eval_real (fun c hc => hxs c (mem_append_left _ hc)) hok

theorem Resolved.left_isName (h : Resolved fs xs ℓ zs) (hxs : ∀ c ∈ xs, IsName c) :
    ∀ c ∈ zs, IsName c := by
  obtain ⟨ys, rfl, -, -⟩ := h.found
  exact fun c hc => hxs c (mem_append_right _ hc)

theorem Resolved.isName (h : Resolved fs xs ℓ zs) (hxs : ∀ c ∈ xs, IsName c) :
    ∀ c ∈ ℓ ++ zs, IsName c := by
  intro c hc
  rcases mem_append.mp hc with hc | hc
  · exact (h.real hxs).isName c hc
  · exact h.left_isName hxs c hc

/-- The path that is put together leads to `ℓ` and goes on with the names left over. -/
theorem Resolved.resolve (h : Resolved fs xs ℓ zs) (hxs : ∀ c ∈ xs, IsName c) (cwd : Loc)
    (f : Bool) :
    fs.resolve cwd f (absolute (ℓ ++ zs)) = walk fs.shape? f maxLinks ℓ zs := by
  rw [Fs.resolve_absolute cwd (h.isName hxs)]
  exact Real.walk_append zs ℓ [] (h.real hxs)

/-- The first name left over is free, or a symbolic link that leads nowhere. -/
theorem Resolved.missing {z : Name} {rest : List Name} (h : Resolved fs xs ℓ (z :: rest))
    (hxs : ∀ c ∈ xs, IsName c) : fs.shape? ℓ = some .dir ∧ (fs.shape? (ℓ ++ [z]) = none ∨
      ∃ t k, fs.shape? (ℓ ++ [z]) = some (.link t) ∧
          NotExist (walk fs.shape? true k (start ℓ t) (comps t))) := by
  have hr := h.real hxs
  have hz : IsName z := h.left_isName hxs z mem_cons_self
  obtain ⟨ys, -, hok, hmissing⟩ := h.found
  obtain ⟨m, hm⟩ : ∃ m, walk fs.shape? true maxEvalLinks [] (ys ++ [z]) =
      walk fs.shape? true m ℓ [z] :=
    (walk_eq_ok.mp hok).append (cons_ne_nil z [])
  have hnot : NotExist (walk fs.shape? true m ℓ [z]) := hm ▸ hmissing z rest rfl
  obtain ⟨hd, hc⟩ := hr.missing fs.shape?_root hz.1 hnot
  refine ⟨hd, ?_⟩
  rcases hc with hn | ⟨t, k, -, hl, hnot⟩
  · exact .inl hn
  · exact .inr ⟨t, k, hl, hnot⟩

/-- **Names left over stay left over.** No limit on links makes the path exist. -/
theorem Resolved.left (h : Resolved fs xs ℓ zs) (hxs : ∀ c ∈ xs, IsName c) (hne : zs ≠ [])
    (hok : walk fs.shape? true n ℓ zs = .ok (d, r)) : zs.length ≤ r.length := by
  obtain ⟨z, rest, rfl⟩ := exists_cons_of_ne_nil hne
  have hz : IsName z := h.left_isName hxs z mem_cons_self
  obtain ⟨hd, hn | ⟨t, k, hl, hnot⟩⟩ := h.missing hxs
  · rw [walk_missing hd hz.1 hn] at hok
    cases hok
    exact Nat.le_refl _
  · cases n with
    | zero =>
      rw [walk_plain hd hz.1, hl] at hok
      simp only [reduceCtorEq, and_false] at hok
      cases hok
    | succ n =>
      rw [walk_link hd hz.1 hl (by simp)] at hok
      exact hnot.append hok

end

/-! ## Paths that are accepted -/

section

variable {fs : Fs} {wd target baseDir p : Bytes} {b : Loc}

/-- The text of a real location is not that of the root, unless it is the root. -/
theorem absolute_ne_root (hb : b ≠ []) (hn : ∀ c ∈ b, IsName c) :
    ¬ (absolute b = str "/" ∨ absolute b = str "\\") := by
  rintro (h | h)
  · exact hb (absolute_inj hn (by simp) h)
  · cases h

theorem withSeparator_absolute (hb : b ≠ []) (hn : ∀ c ∈ b, IsName c) :
    withSeparator (absolute b) = absolute b ++ [slash] := by
  have hs : hasSuffix (absolute b) (str "/") = false := by
    obtain ⟨init, c, rfl⟩ := (eq_nil_or_concat' b).resolve_left hb
    have hc : IsName c := hn c (by simp)
    rw [hasSuffix, Bool.eq_false_iff, ne_eq, isSuffixOf_iff_suffix, absolute_snoc]
    rintro ⟨t, ht⟩
    obtain ⟨init', a, rfl⟩ := (eq_nil_or_concat' c).resolve_left hc.1.1
    rw [← append_assoc] at ht
    have ha := (append_inj' ht rfl).2
    apply hc.2
    rw [← singleton_inj.mp ha]
    exact mem_append_right _ mem_cons_self
  rw [withSeparator, if_neg (by rw [hs]; simp)]
  rfl

theorem securePath_root (hbs : ∀ c ∈ bs, IsName c)
    (heq : absBase wd baseDir = absolute bs) (hb : fs.realPath (absolute bs) = some []) :
    securePath fs wd target baseDir = .ok (absTarget wd baseDir target) := by
  rw [Fs.realPath_absolute hbs] at hb
  rw [securePath, heq, resolveSymlinks_found hbs hb]
  exact if_pos (.inl rfl)

/-- **What is accepted** in any other base directory: the path is resolved, and it is below the
base directory. -/
theorem securePath_ok (hbs : ∀ c ∈ bs, IsName c)
    (heq : absBase wd baseDir = absolute bs) (hbase : fs.realPath (absolute bs) = some b)
    (hb : b ≠ []) (hxs : ∀ c ∈ xs, IsName c) (ht : absTarget wd baseDir target = absolute xs)
    (h : securePath fs wd target baseDir = .ok p) :
    ∃ ℓ zs, Resolved fs xs ℓ zs ∧ p = absolute (ℓ ++ zs) ∧ b <+: ℓ ++ zs := by
  rw [Fs.realPath_absolute hbs] at hbase
  have hn : ∀ c ∈ b, IsName c := (Fs.eval_real hbs hbase).isName
  rw [securePath, heq, resolveSymlinks_found hbs hbase, ht] at h
  simp only [if_neg (absolute_ne_root hb hn)] at h
  cases hresolve : resolveSymlinks fs (absolute xs) with
  | error e =>
    rw [hresolve] at h
    cases h
  | ok rt =>
    rw [hresolve] at h
    simp only at h
    obtain ⟨ℓ, zs, hr, rfl⟩ := resolveSymlinks_ok hxs hresolve
    have hall := hr.isName hxs
    by_cases hc : absolute (ℓ ++ zs) ≠ absolute b ∧
        hasPrefix (withSeparator (absolute (ℓ ++ zs))) (withSeparator (absolute b)) = false
    · rw [if_pos hc] at h
      cases h
    rw [if_neg hc] at h
    cases h
    refine ⟨ℓ, zs, hr, rfl, ?_⟩
    by_cases hs : absolute (ℓ ++ zs) = absolute b
    · exact absolute_inj hall hn hs ▸ prefix_rfl
    have hp : hasPrefix (withSeparator (absolute (ℓ ++ zs))) (withSeparator (absolute b)) =
        true := by
      rw [← Bool.not_eq_false]
      exact fun hf => hc ⟨hs, hf⟩
    rw [hasPrefix, isPrefixOf_iff_prefix, withSeparator_absolute hb hn] at hp
    rcases eq_or_ne (ℓ ++ zs) [] with hnil | hne
    · -- the root is below itself only
      rw [hnil] at hp
      have hl := hp.length_le
      have hroot : (withSeparator (absolute [])).length = 1 := rfl
      rw [length_append, absolute, length_cons] at hl
      simp only [length_singleton] at hl
      omega
    · rw [withSeparator_absolute hne hall] at hp
      exact prefix_of_slash_prefix hb hn hall hp

/-- Where opening `path` puts a new file if its last name is a symbolic link. -/
def linkCreates (fs : Fs) (path : Bytes) : Option Loc :=
  match fs.realPath (dir path) with
  | none => none
  | some d => match fs.shape? (d ++ [base path]) with
    | some (.link _) => match walk fs.shape? true maxLinks d [base path] with
      | .ok (e, [c]) => some (e ++ [c])
      | _ => none
    | _ => none

theorem linkCreates_snoc (hys : ∀ c ∈ ys, IsName c) (hz : IsName z)
    : linkCreates fs (absolute (ys ++ [z])) = some ℓ ↔ ∃ d t e c,
      fs.eval ys = .ok (d, []) ∧ fs.shape? (d ++ [z]) = some (.link t) ∧
        walk fs.shape? true maxLinks d [z] = .ok (e, [c]) ∧ ℓ = e ++ [c] := by
  rw [linkCreates, dir_absolute_snoc hys hz.2, base_absolute_snoc ys hz]
  constructor
  · intro h
    split at h
    · cases h
    next d hd =>
    split at h
    · next t hl =>
      split at h
      · next e c hw =>
        cases h
        exact ⟨d, t, e, c, (Fs.realPath_absolute hys).mp hd, hl, hw, rfl⟩
      · cases h
    · cases h
  · rintro ⟨d, t, e, c, hok, hl, hw, rfl⟩
    rw [(Fs.realPath_absolute hys).mpr hok]
    simp only [hl, hw]

/-- If the last name leads to something that can be made, only this name is left over. -/
theorem Resolved.eq_of_creates
    (h : Resolved fs xs ℓ zs) (hxs : xs = ys ++ [z]) (hok : fs.eval ys = .ok (d, []))
    (hs : walk fs.shape? true maxLinks d [z] = .ok (e, [c])) : ℓ = d ∧ zs = [z] := by
  obtain ⟨m, hm⟩ : ∃ m, walk fs.shape? true maxEvalLinks [] (ys ++ [z]) =
      walk fs.shape? true m d [z] :=
    (walk_eq_ok.mp hok).append (cons_ne_nil z [])
  obtain ⟨init, hin, hi, hmissing⟩ := h.found
  rw [hxs] at hin
  rcases eq_nil_or_concat' zs with rfl | ⟨zs, z', rfl⟩
  · -- the whole path would exist
    rw [append_nil] at hin
    rw [← hin, Fs.eval, hm] at hi
    have hagree : walk fs.shape? true m d [z] = walk fs.shape? true maxLinks d [z] := by
      apply walk_agree
      · rw [hi]
        simp
      · rw [hs]
        simp
    rw [hi, hs] at hagree
    cases hagree
  · rw [← append_assoc] at hin
    obtain ⟨rfl, hz'⟩ := append_inj' hin rfl
    obtain rfl := singleton_inj.mp hz'
    cases zs with
    | nil =>
      rw [append_nil, hi] at hok
      cases hok
      exact ⟨rfl, rfl⟩
    | cons w ws =>
      -- a missing name before the last one would be missing from the parent
      have hnot := hmissing w (ws ++ [z]) rfl
      have hok' : walk fs.shape? true maxEvalLinks [] ((init ++ [w]) ++ ws) = .ok (d, []) := by
        rw [← hok, Fs.eval]
        simp
      exact absurd (hnot.append hok') (by simp)

/-- **The only way out.** In a base directory that is really at `b`, opening an accepted path
touches an object at `b` or below it, unless its last name is a symbolic link through which a new
file is put elsewhere. -/
theorem securePath_touches_iff (hwd : isAbs wd = true) (cwd : Loc)
    (hbase : fs.realPath (absBase wd baseDir) = some b) (hb : b ≠ [])
    (h : securePath fs wd target baseDir = .ok p) :
    (∀ ℓ, fs.touches cwd p = some ℓ → b <+: ℓ) ↔
      ∀ ℓ, linkCreates fs (absTarget wd baseDir target) = some ℓ → b <+: ℓ := by
  obtain ⟨bs, hbs, heq⟩ := absBase_absolute hwd baseDir
  rw [heq] at hbase
  obtain ⟨xs, hxs, htarget⟩ := absTarget_absolute hbs heq target
  obtain ⟨ℓ, zs, hr, rfl, hp⟩ := securePath_ok hbs heq hbase hb hxs htarget h
  rw [htarget, Fs.touches, hr.resolve hxs]
  constructor
  · intro hin ℓ' hcreates
    rcases eq_nil_or_concat' xs with rfl | ⟨ys, z, rfl⟩
    · -- the root is not below `b`
      obtain ⟨ys, hnil, hok, -⟩ := hr.found
      obtain ⟨rfl, rfl⟩ := append_eq_nil_iff.mp hnil.symm
      cases hok
      exact absurd (prefix_nil.mp hp) hb
    have hys : ∀ c ∈ ys, IsName c := fun c hc => hxs c (mem_append_left _ hc)
    obtain ⟨d, t, e, c, hok, -, hw, rfl⟩ := (linkCreates_snoc hys (hxs z (by simp))).mp hcreates
    obtain ⟨rfl, rfl⟩ := hr.eq_of_creates rfl hok hw
    rw [hw] at hin
    exact hin _ rfl
  · intro hin ℓ' ht
    rcases eq_or_ne zs [] with rfl | hne
    · cases ht
      rwa [append_nil] at hp
    obtain ⟨z, rest, rfl⟩ := exists_cons_of_ne_nil hne
    have hz : IsName z := hr.left_isName hxs z mem_cons_self
    split at ht
    · next d hw =>
      exact absurd (hr.left hxs hne hw) (by simp)
    · next d c hw =>
      cases ht
      -- one name is left over, so the path has one name behind `ℓ`
      have hlen := hr.left hxs hne hw
      obtain rfl : rest = [] := by
        simpa using hlen
      obtain ⟨hd, hn | ⟨t, k, hl, -⟩⟩ := hr.missing hxs
      · rw [walk_missing hd hz.1 hn] at hw
        cases hw
        exact hp
      · obtain ⟨ys, rfl, hok, -⟩ := hr.found
        have hys : ∀ c ∈ ys, IsName c := fun c hc => hxs c (mem_append_left _ hc)
        exact hin _ ((linkCreates_snoc hys hz).mpr ⟨ℓ, t, d, c, hok, hl, hw, rfl⟩)
    · cases ht

end

/-! ### A link that leads nowhere -/

/-- The directory `/b` with a symbolic link `l` to `/x`, which does not exist. -/
def danglingFs : Fs :=
  (Fs.empty.add [str "b"] .dir).add [str "b", str "l"] (.symlink (str "/x"))

theorem securePath_touches_new :
    securePath danglingFs (str "/") (str "f") (str "/b") = .ok (str "/b/f") ∧
      ∀ ℓ, danglingFs.touches [] (str "/b/f") = some ℓ → [str "b"] <+: ℓ := by
  have hok : securePath danglingFs (str "/") (str "f") (str "/b") = .ok (str "/b/f") := by
    decide +kernel
  refine ⟨hok, ?_⟩
  apply (securePath_touches_iff rfl [] (by decide +kernel) (by simp) hok).mpr
  intro ℓ h
  cases h

theorem securePath_touches_outside :
    danglingFs.realPath (absBase (str "/") (str "/b")) = some [str "b"] ∧
      securePath danglingFs (str "/") (str "l") (str "/b") = .ok (str "/b/l") ∧
      danglingFs.touches [] (str "/b/l") = some [str "x"] ∧ ¬ [str "b"] <+: [str "x"] := by
  decide +kernel

end GoPosix.Common
