import Mathlib.Data.List.Induction
import GoPosix.Lib.Filepath
import GoPosix.Lib.Text
import GoPosix.Lib.Vfs.Calls

/-!
# `tar -x`

`extractArchiveStream` of `pkg/tar` and the functions it calls. All entries of an archive are read
into memory before the first of them is extracted, so an archive is a list of entries, or it cannot
be read and nothing is done. Times and modes of files are left out, except for the mode that is
reported.
-/

namespace GoPosix.Tar

open Bytes Vfs Filepath

/-! ## Archives -/

/-- `header.Typeflag`, as far as the loop tells the types apart. -/
inductive Typeflag where
  | dir
  | reg
  | symlink
  | link
  | other
  deriving DecidableEq, Repr

structure Header where
  name : Bytes
  typeflag : Typeflag
  linkname : Bytes := []
  size : Int := 0
  mode : Int := 0
  deriving DecidableEq, Repr

structure TarEntry where
  header : Header
  body : Bytes := []
  deriving DecidableEq, Repr

/-- What the reader yields: nothing at all, an error of package `archive/tar`, or all entries. -/
inductive Input where
  | empty
  | broken (err : Bytes)
  | entries (es : List TarEntry)
  deriving DecidableEq, Repr

/-- The arguments of `extractArchiveStream` other than the reader and the writers. -/
structure Options where
  verbose : Bool := false
  toStdout : Bool := false
  overwrite : Bool := false
  keepOld : Bool := false
  excludePatterns : List Bytes := []
  includeSet : Option (List Bytes) := none
  deriving DecidableEq, Repr

/-! ## Names -/

def isExcluded (name : Bytes) (excludePatterns : List Bytes) : Bool :=
  excludePatterns.any fun p => p = name || hasPrefix name (p ++ str "/")

/-- The entry is not excluded, and it was asked for. -/
def selected (opts : Options) (name : Bytes) : Bool :=
  !isExcluded name opts.excludePatterns &&
    match opts.includeSet with
    | none => true
    | some includeSet => name ∈ includeSet

/-- The clean path goes up or is absolute, so that the entry is skipped. -/
def escapes (target : Bytes) : Bool := hasPrefix target (str "..") || hasPrefix target (str "/")

/-- `allTargets`: the clean paths of the entries that are not skipped, one for each entry. -/
def allTargets (entries : List TarEntry) : List Bytes :=
  (entries.map fun e => clean e.header.name).filter fun tgt => !escapes tgt

def isSymlinkSafe (rootDir symlinkTarget linkTarget : Bytes) : Bool :=
  if isAbs linkTarget then false
  else
    let symDir := dir symlinkTarget
    let resolved := clean (join [symDir, linkTarget])
    let absTarget := clean (join [rootDir, resolved])
    let cleanRoot := clean rootDir
    absTarget = cleanRoot || hasPrefix absTarget (cleanRoot ++ str "/")

/-- `hasDangerousParent`. A path has fewer parents than bytes. -/
def hasDangerousParent (target : Bytes) (dangerous : List Bytes) : Bool :=
  go target.length (dir target)
where
  go : Nat → Bytes → Bool
  | 0, _ => false
  | fuel + 1, parent =>
    if parent = dot ∨ parent = [slash] ∨ parent = [] then false
    else if parent ∈ dangerous then true
    else go fuel (dir parent)

def hasConflict (target : Bytes) (allTargets : List Bytes) : Bool :=
  1 < allTargets.count target || allTargets.any fun name => hasPrefix name (target ++ str "/")

/-! ## Extraction -/

/-- `fmt.Sprintf("%04o", mode)`. -/
def formatMode (mode : Int) : Bytes :=
  let digits := (Nat.toDigits 8 mode.natAbs).map fun c => UInt8.ofNat c.toNat
  if mode < 0 then str "-" ++ List.replicate (3 - digits.length) 48 ++ digits
  else List.replicate (4 - digits.length) 48 ++ digits

structure TarFileStat where
  name : Bytes
  size : Int
  mode : Bytes
  deriving DecidableEq, Repr

inductive Failure where
  | shortRead
  | archive (err : Bytes)
  | system (e : Errno)
  | notFound
  deriving DecidableEq, Repr

/-- The variables of the loop, what it wrote to `stdOut` and `errOut`, and the directories whose
mode is set when it is left, the last one first. -/
structure Extraction where
  stats : List TarFileStat := []
  matchedAny : Bool := false
  hadSymlinkDependents : Bool := false
  dangerousSymlinks : List Bytes := []
  stdOut : Bytes := []
  errOut : Bytes := []
  deferred : List Bytes := []
  deriving DecidableEq, Repr

/-- What the loop knows beforehand. -/
structure Context where
  opts : Options
  rootDir : Bytes
  allTargets : List Bytes

/-- A write to `stdOut`: what was written, and the error. -/
def emit (data : Bytes) : Sys (Bytes × Option Errno) := fun os =>
  match os.fault with
  | some fault => ((data.take fault.written, some fault.errno), os.tick)
  | none => ((data, none), os.tick)

/-- The body of a regular entry goes to `stdOut`. -/
def copyToStdout (x : Extraction) (body : Bytes) : Sys (Extraction × Option Failure) :=
  if body = [] then pure (x, none)
  else do
    let (written, err) ← emit body
    pure ({ x with stdOut := x.stdOut ++ written }, err.map .system)

/-- What is done about an object in the way: with `keepOld` the entry is given up (`false`),
otherwise the object is removed if `replaces` says so. -/
def clearTarget (keepOld : Bool) (replaces : Node → Bool) (target : Bytes) : Sys Bool := do
  match ← lstat target with
  | .error _ => pure true
  | .ok n =>
    if keepOld then pure false
    else if replaces n then do
      let _ ← remove target
      pure true
    else pure true

def writeBody (overwrite : Bool) (target body : Bytes) : Sys (Except Errno Unit) := do
  match ← openWrite (!overwrite) target with
  | .error e => pure (.error e)
  | .ok f =>
    match ← (if body = [] then pure (.ok ()) else write f body) with
    | .error e => pure (.error e)
    | .ok () => do
      let _ ← setAttr target
      pure (.ok ())

def extractDir (x : Extraction) (target : Bytes) : Sys (Extraction × Option Failure) := do
  match ← mkdirAll target with
  | .error e => pure (x, some (.system e))
  | .ok () => pure ({ x with deferred := target :: x.deferred }, none)

def extractReg (opts : Options) (x : Extraction) (target body : Bytes) :
    Sys (Extraction × Option Failure) := do
  let x := { x with
    hadSymlinkDependents :=
      x.hadSymlinkDependents || hasDangerousParent target x.dangerousSymlinks }
  if ← clearTarget opts.keepOld Node.isSymlink target then
    match ← mkdirAll (dir target) with
    | .error e => pure (x, some (.system e))
    | .ok () =>
      match ← writeBody opts.overwrite target body with
      | .error e => pure (x, some (.system e))
      | .ok () => pure (x, none)
  else pure (x, none)

/-- The part that symbolic and hard links share: `make` makes the link. Errors are dropped. -/
def extractWith (keepOld : Bool) (target : Bytes) (make : Sys (Except Errno Unit)) : Sys Unit := do
  if ← clearTarget keepOld (fun _ => true) target then
    let _ ← mkdirAll (dir target)
    let _ ← make
    pure ()
  else pure ()

def extractSymlink (ctx : Context) (x : Extraction) (header : Header) (target : Bytes) :
    Sys (Extraction × Option Failure) :=
  if !isSymlinkSafe ctx.rootDir target header.linkname && hasConflict target ctx.allTargets then
    pure ({ x with
      errOut := x.errOut ++ str "tar: can't create symlink '" ++ header.name ++ str "' to '" ++
        header.linkname ++ str "'\n"
      dangerousSymlinks := target :: x.dangerousSymlinks }, none)
  else do
    extractWith ctx.opts.keepOld target (symlink header.linkname target)
    pure (x, none)

def extractLink (opts : Options) (x : Extraction) (header : Header) (target : Bytes) :
    Sys (Extraction × Option Failure) :=
  let linkTarget := clean header.linkname
  if linkTarget = target then pure (x, none)
  else if hasPrefix linkTarget (str "..") then pure (x, none)
  else do
    extractWith opts.keepOld target (link linkTarget target)
    pure (x, none)

def extractTarget (ctx : Context) (x : Extraction) (e : TarEntry) (target : Bytes) :
    Sys (Extraction × Option Failure) :=
  let x := { x with
    stats := x.stats ++ [⟨e.header.name, e.header.size, formatMode e.header.mode⟩] }
  match e.header.typeflag, ctx.opts.toStdout with
  | .reg, true => copyToStdout x e.body
  | _, true => pure (x, none)
  | .dir, false => extractDir x target
  | .reg, false => extractReg ctx.opts x target e.body
  | .symlink, false => extractSymlink ctx x e.header target
  | .link, false => extractLink ctx.opts x e.header target
  | .other, false => pure (x, none)

def extractEntry (ctx : Context) (x : Extraction) (e : TarEntry) :
    Sys (Extraction × Option Failure) :=
  if selected ctx.opts e.header.name then
    let x := { x with matchedAny := true }
    if escapes (clean e.header.name) then pure (x, none)
    else extractTarget ctx x e (clean e.header.name)
  else pure (x, none)

def extractLoop (ctx : Context) : Extraction → List TarEntry → Sys (Extraction × Option Failure)
  | x, [] => pure (x, none)
  | x, e :: es => do
    match ← extractEntry ctx x e with
    | (x, some err) => pure (x, some err)
    | (x, none) => extractLoop ctx x es

/-- The names that are printed before anything is extracted. -/
def verboseLines (opts : Options) (entries : List TarEntry) : Bytes :=
  let shown := entries.filter fun e =>
    selected opts e.header.name && !escapes (clean e.header.name)
  unlines (shown.map fun e =>
    if e.header.typeflag = .dir ∧ e.header.name.getLast? ≠ some slash then e.header.name ++ str "/"
    else e.header.name)

/-- The deferred calls of `os.Chmod`. -/
def runDeferred : List Bytes → Sys Unit
  | [] => pure ()
  | target :: targets => do
    let _ ← setAttr target
    runDeferred targets

def getcwd : Sys (Except Errno Bytes) := call fun os => (.ok (slash :: unsplit os.cwd), os)

/-- `os.SameFile` of what two paths lead to. -/
def sameFileAs (p q : Bytes) : Sys Bool := fun os =>
  (match os.found (os.resolve true p), os.found (os.resolve true q) with
    | .ok (a, _), .ok (b, _) => os.fs.same a b
    | _, _ => false, os)

def getwd (pwd : Bytes) : Sys (Except Errno Bytes) :=
  if isAbs pwd then do
    match ← stat true dot with
    | .error e => pure (.error e)
    | .ok _ =>
      match ← stat true pwd with
      | .error _ => getcwd
      | .ok _ => do
        let same ← sameFileAs dot pwd
        if same then pure (.ok pwd) else getcwd
  else getcwd

structure Result where
  stats : List TarFileStat := []
  matchedAny : Bool := false
  hadSymlinkDependents : Bool := false
  err : Option Failure := none
  logOut : Bytes := []
  stdOut : Bytes := []
  errOut : Bytes := []
  deriving DecidableEq, Repr

def finish (opts : Options) (entries : List TarEntry) (x : Extraction) (err : Option Failure) :
    Result where
  stats := x.stats
  matchedAny := x.matchedAny
  hadSymlinkDependents := x.hadSymlinkDependents
  err := err.or (if opts.includeSet.isSome && !x.matchedAny then some .notFound else none)
  logOut := if opts.verbose then verboseLines opts entries else []
  stdOut := x.stdOut
  errOut := x.errOut

/-- `extractArchiveStream`. The error of `os.Getwd` is dropped. -/
def extractArchiveStream (opts : Options) (pwd : Bytes) (r : Input) : Sys Result := do
  let rootDir ← getwd pwd
  match r with
  | .empty => pure { err := some .shortRead }
  | .broken err => pure { err := some (.archive err) }
  | .entries es => do
    let (x, err) ← extractLoop ⟨opts, rootDir.toOption.getD [], allTargets es⟩ {} es
    runDeferred x.deferred
    pure (finish opts es x err)

/-! ## What is reported -/

/-- The entry is not passed over. -/
def processed (opts : Options) (name : Bytes) : Bool := selected opts name && !escapes (clean name)

def TarEntry.stat (e : TarEntry) : TarFileStat :=
  ⟨e.header.name, e.header.size, formatMode e.header.mode⟩

/-- The functions for the single types leave `stats` as it is. -/
abbrev KeepsStats (x : Extraction) (m : Sys (Extraction × Option Failure)) : Prop :=
  Sys.Triple (fun _ => True) m fun r _ => r.1.stats = x.stats

theorem keepsStats_pure (h : x'.stats = x.stats) : KeepsStats x (pure (x', err)) := fun _ _ => h

theorem copyToStdout_keepsStats (x : Extraction) (body : Bytes) :
    KeepsStats x (copyToStdout x body) := by
  unfold copyToStdout
  split
  · exact keepsStats_pure rfl
  · exact .bind_any fun _ => keepsStats_pure rfl

theorem extractDir_keepsStats (x : Extraction) (target : Bytes) :
    KeepsStats x (extractDir x target) := by
  refine .bind_any fun made => ?_
  cases made with
  | error e => exact keepsStats_pure rfl
  | ok u => exact keepsStats_pure rfl

theorem extractReg_keepsStats (opts : Options) (x : Extraction) (target body : Bytes) :
    KeepsStats x (extractReg opts x target body) := by
  refine .bind_any fun cleared => ?_
  split
  · refine .bind_any fun made => ?_
    cases made with
    | error e => exact keepsStats_pure rfl
    | ok u =>
      refine .bind_any fun written => ?_
      cases written with
      | error e => exact keepsStats_pure rfl
      | ok u => exact keepsStats_pure rfl
  · exact keepsStats_pure rfl

theorem extractSymlink_keepsStats (ctx : Context) (x : Extraction) (header : Header)
    (target : Bytes) :
    KeepsStats x (extractSymlink ctx x header target) := by
  unfold extractSymlink
  split
  · exact keepsStats_pure rfl
  · exact .bind_any fun _ => keepsStats_pure rfl

theorem extractLink_keepsStats (opts : Options) (x : Extraction) (header : Header)
    (target : Bytes) :
    KeepsStats x (extractLink opts x header target) := by
  simp only [extractLink]
  split_ifs
  · exact keepsStats_pure rfl
  · exact keepsStats_pure rfl
  · exact .bind_any fun _ => keepsStats_pure rfl

theorem extractTarget_keepsStats (ctx : Context) (x : Extraction) (e : TarEntry) (target : Bytes) :
    KeepsStats { x with stats := x.stats ++ [e.stat] } (extractTarget ctx x e target) := by
  simp only [extractTarget]
  split
  · exact copyToStdout_keepsStats _ _
  · exact keepsStats_pure rfl
  · exact extractDir_keepsStats _ _
  · exact extractReg_keepsStats _ _ _ _
  · exact extractSymlink_keepsStats _ _ _ _
  · exact extractLink_keepsStats _ _ _ _
  · exact keepsStats_pure rfl

/-- **One turn of the loop** reports the entry exactly if it is processed. -/
theorem extractEntry_stats (ctx : Context) (x : Extraction) (e : TarEntry) (os : Os) :
    (extractEntry ctx x e os).1.1.stats = x.stats ++
      ([e].filter (processed ctx.opts ·.header.name)).map TarEntry.stat := by
  unfold extractEntry
  by_cases hsel : selected ctx.opts e.header.name
  · by_cases hesc : escapes (clean e.header.name)
    · simp [processed, hsel, hesc]
    · have hstats := extractTarget_keepsStats ctx { x with matchedAny := true } e
        (clean e.header.name) os trivial
      simpa [processed, hsel, hesc] using hstats
  · simp [processed, hsel]

/-- **What is reported**: the entries that are processed, of those the loop gets to. Without an
error it gets to all. -/
theorem extractLoop_stats (ctx : Context) (x : Extraction) (es : List TarEntry) (os : Os) :
    ∃ seen, seen <+: es ∧ ((extractLoop ctx x es os).1.2 = none → seen = es) ∧
      (extractLoop ctx x es os).1.1.stats =
        x.stats ++ (seen.filter (processed ctx.opts ·.header.name)).map TarEntry.stat := by
  induction es generalizing x os with
  | nil => exact ⟨[], List.prefix_rfl, fun _ => rfl, (List.append_nil _).symm⟩
  | cons e es ih =>
    have hone := extractEntry_stats ctx x e os
    unfold extractLoop
    rw [Sys.bind_apply]
    revert hone
    obtain ⟨⟨x', err⟩, os'⟩ := extractEntry ctx x e os
    intro hone
    cases err with
    | some err => exact ⟨[e], ⟨es, rfl⟩, nofun, hone⟩
    | none =>
      obtain ⟨seen, hpre, hall, hstats⟩ := ih x' os'
      refine ⟨e :: seen, List.cons_prefix_cons.mpr ⟨rfl, hpre⟩, fun h =>
        congrArg _ (hall h), hstats.trans ?_⟩
      have hx : x'.stats = _ := hone
      rw [hx, List.append_assoc, ← List.map_append, ← List.filter_append]
      rfl

/-! ## Operands -/

/-- `strings.TrimPrefix(p, "./")` and `strings.TrimSuffix(p, "/")`. -/
def normalize (p : Bytes) : Bytes :=
  let p := trimPrefix p (str "./")
  if hasSuffix p (str "/") then p.dropLast else p

def buildIncludeSet (positional : List Bytes) : Option (List Bytes) :=
  if positional = [] then none else some (positional.map normalize)

/-- **What one wants**: an entry is processed if there are no operands, or one of them is its
name. -/
def Accepted (opts : Options) (name : Bytes) : Prop :=
  ∀ positional, positional = [] ∨ name ∈ positional →
    processed { opts with includeSet := buildIncludeSet positional } name

/-- The clean name stays inside the directory. -/
def StaysInside (name : Bytes) : Prop :=
  ¬ hasPrefix (clean name) (str "/") ∧ dotdot ∉ comps (clean name)

instance (name : Bytes) : Decidable (StaysInside name) := inferInstanceAs (Decidable (_ ∧ _))

theorem normalize_eq_self_iff (p : Bytes) :
    normalize p = p ↔ ¬ hasPrefix p (str "./") ∧ ¬ hasSuffix p (str "/") := by
  have hle : (normalize p).length ≤ (trimPrefix p (str "./")).length := by
    simp only [normalize]
    split <;> simp
  by_cases hp : hasPrefix p (str "./")
  · refine iff_of_false (fun heq => ?_) (by simp [hp])
    have hl : 2 ≤ p.length := (List.isPrefixOf_iff_prefix.mp hp).length_le
    rw [heq, trimPrefix, if_pos hp, List.length_drop] at hle
    change p.length ≤ p.length - 2 at hle
    omega
  · simp only [normalize, trimPrefix, hp]
    by_cases hsuffix : hasSuffix p (str "/")
    · have hl : 1 ≤ p.length := (List.isSuffixOf_iff_suffix.mp hsuffix).length_le
      refine iff_of_false (fun heq => ?_) (by simp [hsuffix])
      have hs := congrArg List.length heq
      simp [hsuffix] at hs
      omega
    · simp [hsuffix]

/-- **When a name is accepted**: it is not one that only begins with two dots, and an operand stays
as it is. -/
theorem accepted_iff {opts : Options} {name : Bytes}
    (hexcluded : isExcluded name opts.excludePatterns = false)
    (hin : StaysInside name) : Accepted opts name ↔
      ¬ hasPrefix (clean name) (str "..") ∧ ¬ hasPrefix name (str "./") ∧
          ¬ hasSuffix name (str "/") := by
  have hp (positional : List Bytes) : processed
    { opts with includeSet := buildIncludeSet positional } name ↔
      (positional = [] ∨ name ∈ positional.map normalize) ∧
        ¬ hasPrefix (clean name) (str "..") := by
    by_cases hnil : positional = [] <;>
      simp [processed, selected, escapes, buildIncludeSet, hexcluded, hin.1, hnil]
  rw [← normalize_eq_self_iff]
  simp only [Accepted, hp]
  constructor
  · intro h
    obtain ⟨hn, hup⟩ := h [name] (.inr (List.mem_singleton_self _))
    exact ⟨hup, by simpa [eq_comm] using hn⟩
  · rintro ⟨hup, hs⟩ positional hm
    exact ⟨hm.imp_right fun hm => List.mem_map.mpr ⟨name, hm, hs⟩, hup⟩

theorem accepted_plain : Accepted {} (str "a") :=
  (accepted_iff (by decide) (by decide)).mpr (by decide)

/-- The operand `./a` does not select the entry `./a`. -/
theorem not_accepted_dot : ¬ Accepted {} (str "./a") :=
  fun h => absurd (h [str "./a"] (.inr (by decide))) (by decide)

end GoPosix.Tar
