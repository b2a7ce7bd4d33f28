import GoPosix.Lib.Vfs.Same

/-!
# cp

The model of `copySingle`, `copyRegularFile`, `copyDir` and `run` in `pkg/cp/cp.go`. A program works
on `Run`: the system, the copies reported so far, the table of hard links and the errors. Modes and
times of files, the texts of errors, the rendering of the report and the options `-i` and `-f`,
which do nothing, are left out. There is one device.

`steps` is read by no function here: the calls that can change or remove what was there before, each
with the system and the report before it. `copyDir` calls itself for the directories it finds; the
fuel bounds the depth.
-/

namespace GoPosix.Cp

open Bytes Vfs Filepath

inductive SymlinkMode
  | preserve
  | follow
  | followArgs
  deriving DecidableEq, Repr

structure Options where
  a : Bool
  r : Bool
  R : Bool
  p : Bool
  d : Bool
  P : Bool
  L : Bool
  H : Bool
  parents : Bool
  deriving DecidableEq, Repr

def Options.none : Options := ⟨false, false, false, false, false, false, false, false, false⟩

/-- What `-a` stands for. -/
def Options.expand (o : Options) : Options :=
  if o.a then { o with d := true, r := true, p := true } else o

def Options.recursive (o : Options) : Bool := o.r || o.R

def Options.mode (o : Options) : SymlinkMode :=
  if o.L then .follow
  else if o.H then .followArgs
  else if o.P || o.d then .preserve
  else if o.recursive then .preserve
  else .follow

/-- `CopyRecord`. The report has the two paths; `asLink` says for the proofs that a symbolic link
has been copied as such. -/
structure CopyRecord where
  src : Bytes
  dst : Bytes
  asLink : Bool
  deriving DecidableEq, Repr

/-- A call that may do harm: opening the destination of a copy, removing what is there, and making a
hard link to the first copy instead of another one. -/
inductive Act
  | write (src dst : Bytes)
  | remove (dst : Bytes)
  | link (src first dst : Bytes)
  deriving DecidableEq, Repr

structure View where
  os : Os
  copied : List CopyRecord

structure Step extends View where
  act : Act

inductive CpErr
  | errno (e : Errno)
  | missingOperand
  | notDirectory (dst : Bytes)
  | omitting (src : Bytes)
  | timeout
  deriving DecidableEq, Repr

structure Run extends View where
  /-- `hardLinkMap`, with the last entry first. -/
  hardLinks : List (Ino × Bytes)
  errors : List CpErr
  steps : List Step

def Run.start (os : Os) : Run := ⟨⟨os, []⟩, [], [], []⟩

abbrev CpM := StateM Run

def sys {α : Type} (m : Sys α) : CpM α := fun r => ((m r.os).1, { r with os := (m r.os).2 })

def note (act : Act) : CpM Unit := modify fun r => { r with steps := r.steps ++ [⟨r.toView, act⟩] }

def report (rec : CopyRecord) : CpM Unit := modify fun r => { r with copied := r.copied ++ [rec] }

def fail (e : CpErr) : CpM Unit := modify fun r => { r with errors := r.errors ++ [e] }

abbrev Outcome := Except CpErr Unit

/-! ## Files and links -/

/-- The destination is opened, filled and given the times of the source. -/
def copyInto (input : Handle) (dst : Bytes) (preserve : Bool) : Sys (Except Errno Unit) := do
  match ← openWrite true dst with
  | .error e => return .error e
  | .ok output =>
    match ← copy output input with
    | .error e => return .error e
    | .ok () => if preserve then setAttr dst else return .ok ()

def copyRegularFile (src dst : Bytes) (preserve : Bool) : CpM Outcome := do
  match ← sys (openRead src) with
  | .error e => return .error (.errno e)
  | .ok input =>
    note (.write src dst)
    match ← sys (copyInto input dst preserve) with
    | .error e => return .error (.errno e)
    | .ok () => return .ok ()

def copyFile (src dst : Bytes) (preserve : Bool) : CpM Outcome := do
  match ← copyRegularFile src dst preserve with
  | .error e => return .error e
  | .ok () =>
    report ⟨src, dst, false⟩
    return .ok ()

/-- What is at the destination makes room for a symbolic link. -/
def replaceLink (target dst : Bytes) : Sys (Except Errno Unit) := do
  let _ ← remove dst
  symlink target dst

def copyLink (src dst : Bytes) : CpM Outcome := do
  match ← sys (readlink src) with
  | .error e => return .error (.errno e)
  | .ok target =>
    note (.remove dst)
    match ← sys (replaceLink target dst) with
    | .error e => return .error (.errno e)
    | .ok () =>
      report ⟨src, dst, true⟩
      return .ok ()

/-! ## Directories -/

/-- An entry of a directory, with a way to copy a directory. -/
def copyEntry (below : (src dst : Bytes) → CpM Outcome) (preserve : Bool) (src dst : Bytes) :
    Node → CpM Outcome
  | .dir => below src dst
  | .symlink _ => copyLink src dst
  | _ => copyFile src dst preserve

def copyEntries (below : (src dst : Bytes) → CpM Outcome) (mode : SymlinkMode) (preserve : Bool)
    (src dst : Bytes) : List Name → CpM Outcome
  | [] => return .ok ()
  | name :: names => do
    let srcPath := join [src, name]
    let dstPath := join [dst, name]
    match ← sys (stat (mode = .follow) srcPath) with
    | .error e => return .error (.errno e)
    | .ok entryInfo =>
      match ← copyEntry below preserve srcPath dstPath entryInfo with
      | .error e => return .error e
      | .ok () => copyEntries below mode preserve src dst names

def copyDir (mode : SymlinkMode) (preserve : Bool) : (fuel : Nat) → (src dst : Bytes) → CpM Outcome
  | 0, _, _ => return .error .timeout
  | fuel + 1, src, dst => do
    match ← sys (stat true src) with
    | .error e => return .error (.errno e)
    | .ok _ =>
      match ← sys (mkdirAll dst) with
      | .error e => return .error (.errno e)
      | .ok () =>
        match ← sys (readDir src) with
        | .error e => return .error (.errno e)
        | .ok names => copyEntries (copyDir mode preserve fuel) mode preserve src dst names

def copySingle (fuel : Nat) (src dst : Bytes) (mode : SymlinkMode)
    (isArg preserve recursive : Bool) :
    CpM Outcome := do
  let followThisLink := mode = .follow || (mode = .followArgs && isArg)
  match ← sys (stat followThisLink src) with
  | .error e => return .error (.errno e)
  | .ok .dir =>
    if recursive then copyDir mode preserve fuel src dst else return .error (.omitting src)
  | .ok _ =>
    match ← sys (lstat src) with
    | .ok (.symlink _) => if followThisLink then copyFile src dst preserve else copyLink src dst
    | _ => copyFile src dst preserve

/-! ## Operands -/

/-- What is at the destination is removed, if it can be. -/
def clear (dst : Bytes) : CpM Unit := do
  note (.remove dst)
  let _ ← sys (remove dst)

/-- How the loop over the operands goes on: with the next one, or not at all. -/
inductive Control
  | next (exitCode : Nat)
  | stop (exitCode : Nat)
  deriving DecidableEq, Repr

/-- The end of an operand: an error is printed, and the loop goes on. -/
def finish (outcome : Outcome) : CpM Control := do
  match outcome with
  | .ok () => return .next 0
  | .error .timeout => return .stop 1
  | .error e =>
    fail e
    return .next 1

def parentsOperand (fuel : Nat) (o : Options) (dst src : Bytes) : CpM Control := do
  match ← sys (stat true dst) with
  | .error e =>
    fail (.errno e)
    return .stop 1
  | .ok .dir =>
    let cleanSrc := clean src
    let relSrc := if isAbs cleanSrc then cleanSrc.drop 1 else cleanSrc
    let dstTarget := join [dst, relSrc]
    match ← sys (mkdirAll (dir dstTarget)) with
    | .error e =>
      fail (.errno e)
      return .next 1
    | .ok () => finish (← copySingle fuel src dstTarget o.mode true o.p o.recursive)
  | .ok _ =>
    fail (.notDirectory dst)
    return .stop 1

def targetOf (dst src : Bytes) : CpM Bytes := do
  match ← sys (stat true dst) with
  | .ok .dir => return join [dst, base src]
  | _ => return dst

def linkTo (src first dstTarget : Bytes) : CpM Bool := do
  note (.link src first dstTarget)
  match ← sys (link first dstTarget) with
  | .error _ => return false
  | .ok () =>
    report ⟨src, dstTarget, false⟩
    return true

/-- The same, in the place of what is there. -/
def linkFirst (src first dstTarget : Bytes) : CpM Bool := do
  clear dstTarget
  linkTo src first dstTarget

/-- A hard link, if there is a first copy. -/
def linkKnown (src dstTarget : Bytes) : Option Bytes → CpM Bool
  | some first => linkFirst src first dstTarget
  | none => return false

/-- Hard links are preserved: the second name of an operand becomes a link. The table is written
before the copy. -/
def preserveLink (src dstTarget : Bytes) : CpM Bool := do
  match ← sys (lstatIno src) with
  | .ok (.file _, some ino) =>
    if ← linkKnown src dstTarget ((← get).hardLinks.lookup ino) then return true
    else
      modify fun r => { r with hardLinks := (ino, dstTarget) :: r.hardLinks }
      return false
  | _ => return false

def operand (fuel : Nat) (o : Options) (dst src : Bytes) : CpM Control := do
  let dstTarget ← targetOf dst src
  if ← preserveLink src dstTarget then return .next 0
  else finish (← copySingle fuel src dstTarget o.mode true o.p o.recursive)

def operands (fuel : Nat) (o : Options) (dst : Bytes) : (exitCode : Nat) → List Bytes → CpM Nat
  | exitCode, [] => return exitCode
  | exitCode, src :: srcs => do
    match ← (if o.parents then parentsOperand fuel o dst src else operand fuel o dst src) with
    | .stop code => return code
    | .next code => operands fuel o dst (if code = 0 then exitCode else code) srcs

/-- `run` on the options and the operands; the last operand is the destination. -/
def run (fuel : Nat) (o : Options) (positional : List Bytes) : CpM Nat := do
  match positional.getLast? with
  | some dst =>
    if positional.length < 2 then
      fail .missingOperand
      return 1
    else operands fuel o.expand dst 0 positional.dropLast
  | none =>
    fail .missingOperand
    return 1

end GoPosix.Cp
