import GoPosix.Lib.Text

/-!
# Flags

`ParseFlags` reads the arguments of a command by its `FlagSpec`, which is compiled into a table of
the short names, indexed by the byte, and a list of the long ones; both lead to the index of a flag,
as an `int8` and as a `uint8`. A map of the result is a function, with the zero value where the map
has no entry.
-/

namespace GoPosix.Common

open Bytes

inductive FlagType
  | bool
  | value
  | optionalValue
  deriving DecidableEq, Repr

structure FlagDef where
  short : Bytes
  long : Bytes
  type : FlagType
  deriving DecidableEq, Repr

structure FlagError where
  exitCode : Nat
  msg : Bytes
  deriving DecidableEq, Repr

structure FlagSpec where
  defs : List FlagDef
  stopAtFirstNonFlag : Bool
  preProcess : Option (List Bytes → Except FlagError (List Bytes))

structure ParseResult where
  bools : Bytes → Bool
  values : Bytes → Bytes
  valuesList : Bytes → List Bytes
  count : Bytes → Nat
  positional : List Bytes
  stdin : Bool

def newParseResult : ParseResult :=
  ⟨fun _ => false, fun _ => [], fun _ => [], fun _ => 0, [], false⟩

namespace ParseResult

variable (res : ParseResult)

def has (name : Bytes) : Bool := res.bools name

def get (name : Bytes) : Bytes := res.values name

/-- One more occurrence of a flag without a value, under one of its names. -/
def mark (name : Bytes) : ParseResult :=
  { res with
    bools := Function.update res.bools name true
    count := Function.update res.count name (res.count name + 1) }

/-- A value, under one of the names of its flag. -/
def put (name value : Bytes) : ParseResult :=
  { res with
    values := Function.update res.values name value
    valuesList := Function.update res.valuesList name (res.valuesList name ++ [value])
    bools := Function.update res.bools name true }

def addPositional (args : List Bytes) : ParseResult :=
  { res with positional := res.positional ++ args }

/-- What both kinds of arguments do for a flag without a value. -/
def markFlag (cf : FlagDef) : ParseResult :=
  let res := res.mark cf.short
  if cf.long ≠ [] then res.mark cf.long else res

def putLong (cf : FlagDef) (value : Bytes) : ParseResult :=
  let res := if cf.short ≠ [] then res.put cf.short value else res
  res.put cf.long value

def putShort (cf : FlagDef) (value : Bytes) : ParseResult :=
  let res := if cf.short ≠ [] then res.put cf.short value else res
  if cf.long ≠ [] then res.put cf.long value else res

end ParseResult

/-! ## The compiled specification -/

structure CompiledSpec where
  /-- For the bytes below 128; negative if there is no such flag. -/
  shortIdx : UInt8 → Int
  longIdx : List (Bytes × Nat)
  defs : List FlagDef
  stopAtFirst : Bool

def toInt8 (i : Nat) : Int := (((i + 128) % 256 : Nat) : Int) - 128

def toUint8 (i : Nat) : Nat := i % 256

/-- One turn of the loop of `compile`. -/
def compileDef (cs : CompiledSpec) (i : Nat) (d : FlagDef) : CompiledSpec :=
  { cs with
    shortIdx :=
      match d.short with
      | [] => cs.shortIdx
      | b :: _ => if b < 128 then Function.update cs.shortIdx b (toInt8 i) else cs.shortIdx
    longIdx := if d.long ≠ [] then cs.longIdx ++ [(d.long, toUint8 i)] else cs.longIdx }

/-- The loop of `compile`, from the flag of an index on. -/
def compileFrom (cs : CompiledSpec) : (i : Nat) → List FlagDef → CompiledSpec
  | _, [] => cs
  | i, d :: defs => compileFrom (compileDef cs i d) (i + 1) defs

def FlagSpec.compile (spec : FlagSpec) : CompiledSpec :=
  compileFrom ⟨fun _ => -1, [], spec.defs, spec.stopAtFirstNonFlag⟩ 0 spec.defs

namespace CompiledSpec

variable (cs : CompiledSpec)

def lookupShort (b : UInt8) : Option FlagDef :=
  if b ≥ 128 then none
  else if cs.shortIdx b < 0 then none
  else cs.defs[(cs.shortIdx b).toNat]?

def lookupLong (name : Bytes) : Option FlagDef :=
  (cs.longIdx.find? fun entry => entry.1 = name).bind fun entry => cs.defs[entry.2]?

/-! ## Reading the arguments -/

/-- The verb `%c` for a byte, which is printed as a character. -/
def runeOf (b : UInt8) : Bytes := if b < 128 then [b] else [192 + b / 64, 128 + b % 64]

/-- The name of a long flag, and the value behind the first `=`. -/
def cutValue : Bytes → Bytes × Option Bytes
  | [] => ([], none)
  | c :: s => if c = 61 then ([], some s) else ((c :: (cutValue s).1), (cutValue s).2)

/-- A long flag, without its dashes. The second part of the result says whether the next argument
was its value. -/
def parseLong (arg : Bytes) (next : Option Bytes) (res : ParseResult) :
    Except FlagError (ParseResult × Bool) :=
  let name := (cutValue arg).1
  match cs.lookupLong name with
  | none => .error ⟨2, str "unknown flag: --" ++ name⟩
  | some cf =>
    if cf.type = .bool then .ok (res.markFlag cf, false)
    else
      match (cutValue arg).2 with
      | some value => .ok (res.putLong cf value, false)
      | none =>
        if cf.type = .optionalValue then .ok (res.putLong cf [], false)
        else
          match next with
          | none => .error ⟨2, str "flag --" ++ name ++ str " requires a value"⟩
          | some value => .ok (res.putLong cf value, true)

/-- The short flags of an argument, which is `chars` without the dash. -/
def parseShort (next : Option Bytes) :
    (chars : Bytes) → ParseResult → Except FlagError (ParseResult × Bool)
  | [], res => .ok (res, false)
  | b :: remainder, res =>
    match cs.lookupShort b with
    | none => .error ⟨2, str "unknown flag: -" ++ runeOf b⟩
    | some cf =>
      if cf.type = .bool then parseShort next remainder (res.markFlag cf)
      else if remainder ≠ [] then .ok (res.putShort cf remainder, false)
      else if cf.type = .optionalValue then .ok (res.putShort cf [], false)
      else
        match next with
        | none => .error ⟨2, str "flag -" ++ cf.short ++ str " requires a value"⟩
        | some value => .ok (res.putShort cf value, true)

/-- What an argument is, at a place where a flag is expected. -/
inductive Kind
  | endOfFlags
  | stdin
  | operand
  | long (arg : Bytes)
  | short (chars : Bytes)
  deriving DecidableEq

def kind : Bytes → Kind
  | [] => .operand
  | [c] => if c = 45 then .stdin else .operand
  | c :: d :: s =>
    if c ≠ 45 then .operand
    else if d ≠ 45 then .short (d :: s)
    else if s = [] then .endOfFlags
    else .long s

def parseArgs : List Bytes → ParseResult → Except FlagError ParseResult
  | [], res => .ok res
  | arg :: args, res =>
    match kind arg with
    | .endOfFlags => .ok (res.addPositional args)
    | .stdin => parseArgs args { res.addPositional [arg] with stdin := true }
    | .operand =>
      if cs.stopAtFirst then .ok (res.addPositional (arg :: args))
      else parseArgs args (res.addPositional [arg])
    | .long name =>
      match cs.parseLong name args.head? res with
      | .error e => .error e
      | .ok (res, false) => parseArgs args res
      | .ok (res, true) =>
        match args with
        | [] => .ok res
        | _ :: args => parseArgs args res
    | .short chars =>
      match cs.parseShort args.head? chars res with
      | .error e => .error e
      | .ok (res, false) => parseArgs args res
      | .ok (res, true) =>
        match args with
        | [] => .ok res
        | _ :: args => parseArgs args res

end CompiledSpec

def parseFlags (args : List Bytes) (spec : FlagSpec) : Except FlagError ParseResult :=
  match spec.preProcess with
  | none => spec.compile.parseArgs args newParseResult
  | some preProcess =>
    match preProcess args with
    | .error e => .error e
    | .ok args => spec.compile.parseArgs args newParseResult

end GoPosix.Common
