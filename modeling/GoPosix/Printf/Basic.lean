import GoPosix.Common.Escape
import GoPosix.Lib.Runtime
import GoPosix.Lib.Text

/-!
# printf

`Format` of `pkg/printf/printf.go`. The place in the format is what is left of it. What `fmt` and
`strconv` do with a number is a parameter; the format strings they are given are built here. The
state also records which argument every request was given (`taken`): `some i` is the argument number
`i`, and `none` the empty string for a missing one.
-/

namespace GoPosix.Printf

open Bytes Common MachineInt

/-- What `strconv` and `fmt` do. Floating-point numbers are of a type `F`. -/
structure Numbers (F : Type) where
  /-- `strconv.ParseInt(s, 0, 64)`, or `none` for an error. -/
  parseInt : Bytes → Option Int
  /-- `strconv.ParseUint(s, 0, 64)`. -/
  parseUint : Bytes → Option Nat
  /-- `strconv.ParseFloat(s, 64)`. -/
  parseFloat : Bytes → Option F
  zero : F
  sprintfInt : Bytes → Int → Bytes
  sprintfUint : Bytes → Nat → Bytes
  sprintfFloat : Bytes → F → Bytes

/-- `runState` without the format. -/
structure State where
  stdout : Bytes
  argIdx : Nat
  hadErr : Bool
  taken : List (Option Nat)

def State.start : State := ⟨[], 0, false, []⟩

def State.write (st : State) (text : Bytes) : State := { st with stdout := st.stdout ++ text }

/-- `formatError`. The message is put into the output, on a line of its own. -/
def State.formatError (st : State) (msg detail : Bytes) : State :=
  let st := if st.stdout ≠ [] ∧ st.stdout.getLast? ≠ some newline then st.write [newline] else st
  let text := if msg = str "invalid format" then detail ++ str ": " ++ msg else msg ++ str " '" ++
    detail ++ str "'"
  { st.write (str "printf: " ++ text ++ [newline]) with hadErr := true }

/-- `nextArg`. The index runs on, and the arguments are taken in a circle. -/
def nextArg (args : List Bytes) (st : State) : Bytes × State :=
  if args = [] then ([], { st with taken := st.taken ++ [none] })
  else
    (args.getD (st.argIdx % args.length) [],
      { st with argIdx := st.argIdx + 1, taken := st.taken ++ [some (st.argIdx % args.length)] })

/-! ## Conversion specifications -/

/-- A width or a precision: from an argument, or a number, which is negative if there is none. -/
inductive Field
  | star
  | number (n : Int)
  deriving DecidableEq

structure Spec where
  flags : Bytes
  width : Field
  precision : Option Field
  /-- The conversion specifier, unless the format ends before it. -/
  conv : Option UInt8
  deriving DecidableEq

def isFlag (b : UInt8) : Bool := b = 45 || b = 43 || b = 32 || b = 48 || b = 35

/-- The width that some digits are. A width that has become negative starts again. -/
def widthValue (digits : Bytes) : Int :=
  digits.foldl (fun n b => wrap64 ((if n < 0 then 0 else n) * 10 + (b.toNat - 48 : Int))) (-1)

def precisionValue (digits : Bytes) : Int :=
  digits.foldl (fun n b => wrap64 (n * 10 + (b.toNat - 48 : Int))) 0

/-- A width or a precision, and what is behind it. -/
def parseField (value : Bytes → Int) (f : Bytes) : Field × Bytes :=
  if f.head? = some 42 then (.star, f.tail)
  else (.number (value (f.takeWhile isDigit)), f.dropWhile isDigit)

def skipLength (f : Bytes) : Bytes :=
  match f.head? with
  | some 104 => if f.tail.head? = some 104 then f.tail.tail else f.tail
  | some 108 => if f.tail.head? = some 108 then f.tail.tail else f.tail
  | some 106 | some 122 | some 116 | some 76 => f.tail
  | _ => f

/-- The precision, if there is one, and what is behind it. -/
def parsePrecision (f : Bytes) : Option Field × Bytes :=
  if f.head? = some 46 then
    let (precision, f) := parseField precisionValue f.tail
    (some precision, f)
  else (none, f)

/-- A conversion specification behind its `%`, and what is behind it. -/
def parseSpec (f : Bytes) : Spec × Bytes :=
  let flags := f.takeWhile isFlag
  let (width, f) := parseField widthValue (f.dropWhile isFlag)
  let (precision, f) := parsePrecision f
  let f := skipLength f
  (⟨flags, width, precision, f.head?⟩, f.tail)

/-! ## Conversions -/

def unescapeChar (s : Bytes) : UInt8 :=
  match s with
  | [] => 0
  | c :: _ =>
    match simpleEscape c with
    | some e => e
    | none =>
      if c = 48 then 0
      else if 3 ≤ s.length ∧ isOctalDigit c then
        UInt8.ofNat (digitsValue 8 ((s.take 3).takeWhile isOctalDigit))
      else c

/-- What `parseInt`, `parseUint` and `parseFloat` share: a value, if the text is a number, and what
could not be read. -/
def parseWith {V : Type} (parse : Bytes → Option V) (zero : V) (s : Bytes) : V × Bytes :=
  let s := s.dropWhile (· = 32)
  if s = [] then (zero, [])
  else
    let s := if s.head? = some 43 then s.tail else s
    match parse s with
    | some v => (v, [])
    | none => (zero, s)

inductive Status
  | more
  | stop
  | panic
  deriving DecidableEq

/-- The number of an argument that is no character in single quotes, and the text that is reported
if it is invalid. A double quote alone panics. -/
def plainInt {F : Type} (lib : Numbers F) (arg : Bytes) : Option (Int × Option Bytes) :=
  if arg.head? = some 34 then
    match arg[1]? with
    | none => none
    | some c =>
      if 2 < arg.length ∧ c = 92 then some ((unescapeChar (arg.drop 2)).toNat, none)
        else some (c.toNat, none)
  else
    let (val, remaining) := parseWith lib.parseInt 0 arg
    if (remaining ≠ [] ∨ arg = [] ∧ remaining = []) ∧ 2 ≤ arg.length ∧ arg.head? = some 39 then
      some ((arg.getD 1 0).toNat, none)
    else if remaining = arg then some (0, some arg)
    else some (val, if remaining ≠ [] then some arg else none)

/-- What stands in single quotes, with an escape resolved. -/
def quotedChar (arg : Bytes) : Bytes :=
  let inner := (arg.drop 1).dropLast
  if 2 ≤ inner.length ∧ inner.head? = some 92 then runeString (unescapeChar inner.tail) else inner

def intArg {F : Type} (lib : Numbers F) (arg : Bytes) : Option (Int × Option Bytes) :=
  if 2 ≤ arg.length ∧ arg.head? = some 39 ∧ arg.getLast? = some 39 then
    match quotedChar arg with
    | c :: _ => some (c.toNat, none)
    | [] => plainInt lib []
  else plainInt lib arg

/-- The width in a format string for `fmt`, with the flag for a negative one. -/
def widthFlags (flags : Bytes) (width : Int) : Bytes × Int :=
  if width < 0 then (str "-" ++ flags, wrap64 (-width)) else (flags, width)

def precisionText (precision : Option Int) : Bytes :=
  match precision with
  | none => []
  | some p => str "." ++ if 0 ≤ p then itoaInt p else []

def intFormat (conv : UInt8) (flags : Bytes) (width : Int) (precision : Option Int) : Bytes :=
  let (flags, width) := widthFlags flags width
  let precision := precision.map (max 0)
  str "%" ++ flags ++ (if 0 ≤ width ∧ precision.isSome ∨ 0 < width then itoaInt width else []) ++
    precisionText precision ++ [if conv = 105 then 100 else conv]

def uintFormat (conv : UInt8) (flags : Bytes) (width : Int) (precision : Option Int) : Bytes :=
  let (flags, width) := widthFlags flags width
  str "%" ++ flags ++ (if 0 < width then itoaInt width else []) ++
    precisionText (precision.map (max 0)) ++ [conv]

/-- The format string of `formatFloat`. A negative precision counts as none. -/
def floatFormat (conv : UInt8) (flags : Bytes) (width : Int) (precision : Option Int) : Bytes :=
  let (flags, width) := widthFlags flags width
  str "%" ++ flags ++ (if 0 < width then itoaInt width else []) ++
    precisionText (precision.filter (0 ≤ ·)) ++ [conv]

def formatString (arg flags : Bytes) (width : Int) (precision : Option Int) : Bytes :=
  let arg := match precision with
    | some p => if 0 ≤ p ∧ p < arg.length then arg.take p.toNat else arg
    | none => arg
  let pad := List.replicate (width - arg.length).toNat 32
  if 0 ≤ width ∧ arg.length < width then if 45 ∈ flags then arg ++ pad else pad ++ arg else arg

section

variable {F : Type} (lib : Numbers F) (args : List Bytes)

def doIntConv (conv : UInt8) (flags : Bytes) (width : Int) (precision : Option Int) (st : State) :
    Status × State :=
  let (arg, st) := nextArg args st
  match intArg lib arg with
  | none => (.panic, st)
  | some (val, invalid) =>
    let st := match invalid with
      | some detail => st.formatError (str "invalid number") detail
      | none => st
    (.more, st.write (lib.sprintfInt (intFormat conv flags width precision) val))

/-- What `doUintConv` and `doFloatConv` share. -/
def doNumber {V : Type} (parse : Bytes → Option V) (zero : V) (print : V → Bytes) (st : State) :
    State :=
  let (arg, st) := nextArg args st
  let (val, remaining) := parseWith parse zero arg
  if remaining = arg then (st.formatError (str "invalid number") arg).write (print zero)
  else
    let st := if remaining ≠ [] then st.formatError (str "invalid number") arg else st
    st.write (print val)

/-- A width or a precision that an argument may give. -/
def resolve (field : Field) (st : State) : Int × State :=
  match field with
  | .star =>
    let (arg, st) := nextArg args st
    (if (atoi arg).2 then (atoi arg).1 else 0, st)
  | .number n => (n, st)

def resolvePrecision (precision : Option Field) (st : State) : Option Int × State :=
  match precision with
  | none => (none, st)
  | some field =>
    let (p, st) := resolve args field st
    (some p, st)

def convert (conv : UInt8) (flags : Bytes) (width : Int) (precision : Option Int) (st : State) :
    Status × State :=
  if conv = 100 ∨ conv = 105 then doIntConv lib args conv flags width precision st
  else if conv = 111 ∨ conv = 117 ∨ conv = 120 ∨ conv = 88 then
    (.more, doNumber args lib.parseUint 0
      (lib.sprintfUint (uintFormat conv flags width precision)) st)
  else if conv = 102 ∨ conv = 70 ∨ conv = 101 ∨ conv = 69 ∨ conv = 103 ∨ conv = 71 then
    (.more, doNumber args lib.parseFloat lib.zero
      (lib.sprintfFloat (floatFormat conv flags width precision)) st)
  else if conv = 115 then
    let (arg, st) := nextArg args st
    (.more, st.write (formatString arg flags width precision))
  else if conv = 99 then
    let (arg, st) := nextArg args st
    (.more, st.write (arg.take 1))
  else if conv = 37 then (.more, st.write [37])
  else if conv = 98 then
    let (arg, st) := nextArg args st
    (.more, st.write (expandEscapes .arg arg))
  else (.stop, st.formatError (str "invalid format") (str "%" ++ runeString conv))

def Spec.run (spec : Spec) (st : State) : Status × State :=
  let (width, st) := resolve args spec.width st
  let (precision, st) := resolvePrecision args spec.precision st
  match spec.conv with
  | none => (.stop, st.formatError (str "invalid format") (str "%" ++ spec.flags))
  | some conv => convert lib args conv spec.flags width precision st

/-! ## Passes -/

/-- `processOnePass` on what is left of the format. Every turn takes a byte at least. -/
def pass : (fuel : Nat) → (format : Bytes) → State → Status × State
  | 0, _, st | _ + 1, [], st => (.more, st)
  | fuel + 1, c :: f, st =>
    if c = 92 ∧ f.head? = some 99 then (.stop, st)
    else if c ≠ 37 then pass fuel f (st.write [c])
    else if f = [] then (.stop, st.formatError (str "invalid format") (str "%"))
    else if f.head? = some 37 then pass fuel f.tail (st.write [37])
    else
      match (parseSpec f).1.run lib args st with
      | (.more, st) => pass fuel (parseSpec f).2 st
      | (status, st) => (status, st)

/-- Where a run is: still going on, at its end, or panicked. -/
inductive Progress
  | running
  | done
  | panicked
  deriving DecidableEq

def loop (format : Bytes) : (fuel : Nat) → State → Progress × State
  | 0, st => (.running, st)
  | fuel + 1, st =>
    if format = [] then (.done, st)
    else
      match pass lib args format.length format st with
      | (.panic, st) => (.panicked, st)
      | (.stop, st) => (.done, st)
      | (.more, st) => if args.length ≤ st.argIdx then (.done, st) else loop format fuel st

def run (format : Bytes) (fuel : Nat) : Progress × State :=
  loop lib args (expandEscapes .format format) fuel .start

end

end GoPosix.Printf
