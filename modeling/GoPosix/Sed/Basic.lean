import GoPosix.Lib.Text
import GoPosix.Lib.Strconv

/-!
# The commands of sed

The state of the engine, the addresses, and what each command does to the state. A command says how
to go on: with the next instruction, at its label, from the start of the script (`D`), or not at all
(`Flow`). What the engine does to files is recorded as a list of events. What it reads is given as
the bytes that a file yields.
-/

namespace GoPosix.Sed

open Bytes

/-! ## Scripts -/

/-- A compiled regular expression, as the engine uses it. -/
structure Regexp where
  matchString : Bytes → Bool
  replaceAllString : (src repl : Bytes) → Bytes
  findStringIndex : Bytes → Option (Nat × Nat)
  findAllStringIndex : Bytes → List (Nat × Nat)

/-- `Address`. A number may be counted from the line at which a range begins (`+N`), then `step` is
positive. An empty regular expression stands for the last one that was used. -/
inductive Address where
  | line (line step : Nat)
  | last
  | regexp (re : Option Regexp)

/-- The addresses of an instruction. The engine keeps its notes about ranges under the instruction,
which `key` stands for. -/
structure Selector where
  addr1 : Option Address
  addr2 : Option Address
  addressInvert : Bool
  key : Nat

structure Substitution where
  regexp : Option Regexp
  repl : Bytes
  global : Bool
  print : Bool
  subNum : Nat
  wFile : Bytes

/-- The commands and their arguments, in the order of `execFlat`. The commands `r` and `l` are
parsed, and do nothing. -/
inductive Command where
  | label (name : Bytes)
  | substitute (s : Substitution)
  | print
  | printFirst
  | delete
  | deleteFirst
  | next
  | appendNext
  | append (text : Bytes)
  | insert (text : Bytes)
  | change (text : Bytes)
  | quit
  | lineNumber
  | hold
  | holdAppend
  | get
  | getAppend
  | exchange
  | branch (label : Bytes)
  | branchIf (label : Bytes)
  | branchUnless (label : Bytes)
  | write (file : Bytes)
  | readFile (file : Bytes)
  | list

/-! ## The engine -/

inductive Stream where
  | stdout
  | stderr
  | temp (path : Bytes)
  | file (path : Bytes)
  deriving DecidableEq, Repr

inductive Event where
  | write (stream : Stream) (data : Bytes)
  | truncate (path : Bytes)
  | create (path : Bytes)
  | rename (src dst : Bytes)
  deriving DecidableEq, Repr

/-- The options of a run, and which files can be opened for appending. -/
structure Options where
  suppress : Bool
  inPlace : Bool
  canAppend : Bytes → Bool

/-- `engineState`. The notes about ranges are functions of the keys; `addr2Line` holds what a `+N`
address has been set to. The lines `taken` into the pattern space are recorded here only. -/
structure Engine where
  patSpace : Bytes
  holdSpace : Bytes
  lineNum : Nat
  isEOF : Bool
  substituted : Bool
  skipRead : Bool
  out : Stream
  fileCount : Nat
  fileIdx : Nat
  currentFile : Bytes
  tmpFile : Option Bytes
  lastRegex : Option Regexp
  pendingAppend : List Bytes
  addrState : Nat → Bool
  matchedLineAddrs : Nat → Bool
  addr2Line : Nat → Nat
  reader : Bytes
  hasTrailingNewline : Bool
  nextHasTrailingNewline : Bool
  nextLine : Bytes
  hasNext : Bool
  lastLacked : Bytes → Bool
  events : List Event
  taken : List (Option Bytes)

namespace Engine

def initial (fileCount : Nat) : Engine where
  patSpace := []
  holdSpace := []
  lineNum := 0
  isEOF := false
  substituted := false
  skipRead := false
  out := .stdout
  fileCount := fileCount
  fileIdx := 0
  currentFile := []
  tmpFile := none
  lastRegex := none
  pendingAppend := []
  addrState := fun _ => false
  matchedLineAddrs := fun _ => false
  addr2Line := fun _ => 0
  reader := []
  hasTrailingNewline := false
  nextHasTrailingNewline := false
  nextLine := []
  hasNext := false
  lastLacked := fun _ => false
  events := []
  taken := []

/-! ### Output -/

def emit (w : Stream) (data : Bytes) (e : Engine) : Engine :=
  { e with events := e.events ++ [.write w data] }

def setLacked (streamID : Bytes) (lacked : Bool) (e : Engine) : Engine :=
  { e with lastLacked := Function.update e.lastLacked streamID lacked }

/-- The newline that the last line of a stream has been left without. -/
def endLine (w : Stream) (streamID : Bytes) (e : Engine) : Engine :=
  if e.lastLacked streamID then e.emit w (str "\n") else e

def printStream (w : Stream) (s streamID : Bytes) (e : Engine) : Engine :=
  let e := (e.endLine w streamID).emit w s
  if e.hasTrailingNewline then (e.emit w (str "\n")).setLacked streamID false
  else e.setLacked streamID true

def streamID (o : Options) (e : Engine) : Bytes := if o.inPlace then e.currentFile else str "stdout"

def printLine (o : Options) (s : Bytes) (e : Engine) : Engine :=
  e.printStream e.out s (e.streamID o)

def printText (o : Options) (s : Bytes) (e : Engine) : Engine :=
  ((e.endLine e.out (e.streamID o)).emit e.out (s ++ str "\n")).setLacked (e.streamID o) false

def autoPrint (o : Options) (e : Engine) : Engine :=
  if o.suppress then e else e.printLine o e.patSpace

/-- A line appended to a file, if the file can be opened. -/
def printFile (o : Options) (file : Bytes) (e : Engine) : Engine :=
  if o.canAppend file then e.printStream (.file file) e.patSpace file else e

/-! ### Input -/

/-- The line ahead, if there is one. -/
def next? (e : Engine) : Option Bytes := if e.hasNext then some e.nextLine else none

/-- `ReadString('\n')`: a line with its newline, and what is left. -/
def readString (r : Bytes) : Bytes × Bytes :=
  match indexByte r newline with
  | some i => (r.take (i + 1), r.drop (i + 1))
  | none => (r, [])

/-- The line ahead. At the end of the file the old one stays, unless it is cleared. -/
def lookAhead (o : Options) (clear : Bool) (e : Engine) : Engine :=
  let (lineStr, rest) := readString e.reader
  let e := { e with reader := rest }
  let e :=
    if lineStr.length > 0 then
      if hasSuffix lineStr (str "\n") then
        { e with nextHasTrailingNewline := true, nextLine := dropCR lineStr.dropLast, hasNext :=
          true }
      else { e with nextHasTrailingNewline := false, nextLine := lineStr, hasNext := true }
    else { e with hasNext := false, nextLine := if clear then [] else e.nextLine }
  { e with isEOF := !e.hasNext && (o.inPlace || e.fileIdx == e.fileCount - 1) }

/-! ### Addresses -/

def matchAddress (addr : Address) (e : Engine) : Bool × Engine :=
  match addr with
  | .line line _ => (e.lineNum == line, e)
  | .last => (e.isEOF, e)
  | .regexp re =>
    match re <|> e.lastRegex with
    | some re => (re.matchString e.patSpace, { e with lastRegex := some re })
    | none => (false, e)

/-- Whether a range that is not open begins. -/
def matchStart (addr1 : Address) (key : Nat) (e : Engine) : Bool × Engine :=
  match addr1 with
  | .line line _ =>
    if e.lineNum ≥ line ∧ e.matchedLineAddrs key = false then
      (true, { e with matchedLineAddrs := Function.update e.matchedLineAddrs key true })
    else (false, e)
  | addr1 => e.matchAddress addr1

def openRange (addr2 : Address) (key : Nat) (e : Engine) : Engine :=
  let e := { e with addrState := Function.update e.addrState key true }
  match addr2 with
  | .line _ step =>
    if step > 0 then { e with addr2Line := Function.update e.addr2Line key (e.lineNum + step) }
      else e
  | _ => e

/-- Whether an open range ends with this line. -/
def matchEnd (addr2 : Address) (key : Nat) (e : Engine) : Bool × Engine :=
  match addr2 with
  | .line line step => (e.lineNum ≥ (if step > 0 then e.addr2Line key else line), e)
  | addr2 => e.matchAddress addr2

/-- Whether a range is open, after it has been opened if it begins here. -/
def beginRange (addr1 addr2 : Address) (key : Nat) (e : Engine) : Bool × Engine :=
  if e.addrState key then (true, e)
  else
    let (start, e) := e.matchStart addr1 key
    (start, if start then e.openRange addr2 key else e)

def closeRange (addr2 : Address) (key : Nat) (e : Engine) : Engine :=
  let (ends, e) := e.matchEnd addr2 key
  if ends then { e with addrState := Function.update e.addrState key false } else e

def matchRange (addr1 addr2 : Address) (key : Nat) (e : Engine) : Bool × Engine :=
  let (active, e) := e.beginRange addr1 addr2 key
  (active, if active then e.closeRange addr2 key else e)

def shouldRun (sel : Selector) (e : Engine) : Bool × Engine :=
  match sel.addr1, sel.addr2 with
  | none, _ => (!sel.addressInvert, e)
  | some addr1, none =>
    let (hit, e) := e.matchAddress addr1
    (hit != sel.addressInvert, e)
  | some addr1, some addr2 =>
    let (hit, e) := e.matchRange addr1 addr2 sel.key
    (hit != sel.addressInvert, e)

end Engine

/-! ## What a command does -/

/-- The ways in which `execFlat` ends: at the end of the script, or with one of its errors. -/
inductive Stop where
  | finished
  | next
  | quit
  | quitNoPrint
  deriving DecidableEq, Repr

/-- How to go on after a command. -/
inductive Flow where
  | on
  | jump
  | restart
  | stop (s : Stop)
  deriving DecidableEq, Repr

/-- What a match from `loc.1` to `loc.2` is replaced with. -/
def replaceAt (re : Regexp) (repl s : Bytes) (loc : Nat × Nat) : Bytes :=
  s.take loc.1 ++ re.replaceAllString ((s.take loc.2).drop loc.1) repl ++ s.drop loc.2

/-- The pattern space after a substitution by `re`, which matches. -/
def Substitution.replace (s : Substitution) (re : Regexp) (patSpace : Bytes) : Bytes :=
  if s.global then re.replaceAllString patSpace s.repl
  else if s.subNum > 0 then
    match (re.findAllStringIndex patSpace)[s.subNum - 1]? with
    | some loc => replaceAt re s.repl patSpace loc
    | none => patSpace
  else
    match re.findStringIndex patSpace with
    | some loc => replaceAt re s.repl patSpace loc
    | none => patSpace

namespace Engine

def substitute (o : Options) (s : Substitution) (e : Engine) : Engine :=
  match s.regexp <|> e.lastRegex with
  | none => e
  | some re =>
    let e := { e with lastRegex := some re }
    if re.matchString e.patSpace then
      let e := { e with substituted := true, patSpace := s.replace re e.patSpace }
      let e := if s.print then e.printLine o e.patSpace else e
      if s.wFile ≠ [] then e.printFile o s.wFile else e
    else e

/-- The line ahead becomes the pattern space, or is appended to it. -/
def feed (o : Options) (patSpace : Bytes) (e : Engine) : Engine :=
  lookAhead o true { e with
    patSpace, hasTrailingNewline := e.nextHasTrailingNewline, lineNum := e.lineNum + 1,
    taken := e.taken ++ [e.next?] }

/-- The flag that `t` and `T` ask for is reset by the question. -/
def testSubstituted (jump : Bool → Bool) (e : Engine) : Flow × Engine :=
  (if jump e.substituted then .jump else .on, { e with substituted := false })

end Engine

def Command.exec (o : Options) (c : Command) (e : Engine) : Flow × Engine :=
  match c with
  | .label _ => (.on, e)
  | .substitute s => (.on, e.substitute o s)
  | .print => (.on, e.printLine o e.patSpace)
  | .printFirst =>
    match indexByte e.patSpace newline with
    | some idx => (.on, e.emit e.out (e.patSpace.take (idx + 1)))
    | none => (.on, e.printLine o e.patSpace)
  | .delete => (.stop .next, e)
  | .deleteFirst =>
    match indexByte e.patSpace newline with
    | some idx => (.restart, { e with patSpace := e.patSpace.drop (idx + 1), skipRead := true })
    | none => (.stop .next, e)
  | .next =>
    let e := e.autoPrint o
    if e.isEOF then (.stop .quitNoPrint, e) else (.on, e.feed o e.nextLine)
  | .appendNext =>
    if e.isEOF then (.stop .quit, e)
    else (.on, e.feed o (e.patSpace ++ str "\n" ++ e.nextLine))
  | .append text => (.on, { e with pendingAppend := e.pendingAppend ++ [text] })
  | .insert text => (.on, e.printText o text)
  | .change text => (.stop .next, e.printText o text)
  | .quit => (.stop .quit, e)
  | .lineNumber => (.on, e.emit e.out (itoa e.lineNum ++ str "\n"))
  | .hold => (.on, { e with holdSpace := e.patSpace })
  | .holdAppend => (.on, { e with holdSpace := e.holdSpace ++ str "\n" ++ e.patSpace })
  | .get => (.on, { e with patSpace := e.holdSpace })
  | .getAppend => (.on, { e with patSpace := e.patSpace ++ str "\n" ++ e.holdSpace })
  | .exchange => (.on, { e with patSpace := e.holdSpace, holdSpace := e.patSpace })
  | .branch _ => (.jump, e)
  | .branchIf _ => e.testSubstituted id
  | .branchUnless _ => e.testSubstituted not
  | .write file => (.on, if file ≠ [] then e.printFile o file else e)
  | .readFile _ => (.on, e)
  | .list => (.on, e)

def Command.target? : Command → Option Bytes
  | .branch l | .branchIf l | .branchUnless l => some l
  | _ => none

theorem Command.exec_ne_jump {c : Command} {e : Engine} (h : c.target? = none) :
    (c.exec o e).1 ≠ .jump := by
  cases c <;> grind [Command.exec, Command.target?]

end GoPosix.Sed
