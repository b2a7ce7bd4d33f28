import GoPosix.Lib.Strconv
import GoPosix.Lib.Text

/-!
# split

`Run` of `pkg/split/split.go`. The files that the run writes are a map from names to texts: a name
that is given twice is one file, which the second `os.Create` empties. Creating a file may fail;
every write to it is taken. Bytes are read through a buffer, and a read may give fewer bytes than it
is asked for. The lines are those a `bufio.Scanner` delivers. A read that fails is left out: `Run`
returns its error.
-/

namespace GoPosix.Split

open Bytes

/-- The parameters of `Run` but the input. -/
structure Mode where
  filePrefix : Bytes
  linesPerFile : Int
  bytesPerFile : Int
  suffixLen : Nat
  numeric : Bool
  filter : Bytes

/-- `SplitResult`, the error it comes with, and the files that were written. -/
structure Result where
  files : List Bytes
  chunks : Nat
  err : Option Bytes
  disk : Bytes → Option Bytes

/-! ## Names -/

/-- `fmt.Sprintf` for a format `%0<width>d`. A width of too many digits is not read: then the verb
is missing and the number is left over. -/
def sprintfPadded (width n : Nat) : Bytes :=
  if 1000000 < width / 10 then str "%!(NOVERB)%!(EXTRA int=" ++ itoa n ++ str ")"
  else List.replicate (width - (itoa n).length) 48 ++ itoa n

/-- The letters of `n` in base 26, from the last one on. -/
def alphabetic : (suffixLen n : Nat) → Bytes
  | 0, _ => []
  | suffixLen + 1, n => alphabetic suffixLen (n / 26) ++ [UInt8.ofNat (97 + n % 26)]

def generateSuffix (n suffixLen : Nat) (numeric : Bool) : Bytes :=
  if numeric then sprintfPadded suffixLen n else alphabetic suffixLen n

def Mode.name (m : Mode) (n : Nat) : Bytes := m.filePrefix ++ generateSuffix n m.suffixLen m.numeric

/-- The suffix number `n` is too long. -/
def Mode.overflows (m : Mode) (n : Nat) : Bool :=
  m.suffixLen < (generateSuffix n m.suffixLen m.numeric).length

/-! ## Files -/

structure State where
  files : List Bytes
  chunkIdx : Nat
  disk : Bytes → Option Bytes

def State.start : State := ⟨[], 0, fun _ => none⟩

def State.next (s : State) : State := { s with chunkIdx := s.chunkIdx + 1 }

def State.result (s : State) (err : Option Bytes) : Result := ⟨s.files, s.chunkIdx, err, s.disk⟩

section

variable (m : Mode) (creat : Nat → Option Bytes)

/-- `os.Create` for the file of the current chunk, which fails with the error `creat` gives, if any.
The file is empty then, and listed. -/
def create (s : State) : Except Bytes State :=
  match creat s.chunkIdx with
  | some err => .error (str "cannot create " ++ m.name s.chunkIdx ++ str ": " ++ err)
  | none => .ok { s with
        files := s.files ++ [m.name s.chunkIdx]
        disk := Function.update s.disk (m.name s.chunkIdx) (some []) }

/-- A write to the file of the current chunk. With a filter there is no such file. -/
def Mode.write (data : Bytes) (s : State) : State :=
  if m.filter ≠ [] then s
  else
    { s with
      disk := Function.update s.disk (m.name s.chunkIdx)
        ((s.disk (m.name s.chunkIdx)).map (· ++ data)) }

/-! ## Bytes -/

def bufSize : Nat := 32 * 1024

/-- The bytes of one chunk, what is left behind them, and whether the end of the input was met. A
read gets at least one byte, and perhaps no more than `short` says; the end is reported by a read of
its own. -/
def readChunk (short : Nat → Nat) : (fuel remaining : Nat) → (data : Bytes) → Bytes × Bytes × Bool
  | 0, _, data => ([], data, false)
  | fuel + 1, remaining, data =>
    if remaining = 0 then ([], data, false)
    else if data = [] then ([], [], true)
    else
      let toRead := min bufSize remaining
      let n := min (min toRead (max 1 (short data.length))) data.length
      let (chunk, rest, eof) := readChunk short fuel (remaining - n) (data.drop n)
      (data.take n ++ chunk, rest, eof)

/-- A new file for a chunk of bytes, if they are not filtered. -/
def openChunk (s : State) : Except Bytes State :=
  if m.filter ≠ [] then .ok s else create m creat s

def splitBytes (short : Nat → Nat) : (fuel : Nat) → (data : Bytes) → State → Result
  | 0, _, s => s.result none
  | fuel + 1, data, s =>
    if m.overflows s.chunkIdx then s.result none
    else
      match openChunk m creat s with
      | .error err => s.result (some err)
      | .ok s' =>
        let (chunk, rest, eof) := readChunk short (data.length + 1) m.bytesPerFile.toNat data
        let s'' := (m.write chunk s').next
        if eof then s''.result none else splitBytes short fuel rest s''

/-! ## Lines -/

def Mode.lines (m : Mode) : Int :=
  if m.linesPerFile ≤ 0 ∧ m.bytesPerFile ≤ 0 then 1000 else m.linesPerFile

def openFile (s : State) : Except Bytes State :=
  if m.overflows s.chunkIdx then .error (str "suffix overflow")
  else if m.filter ≠ [] then .ok { s with files := s.files ++ [m.name s.chunkIdx] }
  else create m creat s

def writeLines : (lines : List Bytes) → (currentLines : Int) → State → Except Result State
  | [], _, s => .ok s
  | line :: lines, currentLines, s =>
    if m.lines ≤ currentLines then
      match openFile m creat s.next with
      | .error err => .error (s.next.result (some err))
      | .ok s' => writeLines lines 1 (m.write (line ++ [newline]) s')
    else writeLines lines (currentLines + 1) (m.write (line ++ [newline]) s)

/-- The line mode. `scanned` are the lines, and whether the scanner came to the end of the input. -/
def splitLines (scanned : List Bytes × Bool) : Result :=
  match openFile m creat .start with
  | .error err => State.start.result (some err)
  | .ok s =>
    match writeLines m creat scanned.1 0 s with
    | .error result => result
    | .ok s' =>
      if scanned.2 then s'.next.result none
        else s'.result (some (str "bufio.Scanner: token too long"))

def run (short : Nat → Nat) (data : Bytes) : Result :=
  if 0 < m.bytesPerFile then splitBytes m creat short (data.length + 1) data .start
  else splitLines m creat (scanLines data)

end

end GoPosix.Split
