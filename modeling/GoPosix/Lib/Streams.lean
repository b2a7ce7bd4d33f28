import GoPosix.Lib.Text

/-!
# Streams and what a process can read

A stream yields bytes, and then it is at its end or fails. `Host` is what a process finds around it:
its own standard input, and the files.
-/

open Bytes

/-- What a reader yields, and the error behind it. -/
structure ByteStream where
  data : Bytes
  err : Option Bytes

namespace ByteStream

/-- A stream of which everything has been read. An error is reported again. -/
def atEnd (s : ByteStream) : ByteStream := ⟨[], s.err⟩

/-- A `bufio.Scanner` with a buffer of this size: its tokens, and its error, which comes behind the
last token. -/
def scan (size : Nat) (s : ByteStream) : List Bytes × Option Bytes :=
  ((scanLinesUpTo size s.data).1,
    if (scanLinesUpTo size s.data).2 then s.err else some (str "bufio.Scanner: token too long"))

/-- The bytes that a scanner has taken when it gives up: the lines before the one that is too long,
and a buffer that is full. -/
def scannedBytes (size : Nat) : List Bytes → Nat
  | [] => 0
  | line :: rest => if line.length < size then line.length + 1 + scannedBytes size rest else size

/-- What a scanner leaves. -/
def afterScan (size : Nat) (s : ByteStream) : ByteStream :=
  if (scanLinesUpTo size s.data).2 then s.atEnd
  else { s with data := s.data.drop (scannedBytes size (s.data.splitOn newline)) }

end ByteStream

structure Host where
  osStdin : ByteStream
  /-- `os.Open`, with the error or with what the file yields. -/
  openFile : Bytes → Except Bytes ByteStream
  /-- `os.Stat`: whether it is a directory. -/
  stat : Bytes → Option Bool
  /-- `os.Lstat`: whether it is a regular file. -/
  lstat : Bytes → Option Bool
  /-- The files that `filepath.WalkDir` finds below a directory, by their relative paths. -/
  walk : Bytes → List (Bytes × Bytes)

namespace Host

def readAll (s : ByteStream) : Except Bytes Bytes :=
  match s.err with
  | some msg => .error msg
  | none => .ok s.data

def readFile (host : Host) (path : Bytes) : Except Bytes Bytes :=
  match host.openFile path with
  | .error msg => .error msg
  | .ok s => readAll s

/-- `os.ReadFile`, when the error is not looked at. -/
def readAnyway (host : Host) (path : Bytes) : Bytes :=
  match host.openFile path with
  | .error _ => []
  | .ok s => s.data

end Host
