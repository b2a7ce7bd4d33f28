import GoPosix.Cksum.Basic
import GoPosix.Diff.Command
import GoPosix.Join.Command
import GoPosix.Tail.Basic

/-!
# The standard input of the process

The dispatcher gives a command a reader for its standard input; in the daemon this is the input of
the request. The four commands here read the standard input of the process instead. `reads` says
when they get there, and a run depends on what the process has there exactly in these cases
(`independent_iff`).
-/

namespace GoPosix.Dispatch

open Bytes Common

inductive Command
  | tail
  | diff
  | join
  | cksum
  deriving DecidableEq

def Command.Data : Command → Type
  | .tail => List Bytes
  | .diff => Diff.DiffResult
  | .join => List Bytes
  | .cksum => List Cksum.FileResult

def Command.run : (c : Command) → List Bytes → (stdin : ByteStream) → Host → Outcome c.Data
  | .tail => Tail.runCommand
  | .diff => Diff.runCommand
  | .join => Join.runCommand
  | .cksum => Cksum.runCommand

def withStdin (host : Host) (s : ByteStream) : Host := { host with osStdin := s }

/-- **What one wants**: whatever the process has on its own standard input, the run is the same. -/
def Independent (c : Command) (args : List Bytes) (stdin : ByteStream) (host : Host) : Prop :=
  ∀ s s', c.run args stdin (withStdin host s) = c.run args stdin (withStdin host s')

/-! ## Who gets there -/

/-- Some operand of `tail` is `-`, and no file that is followed comes before it. -/
def tailReads (follow : Bool) (openFile : Bytes → Except Bytes ByteStream) : List Bytes → Bool
  | [] => false
  | path :: paths =>
    path = str "-" || (!(follow && (openFile path).isOk) && tailReads follow openFile paths)

/-- One of two different operands of `diff` is `-`, and one before it can be read. -/
def diffReads (host : Host) (file1 file2 : Bytes) : Bool :=
  file1 ≠ file2 && (file1 = str "-" || (file2 = str "-" && (host.readFile file1).isOk))

/-- The same for the operands of a run, which are not both directories. -/
def runFilesReads (host : Host) (flags : ParseResult) (file1 file2 : Bytes) : Bool :=
  let t := Diff.targets host (flags.has (str "r")) file1 file2
  !t.1 && diffReads host t.2.1 t.2.2

def joinOpens (host : Host) (file : Bytes) : Bool := file = str "-" || (host.openFile file).isOk

/-- A file without an error and without a line that is too long. -/
def joinScans (host : Host) (file : Bytes) : Bool :=
  match host.openFile file with
  | .error _ => false
  | .ok s => (s.scan maxScanTokenSize).2.isNone

/-- An operand of `join` is `-` and the other one can be opened; and if it comes first, it can be
read. -/
def joinReads (host : Host) (file1 file2 : Bytes) : Bool :=
  (file1 = str "-" && joinOpens host file2) ||
    (file1 ≠ str "-" && joinScans host file1 && file2 = str "-")

/-- **The arguments and files with which a command reads the standard input of the process.** -/
def Command.reads (args : List Bytes) (host : Host) : Command → Bool
  | .tail =>
    match parseFlags (Tail.cleanArgs args) Tail.spec with
    | .error _ => false
    | .ok flags =>
      match Tail.options flags with
      | .error _ => false
      | .ok o => tailReads o.follow host.openFile o.readers
  | .diff =>
    match parseFlags args Diff.spec with
    | .error _ => false
    | .ok flags =>
      match flags.positional with
      | [file1, file2] => runFilesReads host flags file1 file2
      | _ => false
  | .join =>
    match parseFlags args Join.spec with
    | .error _ => false
    | .ok flags =>
      match flags.positional with
      | file1 :: file2 :: _ => joinReads host file1 file2
      | _ => false
  | .cksum =>
    match parseFlags args Cksum.spec with
    | .error _ => false
    | .ok flags => flags.positional = []

section

variable {host : Host} {s s' : ByteStream} {stdin : ByteStream} {args : List Bytes}

@[simp] theorem withStdin_osStdin : (withStdin host s).osStdin = s := rfl

@[simp] theorem withStdin_openFile : (withStdin host s).openFile = host.openFile := rfl

/-- What does not read is the same for all inputs, and what reads can tell two of them apart. -/
theorem same_iff {α : Type} {run : ByteStream → α} {reads : Bool}
    (hc : reads = false → ∀ s s', run s = run s')
    (hne : reads = true → run s ≠ run s') : (∀ s s', run s = run s') ↔ reads = false := by
  cases reads with
  | false => exact iff_of_true (hc rfl) rfl
  | true => exact iff_of_false (fun h => hne rfl (h s s')) nofun

def nothing (err : Option Bytes) : ByteStream := ⟨[], err⟩

/-! ## tail -/

section Tail

open Tail

variable {o : Options}

/-- Without the operand `-`, what is left of the standard input does not matter. -/
theorem tail_loop_congr (h : tailReads o.follow openFile pa = false) (i : Nat) (p : Progress) :
    loop o openFile i pa { p with stdin := s } = loop o openFile i pa p := by
  induction pa generalizing i p with
  | nil => rfl
  | cons path pa ih =>
    simp only [tailReads, Bool.or_eq_false_iff, decide_eq_false_iff_not] at h
    obtain ⟨hp, hr⟩ := h
    cases ho : openFile path with
    | error m =>
      have hpath : tailReads o.follow openFile pa = false := by
        rw [ho] at hr
        simpa [Except.toBool] using hr
      rw [loop_missing hp ho, loop_missing hp ho]
      exact ih hpath (i + 1) ((p.begin o i path).missing path m)
    | ok file =>
      have hread : ∀ p : Progress, readOne o { p with stdin := s } path file
          = { readOne o p path file with stdin := s } := fun p => by
        simp only [readOne, if_neg hp]
      cases hf : o.follow with
      | true =>
        rw [loop_follow hp ho hf, loop_follow hp ho hf]
        rfl
      | false =>
        have hpath : tailReads o.follow openFile pa = false := by
          rw [hf] at hr ⊢
          simpa using hr
        rw [loop_file hp ho hf,
          loop_file hp ho hf, ← ih hpath (i + 1) (readOne o (p.begin o i path) path file), ← hread]
        rfl

theorem run_nothing (lc bc : Int) (fs : Bool) (e : Option Bytes) :
    (run (nothing e) lc bc fs).err = e ∧ (run (nothing e) lc bc fs).rest = nothing e := by
  unfold run
  split
  · cases e <;> exact ⟨rfl, rfl⟩
  · exact ⟨rfl, rfl⟩

/-- The number of messages about the operands, when the standard input yields nothing. -/
def problems (o : Options) (openFile : Bytes → Except Bytes ByteStream) (fails : Bool) :
    List Bytes → Nat
  | [] => 0
  | path :: paths =>
    if path = str "-" then fails.toNat + problems o openFile fails paths
    else
      match openFile path with
      | .error _ => 1 + problems o openFile fails paths
      | .ok s =>
        (run s o.linesCount o.bytesCount o.fromStart).err.isSome.toNat +
          if o.follow then 0 else problems o openFile fails paths

theorem readOne_stderr (p : Progress) (path : Bytes) (file : ByteStream) :
    (readOne o p path file).stderr.length =
      p.stderr.length + (run file o.linesCount o.bytesCount o.fromStart).err.isSome.toNat := by
  show (p.stderr ++ _).length = _
  rw [List.length_append]
  cases (run file o.linesCount o.bytesCount o.fromStart).err <;> rfl

theorem tail_loop_stderr (e : Option Bytes) (i : Nat) (p : Progress) (hp : p.stdin = nothing e) :
    (loop o openFile i pa p).stderr.length = p.stderr.length + problems o openFile e.isSome pa := by
  induction pa generalizing i p with
  | nil => rfl
  | cons path pa ih =>
    rw [problems]
    have hb : (p.begin o i path).stderr = p.stderr := rfl
    by_cases hpath : path = str "-"
    · obtain ⟨he, hr⟩ := run_nothing o.linesCount o.bytesCount o.fromStart e
      have hs : (readOne o (p.begin o i path) path p.stdin).stdin = nothing e := by
        simp only [readOne, if_pos hpath, hp, hr]
      rw [loop_dash hpath, if_pos hpath, ih _ _ hs, readOne_stderr, hb, hp, he]
      omega
    · rw [if_neg hpath]
      cases ho : openFile path with
      | error m =>
        have hm : ((p.begin o i path).missing path m).stderr.length = p.stderr.length + 1 :=
          List.length_append
        have hs : ((p.begin o i path).missing path m).stdin = nothing e := hp
        rw [loop_missing hpath ho, ih _ _ hs]
        simp only
        omega
      | ok file =>
        simp only
        cases hf : o.follow with
        | true =>
          rw [loop_follow hpath ho hf, if_pos rfl]
          simp only [readOne_stderr, hb]
          omega
        | false =>
          have hs : (readOne o (p.begin o i path) path file).stdin = nothing e := by
            simp only [readOne, if_neg hpath]
            exact hp
          rw [loop_file hpath ho hf, ih _ _ hs, readOne_stderr, hb, if_neg Bool.false_ne_true]
          omega

theorem problems_le (p : List Bytes) :
    problems o openFile false p ≤ problems o openFile true p := by
  induction p with
  | nil => exact Nat.le_refl _
  | cons path p ih =>
    rw [problems, problems]
    split
    · simp only [Bool.toNat_false]
      omega
    · split
      · omega
      · split <;> omega

theorem problems_lt (h : tailReads o.follow openFile p = true) :
    problems o openFile false p < problems o openFile true p := by
  induction p with
  | nil => cases h
  | cons path p ih =>
    have hle := @problems_le o openFile p
    rw [problems, problems]
    by_cases hp : path = str "-"
    · simp only [if_pos hp, Bool.toNat_false, Bool.toNat_true]
      omega
    simp only [tailReads, hp, decide_false, Bool.false_or, Bool.and_eq_true] at h
    have hlt := ih h.2
    simp only [if_neg hp]
    cases ho : openFile path with
    | error m =>
      simp only
      omega
    | ok file =>
      have hf : o.follow = false := by
        have hand := h.1
        rw [ho] at hand
        simpa [Except.toBool] using hand
      simp only [hf, Bool.false_eq_true, if_false]
      omega

/-- **`tail`** does not depend on the standard input exactly if it does not read it. -/
theorem tail_independent :
    Independent .tail args stdin host ↔ Command.reads args host .tail = false := by
  dsimp only [Independent, Command.run, Command.Data, Command.reads, runCommand]
  cases parseFlags (cleanArgs args) Tail.spec with
  | error e => exact iff_of_true (fun _ _ => rfl) rfl
  | ok f =>
    simp only
    cases options f with
    | error m => exact iff_of_true (fun _ _ => rfl) rfl
    | ok o =>
      refine @same_iff (nothing none) (nothing (some [])) _ _ _ (fun h s s' => ?_) fun h hs => ?_
      · have hl := fun s =>
          @tail_loop_congr s o host.openFile o.readers h 0 ⟨[], [], 0, [], host.osStdin⟩
        exact (hl s).trans (hl s').symm
      · have hlt := problems_lt h
        have hlen := congrArg (fun r => r.stderr.length) hs
        have hc := fun err =>
          @tail_loop_stderr o host.openFile o.readers err 0 ⟨[], [], 0, [], nothing err⟩ rfl
        have hg := hc none
        have hb := hc (some [])
        simp only [Option.isSome_none, Option.isSome_some, withStdin_osStdin, withStdin_openFile]
          at hg hb hlen
        omega

end Tail

/-! ## diff -/

section Diff

open Diff

theorem readOperand_file (h : file ≠ str "-") :
    readOperand (withStdin host s) file = host.readFile file := if_neg h

theorem diffOperands_congr (h : diffReads host file1 file2 = false) :
    diffOperands (withStdin host s) opts jsonMode file1 file2
      = diffOperands (withStdin host s') opts jsonMode file1 file2 := by
  unfold diffOperands
  by_cases hsame : file1 = file2
  · rw [if_pos hsame, if_pos hsame]
  simp only [diffReads, hsame, ne_eq, not_false_eq_true, decide_true, Bool.true_and,
    Bool.or_eq_false_iff,
    decide_eq_false_iff_not] at h
  obtain ⟨hf, hs⟩ := h
  rw [readOperand_file hf, readOperand_file hf]
  cases hr : host.readFile file1 with
  | error msg => rfl
  | ok b1 =>
    have hfile : file2 ≠ str "-" := by
      rintro rfl
      rw [hr] at hs
      cases hs
    simp only [readOperand_file hfile]

theorem ioError_ne : ioError jsonMode [] ≠ ioError jsonMode [0] := by
  intro h
  cases jsonMode with
  | true =>
    have hstdout := congrArg Outcome.stdout h
    injection hstdout with hw
    injection hw with _ _ _ he
    exact absurd he (by decide)
  | false =>
    have hs := congrArg Outcome.stderr h
    injection hs with hw
    injection hw with ht
    exact absurd ht (by decide)

theorem diffOperands_ioError (h : diffReads host file1 file2 = true) (msg : Bytes) :
    diffOperands (withStdin host (nothing (some msg))) opts jsonMode file1 file2 =
      ioError jsonMode msg := by
  simp only [diffReads, Bool.and_eq_true, Bool.or_eq_true, decide_eq_true_eq] at h
  obtain ⟨hne, rfl | ⟨rfl, hok⟩⟩ := h
  · unfold diffOperands
    simp only [if_neg hne]
    rfl
  · unfold diffOperands
    simp only [if_neg hne, readOperand_file hne]
    cases hr : host.readFile file1 with
    | error msg' =>
      rw [hr] at hok
      cases hok
    | ok b1 => rfl

theorem diffDirs_withStdin :
    diffDirs (withStdin host s) opts treatNew file1 file2 =
      diffDirs host opts treatNew file1 file2 := by
  have he : ∀ r exitCode, diffEntries (withStdin host s) opts treatNew file1 file2 r exitCode
      = diffEntries host opts treatNew file1 file2 r exitCode := by
    intro r
    induction r with
    | nil => exact fun _ => rfl
    | cons rel r ih =>
      intro exitCode
      rw [diffEntries]
      simp only [ih]
      rfl
  unfold diffDirs
  rw [he]
  rfl

theorem runFiles_independent :
    (∀ s s', runFiles (withStdin host s) flags file1 file2 =
      runFiles (withStdin host s') flags file1 file2)
      ↔ runFilesReads host flags file1 file2 = false := by
  have ht : ∀ s, targets (withStdin host s) (flags.has (str "r")) file1 file2
      = targets host (flags.has (str "r")) file1 file2 := fun _ => rfl
  unfold runFilesReads runFiles
  simp only [ht]
  generalize targets host (flags.has (str "r")) file1 file2 = t
  obtain ⟨d, f1', f2'⟩ := t
  cases d with
  | true => exact iff_of_true (fun _ _ => diffDirs_withStdin.trans diffDirs_withStdin.symm) rfl
  | false =>
    refine @same_iff (nothing (some [])) (nothing (some [0])) _ _ _
      (fun h s s' => diffOperands_congr h) fun h => ?_
    rw [diffOperands_ioError h, diffOperands_ioError h]
    exact ioError_ne

theorem diff_independent :
    Independent .diff args stdin host ↔ Command.reads args host .diff = false := by
  dsimp only [Independent, Command.run, Command.reads, runCommand]
  cases parseFlags args Diff.spec with
  | error e => exact iff_of_true (fun _ _ => rfl) rfl
  | ok f =>
    simp only
    rcases f.positional with _ | ⟨file1, _ | ⟨file2, _ | _⟩⟩
    case cons.cons.nil => exact runFiles_independent
    all_goals exact iff_of_true (fun _ _ => rfl) rfl

end Diff

/-! ## join -/

section Join

open Join

theorem openOperand_withStdin (file : Bytes) :
    openOperand (withStdin host s) file = openOperand host file := rfl

theorem openOperand_dash : openOperand host (str "-") = .ok .stdin := if_pos rfl

theorem openOperand_file (h : file ≠ str "-") :
    openOperand host file = (host.openFile file).map .file := by
  rw [openOperand, if_neg h]
  cases host.openFile file <;> rfl

theorem failure_ne : failure jsonMode (str "EJOIN") [] ≠ failure jsonMode (str "EJOIN") [0] := by
  intro h
  have hs := congrArg Outcome.stderr h
  injection hs with hw
  injection hw with ht
  exact absurd ht (by decide)

theorem runStreams_unread {f1 : ByteStream} (h : (f1.scan maxScanTokenSize).2.isNone = false)
    (r2 : Operand) :
    runStreams o s (.file f1) r2 = runStreams o s' (.file f1) r2 := by
  have hf : ∀ s, (Operand.file f1).stream s = f1 := fun _ => rfl
  unfold runStreams
  rw [hf, hf]
  cases hs : f1.scan maxScanTokenSize with
  | mk lines e =>
    cases e with
    | none =>
      rw [hs] at h
      cases h
    | some m => rfl

/-- `join` of two files that are not the standard input. -/
theorem runOperands_congr (h : joinReads host file1 file2 = false) :
    runOperands (withStdin host s) o jsonMode file1 file2 =
      runOperands (withStdin host s') o jsonMode file1 file2 := by
  unfold runOperands
  simp only [openOperand_withStdin, withStdin_osStdin]
  simp only [joinReads, Bool.or_eq_false_iff] at h
  by_cases hf : file1 = str "-"
  · -- the second operand cannot be opened
    subst hf
    have ho : joinOpens host file2 = false := by simpa using h.1
    simp only [joinOpens, Bool.or_eq_false_iff, decide_eq_false_iff_not] at ho
    rw [openOperand_file ho.1]
    cases hope : host.openFile file2 with
    | error m => rfl
    | ok file =>
      rw [hope] at ho
      cases ho.2
  · rw [openOperand_file hf]
    cases hop : host.openFile file1 with
    | error m => rfl
    | ok first =>
      simp only [Except.map]
      by_cases hfile : file2 = str "-"
      · subst hfile
        have hs : (first.scan maxScanTokenSize).2.isNone = false := by
          have hs := h.2
          rw [joinScans, hop, Bool.and_eq_false_iff, Bool.and_eq_false_iff] at hs
          simpa only [hf, ne_eq, not_false_eq_true, decide_true, Bool.true_eq_false, false_or,
            or_false]
            using hs
        rw [openOperand_dash]
        simp only [@runStreams_unread s s' o first hs .stdin]
      · rw [openOperand_file hfile]
        cases host.openFile file2 with
        | error m => rfl
        | ok second => rfl

theorem runOperands_failure (h : joinReads host file1 file2 = true) (m : Bytes) :
    runOperands (withStdin host (nothing (some m))) o jsonMode file1 file2 =
      failure jsonMode (str "EJOIN") m := by
  unfold runOperands
  simp only [openOperand_withStdin]
  simp only [joinReads, Bool.or_eq_true, Bool.and_eq_true, decide_eq_true_eq] at h
  rcases h with ⟨rfl, hop⟩ | ⟨⟨hfile, hs⟩, rfl⟩
  · by_cases hf : file2 = str "-"
    · rw [hf]
      rfl
    rw [openOperand_file hf]
    cases ho : host.openFile file2 with
    | error m' =>
      rw [joinOpens, decide_eq_false hf, ho] at hop
      cases hop
    | ok second => rfl
  · rw [openOperand_file hfile]
    unfold joinScans at hs
    cases ho : host.openFile file1 with
    | error m' =>
      rw [ho] at hs
      cases hs
    | ok first =>
      simp only [ho] at hs
      have hfl : ∀ s, (Operand.file first).stream s = first := fun _ => rfl
      simp only [Except.map, runStreams, hfl]
      cases hscan : first.scan maxScanTokenSize with
      | mk lines e =>
        cases e with
        | some m' =>
          rw [hscan] at hs
          cases hs
        | none => rfl

theorem join_independent :
    Independent .join args stdin host ↔ Command.reads args host .join = false := by
  dsimp only [Independent, Command.run, Command.reads, runCommand]
  cases parseFlags args Join.spec with
  | error e => exact iff_of_true (fun _ _ => rfl) rfl
  | ok f =>
    simp only
    rcases f.positional with _ | ⟨file1, _ | ⟨file2, _⟩⟩
    · exact iff_of_true (fun _ _ => rfl) rfl
    · exact iff_of_true (fun _ _ => rfl) rfl
    refine @same_iff (nothing (some [])) (nothing (some [0])) _ _ _
      (fun h s s' => runOperands_congr h) fun h => ?_
    simp only at h ⊢
    rw [runOperands_failure h, runOperands_failure h]
    exact failure_ne

end Join

/-! ## cksum -/

section Cksum

open Cksum

theorem runFiles_withStdin (f : List Bytes) : runFiles (withStdin host s) f = runFiles host f := by
  induction f with
  | nil => rfl
  | cons file f ih =>
    rw [runFiles, ih]
    rfl

/-- **`cksum`** does not depend on the standard input exactly if it does not read it. -/
theorem cksum_independent :
    Independent .cksum args stdin host ↔ Command.reads args host .cksum = false := by
  dsimp only [Independent, Command.run, Command.Data, Command.reads, runCommand]
  cases parseFlags args Cksum.spec with
  | error e => exact iff_of_true (fun _ _ => rfl) rfl
  | ok f =>
    refine @same_iff (nothing (some [])) (nothing (some [0])) _ _ _ (fun h s s' => ?_)
        fun h hsame =>
      ?_
    · have hr : ∀ s, run (withStdin host s) f.positional = runFiles host f.positional := by
        intro s
        rw [run, if_neg (of_decide_eq_false h), runFiles_withStdin]
      simp only [hr]
    · have hr : ∀ m, run (withStdin host (nothing (some m))) f.positional = .error m := by
        intro m
        rw [run, if_pos (of_decide_eq_true h)]
        rfl
      simp only [hr] at hsame
      have hs := congrArg Outcome.stderr hsame
      injection hs with hw
      injection hw with ht
      exact absurd ht (by decide)

end Cksum

end

/-- **When a run does not depend on the standard input of the process**: exactly when it does not
read it. -/
theorem independent_iff (c : Command) (args : List Bytes) (stdin : ByteStream) (host : Host) :
    Independent c args stdin host ↔ c.reads args host = false := by
  cases c with
  | tail => exact tail_independent
  | diff => exact diff_independent
  | join => exact join_independent
  | cksum => exact cksum_independent

def bare : Host := ⟨⟨[], none⟩, fun _ => .error [], fun _ => none, fun _ => none, fun _ => []⟩

/-- `tail` prints what the process has on its standard input, whatever the request brings. -/
theorem not_independent_tail : ¬ Independent .tail [] ⟨str "request", none⟩ bare := by
  intro h
  have hsame : Tail.runCommand [] ⟨str "request", none⟩ (withStdin bare ⟨[], none⟩)
      = Tail.runCommand [] ⟨str "request", none⟩ (withStdin bare ⟨str "secret", none⟩) := h _ _
  have hs := congrArg Outcome.stdout hsame
  injection hs with hw
  injection hw with ht
  exact absurd ht (by decide)

end GoPosix.Dispatch
