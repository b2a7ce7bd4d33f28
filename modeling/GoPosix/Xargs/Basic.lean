import Mathlib.Data.List.Chain
import GoPosix.Lib.Text

/-!
# xargs

The batches of words that `xargsRun` of `pkg/xargs/xargs.go` builds, without `-I` and `-0`.
-/

namespace GoPosix.Xargs

open Bytes List

/-- A limit of 0 is none, and so is an empty end-of-file string. -/
structure Options where
  baseCmd : Bytes := str "echo"
  cmdArgs : List Bytes := []
  maxSize : Nat := 2048
  maxArgs : Nat := 0
  eofStr : Bytes := []

namespace Options

variable (o : Options)

def baseSize : Nat := o.cmdArgs.foldl (fun n arg => n + (arg.length + 1)) (o.baseCmd.length + 1)

/-- The words that the loop takes: those the scanner reads, up to the end-of-file string. -/
def words (input : Bytes) : List Bytes :=
  (scanWords input).takeWhile fun word => o.eofStr = [] ∨ word ≠ o.eofStr

def sizeLimitHit (currentBatch : List Bytes) (currentSize : Nat) (word : Bytes) : Bool :=
  0 < o.maxSize && o.maxSize < currentSize + word.length + 1 && currentBatch ≠ []

def argsLimitHit (currentBatch : List Bytes) : Bool :=
  0 < o.maxArgs && o.maxArgs ≤ currentBatch.length

/-- The word loop: a word that breaks a limit starts the next batch. -/
def loop : (currentBatch : List Bytes) → (currentSize : Nat) → List Bytes → List (List Bytes)
  | currentBatch, _, [] => if currentBatch = [] then [] else [currentBatch]
  | currentBatch, currentSize, word :: rest =>
    if o.sizeLimitHit currentBatch currentSize word || o.argsLimitHit currentBatch then
      currentBatch :: loop [word] (o.baseSize + (word.length + 1)) rest
    else loop (currentBatch ++ [word]) (currentSize + (word.length + 1)) rest

/-- The command is run once if there are no words. -/
def batches (input : Bytes) : List (List Bytes) :=
  let batches := o.loop [] o.baseSize (o.words input)
  if batches = [] then [[]] else batches

def size (batch : List Bytes) : Nat := batch.foldl (fun n word => n + (word.length + 1)) o.baseSize

/-- A single word may be too long, and the command alone. -/
def Fits (batch : List Bytes) : Prop :=
  batch.length ≤ o.maxArgs ∧ (1 < batch.length → o.size batch ≤ o.maxSize)

/-- The batch has no room for the first word of the next one. -/
def Full (batch next : List Bytes) : Prop :=
  ∀ word, next.head? = some word → o.maxArgs < (batch ++ [word]).length ∨
    o.maxSize < o.size (batch ++ [word])

variable {o}

theorem size_snoc (b : List Bytes) (word : Bytes) :
    o.size (b ++ [word]) = o.size b + (word.length + 1) := by
  simp [size]

theorem loop_eq_cons (hne : currentBatch ≠ []) (cs : Nat) (rest : List Bytes) :
    ∃ m next, o.loop currentBatch cs rest = (currentBatch ++ m) :: next := by
  induction rest generalizing currentBatch cs with
  | nil => exact ⟨[], [], by simp [loop, hne]⟩
  | cons word rest ih =>
    unfold loop
    split
    · exact ⟨[], _, by rw [append_nil]⟩
    · obtain ⟨m, next, h⟩ := @ih (currentBatch ++ [word]) (by simp) (cs + (word.length + 1))
      exact ⟨word :: m, next, by simp [h]⟩

/-- The running size is that of the current batch. -/
theorem loop_spec (hn : 0 < o.maxArgs) (hs : 0 < o.maxSize) (hf : o.Fits currentBatch)
    (rest : List Bytes) :
    (o.loop currentBatch (o.size currentBatch) rest).flatten = currentBatch ++ rest ∧
      (∀ b ∈ o.loop currentBatch (o.size currentBatch) rest, o.Fits b) ∧
      (o.loop currentBatch (o.size currentBatch) rest).IsChain o.Full := by
  induction rest generalizing currentBatch with
  | nil => by_cases h : currentBatch = [] <;> simp [loop, h, hf]
  | cons word rest ih =>
    unfold loop
    split
    · next hl =>
      have ho : o.Fits [word] := ⟨hn, nofun⟩
      obtain ⟨hflatten, hall, hc⟩ := ih ho
      obtain ⟨m, next, hnext⟩ := @loop_eq_cons o [word] (by simp) (o.size [word]) rest
      have hsize : o.baseSize + (word.length + 1) = o.size [word] := by simp [size]
      rw [hsize]
      refine ⟨by rw [flatten_cons, hflatten, singleton_append], forall_mem_cons.mpr ⟨hf, hall⟩,
        isChain_cons.mpr ⟨fun b hb w hw => ?_, hc⟩⟩
      rw [hnext, head?_cons, Option.mem_some_iff] at hb
      subst hb
      cases hw
      simp [sizeLimitHit, argsLimitHit, hn, hs, ← length_eq_zero_iff] at hl
      simp only [length_append, length_singleton, size_snoc]
      omega
    · next hl =>
      have hm : o.Fits (currentBatch ++ [word]) := by
        simp [sizeLimitHit, argsLimitHit, hn, hs, ← length_eq_zero_iff] at hl
        simp only [Fits, length_append, length_singleton, size_snoc]
        omega
      have h := ih hm
      rwa [size_snoc, append_assoc] at h

end Options

open Options

/-- **The batches**: if every word fits into the scanner's buffer with the white space behind it,
the batches are the words in order, no batch is too large unless it has at most one word, and none
has room for the first word of the next one. -/
theorem batches_correct {o : Options} (hn : 0 < o.maxArgs) (hs : 0 < o.maxSize) {input : Bytes}
    (hfits : ∀ p ∈ delimited input, p.1.length + p.2 ≤ 65536) :
    (o.batches input).flatten =
      (fields input).takeWhile (fun word => o.eofStr = [] ∨ word ≠ o.eofStr) ∧
      (∀ batch ∈ o.batches input, o.Fits batch) ∧ (o.batches input).IsChain o.Full := by
  have hnil : o.Fits [] := ⟨Nat.zero_le _, nofun⟩
  have hspec := loop_spec hn hs hnil (o.words input)
  rw [words, scanWords_eq_fields hfits, nil_append] at hspec
  simp only [batches, words, scanWords_eq_fields hfits]
  split
  · next h =>
    change o.loop [] (o.size []) _ = [] at h
    simp only [h] at hspec
    exact ⟨hspec.1, by simpa using hnil, isChain_singleton _⟩
  · exact hspec

theorem batches_one :
    ({ maxSize := 8, maxArgs := 2 } : Options).batches (str "a b") = [[str "a"], [str "b"]] ∧
      (Options.batches { maxSize := 8, maxArgs := 2 } (str "a b")).flatten = [str "a", str "b"] :=
  ⟨by decide, (batches_correct (by decide) (by decide) (by decide)).1.trans (by decide)⟩

/-- The command is run without words, even if it is too long already. -/
theorem batches_none : ({ maxSize := 1, maxArgs := 1 } : Options).batches [] = [[]] ∧
    1 < ({ maxSize := 1, maxArgs := 1 } : Options).size [] := by decide

end GoPosix.Xargs
