import GoPosix.Common.Escape
import GoPosix.Common.Render

/-!
# echo

`parseEchoFlags`, `Run` and `run` of `pkg/echo/echo.go`. Every group of options says anew whether
there is a newline, so that the options accumulate only where the last group has the `n`
(`run_groups_iff`).
-/

namespace GoPosix.Echo

open Bytes Common List

structure Flags where
  noNewline : Bool := false
  escape : Bool := false
  jsonMode : Bool := false

/-- What is found in a group. -/
structure Group where
  nnl : Bool := false
  esc : Bool := false
  hasE : Bool := false
  allValid : Bool := true

def Group.add (g : Group) (c : UInt8) : Group :=
  if c = 110 then { g with nnl := true }
  else if c = 101 then { g with esc := true }
  else if c = 69 then { g with esc := false, hasE := true }
  else { g with allValid := false }

def Group.escape (g : Group) (escape : Bool) : Bool := if g.esc || g.hasE then g.esc else escape

/-- `parseEchoFlags`: the options at the head of the arguments, and the words behind them. An
argument that is no option ends them. -/
def parseEchoFlags : Flags → List Bytes → Flags × List Bytes
  | f, [] => (f, [])
  | f, a :: args =>
    if a = str "--json" then parseEchoFlags { f with jsonMode := true } args
    else
      let g := a.tail.foldl Group.add {}
      if 2 ≤ a.length ∧ a.head? = some 45 ∧ a.tail.head? ≠ some 45 ∧ g.allValid then
        -- what an earlier group said about the newline is lost
        parseEchoFlags { f with noNewline := g.nnl, escape := g.escape f.escape } args
      else (f, a :: args)

/-- `Run`: the text of the words. -/
def text (f : Flags) (words : List Bytes) : Bytes :=
  let text := [(32 : UInt8)].intercalate words
  if f.escape then expandEscapes .arg text else text

/-- What is written for the words: the text, or an envelope that holds it. -/
def print (f : Flags) (words : List Bytes) : List (Write Bytes) :=
  render (str "echo") (text f words) f.jsonMode
    [.text (text f words ++ if f.noNewline then [] else [newline])]

def run (args : List Bytes) : List (Write Bytes) :=
  let (f, words) := parseEchoFlags {} args
  print f words

/-! ## Groups -/

inductive Letter
  | n | e | E
  deriving DecidableEq

def Letter.char : Letter → UInt8
  | n => 110
  | e => 101
  | E => 69

def group (g : List Letter) : Bytes := 45 :: g.map Letter.char

/-- An option argument: a group of letters, or `--json`. -/
inductive Item
  | json
  | letters (g : List Letter)

def Item.arg : Item → Bytes
  | json => str "--json"
  | letters g => group g

def Letter.escape (b : Bool) : Letter → Bool
  | n => b
  | e => true
  | E => false

/-- One letter after the other: `n` stays in force, and the last of `e` and `E` wins. -/
def Flags.add (f : Flags) (c : Letter) : Flags :=
  { f with noNewline := f.noNewline || c = .n, escape := c.escape f.escape }

/-- The options as they should accumulate, whatever the groups are. -/
def Flags.apply (f : Flags) : Item → Flags
  | .json => { f with jsonMode := true }
  | .letters g => g.foldl Flags.add f

/-- The letters of a list of options. -/
def letters (items : List Item) : List Letter :=
  items.flatMap fun
    | .json => []
    | .letters g => g

/-- The last group. -/
def lastGroup : List Item → Option (List Letter)
  | [] => none
  | .json :: items => lastGroup items
  | .letters g :: items => some ((lastGroup items).getD g)

theorem foldl_flags (l : List Letter) (f : Flags) : l.foldl Flags.add f =
    { f with noNewline := f.noNewline || .n ∈ l, escape := l.foldl Letter.escape f.escape } := by
  induction l generalizing f with
  | nil => simp
  | cons c l ih => simp [ih, Flags.add, Bool.or_assoc, eq_comm]

/-- **Only the letters count**, not how they are grouped. -/
theorem foldl_apply (items : List Item) (f : Flags) : items.foldl Flags.apply f =
    { f with
      noNewline := f.noNewline || .n ∈ letters items
      escape := (letters items).foldl Letter.escape f.escape
      jsonMode := f.jsonMode || items.any (· matches .json) } := by
  induction items generalizing f with
  | nil => simp [letters]
  | cons item items ih =>
    cases item with
    | json => simp [ih, letters, Flags.apply]
    | letters g => simp [ih, letters, Flags.apply, foldl_flags, Bool.or_assoc]

theorem foldl_group (g : List Letter) (s : Group) (b : Bool) :
    let r := (g.map Letter.char).foldl Group.add s
    r.allValid = s.allValid ∧ r.nnl = (s.nnl || decide (.n ∈ g)) ∧
        r.escape b = g.foldl Letter.escape (s.escape b) := by
  induction g generalizing s with
  | nil => simp
  | cons c g ih =>
    obtain ⟨hv, hn, he⟩ := ih (s.add c.char)
    refine ⟨hv.trans ?_, hn.trans ?_, he.trans ?_⟩ <;> cases c
      <;> simp [Group.add, Group.escape, Letter.char, Letter.escape]

variable {items : List Item} {words : List Bytes}

/-- A group says anew whether there is a newline. -/
theorem parse_items (hne : ∀ g, .letters g ∈ items → g ≠ [])
    (hwords : ∀ f, parseEchoFlags f words = (f, words)) (f : Flags) :
    parseEchoFlags f (items.map Item.arg ++ words) =
      ({ noNewline := ((lastGroup items).map fun g => decide (.n ∈ g)).getD f.noNewline
         escape := (letters items).foldl Letter.escape f.escape
         jsonMode := f.jsonMode || items.any (· matches .json) }, words) := by
  induction items generalizing f with
  | nil => simpa [lastGroup, letters] using hwords f
  | cons item items ih =>
    have htail : ∀ g, .letters g ∈ items → g ≠ [] := fun g hg => hne g (mem_cons_of_mem _ hg)
    cases item with
    | json =>
      have hjson : Item.arg .json = str "--json" := rfl
      rw [map_cons, cons_append, parseEchoFlags, if_pos hjson, ih htail]
      simp [lastGroup, letters]
    | letters g =>
      obtain ⟨c, g, rfl⟩ := exists_cons_of_ne_nil (hne g mem_cons_self)
      obtain ⟨hvalid, hnnl, hesc⟩ := foldl_group (c :: g) {} f.escape
      have hjson : group (c :: g) ≠ str "--json" := by cases c <;> nofun
      have hdash : c.char ≠ 45 := by cases c <;> decide
      rw [map_cons, cons_append, parseEchoFlags, Item.arg, if_neg hjson]
      refine (if_pos ⟨by simp [group], rfl, by simpa [group] using hdash, hvalid⟩).trans ?_
      simp only [group, tail_cons]
      rw [ih htail, hnnl, hesc]
      cases hlast : lastGroup items <;> simp [letters, lastGroup, hlast, Group.escape]

theorem mem_letters_of_lastGroup {g : List Letter} (h : lastGroup items = some g) (hn : .n ∈ g) :
    .n ∈ letters items := by
  induction items generalizing g with
  | nil => cases h
  | cons item items ih =>
    cases item with
    | json => simpa [letters] using ih h hn
    | letters g' =>
      cases hlast : lastGroup items with
      | none => simp_all [lastGroup, letters]
      | some last => simp_all [lastGroup, letters]

/-- **Groups of options** are the options one after the other, unless there is an `n` but not in the
last group. In JSON this is not seen. -/
theorem run_groups_iff (hne : ∀ g, .letters g ∈ items → g ≠ [])
    (hwords : ∀ f, parseEchoFlags f words = (f, words)) :
    run (items.map Item.arg ++ words) = print (items.foldl Flags.apply {}) words ↔
      items.any (· matches .json) ∨
        (.n ∈ letters items → ∃ g, lastGroup items = some g ∧ .n ∈ g) := by
  simp only [run, parse_items hne hwords, foldl_apply, print, render, text, Bool.false_or]
  cases hjson : items.any (· matches .json) with
  | true => simp
  | false =>
    have hmem := @mem_letters_of_lastGroup items
    cases hlast : lastGroup items with
    | none => by_cases hn : .n ∈ letters items <;> simp [hn]
    | some g => by_cases hn : .n ∈ g <;> by_cases hl : .n ∈ letters items <;> simp_all

/-- `-en -E -n a b`: the last group has the `n`, and the last of `e` and `E` is `E`. -/
theorem run_groups_words :
    run ([.letters [.e, .n], .letters [.E], .letters [.n]].map Item.arg ++ [str "a", str "b"])
      = [.text (str "a b")] := by
  refine ((@run_groups_iff [.letters [.e, .n], .letters [.E], .letters [.n]] [str "a", str "b"]
    (by simp) fun _ => rfl).mpr (.inr fun _ => ⟨[.n], rfl, by simp⟩)).trans ?_
  rfl

/-- `-n -e` prints a newline. -/
theorem run_split : run [str "-n", str "-e"] ≠ run [str "-ne"] := by
  have hsplit : run [str "-n", str "-e"] = [.text (str "\n")] := rfl
  have hmerged : run [str "-ne"] = [.text []] := rfl
  rw [hsplit, hmerged]
  nofun

end GoPosix.Echo
