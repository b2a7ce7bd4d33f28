import GoPosix.Sed.Compile
import GoPosix.Sed.Template

/-!
# The command s without g

The engine finds a match, cuts it out and replaces the matches of what it has cut out, so the
replacement depends on what the pattern finds there. The flag for `t` is set, and the flags `p` and
`w` are obeyed, once the pattern matches at all. `substitute_eq_iff` says for which matches all
clean replacements are made as they are meant.
-/

namespace GoPosix.Sed

open List Bytes

/-! ## Matches -/

/-- A match in a text, with the texts of the groups in it. -/
structure Match where
  start : Nat
  stop : Nat
  groups : List Bytes

def Match.text (m : Match) (s : Bytes) : Bytes := (s.take m.stop).drop m.start

/-- The texts that a replacement can refer to. The first one is the whole match. -/
def Match.group (m : Match) (s : Bytes) : Nat → Bytes
  | 0 => m.text s
  | n + 1 => m.groups.getD n []

/-- A text with another one in place of a match. -/
def Match.splice (m : Match) (s text : Bytes) : Bytes := s.take m.start ++ text ++ s.drop m.stop

/-- A pattern by what it finds: its matches in a text from left to right, none overlapping
another. -/
structure Pattern where
  findAll : Bytes → List Match
  bounds : ∀ s, ∀ m ∈ findAll s, m.start ≤ m.stop ∧ m.stop ≤ s.length
  names : Names

namespace Pattern

/-- The text from `pos` on with its matches replaced. -/
def replaceFrom (p : Pattern) (src repl : Bytes) : (pos : Nat) → List Match → Bytes
  | pos, [] => src.drop pos
  | pos, m :: ms =>
    (src.take m.start).drop pos ++ p.names.expand repl (m.group src) ++
      p.replaceFrom src repl m.stop ms

/-- The methods of the compiled pattern. -/
def compile (p : Pattern) : Regexp where
  matchString s := !(p.findAll s).isEmpty
  replaceAllString src repl := p.replaceFrom src repl 0 (p.findAll src)
  findStringIndex s := (p.findAll s).head?.map fun m => (m.start, m.stop)
  findAllStringIndex s := (p.findAll s).map fun m => (m.start, m.stop)

/-- Cut out of the text, the match is found again as a whole, with the groups that a replacement can
refer to. -/
def FoundAgain (p : Pattern) (m : Match) (s : Bytes) : Prop :=
  ∃ groups, p.findAll (m.text s) = [⟨0, (m.text s).length, groups⟩] ∧
    ∀ n < 9, groups.getD n [] = m.groups.getD n []

variable {p : Pattern}

/-- A replacement of one byte adds a byte for each match to what is between them. -/
theorem length_replaceFrom (src : Bytes) (pos : Nat) (ms : List Match) :
    (p.replaceFrom src (template 47 [120]) pos ms).length =
      (p.replaceFrom src (template 47 []) pos ms).length + ms.length := by
  have hx : Clean p.names (pieces 47 [120]) := ⟨by decide, nofun, trivial⟩
  have hnil : Clean p.names (pieces 47 []) := trivial
  induction ms generalizing pos with
  | nil => rfl
  | cons m ms ih =>
    simp only [replaceFrom, expand_template hx, expand_template hnil, length_append, ih,
      length_cons]
    have htexts : (texts (m.group src) (pieces 47 [120])).length =
        (texts (m.group src) (pieces 47 [])).length + 1 := rfl
    omega

theorem replaceFrom_single (src repl : Bytes) (groups : List Bytes) :
    p.replaceFrom src repl 0 [⟨0, src.length, groups⟩] =
      p.names.expand repl (Match.group ⟨0, src.length, groups⟩ src) := by
  simp [replaceFrom]

/-- A match that every clean replacement is made at in its cut is found again. -/
theorem foundAgain_of_replaced {src : Bytes} {groups : Nat → Bytes}
    (h : ∀ delim raw, Clean p.names (pieces delim raw) →
      p.replaceFrom src (template delim raw) 0 (p.findAll src) = texts groups (pieces delim raw)) :
    ∃ groups', p.findAll src = [⟨0, src.length, groups'⟩] ∧
      ∀ n < 9, groups'.getD n [] = groups (n + 1) := by
  have hnil := h 47 [] trivial
  have hone := congrArg length (h 47 [120] ⟨by decide, nofun, trivial⟩)
  rw [length_replaceFrom, hnil] at hone
  -- one match, and nothing before or behind it
  obtain ⟨m, hm⟩ : ∃ m, p.findAll src = [m] := 
    length_eq_one_iff.mp (by simpa [texts, pieces, Piece.text] using hone)
  obtain ⟨hle, hstop⟩ := p.bounds src m (by rw [hm]; exact mem_singleton_self m)
  have hclean : Clean p.names (pieces 47 []) := trivial
  rw [hm, replaceFrom, replaceFrom, expand_template hclean] at hnil
  obtain ⟨hbefore, hbehind⟩ := append_eq_nil_iff.mp hnil
  rw [append_eq_nil_iff, drop_zero, take_eq_nil_iff] at hbefore
  rw [drop_eq_nil_iff] at hbehind
  have hstop' : m.stop = src.length := Nat.le_antisymm hstop hbehind
  have hstart : m.start = 0 := by
    rcases hbefore.1 with h0 | h0
    · exact h0
    · rw [h0] at hstop
      exact Nat.le_zero.mp (hle.trans hstop)
  obtain ⟨start, stop, groups'⟩ := m
  obtain rfl : start = 0 := hstart
  obtain rfl : stop = src.length := hstop'
  refine ⟨groups', hm, fun n hn => ?_⟩
  have hpiece := pieces_digit ⟨n + 1, by omega⟩
  have href : Clean p.names (pieces 47 [92, UInt8.ofNat (48 + (n + 1))]) := by
    rw [hpiece]
    exact ⟨rfl, trivial⟩
  have hgroup := h 47 _ href
  rw [hm, replaceFrom_single, expand_template href, hpiece] at hgroup
  simpa [texts, Piece.text, Match.group] using hgroup

theorem replaced_of_foundAgain {m : Match} (h : p.FoundAgain m s)
    (hclean : Clean p.names (pieces delim raw)) :
    p.compile.replaceAllString (m.text s) (template delim raw) =
      texts (m.group s) (pieces delim raw) := by
  obtain ⟨groups, hfind, hgroups⟩ := h
  simp only [compile]
  rw [hfind, replaceFrom_single, expand_template hclean]
  refine texts_congr (fun d => ?_) _
  obtain ⟨_ | n, hd⟩ := d
  · change ((m.text s).take (m.text s).length).drop 0 = m.text s
    rw [take_length, drop_zero]
  · exact hgroups n (by omega)

end Pattern

/-! ## What the flags ask for -/

def Reports (o : Options) (s : Substitution) : Prop :=
  s.print = true ∨ s.wFile ≠ [] ∧ o.canAppend s.wFile = true

namespace Engine

def report (o : Options) (s : Substitution) (e : Engine) : Engine :=
  let e := if s.print then e.printLine o e.patSpace else e
  if s.wFile ≠ [] then e.printFile o s.wFile else e

/-- The command as it is meant: the match that is asked for is replaced with its own groups, and
nothing happens if there is none. -/
def substituteNth (o : Options) (s : Substitution) (ps : List Piece) (p : Pattern) (e : Engine) :
    Engine :=
  let e := { e with lastRegex := some p.compile }
  match (p.findAll e.patSpace)[s.subNum - 1]? with
  | none => e
  | some m => report o s { e with
      substituted := true, patSpace := m.splice e.patSpace (texts (m.group e.patSpace) ps) }

theorem printStream_patSpace (w : Stream) (t id : Bytes) (e : Engine) :
    (e.printStream w t id).patSpace = e.patSpace := by
  unfold printStream endLine
  dsimp only
  split <;> split <;> rfl

theorem length_events_lt_printStream (w : Stream) (t id : Bytes) (e : Engine) :
    e.events.length < (e.printStream w t id).events.length := by
  unfold printStream endLine emit setLacked
  dsimp only
  split <;> split <;> simp

variable {o : Options} {s : Substitution} {e : Engine} {p : Pattern}

theorem report_patSpace : (e.report o s).patSpace = e.patSpace := by
  grind [report, printFile, printLine, printStream_patSpace]

theorem report_eq_self (h : ¬ Reports o s) : e.report o s = e := by
  grind [report, printFile, Reports]

theorem length_events_lt_report (h : Reports o s) :
    e.events.length < (e.report o s).events.length := by
  grind [report, printFile, printLine, Reports, length_events_lt_printStream]

end Engine

/-! ## The command -/

variable {o : Options} {s : Substitution} {e : Engine} {p : Pattern}

theorem Match.splice_inj {m : Match} : m.splice t x = m.splice t y ↔ x = y := by
  simp [splice]

theorem Substitution.replace_eq (hg : s.global = false) (t : Bytes) : s.replace p.compile t =
    match (p.findAll t)[s.subNum - 1]? with
    | some m => m.splice t (p.compile.replaceAllString (m.text t) s.repl)
    | none => t := by
  have hf : p.compile.findStringIndex t = (p.compile.findAllStringIndex t)[0]? := by
    simp [Pattern.compile, List.head?_eq_getElem?]
  have hn : (p.compile.findAllStringIndex t)[s.subNum - 1]?
      = ((p.findAll t)[s.subNum - 1]?).map fun m => (m.start, m.stop) := List.getElem?_map ..
  unfold replace
  rw [hg, hf, if_neg Bool.false_ne_true]
  split
  · rw [hn]
    cases (p.findAll t)[s.subNum - 1]? <;> rfl
  obtain h0 : s.subNum - 1 = 0 := by omega
  rw [h0] at hn ⊢
  rw [hn]
  cases (p.findAll t)[0]? <;> rfl

/-- The command with another replacement, as it is written in the script. -/
def Substitution.withText (s : Substitution) (delim : UInt8) (raw : Bytes) : Substitution :=
  { s with repl := template delim raw }

theorem Engine.substitute_withText (hp : (s.regexp <|> e.lastRegex) = some p.compile)
    (delim : UInt8) (raw : Bytes) : e.substitute o (s.withText delim raw) =
      if p.findAll e.patSpace = [] then { e with lastRegex := some p.compile }
      else report o s { e with
        lastRegex := some p.compile, substituted := true,
        patSpace := (s.withText delim raw).replace p.compile e.patSpace } := by
  have hp' : ((s.withText delim raw).regexp <|> e.lastRegex) = some p.compile := hp
  have hm : p.compile.matchString e.patSpace = !(p.findAll e.patSpace).isEmpty := rfl
  unfold substitute
  rw [hp']
  simp only [hm]
  cases p.findAll e.patSpace <;> rfl

/-- One replacement is made as it is meant exactly if the right text stands in place of the match;
or, if there is none, there is no match at all or no flag shows a difference. -/
theorem Engine.substitute_eq_nth_iff (hg : s.global = false)
    (hp : (s.regexp <|> e.lastRegex) = some p.compile) (delim : UInt8) (raw : Bytes) :
    e.substitute o (s.withText delim raw) = e.substituteNth o s (pieces delim raw) p ↔
      match (p.findAll e.patSpace)[s.subNum - 1]? with
      | some m => p.compile.replaceAllString (m.text e.patSpace) (template delim raw) =
          texts (m.group e.patSpace) (pieces delim raw)
      | none => p.findAll e.patSpace = [] ∨ e.substituted = true ∧ ¬ Reports o s := by
  rw [substitute_withText hp, (s.withText delim raw).replace_eq hg, substituteNth,
    show (s.withText delim raw).subNum = s.subNum from rfl,
    show (s.withText delim raw).repl = template delim raw from rfl]
  cases hm : (p.findAll e.patSpace)[s.subNum - 1]? with
  | some m =>
    rw [if_neg fun h => by simp [h] at hm]
    constructor
    · intro h
      have h := congrArg patSpace h
      rwa [report_patSpace, report_patSpace, Match.splice_inj] at h
    · intro h
      simp only [h]
  | none =>
    by_cases hn : p.findAll e.patSpace = []
    · simp [hn]
    simp only [hn, if_false, false_or]
    constructor
    · intro h
      by_cases hr : Reports o s
      · exact absurd (congrArg (length ∘ events) h) (length_events_lt_report hr).ne'
      rw [report_eq_self hr] at h
      exact ⟨(congrArg substituted h).symm, hr⟩
    · intro ⟨hs, hr⟩
      rw [report_eq_self hr, ← hs]

/-- **The command `s` without `g`** makes every clean replacement as it is meant, exactly if the
match that is asked for is found again when it is cut out; or, if there is none, there is no match
at all or no flag shows a difference. -/
theorem Engine.substitute_eq_iff (hg : s.global = false)
    (hp : (s.regexp <|> e.lastRegex) = some p.compile) :
    (∀ delim raw, Clean p.names (pieces delim raw) →
      e.substitute o (s.withText delim raw) = e.substituteNth o s (pieces delim raw) p) ↔
      match (p.findAll e.patSpace)[s.subNum - 1]? with
      | some m => p.FoundAgain m e.patSpace
      | none => p.findAll e.patSpace = [] ∨ e.substituted = true ∧ ¬ Reports o s := by
  simp only [substitute_eq_nth_iff hg hp]
  cases (p.findAll e.patSpace)[s.subNum - 1]? with
  | some m =>
    constructor
    · exact Pattern.foundAgain_of_replaced
    · exact fun h delim raw => Pattern.replaced_of_foundAgain h
  | none => exact ⟨fun h => h 47 [] trivial, fun h _ _ _ => h⟩

/-- No group has a name, and nothing outside ASCII is a letter. -/
def noNames : Names := ⟨fun _ => none, fun _ => 0⟩

/-- The pattern `b`, or `\Bb`, the letter behind another one. -/
def letterB (inner : Bool) : Pattern where
  findAll t := (range t.length).filterMap fun i =>
    if (inner → 0 < i) ∧ t[i]? = some 98 then some ⟨i, i + 1, []⟩ else none
  bounds t m hm := by
    obtain ⟨i, hi, hm⟩ := mem_filterMap.mp hm
    split at hm <;> cases hm
    exact ⟨Nat.le_succ i, mem_range.mp hi⟩
  names := noNames

def replaceB (inner print : Bool) (subNum : Nat) : Substitution :=
  ⟨some (letterB inner).compile, [], false, print, subNum, []⟩

def holdingAB : Engine := { Engine.initial 1 with patSpace := str "ab" }

/-- The letter is found again, and `[&]` is clean. -/
theorem Engine.substitute_eq_iff_plain :
    (letterB false).FoundAgain ⟨1, 2, []⟩ (str "ab") ∧
      (holdingAB.substitute quiet ((replaceB false true 1).withText 47 (str "[&]"))).patSpace =
        str "a[b]" ∧
      holdingAB.substitute quiet ((replaceB false true 1).withText 47 (str "[&]")) =
        holdingAB.substituteNth quiet (replaceB false true 1) (pieces 47 (str "[&]"))
          (letterB false) := by
  have hagain : (letterB false).FoundAgain ⟨1, 2, []⟩ (str "ab") := ⟨[], rfl, fun _ _ => rfl⟩
  have hclean : Clean noNames (pieces 47 (str "[&]")) :=
    ⟨by decide, nofun, by decide, by decide, nofun, trivial⟩
  exact ⟨hagain, by decide, (substitute_eq_iff rfl rfl).mpr hagain 47 (str "[&]") hclean⟩

/-- Cut out of `ab`, the letter is not behind another one any more, and stays. The flags are obeyed
for a second match, which there is not. -/
theorem Engine.substitute_inner :
    (holdingAB.substitute quiet ((replaceB true false 0).withText 47 (str "X"))).patSpace =
      str "ab" ∧
      (holdingAB.substituteNth quiet (replaceB true false 0) (pieces 47 (str "X"))
        (letterB true)).patSpace = str "aX" ∧
      (holdingAB.substitute quiet ((replaceB true true 2).withText 47 (str "X"))).events =
        [.write .stdout (str "ab")] ∧
      (holdingAB.substituteNth quiet (replaceB true true 2) (pieces 47 (str "X"))
        (letterB true)).events = [] := by
  decide

/-- `\1bar` is taken for a name. -/
example : noNames.expand (template 47 (str "\\1bar")) (fun _ => str "foo") = [] := by decide

end GoPosix.Sed
