import Mathlib.Data.List.Nodup
import Mathlib.Logic.Relation
import GoPosix.Common.Flags

/-!
# The spellings of a flag

The arguments of a command say a list of items: operands, flags, and flags with a value. `Front`
relates the items to their spellings; `ParseFlags` does for any spelling what the items say
(`parseArgs_front`), and whatever it accepts is the spelling of some items (`spelled_of_parseArgs`).
So a rewriting that keeps the items keeps the result (`parseFlags_rewrites`), wherever a flag is
expected.
-/

namespace GoPosix.Common

open Bytes CompiledSpec List

/-! ## Looking up a name -/

/-- A specification with two proper names for every flag. -/
structure Plain (spec : FlagSpec) : Prop where
  preProcess : spec.preProcess = none
  length : spec.defs.length ≤ 100
  short : ∀ d ∈ spec.defs, ∃ b, d.short = [b] ∧ b < 128 ∧ b ≠ 45
  long : ∀ d ∈ spec.defs, d.long ≠ [] ∧ 61 ∉ d.long
  shorts : (spec.defs.map FlagDef.short).Nodup
  longs : (spec.defs.map FlagDef.long).Nodup

section Lookup

variable {defs : List FlagDef}

@[simp] theorem compileFrom_defs : (compileFrom cs i defs).defs = cs.defs := by
  induction defs generalizing cs i with
  | nil => rfl
  | cons d defs ih => rw [compileFrom, ih, compileDef]

@[simp] theorem compileFrom_stopAtFirst : (compileFrom cs i defs).stopAtFirst = cs.stopAtFirst := by
  induction defs generalizing cs i with
  | nil => rfl
  | cons d defs ih => rw [compileFrom, ih, compileDef]

theorem toInt8_eq (h : i < 128) : toInt8 i = i := by
  unfold toInt8
  omega

theorem compileDef_shortIdx_of_ne (h : d.short ≠ [b]) (ho : ∃ c, d.short = [c]) :
    (compileDef cs i d).shortIdx b = cs.shortIdx b := by
  obtain ⟨c, hc⟩ := ho
  have hne : b ≠ c := fun heq => h (by rw [hc, heq])
  unfold compileDef
  simp only [hc]
  split
  · exact Function.update_of_ne hne ..
  · rfl

theorem compileDef_shortIdx_self (h : d.short = [b]) (hb : b < 128) :
    (compileDef cs i d).shortIdx b = toInt8 i := by
  unfold compileDef
  simp only [h, if_pos hb]
  exact Function.update_self ..

theorem compileFrom_shortIdx_of_notMem (h : ∀ d ∈ defs, d.short ≠ [b])
    (ho : ∀ d ∈ defs, ∃ c, d.short = [c]) :
    (compileFrom cs i defs).shortIdx b = cs.shortIdx b := by
  induction defs generalizing cs i with
  | nil => rfl
  | cons d defs ih =>
    rw [forall_mem_cons] at h ho
    rw [compileFrom, ih h.2 ho.2, compileDef_shortIdx_of_ne h.1 ho.1]

theorem compileFrom_shortIdx (hk : defs[k]? = some d) (hd : d.short = [b]) (hb : b < 128)
    (hone : ∀ d ∈ defs, ∃ c, d.short = [c]) (hn : (defs.map FlagDef.short).Nodup) :
    (compileFrom cs i defs).shortIdx b = toInt8 (i + k) := by
  induction defs generalizing cs i k with
  | nil => cases hk
  | cons e defs ih =>
    rw [forall_mem_cons] at hone
    rw [map_cons, nodup_cons] at hn
    rw [compileFrom]
    cases k with
    | zero =>
      obtain rfl : e = d := Option.some.inj hk
      have ho : ∀ d' ∈ defs, d'.short ≠ [b] := by
        intro d' hd' hs
        apply hn.1
        rw [hd, ← hs]
        exact mem_map_of_mem hd'
      rw [compileFrom_shortIdx_of_notMem ho hone.2, compileDef_shortIdx_self hd hb]
      rfl
    | succ k => rw [ih hk hone.2 hn.2, Nat.add_right_comm, Nat.add_assoc]

def longEntries : (i : Nat) → List FlagDef → List (Bytes × Nat)
  | _, [] => []
  | i, d :: defs => (d.long, toUint8 i) :: longEntries (i + 1) defs

theorem compileFrom_longIdx (h : ∀ d ∈ defs, d.long ≠ []) :
    (compileFrom cs i defs).longIdx = cs.longIdx ++ longEntries i defs := by
  induction defs generalizing cs i with
  | nil => exact (append_nil _).symm
  | cons d defs ih =>
    rw [forall_mem_cons] at h
    rw [compileFrom, ih h.2, compileDef]
    simp only [if_pos h.1, longEntries, append_assoc, singleton_append]

theorem find?_longEntries_eq_none (h : ∀ d ∈ defs, d.long ≠ name) :
    ((longEntries i defs).find? fun entry => entry.1 = name) = none := by
  induction defs generalizing i with
  | nil => rfl
  | cons d defs ih =>
    rw [forall_mem_cons] at h
    rw [longEntries, List.find?_cons_of_neg (by simpa using h.1), ih h.2]

theorem find?_longEntries (hk : defs[k]? = some d) (hn : (defs.map FlagDef.long).Nodup) :
    ((longEntries i defs).find? fun entry => entry.1 = d.long) =
      some (d.long, toUint8 (i + k)) := by
  induction defs generalizing i k with
  | nil => cases hk
  | cons e defs ih =>
    rw [map_cons, nodup_cons] at hn
    rw [longEntries]
    cases k with
    | zero =>
      obtain rfl : e = d := Option.some.inj hk
      rw [List.find?_cons_of_pos (by simp)]
      rfl
    | succ k =>
      have hne : e.long ≠ d.long := by
        intro hs
        apply hn.1
        rw [hs]
        exact mem_map_of_mem (mem_of_getElem? hk)
      rw [List.find?_cons_of_neg (by simpa using hne), ih hk hn.2, Nat.add_right_comm,
        Nat.add_assoc]

/-- What a lookup finds, if it finds every name that there is and no other. -/
theorem lookup_iff {name : FlagDef → β} {x : β} {found : Option FlagDef}
    (hf : ∀ e ∈ defs, name e = x → found = some e)
      (hnone : (∀ e ∈ defs, name e ≠ x) → found = none) :
    found = some d ↔ d ∈ defs ∧ name d = x := by
  refine ⟨fun h => ?_, fun h => hf d h.1 h.2⟩
  by_cases hn : ∃ e ∈ defs, name e = x
  · obtain ⟨e, he, hx⟩ := hn
    obtain rfl := Option.some.inj ((hf e he hx).symm.trans h)
    exact ⟨he, hx⟩
  · cases (hnone fun e he hx => hn ⟨e, he, hx⟩).symm.trans h

variable {spec : FlagSpec} (hspec : Plain spec)

include hspec

theorem Plain.index_lt (hd : d ∈ spec.defs) : ∃ k, k < 100 ∧ spec.defs[k]? = some d := by
  obtain ⟨k, hk, hg⟩ := getElem_of_mem hd
  exact ⟨k, Nat.lt_of_lt_of_le hk hspec.length, by rw [List.getElem?_eq_getElem hk, hg]⟩

/-- **The short names.** -/
theorem Plain.lookupShort_iff :
    spec.compile.lookupShort b = some d ↔ d ∈ spec.defs ∧ d.short = [b] := by
  have hone : ∀ d ∈ spec.defs, ∃ c, d.short = [c] := fun d hd => (hspec.short d hd).imp fun _ h =>
    h.1
  refine lookup_iff (fun e he hs => ?_) fun ho => ?_
  · obtain ⟨c, hc, hlt, -⟩ := hspec.short e he
    obtain rfl : c = b := singleton_inj.mp (hc.symm.trans hs)
    obtain ⟨k, hk, hg⟩ := hspec.index_lt he
    have hi : spec.compile.shortIdx c = k := by
      rw [FlagSpec.compile, compileFrom_shortIdx hg hs hlt hone hspec.shorts, Nat.zero_add,
        toInt8_eq (by omega)]
    have hge : ¬ c ≥ 128 := UInt8.not_le.mpr hlt
    rw [lookupShort, if_neg hge, hi, FlagSpec.compile, compileFrom_defs]
    exact hg
  · have hi : spec.compile.shortIdx b = -1 := compileFrom_shortIdx_of_notMem ho hone
    rw [lookupShort, hi]
    simp

/-- **The long names.** -/
theorem Plain.lookupLong_iff :
    spec.compile.lookupLong name = some d ↔ d ∈ spec.defs ∧ d.long = name := by
  have hi : spec.compile.longIdx = longEntries 0 spec.defs := compileFrom_longIdx fun d hd =>
    (hspec.long d hd).1
  have hdefs : spec.compile.defs = spec.defs := compileFrom_defs
  refine lookup_iff (fun e he hl => ?_) fun ho => ?_
  · subst hl
    obtain ⟨k, hk, hg⟩ := hspec.index_lt he
    have hu : toUint8 k = k := Nat.mod_eq_of_lt (by omega)
    rw [lookupLong, hi, find?_longEntries hg hspec.longs, Nat.zero_add, hu, hdefs]
    exact hg
  · rw [lookupLong, hi, find?_longEntries_eq_none ho]
    rfl

end Lookup

/-! ## Items and their spellings -/

inductive Item
  | operand (arg : Bytes)
  | stdin
  | flag (d : FlagDef)
  | value (d : FlagDef) (v : Bytes)

def Item.apply (res : ParseResult) : Item → ParseResult
  | .operand arg => res.addPositional [arg]
  | .stdin => { res.addPositional [str "-"] with stdin := true }
  | .flag d => res.markFlag d
  | .value d v => res.putShort d v

def Item.operands : Item → List Bytes
  | .operand arg => [arg]
  | .stdin => [str "-"]
  | .flag _ => []
  | .value _ _ => []

/-- A long flag: its argument without the dashes, and the argument behind it that is its value. -/
inductive Long (spec : FlagSpec) : Bytes → List Bytes → Item → Prop
  | flag {d} (hd : d ∈ spec.defs) (htype : d.type = .bool) : Long spec d.long [] (.flag d)
  | flagEq {d} (hd : d ∈ spec.defs) (htype : d.type = .bool) (v : Bytes) :
      Long spec (d.long ++ 61 :: v) [] (.flag d)
  | eq {d} (hd : d ∈ spec.defs) (htype : d.type ≠ .bool) (v : Bytes) :
      Long spec (d.long ++ 61 :: v) [] (.value d v)
  | next {d} (hd : d ∈ spec.defs) (htype : d.type = .value) (v : Bytes) : Long spec d.long [v]
    (.value d v)
  | optional {d} (hd : d ∈ spec.defs) (htype : d.type = .optionalValue) : Long spec d.long []
    (.value d [])

/-- A cluster of short flags: the argument without the dash, and the argument behind it that is the
value of the last one. -/
inductive Cluster (spec : FlagSpec) : Bytes → List Bytes → List Item → Prop
  | nil : Cluster spec [] [] []
  | flag {d chars vs items} (hd : d ∈ spec.defs) (htype : d.type = .bool)
    (h : Cluster spec chars vs items) :
      Cluster spec (d.short ++ chars) vs (.flag d :: items)
  | glued {d v} (hd : d ∈ spec.defs) (htype : d.type ≠ .bool) (hv : v ≠ []) :
      Cluster spec (d.short ++ v) [] [.value d v]
  | next {d} (hd : d ∈ spec.defs) (htype : d.type = .value)
    (v : Bytes) : Cluster spec d.short [v] [.value d v]
  | optional {d} (hd : d ∈ spec.defs)
    (htype : d.type = .optionalValue) : Cluster spec d.short [] [.value d []]

/-- Arguments up to a place where a flag is expected, and what they say. -/
inductive Front (spec : FlagSpec) : List Bytes → List Item → Prop
  | nil : Front spec [] []
  | operand {arg args items} (hstop : spec.stopAtFirstNonFlag = false) (harg : kind arg = .operand)
      (h : Front spec args items) : Front spec (arg :: args) (.operand arg :: items)
  | stdin {args items} (h : Front spec args items) : Front spec (str "-" :: args) (.stdin :: items)
  | long {arg vs args item items} (harg : Long spec arg vs item) (h : Front spec args items) :
      Front spec ((45 :: 45 :: arg) :: (vs ++ args)) (item :: items)
  | short {chars vs args its items} (hne : chars ≠ []) (hchars : Cluster spec chars vs its)
      (h : Front spec args items) : Front spec ((45 :: chars) :: (vs ++ args)) (its ++ items)

/-- The arguments behind the last place where a flag is expected, and the operands among them. -/
inductive Final (spec : FlagSpec) : List Bytes → List Bytes → Prop
  | nil : Final spec [] []
  | endOfFlags (args : List Bytes) : Final spec (str "--" :: args) args
  | operand {arg} (hstop : spec.stopAtFirstNonFlag = true) (harg : kind arg = .operand)
    (args : List Bytes) :
      Final spec (arg :: args) (arg :: args)

/-- The arguments are spelled by some items, up to a place behind which there are no flags. -/
def Spelled (spec : FlagSpec) (args : List Bytes) : Prop :=
  ∃ front items tail operands, args = front ++ tail ∧ Front spec front items ∧
    Final spec tail operands

theorem Spelled.behind {spec : FlagSpec} (h : Spelled spec args)
    (hfront : ∀ {args items}, Front spec args items → ∃ items', Front spec (f ++ args) items') :
    Spelled spec (f ++ args) := by
  obtain ⟨front, items, tail, operands, rfl, h, hf⟩ := h
  obtain ⟨items', h'⟩ := hfront h
  exact ⟨_, items', tail, operands, (append_assoc ..).symm, h', hf⟩

theorem type_eq_value {d : FlagDef} (hb : d.type ≠ .bool) (ho : d.type ≠ .optionalValue) :
    d.type = .value := by
  cases ht : d.type with
  | bool => exact absurd ht hb
  | value => rfl
  | optionalValue => exact absurd ht ho

/-! ## What a spelling does -/

section

variable {spec : FlagSpec} {vs args front : List Bytes}
  {its items : List Item} {res res' : ParseResult}

theorem cutValue_append (h : 61 ∉ name) (s : Bytes) :
    cutValue (name ++ s) = (name ++ (cutValue s).1, (cutValue s).2) := by
  induction name with
  | nil => rfl
  | cons c name ih =>
    rw [mem_cons, not_or] at h
    rw [cons_append, cutValue, if_neg (Ne.symm h.1), ih h.2]
    rfl

theorem cutValue_eq (a : Bytes) : ((cutValue a).2 = none → a = (cutValue a).1) ∧
      ∀ v, (cutValue a).2 = some v → a = (cutValue a).1 ++ 61 :: v := by
  induction a with
  | nil => exact ⟨fun _ => rfl, nofun⟩
  | cons c a ih =>
    rw [cutValue]
    by_cases hc : c = 61
    · rw [if_pos hc]
      refine ⟨nofun, fun v h => ?_⟩
      rw [hc, ← Option.some.inj h]
      rfl
    · rw [if_neg hc]
      exact ⟨fun h => congrArg (c :: ·) (ih.1 h), fun v h => congrArg (c :: ·) (ih.2 v h)⟩

theorem kind_long (h : arg ≠ []) : kind (45 :: 45 :: arg) = .long arg := by
  simp [kind, h]

theorem kind_short (hb : b ≠ 45) (c : Bytes) : kind (45 :: b :: c) = .short (b :: c) := by
  simp [kind, hb]

theorem kind_cases (a : Bytes) :
    a = str "--" ∧ kind a = .endOfFlags ∨ a = str "-" ∧ kind a = .stdin ∨ kind a = .operand ∨
      (∃ name, a = 45 :: 45 :: name ∧ kind a = .long name) ∨
      ∃ ch, ch ≠ [] ∧ a = 45 :: ch ∧ kind a = .short ch := by
  match a with
  | [] => exact .inr (.inr (.inl rfl))
  | [c] =>
    by_cases hc : c = 45
    · subst hc
      exact .inr (.inl ⟨rfl, rfl⟩)
    · exact .inr (.inr (.inl (if_neg hc)))
  | c :: d :: s =>
    by_cases hc : c = 45
    · subst hc
      by_cases hd : d = 45
      · subst hd
        by_cases hs : s = []
        · subst hs
          exact .inl ⟨rfl, rfl⟩
        · exact .inr (.inr (.inr (.inl ⟨s, rfl, kind_long hs⟩)))
      · exact .inr (.inr (.inr (.inr ⟨d :: s, cons_ne_nil _ _, rfl, kind_short hd s⟩)))
    · exact .inr (.inr (.inl (if_pos hc)))

theorem operands_foldl (items : List Item) (res : ParseResult) :
    (items.foldl Item.apply res).positional = res.positional ++ items.flatMap Item.operands := by
  induction items generalizing res with
  | nil => exact (append_nil _).symm
  | cons i items ih =>
    have hi : (i.apply res).positional = res.positional ++ i.operands := by
      cases i with
      | operand a => rfl
      | stdin => rfl
      | flag d =>
        simp only [Item.apply, Item.operands, ParseResult.markFlag, append_nil]
        split <;> rfl
      | value d v =>
        simp only [Item.apply, Item.operands, ParseResult.putShort, append_nil]
        split <;> split <;> rfl
    rw [foldl_cons, ih, hi, flatMap_cons, append_assoc]

theorem length_le_one (h : Cluster spec chars vs its) : vs = [] ∨ ∃ v, vs = [v] := by
  induction h with
  | nil => exact .inl rfl
  | flag _ _ _ ih => exact ih
  | glued => exact .inl rfl
  | next _ _ v => exact .inr ⟨v, rfl⟩
  | optional => exact .inl rfl

theorem parseArgs_final {tail operands : List Bytes} (h : Final spec tail operands)
    (res : ParseResult) :
    spec.compile.parseArgs tail res = .ok (res.addPositional operands) := by
  cases h with
  | nil => rw [parseArgs, ParseResult.addPositional, append_nil]
  | endOfFlags args => rfl
  | operand hs hargs args =>
    have hgoes : spec.compile.stopAtFirst = true := by
      rw [FlagSpec.compile, compileFrom_stopAtFirst, hs]
    rw [parseArgs, hargs]
    simp [hgoes]

variable (hspec : Plain spec)

include hspec

theorem putLong_eq_putShort (hd : d ∈ spec.defs) (res : ParseResult) (v : Bytes) :
    res.putLong d v = res.putShort d v := by
  have hl := (hspec.long d hd).1
  simp only [ParseResult.putLong, ParseResult.putShort, if_pos hl]

/-- A long flag does what its item says, and takes the argument that is its value. -/
theorem parseLong_long (h : Long spec arg vs item) (args : List Bytes) (res : ParseResult) :
    spec.compile.parseLong arg (vs ++ args).head? res = .ok (item.apply res, !vs.isEmpty) := by
  have hn : ∀ d ∈ spec.defs, spec.compile.lookupLong d.long = some d := fun d hd =>
    hspec.lookupLong_iff.mpr ⟨hd, rfl⟩
  have hs : ∀ d ∈ spec.defs, cutValue d.long = (d.long, none) := fun d hd => by
    simpa [cutValue] using cutValue_append (hspec.long d hd).2 []
  have hc : ∀ d ∈ spec.defs, ∀ v, cutValue (d.long ++ 61 :: v) = (d.long, some v) :=
    fun d hd v => by
    simpa [cutValue] using cutValue_append (hspec.long d hd).2 (61 :: v)
  unfold parseLong
  cases h with
  | @flag d hd ht =>
    simp only [hs d hd, hn d hd, if_pos ht]
    rfl
  | @flagEq d hd ht v =>
    simp only [hc d hd, hn d hd, if_pos ht]
    rfl
  | @eq d hd ht v =>
    simp only [hc d hd, hn d hd, if_neg ht, putLong_eq_putShort hspec hd]
    rfl
  | @next d hd ht v =>
    have hb : d.type ≠ .bool := by rw [ht]; decide
    have ho : d.type ≠ .optionalValue := by rw [ht]; decide
    simp only [hs d hd, hn d hd, if_neg hb, if_neg ho, putLong_eq_putShort hspec hd]
    rfl
  | @optional d hd ht =>
    have hb : d.type ≠ .bool := by rw [ht]; decide
    simp only [hs d hd, hn d hd, if_neg hb, if_pos ht, putLong_eq_putShort hspec hd]
    rfl

theorem Plain.lookupShort_cons (hd : d ∈ spec.defs) : ∃ b, d.short = [b] ∧ b ≠ 45 ∧
    spec.compile.lookupShort b = some d := by
  obtain ⟨b, hb, -, hda⟩ := hspec.short d hd
  exact ⟨b, hb, hda, hspec.lookupShort_iff.mpr ⟨hd, hb⟩⟩

theorem parseShort_flag (hd : d ∈ spec.defs) (ht : d.type = .bool) (next : Option Bytes) (c : Bytes)
    (res : ParseResult) : spec.compile.parseShort next (d.short ++ c) res
      = spec.compile.parseShort next c (res.markFlag d) := by
  obtain ⟨b, hb, -, hl⟩ := hspec.lookupShort_cons hd
  rw [hb, singleton_append, parseShort, hl]
  simp only [if_pos ht]

/-- A cluster puts its options into the result one after another. -/
theorem parseShort_cluster (h : Cluster spec chars vs its) (args : List Bytes) (res : ParseResult) :
    spec.compile.parseShort (vs ++ args).head? chars res =
      .ok (its.foldl Item.apply res, !vs.isEmpty) := by
  induction h generalizing res with
  | nil => rfl
  | flag hd ht _ ih =>
    rw [parseShort_flag hspec hd ht, ih]
    rfl
  | @glued d v hd ht hv =>
    obtain ⟨b, hb, -, hl⟩ := hspec.lookupShort_cons hd
    rw [hb, singleton_append, parseShort, hl]
    simp only [if_neg ht, if_pos hv]
    rfl
  | @next d hd ht v =>
    obtain ⟨b, hb, -, hl⟩ := hspec.lookupShort_cons hd
    rw [hb, parseShort, hl]
    simp only [ht]
    rfl
  | @optional d hd ht =>
    obtain ⟨b, hb, -, hl⟩ := hspec.lookupShort_cons hd
    rw [hb, parseShort, hl]
    simp only [ht]
    rfl

theorem kind_cluster (hne : chars ≠ []) (h : Cluster spec chars vs its) :
    kind (45 :: chars) = .short chars := by
  have hh : ∀ d ∈ spec.defs, ∀ rest, kind (45 :: (d.short ++ rest)) = .short (d.short ++ rest) := by
    intro d hd rest
    obtain ⟨b, hb, hda, -⟩ := hspec.lookupShort_cons hd
    rw [hb]
    exact kind_short hda rest
  cases h with
  | nil => exact absurd rfl hne
  | flag hd _ _ => exact hh _ hd _
  | glued hd _ _ => exact hh _ hd _
  | next hd _ _ => simpa using hh _ hd []
  | optional hd _ => simpa using hh _ hd []

theorem long_ne_nil (h : Long spec arg vs item) : arg ≠ [] := by
  cases h with
  | flag hd _ => exact (hspec.long _ hd).1
  | flagEq hd _ _ => simp
  | eq hd _ _ => simp
  | next hd _ _ => exact (hspec.long _ hd).1
  | optional hd _ => exact (hspec.long _ hd).1

theorem parseArgs_long (h : Long spec arg vs item) (args : List Bytes) (res : ParseResult) :
    spec.compile.parseArgs ((45 :: 45 :: arg) :: (vs ++ args)) res =
      spec.compile.parseArgs args (item.apply res) := by
  have hl := parseLong_long hspec h args res
  rw [parseArgs, kind_long (long_ne_nil hspec h)]
  simp only [hl]
  cases h <;> rfl

theorem parseArgs_short (hne : chars ≠ []) (h : Cluster spec chars vs its) (args : List Bytes)
    (res : ParseResult) :
    spec.compile.parseArgs ((45 :: chars) :: (vs ++ args)) res
      = spec.compile.parseArgs args (its.foldl Item.apply res) := by
  have hs := parseShort_cluster hspec h args res
  rw [parseArgs, kind_cluster hspec hne h]
  simp only [hs]
  obtain rfl | ⟨v, rfl⟩ := length_le_one h
  · rfl
  · rfl

/-- **A spelling does what its items say**, and the loop goes on behind it. -/
theorem parseArgs_front (h : Front spec front items) (args : List Bytes) (res : ParseResult) :
    spec.compile.parseArgs (front ++ args) res =
      spec.compile.parseArgs args (items.foldl Item.apply res) := by
  induction h generalizing res with
  | nil => rfl
  | operand hs hargs _ ih =>
    have hgoes : spec.compile.stopAtFirst = false := by
      rw [FlagSpec.compile, compileFrom_stopAtFirst, hs]
    rw [cons_append, parseArgs, hargs]
    simp only [hgoes, Bool.false_eq_true]
    exact ih _
  | stdin _ ih => exact ih _
  | long hargs _ ih =>
    rw [cons_append, append_assoc, parseArgs_long hspec hargs, ih]
    rfl
  | short hne hc _ ih =>
    rw [cons_append, append_assoc, parseArgs_short hspec hne hc, ih, foldl_append]

/-! ## What is accepted is a spelling -/

/-- **What `parseLong` accepts is a long option**, with at most one value behind it. -/
theorem exists_long {next : Option Bytes}
    (h : spec.compile.parseLong arg next res = .ok (res', taken)) :
    ∃ vs i, Long spec arg vs i ∧
      (taken = false ∧ vs = [] ∨ ∃ v, taken = true ∧ vs = [v] ∧ next = some v) := by
  obtain ⟨hs, hc⟩ := cutValue_eq arg
  unfold parseLong at h
  simp only at h
  split at h
  · cases h
  next d hd =>
  obtain ⟨hm, hn⟩ := hspec.lookupLong_iff.mp hd
  cases hv : (cutValue arg).2 with
  | some v =>
    rw [hc v hv, ← hn]
    simp only [hv] at h
    split at h
    · next ht =>
      cases h
      exact ⟨[], _, .flagEq hm ht v, .inl ⟨rfl, rfl⟩⟩
    · next ht =>
      cases h
      exact ⟨[], _, .eq hm ht v, .inl ⟨rfl, rfl⟩⟩
  | none =>
    rw [hs hv, ← hn]
    simp only [hv] at h
    split at h
    · next ht =>
      cases h
      exact ⟨[], _, .flag hm ht, .inl ⟨rfl, rfl⟩⟩
    next ht =>
    split at h
    · next ho =>
      cases h
      exact ⟨[], _, .optional hm ho, .inl ⟨rfl, rfl⟩⟩
    next ho =>
    split at h
    · cases h
    next v =>
    cases h
    exact ⟨[v], _, .next hm (type_eq_value ht ho) v, .inr ⟨v, rfl, rfl, rfl⟩⟩

/-- **What `parseShort` accepts is a cluster**, with at most one value behind it. -/
theorem exists_cluster {next : Option Bytes}
    (h : spec.compile.parseShort next c res = .ok (res', taken)) :
    ∃ vs its, Cluster spec c vs its ∧
      (taken = false ∧ vs = [] ∨ ∃ v, taken = true ∧ vs = [v] ∧ next = some v) := by
  induction c generalizing res with
  | nil =>
    cases h
    exact ⟨[], [], .nil, .inl ⟨rfl, rfl⟩⟩
  | cons b c ih =>
    rw [parseShort] at h
    split at h
    · cases h
    next d hd =>
    obtain ⟨hm, hn⟩ := hspec.lookupShort_iff.mp hd
    have hc : b :: c = d.short ++ c := by rw [hn]; rfl
    split at h
    · next ht =>
      obtain ⟨vs, its, hcluster, htail⟩ := ih h
      refine ⟨vs, .flag d :: its, ?_, htail⟩
      rw [hc]
      exact .flag hm ht hcluster
    · next ht =>
      split at h
      · next hne =>
        cases h
        refine ⟨[], [.value d c], ?_, .inl ⟨rfl, rfl⟩⟩
        rw [hc]
        exact .glued hm ht hne
      · next hnil =>
        have hb : b :: c = d.short := by rw [hn, not_not.mp hnil]
        rw [hb]
        split at h
        · next ho =>
          cases h
          exact ⟨[], [.value d []], .optional hm ho, .inl ⟨rfl, rfl⟩⟩
        · next ho =>
          split at h
          · cases h
          next v =>
          cases h
          exact ⟨[v], _, .next hm (type_eq_value ht ho) v, .inr ⟨v, rfl, rfl, rfl⟩⟩

/-- **What is accepted is the spelling** of some items, and what is behind it. -/
theorem spelled_of_parseArgs (h : spec.compile.parseArgs args res = .ok res') :
    Spelled spec args := by
  -- the induction is on the number of arguments, since a value is taken together with its flag
  obtain ⟨n, hn⟩ : ∃ n, args.length ≤ n := ⟨_, Nat.le_refl _⟩
  induction n generalizing args res with
  | zero =>
    obtain rfl := length_eq_zero_iff.mp (Nat.le_zero.mp hn)
    exact ⟨[], [], [], [], rfl, .nil, .nil⟩
  | succ n ih =>
    cases args with
    | nil => exact ⟨[], [], [], [], rfl, .nil, .nil⟩
    | cons arg args =>
      have hn' : args.length ≤ n := Nat.le_of_succ_le_succ hn
      have hstop : spec.compile.stopAtFirst = spec.stopAtFirstNonFlag := compileFrom_stopAtFirst
      rw [parseArgs] at h
      rcases kind_cases arg with
        ⟨rfl, -⟩ | ⟨rfl, _⟩ | hk | ⟨name, rfl, hk⟩ | ⟨chars, hne, rfl, hk⟩
      · exact ⟨[], [], _, args, rfl, .nil, .endOfFlags args⟩
      · exact (ih h hn').behind (f := [_]) fun h => ⟨_, .stdin h⟩
      · simp only [hk, hstop] at h
        cases hs : spec.stopAtFirstNonFlag with
        | true => exact ⟨[], [], arg :: args, arg :: args, rfl, .nil, .operand hs hk args⟩
        | false =>
          simp only [hs, Bool.false_eq_true] at h
          exact (ih h hn').behind (f := [_]) fun h => ⟨_, .operand hs hk h⟩
      · simp only [hk] at h
        cases hp : spec.compile.parseLong name args.head? res with
        | error e =>
          rw [hp] at h
          cases h
        | ok r =>
          obtain ⟨r, taken⟩ := r
          obtain ⟨vs, i, hl, ⟨rfl, rfl⟩ | ⟨v, rfl, rfl, hv⟩⟩ := exists_long hspec hp
          · simp only [hp] at h
            exact (ih h hn').behind (f := [_]) fun h => ⟨_, .long hl h⟩
          · obtain ⟨args, rfl⟩ := List.head?_eq_some_iff.mp hv
            simp only [hp] at h
            exact (ih h (Nat.le_of_succ_le hn')).behind (f := [_, v]) fun h => ⟨_, .long hl h⟩
      · simp only [hk] at h
        cases hp : spec.compile.parseShort args.head? chars res with
        | error e =>
          rw [hp] at h
          cases h
        | ok r =>
          obtain ⟨r, taken⟩ := r
          obtain ⟨vs, its, hc, ⟨rfl, rfl⟩ | ⟨v, rfl, rfl, hv⟩⟩ := exists_cluster hspec hp
          · simp only [hp] at h
            exact (ih h hn').behind (f := [_]) fun h => ⟨_, .short hne hc h⟩
          · obtain ⟨args, rfl⟩ := List.head?_eq_some_iff.mp hv
            simp only [hp] at h
            exact (ih h (Nat.le_of_succ_le hn')).behind (f := [_, v]) fun h => ⟨_, .short hne hc h⟩

end

/-! ## Rewriting -/

/-- The spellings of a flag that needs a value. -/
def spellings (d : FlagDef) (v : Bytes) : List (List Bytes) :=
  [[45 :: (d.short ++ v)], [45 :: d.short, v], [45 :: 45 :: (d.long ++ 61 :: v)],
    [45 :: 45 :: d.long, v]]

/-- **A rewriting** of the arguments of a flag or of a cluster. -/
inductive Rewrite (spec : FlagSpec) : List Bytes → List Bytes → Prop
  | split {flags more} (hflags : ∀ b ∈ flags, ∃ d ∈ spec.defs, d.short = [b] ∧ d.type = .bool)
    (hne : flags ≠ [])
      (hmore : more ≠ []) : Rewrite spec [45 :: (flags ++ more)] [45 :: flags, 45 :: more]
  | long {d} (hd : d ∈ spec.defs) (htype : d.type ≠ .value) :
      Rewrite spec [45 :: d.short] [45 :: 45 :: d.long]
  | longValue {d v} (hd : d ∈ spec.defs) (htype : d.type = .optionalValue) (hv : v ≠ []) :
      Rewrite spec [45 :: (d.short ++ v)] [45 :: 45 :: (d.long ++ 61 :: v)]
  | move {d v} {old new : List Bytes} (hd : d ∈ spec.defs) (htype : d.type = .value) (hv : v ≠ [])
      (hold : old ∈ spellings d v) (hnew : new ∈ spellings d v) : Rewrite spec old new

/-- A rewriting somewhere among the arguments, at a place where a flag is expected. -/
inductive RewriteAt (spec : FlagSpec) : List Bytes → List Bytes → Prop
  | mk {front items args args'} (hfront : Front spec front items) (h : Rewrite spec args args')
    (back : List Bytes) :
      RewriteAt spec (front ++ (args ++ back)) (front ++ (args' ++ back))

section

variable {spec : FlagSpec} {args args' : List Bytes} {res res' : ParseResult}

theorem Plain.short_ne_nil (hspec : Plain spec) (hd : d ∈ spec.defs) : d.short ≠ [] := by
  obtain ⟨b, hb, -⟩ := hspec.short d hd
  rw [hb]
  exact cons_ne_nil _ _

theorem front_of_mem_spellings (hspec : Plain spec) (hd : d ∈ spec.defs) (ht : d.type = .value)
    (hv : v ≠ [])
    (h : args ∈ spellings d v) : Front spec args [.value d v] := by
  have hb : d.type ≠ .bool := by
    rw [ht]
    decide
  have hs := hspec.short_ne_nil hd
  simp only [spellings, mem_cons, not_mem_nil, or_false] at h
  rcases h with rfl | rfl | rfl | rfl
  · exact .short (by simp [hv]) (.glued hd hb hv) .nil
  · exact .short hs (.next hd ht v) .nil
  · exact .long (.eq hd hb v) .nil
  · exact .long (.next hd ht v) .nil

theorem parseShort_append (hspec : Plain spec)
    (hf : ∀ b ∈ f, ∃ d ∈ spec.defs, d.short = [b] ∧ d.type = .bool) :
    ∃ items, Cluster spec f [] items ∧ ∀ next m res, spec.compile.parseShort next (f ++ m) res
      = spec.compile.parseShort next m (items.foldl Item.apply res) := by
  induction f with
  | nil => exact ⟨[], .nil, fun _ _ _ => rfl⟩
  | cons b f ih =>
    rw [forall_mem_cons] at hf
    obtain ⟨d, hd, hb, ht⟩ := hf.1
    obtain ⟨items, hc, happend⟩ := ih hf.2
    have hcons : ∀ s, b :: s = d.short ++ s := fun s => by rw [hb]; rfl
    refine ⟨.flag d :: items, ?_, fun next m res => ?_⟩
    · rw [hcons]
      exact .flag hd ht hc
    · rw [cons_append, hcons, parseShort_flag hspec hd ht, happend]
      rfl

/-- **A cluster may be split** behind any of its flags. -/
theorem parseArgs_split (hspec : Plain spec)
    (hflags : ∀ b ∈ f, ∃ d ∈ spec.defs, d.short = [b] ∧ d.type = .bool) (hne : f ≠ []) (hm : m ≠ [])
    (h : spec.compile.parseArgs ((45 :: (f ++ m)) :: args) res = .ok res') :
    spec.compile.parseArgs ((45 :: f) :: (45 :: m) :: args) res = .ok res' := by
  obtain ⟨items, hcluster, happend⟩ := parseShort_append hspec hflags
  have hk : kind (45 :: (f ++ m)) = .short (f ++ m) := by
    obtain ⟨b, f', rfl⟩ := exists_cons_of_ne_nil hne
    obtain ⟨d, hd, hb, -⟩ := hflags b mem_cons_self
    obtain ⟨c, hc, hda, -⟩ := hspec.lookupShort_cons hd
    obtain rfl : c = b := singleton_inj.mp (hc.symm.trans hb)
    exact kind_short hda _
  -- what is left begins with the name of a flag too, or it would not be accepted
  have hk' : kind (45 :: m) = .short m := by
    obtain ⟨b, m', rfl⟩ := exists_cons_of_ne_nil hm
    apply kind_short
    rintro rfl
    have hunknown : spec.compile.lookupShort 45 = none := by
      cases hl : spec.compile.lookupShort 45 with
      | none => rfl
      | some d =>
        obtain ⟨hd, hn⟩ := hspec.lookupShort_iff.mp hl
        obtain ⟨c, hc, -, hda⟩ := hspec.short d hd
        exact absurd (singleton_inj.mp (hc.symm.trans hn)) hda
    rw [parseArgs, hk] at h
    simp only [happend, parseShort, hunknown] at h
    cases h
  have hf := parseArgs_short hspec hne hcluster ((45 :: m) :: args) res
  rw [nil_append] at hf
  rw [hf, parseArgs, hk']
  rw [parseArgs, hk] at h
  simp only [happend] at h
  exact h

/-- **One rewriting.** -/
theorem parseArgs_rewrite (hspec : Plain spec) (h : Rewrite spec args args') (b : List Bytes)
    (hr : spec.compile.parseArgs (args ++ b) res = .ok res') :
    spec.compile.parseArgs (args' ++ b) res = .ok res' := by
  have hs : ∀ {items}, Front spec args items → Front spec args' items →
      spec.compile.parseArgs (args' ++ b) res = .ok res' := by
    intro items hargs hargs'
    rw [parseArgs_front hspec hargs' b, ← parseArgs_front hspec hargs b]
    exact hr
  cases h with
  | split hf hne hm => exact parseArgs_split hspec hf hne hm hr
  | @long d hd htype =>
    have hshort := hspec.short_ne_nil hd
    cases ht : d.type with
    | bool =>
      have hc : Cluster spec d.short [] [.flag d] := by
        simpa using Cluster.flag hd ht .nil
      exact hs (.short hshort hc .nil) (.long (.flag hd ht) .nil)
    | value => exact absurd ht htype
    | optionalValue =>
      exact hs (.short hshort (.optional hd ht) .nil) (.long (.optional hd ht) .nil)
  | @longValue d v hd htype hv =>
    have hb : d.type ≠ .bool := by
      rw [htype]
      decide
    exact hs (.short (by simp [hv]) (.glued hd hb hv) .nil) (.long (.eq hd hb v) .nil)
  | move hd htype hv hold hn =>
    exact hs (front_of_mem_spellings hspec hd htype hv hold)
      (front_of_mem_spellings hspec hd htype hv hn)

theorem parseFlags_eq (hspec : Plain spec) :
    parseFlags args spec = spec.compile.parseArgs args newParseResult := by
  rw [parseFlags, hspec.preProcess]

end

/-- **Spelling does not matter.** Rewritings keep the result. What is accepted is a front, with the
operands in order, and what is behind its last flag; everything behind `--` is an operand. -/
theorem parseFlags_rewrites {spec : FlagSpec} (hspec : Plain spec) :
    (∀ args args' res, parseFlags args spec = .ok res →
      Relation.ReflTransGen (RewriteAt spec) args args' →
      parseFlags args' spec = .ok res) ∧
    (∀ args res, parseFlags args spec = .ok res → ∃ front items tail operands,
      args = front ++ tail ∧
      Front spec front items ∧ Final spec tail operands ∧
      res.positional = items.flatMap Item.operands ++ operands) ∧
    ∀ front items args, Front spec front items →
      ∃ res, parseFlags (front ++ str "--" :: args) spec = .ok res ∧
      res.positional = items.flatMap Item.operands ++ args := by
  have hr : ∀ {front items tail operands}, Front spec front items → Final spec tail operands →
      parseFlags (front ++ tail) spec =
          .ok ((items.foldl Item.apply newParseResult).addPositional operands) := by
    intro front items tail operands hf hfinal
    rw [parseFlags_eq hspec, parseArgs_front hspec hf, parseArgs_final hfinal]
  have hp : ∀ (items : List Item) (operands : List Bytes),
      ((items.foldl Item.apply newParseResult).addPositional operands).positional
        = items.flatMap Item.operands ++ operands := by
    intro items operands
    show (items.foldl Item.apply newParseResult).positional ++ operands = _
    rw [operands_foldl]
    rfl
  refine ⟨fun args args' res hrs hrefine => ?_, fun args res hrs => ?_, fun front items args hf =>
    ?_⟩
  · induction hrefine with
    | refl => exact hrs
    | tail _ hs ih =>
      cases hs with
      | mk hf hrw back =>
        rw [parseFlags_eq hspec, parseArgs_front hspec hf] at ih ⊢
        exact parseArgs_rewrite hspec hrw back ih
  · rw [parseFlags_eq hspec] at hrs
    obtain ⟨front, items, tail, operands, rfl, hf, hfinal⟩ := spelled_of_parseArgs hspec hrs
    refine ⟨front, items, tail, operands, rfl, hf, hfinal, ?_⟩
    rw [← parseFlags_eq hspec, hr hf hfinal] at hrs
    rw [← Except.ok.inj hrs]
    exact hp items operands
  · exact ⟨_, hr hf (.endOfFlags args), hp items args⟩

/-- A flag without a value and one that needs one. -/
def twoFlags : FlagSpec :=
  ⟨[⟨str "a", str "all", .bool⟩, ⟨str "o", str "output", .value⟩], false, none⟩

/-- A cluster is split, its flag is written out, and the value is moved. -/
theorem parseFlags_rewrites_twoFlags : (parseFlags [str "-ao", str "x", str "y"] twoFlags).toOption
      = (parseFlags [str "--all", str "--output=x", str "y"] twoFlags).toOption := by
  have hspec : Plain twoFlags := by
    refine ⟨rfl, by decide, ?_, ?_, by decide, by decide⟩
    · intro d hd
      rcases mem_cons.mp hd with rfl | hd
      · exact ⟨97, rfl, by decide, by decide⟩
      · obtain rfl := mem_singleton.mp hd
        exact ⟨111, rfl, by decide, by decide⟩
    · decide
  have ha : (⟨str "a", str "all", .bool⟩ : FlagDef) ∈ twoFlags.defs := by decide
  have ho : (⟨str "o", str "output", .value⟩ : FlagDef) ∈ twoFlags.defs := by decide
  have hs : RewriteAt twoFlags [str "-ao", str "x", str "y"]
      [str "-a", str "-o", str "x", str "y"] :=
    .mk .nil (@Rewrite.split twoFlags [97] [111] (by simpa using ⟨_, ha, rfl, rfl⟩) (by decide)
      (by decide))
      [str "x", str "y"]
  have hl : RewriteAt twoFlags [str "-a", str "-o", str "x", str "y"]
      [str "--all", str "-o", str "x", str "y"] :=
    .mk .nil (.long ha (by decide)) [str "-o", str "x", str "y"]
  have hf : Front twoFlags [str "--all"] [.flag ⟨str "a", str "all", .bool⟩] :=
    .long (.flag ha rfl) .nil
  have hm : RewriteAt twoFlags [str "--all", str "-o", str "x", str "y"]
      [str "--all", str "--output=x", str "y"] :=
    .mk hf (@Rewrite.move twoFlags _ (str "x") [str "-o", str "x"] [str "--output=x"] ho rfl
      (by decide)
      (by decide) (by decide)) [str "y"]
  have hr : parseFlags [str "-ao", str "x", str "y"] twoFlags = .ok _ := rfl
  rw [hr, (parseFlags_rewrites hspec).1 _ _ _ hr
    (((Relation.ReflTransGen.single hs).tail hl).tail hm)]

end GoPosix.Common
