import GoPosix.Ar.Basic
import GoPosix.Lib.OrderedMap

/-!
# An archive is an ordered map

`arReplace` finds the member of an operand by an index of the names and puts it in its place, or
behind the others; as long as the index is right this is `OrderedMap.put` for one operand after the
other (`replaceLoop_eq`). `arDelete` is a filter. So an archive keeps its order through any sequence
of operations (`archive_orderedMap`).
-/

namespace GoPosix.Ar

open Bytes OrderedMap List Entry Filepath Function

def members (archive : Archive) : List Entry := archive.getD []

def names (archive : Archive) : List Bytes := (members archive).map name

def Input.member (input : Input) : Option Entry :=
  match input.read, input.stat with
  | .ok data, .ok info => some (input.entry data info)
  | _, _ => none

/-- **Nothing fails** in an operation. -/
structure Op.Fine (op : Op) : Prop where
  archive : op.archiveErr = none
  flush : op.flushErr = none
  files : ∀ files, op.action = .replace files → ∀ input ∈ files, input.member.isSome = true
  operands : ∀ toDelete, op.action = .delete toDelete → toDelete ≠ []

/-- **What an operation is for.** The operands of `r` give their members new contents, the last one
counts, and new names come behind the others. `d` removes the members with the names or base names
of its operands. -/
def Action.Meets (before after : Archive) : Action → Prop
  | .replace files =>
    names after = names before ++ newKeys (names before) (files.map fun input => base input.file) ∧
      ∀ name, lookup Entry.name (members after) name =
        (lookup Entry.name (files.filterMap Input.member).reverse name).or
          (lookup Entry.name (members before) name)
  | .delete toDelete =>
    members after = (members before).filter fun e =>
      e.name ∉ toDelete ∧ e.name ∉ toDelete.map base

section

variable {entries : List Entry} {files : List Input} {index : Bytes → Option Nat}
    {archive : Archive} {op : Op}
  {verbose : Bool} {out : Bytes} {input : Input}

theorem resize_eq (e : Entry) : e.resize = e := by
  obtain ⟨name, mt, u, g, mode, size, data, s⟩ := e
  subst s
  rfl

/-! ## Replacing -/

/-- The index is right: it leads from each name to its member. -/
def Indexed (entries : List Entry) (index : Bytes → Option Nat) : Prop :=
  ∀ name i, index name = some i ↔ ∃ e, entries[i]? = some e ∧ e.name = name

theorem buildIndex_of_notMem {name : Bytes} (h : name ∉ entries.map Entry.name) (i : Nat) :
    buildIndex i entries index name = index name := by
  induction entries generalizing i index with
  | nil => rfl
  | cons e entries ih =>
    rw [map_cons, mem_cons, not_or] at h
    rw [buildIndex, ih h.2, update_of_ne h.1]

theorem buildIndex_of_getElem {name : Bytes} (hn : (entries.map Entry.name).Nodup)
    (hj : entries[j]? = some e) (hname : e.name = name) (i : Nat) :
    buildIndex i entries index name = some (i + j) := by
  induction entries generalizing i j index with
  | nil => cases hj
  | cons x entries ih =>
    rw [map_cons, nodup_cons] at hn
    rw [buildIndex]
    cases j with
    | zero =>
      obtain rfl : x = e := Option.some.inj hj
      rw [buildIndex_of_notMem (by rw [← hname]; exact hn.1), hname, update_self]
      rfl
    | succ j =>
      rw [ih hn.2 hj]
      congr 1
      omega

theorem indexed_buildIndex (hn : (entries.map name).Nodup) :
    Indexed entries (buildIndex 0 entries fun _ => none) := by
  intro name i
  constructor
  · intro h
    by_cases hm : name ∈ entries.map Entry.name
    · obtain ⟨e, he, rfl⟩ := mem_map.mp hm
      obtain ⟨j, hj, hg⟩ := getElem_of_mem he
      have hget? : entries[j]? = some e := by rw [List.getElem?_eq_getElem hj, hg]
      rw [buildIndex_of_getElem hn hget? rfl, Nat.zero_add] at h
      obtain rfl := Option.some.inj h
      exact ⟨e, hget?, rfl⟩
    · rw [buildIndex_of_notMem hm] at h
      cases h
  · rintro ⟨e, he, rfl⟩
    rw [buildIndex_of_getElem hn he rfl, Nat.zero_add]

theorem Indexed.set (h : Indexed entries index) (hid : index e.name = some idx) :
    Indexed (entries.set idx e) index := by
  obtain ⟨x, hx, hn⟩ := (h e.name idx).mp hid
  have hlt : idx < entries.length := (List.getElem?_eq_some_iff.mp hx).1
  intro name i
  rw [h name i]
  by_cases hi : i = idx
  · subst hi
    rw [hx, List.getElem?_set_self hlt]
    simp [hn]
  · rw [List.getElem?_set_ne (Ne.symm hi)]

/-- A new member goes to the end, and the index points to it. -/
theorem Indexed.append (h : Indexed entries index) (hnone : index e.name = none) :
    Indexed (entries ++ [e]) (update index e.name (some entries.length)) := by
  intro name i
  by_cases hn : name = e.name
  · subst hn
    rw [update_self, Option.some.injEq]
    constructor
    · rintro rfl
      exact ⟨e, by simp, rfl⟩
    rintro ⟨x, hx, hxn⟩
    by_contra hne
    have hlt : i < entries.length := by
      have hl := (List.getElem?_eq_some_iff.mp hx).1
      rw [length_append, length_singleton] at hl
      omega
    rw [List.getElem?_append_left hlt] at hx
    have hf := (h e.name i).mpr ⟨x, hx, hxn⟩
    rw [hnone] at hf
    cases hf
  · rw [update_of_ne hn, h name i]
    constructor
    · rintro ⟨x, hx, hxn⟩
      exact ⟨x, List.getElem?_append_left (List.getElem?_eq_some_iff.mp hx).1 ▸ hx, hxn⟩
    rintro ⟨x, hx, hxn⟩
    rcases Nat.lt_or_ge i entries.length with hlt | hge
    · rw [List.getElem?_append_left hlt] at hx
      exact ⟨x, hx, hxn⟩
    rw [List.getElem?_append_right hge] at hx
    obtain rfl : e = x := by
      cases hs : i - entries.length with
      | zero =>
        rw [hs] at hx
        exact Option.some.inj hx
      | succ n =>
        rw [hs] at hx
        cases hx
    exact absurd hxn.symm hn

theorem Indexed.isSome_iff (h : Indexed entries index) (name : Bytes) :
    (∃ i, index name = some i) ↔ name ∈ entries.map Entry.name := by
  constructor
  · rintro ⟨i, hi⟩
    obtain ⟨e, he, rfl⟩ := (h name i).mp hi
    exact mem_map_of_mem (mem_of_getElem? he)
  · intro hm
    obtain ⟨e, he, rfl⟩ := mem_map.mp hm
    obtain ⟨j, hj, hg⟩ := getElem_of_mem he
    exact ⟨j, (h e.name j).mpr ⟨e, by rw [List.getElem?_eq_getElem hj, hg], rfl⟩⟩

theorem member_eq_some (h : input.member = some e) :
    ∃ data i, input.read = .ok data ∧ input.stat = .ok i ∧ e = input.entry data i := by
  unfold Input.member at h
  split at h
  · next data i hr hs => exact ⟨data, i, hr, hs, (Option.some.inj h).symm⟩
  · cases h

theorem replaceLoop_error (h : input.member = none) (rest : List Input) :
    ∃ e, replaceLoop verbose (input :: rest) entries index out = .error e := by
  rw [replaceLoop]
  unfold Input.member at h
  cases hr : input.read with
  | error m => exact ⟨_, rfl⟩
  | ok data =>
    cases hs : input.stat with
    | error m => exact ⟨_, rfl⟩
    | ok i =>
      rw [hr, hs] at h
      cases h

theorem replaceLoop_found {data : Bytes} {i : Int × Int} {idx : Nat} (hr : input.read = .ok data)
    (hs : input.stat = .ok i) (hi : index (base input.file) = some idx) (rest : List Input) :
    ∃ out', replaceLoop verbose (input :: rest) entries index out
      = replaceLoop verbose rest (entries.set idx (input.entry data i)) index out' := by
  rw [replaceLoop, hr, hs]
  simp only [hi]
  exact ⟨_, rfl⟩

theorem replaceLoop_new {data : Bytes} {i : Int × Int} (hr : input.read = .ok data)
    (hs : input.stat = .ok i) (hi : index (base input.file) = none) (rest : List Input) :
    ∃ out', replaceLoop verbose (input :: rest) entries index out
      = replaceLoop verbose rest (entries ++ [input.entry data i])
          (update index (base input.file) (some entries.length)) out' := by
  rw [replaceLoop, hr, hs]
  simp only [hi]
  exact ⟨_, rfl⟩

/-- An operand that can be read is put into the map, and the index stays right. -/
theorem replaceLoop_cons {e : Entry} (hnodup : (entries.map name).Nodup)
    (hin : Indexed entries index)
    (h : input.member = some e) (rest : List Input) :
    ∃ index' out', Indexed (put name entries e) index' ∧
      replaceLoop verbose (input :: rest) entries index out
        = replaceLoop verbose rest (put name entries e) index' out' := by
  obtain ⟨data, info, hr, hs, rfl⟩ := member_eq_some h
  have hn : (input.entry data info).name = base input.file := rfl
  cases hid : index (base input.file) with
  | some idx =>
    obtain ⟨x, hx, hxn⟩ := (hin _ idx).mp hid
    obtain ⟨out', hl⟩ :=
      @replaceLoop_found entries index verbose out input data info idx hr hs hid rest
    rw [set_eq_put hnodup hx (hxn.trans hn.symm)] at hl
    refine ⟨index, out', ?_, hl⟩
    rw [← set_eq_put hnodup hx (hxn.trans hn.symm)]
    exact hin.set hid
  | none =>
    obtain ⟨out', hl⟩ := @replaceLoop_new entries index verbose out input data info hr hs hid rest
    have hnew : (input.entry data info).name ∉ entries.map name := by
      intro hm
      obtain ⟨i, hi⟩ := (hin.isSome_iff _).mpr hm
      rw [hn, hid] at hi
      cases hi
    have hp : put name entries (input.entry data info) = entries ++ [input.entry data info] :=
      if_neg hnew
    rw [← hp] at hl
    refine ⟨_, out', ?_, hl⟩
    rw [hp]
    exact hin.append hid

/-- **The loop is a sequence of puts**, or it ends at an operand that cannot be read. -/
theorem replaceLoop_eq (hn : (entries.map name).Nodup) (hi : Indexed entries index) :
    ((∀ input ∈ files, input.member.isSome = true) →
      ∃ out', replaceLoop verbose files entries index out
        = .ok ((files.filterMap Input.member).foldl (put name) entries, out')) ∧
    (¬ (∀ input ∈ files, input.member.isSome = true) →
      ∃ err, replaceLoop verbose files entries index out = .error err) := by
  induction files generalizing entries index out with
  | nil => exact ⟨fun _ => ⟨out, rfl⟩, fun h => absurd (by simp) h⟩
  | cons input files ih =>
    rw [forall_mem_cons]
    cases hm : input.member with
    | none =>
      refine ⟨fun h => absurd h.1 Bool.false_ne_true, fun _ => replaceLoop_error hm files⟩
    | some e =>
      obtain ⟨index', out', hi', hl⟩ := @replaceLoop_cons entries index verbose out input e hn hi
        hm files
      obtain ⟨hall, hs⟩ := @ih (put name entries e) index' out' (nodup_put hn) hi'
      rw [hl, filterMap_cons_some hm]
      exact ⟨fun h => hall h.2, fun h => hs fun hr => h ⟨rfl, hr⟩⟩

/-! ## Deleting -/

theorem makeSet_iff (s : List Bytes) (name : Bytes) :
    makeSet s name = true ↔ name ∈ s ∨ name ∈ s.map base := by
  have hl : ∀ m : Bytes → Bool,
      s.foldl (fun m v => update (update m (base v) true) v true) m name = true ↔
        m name = true ∨ name ∈ s ∨ name ∈ s.map base := by
    induction s with
    | nil => simp
    | cons v s ih =>
      intro m
      rw [foldl_cons, ih, update_apply]
      by_cases hv : name = v
      · simp [hv]
      · by_cases hb : name = base v
        · simp [hb]
        · simp [hv, hb]
  rw [makeSet, hl]
  simp

/-- The slice is written behind where it is read, so what is kept is what a filter keeps. -/
theorem deleteLoop_fst (deleteSet : Bytes → Bool) {n i k : Nat} (hn : i + n = entries.length)
    (hk : k ≤ i) :
    (deleteLoop verbose deleteSet n i k entries out).1
      = entries.take k ++ (entries.drop i).filter fun e => !deleteSet e.name := by
  induction n generalizing i k entries out with
  | zero =>
    rw [Nat.add_zero] at hn
    rw [deleteLoop, hn, drop_length, filter_nil, append_nil]
  | succ n ih =>
    have hi : i < entries.length := by omega
    rw [deleteLoop, List.getElem?_eq_getElem hi, drop_eq_getElem_cons hi, filter_cons]
    cases hs : deleteSet entries[i].name with
    | true =>
      simp only [hs]
      exact ih (by omega) (by omega)
    | false =>
      simp only [hs, Bool.false_eq_true, if_false, Bool.not_false, if_true]
      rw [ih (by rw [length_set]; omega) (by omega), drop_set_of_lt (by omega),
        take_succ_eq_append_getElem (by rw [length_set]; omega), getElem_set_self,
        take_set_of_le (Nat.le_refl k), append_assoc, singleton_append]

/-! ## One operation -/

theorem arReplace_eq (harchive : op.archiveErr = none) :
    arReplace archive op files = finishReplace archive op.flushErr
      (replaceLoop op.verbose files (members archive) (buildIndex 0 (members archive) fun _ => none)
          []) := by
  rw [arReplace, harchive]
  rfl

theorem arReplace_ok (hn : (names archive).Nodup) (harchive : op.archiveErr = none)
    (hf : ∀ input ∈ files, input.member.isSome = true) :
    ∃ out, arReplace archive op files
      = flushArchive archive
        ((files.filterMap Input.member).foldl (put name) (members archive)) op.flushErr
          out := by
  obtain ⟨out, hl⟩ :=
    (@replaceLoop_eq (members archive) files _ op.verbose [] hn (indexed_buildIndex hn)).1 hf
  refine ⟨out, ?_⟩
  rw [arReplace_eq harchive, hl]
  rfl

/-- An operand that cannot be read ends `r` before the archive is written. -/
theorem arReplace_error (hn : (names archive).Nodup) (harchive : op.archiveErr = none)
    (hf : ¬ ∀ input ∈ files, input.member.isSome = true) :
    ∃ out m, arReplace archive op files = ⟨archive, out, message m, 1⟩ := by
  obtain ⟨⟨out, m⟩, hl⟩ :=
    (@replaceLoop_eq (members archive) files _ op.verbose [] hn (indexed_buildIndex hn)).2 hf
  refine ⟨out, m, ?_⟩
  rw [arReplace_eq harchive, hl]
  rfl

theorem arDelete_eq {toDelete : List Bytes} (hne : toDelete ≠ [])
    (harchive : op.archiveErr = none) :
    ∃ out, arDelete archive op toDelete
      = flushArchive archive
          ((members archive).filter fun e => !makeSet toDelete e.name) op.flushErr out := by
  refine ⟨(deleteLoop op.verbose (makeSet toDelete) (members archive).length 0 0
    (members archive) []).2, ?_⟩
  have hk := @deleteLoop_fst (members archive) op.verbose [] (makeSet toDelete)
    (members archive).length 0 0
    (Nat.zero_add _) (Nat.le_refl 0)
  rw [take_zero, drop_zero, nil_append] at hk
  rw [arDelete, if_neg (fun h => hne (length_eq_zero_iff.mp h)), harchive, ← hk]
  rfl

theorem flushArchive_none (archive : Archive) (entries : List Entry) (out : Bytes) :
    flushArchive archive entries none out = ⟨some entries, out, [], 0⟩ := by
  have hr : entries.map resize = entries.map id := map_congr_left fun e _ => resize_eq e
  rw [flushArchive, hr, map_id]

theorem run_replace (haction : op.action = .replace files) :
    op.run archive = arReplace archive op files := by
  rw [Op.run, haction]

theorem run_delete (haction : op.action = .delete toDelete) :
    op.run archive = arDelete archive op toDelete := by
  rw [Op.run, haction]

/-- An operation that is refused leaves the archive as it is. -/
theorem run_of_not_fine (hn : (names archive).Nodup) (h : ¬ op.Fine) :
    (op.run archive).archive = archive ∧ (op.run archive).exitCode = 1 := by
  cases haction : op.action with
  | replace files =>
    rw [run_replace haction]
    cases harchive : op.archiveErr with
    | some m =>
      rw [arReplace, harchive]
      exact ⟨rfl, rfl⟩
    | none =>
      by_cases hf : ∀ input ∈ files, input.member.isSome = true
      · obtain ⟨out, hr⟩ := arReplace_ok hn harchive hf
        rw [hr]
        cases hflush : op.flushErr with
        | some m => exact ⟨rfl, rfl⟩
        | none =>
          refine absurd ⟨harchive, hflush, ?_, ?_⟩ h
          · intro files' hf'
            rw [haction] at hf'
            cases hf'
            exact hf
          · intro td hd
            rw [haction] at hd
            cases hd
      · obtain ⟨out, m, hr⟩ := arReplace_error hn harchive hf
        rw [hr]
        exact ⟨rfl, rfl⟩
  | delete td =>
    rw [run_delete haction]
    by_cases hnil : td = []
    · subst hnil
      exact ⟨rfl, rfl⟩
    cases harchive : op.archiveErr with
    | some m =>
      rw [arDelete, if_neg (fun hl => hnil (length_eq_zero_iff.mp hl)), harchive]
      exact ⟨rfl, rfl⟩
    | none =>
      obtain ⟨out, hr⟩ := @arDelete_eq archive op td hnil harchive
      rw [hr]
      cases hflush : op.flushErr with
      | some m => exact ⟨rfl, rfl⟩
      | none =>
        refine absurd ⟨harchive, hflush, ?_, ?_⟩ h
        · intro files hf
          rw [haction] at hf
          cases hf
        · intro td' hd
          rw [haction] at hd
          cases hd
          exact hnil

theorem names_filterMap_member (hf : ∀ input ∈ files, input.member.isSome = true) :
    (files.filterMap Input.member).map name = files.map fun input => base input.file := by
  induction files with
  | nil => rfl
  | cons input files ih =>
    rw [forall_mem_cons] at hf
    obtain ⟨e, he⟩ := Option.isSome_iff_exists.mp hf.1
    obtain ⟨data, i, -, -, rfl⟩ := member_eq_some he
    rw [filterMap_cons_some he, map_cons, ih hf.2]
    rfl

theorem run_replace_fine (hn : (names archive).Nodup) (h : op.Fine)
    (haction : op.action = .replace files) :
    ∃ out, op.run archive =
      ⟨some ((files.filterMap Input.member).foldl (put name) (members archive)), out, [], 0⟩ := by
  obtain ⟨out, hr⟩ := arReplace_ok hn h.archive (h.files files haction)
  exact ⟨out, by rw [run_replace haction, hr, h.flush, flushArchive_none]⟩

theorem run_delete_fine (h : op.Fine) (haction : op.action = .delete toDelete) :
    ∃ out, op.run archive =
      ⟨some ((members archive).filter fun e => !makeSet toDelete e.name), out, [], 0⟩ := by
  obtain ⟨out, hr⟩ := @arDelete_eq archive op toDelete (h.operands toDelete haction) h.archive
  exact ⟨out, by rw [run_delete haction, hr, h.flush, flushArchive_none]⟩

theorem run_of_fine (hn : (names archive).Nodup) (h : op.Fine) :
    (op.run archive).exitCode = 0 ∧ op.action.Meets archive (op.run archive).archive := by
  cases haction : op.action with
  | replace files =>
    obtain ⟨out, hr⟩ := run_replace_fine hn h haction
    rw [hr]
    refine ⟨rfl, ?_, fun name => lookup_foldl_put⟩
    rw [← names_filterMap_member (h.files files haction)]
    exact keys_foldl_put
  | delete td =>
    obtain ⟨out, hr⟩ := run_delete_fine h haction
    rw [hr]
    refine ⟨rfl, ?_⟩
    apply filter_congr
    intro e _
    rw [Bool.eq_iff_iff, Bool.not_eq_true', ← Bool.not_eq_true, makeSet_iff, decide_eq_true_eq,
      not_or]

theorem nodup_run (hn : (names archive).Nodup) (op : Op) :
    (names (op.run archive).archive).Nodup := by
  by_cases hf : op.Fine
  · cases haction : op.action with
    | replace files =>
      obtain ⟨out, hr⟩ := run_replace_fine hn hf haction
      rw [hr]
      exact nodup_foldl_put hn
    | delete td =>
      obtain ⟨out, hr⟩ := run_delete_fine hf haction
      rw [hr]
      exact hn.sublist (filter_sublist.map _)
  · rw [(run_of_not_fine hn hf).1]
    exact hn

theorem nodup_runOps (hn : (names archive).Nodup) (o : List Op) :
    (names (runOps archive o)).Nodup := by
  induction o generalizing archive with
  | nil => exact hn
  | cons op _ ih => exact ih (nodup_run hn op)

end

/-- **An archive is an ordered map**, whatever was done: its names are distinct, an operation that
fails leaves it as it was, and one in which nothing fails does what it is for. -/
theorem archive_orderedMap {archive : Archive} (hnodup : (names archive).Nodup) (ops : List Op) :
    (names (runOps archive ops)).Nodup ∧ ∀ op : Op,
      (¬ op.Fine → (op.run (runOps archive ops)).archive = runOps archive ops ∧
        (op.run (runOps archive ops)).exitCode = 1) ∧
      (op.Fine → (op.run (runOps archive ops)).exitCode = 0 ∧
        op.action.Meets (runOps archive ops) (op.run (runOps archive ops)).archive) := by
  have hnodup' := nodup_runOps hnodup ops
  exact ⟨hnodup', fun op => ⟨run_of_not_fine hnodup', run_of_fine hnodup'⟩⟩

def twoMembers : Archive :=
  some [⟨str "a", 0, 0, 0, 420, 1, str "x", rfl⟩, ⟨str "b", 0, 0, 0, 420, 1, str "y", rfl⟩]

theorem archive_orderedMap_delete :
    names (runOps twoMembers [⟨false, none, none, .delete [str "dir/a"]⟩]) = [str "b"] ∧
      (names (runOps twoMembers [⟨false, none, none, .delete [str "dir/a"]⟩])).Nodup := by
  refine ⟨rfl, ?_⟩
  exact (@archive_orderedMap twoMembers (by decide) _).1

end GoPosix.Ar
