import GoPosix.Lib.Bytes
import GoPosix.Lib.Sorted

/-!
# comm

The model of `Compare` in `pkg/comm/comm.go`. Two cursors go through the two files; they are the
lists that are left of them. Sorted files are matched line by line, so that a line that is there `m`
times in one file and `n` times in the other is reported `min m n` times as common
(`compareFiles_spec`).

`Format`, the `--total` line and the reading of the files are left out.
-/

namespace GoPosix.Comm

open List

/-- The columns: only in the first file, only in the second, in both. -/
inductive Column
  | one
  | two
  | three
  deriving DecidableEq, Repr

structure Entry where
  text : Bytes
  col : Column
  deriving DecidableEq, Repr

def report (suppress : Column → Bool) (text : Bytes) (col : Column) : List Entry :=
  if suppress col then [] else [⟨text, col⟩]

def compareFiles (suppress : Column → Bool) : (file1 file2 : List Bytes) → List Entry
  | [], file2 => file2.flatMap (report suppress · .two)
  | file1, [] => file1.flatMap (report suppress · .one)
  | l₁ :: file1, l₂ :: file2 =>
    match compare l₁ l₂ with
    | .lt => report suppress l₁ .one ++ compareFiles suppress file1 (l₂ :: file2)
    | .gt => report suppress l₂ .two ++ compareFiles suppress (l₁ :: file1) file2
    | .eq => report suppress l₁ .three ++ compareFiles suppress file1 file2
termination_by file1 file2 => file1.length + file2.length

def allColumns (_ : Column) : Bool := false

/-! ## Suppressed columns -/

section

variable {suppress : Column → Bool} {a b : List Bytes}

theorem report_filter (suppress : Column → Bool) (text : Bytes) (c : Column) :
    report suppress text c = (report allColumns text c).filter fun e => !suppress e.col := by
  unfold report allColumns
  cases h : suppress c <;> simp [h]

theorem flatMap_report_filter (suppress : Column → Bool) (file : List Bytes) (c : Column) :
    file.flatMap (report suppress · c) =
      (file.flatMap (report allColumns · c)).filter fun e => !suppress e.col := by
  rw [filter_flatMap]
  congr 1
  funext text
  exact report_filter suppress text c

/-- **Suppressing columns** leaves the entries of the others. -/
theorem compareFiles_filter (suppress : Column → Bool) (a b : List Bytes) :
    compareFiles suppress a b = (compareFiles allColumns a b).filter fun e => !suppress e.col := by
  fun_induction compareFiles allColumns a b with
  | case1 b => rw [compareFiles, flatMap_report_filter]
  | case2 a ha => rw [compareFiles, flatMap_report_filter]; exact ha
  | case3 x a y b hlt ih => rw [compareFiles, hlt, filter_append, ← ih, ← report_filter]
  | case4 x a y b hgt ih => rw [compareFiles, hgt, filter_append, ← ih, ← report_filter]
  | case5 x a y b heq ih => rw [compareFiles, heq, filter_append, ← ih, ← report_filter]

end

/-! ## Counts -/

section

variable {a b : List Bytes}

theorem count_report (l x : Bytes) (c c' : Column) (e : List Entry) :
    (report allColumns l c ++ e).count ⟨x, c'⟩ = e.count ⟨x, c'⟩ + if l = x ∧
      c = c' then 1 else 0 := by
  show (Entry.mk l c :: e).count ⟨x, c'⟩ = _
  simp only [count_cons, beq_iff_eq, Entry.mk.injEq]

theorem count_flatMap_report (file : List Bytes) (c c' : Column) (x : Bytes) :
    (file.flatMap (report allColumns · c)).count ⟨x, c'⟩ = if c = c' then file.count x else 0 := by
  induction file with
  | nil => simp
  | cons l file ih =>
    rw [flatMap_cons, count_report, ih, count_cons]
    by_cases hc : c = c' <;> simp [hc]

/-- **Every line is accounted for**: what two files have in common as often as both have it, and the
excess of one over the other. -/
theorem count_compareFiles (x : Bytes) (ha : AscendingBy compare a) (hb : AscendingBy compare b) :
    (compareFiles allColumns a b).count ⟨x, .one⟩ = a.count x - b.count x ∧
      (compareFiles allColumns a b).count ⟨x, .two⟩ = b.count x - a.count x ∧
      (compareFiles allColumns a b).count ⟨x, .three⟩ = min (a.count x) (b.count x) := by
  fun_induction compareFiles allColumns a b with
  | case1 b => simp [count_flatMap_report]
  | case2 a _ => simp [count_flatMap_report]
  | case3 l a y b hlt ih =>
    obtain ⟨h₁, h₂, h₃⟩ := ih ha.tail hb
    -- the line is not in the second file
    have hn : l = x → (y :: b).count x = 0 := by
      rintro rfl
      exact count_eq_zero.mpr (hb.not_mem_of_lt hlt)
    rw [count_report, count_report, count_report, h₁, h₂, h₃]
    by_cases hx : l = x
    · simp [hx, hn hx]
    · simp [hx]
  | case4 l a y b hgt ih =>
    obtain ⟨h₁, h₂, h₃⟩ := ih ha hb.tail
    have hn : y = x → (l :: a).count x = 0 := by
      rintro rfl
      exact count_eq_zero.mpr (ha.not_mem_of_lt (Std.OrientedCmp.gt_iff_lt.mp hgt))
    rw [count_report, count_report, count_report, h₁, h₂, h₃]
    by_cases hx : y = x
    · simp [hx, hn hx]
    · simp [hx]
  | case5 l a y b heq ih =>
    obtain ⟨h₁, h₂, h₃⟩ := ih ha.tail hb.tail
    obtain rfl : l = y := Std.LawfulEqCmp.compare_eq_iff_eq.mp heq
    rw [count_report, count_report, count_report, h₁, h₂, h₃, count_cons, count_cons]
    by_cases hx : l = x
    · simp only [hx, beq_self_eq_true, true_and, reduceCtorEq, if_false]
      omega
    · simp [hx]

/-! ## Order -/

variable {suppress : Column → Bool}

theorem mem_report (h : e ∈ report suppress text col) : e.text = text := by
  unfold report at h
  split at h
  · cases h
  · rw [mem_singleton] at h
    rw [h]

theorem mem_compareFiles (h : e ∈ compareFiles suppress a b) : e.text ∈ a ∨ e.text ∈ b := by
  fun_induction compareFiles suppress a b with
  | case1 b =>
    obtain ⟨l, hl, he⟩ := mem_flatMap.mp h
    exact .inr (mem_report he ▸ hl)
  | case2 a _ =>
    obtain ⟨l, hl, he⟩ := mem_flatMap.mp h
    exact .inl (mem_report he ▸ hl)
  | case3 l a y b _ ih =>
    rcases mem_append.mp h with he | he
    · exact .inl (mem_report he ▸ mem_cons_self)
    · exact (ih he).imp_left (mem_cons_of_mem l)
  | case4 l a y b _ ih =>
    rcases mem_append.mp h with he | he
    · exact .inr (mem_report he ▸ mem_cons_self)
    · exact (ih he).imp_right (mem_cons_of_mem y)
  | case5 l a y b _ ih =>
    rcases mem_append.mp h with he | he
    · exact .inl (mem_report he ▸ mem_cons_self)
    · exact (ih he).imp (mem_cons_of_mem l) (mem_cons_of_mem y)

theorem ascending_report (h : AscendingBy compare (entries.map Entry.text))
    (hle : ∀ e ∈ entries, (compare text e.text).isLE = true) :
    AscendingBy compare ((report suppress text col ++ entries).map Entry.text) := by
  unfold report
  split
  · exact h
  · refine pairwise_cons.mpr ⟨?_, h⟩
    intro t ht
    obtain ⟨e, he, rfl⟩ := mem_map.mp ht
    exact hle e he

theorem ascending_flatMap_report (h : AscendingBy compare file) :
    AscendingBy compare ((file.flatMap (report suppress · col)).map Entry.text) := by
  induction file with
  | nil => exact List.Pairwise.nil
  | cons l file ih =>
    refine ascending_report (ih h.tail) fun e he => ?_
    obtain ⟨l', hl', he'⟩ := mem_flatMap.mp he
    rw [mem_report he']
    exact h.head l' hl'

/-- **The entries are sorted**, over all columns. -/
theorem ascending_compareFiles (suppress : Column → Bool) (ha : AscendingBy compare a)
    (hb : AscendingBy compare b) :
    AscendingBy compare ((compareFiles suppress a b).map Entry.text) := by
  have hle : ∀ {s t : Bytes}, compare s t = .lt → (compare s t).isLE = true := by
    intro s t h
    rw [h]
    rfl
  fun_induction compareFiles suppress a b with
  | case1 b => exact ascending_flatMap_report hb
  | case2 a _ => exact ascending_flatMap_report ha
  | case3 l a y b hlt ih =>
    refine ascending_report (ih ha.tail hb) fun e he => ?_
    rcases mem_compareFiles he with he | he
    · exact ha.head _ he
    · exact hle (hb.lt_of_lt hlt _ he)
  | case4 l a y b hgt ih =>
    refine ascending_report (ih ha hb.tail) fun e he => ?_
    rcases mem_compareFiles he with he | he
    · exact hle (ha.lt_of_lt (Std.OrientedCmp.gt_iff_lt.mp hgt) _ he)
    · exact hb.head _ he
  | case5 l a y b heq ih =>
    obtain rfl : l = y := Std.LawfulEqCmp.compare_eq_iff_eq.mp heq
    refine ascending_report (ih ha.tail hb.tail) fun e he => ?_
    rcases mem_compareFiles he with he | he
    · exact ha.head _ he
    · exact hb.head _ he

/-- **`Compare` on sorted files**: the counts of every text in the three columns, the order of the
entries, and what suppressing columns leaves. -/
theorem compareFiles_spec (ha : AscendingBy compare a) (hb : AscendingBy compare b) :
    (∀ x, (compareFiles allColumns a b).count ⟨x, .three⟩ = min (a.count x) (b.count x) ∧
      (compareFiles allColumns a b).count ⟨x, .one⟩ = a.count x - b.count x ∧
      (compareFiles allColumns a b).count ⟨x, .two⟩ = b.count x - a.count x) ∧
      ∀ suppress, AscendingBy compare ((compareFiles suppress a b).map Entry.text) ∧
        compareFiles suppress a b = (compareFiles allColumns a b).filter fun e =>
            !suppress e.col := by
  refine ⟨fun x => ?_, fun suppress => ?_⟩
  · obtain ⟨h₁, h₂, h₃⟩ := count_compareFiles x ha hb
    exact ⟨h₃, h₁, h₂⟩
  · exact ⟨ascending_compareFiles suppress ha hb, compareFiles_filter suppress a b⟩

theorem compareFiles_spec_repeated :
    (compareFiles allColumns [Bytes.str "a", Bytes.str "a", Bytes.str "b"]
      [Bytes.str "a", Bytes.str "c"]).count ⟨Bytes.str "a", .one⟩ = 1 :=
  ((compareFiles_spec (by decide) (by decide)).1 (Bytes.str "a")).2.1

end

end GoPosix.Comm
