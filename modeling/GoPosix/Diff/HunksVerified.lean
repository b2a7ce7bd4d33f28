import GoPosix.Diff.Hunks

/-!
# Correctness of `BuildHunks`

The hunks are the segments of the script between pairs of indices. Whatever the context, the pairs
are in order, an operation lies between two of them, and what is outside is unchanged (`Spans`).
`hunkLoop_spans` shows that the loop finds such pairs; what a reader of a diff relies on (`Hunked`)
follows.
-/

namespace GoPosix.Diff

open Slice MachineInt Bytes List DiffOp

variable {script : List (DiffItem Bytes)}

/-- The operation at position `j` of the script satisfies `p`. -/
def At (p : DiffOp → Bool) (script : List (DiffItem Bytes)) (j : Nat) : Prop :=
  ∃ item, script[j]? = some item ∧ p item.op = true

variable {j i c k lo : Nat}

theorem At.lt (h : At p script j) : j < script.length := by
  obtain ⟨it, hj, _⟩ := h
  exact (List.getElem?_eq_some_iff.mp hj).1

theorem DiffOp.passes_eq_not_changes (op : DiffOp) : op.passes = !op.changes := by
  cases op <;> rfl

theorem at_changes_or_passes (hj : j < script.length) :
    At changes script j ∨ At passes script j := by
  have hi := List.getElem?_eq_getElem hj
  cases hc : (script[j]).op.changes with
  | true => exact Or.inl ⟨_, hi, hc⟩
  | false => exact Or.inr ⟨_, hi, by rw [passes_eq_not_changes, hc]; rfl⟩

theorem At.not_changes (h : At passes script j) : ¬ At changes script j := by
  rintro ⟨i', hj', hc⟩
  obtain ⟨item, hj, hp⟩ := h
  obtain rfl : item = i' := by simpa [hj] using hj'
  rw [passes_eq_not_changes, hc] at hp
  exact absurd hp (by simp)

/-! ## The loops -/

/-- A scan stops at the first operation that fails the test, or at the end. -/
theorem scan_spec (script : List (DiffItem Bytes)) (p : DiffOp → Bool) (f : Nat) : ∀ i :
    Nat, i ≤ script.length →
    script.length ≤ i + f →
    ∃ j : Nat, scan p script (f + 1) i = .ok (j : Int) ∧ i ≤ j ∧ j ≤ script.length ∧
      (∀ k, i ≤ k → k < j → At p script k) ∧ ¬ At p script j := by
  have stop : ∀ (f i : Nat), i ≤ script.length → ¬ At p script i →
      scan p script (f + 1) i = .ok (i : Int) := by
    intro f i _ hp
    rw [scan]
    split
    · next hlt =>
      have hlt' : i < script.length := by omega
      have hit := List.getElem?_eq_getElem hlt'
      have hfalse : ¬ p (script[i]).op = true := fun h => hp ⟨_, hit, h⟩
      rw [index_natCast hit]
      simp [bind, Except.bind, hfalse]
    · rfl
  induction f with
  | zero =>
    intro i hi hf
    have hp : ¬ At p script i := fun h => by have := h.lt; omega
    exact ⟨i, stop 0 i hi hp, le_rfl, hi, by omega, hp⟩
  | succ f ih =>
    intro i hi hf
    by_cases hp : At p script i
    · have hlt := hp.lt
      obtain ⟨j, hj, hij, hjl, hall, he⟩ := ih (i + 1) (by omega) (by omega)
      refine ⟨j, ?_, by omega, hjl, ?_, he⟩
      · obtain ⟨it, hit, hpi⟩ := hp
        rw [scan, if_pos (by omega), index_natCast hit]
        simp only [bind, Except.bind, hpi]
        exact hj
      · intro k hk hkj
        rcases Nat.eq_or_lt_of_le hk with rfl | hlt'
        · exact hp
        · exact hall k hlt' hkj
    · exact ⟨i, stop _ i hi hp, le_rfl, hi, by omega, hp⟩

/-- From a change, the block loop first finds the changes up to `eqStart` and then the unchanged
operations up to `nextDiff`. -/
theorem blockEnd_scans (hi : At changes script i) (f : Nat) :
    ∃ es nd : Nat, i < es ∧ es ≤ nd ∧ nd ≤ script.length ∧
      (∀ k, i ≤ k → k < es → At changes script k) ∧
      (∀ k, es ≤ k → k < nd → At passes script k) ∧
      (nd < script.length → At changes script nd ∧ es < nd) ∧
      blockEnd script c (f + 1) i =
        (if nd = script.length
          then (if (nd : Int) - es > c then .ok (es + c) else .ok script.length)
        else if (nd : Int) - es > wrap64 (2 * c) then
          (if wrap64 (es + c) > script.length then .ok script.length
            else .ok (wrap64 (es + c)))
        else blockEnd script c f nd) := by
  have hlt := hi.lt
  obtain ⟨j, hj, hij, hjl, hchanges, hje⟩ :=
    scan_spec script changes script.length i (by omega) (by omega)
  obtain ⟨n, hn, hjn, hnl, hp, hnn⟩ := scan_spec script passes script.length j hjl (by omega)
  have hij' : i < j := by
    rcases Nat.eq_or_lt_of_le hij with rfl | h
    · exact absurd hi hje
    · exact h
  have hc : n < script.length → At changes script n := fun h =>
    (at_changes_or_passes h).resolve_right hnn
  refine ⟨j, n, hij', hjn, hnl, hchanges, hp, ?_, ?_⟩
  · intro h
    refine ⟨hc h, ?_⟩
    rcases Nat.eq_or_lt_of_le hjn with rfl | h'
    · exact absurd (hc h) hje
    · exact h'
  · rw [blockEnd, if_pos (by omega)]
    simp only [hj, hn, bind, Except.bind]
    by_cases he : n = script.length
    · rw [if_pos (by omega), if_pos he]
    · rw [if_neg (by omega), if_neg he]

/-- The block that starts at `i` ends at `e`: more than `c` unchanged operations separate `e`
from the next change. -/
structure BlockEndsAt (script : List (DiffItem Bytes)) (c i e : Nat) : Prop where
  lt : i < e
  le : e ≤ script.length
  far : ∀ k, e ≤ k → At changes script k → e + c < k

/-- `blockEnd` finds the end of the block that begins with a change. -/
theorem blockEnd_spec (hc : c < 2 ^ 62) (hlen : script.length < 2 ^ 62) (f : Nat) :
    ∀ {i : Nat}, At changes script i → script.length ≤ i + f →
      ∃ e : Nat, blockEnd script c (f + 1) i = .ok (e : Int) ∧ BlockEndsAt script c i e := by
  induction f with
  | zero =>
    intro i hi hf
    have := hi.lt
    omega
  | succ f ih =>
    intro i hi hf
    obtain ⟨j, n, hij, hjn, hnl, -, hp, hchanges, heq⟩ := blockEnd_scans hi (f + 1)
    rw [heq]
    by_cases hend : n = script.length
    · -- the block runs to the end of the script, but for more than `c` unchanged operations
      rw [if_pos hend]
      by_cases hl : (n : Int) - j > c
      · rw [if_pos hl]
        refine ⟨j + c, by rfl, by omega, by omega, ?_⟩
        intro k hk hcheck
        have hlt := hcheck.lt
        exact absurd hcheck (hp k (by omega) (by omega)).not_changes
      · rw [if_neg hl]
        refine ⟨script.length, rfl, by omega, le_rfl, ?_⟩
        intro k hk hcheck
        have := hcheck.lt
        omega
    · obtain ⟨hcn, hjn'⟩ := hchanges (by omega)
      have hw : wrap64 (2 * (c : Int)) = 2 * c := wrap64_of_lt (by omega) (by omega)
      rw [if_neg hend, hw]
      by_cases hl : (n : Int) - j > 2 * c
      · have hw' : wrap64 ((j : Int) + c) = j + c := wrap64_of_lt (by omega) (by omega)
        rw [if_pos hl, hw', if_neg (by omega)]
        refine ⟨j + c, by rfl, by omega, by omega, ?_⟩
        intro k hk hcheck
        rcases Nat.lt_or_ge k n with hkn | hkn
        · exact absurd hcheck (hp k (by omega) hkn).not_changes
        · omega
      · rw [if_neg hl]
        obtain ⟨e, he, hen⟩ := ih hcn (by omega)
        exact ⟨e, he, by have := hen.lt; omega, hen.le, hen.far⟩

/-- One turn of the main loop, from the position of the next change and the end of its block. -/
theorem hunkLoop_step (fuel : Nat) (hik : i ≤ k)
    (hp : ∀ j, i ≤ j → j < k → At passes script j) (hk : At changes script k)
    (hend : blockEnd script c (script.length + 1) k = .ok e) (he : e ≤ script.length) :
    hunkLoop script c (fuel + 1) i =
      (hunkLoop script c fuel e).map (hunkOf script (k - c) e.toNat :: ·) := by
  have hlt := hk.lt
  obtain ⟨j, hj, hij, _, hall, hstop⟩ :=
    scan_spec script passes script.length i (by omega) (by omega)
  -- the scan stops exactly at the change
  obtain rfl : j = k := by
    rcases Nat.lt_trichotomy j k with h | h | h
    · exact absurd (hp j hij h) hstop
    · exact h
    · exact absurd hk (hall k hik h).not_changes
  have hs : (if (j : Int) - c < 0 then (0 : Int) else (j : Int) - c).toNat = j - c := by
    split <;> omega
  rw [hunkLoop, if_pos (by omega)]
  simp only [hj, bind, Except.bind]
  rw [if_neg (by omega)]
  simp only [hend, if_neg (not_lt.mpr he), hs]
  cases hunkLoop script c fuel e with
  | error f => rfl
  | ok hunks => rfl

theorem hunkLoop_done {c : Int} (f : Nat) (hi : i ≤ script.length)
    (hp : ∀ j, i ≤ j → ¬ At changes script j) :
    hunkLoop script c (f + 1) i = .ok [] := by
  rw [hunkLoop]
  split
  · obtain ⟨j, hj, hij, hjl, -, hs⟩ := scan_spec script passes script.length i hi (by omega)
    have hje : ¬ j < script.length := fun h =>
      (at_changes_or_passes h).elim (hp j hij) hs
    simp only [hj, bind, Except.bind]
    rw [if_pos (by omega)]
  · rfl

/-! ## Spans -/

/-- `spans` are the segments that become hunks, from position `i` on: each starts at `lo` or
later, is not empty, covers every change, and leaves at least one operation before the next. -/
def Spans (script : List (DiffItem Bytes)) : (lo i : Nat) → List (Nat × Nat) → Prop
  | _, i, [] => i ≤ script.length ∧ ∀ j, i ≤ j → ¬ At changes script j
  | lo, i, (s, e) :: spans =>
    lo ≤ s ∧ i ≤ s ∧ s < e ∧ e ≤ script.length ∧
      (∀ j, i ≤ j → j < s → ¬ At changes script j) ∧ Spans script (e + 1) e spans

theorem exists_next_change (h : ∃ j, i ≤ j ∧ At changes script j) :
    ∃ k, i ≤ k ∧ At changes script k ∧ ∀ j, i ≤ j → j < k → At passes script j := by
  classical
  obtain ⟨hik, hk⟩ := Nat.find_spec h
  refine ⟨Nat.find h, hik, hk, ?_⟩
  intro j hij hjk
  have hlt := hk.lt
  have hn : ¬ At changes script j := fun hj => Nat.find_min h hjk ⟨hij, hj⟩
  exact (at_changes_or_passes (by omega)).resolve_left hn

/-- The main loop turns spans into hunks, as long as the blocks end where they should. -/
theorem hunkLoop_spans (hb : ∀ k, At changes script k →
      ∃ e : Nat, blockEnd script c (script.length + 1) k = .ok (e : Int) ∧ BlockEndsAt script c k e)
        (f : Nat) :
    ∀ {lo i : Nat}, i ≤ lo → i ≤ script.length → script.length ≤ i + f →
      (∀ k, i ≤ k → At changes script k → lo + c ≤ k ∨ lo = 0) →
      ∃ sp, hunkLoop script c (f + 1) i = .ok (sp.map fun s => hunkOf script s.1 s.2) ∧
          Spans script lo i sp := by
  induction f with
  | zero =>
    intro lo i _ hi hf _
    have hn : ∀ j, i ≤ j → ¬ At changes script j := fun j hj h => by
      have := h.lt; omega
    exact ⟨[], hunkLoop_done 0 hi hn, hi, hn⟩
  | succ f ih =>
    intro lo i hil hi hf hlow
    by_cases hany : ∃ j, i ≤ j ∧ At changes script j
    · obtain ⟨k, hik, hk, hp⟩ := exists_next_change hany
      obtain ⟨e, hend, he⟩ := hb k hk
      have hlt := he.lt
      obtain ⟨sp, hr, hs⟩ := ih (Nat.le_succ e) he.le (by omega)
        (fun k' hk' hcheck' => Or.inl (by have := he.far k' hk' hcheck'; omega))
      have hle := he.le
      have hlow' := hlow k hik hk
      refine ⟨(k - c, e) :: sp, ?_, by omega, by omega, by omega, hle, ?_, hs⟩
      · rw [hunkLoop_step _ hik hp hk hend (by omega), hr]
        rfl
      · intro j hij hjs
        exact (hp j hij (by omega)).not_changes
    · have hn : ∀ j, i ≤ j → ¬ At changes script j := fun j hj h => hany ⟨j, hj, h⟩
      exact ⟨[], hunkLoop_done _ hi hn, hi, hn⟩

/-! ## Overflow -/

theorem At.getElem (h : At p script j) (hj : j < script.length) : p (script[j]).op = true := by
  obtain ⟨item, hi, hp⟩ := h
  obtain ⟨_, rfl⟩ := List.getElem?_eq_some_iff.mp hi
  exact hp

theorem at_of_getElem (hj : j < script.length) (hp : p (script[j]).op = true) : At p script j :=
  ⟨_, List.getElem?_eq_getElem hj, hp⟩

/-- A scan that stops at the first operation satisfying `p` is a `findIdx`. -/
theorem findIdx_eq_of_at (hkj : k ≤ j) (hj : j ≤ script.length)
    (hb : ∀ i, k ≤ i → i < j → ¬ At p script i) (hat : j < script.length → At p script j) :
    k + (script.drop k).findIdx (fun item => p item.op) = j := by
  have hf : ∀ (i : Nat) (hl : i < (script.drop k).length), i < j - k →
      p ((script.drop k)[i]).op = false := by
    intro i hl hi
    have hn := hb (k + i) (by omega) (by omega)
    cases hp : p ((script.drop k)[i]).op with
    | false => rfl
    | true =>
      rw [getElem_drop] at hp
      exact absurd (at_of_getElem _ hp) hn
  rcases Nat.lt_or_ge j script.length with hlt | hge
  · have h : (script.drop k).findIdx (fun item => p item.op) = j - k := by
      have hl : j - k < (script.drop k).length := by simp; omega
      refine (findIdx_eq hl).mpr ⟨?_, fun i hi => hf i (by omega) hi⟩
      have := (hat hlt).getElem hlt
      simpa [Nat.add_sub_cancel' hkj] using this
    omega
  · have h : (script.drop k).findIdx (fun item => p item.op) = (script.drop k).length := by
      refine findIdx_eq_length_of_false ?_
      intro x hx
      obtain ⟨i, hi, rfl⟩ := getElem_of_mem hx
      exact hf i hi (by simp at hi; omega)
    rw [h, length_drop]
    omega

/-- The first gap begins where the first run of changes ends, if there is another run. -/
theorem firstGap_eq (hpre : ∀ i < k, At passes script i) (hkj : k < j)
    (hchanges : ∀ i, k ≤ i → i < j → At changes script i) (hjn : j ≤ n)
    (hnl : n ≤ script.length) (hpasses : ∀ i, j ≤ i → i < n → At passes script i)
    (hn : n < script.length → At changes script n ∧ j < n) :
    firstGap script = if n < script.length then some j else none := by
  have hk := hchanges k le_rfl hkj
  have hf : script.findIdx (fun item => item.op.changes) = k := by
    have h0 := findIdx_eq_of_at (Nat.zero_le k) hk.lt.le (fun i _ hi => (hpre i hi).not_changes)
      (fun _ => hk)
    simpa using h0
  have hs : k + (script.drop k).findIdx (fun item => item.op.passes) = j := by
    refine findIdx_eq_of_at hkj.le (by omega) ?_ ?_
    · intro i hki hij hp
      exact hp.not_changes (hchanges i hki hij)
    · intro hj
      exact hpasses j le_rfl (by omega)
  unfold firstGap
  simp only [hf, hs]
  congr 1
  rw [any_eq_true, eq_iff_iff]
  constructor
  · rintro ⟨item, hit, hc⟩
    obtain ⟨i, hi, rfl⟩ := getElem_of_mem hit
    by_contra hnl'
    rw [getElem_drop] at hc
    have hl : i < script.length - j := by simpa using hi
    exact (hpasses (j + i) (by omega) (by omega)).not_changes (at_of_getElem _ hc)
  · intro hlt
    obtain ⟨hcn, -⟩ := hn hlt
    have hjn' : n - j < (script.drop j).length := by simp; omega
    refine ⟨(script.drop j)[n - j], getElem_mem hjn', ?_⟩
    have := hcn.getElem hlt
    simpa [Nat.add_sub_cancel' hjn] using this

theorem firstGap_none (h : ∀ j, ¬ At changes script j) : firstGap script = none := by
  have hf : ∀ item ∈ script, item.op.changes = false := by
    intro item hit
    obtain ⟨i, hi, rfl⟩ := getElem_of_mem hit
    cases hc : (script[i]).op.changes with
    | false => rfl
    | true => exact absurd (at_of_getElem hi hc) (h i)
  unfold firstGap
  rw [if_neg]
  rw [any_eq_true]
  rintro ⟨item, hit, hc⟩
  rw [hf item (mem_of_mem_drop hit)] at hc
  exact absurd hc (by simp)

theorem firstGap_lt (h : firstGap script = some g) : g < script.length := by
  unfold firstGap at h
  simp only at h
  split at h
  · next hany =>
    cases h
    by_contra hge
    rw [drop_eq_nil_of_le (not_lt.mp hge)] at hany
    exact absurd hany (by simp)
  · cases h

/-- From a context of `2^62` on, `2*context` wraps and the block loop stops at the first gap: past
the end of the script, or, once `eqStart + context` wraps too, at a negative index. -/
theorem blockEnd_large (hc : 2 ^ 62 ≤ c) (hc' : c < 2 ^ 63) (hl : script.length < 2 ^ 62)
    (hk : At changes script k)
    (hpre : ∀ i < k, At passes script i) :
    blockEnd script c (script.length + 1) k =
      match firstGap script with
      | some g => if c + g < 2 ^ 63 then .ok script.length else .ok ((g : Int) + c - 2 ^ 64)
      | none => .ok script.length := by
  obtain ⟨j, n, hkj, hjn, hnl, hchanges, hp, hn, heq⟩ := blockEnd_scans hk script.length
  rw [heq, firstGap_eq hpre hkj hchanges hjn hnl hp hn]
  rcases Nat.lt_or_ge n script.length with hlt | hge
  · have hw : wrap64 (2 * (c : Int)) = 2 * c - 2 ^ 64 := wrap64_overflow (by omega) (by omega)
    rw [if_neg (by omega), if_pos (by omega), if_pos hlt]
    by_cases hs : c + j < 2 ^ 63
    · have hw' : wrap64 ((j : Int) + c) = j + c := wrap64_of_lt (by omega) (by omega)
      simp only [if_pos hs]
      rw [if_pos (by omega)]
    · have hw' : wrap64 ((j : Int) + c) = j + c - 2 ^ 64 := wrap64_overflow (by omega) (by omega)
      simp only [hw', if_neg hs]
      rw [if_neg (by omega)]
  · obtain r : n = script.length := by omega
    rw [if_pos r, if_neg (by omega), if_neg (by omega)]

/-- **`BuildHunks` returns spans.** So it does whenever the first gap and the context stay within
an `int`. -/
theorem buildHunks_spans (hlen : script.length < 2 ^ 62) (hc : c < 2 ^ 63)
    (hgap : ∀ g, firstGap script = some g → c + g < 2 ^ 63) (n₁ n₂ : Bool) :
    ∃ sp, buildHunks script c n₁ n₂ = .ok (sp.map fun s => hunkOf script s.1 s.2) ∧
      Spans script 0 0 sp := by
  rcases Nat.lt_or_ge c (2 ^ 62) with hsmall | hl
  · exact hunkLoop_spans (fun k hk => blockEnd_spec hsmall hlen script.length hk (by omega))
      script.length le_rfl (Nat.zero_le _) (by omega) (fun _ _ _ => Or.inr rfl)
  by_cases hany : ∃ j, 0 ≤ j ∧ At changes script j
  · obtain ⟨k, -, hk, hp⟩ := exists_next_change hany
    have hlt := hk.lt
    have he := blockEnd_large hl hc hlen hk (fun i hi => hp i (Nat.zero_le _) hi)
    have he' : blockEnd script c (script.length + 1) k = .ok (script.length : Int) := by
      rw [he]
      cases hg : firstGap script with
      | none => rfl
      | some g => simp only [if_pos (hgap g hg)]
    have hd : ∀ j, script.length ≤ j → ¬ At changes script j := fun j hj h => by
      have := h.lt; omega
    obtain ⟨m, hm⟩ : ∃ m, script.length = m + 1 := ⟨script.length - 1, by omega⟩
    refine ⟨[(k - c, script.length)], ?_, ?_⟩
    · have hs := hunkLoop_step script.length (Nat.zero_le k) hp hk he' le_rfl
      have hr : hunkLoop script c script.length script.length = .ok [] := by
        rw [show hunkLoop script c script.length = hunkLoop script c (m + 1) by rw [hm]]
        exact hunkLoop_done m le_rfl hd
      rw [hr] at hs
      exact_mod_cast hs
    · refine ⟨Nat.zero_le _, Nat.zero_le _, by omega, le_rfl, ?_, le_rfl, hd⟩
      intro j hj hjs
      exact (hp j hj (by omega)).not_changes
  · have hn : ∀ j, 0 ≤ j → ¬ At changes script j := fun j hj h => hany ⟨j, hj, h⟩
    exact ⟨[], hunkLoop_done _ (Nat.zero_le _) hn, Nat.zero_le _, hn⟩

/-- **The overflow.** When gap and context leave the range of an `int`, the block ends at a negative
index, and that panics. -/
theorem buildHunks_overflow (hl : script.length < 2 ^ 62) (hc : c < 2 ^ 63)
    (hg : firstGap script = some g) (hsum : 2 ^ 63 ≤ c + g) (n₁ n₂ : Bool) :
    buildHunks script c n₁ n₂ = .error .index := by
  have hany : ∃ j, 0 ≤ j ∧ At changes script j := by
    by_contra hn
    rw [firstGap_none (fun j hj => hn ⟨j, Nat.zero_le j, hj⟩)] at hg
    cases hg
  obtain ⟨k, -, hk, hpre⟩ := exists_next_change hany
  have hgl := firstGap_lt hg
  have he := blockEnd_large (by omega) hc hl hk (fun i hi => hpre i (Nat.zero_le _) hi)
  rw [hg] at he
  simp only [if_neg (not_lt.mpr hsum)] at he
  obtain ⟨m, hm⟩ : ∃ m, script.length = m + 1 := ⟨script.length - 1, by omega⟩
  have hneg : (g : Int) + c - 2 ^ 64 < 0 := by omega
  have hp : hunkLoop script c script.length ((g : Int) + c - 2 ^ 64) = .error .index := by
    rw [show hunkLoop script c script.length = hunkLoop script c (m + 1) by rw [hm], hunkLoop,
      if_pos (by omega), scan, if_pos (by omega), index_neg hneg]
    rfl
  have hs := hunkLoop_step script.length (Nat.zero_le k) hpre hk he (by omega)
  rw [hp] at hs
  exact_mod_cast hs

/-! ## What a hunk says -/

/-- The old side of a hunk body: its context and deleted lines, without their sign. -/
def bodyOld (lines : List Bytes) : List Bytes :=
  (lines.filter fun l => l.head? = some 32 || l.head? = some 45).map List.tail

/-- The new side of a hunk body: its context and inserted lines, without their sign. -/
def bodyNew (lines : List Bytes) : List Bytes :=
  (lines.filter fun l => l.head? = some 32 || l.head? = some 43).map List.tail

/-- Replay hunks over `rest`, the old lines from position `pos` on: copy the lines before each hunk,
and put its new side in the place of its old side. -/
def replay : (pos : Nat) → (rest : List Bytes) → List Hunk → List Bytes
  | _, rest, [] => rest
  | pos, rest, h :: hunks =>
    let gap := h.oldStart - 1 - pos
    rest.take gap ++ bodyNew h.lines ++
      replay (pos + gap + h.oldLines) (rest.drop (gap + h.oldLines)) hunks

def oldOf (items : List (DiffItem Bytes)) : List Bytes :=
  (items.filter (·.op.takesOld)).map DiffItem.text

def newOf (items : List (DiffItem Bytes)) : List Bytes :=
  (items.filter (·.op.takesNew)).map DiffItem.text

@[simp] theorem oldOf_append (s t : List (DiffItem Bytes)) :
    oldOf (s ++ t) = oldOf s ++ oldOf t := by
  simp [oldOf]

@[simp] theorem newOf_append (s t : List (DiffItem Bytes)) :
    newOf (s ++ t) = newOf s ++ newOf t := by
  simp [newOf]

theorem bodyOld_map_itemLine (it : List (DiffItem Bytes)) :
    bodyOld (it.map itemLine) = oldOf it := by
  induction it with
  | nil => rfl
  | cons item it ih =>
    simp only [bodyOld, oldOf] at ih ⊢
    cases h : item.op <;> simp [itemLine, takesOld, h, ih]

theorem bodyNew_map_itemLine (it : List (DiffItem Bytes)) :
    bodyNew (it.map itemLine) = newOf it := by
  induction it with
  | nil => rfl
  | cons item it ih =>
    simp only [bodyNew, newOf] at ih ⊢
    cases h : item.op <;> simp [itemLine, takesNew, h, ih]

theorem foldl_add (it : List (DiffItem Bytes)) : ∀ h : Hunk,
    it.foldl Hunk.add h =
      { h with
        lines := h.lines ++ it.map itemLine
        oldLines := h.oldLines + (oldOf it).length
        newLines := h.newLines + (newOf it).length } := by
  induction it with
  | nil => simp [oldOf, newOf]
  | cons item it ih =>
    intro h
    rw [foldl_cons, ih]
    cases hop : item.op <;>
      simp [Hunk.add, oldOf, newOf, hop, takesOld, takesNew] <;> omega

section HunkOf

def segment (script : List (DiffItem Bytes)) (s e : Nat) : List (DiffItem Bytes) :=
  (script.take e).drop s

theorem hunkOf_eq (script : List (DiffItem Bytes)) (s e : Nat) :
    hunkOf script s e =
      { oldStart := 1 + (oldOf (script.take s)).length
        oldLines := (oldOf (segment script s e)).length
        newStart := 1 + (newOf (script.take s)).length
        newLines := (newOf (segment script s e)).length
        lines := (segment script s e).map itemLine } := by
  simp [hunkOf, foldl_add, segment, oldOf, newOf, countP_eq_length_filter]

@[simp] theorem bodyOld_hunkOf :
    bodyOld (hunkOf script s e).lines = oldOf (segment script s e) := by
  rw [hunkOf_eq]
  exact bodyOld_map_itemLine _

@[simp] theorem bodyNew_hunkOf :
    bodyNew (hunkOf script s e).lines = newOf (segment script s e) := by
  rw [hunkOf_eq]
  exact bodyNew_map_itemLine _

theorem segment_append_drop (h : s ≤ e) : segment script s e ++ script.drop e = script.drop s := by
  rw [segment, drop_take]
  have hd : script.drop e = (script.drop s).drop (e - s) := by
    rw [drop_drop, Nat.add_sub_cancel' h]
  rw [hd, take_append_drop]

theorem take_append_segment (h : s ≤ e) : script.take s ++ segment script s e = script.take e := by
  have hs : script.take s = (script.take e).take s := by rw [take_take, Nat.min_eq_left h]
  rw [segment, hs, take_append_drop]

theorem segment_eq_of_not_changes (hp : Plain script)
    (h : ∀ j, s ≤ j → j < e → ¬ At changes script j) :
    ∀ item ∈ segment script s e, item.op = .eq := by
  intro item hit
  obtain ⟨i, hi, rfl⟩ := getElem_of_mem hit
  simp only [segment, length_drop, length_take] at hi
  have hlt : s + i < script.length := by omega
  have hg : (segment script s e)[i]? = some script[s + i] := by
    rw [segment, List.getElem?_drop, List.getElem?_take_of_lt (by omega),
      List.getElem?_eq_getElem hlt]
  have hg' := (List.getElem?_eq_some_iff.mp hg).2
  rw [hg']
  have hn := h (s + i) (by omega) (by omega)
  rcases hp _ (getElem_mem hlt) with hop | hop | hop
  · exact hop
  · exact absurd (at_of_getElem hlt (by rw [hop]; rfl)) hn
  · exact absurd (at_of_getElem hlt (by rw [hop]; rfl)) hn

theorem newOf_eq_oldOf (h : ∀ it ∈ items, it.op = .eq) : newOf items = oldOf items := by
  unfold newOf oldOf
  congr 1
  refine filter_congr ?_
  intro it hi
  rw [h it hi]
  rfl

end HunkOf

/-! ## Replaying the spans -/

def hunksOf (script : List (DiffItem Bytes)) (spans : List (Nat × Nat)) : List Hunk :=
  spans.map fun s => hunkOf script s.1 s.2

/-- Replaying the hunks from position `i` of the script on turns the old lines from there on into
the new ones. -/
theorem replay_hunksOf (hp : Plain script) (sp : List (Nat × Nat)) :
    ∀ {lo i : Nat}, Spans script lo i sp →
      replay (oldOf (script.take i)).length (oldOf (script.drop i)) (hunksOf script sp) =
          newOf (script.drop i) := by
  induction sp with
  | nil =>
    rintro lo i ⟨_, hn⟩
    have hsg : segment script i script.length = script.drop i := by
      rw [segment, take_length]
    have hk := segment_eq_of_not_changes hp (e := script.length) (fun j hj _ => hn j hj)
    rw [hsg] at hk
    exact (newOf_eq_oldOf hk).symm
  | cons span sp ih =>
    obtain ⟨s, e⟩ := span
    rintro lo i ⟨_, his, hsegment, _, hn, hs⟩
    have hk := newOf_eq_oldOf (segment_eq_of_not_changes hp hn)
    have hold : oldOf (script.drop i) =
        oldOf (segment script i s) ++ (oldOf (segment script s e) ++ oldOf (script.drop e)) := by
      rw [← oldOf_append, ← oldOf_append, segment_append_drop hsegment.le, segment_append_drop his]
    have hnew : newOf (script.drop i) =
        newOf (segment script i s) ++ (newOf (segment script s e) ++ newOf (script.drop e)) := by
      rw [← newOf_append, ← newOf_append, segment_append_drop hsegment.le, segment_append_drop his]
    have htake : (oldOf (script.take s)).length =
        (oldOf (script.take i)).length + (oldOf (segment script i s)).length := by
      rw [← length_append, ← oldOf_append, take_append_segment his]
    have ht : (oldOf (script.take e)).length =
        (oldOf (script.take s)).length + (oldOf (segment script s e)).length := by
      rw [← length_append, ← oldOf_append, take_append_segment hsegment.le]
    have hg : 1 + (oldOf (script.take s)).length - 1 - (oldOf (script.take i)).length =
        (oldOf (segment script i s)).length := by omega
    have hpos : (oldOf (script.take i)).length + (oldOf (segment script i s)).length +
        (oldOf (segment script s e)).length = (oldOf (script.take e)).length := by omega
    have ih' := ih hs
    simp only [hunksOf, map_cons, replay, bodyNew_hunkOf] at ih' ⊢
    rw [hunkOf_eq]
    simp only [hg, hpos]
    rw [hold, take_left, ← drop_drop, drop_left, drop_left, ih', hnew, hk, append_assoc]

/-! ## The order of the spans -/

/-- Every span starts at `i` and at `lo` or later, and ends within the script. -/
theorem Spans.bounds (h : Spans script lo i s) :
    ∀ t ∈ s, i ≤ t.1 ∧ t.1 < t.2 ∧ t.2 ≤ script.length ∧ (i < lo → i < t.1) := by
  induction s generalizing lo i with
  | nil => intro t ht; cases ht
  | cons sp s ih =>
    obtain ⟨hlow, his, hse, hel, hn, hs⟩ := h
    intro t ht
    rcases mem_cons.mp ht with rfl | ht
    · exact ⟨his, hse, hel, fun hl => by omega⟩
    · obtain ⟨h₁, h₂, h₃, _⟩ := ih hs t ht
      exact ⟨by omega, h₂, h₃, fun _ => by omega⟩

theorem Spans.pairwise (h : Spans script lo i s) : s.Pairwise fun t t' => t.2 < t'.1 := by
  induction s generalizing lo i with
  | nil => exact List.Pairwise.nil
  | cons sp s ih =>
    obtain ⟨_, _, _, _, _, hs⟩ := h
    refine List.Pairwise.cons ?_ (ih hs)
    intro t ht
    exact (hs.bounds t ht).2.2.2 (by omega)

theorem Spans.exists_mem (h : Spans script lo i sp) (hij : i ≤ j) (hj : At changes script j) :
    ∃ t ∈ sp, t.1 ≤ j ∧ j < t.2 := by
  induction sp generalizing lo i with
  | nil => exact absurd hj (h.2 j hij)
  | cons span sp ih =>
    obtain ⟨s, e⟩ := span
    obtain ⟨_, _, _, _, hn, hs⟩ := h
    rcases Nat.lt_or_ge j s with hjs | hjs
    · exact absurd hj (hn j hij hjs)
    rcases Nat.lt_or_ge j e with hje | hje
    · exact ⟨(s, e), mem_cons_self, hjs, hje⟩
    · obtain ⟨t, ht, hm⟩ := ih hs hje
      exact ⟨t, mem_cons_of_mem _ ht, hm⟩

theorem at_take (h : At p (script.take s) j) : j < s ∧ At p script j := by
  have hlt := h.lt
  obtain ⟨it, hj, hp⟩ := h
  rw [length_take] at hlt
  rw [List.getElem?_take_of_lt (by omega)] at hj
  exact ⟨by omega, it, hj, hp⟩

theorem Spans.take {before after : List (Nat × Nat)}
    (h : Spans script lo i (before ++ (s, e) :: after)) :
    Spans (script.take s) lo i before := by
  induction before generalizing lo i with
  | nil =>
    obtain ⟨_, his, hse, hel, hn, _⟩ := h
    refine ⟨by rw [length_take]; omega, ?_⟩
    intro j hij hj
    obtain ⟨hjs, hj'⟩ := at_take hj
    exact hn j hij hjs hj'
  | cons sp before ih =>
    obtain ⟨hlow, his, hse, hel, hn, hs⟩ := h
    obtain ⟨hes, _, _, _⟩ := Spans.bounds hs (s, e) (by simp)
    refine ⟨hlow, his, hse, by rw [length_take]; omega, ?_, ih hs⟩
    intro j hij hjs hj
    exact hn j hij hjs (at_take hj).2

theorem hunkOf_take (hsegment : s ≤ e) (hend : e ≤ n) :
    hunkOf (script.take n) s e = hunkOf script s e := by
  simp only [hunkOf_eq, segment, take_take, Nat.min_eq_left hend,
    Nat.min_eq_left (hsegment.trans hend)]

/-! ## The whole statement -/

/-- What `BuildHunks` owes its caller, for an edit script of `a` into `b`. -/
structure Hunked (a b : List Bytes) (script : List (DiffItem Bytes)) (hunks : List Hunk) :
    Prop where
  /-- The hunks are in order and do not touch. -/
  ordered : hunks.Pairwise fun h h' =>
    h.oldStart + h.oldLines < h'.oldStart ∧ h.newStart + h.newLines < h'.newStart
  /-- The counts in a header are those of the body. -/
  counts : ∀ h ∈ hunks, h.oldLines = (bodyOld h.lines).length ∧
    h.newLines = (bodyNew h.lines).length
  /-- The bodies are segments of the script, and each change is in exactly one of them. -/
  once : ∃ spans : List (Nat × Nat),
    hunks.map Hunk.lines = spans.map (fun t => (segment script t.1 t.2).map itemLine) ∧
      ∀ j, At changes script j → ∃! n : Nat, ∃ t, spans[n]? = some t ∧ t.1 ≤ j ∧ j < t.2
  /-- Replaying the hunks over `a` gives `b`. -/
  replays : replay 0 a hunks = b
  /-- Each side of a hunk stands where its start says, after what the hunks before it produce.
  The printed start of an empty side is the number of the line before it. -/
  located : ∀ before h after, hunks = before ++ h :: after →
    ∃ a₁ a₂ b₁ b₂, a = a₁ ++ bodyOld h.lines ++ a₂ ∧ b = b₁ ++ bodyNew h.lines ++ b₂ ∧
      replay 0 a₁ before = b₁ ∧
      h.oldStart = a₁.length + 1 ∧ h.newStart = b₁.length + 1 ∧
      h.oldHeader = (if bodyOld h.lines = [] then a₁.length else a₁.length + 1) ∧
      h.newHeader = (if bodyNew h.lines = [] then b₁.length else b₁.length + 1)

theorem oldOf_eq_oldSide (hp : Plain script) : oldOf script = oldSide script := by
  unfold oldOf oldSide
  congr 1
  refine filter_congr ?_
  intro it hi
  rcases hp it hi with h | h | h <;> simp [h, takesOld]

theorem newOf_eq_newSide (hp : Plain script) : newOf script = newSide script := by
  unfold newOf newSide
  congr 1
  refine filter_congr ?_
  intro it hi
  rcases hp it hi with h | h | h <;> simp [h, takesNew]

/-- The unchanged operation between two spans takes up a line of each file. -/
theorem Spans.lines_between (hp : Plain script) (h : Spans script lo i s) (hlow : i < lo) :
    ∀ t ∈ s, (oldOf (script.take i)).length < (oldOf (script.take t.1)).length ∧
      (newOf (script.take i)).length < (newOf (script.take t.1)).length := by
  cases s with
  | nil => intro t ht; cases ht
  | cons sp s =>
    have hb := h.bounds
    obtain ⟨hlow', his, hse, hel, hn, _⟩ := h
    -- the operation at `i` itself is unchanged
    have hsegment : segment script i (i + 1) = [script[i]] := by
      rw [segment, drop_take, Nat.add_sub_cancel_left, drop_eq_getElem_cons (by omega)]
      rfl
    have heq : (script[i]).op = .eq :=
      segment_eq_of_not_changes hp (e := i + 1)
        (fun j hij hj => hn j hij (by omega)) _ (by rw [hsegment]; exact mem_singleton_self _)
    have ho : (oldOf [script[i]]).length = 1 ∧ (newOf [script[i]]).length = 1 := by
      simp [oldOf, newOf, heq, takesOld, takesNew]
    intro t ht
    have hit := (hb t ht).2.2.2 hlow
    have htake : script.take t.1 = script.take i ++ [script[i]] ++ segment script (i + 1) t.1 := by
      rw [← hsegment, take_append_segment (Nat.le_succ i), take_append_segment hit]
    rw [htake]
    simp only [oldOf_append, newOf_append, length_append, ho.1]
    omega

theorem Spans.ordered (hp : Plain script) (h : Spans script lo i sp) :
    (hunksOf script sp).Pairwise fun h h' =>
      h.oldStart + h.oldLines < h'.oldStart ∧ h.newStart + h.newLines < h'.newStart := by
  induction sp generalizing lo i with
  | nil => exact List.Pairwise.nil
  | cons span sp ih =>
    obtain ⟨s, e⟩ := span
    obtain ⟨_, _, hsegment, _, _, hs⟩ := h
    refine List.Pairwise.cons ?_ (ih hs)
    intro h' hh'
    obtain ⟨t, ht, rfl⟩ := mem_map.mp hh'
    have hb := hs.lines_between hp (Nat.lt_succ_self e) t ht
    have htake : script.take e = script.take s ++ segment script s e :=
      (take_append_segment hsegment.le).symm
    rw [htake] at hb
    simp only [oldOf_append, newOf_append, length_append] at hb
    simp only [hunkOf_eq]
    omega

theorem Spans.existsUnique (h : Spans script lo i spans) (hij : i ≤ j) (hj : At changes script j) :
    ∃! n : Nat, ∃ t, spans[n]? = some t ∧ t.1 ≤ j ∧ j < t.2 := by
  obtain ⟨t, ht, h₁, h₂⟩ := h.exists_mem hij hj
  obtain ⟨n, hn, rfl⟩ := getElem_of_mem ht
  refine ⟨n, ⟨_, List.getElem?_eq_getElem hn, h₁, h₂⟩, ?_⟩
  rintro m ⟨t', ht', h₁', h₂'⟩
  obtain ⟨hm, rfl⟩ := List.getElem?_eq_some_iff.mp ht'
  have hp := pairwise_iff_getElem.mp h.pairwise
  rcases Nat.lt_trichotomy m n with hlt | heq | hgt
  · have := hp m n hm hn hlt
    omega
  · exact heq
  · have := hp n m hn hm hgt
    omega

/-- **Spans are enough.** The hunks of any spans of an edit script are correct. -/
theorem Spans.hunked (hs : EditScript a b script)
    (h : Spans script 0 0 spans) : Hunked a b script (hunksOf script spans) := by
  have hp := hs.plain
  have ha : oldOf script = a := (oldOf_eq_oldSide hp).trans hs.old
  have hb : newOf script = b := (newOf_eq_newSide hp).trans hs.new
  refine ⟨h.ordered hp, ?_, ⟨spans, ?_, ?_⟩, ?_, ?_⟩
  · intro hunk hh
    obtain ⟨t, _, rfl⟩ := mem_map.mp hh
    rw [bodyOld_hunkOf, bodyNew_hunkOf, hunkOf_eq]
    exact ⟨rfl, rfl⟩
  · simp [hunksOf, hunkOf_eq]
  · intro j hj
    exact h.existsUnique (Nat.zero_le j) hj
  · have hr := replay_hunksOf hp spans h
    simp only [drop_zero, ha, hb] at hr
    exact hr
  · intro before hunk after hsplit
    obtain ⟨sp₁, sp₂, rfl, h₁, h₂⟩ := map_eq_append_iff.mp hsplit
    obtain ⟨t, sp₃, rfl, rfl, _⟩ := map_eq_cons_iff.mp h₂
    obtain ⟨s, e⟩ := t
    obtain ⟨-, hsegment, hel, -⟩ := h.bounds (s, e) (by simp)
    have hbefore : hunksOf (script.take s) sp₁ = before := by
      rw [← h₁]
      refine map_congr_left ?_
      intro t ht
      obtain ⟨-, ht₁, ht₂, -⟩ := h.take.bounds t ht
      rw [length_take] at ht₂
      exact hunkOf_take ht₁.le (by omega)
    have hp' : Plain (script.take s) := fun item hi => hp item (mem_of_mem_take hi)
    have hr := replay_hunksOf hp' sp₁ h.take
    simp only [hbefore] at hr
    have hparts : script = script.take s ++ segment script s e ++ script.drop e := by
      rw [append_assoc, segment_append_drop hsegment.le, take_append_drop]
    refine ⟨oldOf (script.take s), oldOf (script.drop e), newOf (script.take s),
      newOf (script.drop e), ?_, ?_, hr, ?_, ?_, ?_, ?_⟩
    · rw [bodyOld_hunkOf, ← oldOf_append, ← oldOf_append, ← hparts, ha]
    · rw [bodyNew_hunkOf, ← newOf_append, ← newOf_append, ← hparts, hb]
    · rw [hunkOf_eq]
      exact Nat.add_comm _ _
    · rw [hunkOf_eq]
      exact Nat.add_comm _ _
    · rw [bodyOld_hunkOf, hunkOf_eq]
      simp only [Hunk.oldHeader, length_eq_zero_iff]
      split <;> omega
    · rw [bodyNew_hunkOf, hunkOf_eq]
      simp only [Hunk.newHeader, length_eq_zero_iff]
      split <;> omega

/-- **`BuildHunks` is correct exactly when it does not overflow**: the context `c` can be added
within an `int` to the start of the first gap between two blocks of changes. (A script of 24-byte
items cannot have `2^62` of them.) -/
theorem buildHunks_correct_iff {a b : List Bytes} (hs : EditScript a b script) {c : Nat}
    (hlen : script.length < 2 ^ 62) (hc : c < 2 ^ 63) (n₁ n₂ : Bool) :
    (∃ hunks, buildHunks script c n₁ n₂ = .ok hunks ∧ Hunked a b script hunks) ↔
      ∀ g, firstGap script = some g → c + g < 2 ^ 63 := by
  constructor
  · rintro ⟨hunks, hok, -⟩ g hg
    by_contra hsum
    rw [buildHunks_overflow hlen hc hg (not_lt.mp hsum)] at hok
    cases hok
  · intro hgap
    obtain ⟨spans, hok, hspans⟩ := buildHunks_spans hlen hc hgap n₁ n₂
    exact ⟨_, hok, hspans.hunked hs⟩

theorem buildHunks_correct_three :
    ∃ hunks, buildHunks [⟨.del, str "x"⟩, ⟨.eq, str "y"⟩, ⟨.ins, str "z"⟩] 3 true true = .ok hunks ∧
      Hunked [str "x", str "y"] [str "y", str "z"]
        [⟨.del, str "x"⟩, ⟨.eq, str "y"⟩, ⟨.ins, str "z"⟩] hunks :=
  (buildHunks_correct_iff ⟨by simp [Plain], by decide, by decide⟩ (by decide) (by decide)
    true true).mpr (by decide)

/-- The same script with the largest context an `int` can hold: no hunks at all. -/
theorem buildHunks_largest_context :
    EditScript [str "x", str "y"] [str "y", str "z"]
      [⟨.del, str "x"⟩, ⟨.eq, str "y"⟩, ⟨.ins, str "z"⟩] ∧
      ¬ ∃ hunks, buildHunks [⟨.del, str "x"⟩, ⟨.eq, str "y"⟩, ⟨.ins, str "z"⟩]
        (2 ^ 63 - 1) true true
          = .ok hunks ∧
        Hunked [str "x", str "y"] [str "y", str "z"]
          [⟨.del, str "x"⟩, ⟨.eq, str "y"⟩, ⟨.ins, str "z"⟩] hunks := by
  refine ⟨⟨by simp [Plain], by decide, by decide⟩, ?_⟩
  rintro ⟨hunks, hok, -⟩
  cases hok

end GoPosix.Diff
