import GoPosix.Lib.EditGraph
import GoPosix.Diff.Basic

/-!
# Correctness and optimality of `Diff`

One invariant, `Row`, ties the search to the edit graph: after round `d` the array `v` holds, for
every diagonal of that round, the furthest point of a path with `d` edits. The rest follows:

* no index is out of range, because every diagonal a round reads was written by the round before
  (`round_spec`);
* the loops are left at the far corner itself, though the source only tests `x >= n && y >= m` and
  does not clip its points (`Furthest.corner_of_first`);
* backtracking retraces the moves of the search, as both run `fromAbove` on the same row
  (`backStep_spec`).

`diff_editScript` and `diff_shortest` are the two results.
-/

namespace GoPosix.Diff

open Slice EditGraph List

variable {α : Type}

/-! ## Scripts, built from the end -/

section Scripts

variable {a b : List α} {script : List (DiffItem α)}

theorem EditScript.nil : EditScript ([] : List α) [] [] := ⟨nofun, rfl, rfl⟩

theorem EditScript.consEq (c : α) (h : EditScript a b script) :
    EditScript (c :: a) (c :: b) (⟨.eq, c⟩ :: script) := by
  refine ⟨forall_mem_cons.mpr ⟨.inl rfl, h.plain⟩, ?_, ?_⟩
  · simpa [oldSide] using h.old
  · simpa [newSide] using h.new

theorem EditScript.consDel (c : α) (h : EditScript a b script) :
    EditScript (c :: a) b (⟨.del, c⟩ :: script) := by
  refine ⟨forall_mem_cons.mpr ⟨.inr (.inl rfl), h.plain⟩, ?_, ?_⟩
  · simpa [oldSide] using h.old
  · simpa [newSide] using h.new

theorem EditScript.consIns (c : α) (h : EditScript a b script) :
    EditScript a (c :: b) (⟨.ins, c⟩ :: script) := by
  refine ⟨forall_mem_cons.mpr ⟨.inr (.inr rfl), h.plain⟩, ?_, ?_⟩
  · simpa [oldSide] using h.old
  · simpa [newSide] using h.new

@[simp] theorem editCount_append (s t : List (DiffItem α)) :
    editCount (s ++ t) = editCount s + editCount t := by
  simp [editCount]

@[simp] theorem editCount_reverse (s : List (DiffItem α)) : editCount s.reverse = editCount s := by
  simp [editCount]

@[simp] theorem editCount_eq (c : α) : editCount [⟨.eq, c⟩] = 0 := rfl

@[simp] theorem editCount_del (c : α) : editCount [⟨.del, c⟩] = 1 := rfl

@[simp] theorem editCount_ins (c : α) : editCount [⟨.ins, c⟩] = 1 := rfl

theorem drop_eq_cons (h : a[x]? = some c) : a.drop x = c :: a.drop (x + 1) := by
  obtain ⟨hx, rfl⟩ := List.getElem?_eq_some_iff.mp h
  exact drop_eq_getElem_cons hx

end Scripts

/-! ## One diagonal -/

variable {a b : List α}

/-- The snake from a point: it goes on as long as the lines match. -/
theorem slide_spec [DecidableEq α] (f : Nat) : ∀ x y : Nat, a.length ≤ x + f →
    ∃ l : Nat, slide a b (f + 1) x y = .ok (((x + l : Nat) : Int), ((y + l : Nat) : Int)) ∧
      (∀ i < l, Matches a b (x + i) (y + i)) ∧ ¬ Matches a b (x + l) (y + l) := by
  -- a mismatch at once: the loop returns its arguments
  have stop : ∀ (f x y : Nat), ¬ Matches a b x y →
      slide a b (f + 1) x y = .ok ((x : Int), (y : Int)) := by
    intro f x y hm
    rw [slide]
    split
    · next hlt =>
      have hx : x < a.length := by omega
      have hy : y < b.length := by omega
      have hne : a[x] ≠ b[y] := fun h =>
        hm ⟨a[x], List.getElem?_eq_getElem hx, by rw [List.getElem?_eq_getElem hy, h]⟩
      rw [index_natCast (List.getElem?_eq_getElem hx), index_natCast (List.getElem?_eq_getElem hy)]
      simp [bind, Except.bind, hne]
    · rfl
  induction f with
  | zero =>
    intro x y hf
    have hm : ¬ Matches a b x y := fun hm => by have := hm.lt_left; omega
    exact ⟨0, stop 0 x y hm, by omega, hm⟩
  | succ f ih =>
    intro x y hf
    by_cases hm : Matches a b x y
    · obtain ⟨l, hl, hr, hmaximal⟩ := ih (x + 1) (y + 1) (by omega)
      refine ⟨l + 1, ?_, ?_, ?_⟩
      · obtain ⟨c, ha, hb⟩ := hm
        have hx := (List.getElem?_eq_some_iff.mp ha).1
        have hy := (List.getElem?_eq_some_iff.mp hb).1
        rw [slide, if_pos ⟨by omega, by omega⟩, index_natCast ha, index_natCast hb]
        simp only [bind, Except.bind]
        rw [show x + (l + 1) = x + 1 + l by omega, show y + (l + 1) = y + 1 + l by omega, ← hl]
        rfl
      · intro i hi
        cases i with
        | zero => exact hm
        | succ i =>
          have := hr i (by omega)
          rwa [show x + 1 + i = x + (i + 1) by omega, show y + 1 + i = y + (i + 1) by omega] at this
      · rwa [show x + 1 + l = x + (l + 1) by omega, show y + 1 + l = y + (l + 1) by omega]
          at hmaximal
    · exact ⟨0, stop (f + 1) x y hm, by omega, hm⟩

/-- What `v` holds for round `d`: the furthest point of each of its diagonals. -/
def Row (a b : List α) (maxD d : Nat) (v : List Int) : Prop :=
  ∀ k : Int, -d ≤ k → k ≤ d → (k + d) % 2 = 0 → ∃ x, index v (maxD + k) = .ok x ∧ Furthest a b d k x

variable {maxD d : Nat}

/-- The point at which a diagonal is entered in round `d + 1`: one step from the furthest point
`p` of the diagonal `fromAbove` chose. No other step onto the diagonal overshoots it. -/
structure Entry (a b : List α) (d : Nat) (k : Int) (down : Bool) (p : Int) (X Y : Nat) : Prop where
  furthest : Furthest a b d (if down then k + 1 else k - 1) p
  abscissa : (X : Int) = if down then p else p + 1
  diagonal : (X : Int) - Y = k
  reach : Reach a b (d + 1) X Y
  right : ∀ X' Y', Reach a b d X' Y' → (X' : Int) - Y' = k - 1 → X' + 1 ≤ X
  down : ∀ X' Y', Reach a b d X' Y' → (X' : Int) - Y' = k + 1 → X' ≤ X

theorem Entry.of_above (hf : Furthest a b d (k + 1) p)
    (hright : ∀ X' Y', Reach a b d X' Y' → (X' : Int) - Y' = k - 1 → (X' : Int) + 1 ≤ p) :
    ∃ X Y, Entry a b d k true p X Y := by
  obtain ⟨X, Y, r, hk, hr⟩ := hf.reach
  refine ⟨X, Y + 1, hf, r, by omega, hr.down, ?_, ?_⟩
  · intro X' Y' h' hk'
    have := hright X' Y' h' hk'
    omega
  · intro X' Y' h' hk'
    have := hf.le X' Y' h' hk'
    omega

theorem Entry.of_below (hf : Furthest a b d (k - 1) p)
    (hd : ∀ X' Y', Reach a b d X' Y' → (X' : Int) - Y' = k + 1 → (X' : Int) ≤ p + 1) :
    ∃ X Y, Entry a b d k false p X Y := by
  obtain ⟨X, Y, rfl, hk, hr⟩ := hf.reach
  refine ⟨X + 1, Y, hf, by simp, by omega, hr.right, ?_, ?_⟩
  · intro X' Y' h' hk'
    have := hf.le X' Y' h' hk'
    omega
  · intro X' Y' h' hk'
    have := hd X' Y' h' hk'
    omega

/-- On a row of round `d`, the choice made for a diagonal of round `d + 1` reads only entries
that the row has, and finds the point furthest along that diagonal. -/
theorem enter_spec (hr : Row a b maxD d v)
    (hlow : -((d : Int) + 1) ≤ k) (hhigh : k ≤ (d : Int) + 1) (hparity : (k + d + 1) % 2 = 0) :
    ∃ down p X Y, fromAbove v maxD (d + 1) k = .ok down ∧
      index v (maxD + if down then k + 1 else k - 1) = .ok p ∧ Entry a b d k down p X Y := by
  by_cases hbottom : k = -((d : Int) + 1)
  · -- the lowest diagonal can only be entered from above
    obtain ⟨p, hp, hf⟩ := hr (k + 1) (by omega) (by omega) (by omega)
    obtain ⟨X, Y, he⟩ := Entry.of_above hf (by
      intro X' Y' h' hk'
      have := h'.diagonal
      omega)
    exact ⟨true, p, X, Y, by simp [fromAbove, hbottom], by simpa using hp, he⟩
  by_cases hto : k = (d : Int) + 1
  · -- and the highest one only from below
    obtain ⟨p, hp, hf⟩ := hr (k - 1) (by omega) (by omega) (by omega)
    obtain ⟨X, Y, he⟩ := Entry.of_below hf (by
      intro X' Y' h' hk'
      have := h'.diagonal
      omega)
    refine ⟨false, p, X, Y, ?_, by simpa using hp, he⟩
    rw [fromAbove, if_neg hbottom, if_pos hto]
  obtain ⟨below, hb, hbelow⟩ := hr (k - 1) (by omega) (by omega) (by omega)
  obtain ⟨above, habove, hfa⟩ := hr (k + 1) (by omega) (by omega) (by omega)
  have ht : fromAbove v maxD (d + 1) k = .ok (decide (below < above)) := by
    rw [fromAbove, if_neg hbottom, if_neg hto, show (maxD : Int) + k - 1 = maxD + (k - 1) by ring,
      show (maxD : Int) + k + 1 = maxD + (k + 1) by ring, hb, habove]
    rfl
  by_cases hlt : below < above
  · obtain ⟨X, Y, he⟩ := Entry.of_above hfa (by
      intro X' Y' h' hk'
      have := hbelow.le X' Y' h' hk'
      omega)
    exact ⟨true, above, X, Y, by simpa [hlt] using ht, by simpa using habove, he⟩
  · obtain ⟨X, Y, he⟩ := Entry.of_below hbelow (by
      intro X' Y' h' hk'
      have := hfa.le X' Y' h' hk'
      omega)
    exact ⟨false, below, X, Y, by simpa [hlt] using ht, by simpa using hb, he⟩

/-- The furthest point of a diagonal is the end of the matches that start where it is entered. -/
theorem Entry.furthest_succ {down : Bool}
    (he : Entry a b d k down p X Y) (hm : ∀ i < l, Matches a b (X + i) (Y + i))
    (hmatches : ¬ Matches a b (X + l) (Y + l)) : Furthest a b (d + 1) k (X + l : Nat) := by
  obtain rfl := he.diagonal
  exact Furthest.succ he.reach he.right he.down hm hmatches

/-- One turn of the inner loop, from the point at which the diagonal is entered. -/
theorem extend_eq [DecidableEq α] {down : Bool} {X Y : Nat}
    (hd : fromAbove v maxD d k = .ok down)
    (hp : index v (maxD + if down then k + 1 else k - 1) = .ok p)
    (hX : (X : Int) = if down then p else p + 1) (hk : (X : Int) - Y = k)
    (h0 : 0 ≤ maxD + k) (hlen : maxD + k < v.length) :
    ∃ l : Nat, extend a b maxD d k v =
      .ok (v.set (maxD + k).toNat (X + l : Nat), decide (a.length ≤ X + l ∧ b.length ≤ Y + l)) ∧
      (∀ i < l, Matches a b (X + i) (Y + i)) ∧ ¬ Matches a b (X + l) (Y + l) := by
  obtain ⟨l, hl, hr, hm⟩ := slide_spec (a := a) a.length X Y (by omega)
  refine ⟨l, ?_, hr, hm⟩
  have hx : enterAt v maxD k down = .ok (X : Int) := by
    cases down with
    | true =>
      simp only [if_true] at hp hX
      rw [enterAt, if_pos rfl, show maxD + k + 1 = maxD + (k + 1) by ring, hp, hX]
    | false =>
      simp only [Bool.false_eq_true, if_false] at hp hX
      rw [enterAt, show maxD + k - 1 = maxD + (k - 1) by ring, hp, hX]
      rfl
  have hY : (X : Int) - k = (Y : Int) := by omega
  unfold extend
  simp only [hd, hx, hY, hl, store_ok h0 hlen, bind, Except.bind]
  have hi : ((X + l : Nat) : Int) ≥ a.length ∧ ((Y + l : Nat) : Int) ≥ b.length ↔
      a.length ≤ X + l ∧ b.length ≤ Y + l := by omega
  rw [decide_eq_decide.mpr hi]

/-! ## One round -/

/-- The state of `v` in round `d`, before diagonal `k` is extended: the entries of this round
below `k` are in place, and those of the round before are still there. Round `0` reads the entry
of diagonal `1`, which is `0` from the allocation of `v`. -/
structure InRound (a b : List α) (maxD d : Nat) (k : Int) (v : List Int) : Prop where
  length : v.length = 2 * maxD + 1
  done : ∀ j : Int, -d ≤ j → j < k → (j + d) % 2 = 0 → ∃ x, index v (maxD + j) = .ok x ∧
    Furthest a b d j x
  prev : ∀ e, e + 1 = d → Row a b maxD e v
  first : d = 0 → index v (maxD + 1) = .ok 0

/-- The corner, or a point past it, is reached by a path with `d` edits. -/
def ReachCorner (a b : List α) (d : Nat) : Prop :=
  ∃ X Y, Reach a b d X Y ∧ a.length ≤ X ∧ b.length ≤ Y

/-- Extending diagonal `k` records its furthest point and keeps every other entry. -/
theorem extend_spec [DecidableEq α] (hv : InRound a b maxD d k v)
    (hlow : -(d : Int) ≤ k) (hhigh : k ≤ d) (hparity : (k + d) % 2 = 0) (hd : d ≤ maxD) :
    ∃ v' X Y, extend a b maxD d k v = .ok (v', decide (a.length ≤ X ∧ b.length ≤ Y)) ∧
      (X : Int) - Y = k ∧ Furthest a b d k X ∧ v'.length = v.length ∧
      index v' (maxD + k) = .ok (X : Int) ∧
      ∀ j, j ≠ k → index v' (maxD + j) = index v (maxD + j) := by
  have h0 : 0 ≤ (maxD : Int) + k := by omega
  have hlen : (maxD : Int) + k < v.length := by rw [hv.length]; omega
  -- the entry point, and the furthest point it leads to
  have henter : ∃ down p, ∃ X Y : Nat, fromAbove v maxD d k = .ok down ∧
      index v (maxD + if down then k + 1 else k - 1) = .ok p ∧
      (X : Int) = (if down then p else p + 1) ∧ (X : Int) - Y = k ∧
      ∀ l : Nat, (∀ i < l, Matches a b (X + i) (Y + i)) → ¬ Matches a b (X + l) (Y + l) →
        Furthest a b d k (X + l : Nat) := by
    cases d with
    | zero =>
      obtain rfl : k = 0 := by omega
      refine ⟨true, 0, 0, 0, by simp [fromAbove], by simpa using hv.first rfl, by simp, by simp, ?_⟩
      intro l hm hmaximal
      simpa using Furthest.zero (by simpa using hm) (by simpa using hmaximal)
    | succ e =>
      obtain ⟨down, p, X, Y, hdown, hp, he⟩ :=
        enter_spec (k := k) (hv.prev e rfl) (by omega) (by omega) (by omega)
      exact ⟨down, p, X, Y, by exact hdown, hp, he.abscissa, he.diagonal, fun l hm hmaximal =>
        he.furthest_succ hm hmaximal⟩
  obtain ⟨down, p, X, Y, hdown, hp, hX, hk, hf⟩ := henter
  obtain ⟨l, hl, hm, hmaximal⟩ := extend_eq (a := a) hdown hp hX hk h0 hlen
  refine ⟨_, X + l, Y + l, hl, by omega, hf l hm hmaximal, by simp, index_set_self h0 hlen, ?_⟩
  intro j hj
  exact index_set_ne h0 (by omega)

/-- After its turn on diagonal `k` the round is in the same state at `k + 2`. -/
theorem InRound.next {x : Int} {v v' : List Int} (hv : InRound a b maxD d k v)
    (hp : (k + d) % 2 = 0) (hl : v'.length = v.length)
    (hx : index v' (maxD + k) = .ok x) (hf : Furthest a b d k x)
    (hk : ∀ j, j ≠ k → index v' (maxD + j) = index v (maxD + j)) :
    InRound a b maxD d (k + 2) v' := by
  refine ⟨hl.trans hv.length, ?_, ?_, ?_⟩
  · intro j hlow hlt hj
    by_cases hjk : j = k
    · subst hjk
      exact ⟨x, hx, hf⟩
    · rw [hk j hjk]
      exact hv.done j hlow (by omega) hj
  · -- the entries of the round before are on diagonals of the other parity
    intro e he j hlow hhigh hj
    rw [hk j (by omega)]
    exact hv.prev e he j hlow hhigh hj
  · intro hd
    rw [hk 1 (by omega)]
    exact hv.first hd

/-- A whole round: either it fills in its row, and then no path with `d` edits reaches the
corner, or it stops because one does. -/
theorem round_spec [DecidableEq α] (hd : d ≤ maxD) (turns : Nat) :
    ∀ {k : Int} {v : List Int}, k + 2 * turns = d + 2 → -(d : Int) ≤ k → InRound a b maxD d k v →
      (∀ j : Int, -d ≤ j → j < k → ∀ X Y, Reach a b d X Y → (X : Int) - Y = j →
        ¬ (a.length ≤ X ∧ b.length ≤ Y)) →
      ∃ v' found, round a b maxD d turns k v = .ok (v', found) ∧ v'.length = 2 * maxD + 1 ∧
        (found = false → Row a b maxD d v' ∧ ¬ ReachCorner a b d) ∧
        (found = true → ReachCorner a b d) := by
  induction turns with
  | zero =>
    intro k v hk _ hv hnot
    refine ⟨v, false, rfl, hv.length, fun _ => ⟨?_, ?_⟩, by simp⟩
    · intro j hlow hhigh hj
      exact hv.done j hlow (by omega) hj
    · rintro ⟨X, Y, hr, hX, hY⟩
      have := hr.diagonal
      exact hnot ((X : Int) - Y) (by omega) (by omega) X Y hr rfl ⟨hX, hY⟩
  | succ turns ih =>
    intro k v hk hlow hv hnot
    obtain ⟨v', X, Y, he, hXY, hf, hl, hx, hkept⟩ := extend_spec hv hlow (by omega) (by omega) hd
    rw [round, he]
    by_cases hc : a.length ≤ X ∧ b.length ≤ Y
    · obtain ⟨X', Y', hX', hk', hr⟩ := hf.reach
      obtain rfl : X' = X := by omega
      obtain rfl : Y' = Y := by omega
      refine ⟨v', true, ?_, hl.trans hv.length, by simp, fun _ => ⟨_, _, hr, hc⟩⟩
      simp [bind, Except.bind, hc]
    · have hnot' : ∀ j : Int, -d ≤ j → j < k + 2 → ∀ X Y, Reach a b d X Y →
          (X : Int) - Y = j → ¬ (a.length ≤ X ∧ b.length ≤ Y) := by
        intro j hjl hjlt X₁ Y₁ hr hj ⟨hX₁, hY₁⟩
        rcases lt_or_ge j k with hjk | hjk
        · exact hnot j hjl hjk X₁ Y₁ hr hj ⟨hX₁, hY₁⟩
        · have hp := hr.diagonal
          have hjk' : (X₁ : Int) - Y₁ = k := by omega
          have hle := hf.le X₁ Y₁ hr hjk'
          exact hc ⟨by omega, by omega⟩
      obtain ⟨v'', found, hrounds, h⟩ :=
        ih (by omega) (by omega) (hv.next (by omega) hl hx hf hkept) hnot'
      refine ⟨v'', found, ?_, h⟩
      simpa [bind, Except.bind, hc] using hrounds

/-! ## The whole search -/

/-- The first number of edits with which the corner or a point past it can be reached reaches
the corner itself: clamping the end of the path would otherwise save an edit. -/
theorem Furthest.corner_of_first (hc : ReachCorner a b d) (hf : ∀ e < d, ¬ ReachCorner a b e) :
    Furthest a b d ((a.length : Int) - b.length) a.length := by
  -- any point at or past the corner that is reached is the corner
  have hpoint : ∀ X Y, Reach a b d X Y → a.length ≤ X → b.length ≤ Y → X = a.length ∧
      Y = b.length := by
    intro X Y hr hX hY
    obtain ⟨e, he, hr'⟩ := hr.clamp
    rw [Nat.min_eq_right hX, Nat.min_eq_right hY] at hr'
    rcases Nat.lt_or_ge e d with hlt | hge
    · exact absurd ⟨_, _, hr', le_rfl, le_rfl⟩ (hf e hlt)
    · omega
  obtain ⟨X, Y, hr, hX, hY⟩ := hc
  obtain ⟨rfl, rfl⟩ := hpoint X Y hr hX hY
  refine ⟨⟨_, _, rfl, rfl, hr⟩, ?_⟩
  intro X' Y' hr' hk'
  by_contra hgt
  obtain ⟨h, -⟩ := hpoint X' Y' hr' (by omega) (by omega)
  omega

/-- The rows of the rounds before `d` that a trace has kept. -/
def Rows (a b : List α) (maxD d : Nat) (tr : List (List Int)) : Prop :=
  ∀ e < d, ∃ v, tr[e]? = some v ∧ Row a b maxD e v

theorem Rows.snoc (h : Rows a b maxD d tr) (hl : tr.length = d) (hv : Row a b maxD d v) :
    Rows a b maxD (d + 1) (tr ++ [v]) := by
  intro e he
  rcases Nat.lt_or_ge e d with hlt | hge
  · obtain ⟨w, hw, hr⟩ := h e hlt
    exact ⟨w, by rw [List.getElem?_append_left (by omega)]; exact hw, hr⟩
  · obtain rfl : e = d := by omega
    refine ⟨v, ?_, hv⟩
    rw [← hl, List.getElem?_concat_length]

theorem Rows.append (v : List Int) (h : Rows a b maxD d tr) : Rows a b maxD d (tr ++ [v]) := by
  intro e he
  obtain ⟨w, hw, hr⟩ := h e he
  have hlt := (List.getElem?_eq_some_iff.mp hw).1
  exact ⟨w, by rw [List.getElem?_append_left hlt]; exact hw, hr⟩

/-- **The search finds the edit distance.** It is left in the first round `D` whose paths reach
the corner, with the rows of all earlier rounds in the trace. -/
theorem search_spec [DecidableEq α] (hm : maxD = a.length + b.length) (turns : Nat) :
    ∀ {d : Nat} {v : List Int} {tr : List (List Int)}, turns + d = maxD + 1 →
      InRound a b maxD d (-d) v → tr.length = d → Rows a b maxD d tr →
      (∀ e < d, ¬ ReachCorner a b e) →
      ∃ D tr', search a b maxD turns d v tr = .ok (D, tr') ∧
        Rows a b maxD D tr' ∧ (∀ e < D, ¬ ReachCorner a b e) ∧
        Furthest a b D ((a.length : Int) - b.length) a.length := by
  induction turns with
  | zero =>
    -- deleting all of `a` and inserting all of `b` reaches the corner within `maxD` edits
    intro d v tr hd _ _ _ hnot
    have hr : Reach a b (0 + a.length + b.length) (0 + a.length) (0 + b.length) :=
      (Reach.start.rights a.length).downs b.length
    exact absurd ⟨_, _, hr, by omega, by omega⟩ (hnot (0 + a.length + b.length) (by omega))
  | succ turns ih =>
    intro d v tr hd hv hl hrounds hnot
    obtain ⟨v', found, hrn, hl', hrw, hf⟩ :=
      round_spec (show d ≤ maxD by omega) (d + 1) (by omega) le_rfl hv
      (by omega)
    rw [search, hrn]
    cases found with
    | true =>
      exact ⟨d, tr ++ [v'], rfl, hrounds.append v', hnot, Furthest.corner_of_first (hf rfl) hnot⟩
    | false =>
      obtain ⟨hrw, hnone⟩ := hrw rfl
      have hv' : InRound a b maxD (d + 1) (-((d + 1 : Nat) : Int)) v' := ⟨hl', by omega, by
          intro e he
          obtain rfl : e = d := by omega
          exact hrw, by omega⟩
      have hnot' : ∀ e < d + 1, ¬ ReachCorner a b e := by
        intro e he
        rcases Nat.lt_or_ge e d with hlt | hge
        · exact hnot e hlt
        · obtain rfl : e = d := by omega
          exact hnone
      exact ih (by omega) hv' (by simp [hl]) (hrounds.snoc hl hrw) hnot'

/-! ## Backtracking

Read backwards, what has been collected so far is always an edit script of what is left of `a`
after `x` into what is left of `b` after `y`. -/

/-- The way back along a snake adds equal lines to the script. -/
theorem backSnake_spec {x y : Nat} (f : Nat) : ∀ {l : Nat} {script : List (DiffItem α)},
    l ≤ f → (∀ i < l, Matches a b (x + i) (y + i)) →
    EditScript (a.drop (x + l)) (b.drop (y + l)) script.reverse →
    ∃ script', backSnake a x (f + 1) (x + l : Nat) (y + l : Nat) script =
      .ok ((x : Int), (y : Int), script') ∧
      EditScript (a.drop x) (b.drop y) script'.reverse ∧
      editCount script' = editCount script := by
  induction f with
  | zero =>
    intro l script hl hm hs
    obtain rfl : l = 0 := by omega
    exact ⟨script, by rw [backSnake, if_neg (by omega)]; rfl, by simpa using hs, rfl⟩
  | succ f ih =>
    intro l script hl hm hs
    cases l with
    | zero => exact ⟨script, by rw [backSnake, if_neg (by omega)]; rfl, by simpa using hs, rfl⟩
    | succ l =>
      obtain ⟨c, ha, hb⟩ := hm l (by omega)
      have hs' : EditScript (a.drop (x + l)) (b.drop (y + l))
          (script ++ [DiffItem.mk .eq c]).reverse := by
        rw [drop_eq_cons ha, drop_eq_cons hb, reverse_append]
        exact hs.consEq c
      obtain ⟨script', hr, hscript, hc⟩ := ih (by omega) (fun i hi => hm i (by omega)) hs'
      refine ⟨script', ?_, hscript, by simpa using hc⟩
      rw [backSnake, if_pos (by omega),
        index_of_eq (show ((x + (l + 1) : Nat) : Int) - 1 = ((x + l : Nat) : Int) by omega) ha,
        show ((x + (l + 1) : Nat) : Int) - 1 = ((x + l : Nat) : Int) by omega,
        show ((y + (l + 1) : Nat) : Int) - 1 = ((y + l : Nat) : Int) by omega]
      exact hr

section BackStep

variable {t : α}
  {script script' : List (DiffItem α)}

theorem backStep_ins (htrace : index tr (d - 1) = .ok v)
    (hd : fromAbove v maxD d (x - y) = .ok true)
    (hp : index v (maxD + (x - y + 1)) = .ok p)
    (hs : backSnake a p (a.length + 1) x y script = .ok (x', y', script'))
    (ht : index b (y' - 1) = .ok t) :
    backStep a b maxD tr d x y script = .ok (x', y' - 1, script' ++ [⟨.ins, t⟩]) := by
  have hne : ¬ (x - y + 1 = x - y - 1) := by omega
  unfold backStep
  simp [htrace, hd, hp, hs, ht, hne, bind, Except.bind]

theorem backStep_del (htrace : index tr (d - 1) = .ok v)
    (hd : fromAbove v maxD d (x - y) = .ok false)
    (hp : index v (maxD + (x - y - 1)) = .ok p)
    (hs : backSnake a (p + 1) (a.length + 1) x y script = .ok (x', y', script'))
    (ht : index a (x' - 1) = .ok t) :
    backStep a b maxD tr d x y script = .ok (x' - 1, y', script' ++ [⟨.del, t⟩]) := by
  unfold backStep
  simp [htrace, hd, hp, hs, ht, bind, Except.bind]

end BackStep

/-- One turn of the backtracking loop goes from the furthest point of a diagonal in round
`d + 1` to the furthest point of the diagonal it was entered from in round `d`. -/
theorem backStep_spec [DecidableEq α]
    (hrows : Rows a b maxD (d + 1) tr) (hx : x ≤ a.length) (hy : y ≤ b.length)
    (hf : Furthest a b (d + 1) ((x : Int) - y) x)
      (hs : EditScript (a.drop x) (b.drop y) script.reverse) :
    ∃ (x' y' : Nat) (script' : List (DiffItem α)),
      backStep a b maxD tr (d + 1 : Nat) x y script = .ok ((x' : Int), (y' : Int), script') ∧
      x' ≤ a.length ∧ y' ≤ b.length ∧ Furthest a b d ((x' : Int) - y') x' ∧
      EditScript (a.drop x') (b.drop y') script'.reverse ∧
          editCount script' = editCount script + 1 := by
  obtain ⟨v, hv, hrw⟩ := hrows d (by omega)
  obtain ⟨X₀, Y₀, hX₀, hk₀, hr⟩ := hf.reach
  have hdiagonal := hr.diagonal
  obtain ⟨down, p, X, Y, hd, hp, he⟩ :=
    enter_spec (k := (x : Int) - y) hrw (by omega) (by omega) (by omega)
  -- the matches the search followed from the entry point end exactly at `(x, y)`
  obtain ⟨l, -, hm, hmaximal⟩ := slide_spec (a := a) (b := b) a.length X Y (by omega)
  have hend : (x : Int) = (X + l : Nat) := hf.unique (he.furthest_succ hm hmaximal)
  have hXY := he.diagonal
  obtain rfl : x = X + l := by omega
  obtain rfl : y = Y + l := by omega
  obtain ⟨script', hsnake, hscript, hc⟩ := backSnake_spec a.length (by omega) hm hs
  have htrace := index_of_eq (show ((d + 1 : Nat) : Int) - 1 = (d : Nat) by omega) hv
  obtain ⟨P, Q, rfl, hPQ, hreach⟩ := he.furthest.reach
  have hfP : Furthest a b d ((P : Int) - Q) P := hPQ ▸ he.furthest
  cases down with
  | true =>
    -- entered from above: undo an insertion
    obtain rfl : P = X := by simpa using he.abscissa.symm
    obtain rfl : Y = Q + 1 := by simp only [if_true] at hPQ; omega
    have hb : b[Q]? = some b[Q] := List.getElem?_eq_getElem (by omega)
    have hQ : ((Q + 1 : Nat) : Int) - 1 = Q := by omega
    refine ⟨P, Q, script' ++ [⟨.ins, b[Q]⟩], ?_, by omega, by omega, hfP, ?_, by simp [hc]⟩
    · rw [← hQ]
      exact backStep_ins htrace hd hp hsnake (index_of_eq hQ hb)
    · rw [drop_eq_cons hb, reverse_append]
      exact hscript.consIns b[Q]
  | false =>
    -- entered from below: undo a deletion
    obtain rfl : X = P + 1 := by have := he.abscissa; simp at this; omega
    obtain rfl : Y = Q := by simp only [Bool.false_eq_true, if_false] at hPQ; omega
    have ha : a[P]? = some a[P] := List.getElem?_eq_getElem (by omega)
    have hP : ((P + 1 : Nat) : Int) - 1 = P := by omega
    refine ⟨P, Y, script' ++ [⟨.del, a[P]⟩], ?_, by omega, by omega, hfP, ?_, by simp [hc]⟩
    · rw [← hP]
      exact backStep_del htrace hd hp hsnake (index_of_eq hP ha)
    · rw [drop_eq_cons ha, reverse_append]
      exact hscript.consDel a[P]

/-- The backtracking loop ends on the common head of the files, after one edit per round. -/
theorem backtrack_spec [DecidableEq α] (d : Nat) :
    ∀ {x y : Nat} {script : List (DiffItem α)}, Rows a b maxD d tr → x ≤ a.length →
      y ≤ b.length → Furthest a b d ((x : Int) - y) x →
      EditScript (a.drop x) (b.drop y) script.reverse →
      ∃ (x' : Nat) (script' : List (DiffItem α)),
        backtrack a b maxD tr d x y script = .ok ((x' : Int), (x' : Int), script') ∧
        x' ≤ a.length ∧ Furthest a b 0 0 x' ∧
        EditScript (a.drop x') (b.drop x') script'.reverse ∧
        editCount script' = editCount script + d := by
  induction d with
  | zero =>
    intro x y script _ hx _ hf hs
    obtain ⟨X, Y, hX, hk, hr⟩ := hf.reach
    have := hr.diagonal
    obtain rfl : y = x := by omega
    exact ⟨y, script, rfl, hx, by simpa using hf, hs, rfl⟩
  | succ d ih =>
    intro x y script hrounds hx hy hf hs
    obtain ⟨x₁, y₁, s, hstep, hx₁, hy₁, hf₁, hs₁, hc₁⟩ := backStep_spec hrounds hx hy hf hs
    obtain ⟨x', script', hrun, hx', hf', hs', hc⟩ :=
      ih (fun e he => hrounds e (by omega)) hx₁ hy₁ hf₁ hs₁
    refine ⟨x', script', ?_, hx', hf', hs', by omega⟩
    rw [backtrack, hstep]
    exact hrun

theorem matches_of_reach_zero (h : Reach a b 0 x y) : x = y ∧ ∀ i < x, Matches a b i i := by
  generalize hd : 0 = d at h
  induction h with
  | start => exact ⟨rfl, by omega⟩
  | right _ _ => omega
  | down _ _ => omega
  | @diag d x y _ hm ih =>
    obtain ⟨rfl, hall⟩ := ih hd
    refine ⟨rfl, ?_⟩
    intro i hi
    rcases Nat.lt_or_ge i x with hlt | hge
    · exact hall i hlt
    · obtain rfl : i = x := by omega
      exact hm

/-- On the main diagonal the last loop is that of a snake. -/
theorem backHead_eq (f : Nat) (x : Int) (script : List (DiffItem α)) :
    backHead a f x x script = (backSnake a 0 f x x script).map (·.2.2) := by
  induction f generalizing x script with
  | zero => rfl
  | succ f ih =>
    rw [backHead, backSnake]
    by_cases hx : x > 0
    · rw [if_pos ⟨hx, hx⟩, if_pos hx]
      cases index a (x - 1) with
      | error e => rfl
      | ok t => exact ih ..
    · rw [if_neg fun h => hx h.1, if_neg hx]
      rfl

/-! ## `Diff` -/

/-- What `Diff` computes: an edit script of `a` into `b`, with the least number of edits that
reaches the corner. -/
theorem diff_spec [DecidableEq α] (a b : List α) :
    ∃ script, diff a b = .ok script ∧ EditScript a b script ∧
      ∀ e < editCount script, ¬ ReachCorner a b e := by
  by_cases hempty : a.length + b.length = 0
  · have ha : a = [] := eq_nil_of_length_eq_zero (by omega)
    have hb : b = [] := eq_nil_of_length_eq_zero (by omega)
    subst ha hb
    exact ⟨[], rfl, .nil, by intro e he; simp [editCount] at he⟩
  · have hzero : InRound a b (a.length + b.length) 0 (-(0 : Nat))
        (List.replicate (2 * (a.length + b.length) + 1) 0) := by
      refine ⟨by simp, by omega, by omega, fun _ => ?_⟩
      refine index_of_eq (n := a.length + b.length + 1) (by push_cast; ring) ?_
      rw [List.getElem?_replicate, if_pos (by omega)]
    obtain ⟨D, tr, hsearch, hrounds, hfirst, hf⟩ := search_spec rfl
      (a.length + b.length + 1) (by omega) hzero (rfl : ([] : List (List Int)).length = 0)
      (by intro e he; omega) (by omega)
    have hn : EditScript (a.drop a.length) (b.drop b.length) ([] : List (DiffItem α)).reverse := by
      simpa using EditScript.nil
    obtain ⟨x, s, hbacktrack, hx, hf₀, hs₁, hc₁⟩ := backtrack_spec D hrounds le_rfl le_rfl hf hn
    obtain ⟨X, Y, hX, -, hr⟩ := hf₀.reach
    obtain ⟨-, hm⟩ := matches_of_reach_zero hr
    obtain rfl : X = x := by omega
    obtain ⟨script, hsnake, hs, hc⟩ :=
      @backSnake_spec _ a b 0 0 a.length X s hx (by simpa using hm) (by simpa using hs₁)
    have hh : backHead a (a.length + 1) X X s = .ok script := by
      rw [Nat.zero_add] at hsnake
      rw [backHead_eq, ← Nat.cast_zero, hsnake]
      rfl
    refine ⟨script.reverse, ?_, hs, ?_⟩
    · simp only [diff, if_neg hempty, hsearch, hbacktrack, hh, bind, Except.bind]
    · intro e he
      refine hfirst e ?_
      simp only [editCount_reverse, hc, hc₁] at he
      simpa [editCount] using he

/-- **`Diff` is correct.** It returns (so no index it uses is out of range), its `Equal` and
`Delete` texts are exactly `a`, and its `Equal` and `Insert` texts are exactly `b`. -/
theorem diff_editScript [DecidableEq α] (a b : List α) :
    ∃ script, diff a b = .ok script ∧ Plain script ∧ oldSide script = a ∧ newSide script = b := by
  obtain ⟨script, hd, hs, -⟩ := diff_spec a b
  exact ⟨script, hd, hs.plain, hs.old, hs.new⟩

theorem equalTexts_sublist_oldSide (script : List (DiffItem α)) :
    (equalTexts script).Sublist (oldSide script) := by
  apply List.Sublist.map
  apply monotone_filter_right
  intro i hi
  exact decide_eq_true (.inl (of_decide_eq_true hi))

theorem equalTexts_sublist_newSide (script : List (DiffItem α)) :
    (equalTexts script).Sublist (newSide script) := by
  apply List.Sublist.map
  apply monotone_filter_right
  intro i hi
  exact decide_eq_true (.inl (of_decide_eq_true hi))

theorem EditScript.editCount_add (h : EditScript a b script) :
    editCount script + 2 * (equalTexts script).length = a.length + b.length := by
  rw [← h.old, ← h.new]
  have hp := h.plain
  clear h
  induction script with
  | nil => rfl
  | cons i script ih =>
    have hi := hp i mem_cons_self
    have ih' := ih (fun j hj => hp j (mem_cons_of_mem _ hj))
    simp only [editCount, equalTexts, oldSide, newSide, length_map, Bool.decide_or] at ih' ⊢
    rcases hi with hi | hi | hi <;> simp [hi] <;> omega

/-- **`Diff` is optimal.** No edit script of `a` into `b` has fewer edits, and the `Equal` texts
are a longest common subsequence. -/
theorem diff_shortest [DecidableEq α] (a b : List α) :
    ∃ script, diff a b = .ok script ∧ EditScript a b script ∧
      (∀ other, EditScript a b other → editCount script ≤ editCount other) ∧
      (equalTexts script).Sublist a ∧ (equalTexts script).Sublist b ∧
      ∀ l : List α, l.Sublist a → l.Sublist b → l.length ≤ (equalTexts script).length := by
  obtain ⟨script, hdiff, hs, hl⟩ := diff_spec a b
  have hsublist : (equalTexts script).Sublist a := hs.old ▸ equalTexts_sublist_oldSide script
  have hsb : (equalTexts script).Sublist b := hs.new ▸ equalTexts_sublist_newSide script
  -- a common subsequence is a path to the corner, so it leaves at least `editCount script` edits
  have hlc : ∀ l : List α, l.Sublist a → l.Sublist b → editCount script + 2 * l.length ≤ a.length +
      b.length := by
    intro l hla hlb
    obtain ⟨d, hd, hr⟩ := Reach.of_common_sublist hla hlb
    have hle : ¬ d < editCount script := fun hlt => hl d hlt ⟨_, _, hr, le_rfl, le_rfl⟩
    omega
  have hc := hs.editCount_add
  refine ⟨script, hdiff, hs, ?_, hsublist, hsb, ?_⟩
  · intro other ho
    have hother := ho.editCount_add
    have := hlc (equalTexts other) (ho.old ▸ equalTexts_sublist_oldSide other)
      (ho.new ▸ equalTexts_sublist_newSide other)
    omega
  · intro l hla hlb
    have := hlc l hla hlb
    omega

end GoPosix.Diff
