import Mathlib.Algebra.Order.BigOperators.Group.Finset
import GoPosix.Daemon.Request
import GoPosix.Lib.Runs

/-!
# Batches

`handleBatch` hands every request of a batch to the pool, waits for all of them, and writes the
answers as one array. All connections share the slots of the pool; a request holds one from `Submit`
until its worker is done.

A state says where `handleBatch` is (`Pc`), where the worker of each request is (`Stage`) and how
many slots other connections hold. A step is one action of one of these. What is written is right in
every run (`Inv.delivered`). If every worker goes on, and whoever waits for a slot gets one when
slots become free again and again, then `handleBatch` returns (`returns_of_fair`).
-/

namespace GoPosix.Daemon

open Bytes List Function

/-! ## The system -/

/-- Where a request is: not submitted, in `processRequest`, with its result in place, after
`wg.Done`, and with its slot given back. -/
inductive Stage where
  | waiting
  | running
  | stored
  | signalled
  | released
  deriving DecidableEq, Repr

open Stage

/-- Whether the request holds a slot of the pool. -/
def Stage.slot : Stage → ℕ
  | .waiting | .released => 0
  | .running | .stored | .signalled => 1

/-- Whether the wait group still counts a request that was submitted. -/
def Stage.pending : Stage → ℕ
  | .waiting | .signalled | .released => 0
  | .running | .stored => 1

def Stage.rank : Stage → ℕ
  | .waiting => 4
  | .running => 3
  | .stored => 2
  | .signalled => 1
  | .released => 0

/-- Where `handleBatch` is: about to take up request `i`, in `Submit` with request `i`, in
`wg.Wait`, or done. -/
inductive Pc where
  | next (i : ℕ)
  | submit (i : ℕ)
  | wait
  | returned
  deriving DecidableEq, Repr

structure Batch where
  others : ℕ
  stage : ℕ → Stage
  results : ℕ → Option Response
  wg : ℕ
  pc : Pc
  written : List (List Response)

def weigh (g : Stage → ℕ) (stage : ℕ → Stage) (n : ℕ) : ℕ := ∑ i ∈ Finset.range n, g (stage i)

/-- The number of slots that are taken, in a batch of `n` requests. -/
def Batch.taken (s : Batch) (n : ℕ) : ℕ := s.others + weigh slot s.stage n

def Batch.final (s : Batch) (n : ℕ) : List Response := (List.range n).filterMap s.results

/-- `if res != nil { results[idx] = res }`. -/
def store (results : ℕ → Option Response) (i : ℕ) : Option Response → ℕ → Option Response
  | none => results
  | some res => update results i (some res)

section

variable {W : Type} (host : Host W) (reqs : List Request) (size : ℕ)

structure Batch.Start (s : Batch) : Prop where
  others : s.others ≤ size
  stage : s.stage = fun _ => .waiting
  results : s.results = fun _ => none
  wg : s.wg = 0
  pc : s.pc = .next 0
  written : s.written = []

/-- One action. A request is processed in whatever state the world is in by then, which is a matter
of the host. -/
inductive Batch.Step : Batch → Batch → Prop
  /-- `wg.Add(1)`. -/
  | add {s i} : s.pc = .next i → i < reqs.length →
      Step s { s with wg := s.wg + 1, pc := .submit i }
  /-- `wp.sem <- struct{}{}` and `go`. -/
  | submit {s i} : s.pc = .submit i → s.taken reqs.length < size →
      Step s { s with stage := update s.stage i .running, pc := .next (i + 1) }
  | loopEnd {s i} : s.pc = .next i → reqs.length ≤ i → Step s { s with pc := .wait }
  | process {s i req} (w : W) : s.stage i = .running → reqs[i]? = some req →
      Step s { s with stage := update s.stage i .stored
                      results := store s.results i (processRequest host req w).1 }
  /-- The deferred `wg.Done()`. -/
  | done {s i} : i < reqs.length → s.stage i = .stored →
      Step s { s with stage := update s.stage i .signalled, wg := s.wg - 1 }
  /-- The deferred `<-wp.sem`. -/
  | release {s i} : i < reqs.length → s.stage i = .signalled →
      Step s { s with stage := update s.stage i .released }
  /-- `wg.Wait()` returns; the array is written if there is something to write. -/
  | wake {s} : s.pc = .wait → s.wg = 0 →
      Step s { s with pc := .returned
                      written := if (s.final reqs.length).length > 0
                        then s.written ++ [s.final reqs.length] else s.written }
  /-- Another connection submits a request. -/
  | acquire {s} : s.taken reqs.length < size → Step s { s with others := s.others + 1 }
  /-- A request of another connection gives its slot back. -/
  | free {s} : 0 < s.others → Step s { s with others := s.others - 1 }

/-! ## What is written -/

/-- The response answers the request, as `processRequest` does in some state of the world. -/
def Request.AnsweredBy (req : Request) (res : Response) : Prop :=
  res.id = req.id ∧ ∃ w, (processRequest host req w).1 = some res

/-- Nothing for a batch of notifications; otherwise one array, with one response for each request
that has an id, in their order. -/
def Delivered (written : List (List Response)) : Prop :=
  if ∀ req ∈ reqs, req.id = none then written = []
  else ∃ array, written = [array] ∧
    List.Forall₂ (Request.AnsweredBy host) (reqs.filter (·.id.isSome)) array

end

/-! ## Weights -/

section

variable {n i : ℕ}

theorem weigh_update (g : Stage → ℕ) (stage : ℕ → Stage) (hi : i < n) (st : Stage) :
    weigh g (update stage i st) n + g (stage i) = weigh g stage n + g st := by
  have hm : i ∈ Finset.range n := Finset.mem_range.mpr hi
  have hr : ∑ j ∈ (Finset.range n).erase i, g (update stage i st j) =
      ∑ j ∈ (Finset.range n).erase i, g (stage j) := by
    apply Finset.sum_congr rfl
    intro j hj
    rw [update_of_ne (Finset.ne_of_mem_erase hj)]
  unfold weigh
  rw [← Finset.add_sum_erase _ _ hm, ← Finset.add_sum_erase _ (fun j => g (stage j)) hm,
    update_self]
  omega

theorem weigh_eq_zero : weigh g stage n = 0 ↔ ∀ i < n, g (stage i) = 0 := by
  simp [weigh]

end

/-! ## The invariant -/

/-- The first request that was not submitted. -/
def Pc.pos (n : ℕ) : Pc → ℕ
  | .next i | .submit i => i
  | .wait | .returned => n

/-- Whether the wait group counts a request that is not submitted yet. -/
def Pc.adding : Pc → ℕ
  | .submit _ => 1
  | .next _ | .wait | .returned => 0

/-- What is in the place of a request in `results`. -/
def Filled {W : Type} (host : Host W) (req : Request) (res : Option Response) : Stage → Prop
  | .waiting | .running => res = none
  | .stored | .signalled | .released => ∃ w, (processRequest host req w).1 = res

section

variable {W : Type} {host : Host W} {reqs : List Request} {size : ℕ} {s s' : Batch}

structure Batch.Inv (host : Host W) (reqs : List Request) (size : ℕ) (s : Batch) : Prop where
  wg : s.wg = weigh pending s.stage reqs.length + s.pc.adding
  taken : s.taken reqs.length ≤ size
  pos : s.pc.pos reqs.length + s.pc.adding ≤ reqs.length
  waiting : ∀ i < reqs.length, s.stage i = .waiting ↔ s.pc.pos reqs.length ≤ i
  filled : ∀ i req, reqs[i]? = some req → Filled host req (s.results i) (s.stage i)
  quiet : s.pc ≠ .returned → s.written = []
  ended : s.pc = .returned → s.wg = 0 ∧ s.written =
    if (s.final reqs.length).length > 0 then [s.final reqs.length] else []

theorem Batch.Start.inv (h : s.Start size) : s.Inv host reqs size where
  wg := by simp [h.wg, h.stage, h.pc, weigh, pending, Pc.adding]
  taken := by simpa [Batch.taken, h.stage, weigh, slot] using h.others
  pos := by simp [h.pc, Pc.pos, Pc.adding]
  waiting := by simp [h.stage, h.pc, Pc.pos]
  filled := by simp [h.stage, h.results, Filled]
  quiet := fun _ => h.written
  ended := by simp [h.pc]

theorem Batch.Inv.wg_pos (h : s.Inv host reqs size) (hi : i < reqs.length)
    (hp : (s.stage i).pending ≠ 0) : 0 < s.wg := by
  apply Nat.pos_of_ne_zero
  intro hzero
  have hs : weigh pending s.stage reqs.length = 0 := (Nat.eq_zero_of_add_eq_zero (h.wg ▸ hzero)).1
  exact hp (weigh_eq_zero.mp hs i hi)

theorem Batch.Inv.submitting (h : s.Inv host reqs size) (hpc : s.pc = .submit i) :
    i < reqs.length ∧ s.stage i = .waiting := by
  have hp := h.pos
  have hw := h.waiting
  rw [hpc] at hp hw
  exact ⟨hp, (hw i hp).mpr (Nat.le_refl i)⟩

/-- A worker goes on. Nothing else moves, and if the wait group counts the stage, `handleBatch` has
not returned. -/
theorem Batch.Inv.move {i : ℕ} {st : Stage} {results : ℕ → Option Response} {wg : ℕ}
    (h : s.Inv host reqs size) (hi : i < reqs.length) (hold : s.stage i ≠ .waiting)
    (hn : st ≠ .waiting) (hslot : st.slot ≤ (s.stage i).slot)
    (hwg : wg + (s.stage i).pending = s.wg + st.pending)
    (ho : ∀ j, j ≠ i → results j = s.results j)
    (hf : ∀ req, reqs[i]? = some req → Filled host req (results i) st)
    (he : s.wg = 0 → wg = 0 ∧ results = s.results) :
    Inv host reqs size { s with stage := update s.stage i st, results, wg } := by
  have hp := weigh_update pending s.stage hi st
  have hs := weigh_update slot s.stage hi st
  constructor
  · have := h.wg
    dsimp only
    omega
  · have := h.taken
    simp only [Batch.taken] at this ⊢
    omega
  · exact h.pos
  · intro j hj
    by_cases hij : j = i
    · subst hij
      simp only [update_self, hn, false_iff]
      exact fun hle => hold ((h.waiting j hj).mpr hle)
    · simpa only [update_of_ne hij] using h.waiting j hj
  · intro j req hr
    by_cases hij : j = i
    · subst hij
      simpa only [update_self] using hf req hr
    · simpa only [update_of_ne hij, ho j hij] using h.filled j req hr
  · exact h.quiet
  · intro hpc
    obtain ⟨hzero, hw⟩ := h.ended hpc
    obtain ⟨hwg', rfl⟩ := he hzero
    exact ⟨hwg', hw⟩

/-- **Every action keeps the invariant.** -/
theorem Batch.Inv.step (h : s.Inv host reqs size) (hs : s.Step host reqs size s') :
    s'.Inv host reqs size := by
  cases hs with
  | @add i hpc hi =>
    obtain ⟨hwg, ht, -, hw, hf, hq, -⟩ := h
    rw [hpc] at hwg hw
    exact ⟨by rw [hwg]; rfl, ht, hi, hw, hf, fun _ => hq (by simp [hpc]), nofun⟩
  | @submit i hpc hr =>
    obtain ⟨hi, hstage⟩ := h.submitting hpc
    obtain ⟨hwg, -, -, hw, hf, hq, -⟩ := h
    have hp := weigh_update pending s.stage hi .running
    have hslot := weigh_update slot s.stage hi .running
    rw [hpc] at hwg hw
    rw [hstage] at hp hslot
    simp only [slot] at hp hslot
    refine ⟨by rw [hwg]; exact hp.symm, ?_, hi, ?_, ?_, fun _ => hq (by simp [hpc]), nofun⟩
    · simp only [Batch.taken] at hr ⊢
      omega
    · intro j hj
      by_cases hij : j = i
      · subst hij
        simp [Pc.pos]
      · simp only [update_of_ne hij, hw j hj, Pc.pos]
        omega
    · intro j req hreq
      have he := hf j req hreq
      by_cases hij : j = i
      · subst hij
        rw [hstage] at he
        show Filled host req (s.results j) (update s.stage j .running j)
        rw [update_self]
        exact he
      · simpa only [update_of_ne hij] using he
  | @loopEnd i hpc hi =>
    obtain ⟨hwg, ht, hpos, hw, hf, hq, -⟩ := h
    rw [hpc] at hpos hwg hw
    obtain rfl : i = reqs.length := Nat.le_antisymm hpos hi
    exact ⟨hwg, ht, Nat.le_refl _, hw, hf, fun _ => hq (by simp [hpc]), nofun⟩
  | @process i req w hstage hreq =>
    have hi : i < reqs.length := (List.getElem?_eq_some_iff.mp hreq).1
    have he := h.filled i req hreq
    rw [hstage] at he
    apply h.move hi (by simp [hstage]) (by simp) (by simp [hstage, slot])
    · rw [hstage]
      rfl
    · intro j hij
      cases (processRequest host req w).1 with
      | none => rfl
      | some res => exact update_of_ne hij ..
    · intro req' hreq'
      obtain rfl : req = req' := Option.some.inj (hreq.symm.trans hreq')
      refine ⟨w, ?_⟩
      cases (processRequest host req w).1 with
      | none => exact he.symm
      | some res => exact (update_self (β := fun _ => Option Response) ..).symm
    · have hpos := h.wg_pos hi (by simp [hstage, pending])
      omega
  | @done i hi hstage =>
    have hpos := h.wg_pos hi (by simp [hstage, pending])
    apply h.move hi (by simp [hstage]) (by simp) (by simp [hstage, slot])
    · rw [hstage]
      show s.wg - 1 + 1 = s.wg + 0
      omega
    · exact fun _ _ => rfl
    · intro req hreq
      have := h.filled i req hreq
      rwa [hstage] at this
    · omega
  | @release i hi hstage =>
    apply h.move hi (by simp [hstage]) (by simp) (by simp [slot])
    · rw [hstage]
      rfl
    · exact fun _ _ => rfl
    · intro req hreq
      have := h.filled i req hreq
      rwa [hstage] at this
    · exact fun hzero => ⟨hzero, rfl⟩
  | wake hpc hzero =>
    have hwg := h.wg
    have hw := h.waiting
    rw [hpc] at hwg hw
    refine ⟨hwg, h.taken, Nat.le_refl _, hw, h.filled, fun hreturned =>
        absurd rfl hreturned, fun _ =>
      ⟨hzero, ?_⟩⟩
    rw [h.quiet (by simp [hpc])]
    rfl
  | acquire hr =>
    refine ⟨h.wg, ?_, h.pos, h.waiting, h.filled, h.quiet, h.ended⟩
    simp only [Batch.taken] at hr ⊢
    omega
  | free hpos =>
    refine ⟨h.wg, ?_, h.pos, h.waiting, h.filled, h.quiet, h.ended⟩
    have := h.taken
    simp only [Batch.taken] at this ⊢
    omega

/-! ## What is written, and when -/

theorem answered_of_processed
    (h : List.Forall₂ (fun r res => ∃ w, (processRequest host r w).1 = res) reqs rs) :
    List.Forall₂ (Request.AnsweredBy host) (reqs.filter (·.id.isSome)) (rs.filterMap id) := by
  induction h with
  | nil => exact List.Forall₂.nil
  | @cons r res reqs rs hres _ ih =>
    obtain ⟨w, rfl⟩ := hres
    have hanswers := processRequest_answers host r w
    unfold Request.Answer at hanswers
    cases hid : r.id with
    | none =>
      rw [hid] at hanswers
      have hn : (processRequest host r w).1 = none := Option.map_eq_none_iff.mp hanswers
      rw [filter_cons_of_neg (by simp [hid]), hn]
      exact ih
    | some i =>
      rw [hid] at hanswers
      obtain ⟨res, hs, hr⟩ := Option.map_eq_some_iff.mp hanswers
      rw [filter_cons_of_pos (by simp [hid]), hs]
      exact List.Forall₂.cons ⟨hr.trans hid.symm, w, hs⟩ ih

/-- What has been collected answers the requests that have an id, in their order. -/
theorem Batch.Inv.answered (h : s.Inv host reqs size) (hr : s.pc = .returned) :
    List.Forall₂ (Request.AnsweredBy host) (reqs.filter (·.id.isSome)) (s.final reqs.length) := by
  have hplaces : List.Forall₂ (fun r res => ∃ w, (processRequest host r w).1 = res) reqs
      ((List.range reqs.length).map s.results) := by
    apply forall₂_iff_get.mpr
    refine ⟨by simp, ?_⟩
    intro i hi hi'
    have hf := h.filled i _ (List.getElem?_eq_getElem hi)
    have hwaiting : s.stage i ≠ .waiting := by
      intro hw
      have hle := (h.waiting i hi).mp hw
      rw [hr] at hle
      exact absurd hi (Nat.not_lt.mpr hle)
    have hp : (s.stage i).pending = 0 := by
      by_contra hne
      exact absurd (h.ended hr).1 (Nat.pos_iff_ne_zero.mp (h.wg_pos hi hne))
    cases hs : s.stage i with
    | waiting => exact absurd hs hwaiting
    | running => simp [hs, pending] at hp
    | stored => simp [hs, pending] at hp
    | signalled => simpa [hs, Filled] using hf
    | released => simpa [hs, Filled] using hf
  have hfilter := answered_of_processed hplaces
  rwa [filterMap_map] at hfilter

/-- **What is written when `handleBatch` has returned.** -/
theorem Batch.Inv.delivered (h : s.Inv host reqs size) (hreturned : s.pc = .returned) :
    Delivered host reqs s.written := by
  have hanswered := h.answered hreturned
  have hw := (h.ended hreturned).2
  unfold Delivered
  split_ifs with hn
  · have hf : reqs.filter (·.id.isSome) = [] := by
      apply filter_eq_nil_iff.mpr
      intro r hr
      simp [hn r hr]
    rw [hf, forall₂_nil_left_iff] at hanswered
    rw [hw, hanswered]
    rfl
  · have hl : 0 < (s.final reqs.length).length := by
      rw [← hanswered.length_eq, length_pos_iff]
      intro hf
      apply hn
      intro r hr
      simpa using filter_eq_nil_iff.mp hf r hr
    rw [if_pos hl] at hw
    exact ⟨_, hw, hanswered⟩

/-! ## Progress -/

def Pc.rank (n : ℕ) : Pc → ℕ
  | .next i => 2 * (n - i) + 2
  | .submit i => 2 * (n - i) + 1
  | .wait => 1
  | .returned => 0

def Batch.rank (n : ℕ) (s : Batch) : ℕ := weigh Stage.rank s.stage n + s.pc.rank n

/-- Every step either belongs to the batch and brings it forward, or it is one of the others. -/
theorem Batch.Step.rank (h : s.Inv host reqs size) (hs : s.Step host reqs size s') :
    s'.rank reqs.length < s.rank reqs.length ∨
      s'.rank reqs.length = s.rank reqs.length ∧ (s'.stage, s'.pc) = (s.stage, s.pc) := by
  have hmove : ∀ {i st} (_ : i < reqs.length), st.rank < (s.stage i).rank →
      weigh Stage.rank (update s.stage i st) reqs.length <
          weigh Stage.rank s.stage reqs.length := by
    intro i st hi hlt
    have := weigh_update Stage.rank s.stage hi st
    omega
  cases hs with
  | @add i hpc hi =>
    simp only [Batch.rank, hpc, Pc.rank]
    omega
  | @submit i hpc hroom =>
    obtain ⟨hi, hstage⟩ := h.submitting hpc
    have hlt := @hmove i .running hi (by rw [hstage]; decide)
    simp only [Batch.rank, hpc, Pc.rank]
    omega
  | loopEnd hpc hi =>
    simp only [Batch.rank, hpc, Pc.rank]
    omega
  | @process i r w hstage hreq =>
    left
    have hi : i < reqs.length := (List.getElem?_eq_some_iff.mp hreq).1
    exact Nat.add_lt_add_right (hmove hi (by rw [hstage]; decide)) _
  | done hi hstage =>
    left
    exact Nat.add_lt_add_right (hmove hi (by rw [hstage]; decide)) _
  | release hi hstage =>
    left
    exact Nat.add_lt_add_right (hmove hi (by rw [hstage]; decide)) _
  | wake hpc hzero =>
    simp only [Batch.rank, hpc, Pc.rank]
    omega
  | acquire hroom => exact .inr ⟨rfl, rfl⟩
  | free hpos => exact .inr ⟨rfl, rfl⟩

/-- **What the surroundings promise.** Every command returns, every worker goes on, and
`handleBatch` where nothing keeps it; and a free slot is not always given to somebody else. -/
structure Fair (n size : ℕ) (f : ℕ → Batch) : Prop where
  worker : ∀ m, ∀ i < n, ((f m).stage i).slot = 1 → ∃ k, m ≤ k ∧ (f k).stage i ≠ (f m).stage i
  other : ∀ m, 0 < (f m).others → ∃ k, m ≤ k ∧ (f (k + 1)).others < (f k).others
  main : ∀ m, ((∃ i, (f m).pc = .next i) ∨ (f m).pc = .wait ∧ (f m).wg = 0) →
    ∃ k, m ≤ k ∧ (f k).pc ≠ (f m).pc
  submit : ∀ m i, (f m).pc = .submit i → (∀ k, m ≤ k → ∃ l, k ≤ l ∧ (f l).taken n < size) →
    ∃ k, m ≤ k ∧ (f k).pc ≠ (f m).pc

variable {f : ℕ → Batch} (h : Runs.IsRun (Batch.Start size) (Batch.Step host reqs size) f)

include h

theorem inv_run (n : ℕ) : (f n).Inv host reqs size :=
  h.invariant (fun _ hs => hs.inv) (fun _ _ hi hs => hi.step hs) n

theorem rank_run :
    Runs.IsRun (fun s => s.Inv host reqs size)
      (fun s s' => s.Inv host reqs size ∧ s.Step host reqs size s') f :=
  ⟨inv_run h 0, fun n => (h.next n).imp_left fun hs => ⟨inv_run h n, hs⟩⟩

theorem rank_lt_of_ne (hnm : n ≤ m) (hne : ((f m).stage, (f m).pc) ≠ ((f n).stage, (f n).pc)) :
    (f m).rank reqs.length < (f n).rank reqs.length := by
  have hstep := fun (s s' : Batch) (hs : s.Inv host reqs size ∧ s.Step host reqs size s') =>
    hs.2.rank hs.1
  have hle : (f m).rank reqs.length ≤ (f n).rank reqs.length := by
    apply (rank_run h).le_of_le _ hnm
    intro s s' hs
    rcases hstep s s' hs with hlt | ⟨heq, -⟩
    · exact Nat.le_of_lt hlt
    · exact Nat.le_of_eq heq
  rcases Nat.lt_or_eq_of_le hle with hlt | heq
  · exact hlt
  · exact absurd ((rank_run h).eq_of_rank_eq (fun s => (s.stage, s.pc)) hstep hnm heq) hne

/-- In `Submit` with no other request of the batch on the way, a slot is free again and again. -/
theorem room_again (hs : 0 < size) (hf : Fair reqs.length size f)
    (hi : ∀ k, n ≤ k → weigh slot (f k).stage reqs.length = 0) :
    ∀ k, n ≤ k → ∃ l, k ≤ l ∧ (f l).taken reqs.length < size := by
  intro k hk
  by_cases hzero : (f k).others = 0
  · refine ⟨k, Nat.le_refl k, ?_⟩
    rw [Batch.taken, hzero, hi k hk]
    exact hs
  · obtain ⟨l, hlater, hlt⟩ := hf.other k (Nat.pos_of_ne_zero hzero)
    refine ⟨l + 1, by omega, ?_⟩
    have ht := (inv_run h l).taken
    rw [Batch.taken] at ht
    rw [Batch.taken, hi (l + 1) (by omega)]
    omega

/-- **`handleBatch` returns.** -/
theorem returns_of_fair (hsize : 0 < size) (hf : Fair reqs.length size f) :
    ∃ n, (f n).pc = .returned := by
  apply Runs.eventually_of_rank (fun s : Batch => s.pc = .returned) (Batch.rank reqs.length)
  intro n hreturned
  by_cases hb : ∃ i < reqs.length, ((f n).stage i).slot = 1
  · obtain ⟨i, hi, hslot⟩ := hb
    obtain ⟨k, hlater, hne⟩ := hf.worker n i hi hslot
    exact ⟨k, hlater, rank_lt_of_ne h hlater fun heq => hne (congrFun (Prod.mk.inj heq).1 i)⟩
  have hid : ∀ i < reqs.length, ((f n).stage i).slot = 0 := by
    intro i hi
    cases hs : (f n).stage i with
    | waiting => rfl
    | released => rfl
    | running => exact absurd ⟨i, hi, by rw [hs]; rfl⟩ hb
    | stored => exact absurd ⟨i, hi, by rw [hs]; rfl⟩ hb
    | signalled => exact absurd ⟨i, hi, by rw [hs]; rfl⟩ hb
  have hc : (∃ k, n ≤ k ∧ (f k).pc ≠ (f n).pc) → ∃ k, n ≤ k ∧
      (f k).rank reqs.length < (f n).rank reqs.length := by
    rintro ⟨k, hlater, hne⟩
    exact ⟨k, hlater, rank_lt_of_ne h hlater fun heq => hne (Prod.mk.inj heq).2⟩
  cases hpc : (f n).pc with
  | next i => exact hc (hf.main n (.inl ⟨i, hpc⟩))
  | returned => exact absurd hpc hreturned
  | wait =>
    have hzero : (f n).wg = 0 := by
      rw [(inv_run h n).wg, hpc]
      apply weigh_eq_zero.mpr
      intro i hi
      have := hid i hi
      cases hs : (f n).stage i <;> simp_all [slot, pending]
    exact hc (hf.main n (.inr ⟨hpc, hzero⟩))
  | submit i =>
    -- Either the batch changes some day, or it is idle forever and then a slot is found.
    by_contra hn
    have hsame : ∀ k, n ≤ k → ((f k).stage, (f k).pc) = ((f n).stage, (f n).pc) := by
      intro k hlater
      by_contra hne
      exact hn ⟨k, hlater, rank_lt_of_ne h hlater hne⟩
    have hr := room_again h hsize hf fun k hlater => by
      rw [(Prod.mk.inj (hsame k hlater)).1]
      exact weigh_eq_zero.mpr hid
    obtain ⟨k, hlater, hne⟩ := hf.submit n i hpc hr
    exact hne (Prod.mk.inj (hsame k hlater)).2

end

/-- **Every batch is answered as it should be**, in whatever order it is run: nothing is written
before `handleBatch` returns, what is written then is right, and it does return in a fair run. -/
theorem handleBatch_delivers {W : Type} (host : Host W) (reqs : List Request) {size : ℕ}
    (hsize : 0 < size) {f : ℕ → Batch}
    (h : Runs.IsRun (Batch.Start size) (Batch.Step host reqs size) f) :
    (∀ n, ((f n).pc ≠ .returned → (f n).written = []) ∧
      ((f n).pc = .returned → Delivered host reqs (f n).written)) ∧
    (Fair reqs.length size f → ∃ n, (f n).pc = .returned) :=
  ⟨fun n => ⟨(inv_run h n).quiet, (inv_run h n).delivered⟩, returns_of_fair h hsize⟩

/-! ## Three requests in two slots

A notification stands between two requests. It is the first to be processed, and the third request
waits for its slot. -/

def pingRequest (id : Option Json) : Request := ⟨str "2.0", str "goposix.ping", none, id⟩

def pings : List Request :=
  [pingRequest (some (.num 1)), pingRequest none, pingRequest (some (.num 2))]

/-- The actions of the goroutines of this batch. -/
inductive Action where
  | add
  | submit
  | loopEnd
  | process (i : Fin 3)
  | done (i : Fin 3)
  | release (i : Fin 3)
  | wake

def Action.Ready (s : Batch) : Action → Prop
  | .add => s.pc = .next (s.pc.pos 3) ∧ s.pc.pos 3 < 3
  | .submit => s.pc = .submit (s.pc.pos 3) ∧ s.taken 3 < 2
  | .loopEnd => s.pc = .next (s.pc.pos 3) ∧ 3 ≤ s.pc.pos 3
  | .process i => s.stage i = .running
  | .done i => s.stage i = .stored
  | .release i => s.stage i = .signalled
  | .wake => s.pc = .wait ∧ s.wg = 0

instance (s : Batch) (a : Action) : Decidable (a.Ready s) := by
  cases a <;> unfold Action.Ready <;> infer_instance

def Action.act (s : Batch) : Action → Batch
  | .add => { s with wg := s.wg + 1, pc := .submit (s.pc.pos 3) }
  | .submit =>
    { s with stage := update s.stage (s.pc.pos 3) .running, pc := .next (s.pc.pos 3 + 1) }
  | .loopEnd => { s with pc := .wait }
  | .process i =>
    { s with stage := update s.stage i .stored
             results := store s.results i (processRequest idleHost (pings.get i) ()).1 }
  | .done i => { s with stage := update s.stage i .signalled, wg := s.wg - 1 }
  | .release i => { s with stage := update s.stage i .released }
  | .wake =>
    { s with pc := .returned
             written := if (s.final 3).length > 0
               then s.written ++ [s.final 3] else s.written }

theorem Action.step {s : Batch} {a : Action} (h : a.Ready s) :
    s.Step idleHost pings 2 (a.act s) := by
  cases a with
  | add => exact .add h.1 h.2
  | submit => exact .submit h.1 h.2
  | loopEnd => exact .loopEnd h.1 h.2
  | process i => exact .process () h (List.getElem?_eq_getElem i.isLt)
  | done i => exact .done i.isLt h
  | release i => exact .release i.isLt h
  | wake => exact .wake h.1 h.2

def pingActions : List Action :=
  [.add, .submit, .add, .submit, .add, .process 1, .done 1, .release 1, .submit, .process 2,
    .loopEnd,
    .process 0, .done 0, .done 2, .wake, .release 2, .release 0]

def pingRun : ℕ → Batch
  | 0 => ⟨0, fun _ => .waiting, fun _ => none, 0, .next 0, []⟩
  | n + 1 =>
    match pingActions[n]? with
    | some a => a.act (pingRun n)
    | none => pingRun n

theorem pingRun_ready : ∀ n < 17, ∀ a ∈ pingActions[n]?, a.Ready (pingRun n) := by decide +kernel

theorem pingRun_isRun : Runs.IsRun (Batch.Start 2) (Batch.Step idleHost pings 2) pingRun where
  start := ⟨Nat.zero_le _, rfl, rfl, rfl, rfl, rfl⟩
  next := by
    intro n
    rw [pingRun]
    cases ha : pingActions[n]? with
    | none => exact .inr rfl
    | some a =>
      obtain ⟨hlt, -⟩ := List.getElem?_eq_some_iff.mp ha
      exact .inl (Action.step (pingRun_ready n hlt a ha))

/-- From then on nothing moves. -/
theorem pingRun_end (n : ℕ) : pingRun (17 + n) = pingRun 17 := by
  induction n with
  | zero => rfl
  | succ n ih =>
    have ha : pingActions[17 + n]? = none := List.getElem?_eq_none (Nat.le_add_right 17 n)
    rw [Nat.add_succ, pingRun, ha]
    exact ih

theorem pingRun_others (n : ℕ) : (pingRun n).others = 0 := by
  induction n with
  | zero => rfl
  | succ n ih =>
    rw [pingRun]
    cases pingActions[n]? with
    | none => exact ih
    | some a => cases a <;> exact ih

theorem pingRun_fair : Fair 3 2 pingRun where
  worker := by
    intro m i hi hs
    refine ⟨17 + m, Nat.le_add_left m 17, ?_⟩
    intro heq
    rw [← heq, pingRun_end] at hs
    have hslots : ∀ i < 3, ((pingRun 17).stage i).slot = 0 := by decide +kernel
    rw [hslots i hi] at hs
    cases hs
  other := by
    intro m hp
    rw [pingRun_others] at hp
    exact absurd hp (Nat.lt_irrefl 0)
  main := by
    intro m hpc
    refine ⟨17 + m, Nat.le_add_left m 17, ?_⟩
    intro heq
    rw [← heq, pingRun_end] at hpc
    rcases hpc with ⟨i, hpc⟩ | ⟨hpc, -⟩ <;> exact Pc.noConfusion hpc
  submit := by
    intro m i hpc _
    refine ⟨17 + m, Nat.le_add_left m 17, ?_⟩
    intro heq
    rw [← heq, pingRun_end] at hpc
    exact Pc.noConfusion hpc

theorem handleBatch_delivers_pings :
    (pingRun 17).written.map (·.map Response.id) = [[some (.num 1), some (.num 2)]] ∧
    (∀ n, ((pingRun n).pc ≠ .returned → (pingRun n).written = []) ∧
      ((pingRun n).pc = .returned → Delivered idleHost pings (pingRun n).written)) ∧
    ∃ n, (pingRun n).pc = .returned :=
  have h := handleBatch_delivers idleHost pings Nat.two_pos pingRun_isRun
  ⟨rfl, h.1, h.2 pingRun_fair⟩

end GoPosix.Daemon
