import GoPosix.Daemon.RateLimit

/-!
# The bucket over time

The bucket holds between no token and its size, and in any window no more calls are allowed than a
full bucket and the refill pay for (`allow_bounds`).

A message that comes late enough after the one before it should find a token. But the size of the
bucket is the whole part of the rate, so a rate below one has an empty bucket for ever; and the
clock is read where the message is taken from the connection, not where it arrives
(`never_refused_iff`).
-/

namespace GoPosix.Daemon

open Bytes List RateLimiter

/-! ## Calls -/

/-- The limiter behind calls of `Allow` at these times. -/
def RateLimiter.calls (rl : RateLimiter) (times : List ℚ) : RateLimiter :=
  times.foldl (fun rl now => (rl.allow now).2) rl

def RateLimiter.allowed : RateLimiter → List ℚ → List ℚ
  | _, [] => []
  | rl, now :: times =>
    if (rl.allow now).1 then now :: (rl.allow now).2.allowed times
      else (rl.allow now).2.allowed times

section

variable {rl : RateLimiter} {times : List ℚ} {now d : ℚ}

@[simp] theorem RateLimiter.calls_nil : rl.calls [] = rl := rfl

@[simp] theorem RateLimiter.calls_cons : rl.calls (now :: times) = (rl.allow now).2.calls times :=
  rfl

theorem RateLimiter.calls_append (before after : List ℚ) :
    rl.calls (before ++ after) = (rl.calls before).calls after := foldl_append

@[simp] theorem RateLimiter.calls_rate : (rl.calls times).rate = rl.rate := by
  induction times generalizing rl with
  | nil => rfl
  | cons now times ih => rw [calls_cons, ih, allow_rate]

@[simp] theorem RateLimiter.calls_burst : (rl.calls times).burst = rl.burst := by
  induction times generalizing rl with
  | nil => rfl
  | cons now times ih => rw [calls_cons, ih, allow_burst]

/-- **A run** keeps what a call keeps. -/
theorem RateLimiter.Ok.calls (h : rl.Ok) (ht : (rl.lastUpdate :: times).Pairwise (· ≤ ·)) :
    (rl.calls times).Ok := by
  induction times generalizing rl with
  | nil => exact h
  | cons now times ih =>
    rw [pairwise_cons] at ht
    apply ih (h.allow (ht.1 now mem_cons_self))
    rw [allow_lastUpdate]
    exact ht.2

theorem serve_batchAt (rl : RateLimiter) (times : List ℚ) :
    serve rl (times.map (batchAt 1)) = rl.allowed times := by
  induction times generalizing rl with
  | nil => rfl
  | cons now times ih =>
    rw [map_cons, serve, handleMessage_requests, handleMessage_eq, allowed, ← ih]
    show (List.range (if (rl.allow now).1 then 1 else 0)).map (batchAt 1 now).start ++ _ = _
    by_cases hall : (rl.allow now).1 = true
    · rw [if_pos hall, if_pos hall]
      rfl
    · rw [if_neg hall, if_neg hall]
      rfl

theorem timed_batchAt (h : (l :: times).Pairwise (· ≤ ·)) : Timed l (times.map (batchAt 1)) := by
  induction times generalizing l with
  | nil => trivial
  | cons now times ih =>
    rw [pairwise_cons] at h
    exact ⟨h.1 now mem_cons_self, le_refl _, fun _ _ => ⟨le_refl _, le_refl _⟩, ih h.2⟩

end

/-- **From above.** The bucket holds at most `b` tokens, and a window of length `t` sees at most
`b + r · t` allowed calls. -/
theorem allow_bounds {r created : ℚ} {b : ℤ} (hr : 0 < r) (hb : 0 ≤ b) {times : List ℚ}
    (htimes : (created :: times).Pairwise (· ≤ ·)) :
    (∀ n, 0 ≤ ((newRateLimiter r b created).calls (times.take n)).tokens ∧
      ((newRateLimiter r b created).calls (times.take n)).tokens ≤ b) ∧
    ∀ a t, 0 ≤ t → (executed ((newRateLimiter r b created).allowed times) a (a + t) : ℚ) ≤ b +
      r * t := by
  have hok : (newRateLimiter r b created).Ok := by
    refine ⟨hr.le, ?_, le_refl _⟩
    show (0 : ℚ) ≤ (b : ℚ)
    exact_mod_cast hb
  constructor
  · intro n
    have htake : (created :: times.take n).Pairwise (· ≤ ·) :=
      htimes.sublist ((take_sublist n times).cons_cons created)
    have hc := hok.calls htake
    refine ⟨hc.tokens, hc.burst.trans ?_⟩
    rw [calls_burst]
    exact le_refl _
  · intro a t ht
    have hwithin : ∀ turn ∈ times.map (batchAt 1), turn.Within 1 0 := by
      intro turn hturn
      obtain ⟨now, -, rfl⟩ := mem_map.mp hturn
      exact batchAt_within (le_refl 0)
    have hw := countP_le_burst hok (@le_add_of_nonneg_right ℚ _ _ _ a t ht)
      (timed_batchAt htimes) hwithin
    rw [serve_batchAt, add_sub_cancel_left] at hw
    exact hw

theorem allow_bounds_four :
    (executed ((newRateLimiter 1 2 0).allowed [0, 0, 1 / 2, 1]) 0 (0 + 1) : ℚ) ≤ (2 : ℤ) + 1 * 1 :=
  (@allow_bounds 1 0 2 (by norm_num) (by norm_num) [0, 0, 1 / 2, 1] (by norm_num)).2 0 1 zero_le_one

/-! ## A message that comes late -/

/-- The rate limit of a server, from the number that `GOPOSIX_RATE_LIMIT` is read as. -/
def rateLimit : Option ℚ → ℚ
  | some r => if r > 0 then r else 100
  | none => 100

/-- The conversion `int(x)` of a machine: what does not fit is `outside`, which the language leaves
to the implementation. -/
def toMachineInt (outside : ℤ) (x : ℚ) : ℤ :=
  if -2 ^ 63 ≤ toInt x ∧ toInt x < 2 ^ 63 then toInt x else outside

def connLimiter (outside : ℤ) (limit : Option ℚ) (opened : ℚ) : RateLimiter :=
  newRateLimiter (rateLimit limit) (toMachineInt outside (rateLimit limit)) opened

/-- A turn of the loop, and when its message has arrived. -/
structure Arrival where
  arrived : ℚ
  turn : Turn

def RateLimiter.turns (rl : RateLimiter) (arrivals : List Arrival) : RateLimiter :=
  arrivals.foldl (fun rl a => (handleMessage rl a.turn.now a.turn.message).2) rl

/-- What happens on a connection: messages arrive one after the other, and each is taken within
`d`. -/
structure History (d opened : ℚ) (arrivals : List Arrival) : Prop where
  arrives : (opened :: arrivals.map Arrival.arrived).Pairwise (· ≤ ·)
  timed : Timed opened (arrivals.map Arrival.turn)
  taken : ∀ a ∈ arrivals, a.arrived ≤ a.turn.now ∧ a.turn.now ≤ a.arrived + d

def rateLimited : Handled := .error (-32000) (str "Rate limit exceeded")

/-- **What one wants**: behind a pause a message is not refused. -/
def NeverRefused (outside : ℤ) (limit : Option ℚ) (d : ℚ) : Prop :=
  ∀ (opened : ℚ) (before : List Arrival) (prev next : Arrival),
    History d opened (before ++ [prev, next]) →
    prev.arrived + max 1 (1 / rateLimit limit) ≤ next.arrived →
    (handleMessage ((connLimiter outside limit opened).turns (before ++ [prev])) next.turn.now
      next.turn.message).1 ≠ rateLimited

section

variable {rl : RateLimiter} {now d opened : ℚ} {outside : ℤ} {limit : Option ℚ}

theorem rateLimit_pos (limit : Option ℚ) : 0 < rateLimit limit := by
  match limit with
  | none => norm_num [rateLimit]
  | some r =>
    show 0 < if r > 0 then r else 100
    split_ifs with h
    · exact h
    · norm_num

theorem one_le_of_toMachineInt (hr : 0 < r) (h : 1 ≤ toMachineInt outside r) : 1 ≤ r := by
  by_contra hlt
  have hf : toInt r = 0 := by
    rw [toInt_eq hr.le]
    exact Int.floor_eq_zero_iff.mpr ⟨hr.le, not_le.mp hlt⟩
  have hzero : toMachineInt outside r = 0 := by
    unfold toMachineInt
    rw [hf, if_pos (by norm_num)]
  omega

theorem handleMessage_eq_rateLimited (rl : RateLimiter) (now : ℚ) (m : Message) :
    (handleMessage rl now m).1 = rateLimited ↔ (rl.refill now).tokens < 1 := by
  -- an admitted message is answered with other codes
  have hadmitted : handleAdmitted m ≠ rateLimited := by
    unfold handleAdmitted rateLimited
    split
    · simp
    · split <;> simp
    · simp
    · simp
  rw [handleMessage_eq, allow_eq]
  by_cases ho : 1 ≤ (rl.refill now).tokens
  · rw [if_pos ho]
    exact iff_of_false hadmitted (not_lt.mpr ho)
  · rw [if_neg ho]
    exact iff_of_true rfl (not_le.mp ho)

theorem RateLimiter.turns_eq_calls (rl : RateLimiter) (ar : List Arrival) :
    rl.turns ar = rl.calls (ar.map fun a => a.turn.now) := by
  unfold turns calls
  rw [foldl_map]
  simp [handleMessage_eq]

theorem RateLimiter.calls_lastUpdate (times : List ℚ) :
    (rl.calls (times ++ [now])).lastUpdate = now := by
  rw [calls_append, calls_cons, calls_nil, allow_lastUpdate]

theorem pairwise_of_timed {turns : List Turn} (h : Timed l turns) :
    (l :: turns.map Turn.now).Pairwise (· ≤ ·) := by
  induction turns generalizing l with
  | nil => exact pairwise_singleton _ _
  | cons t turns ih =>
    have hr := ih h.2.2.2
    rw [pairwise_cons] at hr
    have hn : ∀ x ∈ turns.map Turn.now, t.now ≤ x := fun x hx => h.2.1.trans (hr.1 x hx)
    rw [map_cons, pairwise_cons, pairwise_cons]
    refine ⟨?_, hn, hr.2⟩
    intro x hx
    rcases mem_cons.mp hx with rfl | hx
    · exact h.1
    · exact h.1.trans (hn x hx)

theorem RateLimiter.calls_replicate {m : ℕ} (hm : 0 < m) (h : (rl.refill now).tokens = m) :
    (rl.calls (List.replicate m now)).tokens = 0 := by
  induction m generalizing rl with
  | zero => exact absurd hm (lt_irrefl 0)
  | succ m ih =>
    have hall : rl.allow now = (true, { rl.refill now with tokens := m }) := by
      rw [← allow_refill]
      exact allow_now (by rw [h, Nat.cast_succ]) rfl (min_le_right _ _)
    rw [replicate_succ, calls_cons, hall]
    cases m with
    | zero =>
      rfl
    | succ m =>
      apply ih (Nat.succ_pos m)
      -- nothing is added at the same time, and the bucket does not overflow
      have hc : ((m + 1 : ℕ) : ℚ) ≤ rl.burst := by
        have hb : (rl.refill now).tokens ≤ rl.burst := min_le_right _ _
        rw [h] at hb
        push_cast at hb ⊢
        linarith
      show min (((m + 1 : ℕ) : ℚ) + (now - now) * rl.rate) rl.burst = _
      rw [sub_self, zero_mul, add_zero, min_eq_left hc]

theorem one_le_refill (hok : rl.Ok) (hb : 1 ≤ rl.burst) (hg : 1 ≤ (now - rl.lastUpdate) * rl.rate) :
    1 ≤ (rl.refill now).tokens := by
  apply le_min
  · linarith [hok.tokens]
  · exact_mod_cast hb

/-- A message `at` a time, taken at `now`. -/
def pingAt (arrived now : ℚ) : Arrival := ⟨arrived, batchAt 1 now⟩

theorem history_late (hd : 0 ≤ d) (hn : 0 ≤ nx) :
    History d 0 (List.replicate k (pingAt 0 d) ++ [pingAt 0 d, pingAt nx (max nx d)]) := by
  have hlist : List.replicate k (pingAt 0 d) ++ [pingAt 0 d, pingAt nx (max nx d)]
      = List.replicate (k + 1) (pingAt 0 d) ++ [pingAt nx (max nx d)] := by
    rw [replicate_succ', append_assoc]
    rfl
  rw [hlist]
  generalize k + 1 = n
  refine ⟨?_, ?_, ?_⟩
  · rw [map_append, map_replicate]
    show (0 :: List.replicate n 0 ++ [nx]).Pairwise (· ≤ ·)
    rw [← replicate_succ]
    apply pairwise_append.mpr
    refine ⟨pairwise_replicate.mpr (.inr (le_refl _)), pairwise_singleton _ _, ?_⟩
    intro x hx y hy
    obtain rfl := eq_of_mem_replicate hx
    obtain rfl := mem_singleton.mp hy
    exact hn
  · have ht : ∀ l ≤ d,
        Timed l ((List.replicate n (pingAt 0 d) ++ [pingAt nx (max nx d)]).map Arrival.turn) := by
      induction n with
      | zero =>
        intro l hl
        exact ⟨hl.trans (le_max_right _ _), le_refl _, fun _ _ => ⟨le_refl _, le_refl _⟩, trivial⟩
      | succ n ih =>
        intro l hl
        exact ⟨hl, le_refl _, fun _ _ => ⟨le_refl _, le_refl _⟩, ih d (le_refl d)⟩
    exact ht 0 hd
  · intro a ha
    rcases mem_append.mp ha with ha | ha
    · obtain rfl := eq_of_mem_replicate ha
      exact ⟨hd, (zero_add d).ge⟩
    · obtain rfl := mem_singleton.mp ha
      exact ⟨le_max_left _ _, max_le (le_add_of_nonneg_right hd) (le_add_of_nonneg_left hn)⟩

theorem one_le_burst (hd : 0 ≤ d) (h : NeverRefused outside limit d) :
    1 ≤ toMachineInt outside (rateLimit limit) := by
  by_contra hlt
  have hn : 0 ≤ max 1 (1 / rateLimit limit) := zero_le_one.trans (le_max_left _ _)
  apply h 0 (List.replicate 0 (pingAt 0 d)) _ _ (history_late hd hn) (zero_add _).le
  rw [handleMessage_eq_rateLimited]
  refine (min_le_right _ _).trans_lt ?_
  rw [turns_eq_calls, calls_burst]
  exact_mod_cast not_le.mp hlt

/-- All tokens are taken at `d`, and the next message arrives one second behind the last of
these. -/
theorem one_le_gain (hd : 0 ≤ d) (h : NeverRefused outside limit d) :
    1 ≤ rateLimit limit * (1 - d) := by
  have hb := one_le_burst hd h
  have hr := rateLimit_pos limit
  have ho := one_le_of_toMachineInt hr hb
  have hp : max 1 (1 / rateLimit limit) = 1 := by
    apply max_eq_left
    rw [div_le_one hr]
    exact ho
  obtain ⟨m, hm⟩ : ∃ m : ℕ, toMachineInt outside (rateLimit limit) = m + 1 :=
    ⟨(toMachineInt outside (rateLimit limit)).toNat - 1, by omega⟩
  by_contra hlt
  apply h 0 (List.replicate m (pingAt 0 d)) (pingAt 0 d) (pingAt 1 (max 1 d))
    (history_late hd zero_le_one) (by rw [hp]; exact (zero_add _).le)
  have hmap : (List.replicate m (pingAt 0 d) ++ [pingAt 0 d]).map (fun a => a.turn.now) =
      List.replicate (m + 1) d := by
    rw [map_append, map_replicate, replicate_succ']
    rfl
  have hf : ((connLimiter outside limit 0).refill d).tokens = (m + 1 : ℕ) := by
    show min ((toMachineInt outside (rateLimit limit) : ℚ) + (d - 0) * rateLimit limit)
      (toMachineInt outside (rateLimit limit) : ℚ) = _
    rw [min_eq_right (le_add_of_nonneg_right (mul_nonneg (sub_nonneg.mpr hd) hr.le)), hm]
    rfl
  have he := calls_replicate (Nat.succ_pos m) hf
  rw [handleMessage_eq_rateLimited, turns_eq_calls, hmap]
  refine (min_le_left _ _).trans_lt ?_
  rw [he, replicate_succ', calls_lastUpdate, calls_rate, zero_add]
  show (max 1 d - d) * rateLimit limit < 1
  rcases le_total d 1 with hle | hle
  · rw [max_eq_left hle, mul_comm]
    exact not_le.mp hlt
  · rw [max_eq_right hle, sub_self, zero_mul]
    exact zero_lt_one

/-- **A bucket that holds a token and gains one in a pause refuses nothing behind it.** -/
theorem neverRefused (hb : 1 ≤ toMachineInt outside (rateLimit limit))
    (hg : 1 ≤ rateLimit limit * (1 - d)) : NeverRefused outside limit d := by
  intro opened before p next hh hp
  have hr := rateLimit_pos limit
  rw [ne_eq, handleMessage_eq_rateLimited, not_lt, turns_eq_calls, map_append]
  have hok : (connLimiter outside limit opened).Ok := by
    refine ⟨hr.le, ?_, le_refl _⟩
    show (0 : ℚ) ≤ ((toMachineInt outside (rateLimit limit) : ℤ) : ℚ)
    exact_mod_cast zero_le_one.trans hb
  have ht : (opened :: (before.map (fun a => a.turn.now) ++ [p.turn.now])).Pairwise (· ≤ ·) := by
    have hall := pairwise_of_timed hh.timed
    rw [map_map, map_append] at hall
    exact hall.sublist ((List.Sublist.append_left ((nil_sublist _).cons_cons _) _).cons_cons _)
  apply one_le_refill (hok.calls ht)
  · rw [calls_burst]
    exact hb
  rw [calls_rate]
  rw [calls_lastUpdate]
  have hprev := (hh.taken p (by simp)).2
  have hn := (hh.taken next (by simp)).1
  have he : 1 - d ≤ next.turn.now - p.turn.now := by
    have ho := le_max_left 1 (1 / rateLimit limit)
    linarith
  calc 1 ≤ rateLimit limit * (1 - d) := hg
    _ ≤ rateLimit limit * (next.turn.now - p.turn.now) := mul_le_mul_of_nonneg_left he hr.le
    _ = (next.turn.now - p.turn.now) * rateLimit limit := mul_comm _ _

end

/-- **From below.** On connections that take every message within `d` of its arrival, a pause
protects from a refusal exactly if the bucket has room for a token and the rest of the pause pays
for one. -/
theorem never_refused_iff (outside : ℤ) (limit : Option ℚ) {d : ℚ} (hd : 0 ≤ d) :
    NeverRefused outside limit d ↔ 1 ≤ toMachineInt outside (rateLimit limit) ∧
      1 ≤ rateLimit limit * (1 - d) :=
  ⟨fun h => ⟨one_le_burst hd h, one_le_gain hd h⟩, fun h => neverRefused h.1 h.2⟩

theorem not_neverRefused_half : ¬ NeverRefused 0 (some (1 / 2)) 0 := by
  intro h
  have hb := one_le_burst (le_refl 0) h
  have hr : rateLimit (some (1 / 2)) = 1 / 2 := if_pos (by norm_num)
  have hzero : toMachineInt 0 (1 / 2) = 0 := by norm_num [toMachineInt, toInt]
  rw [hr] at hb
  omega

theorem neverRefused_default : NeverRefused 0 none 0 := by
  have hr : rateLimit none = 100 := rfl
  have hb : toMachineInt 0 100 = 100 := by norm_num [toMachineInt, toInt]
  rw [never_refused_iff 0 none (le_refl 0), hr, hb]
  norm_num

end GoPosix.Daemon
