import Mathlib.Data.Rat.Floor
import GoPosix.Daemon.Request

/-!
# The rate limit of a connection

`handleConn` takes a token for every message it reads, and a message that gets one is handed on with
all its requests. Times and tokens are rational numbers. A turn of the loop is a message with the
times of the reading of the clock in `Allow`, of the start of each of its requests, and of the end,
before which the next message is not read.

Without delays, `tokens + rate · (b - lastUpdate)` bounds the messages that get through until `b`
(`countP_le_tokens`), and the size of the bucket those of any window (`countP_le_burst`). The bound
on requests holds exactly if a message has one request at most, which is executed at once
(`executed_le_iff`).
-/

namespace GoPosix.Daemon

open Bytes List

/-! ## The limiter -/

structure RateLimiter where
  rate : ℚ
  burst : ℤ
  tokens : ℚ
  lastUpdate : ℚ
  deriving DecidableEq

open RateLimiter

def newRateLimiter (rate : ℚ) (burst : ℤ) (now : ℚ) : RateLimiter := ⟨rate, burst, burst, now⟩

def RateLimiter.allow (now : ℚ) (rl : RateLimiter) : Bool × RateLimiter :=
  let elapsed := now - rl.lastUpdate
  let tokens := rl.tokens + elapsed * rl.rate
  let tokens := if tokens > rl.burst then (rl.burst : ℚ) else tokens
  if tokens ≥ 1 then (true, { rl with tokens := tokens - 1, lastUpdate := now })
  else (false, { rl with tokens := tokens, lastUpdate := now })

def toInt (x : ℚ) : ℤ := if x < 0 then ⌈x⌉ else ⌊x⌋

/-! ## The connection -/

/-- A message, as far as `handleConn` reads it: an array or something else, and what
`json.Unmarshal` makes of it. -/
inductive Message where
  | batch (reqs : Option (List Request))
  | single (req : Option Request)

/-- What is done with a message: an error is written, or the requests are processed. -/
inductive Handled where
  | error (code : Int) (message : Bytes)
  | batch (reqs : List Request)
  | single (req : Request)

def Handled.requests : Handled → List Request
  | .error _ _ => []
  | .batch reqs => reqs
  | .single req => [req]

/-- What `handleConn` does with a message that it admits. -/
def handleAdmitted : Message → Handled
  | .batch none => .error (-32600) (str "Invalid Request")
  | .batch (some reqs) =>
    if reqs.length = 0 then .error (-32600) (str "Invalid Request") else .batch reqs
  | .single none => .error (-32600) (str "Invalid Request")
  | .single (some req) => .single req

/-- The body of the loop in `handleConn`, for a message that was read. -/
def handleMessage (rl : RateLimiter) (now : ℚ) (m : Message) : Handled × RateLimiter :=
  let (ok, rl) := rl.allow now
  if ok = false then (.error (-32000) (str "Rate limit exceeded"), rl)
  else (handleAdmitted m, rl)

def Message.size : Message → ℕ
  | .batch reqs => (reqs.getD []).length
  | .single req => req.toList.length

structure Turn where
  message : Message
  now : ℚ
  start : ℕ → ℚ
  done : ℚ

/-- The times at which requests are started. -/
def serve : RateLimiter → List Turn → List ℚ
  | _, [] => []
  | rl, t :: turns =>
    (List.range (handleMessage rl t.now t.message).1.requests.length).map t.start ++
      serve (handleMessage rl t.now t.message).2 turns

/-- The times go forward from `last` on. -/
def Timed : ℚ → List Turn → Prop
  | _, [] => True
  | last, t :: turns => last ≤ t.now ∧ t.now ≤ t.done ∧
      (∀ i < t.message.size, t.now ≤ t.start i ∧ t.start i ≤ t.done) ∧ Timed t.done turns

/-- At most `k` requests, each of them started within `d` of the token. -/
def Turn.Within (k : ℕ) (d : ℚ) (t : Turn) : Prop :=
  t.message.size ≤ k ∧ ∀ i < t.message.size, t.start i ≤ t.now + d

/-- The start times on a connection that is opened at `opened`, with the rate limit `r`. -/
def connection (r opened : ℚ) (turns : List Turn) : List ℚ :=
  serve (newRateLimiter r (toInt r) opened) turns

/-- The number of requests that are executed from `a` to `b`. -/
def executed (times : List ℚ) (a b : ℚ) : ℕ := times.countP fun x => a ≤ x ∧ x ≤ b

/-! ## A message takes a token -/

section

variable {rl : RateLimiter} {now a b : ℚ} {t : Turn} {turns : List Turn}

def RateLimiter.refill (rl : RateLimiter) (now : ℚ) : RateLimiter :=
  { rl with tokens := min (rl.tokens + (now - rl.lastUpdate) * rl.rate) rl.burst, lastUpdate :=
    now }

theorem RateLimiter.allow_eq (rl : RateLimiter) (now : ℚ) :
    rl.allow now = if 1 ≤ (rl.refill now).tokens
      then (true, { rl.refill now with tokens := (rl.refill now).tokens - 1 })
      else (false, rl.refill now) := by
  have ht : (if rl.tokens + (now - rl.lastUpdate) * rl.rate > rl.burst then (rl.burst : ℚ)
      else rl.tokens + (now - rl.lastUpdate) * rl.rate) = (rl.refill now).tokens := by
    split_ifs with h
    · exact (min_eq_right (le_of_lt h)).symm
    · exact (min_eq_left (not_lt.mp h)).symm
  unfold allow
  simp only [ht]
  rfl

theorem RateLimiter.allow_refill (rl : RateLimiter) (now : ℚ) :
    (rl.refill now).allow now = rl.allow now := by
  have hr : (rl.refill now).refill now = rl.refill now := by
    simp [refill]
  rw [allow_eq, allow_eq, hr]

structure RateLimiter.Ok (rl : RateLimiter) : Prop where
  rate : 0 ≤ rl.rate
  tokens : 0 ≤ rl.tokens
  burst : rl.tokens ≤ rl.burst

theorem RateLimiter.Ok.refill (h : rl.Ok) (hn : rl.lastUpdate ≤ now) : (rl.refill now).Ok := by
  have hg : 0 ≤ (now - rl.lastUpdate) * rl.rate := mul_nonneg (sub_nonneg.mpr hn) h.rate
  refine ⟨h.rate, ?_, min_le_right _ _⟩
  exact le_min (add_nonneg h.tokens hg) (h.tokens.trans h.burst)

theorem RateLimiter.Ok.allow (h : rl.Ok) (hn : rl.lastUpdate ≤ now) : (rl.allow now).2.Ok := by
  have hr := h.refill hn
  rw [allow_eq]
  split_ifs with ho
  · refine ⟨hr.rate, ?_, ?_⟩
    · exact sub_nonneg.mpr ho
    · exact (sub_le_self _ zero_le_one).trans hr.burst
  · exact hr

theorem RateLimiter.paid {n : ℕ} (hn : n ≤ 1) :
    ((if (rl.allow now).1 then n else 0 : ℕ) : ℚ) + (rl.allow now).2.tokens ≤
      (rl.refill now).tokens := by
  have hn' : (n : ℚ) ≤ 1 := by exact_mod_cast hn
  rw [allow_eq]
  by_cases ho : 1 ≤ (rl.refill now).tokens
  · rw [if_pos ho]
    show (n : ℚ) + ((rl.refill now).tokens - 1) ≤ (rl.refill now).tokens
    linarith
  · rw [if_neg ho]
    simp

/-- A bucket with a token, at once. -/
theorem RateLimiter.allow_now {n : ℕ} (ht : rl.tokens = n + 1) (hl : rl.lastUpdate = now)
    (hb : rl.tokens ≤ rl.burst) : rl.allow now = (true, { rl with tokens := n }) := by
  have hr : rl.refill now = rl := by
    rw [refill, hl, sub_self, zero_mul, add_zero, min_eq_left hb, ← hl]
  rw [allow_eq, hr, ht, if_pos (by linarith [(n.cast_nonneg : (0 : ℚ) ≤ n)]), add_sub_cancel_right]

@[simp] theorem RateLimiter.allow_lastUpdate : (rl.allow now).2.lastUpdate = now := by
  rw [allow_eq]
  split_ifs <;> rfl

@[simp] theorem RateLimiter.allow_rate : (rl.allow now).2.rate = rl.rate := by
  rw [allow_eq]
  split_ifs <;> rfl

@[simp] theorem RateLimiter.allow_burst : (rl.allow now).2.burst = rl.burst := by
  rw [allow_eq]
  split_ifs <;> rfl

theorem handleMessage_eq : handleMessage rl now m =
    (if (rl.allow now).1 then handleAdmitted m else .error (-32000) (str "Rate limit exceeded"),
      (rl.allow now).2) := by
  unfold handleMessage
  generalize rl.allow now = allowed
  obtain ⟨ok, rl'⟩ := allowed
  cases ok <;> rfl

theorem handleAdmitted_requests (m : Message) : (handleAdmitted m).requests.length = m.size := by
  match m with
  | .batch none => rfl
  | .batch (some []) => rfl
  | .batch (some (_ :: _)) => rfl
  | .single none => rfl
  | .single (some _) => rfl

theorem handleMessage_requests :
    (handleMessage rl now m).1.requests.length = if (rl.allow now).1 then m.size else 0 := by
  rw [handleMessage_eq]
  split_ifs
  · exact handleAdmitted_requests m
  · rfl

theorem handleMessage_refill : handleMessage (rl.refill now) now m = handleMessage rl now m := by
  unfold handleMessage
  rw [allow_refill]

theorem serve_refill : serve (rl.refill t.now) (t :: turns) = serve rl (t :: turns) := by
  rw [serve, serve, handleMessage_refill]

/-! ## Counting -/

theorem Timed.mono (h : Timed last turns) (hle : l' ≤ last) : Timed l' turns := by
  cases turns with
  | nil => trivial
  | cons t turns => exact ⟨hle.trans h.1, h.2⟩

theorem le_of_mem_serve (h : Timed last turns) (hx : x ∈ serve rl turns) : last ≤ x := by
  induction turns generalizing rl last with
  | nil => exact absurd hx not_mem_nil
  | cons t turns ih =>
    obtain ⟨hl, hd, hs, hr⟩ := h
    rcases mem_append.mp hx with hx | hx
    · obtain ⟨i, hi, rfl⟩ := mem_map.mp hx
      have hsize : i < t.message.size := by
        rw [mem_range, handleMessage_requests] at hi
        split_ifs at hi <;> omega
      exact hl.trans (hs i hsize).1
    · exact hl.trans (hd.trans (ih hr hx))

theorem countP_le_eq_zero (h : Timed last turns) (hb : b < last) :
    (serve rl turns).countP (· ≤ b) = 0 := by
  apply countP_eq_zero.mpr
  intro x hx
  simp only [decide_eq_true_eq, not_le]
  exact hb.trans_le (le_of_mem_serve h hx)

theorem serve_cons_undelayed (h : Timed last (t :: turns)) (ht : t.Within k 0) :
    serve rl (t :: turns) =
      List.replicate (if (rl.allow t.now).1 then t.message.size else 0) t.now ++
      serve (rl.allow t.now).2 turns := by
  rw [serve, handleMessage_requests, handleMessage_eq]
  congr 1
  apply eq_replicate_iff.mpr
  refine ⟨by simp, ?_⟩
  intro x hx
  obtain ⟨i, hi, rfl⟩ := mem_map.mp hx
  have hs : i < t.message.size := by
    rw [mem_range] at hi
    split_ifs at hi <;> omega
  have hle := ht.2 i hs
  rw [add_zero] at hle
  exact le_antisymm hle (h.2.2.1 i hs).1

/-- **One token for one message**: what gets through until `b`. -/
theorem countP_le_tokens (hrl : rl.Ok) (hl : rl.lastUpdate ≤ b)
    (h : Timed rl.lastUpdate turns) (hturns : ∀ t ∈ turns, t.Within 1 0) :
    ((serve rl turns).countP (· ≤ b) : ℚ) ≤ rl.tokens + rl.rate * (b - rl.lastUpdate) := by
  have hn : 0 ≤ rl.tokens + rl.rate * (b - rl.lastUpdate) :=
    add_nonneg hrl.tokens (mul_nonneg hrl.rate (sub_nonneg.mpr hl))
  induction turns generalizing rl with
  | nil => simpa [serve] using hn
  | cons t turns ih =>
    by_cases hb : t.now ≤ b
    · have ht : t.Within 1 0 := hturns t mem_cons_self
      have hok := hrl.allow h.1
      have hr := ih hok (by simpa using hb) (by simpa using h.2.2.2.mono h.2.1)
        (fun t' ht' => hturns t' (mem_cons_of_mem t ht'))
        (add_nonneg hok.tokens (mul_nonneg hok.rate (by simpa using hb)))
      have hp := @paid rl t.now _ ht.1
      have hf : (rl.refill t.now).tokens ≤ rl.tokens + (t.now - rl.lastUpdate) * rl.rate :=
        min_le_left _ _
      rw [serve_cons_undelayed h ht, countP_append, countP_replicate]
      simp only [hb, decide_true]
      rw [allow_lastUpdate, allow_rate] at hr
      push_cast at hp ⊢
      linarith
    · have hnow : Timed t.now (t :: turns) := ⟨le_refl _, h.2⟩
      rw [countP_le_eq_zero hnow (not_le.mp hb)]
      exact_mod_cast hn

/-- **Any window**: the bucket is full at most when it begins. -/
theorem countP_le_burst (hrl : rl.Ok) (hab : a ≤ b) (h : Timed rl.lastUpdate turns)
    (hturns : ∀ t ∈ turns, t.Within 1 0) :
    (executed (serve rl turns) a b : ℚ) ≤ rl.burst + rl.rate * (b - a) := by
  have hn : 0 ≤ rl.burst + rl.rate * (b - a) :=
    add_nonneg (hrl.tokens.trans hrl.burst) (mul_nonneg hrl.rate (sub_nonneg.mpr hab))
  induction turns generalizing rl with
  | nil => simpa [executed, serve] using hn
  | cons t turns ih =>
    have ht : t.Within 1 0 := hturns t mem_cons_self
    have hnow : Timed t.now (t :: turns) := ⟨le_refl _, h.2⟩
    by_cases ha : t.now < a
    · -- Before the window.
      have hrest := ih (hrl.allow h.1) (by simpa using h.2.2.2.mono h.2.1)
        (fun t' ht' => hturns t' (mem_cons_of_mem t ht')) (by simpa using hn)
      rw [allow_burst, allow_rate] at hrest
      rw [executed, serve_cons_undelayed h ht, countP_append, countP_replicate,
        if_neg (by simp [ha]), Nat.zero_add]
      exact hrest
    · have hle : executed (serve rl (t :: turns)) a b ≤ (serve rl (t :: turns)).countP (· ≤ b) := by
        apply countP_mono_left
        intro x _ hx
        simp only [decide_eq_true_eq] at hx ⊢
        exact hx.2
      have hle' : (executed (serve rl (t :: turns)) a b : ℚ)
          ≤ (serve rl (t :: turns)).countP (· ≤ b) := by exact_mod_cast hle
      by_cases hb : t.now ≤ b
      · have hr := hrl.refill h.1
        have hc := countP_le_tokens hr hb hnow hturns
        have hw : rl.rate * (b - t.now) ≤ rl.rate * (b - a) :=
          mul_le_mul_of_nonneg_left (by linarith) hrl.rate
        rw [serve_refill] at hc
        have hburst : (rl.refill t.now).tokens ≤ rl.burst := hr.burst
        calc (executed (serve rl (t :: turns)) a b : ℚ)
            ≤ (rl.refill t.now).tokens + rl.rate * (b - t.now) := hle'.trans hc
          _ ≤ rl.burst + rl.rate * (b - a) := add_le_add hburst hw
      · rw [countP_le_eq_zero hnow (not_le.mp hb)] at hle'
        exact hle'.trans (by exact_mod_cast hn)

end

/-! ## More requests than tokens -/

/-- A batch of `k` requests that are started at once. -/
def batchAt (k : ℕ) (now : ℚ) : Turn :=
  ⟨.batch (some (List.replicate k ⟨str "2.0", str "goposix.ping", none, none⟩)), now, fun _ =>
    now, now⟩

section

variable {rl : RateLimiter} {k m : ℕ} {now d : ℚ}

@[simp] theorem batchAt_size : (batchAt k now).message.size = k := length_replicate

theorem batchAt_within (hd : 0 ≤ d) : (batchAt k now).Within k d :=
  ⟨Nat.le_of_eq batchAt_size, fun _ _ => le_add_of_nonneg_right hd⟩

theorem timed_replicate : Timed now (List.replicate m (batchAt k now)) := by
  induction m with
  | zero => trivial
  | succ m ih => exact ⟨le_refl _, le_refl _, fun _ _ => ⟨le_refl _, le_refl _⟩, ih⟩

theorem serve_replicate (ht : rl.tokens = m) (hl : rl.lastUpdate = now)
    (hb : rl.tokens ≤ rl.burst) :
    serve rl (List.replicate m (batchAt k now)) = List.replicate (m * k) now := by
  induction m generalizing rl with
  | zero =>
    rw [Nat.zero_mul]
    rfl
  | succ m ih =>
    rw [Nat.cast_succ] at ht
    have hls : (m : ℚ) ≤ rl.burst := by linarith
    have hr : serve { rl with tokens := m } (List.replicate m (batchAt k now))
        = List.replicate (m * k) now := ih rfl hl hls
    have htimed : Timed now (batchAt k now :: List.replicate m (batchAt k now)) :=
      timed_replicate (m := m + 1)
    rw [replicate_succ, serve_cons_undelayed htimed (batchAt_within (le_refl 0)), batchAt_size]
    show List.replicate (if (rl.allow now).1 then k else 0) now ++
      serve (rl.allow now).2 (List.replicate m (batchAt k now)) = _
    rw [allow_now ht hl hb, hr, Nat.succ_mul, Nat.add_comm (m * k) k, replicate_add]
    rfl

variable {r : ℚ}

theorem toInt_eq (hr : 0 ≤ r) : toInt r = ⌊r⌋ := if_neg (not_lt.mpr hr)

theorem newRateLimiter_ok (hr : 0 ≤ r) (o : ℚ) : (newRateLimiter r (toInt r) o).Ok := by
  refine ⟨hr, ?_, le_refl _⟩
  show (0 : ℚ) ≤ (toInt r : ℚ)
  rw [toInt_eq hr]
  exact_mod_cast Int.floor_nonneg.mpr hr

theorem exists_floor (hr : 1 ≤ r) : ∃ m : ℕ, 1 ≤ m ∧ ⌊r⌋ = m := by
  have ho : 1 ≤ ⌊r⌋ := Int.le_floor.mpr (by exact_mod_cast hr)
  exact ⟨⌊r⌋.toNat, by omega, by omega⟩

/-- With two requests in a message, a full bucket lets twice as many requests through. -/
theorem executed_batches (hr : 1 ≤ r) (hm : ⌊r⌋ = m) :
    executed (connection r 0 (List.replicate m (batchAt k 0))) 0 0 = m * k := by
  have hto : toInt r = m := (toInt_eq (zero_le_one.trans hr)).trans hm
  have ht : (newRateLimiter r (toInt r) 0).tokens = m := by
    simp [newRateLimiter, hto]
  have hl : (newRateLimiter r (toInt r) 0).lastUpdate = 0 := rfl
  rw [connection, serve_replicate ht hl (le_refl _), executed, countP_replicate, if_pos (by simp)]

/-- A request that is started late, and then a bucket that is full again. -/
def lateTurn (start : ℚ) : Turn := { batchAt 1 0 with start := fun _ => start, done := start }

/-- **One more than the rate**: the late request, and those of the bucket that is full again. -/
theorem executed_late (hr : 1 ≤ r) (hm : ⌊r⌋ = m) (hp : 1 ≤ m) (hd : d ≤ r⁻¹) :
    executed (connection r 0 (lateTurn d :: List.replicate m (batchAt 1 r⁻¹))) d r⁻¹ = m + 1 := by
  have ht : toInt r = m := (toInt_eq (zero_le_one.trans hr)).trans hm
  obtain ⟨n, rfl⟩ : ∃ n, m = n + 1 := ⟨m - 1, by omega⟩
  have hf := @allow_now (newRateLimiter r (toInt r) 0) 0 n (by simp [newRateLimiter, ht]) rfl
    (le_refl _)
  have hfull :
    (({ newRateLimiter r (toInt r) 0 with tokens := n } : RateLimiter).refill r⁻¹).tokens =
      (n + 1 : ℕ) := by
    have hg : r⁻¹ * r = 1 := inv_mul_cancel₀ (by linarith)
    simp [newRateLimiter, refill, ht, hg]
  have hrest : serve { newRateLimiter r (toInt r) 0 with tokens := n }
      (List.replicate (n + 1) (batchAt 1 r⁻¹)) = List.replicate (n + 1) r⁻¹ := by
    rw [replicate_succ]
    rw [← serve_refill]
    have h := serve_replicate (k := 1) hfull rfl (min_le_right _ _)
    rwa [Nat.mul_one] at h
  have htimed : connection r 0 (lateTurn d :: List.replicate (n + 1) (batchAt 1 r⁻¹))
      = d :: List.replicate (n + 1) r⁻¹ := by
    rw [connection, serve, handleMessage_requests, handleMessage_eq]
    show (List.range (if ((newRateLimiter r (toInt r) 0).allow 0).1 then 1 else 0)).map _ ++
      serve ((newRateLimiter r (toInt r) 0).allow 0).2 _ = _
    rw [hf, hrest]
    rfl
  rw [htimed, executed, countP_cons, countP_replicate]
  simp [hd]

end

/-! ## The bound -/

/-- **When the rate limit bounds requests.** With at most `k` requests in a message, each started
within `d` of the token, the bound holds only if a message has one request and it is started at
once. -/
theorem executed_le_iff {r d : ℚ} (hr : 1 ≤ r) (hd : 0 ≤ d) (k : ℕ) :
    (∀ opened turns, Timed opened turns → (∀ t ∈ turns, t.Within k d) →
      ∀ a b, a ≤ b → (executed (connection r opened turns) a b : ℚ) ≤ ⌊r⌋ + r * (b - a)) ↔
    k = 0 ∨ k = 1 ∧ d = 0 := by
  obtain ⟨m, hp, hm⟩ := exists_floor hr
  constructor
  · intro h
    have hk : k ≤ 1 := by
      have hb := h 0 (List.replicate m (batchAt k 0)) timed_replicate
        (fun t ht => eq_of_mem_replicate ht ▸ batchAt_within hd) 0 0 (le_refl 0)
      rw [executed_batches hr hm, hm, sub_self, mul_zero] at hb
      have hle : m * k ≤ m * 1 := by
        rw [Nat.mul_one]
        exact_mod_cast hb
      exact Nat.le_of_mul_le_mul_left hle hp
    rcases Nat.le_one_iff_eq_zero_or_eq_one.mp hk with rfl | rfl
    · exact .inl rfl
    refine .inr ⟨rfl, ?_⟩
    have hrp : 0 < r := by linarith
    have hl : min d r⁻¹ ≤ r⁻¹ := min_le_right _ _
    have hs : 0 ≤ min d r⁻¹ := le_min hd (inv_nonneg.mpr hrp.le)
    have htimed : Timed 0 (lateTurn (min d r⁻¹) :: List.replicate m (batchAt 1 r⁻¹)) :=
      ⟨le_refl 0, hs, fun _ _ => ⟨hs, le_refl _⟩, timed_replicate.mono hl⟩
    have hw : ∀ t ∈ lateTurn (min d r⁻¹) :: List.replicate m (batchAt 1 r⁻¹), t.Within 1 d := by
      intro t ht
      rcases mem_cons.mp ht with rfl | ht
      · exact ⟨Nat.le_refl 1, fun _ _ => (min_le_left _ _).trans (le_of_eq (zero_add d).symm)⟩
      · exact eq_of_mem_replicate ht ▸ batchAt_within hd
    have hb := h 0 _ htimed hw (min d r⁻¹) r⁻¹ hl
    rw [executed_late hr hm hp hl, hm, mul_sub, mul_inv_cancel₀ hrp.ne'] at hb
    push_cast at hb
    -- The bound leaves no room for a delay.
    have hzero : min d r⁻¹ ≤ 0 := by
      by_contra hlt
      have := mul_pos hrp (not_le.mp hlt)
      linarith
    rcases min_le_iff.mp hzero with hle | hle
    · exact le_antisymm hle hd
    · exact absurd (inv_pos.mpr hrp) (not_lt.mpr hle)
  · intro h opened turns htimed hturns a b hab
    have hr0 : 0 ≤ r := zero_le_one.trans hr
    have hturns' : ∀ t ∈ turns, t.Within 1 0 := by
      intro t ht
      rcases h with rfl | ⟨rfl, rfl⟩
      · exact ⟨(hturns t ht).1.trans (Nat.zero_le 1), fun i hi => absurd hi (by
          have := (hturns t ht).1
          omega)⟩
      · exact hturns t ht
    have hb := countP_le_burst (newRateLimiter_ok hr0 opened) hab htimed hturns'
    rw [← toInt_eq hr0]
    exact hb

theorem executed_le_fails : ¬ ∀ opened turns, Timed opened turns → ∀ a b, a ≤ b →
      (executed (connection 1 opened turns) a b : ℚ) ≤ ⌊(1 : ℚ)⌋ + 1 * (b - a) := by
  intro h
  have hb := h 0 (List.replicate 1 (batchAt 2 0)) timed_replicate 0 0 (le_refl 0)
  rw [executed_batches (le_refl 1) (by simp)] at hb
  norm_num at hb

theorem executed_le_single :
    (executed (connection 1 0 (List.replicate 3 (batchAt 1 0))) 0 2 : ℚ) ≤ ⌊(1 : ℚ)⌋ +
      1 * (2 - 0) :=
  (executed_le_iff (le_refl 1) (le_refl 0) 1).mpr (.inr ⟨rfl, rfl⟩) 0 _ timed_replicate
    (fun _ ht => eq_of_mem_replicate ht ▸ batchAt_within (le_refl 0)) 0 2 (by norm_num)

end GoPosix.Daemon
