import Mathlib.FieldTheory.Finite.Basic

/-!
# factor

The primality test and the search for a factor of `pkg/factor/factor.go`. A `uint64` is a number
below `2 ^ 64`. `bits.Div64` panics unless the high word of the product is below the divisor: it
always is, as one of the factors is (`mulMod_of_lt`), or as both are small.
-/

namespace GoPosix.Factor

/-- Why there is no result: a panic of `%`, one of `bits.Div64`, or a loop that is not over. -/
inductive Stop
  | mod | div64 | fuel

def div64 (hi lo y : ℕ) : Except Stop (ℕ × ℕ) :=
  if y ≤ hi then .error .div64 else .ok ((hi * 2 ^ 64 + lo) / y, (hi * 2 ^ 64 + lo) % y)

def mulMod (a b m : ℕ) : Except Stop ℕ := do
  let (_, rem) ← div64 (a * b / 2 ^ 64) (a * b % 2 ^ 64) m
  return rem

def powLoop (result base exp mod : ℕ) : Except Stop ℕ :=
  if exp = 0 then .ok result
  else do
    let result ← (if exp % 2 = 1 then mulMod result base mod else .ok result)
    let base ← mulMod base base mod
    powLoop result base (exp / 2) mod

def powMod (base exp mod : ℕ) : Except Stop ℕ :=
  if mod = 0 then .error .mod else powLoop 1 (base % mod) exp mod

/-- The loop that writes `n - 1` as `d * 2 ^ s`. It would not end at zero, which is never
`n - 1`. -/
def halve (d s : ℕ) : ℕ × ℕ := if d % 2 = 0 ∧ d ≠ 0 then halve (d / 2) (s + 1) else (d, s)

def composite (n : ℕ) : (rounds x : ℕ) → Except Stop Bool
  | 0, _ => .ok true
  | rounds + 1, x => do
    let x ← mulMod x x n
    if x = n - 1 then return false else composite n rounds x

def tryBases (n d s : ℕ) : (bases : List ℕ) → Except Stop Bool
  | [] => .ok true
  | a :: bases =>
    if n ≤ a then .ok true
    else do
      let x ← powMod a d n
      if x = 1 ∨ x = n - 1 then tryBases n d s bases
      else if ← composite n (s - 1) x then return false
      else tryBases n d s bases

def millerRabin (n : ℕ) : Except Stop Bool :=
  if n < 2 then .ok false
  else if n = 2 ∨ n = 3 then .ok true
  else if n % 2 = 0 then .ok false
  else tryBases n (halve (n - 1) 0).1
    (halve (n - 1) 0).2 [2, 3, 5, 7, 11, 13, 17, 19, 23, 29, 31, 37]

def gcd (a b : ℕ) : ℕ := if b = 0 then a else gcd b (a % b)
termination_by b
decreasing_by exact Nat.mod_lt _ (by omega)

def next (n c x : ℕ) : Except Stop ℕ := do
  let r ← mulMod x x n
  return (r + c) % 2 ^ 64 % n

def cycle (n c : ℕ) : (fuel x y d : ℕ) → Except Stop ℕ
  | 0, _, _, _ => .error .fuel
  | fuel + 1, x, y, d =>
    if d = 1 then do
      let x ← next n c x
      let y ← next n c (← next n c y)
      cycle n c fuel x y (gcd (if x > y then x - y else y - x) n)
    else .ok d

/-- The outer loop, with as much fuel for each of its turns. -/
def search (n steps : ℕ) : (fuel c : ℕ) → Except Stop ℕ
  | 0, _ => .error .fuel
  | fuel + 1, c => do
    let d ← cycle n c steps 2 2 1
    if d ≠ n then return d else search n steps fuel ((c + 1) % 2 ^ 64)

def pollardRho (fuel n : ℕ) : Except Stop ℕ :=
  if n % 2 = 0 then .ok 2 else if n % 3 = 0 then .ok 3 else search n fuel fuel 1

/-- `factorize`, with calls nested at most `fuel` deep. -/
def factorize : (fuel n : ℕ) → Except Stop (List ℕ)
  | 0, _ => .error .fuel
  | fuel + 1, n =>
    if n < 2 then .ok []
    else do
      if ← millerRabin n then return [n]
      let d ← pollardRho fuel n
      return (← factorize fuel d) ++ (← factorize fuel (n / d))

/-- The numbers for which `factorize` calls `pollardRho`. -/
def rhoCalls : (fuel n : ℕ) → List ℕ
  | 0, _ => []
  | fuel + 1, n =>
    if n < 2 then []
    else match millerRabin n with
      | .ok false => n :: match pollardRho fuel n with
        | .ok d => rhoCalls fuel d ++ rhoCalls fuel (n / d)
        | .error _ => []
      | _ => []

/-! ## Products and powers -/

theorem bind_eq_ok {f : α → Except Stop β} {b : β} :
    x >>= f = .ok b ↔ ∃ a, x = .ok a ∧ f a = .ok b := by
  cases x with
  | error e => exact iff_of_false nofun nofun
  | ok a => simp [bind, Except.bind]

section

variable {a b m n x : ℕ}

theorem mulMod_eq (h : a * b < m * 2 ^ 64) : mulMod a b m = .ok (a * b % m) := by
  unfold mulMod div64
  rw [if_neg (by omega), Nat.div_add_mod']
  rfl

theorem mul_lt_of_lt (ha : a ≤ 2 ^ 64) (hb : b < m) : a * b < m * 2 ^ 64 :=
  mul_comm m _ ▸ Nat.mul_lt_mul_of_le_of_lt ha hb (by decide)

theorem mulMod_of_lt (ha : a ≤ 2 ^ 64) (hb : b < m) : mulMod a b m = .ok (a * b % m) :=
  mulMod_eq (mul_lt_of_lt ha hb)

theorem mulMod_ok (h : mulMod a b m = .ok x) : x = a * b % m := by
  unfold mulMod div64 at h
  split at h
  · cases h
  · rw [Nat.div_add_mod'] at h
    cases h
    rfl

/-- Square and multiply gives the power, and never panics. -/
theorem powLoop_eq (hm : m ≤ 2 ^ 64) {result base : ℕ} (e : ℕ) (hr : result ≤ 2 ^ 64)
    (hb : base < m) :
    ∃ x, powLoop result base e m = .ok x ∧ x ≡ result * base ^ e [MOD m] ∧
      (result < m → x < m) := by
  induction e using Nat.strong_induction_on generalizing result base with
  | _ e ih =>
    unfold powLoop
    split
    · next h => exact ⟨result, rfl, by rw [h, pow_zero, mul_one], id⟩
    have hlt (k : ℕ) : k % m < m := Nat.mod_lt _ (by omega)
    have hbig : ∃ r, (if e % 2 = 1 then mulMod result base m else .ok result) = .ok r ∧ r ≤ 2 ^ 64 ∧
        r ≡ result * base ^ (e % 2) [MOD m] ∧ (result < m → r < m) := by
      rcases Nat.mod_two_eq_zero_or_one e with he | he
      · exact ⟨result, by simp [he], hr, by rw [he, pow_zero, mul_one], id⟩
      · refine ⟨result * base % m, by rw [if_pos he, mulMod_of_lt hr hb], ?_, ?_, fun _ => hlt _⟩
        · exact (hlt _).le.trans hm
        · rw [he, pow_one]
          exact Nat.mod_modEq _ _
    obtain ⟨r, hr', hle, hmod, hrl⟩ := hbig
    obtain ⟨x, hx, hxm, hxl⟩ := ih (e / 2) (by omega) hle (hlt (base * base))
    rw [hr', mulMod_of_lt (by omega) hb]
    refine ⟨x, hx, hxm.trans ?_, fun h => hxl (hrl h)⟩
    have he : base ^ e = base ^ (e % 2) * (base * base) ^ (e / 2) := by
      rw [← sq, ← pow_mul, ← pow_add, Nat.mod_add_div]
    rw [he, ← mul_assoc]
    exact hmod.mul ((Nat.mod_modEq _ _).pow _)

theorem powMod_spec (hp : 0 < m) (hm : m ≤ 2 ^ 64) (base e : ℕ) :
    ∃ x, powMod base e m = .ok x ∧ (1 < m → x = base ^ e % m) := by
  obtain ⟨x, hx, hmod, hlt⟩ := @powLoop_eq m hm 1 (base % m) e (by decide) (Nat.mod_lt _ hp)
  refine ⟨x, (if_neg hp.ne').trans hx, fun h => ?_⟩
  rw [one_mul] at hmod
  exact (Nat.mod_eq_of_lt (hlt h)).symm.trans (hmod.trans ((Nat.mod_modEq _ _).pow _))

theorem powMod_eq (h : 1 < m) (hm : m ≤ 2 ^ 64) (base e : ℕ) :
    powMod base e m = .ok (base ^ e % m) := by
  obtain ⟨x, hx, hp⟩ := powMod_spec (by omega) hm base e
  exact hp h ▸ hx

/-! ## The test -/

/-- A prime has only two square roots of 1. -/
theorem sq_ne_one (hp : n.Prime) (hx : x < n) (ho : x ≠ 1) (hm : x ≠ n - 1) :
    ¬ x * x ≡ 1 [MOD n] := by
  intro h
  rcases Nat.eq_zero_or_pos x with rfl | hpos
  · exact absurd (Nat.dvd_one.mp (Nat.modEq_zero_iff_dvd.mp h.symm)) hp.ne_one
  have hd : n ∣ (x + 1) * (x - 1) := by
    rw [← Nat.mul_self_sub_mul_self_eq]
    exact (Nat.modEq_iff_dvd' (Nat.mul_pos hpos hpos)).mp h.symm
  rcases hp.dvd_mul.mp hd with hd | hd
  · have := Nat.le_of_dvd (by omega) hd
    omega
  · have := Nat.eq_zero_of_dvd_of_lt hd (by omega)
    omega

theorem composite_spec (hn : n ≤ 2 ^ 64) (r : ℕ) (hx : x < n) : ∃ b, composite n r x = .ok b ∧
    (n.Prime → x ^ 2 ^ (r + 1) ≡ 1 [MOD n] → x ≠ 1 → x ≠ n - 1 → b = false) := by
  induction r generalizing x with
  | zero => exact ⟨true, rfl, fun hp h ho hm => absurd (sq x ▸ h) (sq_ne_one hp hx ho hm)⟩
  | succ r ih =>
    rw [composite, mulMod_of_lt (by omega) hx]
    by_cases hl : x * x % n = n - 1
    · exact ⟨false, if_pos hl, fun _ _ _ _ => rfl⟩
    obtain ⟨b, hb, hi⟩ := ih (Nat.mod_lt (x * x) (by omega))
    refine ⟨b, (if_neg hl).trans hb, fun hp h ho hm =>
      hi hp ?_ (fun hsq => sq_ne_one hp hx ho hm ?_) hl⟩
    · have hpow : x ^ 2 ^ (r + 1 + 1) = (x * x) ^ 2 ^ (r + 1) := by
        rw [← sq, ← pow_mul, ← pow_succ']
      exact ((Nat.mod_modEq _ _).pow _).trans (hpow ▸ h)
    · exact (Nat.mod_modEq _ _).symm.trans (by rw [hsq])

/-- A prime passes with all bases. -/
theorem tryBases_spec (hn : 1 < n) (hn' : n ≤ 2 ^ 64) {d s : ℕ} (bases : List ℕ) :
    ∃ b, tryBases n d s bases = .ok b ∧
      (n.Prime → d * 2 ^ s = n - 1 → 0 < s → (∀ a ∈ bases, 0 < a) → b = true) := by
  induction bases with
  | nil => exact ⟨true, rfl, fun _ _ _ _ => rfl⟩
  | cons a bases ih =>
    obtain ⟨b, hb, hi⟩ := ih
    have hr (hp : n.Prime) (hd : d * 2 ^ s = n - 1) (hs : 0 < s) (h : ∀ c ∈ a :: bases, 0 < c) : b =
        true :=
      hi hp hd hs fun c hc => h c (.tail _ hc)
    rw [tryBases, powMod_eq hn hn']
    by_cases hna : n ≤ a
    · exact ⟨true, if_pos hna, fun _ _ _ _ => rfl⟩
    rw [if_neg hna]
    by_cases ho : a ^ d % n = 1 ∨ a ^ d % n = n - 1
    · exact ⟨b, (if_pos ho).trans hb, hr⟩
    obtain ⟨c, hc, hprime⟩ := composite_spec hn' (s - 1) (Nat.mod_lt (a ^ d) (by omega : 0 < n))
    refine ⟨!c && b, (if_neg ho).trans ?_, fun hp hd hs h => ?_⟩
    · rw [hc]
      cases c
      · exact hb
      · rfl
    · have hf : a ^ (n - 1) ≡ 1 [MOD n] := by
        have hcoprime : a.Coprime n :=
          (Nat.coprime_of_lt_prime (h a (.head _)).ne' (by omega) hp).symm
        exact Nat.totient_prime hp ▸ Nat.ModEq.pow_totient hcoprime
      rw [hprime hp ?_ (fun h => ho (.inl h)) (fun h => ho (.inr h)), hr hp hd hs h]
      · rfl
      · rw [Nat.sub_add_cancel hs]
        refine ((Nat.mod_modEq _ _).pow _).trans ?_
        rw [← pow_mul, hd]
        exact hf

theorem halve_spec (d s : ℕ) :
    (halve d s).1 * 2 ^ (halve d s).2 = d * 2 ^ s ∧ s ≤ (halve d s).2 := by
  fun_induction halve d s with
  | case1 d s h ih =>
    refine ⟨ih.1.trans ?_, by omega⟩
    rw [pow_succ', ← mul_assoc, Nat.div_mul_cancel (Nat.dvd_of_mod_eq_zero h.1)]
  | case2 d s => exact ⟨rfl, le_rfl⟩

theorem millerRabin_spec (hn : n ≤ 2 ^ 64) : ∃ b, millerRabin n = .ok b ∧ (n.Prime → b = true) := by
  unfold millerRabin
  by_cases h2 : n < 2
  · exact ⟨false, if_pos h2, fun hp => absurd hp.two_le (by omega)⟩
  rw [if_neg h2]
  by_cases h3 : n = 2 ∨ n = 3
  · exact ⟨true, if_pos h3, fun _ => rfl⟩
  rw [if_neg h3]
  by_cases he : n % 2 = 0
  · refine ⟨false, if_pos he, fun hp => ?_⟩
    exact absurd (hp.eq_two_or_odd) (by omega)
  rw [if_neg he]
  obtain ⟨b, hb, hi⟩ := @tryBases_spec n (by omega) hn (halve (n - 1) 0).1 (halve (n - 1) 0).2
    [2, 3, 5, 7, 11, 13, 17, 19, 23, 29, 31, 37]
  refine ⟨b, hb, fun hp => hi hp ((halve_spec _ _).1.trans (mul_one _)) ?_ (by decide)⟩
  -- the first turn of the loop halves `n - 1`
  rw [halve, if_pos (by omega)]
  exact (halve_spec _ _).2

/-! ## The search -/

/-- What `f` is applied to. -/
def Fits (n x : ℕ) : Prop := x * x < n * 2 ^ 64

theorem next_spec (hn : 0 < n) (hn' : n ≤ 2 ^ 64) (c : ℕ) (h : Fits n x) :
    ∃ y, next n c x = .ok y ∧ Fits n y := by
  refine ⟨_, by rw [next, mulMod_eq h]; rfl, ?_⟩
  have hlt := Nat.mod_lt ((x * x % n + c) % 2 ^ 64) hn
  exact mul_lt_of_lt (hlt.le.trans hn') hlt

theorem cycle_ne_div64 (hn : 0 < n) (hn' : n ≤ 2 ^ 64) {c f y d : ℕ} (hx : Fits n x)
    (hy : Fits n y) :
    cycle n c f x y d ≠ .error .div64 := by
  induction f generalizing x y d with
  | zero => nofun
  | succ f ih =>
    unfold cycle
    split
    · obtain ⟨x₁, hx₁, hfx⟩ := next_spec hn hn' c hx
      obtain ⟨y₁, hy₁, hfy⟩ := next_spec hn hn' c hy
      obtain ⟨y₂, hy₂, hfy₂⟩ := next_spec hn hn' c hfy
      rw [hx₁, hy₁]
      change (next n c y₁ >>= _) ≠ _
      rw [hy₂]
      exact ih hfx hfy₂
    · nofun

theorem search_ne_div64 (hn : 0 < n) (hn' : n ≤ 2 ^ 64) :
    search n steps f c ≠ .error .div64 := by
  have hf : Fits n 2 := by
    unfold Fits
    omega
  induction f generalizing c with
  | zero => nofun
  | succ f ih =>
    have hc := @cycle_ne_div64 n 2 hn hn' c steps 2 1 hf hf
    unfold search
    generalize cycle n c steps 2 2 1 = d at hc ⊢
    rcases d with e | d
    · exact hc
    · by_cases hd : d = n
      · exact (if_neg (not_not.mpr hd)).trans_ne ih
      · exact (if_pos hd).trans_ne nofun

end

/-- **The test accepts every prime, no division panics, and the products and powers are exact.** -/
theorem millerRabin_of_prime {n : ℕ} (hn : n < 2 ^ 64) :
    (n.Prime → millerRabin n = .ok true) ∧ (∃ b, millerRabin n = .ok b) ∧
      (∀ fuel, pollardRho fuel n ≠ .error .div64) ∧
      (∀ base exp, powMod base exp n ≠ .error .div64 ∧
        (1 < n → powMod base exp n = .ok (base ^ exp % n))) ∧
      ∀ a b r, mulMod a b n = .ok r → r = a * b % n := by
  obtain ⟨b, hb, hprime⟩ := millerRabin_spec hn.le
  refine ⟨fun hp => hprime hp ▸ hb, ⟨b, hb⟩, fun fuel => ?_, fun base exp =>
    ⟨?_, fun h => powMod_eq h hn.le base exp⟩,
    fun a b r => mulMod_ok⟩
  · unfold pollardRho
    split_ifs
    · nofun
    · nofun
    · exact search_ne_div64 (by omega) hn.le
  · rcases Nat.eq_zero_or_pos n with rfl | hpos
    · nofun
    · obtain ⟨x, hx, -⟩ := powMod_spec hpos hn.le base exp
      exact hx.trans_ne nofun

theorem millerRabin_five : millerRabin 5 = .ok true :=
  (millerRabin_of_prime (by decide)).1 Nat.prime_five

/-! ## The factors -/

theorem gcd_eq (a b : ℕ) : gcd a b = Nat.gcd a b := by
  induction b using Nat.strong_induction_on generalizing a with
  | _ b ih =>
    unfold gcd
    split
    · next h => rw [h, Nat.gcd_zero_right]
    · rw [ih _ (Nat.mod_lt _ (by omega)), Nat.gcd_comm, ← Nat.gcd_rec, Nat.gcd_comm]

theorem cycle_ok (hd₀ : d₀ = 1 ∨ d₀ ∣ n) (h : cycle n c f x y d₀ = .ok d) :
    d ≠ 1 ∧ d ∣ n := by
  induction f generalizing x y d₀ with
  | zero => cases h
  | succ f ih =>
    unfold cycle at h
    split at h
    · simp only [bind_eq_ok] at h
      obtain ⟨x, -, y₁, -, y, -, h⟩ := h
      exact ih (.inr (gcd_eq _ n ▸ Nat.gcd_dvd_right _ n)) h
    · next hne =>
      cases h
      exact ⟨hne, hd₀.resolve_left hne⟩

theorem search_ok (h : search n steps f c = .ok d) : d ≠ 1 ∧ d ≠ n ∧ d ∣ n := by
  induction f generalizing c with
  | zero => cases h
  | succ f ih =>
    unfold search at h
    obtain ⟨d', hc, h⟩ := bind_eq_ok.mp h
    split at h
    · next hne =>
      cases h
      obtain ⟨ho, hd⟩ := cycle_ok (.inl rfl) hc
      exact ⟨ho, hne, hd⟩
    · exact ih h

/-- A number that the test does not accept is not 2 or 3. -/
theorem pollardRho_ok (hn : 2 ≤ n) (ht : millerRabin n = .ok false)
    (h : pollardRho fuel n = .ok d) :
    1 < d ∧ d < n ∧ d ∣ n := by
  have hl : n ≠ 2 ∧ n ≠ 3 := by
    constructor <;> rintro rfl <;> cases ht
  unfold pollardRho at h
  split_ifs at h
  · cases h
    omega
  · cases h
    omega
  · obtain ⟨ho, hne, hd⟩ := search_ok h
    have hle := Nat.le_of_dvd (by omega) hd
    have hp := Nat.pos_of_dvd_of_pos hd (by omega)
    omega

theorem rhoCalls_composite (h : m ∈ rhoCalls f n) : 2 ≤ m ∧ millerRabin m = .ok false := by
  induction f generalizing n with
  | zero => cases h
  | succ f ih =>
    unfold rhoCalls at h
    split at h
    · cases h
    split at h
    · next hlt _ ht =>
      rcases List.mem_cons.mp h with rfl | h
      · exact ⟨by omega, ht⟩
      · split at h
        · exact (List.mem_append.mp h).elim ih ih
        · cases h
    · cases h

/-- One call that returns: the number is taken for a prime, or it is split in two. -/
theorem factorize_cases {factors : List ℕ} (hn : 2 ≤ n)
    (h : factorize (fuel + 1) n = .ok factors) :
    (millerRabin n = .ok true ∧ factors = [n]) ∨
      ∃ d left right, millerRabin n = .ok false ∧ pollardRho fuel n = .ok d ∧
        factorize fuel d = .ok left ∧ factorize fuel (n / d) = .ok right ∧
        factors = left ++ right := by
  unfold factorize at h
  rw [if_neg (by omega)] at h
  obtain ⟨prime, htest, h⟩ := bind_eq_ok.mp h
  cases prime with
  | true =>
    cases h
    exact .inl ⟨htest, rfl⟩
  | false =>
    obtain ⟨d, hrho, h⟩ := bind_eq_ok.mp h
    obtain ⟨left, hleft, h⟩ := bind_eq_ok.mp h
    obtain ⟨right, hright, h⟩ := bind_eq_ok.mp h
    cases h
    exact .inr ⟨d, left, right, htest, hrho, hleft, hright, rfl⟩

/-- The factors multiply to the number, and each passes the test. -/
theorem factorize_ok {factors : List ℕ} (hn : 0 < n) (h : factorize fuel n = .ok factors) :
    factors.prod = n ∧ ∀ p ∈ factors, millerRabin p = .ok true := by
  induction fuel generalizing n factors with
  | zero => cases h
  | succ fuel ih =>
    rcases Nat.lt_or_ge n 2 with hlt | hge
    · rw [factorize, if_pos hlt] at h
      cases h
      exact ⟨by rw [List.prod_nil]; omega, nofun⟩
    rcases factorize_cases hge h with
      ⟨htest, rfl⟩ | ⟨d, left, right, htest, hrho, hleft, hright, rfl⟩
    · exact ⟨List.prod_singleton, by simpa using htest⟩
    · obtain ⟨hone, hlt, hdvd⟩ := pollardRho_ok hge htest hrho
      obtain ⟨hprodLeft, hprimesLeft⟩ := ih (by omega) hleft
      obtain ⟨hprodRight, hprimesRight⟩ := ih (Nat.div_pos hlt.le (by omega)) hright
      refine ⟨?_, fun p hp => (List.mem_append.mp hp).elim (hprimesLeft p) (hprimesRight p)⟩
      rw [List.prod_append, hprodLeft, hprodRight, Nat.mul_div_cancel' hdvd]

/-- **The calls are those of `factorize`**: each splits one number in two, and has to answer. -/
theorem factorize_rhoCalls {factors : List ℕ} (hn : 2 ≤ n) (h : factorize fuel n = .ok factors) :
    factors.length = (rhoCalls fuel n).length + 1 ∧
      ∀ m ∈ rhoCalls fuel n, ∃ steps d, pollardRho steps m = .ok d := by
  induction fuel generalizing n factors with
  | zero => cases h
  | succ fuel ih =>
    unfold rhoCalls
    rw [if_neg (by omega)]
    rcases factorize_cases hn h with
      ⟨htest, rfl⟩ | ⟨d, left, right, htest, hrho, hleft, hright, rfl⟩
    · rw [htest]
      exact ⟨rfl, nofun⟩
    · obtain ⟨hone, hlt, c, rfl⟩ := pollardRho_ok hn htest hrho
      -- neither part is 1, so that both give at least one factor
      have hc : 2 ≤ c := by
        by_contra hc
        have hle : d * c ≤ d * 1 := Nat.mul_le_mul_left d (by omega)
        omega
      rw [Nat.mul_div_cancel_left c (by omega)] at hright
      obtain ⟨hlenLeft, hansLeft⟩ := ih hone hleft
      obtain ⟨hlenRight, hansRight⟩ := ih hc hright
      simp only [htest, hrho, Nat.mul_div_cancel_left c (show 0 < d by omega)]
      refine ⟨by simp only [List.length_append, List.length_cons]; omega, fun m hm => ?_⟩
      rcases List.mem_cons.mp hm with rfl | hm
      · exact ⟨fuel, d, hrho⟩
      · exact (List.mem_append.mp hm).elim (hansLeft m) (hansRight m)

/-- **What is returned multiplies to the number**, and what `pollardRho` returns is a proper
divisor. -/
theorem factorize_correct {n : ℕ} (hn : 2 ≤ n) (fuel : ℕ) :
    (∀ factors, factorize fuel n = .ok factors → factors.prod = n ∧ ∀ p ∈ factors, millerRabin p =
      .ok true) ∧
      ∀ m ∈ rhoCalls fuel n, ∀ steps d, pollardRho steps m = .ok d → 1 < d ∧ d < m ∧ d ∣ m := by
  refine ⟨fun factors => factorize_ok (by omega), fun m hm steps d hd => ?_⟩
  obtain ⟨hm, ht⟩ := rhoCalls_composite hm
  exact pollardRho_ok hm ht hd

theorem factorize_four : factorize 2 4 = .ok [2, 2] ∧ [2, 2].prod = 4 :=
  ⟨rfl, ((factorize_correct (by decide) 2).1 [2, 2] rfl).1⟩

end GoPosix.Factor
