import GoPosix.Sed.Basic

/-!
# Ranges of lines

The lines that two addresses select. The engine keeps its notes about a range apart from the line at
which it began, and asks a regular expression whether the range ends with the line at which it has
just begun. So does the automaton `selects` if it is `eager`; POSIX asks for the other one.
-/

namespace GoPosix.Sed

open Bytes List Engine

/-! ## Addresses -/

inductive Addr where
  | line (n : Nat)
  | last
  | regexp (re : Regexp)

/-- The second address may be counted from the first line. -/
inductive End where
  | addr (a : Addr)
  | plus (n : Nat)

structure Range where
  first : Addr
  stop : End

def Addr.code : Addr → Address
  | line n => .line n 0
  | last => .last
  | regexp re => .regexp (some re)

def End.code : End → Address
  | addr a => a.code
  | plus n => .line 0 n

/-- Line `n` is one of the address. -/
def Addr.hits (n : Nat) (text : Bytes) (isLast : Bool) : Addr → Bool
  | line k => n = k
  | last => isLast
  | regexp re => re.matchString text

/-- The line that an address counted from line `n` stands for. -/
def End.target (n : Nat) : End → Nat
  | addr _ => 0
  | plus k => n + k

/-- A range ends with line `n`, which is not its first one. -/
def End.hits (target n : Nat) (text : Bytes) (isLast : Bool) : End → Bool
  | addr a => a.hits n text isLast
  | plus _ => n = target

/-- A range ends with the line `n` that it begins with. -/
def End.single (eager : Bool) (n : Nat) (text : Bytes) (isLast : Bool) : End → Bool
  | addr (.line k) => k ≤ n
  | addr a => eager && a.hits n text isLast
  | plus k => k = 0

/-! ## Selections -/

/-- Whether a range is open behind line `n`, and the target of its end. -/
def Range.next (r : Range) (eager : Bool) (open? : Option Nat) (n : Nat) (text : Bytes)
    (isLast : Bool) : Option Nat :=
  match open? with
  | some target => if r.stop.hits target n text isLast then none else some target
  | none =>
    if r.first.hits n text isLast ∧ r.stop.single eager n text isLast = false
      then some (r.stop.target n) else none

def selects (eager : Bool) (r : Range) : (open? : Option Nat) → (n : Nat) → List Bytes → List Bool
  | _, _, [] => []
  | open?, n, l :: ls => (open?.isSome || r.first.hits n l ls.isEmpty) ::
      selects eager r (r.next eager open? n l ls.isEmpty) (n + 1) ls

def Engine.select (r : Range) (key : Nat) : Engine → List Bytes → List Bool
  | _, [] => []
  | e, l :: ls =>
    let (hit, e) := shouldRun ⟨some r.first.code, some r.stop.code, false, key⟩
      { e with patSpace := l, lineNum := e.lineNum + 1, isEOF := ls.isEmpty }
    hit :: select r key e ls

/-- Line `n` begins a range, if there is such a line. -/
def Range.Begins (r : Range) (n : Nat) : List Bytes → Prop
  | [] => True
  | l :: ls => r.first.hits n l ls.isEmpty = true

/-- Behind a range that ends with its first line too early, another one begins. -/
def Range.Unharmed (r : Range) : (open? : Option Nat) → (n : Nat) → List Bytes → Prop
  | _, _, [] => True
  | open?, n, l :: ls =>
    (r.next true open? n l ls.isEmpty ≠ r.next false open? n l ls.isEmpty → r.Begins (n + 1) ls) ∧
      r.Unharmed (r.next false open? n l ls.isEmpty) (n + 1) ls

/-! ## The engine and the eager automaton -/

variable {r : Range} {key : Nat} {open? : Option Nat} {e : Engine}

/-- What is noted about the first address in front of line `n`. -/
def Addr.Noted (used : Bool) (n : Nat) (begun : Bool) : Addr → Prop
  | line k => (used = true ↔ k < n) ∧ (begun = true → k < n)
  | _ => True

/-- What is noted about the second one, if a range is open. -/
def End.Noted (limit n target : Nat) : End → Prop
  | addr (.line k) => n ≤ k
  | addr _ => True
  | plus k => 0 < k ∧ n ≤ target ∧ limit = target

structure Notes (r : Range) (key : Nat) (open? : Option Nat) (n : Nat) (e : Engine) : Prop where
  active : e.addrState key = open?.isSome
  first : r.first.Noted (e.matchedLineAddrs key) n open?.isSome
  stop : ∀ target ∈ open?, r.stop.Noted (e.addr2Line key) n target

theorem Addr.Noted.mono {a : Addr} {m : Nat} (h : a.Noted u n true) (hn : n ≤ m) (b : Bool) :
    a.Noted u m b := by
  cases a <;> grind [Noted]

theorem matchStart_code (a : Addr) (h : a.Noted (e.matchedLineAddrs key) e.lineNum false) : ∃ re u,
    e.matchStart a.code key =
      (a.hits e.lineNum e.patSpace e.isEOF, { e with lastRegex := re, matchedLineAddrs := u }) ∧
    a.Noted (u key) (e.lineNum + 1) (a.hits e.lineNum e.patSpace e.isEOF) := by
  cases a with
  | line k =>
    unfold matchStart Addr.code
    dsimp only
    split_ifs <;> refine ⟨_, _, Prod.ext ?_ rfl, ?_⟩ <;> grind [Addr.hits, Addr.Noted]
  | last => exact ⟨_, _, rfl, trivial⟩
  | regexp re => exact ⟨_, _, rfl, trivial⟩

/-- The end of an open range, from the number that a `+N` address has been set to. -/
def End.reached (n limit : Nat) (text : Bytes) (isLast : Bool) : End → Bool
  | .addr (.line k) => k ≤ n
  | .addr a => a.hits n text isLast
  | .plus k => k = 0 ∨ limit ≤ n

theorem matchEnd_code (stop : End) (e : Engine) : ∃ re, e.matchEnd stop.code key =
    (stop.reached e.lineNum (e.addr2Line key) e.patSpace e.isEOF, { e with lastRegex := re }) := by
  cases stop with
  | addr a => cases a <;> exact ⟨_, rfl⟩
  | plus k => exact ⟨e.lastRegex, Prod.ext (by grind [matchEnd, End.code, End.reached]) rfl⟩

theorem openRange_code (stop : End) (e : Engine) : ∃ limit, e.openRange stop.code key = { e with
      addrState := Function.update e.addrState key true, addr2Line := limit } ∧
    ∀ k, stop = .plus k → 0 < k → limit key = stop.target e.lineNum := by
  cases stop with
  | addr a => cases a <;> exact ⟨_, rfl, by simp⟩
  | plus k =>
    by_cases hk : 0 < k
    · exact ⟨_, if_pos hk, by simp [End.target]⟩
    · exact ⟨_, if_neg hk, by grind⟩

theorem closeRange_notes {target : Nat} (hactive : e.addrState key = true)
    (hf : r.first.Noted (e.matchedLineAddrs key) (e.lineNum + 1) true)
    (hp : ∀ k, r.stop = .plus k → 0 < k → e.addr2Line key = target) :
    Notes r key (if r.stop.reached e.lineNum (e.addr2Line key) e.patSpace e.isEOF then none
      else some target)
      (e.lineNum + 1) (e.closeRange r.stop.code key) ∧ (e.closeRange r.stop.code key).lineNum =
          e.lineNum := by
  obtain ⟨re, h⟩ := @matchEnd_code key r.stop e
  rw [closeRange, h]
  dsimp only
  split_ifs with he
  · exact ⟨⟨by simp, hf.mono (Nat.le_refl _) _, by simp⟩, rfl⟩
  · refine ⟨⟨hactive, hf, ?_⟩, rfl⟩
    obtain ⟨first, (k | _ | re) | k⟩ := r <;> grind [End.reached, End.Noted]

/-- **One line**: the engine selects it exactly if the range does, and notes the same. -/
theorem Notes.shouldRun (h : Notes r key open? e.lineNum e) :
    let res := e.shouldRun ⟨some r.first.code, some r.stop.code, false, key⟩
    res.1 = (open?.isSome || r.first.hits e.lineNum e.patSpace e.isEOF) ∧
      Notes r key (r.next true open? e.lineNum e.patSpace e.isEOF) (e.lineNum + 1) res.2 ∧
      res.2.lineNum = e.lineNum := by
  obtain ⟨hactive, hf, hstop⟩ := h
  simp only [Engine.shouldRun, Engine.matchRange, Engine.beginRange, Bool.bne_false, hactive]
  cases open? with
  | some target =>
    have hstop := hstop target rfl
    have he : r.stop.reached e.lineNum (e.addr2Line key) e.patSpace e.isEOF
        = r.stop.hits target e.lineNum e.patSpace e.isEOF := by
      obtain ⟨first, (k | _ | re) | k⟩ := r <;> grind [End.reached, End.hits, Addr.hits, End.Noted]
    refine ⟨rfl, ?_⟩
    have hc := @closeRange_notes r key e target hactive (hf.mono (Nat.le_succ _) _)
      (by grind [End.Noted])
    rwa [he] at hc
  | none =>
    obtain ⟨re, u, hsta, hu⟩ := matchStart_code r.first hf
    simp only [hsta]
    refine ⟨(Bool.false_or _).symm, ?_⟩
    by_cases hh : r.first.hits e.lineNum e.patSpace e.isEOF = true
    · rw [hh] at hu
      obtain ⟨limit, ho, hl⟩ :=
        @openRange_code key r.stop { e with lastRegex := re, matchedLineAddrs := u }
      have he : r.stop.reached e.lineNum (limit key) e.patSpace e.isEOF
          = r.stop.single true e.lineNum e.patSpace e.isEOF := by
        obtain ⟨first, (k | _ | re) | k⟩ := r <;> grind [End.reached, End.single, End.target]
      have hc := @closeRange_notes r key { e with
        lastRegex := re, matchedLineAddrs := u, addrState := Function.update e.addrState key true
        addr2Line := limit } (r.stop.target e.lineNum) (by simp) hu hl
      simp only [he] at hc
      simp only [hh, Range.next, ho]
      cases hs : r.stop.single true e.lineNum e.patSpace e.isEOF <;> simpa [hs] using hc
    · simp only [hh, Range.next]
      exact ⟨⟨hactive, by simpa [hh] using hu, by simp⟩, rfl⟩

theorem select_eq_selects (ls : List Bytes) : ∀ {open? : Option Nat} {e : Engine},
    Notes r key open? (e.lineNum + 1) e →
      e.select r key ls = selects true r open? (e.lineNum + 1) ls := by
  induction ls with
  | nil => exact fun _ => rfl
  | cons l ls ih =>
    intro open? e h
    obtain ⟨hh, hn, hl⟩ := @Notes.shouldRun r key open?
      { e with patSpace := l, lineNum := e.lineNum + 1, isEOF := ls.isEmpty }
        ⟨h.active, h.first, h.stop⟩
    have ht := ih (by rw [hl]; exact hn)
    rw [hl] at ht
    exact congrArg₂ cons hh ht

/-! ## Where the two part -/

theorem Range.next_ne (h : r.next true open? n l b ≠ r.next false open? n l b) :
    r.next true open? n l b = none ∧ r.next false open? n l b = some 0 ∧
      ∀ m l b, r.first.hits m l b = true →
          r.next true none m l b = r.next false (some 0) m l b := by
  obtain ⟨first, (k | _ | re) | k⟩ :=
    r <;> cases open? <;> grind [next, End.single, End.hits, End.target]

/-- Both ways to close a range select the same lines exactly if it is unharmed by them. -/
theorem selects_eq_iff (ls : List Bytes) :
    (∀ open? n, selects true r open? n ls = selects false r open? n ls ↔ r.Unharmed open? n ls) ∧
    ((∀ m l b, r.first.hits m l b = true → r.next true none m l b = r.next false (some 0) m l b) →
      ∀ n, selects true r none n ls = selects false r (some 0) n ls ↔ r.Begins n ls ∧
          r.Unharmed (some 0) n ls) := by
  induction ls with
  | nil => simp [selects, Range.Unharmed, Range.Begins]
  | cons l ls ih =>
    constructor
    · intro open? n
      rw [selects, selects, Range.Unharmed, List.cons.injEq, and_iff_right rfl]
      by_cases hn : r.next true open? n l ls.isEmpty = r.next false open? n l ls.isEmpty
      · rw [hn, ih.1, and_iff_right fun h => absurd rfl h]
      · obtain ⟨he, hl, hs⟩ := Range.next_ne hn
        rw [he, hl, ih.2 hs, forall_prop_of_true (by simp)]
    · intro hs n
      rw [selects, selects, Range.Unharmed, List.cons.injEq, Range.Begins]
      by_cases hh : r.first.hits n l ls.isEmpty = true
      · rw [hs n l _ hh, ih.1]
        simp [Range.next]
      · simp [hh]

def fromAToA : Range :=
  have re : Regexp := ⟨fun s => s = str "a", fun s _ => s, fun _ => none, fun _ => []⟩
  ⟨.regexp re, .addr (.regexp re)⟩

end GoPosix.Sed
