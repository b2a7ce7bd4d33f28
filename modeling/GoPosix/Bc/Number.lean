import GoPosix.Lib.Runtime
import GoPosix.Lib.Effects

/-!
# The numbers of bc

The arithmetic, the reading and the printing of numbers in `pkg/bc/bc.go` and `pkg/common/rat.go`. A
`big.Rat` is a `Rat`, a `big.Int` an `Int`, and an `int` an `Int` with `wrap64` where it can leave
its range. A zero divisor is a panic.

Three things are left open in `Host`: how many digits a fraction has in another base, the square
root, and the length of a line. Texts are lists of characters; numbers are ASCII, so that lengths
and indices are those of the source.
-/

namespace GoPosix.Bc

open Effects MachineInt

/-- What bc takes from floating point arithmetic and from its environment. -/
structure Host where
  /-- `int(math.Ceil(float64(scale) * (math.Log(10) / math.Log(float64(obase)))))`. -/
  printScale : (obase scale : Int) → Int
  /-- The square root of a rational in `big.Float`s of the precision, as a rational again. -/
  sqrt : (prec : Nat) → Rat → Rat
  /-- `BC_LINE_LENGTH` where it is a number, or else 70. -/
  lineLength : Int

/-- A host without other bases and square roots, and with lines of the usual length. -/
def plainHost : Host := ⟨fun _ scale => scale, fun _ r => r, 70⟩

/-! ## Arithmetic -/

def quo (a b : Rat) : Except Stop Rat := if b = 0 then .error .panic else .ok (a / b)

theorem quo_of_ne_zero (a : Rat) (hb : b ≠ 0) : quo a b = .ok (a / b) := if_neg hb

/-- `RatToInt64`: toward zero, and the lowest 64 bits of that. -/
def ratToInt64 (r : Rat) : Int := wrap64 (r.num.tdiv r.den)

/-- `RatTruncate`: toward zero, to `scale` decimal places. -/
def ratTruncate (r : Rat) (scale : Int) : Rat :=
  if r = 0 then 0
  else
    let factor : Int := 10 ^ scale.toNat
    let scaled := r * factor
    (scaled.num.tdiv scaled.den : Int) / (factor : Rat)

/-- The loop of `ratPower`. An `int64` is halved to 0 in fewer than 64 turns. -/
def powerLoop : Nat → (exponent : Int) → (base res : Rat) → Rat
  | 0, _, _, res => res
  | fuel + 1, exponent, base, res =>
    if 0 < exponent then
      powerLoop fuel (exponent.tdiv 2) (base * base)
        (if exponent.tmod 2 = 1 then res * base else res)
    else res

/-- **Square and multiply** gives the power, with fuel for as many turns as the exponent has binary
digits. -/
theorem powerLoop_eq {f e : Nat} (h : e < 2 ^ f) (base r : Rat) :
    powerLoop f e base r = r * base ^ e := by
  induction f generalizing e base r with
  | zero =>
    obtain rfl : e = 0 := by omega
    simp [powerLoop]
  | succ f ih =>
    unfold powerLoop
    split
    · have hh : e / 2 < 2 ^ f := by omega
      have hd : (e : Int).tdiv 2 = (e / 2 : Nat) := (Int.ofNat_tdiv e 2).symm
      have hr : (e : Int).tmod 2 = (e % 2 : Nat) := (Int.ofNat_tmod e 2).symm
      rw [hd, ih hh]
      -- the power of the square, and once more the base if the exponent is odd
      have hp : base ^ e = (base * base) ^ (e / 2) * base ^ (e % 2) := by
        rw [← pow_two, ← pow_mul, ← pow_add, Nat.div_add_mod]
      rw [hp, hr]
      rcases Nat.mod_two_eq_zero_or_one e with hm | hm
      · rw [hm, if_neg (by decide), pow_zero, mul_one]
      · rw [hm, if_pos Nat.cast_one]
        ring
    · next hzero =>
      obtain rfl : e = 0 := by omega
      simp

/-- `ratPower`. A negative exponent is negated as an `int64`, which leaves the least one as it is;
its loop then makes no turn. -/
def ratPower (r : Rat) (exponent : Int) : Except Stop Rat :=
  if exponent = 0 then .ok 1
  else if exponent < 0 then
    if r = 0 then .ok 0
    else quo 1 (powerLoop 64 (wrap64 (-exponent)) r 1)
  else .ok (powerLoop 64 exponent r 1)

/-- `idxString`: an array index, toward zero. The source makes a key of its digits; here the number
is the key. -/
def idxString (r : Rat) : Int := r.num.tdiv r.den

/-! ## Reading -/

/-- `digitVal`: the value of a digit, and -1 for another character. -/
def digitVal (c : Char) : Int :=
  if '0' ≤ c ∧ c ≤ '9' then c.toNat - '0'.toNat
  else if 'A' ≤ c ∧ c ≤ 'Z' then c.toNat - 'A'.toNat + 10
  else if 'a' ≤ c ∧ c ≤ 'z' then c.toNat - 'a'.toNat + 10
  else -1

/-- The digits before the dot, behind those that make `intVal`. One that is too large counts as the
largest one, unless it stands alone. -/
def intLoop (ibase : Int) (isSingleDigit : Bool) (intVal : Int) : List Char → Int
  | [] => intVal
  | c :: s =>
    let d := digitVal c
    if d < 0 then intLoop ibase isSingleDigit intVal s
    else
      let d := if ¬ isSingleDigit ∧ ibase ≤ d then ibase - 1 else d
      intLoop ibase isSingleDigit (intVal * ibase + d) s

/-- The digits behind the dot, behind those that make `fracVal`. -/
def fracLoop (ibase : Int) : (power : Int) → (fracVal : Rat) → List Char → Except Stop Rat
  | _, fracVal, [] => .ok fracVal
  | power, fracVal, c :: s =>
    let d := digitVal c
    if d < 0 then fracLoop ibase power fracVal s
    else do
      let d := if ibase ≤ d then ibase - 1 else d
      let power := power * ibase
      let term ← quo d power
      fracLoop ibase power (fracVal + term) s

def parseNumberInBase (s : List Char) (ibase : Int) : Except Stop Rat := do
  let s := s.map Char.toUpper
  let neg := s.head? = some '-'
  let s := if s.head? = some '-' ∨ s.head? = some '+' then s.tail else s
  let intStr := s.takeWhile (· ≠ '.')
  let dotted := s.dropWhile (· ≠ '.')
  let fracStr := dotted.tail.takeWhile (· ≠ '.')
  let trimmed := intStr.dropWhile (· = '0')
  let isSingleDigit := dotted = [] ∧ (trimmed.length = 1 ∨ trimmed.length = 0 ∧ intStr.length = 1)
  let fracVal ← fracLoop ibase 1 0 fracStr
  let res := (intLoop ibase isSingleDigit 0 intStr : Rat) + fracVal
  return if neg then -res else res

/-- The scale of a number in the program: the digits behind its dot. -/
def literalScale (s : List Char) : Int := (s.dropWhile (· ≠ '.')).tail.length

/-! ## Printing -/

/-- `string(rune(z))`: what is not a character becomes the replacement character. -/
def runeChar (z : Int) : Char :=
  let w := Int.bmod z (2 ^ 32)
  if 0 ≤ w ∧ w.toNat.isValidChar then Char.ofNat w.toNat else '�'

def decimal (z : Int) : List Char :=
  if z < 0 then '-' :: Nat.toDigits 10 z.natAbs else Nat.toDigits 10 z.natAbs

/-- `formatDigit`: one character up to base 16, and else a decimal number of two digits. -/
def formatDigit (val obase : Int) : List Char :=
  if obase ≤ 16 then
    if val < 10 then [runeChar ('0'.toNat + val)] else [runeChar ('A'.toNat + val - 10)]
  else
    let text := decimal val
    if text.length < 2 then '0' :: text else text

/-- The digits before the dot, the last one first. In base 1 the loop does not end, and in a
negative base it ends after one turn. -/
def digitLoop (obase : Int) : Nat → (temp : Int) → Except Stop (List (List Char))
  | 0, _ => .error .timeout
  | fuel + 1, temp =>
    if 0 < temp then
      if obase = 0 then .error .panic
      else do
        let digits ← digitLoop obase fuel (temp / obase)
        return formatDigit (temp % obase) obase :: digits
    else .ok []

/-- In a base other than 1 the loop ends: a number below `2 ^ fuel` has no more than `fuel`
digits. -/
theorem digitLoop_ne_timeout (hbase : obase ≠ 1) (h : temp < 2 ^ f) :
    digitLoop obase (f + 1) temp ≠ .error .timeout := by
  induction f generalizing temp with
  | zero =>
    unfold digitLoop
    rw [if_neg (by omega)]
    exact nofun
  | succ f ih =>
    unfold digitLoop
    split
    · next hpos =>
      split
      · intro heq
        cases heq
      next hne =>
      have hp : (0 : Int) < 2 ^ f := Int.pow_pos (by decide)
      have hd : temp / obase < 2 ^ f := by
        rcases Int.lt_or_lt_of_ne hne with hn | hb
        · exact (Int.ediv_nonpos_of_nonneg_of_nonpos hpos.le hn.le).trans_lt hp
        · refine Int.ediv_lt_of_lt_mul hb (h.trans_le ?_)
          rw [pow_succ]
          exact Int.mul_le_mul_of_nonneg_left (by omega) hp.le
      intro heq
      have hr := ih hd
      generalize digitLoop obase (f + 1) (temp / obase) = o at hr heq
      cases o with
      | error e =>
        cases heq
        exact hr rfl
      | ok d => cases heq
    · exact nofun

def fracDigits (obase : Int) : (n : Nat) → (fracTemp : Rat) → List (List Char)
  | 0, _ => []
  | n + 1, fracTemp =>
    let fracTemp := fracTemp * obase
    let digit := fracTemp.num / fracTemp.den
    formatDigit digit obase :: fracDigits obase n (fracTemp - digit)

def join (sep : List Char) (parts : List (List Char)) : List Char := List.intercalate sep parts

def formatZero (obase scale : Int) (forceNeg : Bool) : List Char :=
  if 0 < scale ∧ forceNeg then
    if 16 < obase then "-.".toList ++ join [' '] (List.replicate scale.toNat ['0', '0'])
    else "-.".toList ++ List.replicate scale.toNat '0'
  else ['0']

/-- The text before the dot. A zero there is left out before a fraction. -/
def formatInt (obase : Int) (intPart printScale : Int) (digits : List (List Char)) : List Char :=
  let digits := if digits = [] then [['0']] else digits.reverse
  if intPart = 0 ∧ 0 < printScale then []
  else if 16 < obase then (digits.map (' ' :: ·)).flatten
  else digits.flatten

def formatRat (host : Host) (r : Rat) (obase scale : Int) (forceNeg : Bool) :
    Except Stop (List Char) :=
  if r = 0 then .ok (formatZero obase scale forceNeg)
  else do
    let neg := r < 0 ∨ forceNeg
    let sign := if neg then ['-'] else []
    let val := |r|
    let intPart : Int := val.num / val.den
    let fracPart : Rat := (val.num % val.den : Int) / (val.den : Rat)
    let printScale := if obase ≠ 10 ∧ 0 < scale then host.printScale obase scale else scale
    let digits ← digitLoop obase (intPart.natAbs.log2 + 2) intPart
    let intStr := formatInt obase intPart printScale digits
    if printScale ≤ 0 then return sign ++ intStr
    else
      let sep := if 16 < obase then [' '] else []
      return sign ++ intStr ++ ['.'] ++ join sep (fracDigits obase printScale.toNat fracPart)

/-- `printWrapped`, which writes one byte at a time, as a character of its own. -/
def wrapLoop (lineLength : Int) : (col : Int) → List Char → List Char
  | _, [] => []
  | col, ch :: s =>
    if ch = '\n' then ch :: wrapLoop lineLength 0 s
    else if 1 < lineLength ∧ col = lineLength - 2 then
      '\\' :: '\n' :: ch :: wrapLoop lineLength 1 s
    else ch :: wrapLoop lineLength (col + 1) s

def byteChars (s : List Char) : List Char :=
  s.flatMap fun c => (String.utf8EncodeChar c).map fun b => Char.ofNat b.toNat

def printWrapped (host : Host) (s : List Char) : List Char :=
  wrapLoop host.lineLength 0 (byteChars s)

/-- `unescapeBcString`. Behind a backslash that means nothing, the character is dropped. -/
def unescapeBcString : List Char → List Char
  | [] => []
  | [c] => [c]
  | c :: d :: s =>
    if c = '\\' then
      let ch := match d with
        | 'a' => '\x07'
        | 'b' => '\x08'
        | 'f' => '\x0c'
        | 'n' => '\n'
        | 'r' => '\r'
        | 't' => '\t'
        | '"' => '"'
        | _ => '\\'
      ch :: unescapeBcString s
    else c :: unescapeBcString (d :: s)

/-! ## The built-in functions -/

/-- `valLength`: the number of significant digits. -/
def valLength (host : Host) (r : Rat) (scale : Int) : Except Stop Int :=
  if r = 0 then .ok (if 0 < scale then scale else 1)
  else do
    let s := (← formatRat host r 10 scale (r < 0)).filter (· ≠ '-')
    let intStr := (s.takeWhile (· ≠ '.')).dropWhile (· = '0')
    let fracStr := (s.dropWhile (· ≠ '.')).tail.takeWhile (· ≠ '.')
    return if 0 < intStr.length then intStr.length + fracStr.length
      else (fracStr.dropWhile (· = '0')).length

/-- `valSqrt`: the root and its scale. The precision is an unsigned number of 64 bits, and
`SetPrec` takes no more than 32. -/
def valSqrt (host : Host) (r : Rat) (xValScale globalScale : Int) : Except Stop (Rat × Int) :=
  if r < 0 then .error (.error "square root of negative number")
  else
    let targetScale := max xValScale globalScale
    if r = 0 then .ok (0, targetScale)
    else
      let prec := ((targetScale * 4 + 128) % 2 ^ 64).toNat
      .ok (host.sqrt (min (max prec 256) (2 ^ 32 - 1)) r, targetScale)

/-- `arrayLength`: one more than the largest index that is an `int`. -/
def arrayLength (indices : List Int) : Int :=
  let maxIdx :=
    indices.foldl (fun maxIdx idx => if wrap64 idx = idx ∧ maxIdx < idx then idx else maxIdx) (-1)
  wrap64 (maxIdx + 1)

end GoPosix.Bc
