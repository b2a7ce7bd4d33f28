import GoPosix.Lib.Text

/-!
# Six bits at a time

Three bytes are four groups of six bits. `Sextet` regroups them, and `Base64` is the standard
encoding with padding, `base64.StdEncoding`. A text whose length is a multiple of three can be
encoded in parts.
-/

namespace Sextet

/-! ## Bytes in groups of six bits -/

def first (b₁ : UInt8) : UInt8 := b₁ >>> 2

def second (b₁ b₂ : UInt8) : UInt8 := ((b₁ &&& 3) <<< 4) ||| (b₂ >>> 4)

def third (b₂ b₃ : UInt8) : UInt8 := ((b₂ &&& 15) <<< 2) ||| (b₃ >>> 6)

def fourth (b₃ : UInt8) : UInt8 := b₃ &&& 63

/-! ## And back -/

def octet₁ (v₁ v₂ : UInt8) : UInt8 := (v₁ <<< 2) ||| (v₂ >>> 4)

def octet₂ (v₂ v₃ : UInt8) : UInt8 := ((v₂ &&& 15) <<< 4) ||| (v₃ >>> 2)

def octet₃ (v₃ v₄ : UInt8) : UInt8 := ((v₃ &&& 3) <<< 6) ||| v₄

theorem byte_forall {P : UInt8 → Prop} (h : ∀ n < 256, P (UInt8.ofNat n)) (b : UInt8) : P b := by
  have hb := h b.toNat b.toNat_lt
  rwa [UInt8.ofNat_toNat] at hb

/-- What a cut of a byte after two, four or six bits leaves on each side. -/
@[mk_iff] structure Cuts (b : UInt8) : Prop where
  low₂ : (b &&& 3).toNat < 4
  low₄ : (b &&& 15).toNat < 16
  high₂ : (b >>> 6).toNat < 4
  high₄ : (b >>> 4).toNat < 16
  first_lt : first b < 64
  fourth_lt : fourth b < 64
  halves₂ : ((b >>> 2) <<< 2) ||| (b &&& 3) = b
  halves₄ : ((b >>> 4) <<< 4) ||| (b &&& 15) = b
  halves₆ : ((b >>> 6) <<< 6) ||| (b &&& 63) = b

theorem cuts (b : UInt8) : Cuts b := by
  have hall : ∀ n < 256, Cuts (UInt8.ofNat n) := by
    simp only [cuts_iff]
    decide +kernel
  exact byte_forall hall b

/-- The two bits of one byte and the four of the next are apart in the second group. -/
theorem second_parts (b₁ b₂ : UInt8) :
    second b₁ b₂ >>> 4 = b₁ &&& (3 : UInt8) ∧ second b₁ b₂ &&& (15 : UInt8) = b₂ >>> 4 ∧
      second b₁ b₂ < 64 := by
  let group (m n : Nat) : UInt8 := (UInt8.ofNat m <<< 4) ||| UInt8.ofNat n
  have hp : ∀ m < 4, ∀ n < 16, group m n >>> 4 = UInt8.ofNat m ∧
      group m n &&& (15 : UInt8) = UInt8.ofNat n ∧ group m n < 64 := by decide +kernel
  have h := hp _ (cuts b₁).low₂ _ (cuts b₂).high₄
  simp only [group, UInt8.ofNat_toNat] at h
  exact h

/-- The four bits of one byte and the two of the next are apart in the third group. -/
theorem third_parts (b₂ b₃ : UInt8) :
    third b₂ b₃ >>> 2 = b₂ &&& (15 : UInt8) ∧ third b₂ b₃ &&& (3 : UInt8) = b₃ >>> 6 ∧
      third b₂ b₃ < 64 := by
  let group (m n : Nat) : UInt8 := (UInt8.ofNat m <<< 2) ||| UInt8.ofNat n
  have hp : ∀ m < 16, ∀ n < 4, group m n >>> 2 = UInt8.ofNat m ∧
      group m n &&& (3 : UInt8) = UInt8.ofNat n ∧ group m n < 64 := by decide +kernel
  have h := hp _ (cuts b₂).low₄ _ (cuts b₃).high₂
  simp only [group, UInt8.ofNat_toNat] at h
  exact h

theorem first_lt (b₁ : UInt8) : first b₁ < 64 := (cuts b₁).first_lt

theorem fourth_lt (b₃ : UInt8) : fourth b₃ < 64 := (cuts b₃).fourth_lt

/-- **The groups give the bytes back.** -/
@[simp] theorem octet₁_groups (b₁ b₂ : UInt8) : octet₁ (first b₁) (second b₁ b₂) = b₁ := by
  rw [octet₁, (second_parts b₁ b₂).1]
  exact (cuts b₁).halves₂

@[simp] theorem octet₂_groups (b₁ b₂ b₃ : UInt8) : octet₂ (second b₁ b₂) (third b₂ b₃) = b₂ := by
  rw [octet₂, (second_parts b₁ b₂).2.1, (third_parts b₂ b₃).1]
  exact (cuts b₂).halves₄

@[simp] theorem octet₃_groups (b₂ b₃ : UInt8) : octet₃ (third b₂ b₃) (fourth b₃) = b₃ := by
  rw [octet₃, (third_parts b₂ b₃).2.1]
  exact (cuts b₃).halves₆

end Sextet

namespace Base64

open Bytes Sextet

/-! ## The encoding -/

def digit (v : UInt8) : UInt8 :=
  if v < 26 then 65 + v
  else if v < 52 then 97 + (v - 26)
  else if v < 62 then 48 + (v - 52)
  else if v = 62 then 43 else 47

def pad : UInt8 := 61

def encode : Bytes → Bytes
  | [] => []
  | [b₁] => [digit (first b₁), digit (second b₁ 0), pad, pad]
  | [b₁, b₂] => [digit (first b₁), digit (second b₁ b₂), digit (third b₂ 0), pad]
  | b₁ :: b₂ :: b₃ :: rest =>
    digit (first b₁) :: digit (second b₁ b₂) :: digit (third b₂ b₃) :: digit (fourth b₃) ::
      encode rest

def value (c : UInt8) : Option UInt8 :=
  if 65 ≤ c ∧ c ≤ 90 then some (c - 65)
  else if 97 ≤ c ∧ c ≤ 122 then some (c - 97 + 26)
  else if 48 ≤ c ∧ c ≤ 57 then some (c - 48 + 52)
  else if c = 43 then some 62
  else if c = 47 then some 63
  else none

/-- The text in fours. Padding ends it. -/
def decodeQuanta : Bytes → Option Bytes
  | [] => some []
  | c₁ :: c₂ :: c₃ :: c₄ :: rest =>
    match value c₁, value c₂ with
    | some v₁, some v₂ =>
      if c₃ = pad ∧ c₄ = pad ∧ rest = [] then some [octet₁ v₁ v₂]
      else match value c₃ with
        | some v₃ =>
          if c₄ = pad ∧ rest = [] then some [octet₁ v₁ v₂, octet₂ v₂ v₃]
          else match value c₄, decodeQuanta rest with
            | some v₄, some bytes => some (octet₁ v₁ v₂ :: octet₂ v₂ v₃ :: octet₃ v₃ v₄ :: bytes)
            | _, _ => none
        | none => none
    | _, _ => none
  | _ => none

/-- `DecodeString`: line ends are passed over; nothing for an error. -/
def decode (s : Bytes) : Option Bytes := decodeQuanta (s.filter fun c => c ≠ 13 && c ≠ 10)

/-! ## The round trip -/

theorem digit_spec (h : v < 64) :
    value (digit v) = some v ∧ digit v ≠ pad ∧ isGraphic (digit v) = true := by
  have hall : ∀ n < 64, value (digit (UInt8.ofNat n)) = some (UInt8.ofNat n) ∧
      digit (UInt8.ofNat n) ≠ pad ∧ isGraphic (digit (UInt8.ofNat n)) = true := by decide +kernel
  have hv := hall v.toNat h
  rwa [UInt8.ofNat_toNat] at hv

theorem value_digit (h : v < 64) : value (digit v) = some v := (digit_spec h).1

theorem decodeQuanta_encode (data : Bytes) : decodeQuanta (encode data) = some data := by
  induction data using encode.induct with
  | case1 => rfl
  | case2 b₁ =>
    have h₁ := value_digit (first_lt b₁)
    have h₂ := value_digit (second_parts b₁ 0).2.2
    simp [encode, decodeQuanta, h₁, h₂]
  | case3 b₁ b₂ =>
    have h₁ := value_digit (first_lt b₁)
    have h₂ := value_digit (second_parts b₁ b₂).2.2
    obtain ⟨h₃, hp, -⟩ := digit_spec (third_parts b₂ 0).2.2
    simp [encode, decodeQuanta, h₁, h₂, h₃, hp]
  | case4 b₁ b₂ b₃ rest ih =>
    have h₁ := value_digit (first_lt b₁)
    have h₂ := value_digit (second_parts b₁ b₂).2.2
    obtain ⟨h₃, _, -⟩ := digit_spec (third_parts b₂ b₃).2.2
    obtain ⟨h₄, hp', -⟩ := digit_spec (fourth_lt b₃)
    simp [encode, decodeQuanta, h₁, h₂, h₃, h₄, hp', ih]

theorem encode_graphic (h : c ∈ encode data) : isGraphic c = true := by
  have hd : ∀ {v : UInt8}, v < 64 → isGraphic (digit v) = true := fun hv => (digit_spec hv).2.2
  have hp : isGraphic pad = true := rfl
  induction data using encode.induct with
  | case1 => cases h
  | case2 b₁ =>
    simp only [encode, List.mem_cons, List.not_mem_nil, or_false] at h
    rcases h with rfl | rfl | rfl | rfl
    · exact hd (first_lt b₁)
    · exact hd (second_parts b₁ 0).2.2
    · exact hp
    · exact hp
  | case3 b₁ b₂ =>
    simp only [encode, List.mem_cons, List.not_mem_nil, or_false] at h
    rcases h with rfl | rfl | rfl | rfl
    · exact hd (first_lt b₁)
    · exact hd (second_parts b₁ b₂).2.2
    · exact hd (third_parts b₂ 0).2.2
    · exact hp
  | case4 b₁ b₂ b₃ rest ih =>
    simp only [encode, List.mem_cons] at h
    rcases h with rfl | rfl | rfl | rfl | h
    · exact hd (first_lt b₁)
    · exact hd (second_parts b₁ b₂).2.2
    · exact hd (third_parts b₂ b₃).2.2
    · exact hd (fourth_lt b₃)
    · exact ih h

/-- **What has been encoded is decoded.** -/
theorem decode_encode (data : Bytes) : decode (encode data) = some data := by
  have hl : ∀ c ∈ encode data, (decide (c ≠ 13) && decide (c ≠ 10)) = true := by
    intro c hc
    have hg := encode_graphic hc
    rw [Bool.and_eq_true, decide_eq_true_eq, decide_eq_true_eq]
    constructor
    · rintro rfl
      exact absurd hg (by decide)
    · rintro rfl
      exact absurd hg (by decide)
  rw [decode, List.filter_eq_self.mpr hl]
  exact decodeQuanta_encode data

theorem encode_append (h : 3 ∣ a.length) (b : Bytes) : encode (a ++ b) = encode a ++ encode b := by
  induction a using encode.induct with
  | case1 => rfl
  | case2 b₁ => exact absurd h (by simp)
  | case3 b₁ b₂ => exact absurd h (by simp)
  | case4 b₁ b₂ b₃ rest ih =>
    have hr : 3 ∣ rest.length := (Nat.dvd_add_left (Nat.dvd_refl 3)).mp h
    simp only [List.cons_append, encode]
    rw [ih hr]

theorem encode_length (data : Bytes) : (encode data).length = 4 * ((data.length + 2) / 3) := by
  induction data using encode.induct with
  | case1 => rfl
  | case2 b₁ => simp [encode]
  | case3 b₁ b₂ => simp [encode]
  | case4 b₁ b₂ b₃ rest ih =>
    simp only [encode, List.length_cons]
    omega

end Base64
