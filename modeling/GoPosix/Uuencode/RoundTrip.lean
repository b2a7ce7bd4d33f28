import GoPosix.Uuencode.Basic
import Mathlib.Data.Nat.Digits.Lemmas

/-!
# Decoding what has been encoded

Both encoders cut the data into the same pieces of 45 bytes. A line of the traditional format gives
its piece back, because the first character says how many bytes the padded groups hold, and no such
line looks like the end of the text. In base64 the lines together are the encoding of the data,
because 45 is a multiple of three.
-/

namespace GoPosix.Uuencode

open Bytes Reader Sextet List Base64

variable {data : Bytes}

/-! ## The pieces -/

theorem streamLines_eq (el : Bytes → Bytes) (h : Pieces 45 pieces data) :
    ∀ f, data.length < f → streamLines el f (ofBytes data) = pieces.map el := by
  induction h with
  | nil =>
    intro f hlt
    cases f with
    | zero => cases hlt
    | succ f => rfl
  | @last p hne hs =>
    intro f hlt
    cases f with
    | zero => cases hlt
    | succ f => simp [streamLines, readFull_short hne hs, hne]
  | @cons p data pieces hl _ ih =>
    intro f hlt
    cases f with
    | zero => cases hlt
    | succ f =>
      have hr := readFull_append hl data
      have hne : p ≠ [] := by
        rintro rfl
        cases hl
      rw [length_append] at hlt
      have hrest := ih f (by omega)
      simp [streamLines, hr, hne, hrest]

/-- One line for each piece of 45 bytes. -/
theorem encodeTraditionalLoop_eq (h : Pieces 45 pieces data) :
    ∀ f, data.length < f → encodeTraditionalLoop f data = pieces.map encodeTraditionalLine := by
  have hn : ∀ f, encodeTraditionalLoop f [] = [] := by
    intro f
    cases f <;> rfl
  induction h with
  | nil => exact fun f _ => hn f
  | @last p hne hs =>
    intro f hlt
    cases f with
    | zero => cases hlt
    | succ f =>
      rw [encodeTraditionalLoop, if_neg hne, take_of_length_le (Nat.le_of_lt hs),
        drop_of_length_le (Nat.le_of_lt hs), hn]
      rfl
  | @cons p data pieces hl _ ih =>
    intro f hlt
    cases f with
    | zero => cases hlt
    | succ f =>
      have hne : p ++ data ≠ [] := by
        intro hn
        rw [(append_eq_nil_iff.mp hn).1] at hl
        cases hl
      rw [length_append] at hlt
      rw [encodeTraditionalLoop, if_neg hne, take_left' hl, drop_left' hl, ih f (by omega)]
      rfl

/-! ## Lines of the traditional format -/

theorem uuenc_spec (h : v < 64) :
    uudec (uuenc v) = v ∧ isGraphic (uuenc v) = true ∧ (v ≠ 0 → uuenc v < 96) := by
  have hall : ∀ n < 64, uudec (uuenc (UInt8.ofNat n)) = UInt8.ofNat n ∧
      isGraphic (uuenc (UInt8.ofNat n)) = true ∧
      (UInt8.ofNat n ≠ 0 → uuenc (UInt8.ofNat n) < 96) := by decide +kernel
  have hv := hall v.toNat h
  rwa [UInt8.ofNat_toNat] at hv

theorem decodeChunks_group (dl : Nat) (a : Bytes) (b₁ b₂ b₃ : UInt8) (rest : Bytes)
    (h : a.length < dl) :
    decodeChunks dl a (encodeGroup b₁ b₂ b₃ ++ rest) =
      decodeChunks dl (a ++ [b₁, b₂, b₃].take (dl - a.length)) rest := by
  have h₁ := (uuenc_spec (first_lt b₁)).1
  have h₂ := (uuenc_spec (second_parts b₁ b₂).2.2).1
  have h₃ := (uuenc_spec (third_parts b₂ b₃).2.2).1
  have h₄ := (uuenc_spec (fourth_lt b₃)).1
  have hp : pushChunk dl a (uuenc (first b₁)) (uuenc (second b₁ b₂))
      (uuenc (third b₂ b₃)) (uuenc (fourth b₃)) =
      a ++ [b₁, b₂, b₃].take (dl - a.length) := by
    -- one, two, or all three bytes are wanted
    obtain ⟨k, hk⟩ := Nat.exists_eq_add_of_lt h
    simp only [pushChunk, h₁, h₂, h₃, h₄, octet₂_groups]
    match k with
    | 0 => simp [hk]
    | 1 => simp [hk, show a.length + 1 + 1 - a.length = 2 by omega]
    | k + 2 => simp [hk, show a.length + (k + 2) + 1 - a.length = k + 3 by omega]
  rw [encodeGroup]
  simp only [cons_append, nil_append, decodeChunks, if_pos h, hp]

/-- **The groups of a line give its bytes back.** -/
theorem decodeChunks_encodeGroups (data : Bytes) : ∀ a : Bytes,
    decodeChunks (a.length + data.length) a (encodeGroups data) = a ++ data := by
  induction data using encodeGroups.induct with
  | case1 => simp [encodeGroups, decodeChunks]
  | case2 b₁ =>
    intro a
    have hg := decodeChunks_group (a.length + 1) a b₁ 0 0 [] (Nat.lt_succ_self _)
    simpa [encodeGroups, decodeChunks] using hg
  | case3 b₁ b₂ =>
    intro a
    have hg := decodeChunks_group (a.length + 2) a b₁ b₂ 0 [] (by omega)
    simpa [encodeGroups, decodeChunks] using hg
  | case4 b₁ b₂ b₃ rest ih =>
    intro a
    have hl : a.length + (b₁ :: b₂ :: b₃ :: rest).length =
        (a ++ [b₁, b₂, b₃]).length + rest.length := by simp; omega
    have ht : (a ++ [b₁, b₂, b₃]).length + rest.length - a.length = rest.length + 3 := by
      simp
      omega
    have hg := decodeChunks_group ((a ++ [b₁, b₂, b₃]).length + rest.length) a b₁ b₂ b₃
      (encodeGroups rest) (by omega)
    rw [ht] at hg
    rw [hl, encodeGroups, hg]
    have hr := ih (a ++ [b₁, b₂, b₃])
    simpa using hr

/-- **A line of the traditional format is decoded,** and does not end the text. -/
theorem decodeTraditional_line (hp : 0 < p.length) (hle : p.length ≤ 45) (lines : List Bytes) :
    decodeTraditional (encodeTraditionalLine p :: lines) = p ++ decodeTraditional lines := by
  have hn : (UInt8.ofNat p.length).toNat = p.length :=
    UInt8.toNat_ofNat_of_lt' (Nat.lt_of_le_of_lt hle (by decide))
  have hlt : UInt8.ofNat p.length < 64 := by
    rw [UInt8.lt_iff_toNat_lt, hn]
    exact Nat.lt_of_le_of_lt hle (by decide)
  have hzero : UInt8.ofNat p.length ≠ 0 := by
    intro h
    rw [h] at hn
    exact Nat.ne_of_lt hp hn
  obtain ⟨hd, hg, hs⟩ := uuenc_spec hlt
  have hs := hs hzero
  generalize hc : uuenc (UInt8.ofNat p.length) = lenChar at hd hg hs
  have he : lenChar :: encodeGroups p ≠ str "end" := by
    intro h
    have hcha : lenChar = 101 := (List.cons.inj h).1
    rw [hcha] at hs
    exact absurd hs (by decide)
  have hstop : ¬(lenChar = 96 ∨ lenChar = 32) := by
    rintro (rfl | rfl)
    · exact absurd hs (by decide)
    · exact absurd hg (by decide)
  have hchunks := decodeChunks_encodeGroups p []
  rw [length_nil, Nat.zero_add, nil_append] at hchunks
  rw [encodeTraditionalLine, hc, decodeTraditional, if_neg he, if_neg hstop, hd]
  simp only [hn, if_neg (Nat.not_le.mpr hp), hchunks]

theorem encodeGroups_graphic (h : c ∈ encodeGroups data) : isGraphic c = true := by
  have hg : ∀ b₁ b₂ b₃, c ∈ encodeGroup b₁ b₂ b₃ → isGraphic c = true := by
    intro b₁ b₂ b₃ hc
    simp only [encodeGroup, mem_cons, not_mem_nil, or_false] at hc
    rcases hc with rfl | rfl | rfl | rfl
    · exact (uuenc_spec (first_lt b₁)).2.1
    · exact (uuenc_spec (second_parts b₁ b₂).2.2).2.1
    · exact (uuenc_spec (third_parts b₂ b₃).2.2).2.1
    · exact (uuenc_spec (fourth_lt b₃)).2.1
  induction data using encodeGroups.induct with
  | case1 => cases h
  | case2 b₁ => exact hg _ _ _ h
  | case3 b₁ b₂ => exact hg _ _ _ h
  | case4 b₁ b₂ b₃ rest ih =>
    rcases mem_append.mp h with h | h
    · exact hg _ _ _ h
    · exact ih h

theorem encodeGroups_length (data : Bytes) :
    (encodeGroups data).length = 4 * ((data.length + 2) / 3) := by
  induction data using encodeGroups.induct with
  | case1 => rfl
  | case2 b₁ => simp [encodeGroups, encodeGroup]
  | case3 b₁ b₂ => simp [encodeGroups, encodeGroup]
  | case4 b₁ b₂ b₃ rest ih =>
    simp only [encodeGroups, encodeGroup, length_append, length_cons, length_nil]
    omega

/-! ## Lines of both formats -/

theorem scannable_of_graphic (hg : ∀ c ∈ line, isGraphic c = true)
    (hl : line.length < maxScanTokenSize) : Scannable line := by
  refine ⟨fun h => ?_, fun h => ?_, hl⟩
  · exact absurd (hg _ h) (by decide)
  · exact absurd (hg _ h) (by decide)

theorem encodeTraditionalLine_scannable (hle : piece.length ≤ 45) :
    Scannable (encodeTraditionalLine piece) := by
  apply scannable_of_graphic
  · intro c hc
    rcases mem_cons.mp hc with rfl | hc
    · refine (uuenc_spec ?_).2.1
      rw [UInt8.lt_iff_toNat_lt, UInt8.toNat_ofNat_of_lt' (Nat.lt_of_le_of_lt hle (by decide))]
      exact Nat.lt_of_le_of_lt hle (by decide)
    · exact encodeGroups_graphic hc
  · have hm : maxScanTokenSize = 65536 := rfl
    rw [encodeTraditionalLine, length_cons, encodeGroups_length]
    omega

theorem encode_scannable (hle : piece.length ≤ 45) : Scannable (encode piece) := by
  apply scannable_of_graphic
  · exact fun c hc => encode_graphic hc
  · have hm : maxScanTokenSize = 65536 := rfl
    rw [encode_length]
    omega

/-- No line of base64 ends the text: the lines that do are not encodings of anything. -/
theorem encode_ne_end (p : Bytes) : ¬(encode p = str "====" ∨ encode p = str "end") := by
  have hd := decode_encode p
  rintro (h | h)
  · rw [h] at hd
    cases hd
  · rw [h] at hd
    cases hd

/-! ## Bodies -/

theorem encodeBody_traditional (h : Pieces 45 pieces data) :
    encodeBody false (ofBytes data) = pieces.map encodeTraditionalLine ++ [[96], str "end"] := by
  have hl : (ofBytes data).length = data.length := length_map ..
  rw [encodeBody, if_neg Bool.false_ne_true, hl, streamLines_eq _ h _ (Nat.lt_succ_self _)]

theorem encodeBody_base64 (h : Pieces 45 pieces data) :
    encodeBody true (ofBytes data) = pieces.map encode ++ [str "===="] := by
  have hl : (ofBytes data).length = data.length := length_map ..
  rw [encodeBody, if_pos rfl, hl, streamLines_eq _ h _ (Nat.lt_succ_self _)]

theorem encodeBody_scannable (ub6 : Bool) (data : Bytes) :
    ∀ line ∈ encodeBody ub6 (ofBytes data), Scannable line := by
  obtain ⟨pieces, h⟩ := exists_pieces (n := 45) (by decide) data
  have hs := h.size (by decide)
  intro line hl
  cases ub6 with
  | false =>
    rw [encodeBody_traditional h] at hl
    rcases mem_append.mp hl with hl | hl
    · obtain ⟨p, hp, rfl⟩ := mem_map.mp hl
      exact encodeTraditionalLine_scannable (hs p hp).2
    · simp only [mem_cons, not_mem_nil, or_false] at hl
      rcases hl with rfl | rfl <;> decide
  | true =>
    rw [encodeBody_base64 h] at hl
    rcases mem_append.mp hl with hl | hl
    · obtain ⟨p, hp, rfl⟩ := mem_map.mp hl
      exact encode_scannable (hs p hp).2
    · rw [mem_singleton.mp hl]
      decide

theorem decodeTraditional_body (h : Pieces 45 pieces data) :
    decodeTraditional (pieces.map encodeTraditionalLine ++ [[96], str "end"]) = data := by
  induction h with
  | nil => rfl
  | @last p hne hs =>
    rw [map_singleton, singleton_append,
      decodeTraditional_line (length_pos_iff.mpr hne) (Nat.le_of_lt hs)]
    exact append_nil p
  | @cons p data pieces hl _ ih =>
    rw [map_cons, cons_append, decodeTraditional_line (by rw [hl]; decide) (Nat.le_of_eq hl), ih]

/-- The lines together are the encoding of the data, since each but the last holds 45 bytes. -/
theorem base64Text_body (h : Pieces 45 pieces data) :
    base64Text (pieces.map encode ++ [str "===="]) = encode data := by
  have hl : ∀ p lines, base64Text (encode p :: lines) = encode p ++ base64Text lines := by
    intro p lines
    rw [base64Text]
    simp only [trimSpace_word fun _ hc => encode_graphic hc, if_neg (encode_ne_end p)]
  induction h with
  | nil => rfl
  | @last p hne hs =>
    rw [map_singleton, singleton_append, hl]
    exact append_nil _
  | @cons p data pieces hlen _ ih =>
    have hd : 3 ∣ p.length := ⟨15, hlen⟩
    rw [map_cons, cons_append, hl, ih, encode_append hd]

/-- **The body of a text is decoded to the data.** -/
theorem decodeBody_encodeBody (u : Bool) (data : Bytes) :
    decodeBody u (encodeBody u (ofBytes data)) = .ok data := by
  obtain ⟨pieces, h⟩ := exists_pieces (n := 45) (by decide) data
  cases u with
  | false =>
    rw [encodeBody_traditional h]
    simp [decodeBody, decodeTraditional_body h]
  | true =>
    rw [encodeBody_base64 h]
    simp [decodeBody, decodeBase64, base64Text_body h, decode_encode]

theorem encodeBody_eq_string (data : Bytes) : unlines (encodeBody false (ofBytes data)) =
      encodeTraditionalString data ++ unlines [str "end"] := by
  obtain ⟨pieces, h⟩ := exists_pieces (n := 45) (by decide) data
  rw [encodeBody_traditional h, encodeTraditionalString,
    encodeTraditionalLoop_eq h _ (Nat.lt_succ_self _), ← unlines_append, append_assoc]
  rfl

/-! ## The header -/

/-- The header as the decoder needs it: a line that the scanner passes on, with three fields. A name
that is blank, far too long, or has a line end in it gives another one. -/
structure HeaderRead (useBase64 : Bool) (perm : Nat) (remotename : Bytes) : Prop where
  scannable : Scannable (header useBase64 (modeText perm) remotename)
  fields : 3 ≤ (fields (trimSpace (header useBase64 (modeText perm) remotename))).length

instance (useBase64 : Bool) (perm : Nat) (remotename : Bytes) :
    Decidable (HeaderRead useBase64 perm remotename) :=
  decidable_of_iff (Scannable (header useBase64 (modeText perm) remotename) ∧
      3 ≤ (fields (trimSpace (header useBase64 (modeText perm) remotename))).length)
    ⟨fun h => ⟨h.1, h.2⟩, fun h => ⟨h.scannable, h.fields⟩⟩

theorem modeText_graphic (h : c ∈ modeText perm) : isGraphic c = true := by
  have hdigits : ∀ d < 8, isGraphic (UInt8.ofNat (48 + d)) = true := by decide
  unfold modeText at h
  split at h
  · rw [mem_singleton.mp h]
    rfl
  · obtain ⟨d, hd, rfl⟩ := mem_map.mp h
    exact hdigits d (Nat.digits_lt_base (by decide) (mem_reverse.mp hd))

theorem modeText_ne_nil (p : Nat) : modeText p ≠ [] := by
  unfold modeText
  split
  · exact cons_ne_nil _ _
  · next h => simpa using Nat.digits_ne_nil_iff_ne_zero.mpr h

theorem beginWord_spec (u : Bool) : beginWord u ≠ [] ∧
    (∀ c ∈ beginWord u, isGraphic c = true) ∧
    (decide (beginWord u = str "begin-base64") = u) := by
  have hall : (beginWord u).all isGraphic = true := by cases u <;> rfl
  refine ⟨?_, all_eq_true.mp hall, ?_⟩
  · cases u <;> decide
  · cases u <;> decide

theorem trimSpace_header (u : Bool) (p : Nat) (r : Bytes) :
    trimSpace (header u (modeText p) r) = beginWord u ++ 32 ::
      (modeText p ++ trimRight (32 :: r)) := by
  obtain ⟨hw, hg, -⟩ := beginWord_spec u
  obtain ⟨b, word, hb⟩ := exists_cons_of_ne_nil hw
  obtain ⟨m, mode, hm⟩ := exists_cons_of_ne_nil (modeText_ne_nil p)
  have hl : trimLeft (header u (modeText p) r) = header u (modeText p) r := by
    rw [header, hb]
    exact trimLeft_graphic (hg b (hb ▸ mem_cons_self)) _
  have hmode : trimRight (32 :: (modeText p ++ 32 :: r)) = 32 ::
      trimRight (modeText p ++ 32 :: r) := by
    rw [hm]
    exact trimRight_blank (modeText_graphic (hm ▸ mem_cons_self)) _
  rw [trimSpace, hl, header, trimRight_word hg, hmode, trimRight_word fun c hc =>
    modeText_graphic hc]

/-- **A header that can be read is read.** -/
theorem HeaderRead.fields_eq (h : HeaderRead useBase64 perm remotename) : ∃ name m,
      Bytes.fields (trimSpace (header useBase64 (modeText perm) remotename)) =
        beginWord useBase64 :: modeText perm :: name :: m := by
  obtain ⟨hw, hg, -⟩ := beginWord_spec useBase64
  have hf := h.fields
  rw [trimSpace_header, fields_word hw hg, trimRight] at hf ⊢
  by_cases hb : isBlank (32 :: remotename) = true
  · -- a blank name leaves two fields
    rw [if_pos hb, append_nil, fields_one (modeText_ne_nil perm) fun c hc => modeText_graphic hc]
      at hf
    exact absurd hf (by simp)
  · rw [if_neg hb, fields_word (modeText_ne_nil perm) fun c hc => modeText_graphic hc] at hf ⊢
    cases hn : Bytes.fields (trimRight remotename) with
    | nil =>
      rw [hn] at hf
      exact absurd hf (by simp)
    | cons name m => exact ⟨name, m, rfl⟩

theorem findHeader_header (u : Bool) (p : Nat) (r : Bytes) (lines : List Bytes) :
    findHeader (header u (modeText p) r :: lines) =
      some (trimSpace (header u (modeText p) r), lines) := by
  have hb : hasPrefix (trimSpace (header u (modeText p) r))
        (str "begin ") || hasPrefix (trimSpace (header u (modeText p) r))
        (str "begin-base64 ") := by
    rw [trimSpace_header]
    cases u with
    | false => rfl
    | true => rfl
  have hne : trimSpace (header u (modeText p) r) ≠ [] := by
    rw [trimSpace_header]
    simp
  rw [findHeader]
  simp [hne, hb]

/-! ## The round trip -/

/-- **What `uuencode` writes is decoded to the data,** in both formats; and the text of the
traditional format is the one of the JSON mode with its last line. -/
theorem uudecode_uuencode (data : Bytes) : (∀ useBase64, decodeBody useBase64
      (scanLines (unlines (encodeBody useBase64 (ofBytes data)))).1 = .ok data) ∧
    unlines (encodeBody false (ofBytes data)) = encodeTraditionalString data ++
      unlines [str "end"] ∧
    ∀ useBase64 perm remotename destFileArg, HeaderRead useBase64 perm remotename →
      ∃ dest, uudecode destFileArg (uuencode useBase64 (modeText perm) remotename (ofBytes data)) =
        .ok ⟨dest, modeText perm, data⟩ := by
  refine ⟨fun useBase64 => ?_, encodeBody_eq_string data, ?_⟩
  · rw [scanLines_unlines (encodeBody_scannable useBase64 data)]
    exact decodeBody_encodeBody useBase64 data
  intro useBase64 perm remotename destFileArg hh
  have hs : ∀ line ∈ header useBase64 (modeText perm) remotename ::
      encodeBody useBase64 (ofBytes data), Scannable line := by
    intro line hl
    rcases mem_cons.mp hl with rfl | hl
    · exact hh.scannable
    · exact encodeBody_scannable useBase64 data line hl
  obtain ⟨name, more, hf⟩ := hh.fields_eq
  refine ⟨destination destFileArg name, ?_⟩
  rw [uudecode, uuencode, scanLines_unlines hs]
  simp only [findHeader_header, hf, (beginWord_spec useBase64).2.2, decodeBody_encodeBody]
  rfl

theorem uudecode_uuencode_hi : HeaderRead true 0o644 (str "hi.txt") ∧
      ∃ dest, uudecode [] (uuencode true (modeText 0o644) (str "hi.txt") (ofBytes (str "hi\n"))) =
        .ok ⟨dest, str "644", str "hi\n"⟩ := by
  have hh : HeaderRead true 0o644 (str "hi.txt") := by decide
  exact ⟨hh, (uudecode_uuencode (str "hi\n")).2.2 true 0o644 _ [] hh⟩

end GoPosix.Uuencode
