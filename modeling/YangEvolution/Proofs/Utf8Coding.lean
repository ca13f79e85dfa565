import YangEvolution.Text.Utf8

/-!
Encoding and decoding of UTF-8 are inverse to each other: what is decoded is exactly the encoding of
a text, and a text is decoded from its encoding. Bytes below 128 occur only as the encoding of the
character of that number.
-/

namespace YangEvolution.Text.Utf8

theorem isValidChar_toNat (c : Char) : c.toNat.isValidChar :=
  c.valid

theorem toNat_ofNat_of_valid {n : Nat} (h : n.isValidChar) : (Char.ofNat n).toNat = n := by
  unfold Char.ofNat
  rw [dif_pos h]
  rfl

theorem toNat_toUInt8 {n : Nat} (h : n < 256) : n.toUInt8.toNat = n := by
  rw [Nat.toUInt8_eq]
  exact UInt8.toNat_ofNat_of_lt' h

theorem toUInt8_eq_of_toNat {n : Nat} {b : UInt8} (h : n = b.toNat) : n.toUInt8 = b := by
  subst h
  apply UInt8.toNat_inj.mp
  exact toNat_toUInt8 b.toNat_lt

/-! ### Classes of bytes by their numbers -/

theorem isTail_iff {b : UInt8} : isTail b = true ↔ 0x80 ≤ b.toNat ∧ b.toNat ≤ 0xBF := by
  simp [isTail, UInt8.le_iff_toNat_le]

theorem beq_iff_toNat_eq {a b : UInt8} : (a == b) = true ↔ a.toNat = b.toNat := by
  rw [beq_iff_eq, UInt8.toNat_inj]

theorem width_eq (a : UInt8) :
    width a =
      if a.toNat < 0x80 then 1
      else if 0xC2 ≤ a.toNat ∧ a.toNat ≤ 0xDF then 2
      else if 0xE0 ≤ a.toNat ∧ a.toNat ≤ 0xEF then 3
      else if 0xF0 ≤ a.toNat ∧ a.toNat ≤ 0xF4 then 4
      else 0 := by
  simp [width, UInt8.le_iff_toNat_le, UInt8.lt_iff_toNat_lt]

theorem width_eq_one_iff {a : UInt8} : width a = 1 ↔ a.toNat < 0x80 := by
  rw [width_eq]
  grind

theorem width_eq_two_iff {a : UInt8} : width a = 2 ↔ 0xC2 ≤ a.toNat ∧ a.toNat ≤ 0xDF := by
  rw [width_eq]
  grind

theorem width_eq_three_iff {a : UInt8} : width a = 3 ↔ 0xE0 ≤ a.toNat ∧ a.toNat ≤ 0xEF := by
  rw [width_eq]
  grind

theorem width_eq_four_iff {a : UInt8} : width a = 4 ↔ 0xF0 ≤ a.toNat ∧ a.toNat ≤ 0xF4 := by
  rw [width_eq]
  grind

/-- The second byte of a longer sequence: a tail byte, within narrower bounds after four of the lead
bytes. -/
theorem isSecond_iff {a b : UInt8} :
    isSecond a b = true ↔
      0x80 ≤ b.toNat ∧ b.toNat ≤ 0xBF ∧ (a.toNat = 0xE0 → 0xA0 ≤ b.toNat) ∧
        (a.toNat = 0xED → b.toNat ≤ 0x9F) ∧ (a.toNat = 0xF0 → 0x90 ≤ b.toNat) ∧
        (a.toNat = 0xF4 → b.toNat ≤ 0x8F) := by
  simp only [isSecond, isTail, beq_iff_toNat_eq, UInt8.le_iff_toNat_le, UInt8.reduceToNat]
  split
  · simp only [Bool.and_eq_true, decide_eq_true_eq]
    omega
  split
  · simp only [Bool.and_eq_true, decide_eq_true_eq]
    omega
  split
  · simp only [Bool.and_eq_true, decide_eq_true_eq]
    omega
  split
  · simp only [Bool.and_eq_true, decide_eq_true_eq]
    omega
  · simp only [Bool.and_eq_true, decide_eq_true_eq]
    omega

/-! ### A character and its bytes -/

theorem encodeChar_of_lt {c : Char} (h : c.toNat < 0x80) : encodeChar c = [c.toNat.toUInt8] :=
  if_pos h

theorem encodeChar_two {c : Char} (hge : 0x80 ≤ c.toNat) (hlt : c.toNat < 0x800) :
    encodeChar c = [(0xC0 + c.toNat / 64).toUInt8, (0x80 + c.toNat % 64).toUInt8] := by
  simp only [encodeChar]
  rw [if_neg (by omega), if_pos hlt]

theorem encodeChar_three {c : Char} (hge : 0x800 ≤ c.toNat) (hlt : c.toNat < 0x10000) :
    encodeChar c = [(0xE0 + c.toNat / 4096).toUInt8, (0x80 + c.toNat / 64 % 64).toUInt8,
      (0x80 + c.toNat % 64).toUInt8] := by
  simp only [encodeChar]
  rw [if_neg (by omega), if_neg (by omega), if_pos hlt]

theorem encodeChar_four {c : Char} (hge : 0x10000 ≤ c.toNat) :
    encodeChar c = [(0xF0 + c.toNat / 262144).toUInt8, (0x80 + c.toNat / 4096 % 64).toUInt8,
      (0x80 + c.toNat / 64 % 64).toUInt8, (0x80 + c.toNat % 64).toUInt8] := by
  simp only [encodeChar]
  rw [if_neg (by omega), if_neg (by omega), if_neg (by omega)]

theorem charWidth_pos (c : Char) : 0 < charWidth c := by
  unfold charWidth
  split
  · omega
  split
  · omega
  split <;> omega

/-- Bytes below 128 stand for themselves only. -/
theorem toNat_eq_of_mem_encodeChar {c : Char} {b : UInt8} (hb : b ∈ encodeChar c)
    (hlt : b.toNat < 0x80) : c.toNat = b.toNat := by
  have hvalid := isValidChar_toNat c
  unfold Nat.isValidChar at hvalid
  have hhigh : ∀ n, 0x80 ≤ n → n < 256 → b ≠ n.toUInt8 := by
    intro n hge hbyte heq
    rw [heq, toNat_toUInt8 hbyte] at hlt
    omega
  by_cases h1 : c.toNat < 0x80
  · rw [encodeChar_of_lt h1, List.mem_singleton] at hb
    rw [hb, toNat_toUInt8 (by omega)]
  by_cases h2 : c.toNat < 0x800
  · rw [encodeChar_two (by omega) h2] at hb
    simp only [List.mem_cons, List.not_mem_nil, or_false] at hb
    rcases hb with hb | hb
    · exact absurd hb (hhigh _ (by omega) (by omega))
    · exact absurd hb (hhigh _ (by omega) (by omega))
  by_cases h3 : c.toNat < 0x10000
  · rw [encodeChar_three (by omega) h3] at hb
    simp only [List.mem_cons, List.not_mem_nil, or_false] at hb
    rcases hb with hb | hb | hb
    · exact absurd hb (hhigh _ (by omega) (by omega))
    · exact absurd hb (hhigh _ (by omega) (by omega))
    · exact absurd hb (hhigh _ (by omega) (by omega))
  · rw [encodeChar_four (by omega)] at hb
    simp only [List.mem_cons, List.not_mem_nil, or_false] at hb
    rcases hb with hb | hb | hb | hb
    · exact absurd hb (hhigh _ (by omega) (by omega))
    · exact absurd hb (hhigh _ (by omega) (by omega))
    · exact absurd hb (hhigh _ (by omega) (by omega))
    · exact absurd hb (hhigh _ (by omega) (by omega))

theorem encode_append (s t : String) : encode (s ++ t) = encode s ++ encode t := by
  rw [encode, String.toList_append, List.flatMap_append]
  rfl

/-! ### Decoding what was encoded -/

section

variable {n : Nat} (index : Nat) (done : List Char) (rest : Bytes)

theorem decodeFrom_one (h : n < 0x80) :
    decodeFrom index done (n.toUInt8 :: rest) =
      decodeFrom (index + 1) (Char.ofNat n :: done) rest := by
  have ha : n.toUInt8.toNat = n := toNat_toUInt8 (by omega)
  have hw : width n.toUInt8 = 1 := width_eq_one_iff.mpr (by omega)
  rw [decodeFrom.eq_def]
  simp only [hw, ha]

theorem decodeFrom_two (hge : 0x80 ≤ n) (hlt : n < 0x800) :
    decodeFrom index done ((0xC0 + n / 64).toUInt8 :: (0x80 + n % 64).toUInt8 :: rest) =
      decodeFrom (index + 2) (Char.ofNat n :: done) rest := by
  have ha : (0xC0 + n / 64).toUInt8.toNat = 0xC0 + n / 64 := toNat_toUInt8 (by omega)
  have hb : (0x80 + n % 64).toUInt8.toNat = 0x80 + n % 64 := toNat_toUInt8 (by omega)
  have hw : width (0xC0 + n / 64).toUInt8 = 2 := width_eq_two_iff.mpr (by omega)
  have ht : isTail (0x80 + n % 64).toUInt8 = true := isTail_iff.mpr (by omega)
  have hc : charOfTwo (0xC0 + n / 64).toUInt8 (0x80 + n % 64).toUInt8 = Char.ofNat n := by
    rw [charOfTwo, tailBits, ha, hb]
    congr 1
    omega
  simp only [decodeFrom, hw, ht, hc, if_true]

theorem decodeFrom_three (hge : 0x800 ≤ n) (hlt : n < 0x10000) (hvalid : n.isValidChar) :
    decodeFrom index done ((0xE0 + n / 4096).toUInt8 :: (0x80 + n / 64 % 64).toUInt8 ::
        (0x80 + n % 64).toUInt8 :: rest) =
      decodeFrom (index + 3) (Char.ofNat n :: done) rest := by
  have ha : (0xE0 + n / 4096).toUInt8.toNat = 0xE0 + n / 4096 := toNat_toUInt8 (by omega)
  have hb : (0x80 + n / 64 % 64).toUInt8.toNat = 0x80 + n / 64 % 64 := toNat_toUInt8 (by omega)
  have hd : (0x80 + n % 64).toUInt8.toNat = 0x80 + n % 64 := toNat_toUInt8 (by omega)
  have hw : width (0xE0 + n / 4096).toUInt8 = 3 := width_eq_three_iff.mpr (by omega)
  have hs : isSecond (0xE0 + n / 4096).toUInt8 (0x80 + n / 64 % 64).toUInt8 = true := by
    unfold Nat.isValidChar at hvalid
    rw [isSecond_iff, ha, hb]
    omega
  have ht : isTail (0x80 + n % 64).toUInt8 = true := isTail_iff.mpr (by omega)
  have hc : charOfThree (0xE0 + n / 4096).toUInt8 (0x80 + n / 64 % 64).toUInt8
      (0x80 + n % 64).toUInt8 = Char.ofNat n := by
    rw [charOfThree, tailBits, tailBits, ha, hb, hd]
    congr 1
    omega
  simp only [decodeFrom, hw, hs, ht, hc, if_true, Bool.not_true, Bool.false_eq_true, if_false]

theorem decodeFrom_four (hge : 0x10000 ≤ n) (hvalid : n.isValidChar) :
    decodeFrom index done ((0xF0 + n / 262144).toUInt8 :: (0x80 + n / 4096 % 64).toUInt8 ::
        (0x80 + n / 64 % 64).toUInt8 :: (0x80 + n % 64).toUInt8 :: rest) =
      decodeFrom (index + 4) (Char.ofNat n :: done) rest := by
  unfold Nat.isValidChar at hvalid
  have ha : (0xF0 + n / 262144).toUInt8.toNat = 0xF0 + n / 262144 := toNat_toUInt8 (by omega)
  have hb : (0x80 + n / 4096 % 64).toUInt8.toNat = 0x80 + n / 4096 % 64 := toNat_toUInt8 (by omega)
  have hd : (0x80 + n / 64 % 64).toUInt8.toNat = 0x80 + n / 64 % 64 := toNat_toUInt8 (by omega)
  have he : (0x80 + n % 64).toUInt8.toNat = 0x80 + n % 64 := toNat_toUInt8 (by omega)
  have hw : width (0xF0 + n / 262144).toUInt8 = 4 := width_eq_four_iff.mpr (by omega)
  have hs : isSecond (0xF0 + n / 262144).toUInt8 (0x80 + n / 4096 % 64).toUInt8 = true := by
    rw [isSecond_iff, ha, hb]
    omega
  have ht : isTail (0x80 + n / 64 % 64).toUInt8 = true := isTail_iff.mpr (by omega)
  have ht' : isTail (0x80 + n % 64).toUInt8 = true := isTail_iff.mpr (by omega)
  have hc : charOfFour (0xF0 + n / 262144).toUInt8 (0x80 + n / 4096 % 64).toUInt8
      (0x80 + n / 64 % 64).toUInt8 (0x80 + n % 64).toUInt8 = Char.ofNat n := by
    rw [charOfFour, tailBits, tailBits, tailBits, ha, hb, hd, he]
    congr 1
    omega
  simp only [decodeFrom, hw, hs, ht, ht', hc, if_true, Bool.not_true, Bool.false_eq_true, if_false]

end

theorem decodeFrom_encodeChar (index : Nat) (done : List Char) (c : Char) (rest : Bytes) :
    decodeFrom index done (encodeChar c ++ rest) =
      decodeFrom (index + charWidth c) (c :: done) rest := by
  have hvalid := isValidChar_toNat c
  have hback : Char.ofNat c.toNat = c := c.ofNat_toNat
  unfold charWidth
  by_cases h1 : c.toNat < 0x80
  · rw [encodeChar_of_lt h1, if_pos h1]
    exact (decodeFrom_one index done rest h1).trans (by rw [hback])
  by_cases h2 : c.toNat < 0x800
  · rw [encodeChar_two (by omega) h2, if_neg h1, if_pos h2]
    exact (decodeFrom_two index done rest (by omega) h2).trans (by rw [hback])
  by_cases h3 : c.toNat < 0x10000
  · rw [encodeChar_three (by omega) h3, if_neg h1, if_neg h2, if_pos h3]
    exact (decodeFrom_three index done rest (by omega) h3 hvalid).trans (by rw [hback])
  · rw [encodeChar_four (by omega), if_neg h1, if_neg h2, if_neg h3]
    exact (decodeFrom_four index done rest (by omega) hvalid).trans (by rw [hback])

theorem decodeFrom_encode (index : Nat) (done cs : List Char) :
    decodeFrom index done (cs.flatMap encodeChar) = .ok (done.reverse ++ cs) := by
  induction cs generalizing index done with
  | nil => simp [decodeFrom]
  | cons c cs ih =>
      rw [List.flatMap_cons, decodeFrom_encodeChar, ih]
      simp

@[simp] theorem decodeChars_encode (cs : List Char) :
    decodeChars (cs.flatMap encodeChar) = .ok cs :=
  decodeFrom_encode 0 [] cs

@[simp] theorem decode_encode (s : String) : decode (encode s) = .ok s := by
  rw [decode, encode, decodeChars_encode]
  exact congrArg Except.ok String.ofList_toList

/-! ### Encoding what was decoded -/

section

variable {a b c d : UInt8}

theorem encodeChar_ofOne (ha : width a = 1) : encodeChar (Char.ofNat a.toNat) = [a] := by
  rw [width_eq_one_iff] at ha
  have hn : (Char.ofNat a.toNat).toNat = a.toNat := toNat_ofNat_of_valid (.inl (by omega))
  rw [encodeChar_of_lt (by omega), hn, toUInt8_eq_of_toNat rfl]

theorem encodeChar_charOfTwo (ha : width a = 2) (hb : isTail b = true) :
    encodeChar (charOfTwo a b) = [a, b] := by
  rw [width_eq_two_iff] at ha
  rw [isTail_iff] at hb
  have hn : (charOfTwo a b).toNat = a.toNat % 32 * 64 + b.toNat % 64 := by
    apply toNat_ofNat_of_valid
    unfold Nat.isValidChar tailBits
    omega
  rw [encodeChar_two (by omega) (by omega), hn]
  congr
  · exact toUInt8_eq_of_toNat (by omega)
  · exact toUInt8_eq_of_toNat (by omega)

theorem encodeChar_charOfThree (ha : width a = 3) (hb : isSecond a b = true)
    (hc : isTail c = true) : encodeChar (charOfThree a b c) = [a, b, c] := by
  rw [width_eq_three_iff] at ha
  rw [isSecond_iff] at hb
  rw [isTail_iff] at hc
  have hn : (charOfThree a b c).toNat =
      a.toNat % 16 * 4096 + b.toNat % 64 * 64 + c.toNat % 64 := by
    apply toNat_ofNat_of_valid
    unfold Nat.isValidChar tailBits
    omega
  rw [encodeChar_three (by omega) (by omega), hn]
  congr
  · exact toUInt8_eq_of_toNat (by omega)
  · exact toUInt8_eq_of_toNat (by omega)
  · exact toUInt8_eq_of_toNat (by omega)

theorem encodeChar_charOfFour (ha : width a = 4) (hb : isSecond a b = true) (hc : isTail c = true)
    (hd : isTail d = true) : encodeChar (charOfFour a b c d) = [a, b, c, d] := by
  rw [width_eq_four_iff] at ha
  rw [isSecond_iff] at hb
  rw [isTail_iff] at hc hd
  have hn : (charOfFour a b c d).toNat =
      a.toNat % 8 * 262144 + b.toNat % 64 * 4096 + c.toNat % 64 * 64 + d.toNat % 64 := by
    apply toNat_ofNat_of_valid
    unfold Nat.isValidChar tailBits
    omega
  rw [encodeChar_four (by omega), hn]
  congr
  · exact toUInt8_eq_of_toNat (by omega)
  · exact toUInt8_eq_of_toNat (by omega)
  · exact toUInt8_eq_of_toNat (by omega)
  · exact toUInt8_eq_of_toNat (by omega)

end

/-- The first character of bytes that are decoded, and what is decoded after it. -/
theorem exists_char_of_decodeFrom {index : Nat} {done cs : List Char} {a : UInt8} {rest : Bytes}
    (h : decodeFrom index done (a :: rest) = .ok cs) :
    ∃ c index' rest', a :: rest = encodeChar c ++ rest' ∧
      decodeFrom index' (c :: done) rest' = .ok cs := by
  unfold decodeFrom at h
  split at h
  · rename_i hw
    exact ⟨_, _, _, by rw [encodeChar_ofOne hw]; rfl, h⟩
  · rename_i hw
    split at h
    · cases h
    · rename_i b rest
      split at h
      · rename_i hb
        exact ⟨_, _, _, by rw [encodeChar_charOfTwo hw hb]; rfl, h⟩
      · cases h
  · rename_i hw
    split at h
    · cases h
    · cases h
    · rename_i b c rest
      split at h
      · cases h
      · rename_i hb
        split at h
        · rename_i hc
          exact ⟨_, _, _, by rw [encodeChar_charOfThree hw (by simpa using hb) hc]; rfl, h⟩
        · cases h
  · rename_i hw
    split at h
    · cases h
    · cases h
    · cases h
    · rename_i b c d rest
      split at h
      · cases h
      · rename_i hb
        split at h
        · cases h
        · rename_i hc
          split at h
          · rename_i hd
            exact ⟨_, _, _,
              by rw [encodeChar_charOfFour hw (by simpa using hb) (by simpa using hc) hd]; rfl, h⟩
          · cases h
  · cases h

theorem encode_of_decodeFrom {index : Nat} {done cs : List Char} {bytes : Bytes}
    (h : decodeFrom index done bytes = .ok cs) :
    ∃ more, cs = done.reverse ++ more ∧ bytes = more.flatMap encodeChar := by
  induction hlength : bytes.length using Nat.strongRecOn generalizing index done bytes with
  | ind n ih =>
      cases bytes with
      | nil =>
          cases h
          exact ⟨[], by simp, rfl⟩
      | cons a rest =>
          obtain ⟨c, index', rest', hbytes, hrest⟩ := exists_char_of_decodeFrom h
          have hshorter : rest'.length < n := by
            have hpos := charWidth_pos c
            rw [← hlength, hbytes, List.length_append, length_encodeChar]
            omega
          obtain ⟨more, hcs, hmore⟩ := ih _ hshorter hrest rfl
          refine ⟨c :: more, ?_, ?_⟩
          · rw [hcs]
            simp
          · rw [hbytes, hmore, List.flatMap_cons]

/-- Exactly the encodings of texts are decoded. -/
theorem decode_eq_ok_iff {bytes : Bytes} {s : String} :
    decode bytes = .ok s ↔ bytes = encode s := by
  constructor
  · intro h
    unfold decode at h
    cases hchars : decodeChars bytes with
    | error e =>
        rw [hchars] at h
        cases h
    | ok cs =>
        rw [hchars] at h
        cases h
        obtain ⟨more, hcs, hbytes⟩ := encode_of_decodeFrom hchars
        rw [List.reverse_nil, List.nil_append] at hcs
        rw [hbytes, hcs, encode, String.toList_ofList]
  · rintro rfl
    exact decode_encode s

end YangEvolution.Text.Utf8
