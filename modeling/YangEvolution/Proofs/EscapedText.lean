import YangEvolution.Markup.Reference
import YangEvolution.Markup.Token
import YangEvolution.Proofs.Utf8Coding

/-!
Texts and attribute values as they are written: the five characters that markup uses are replaced by
the predefined entities. Main statements: an escaped text is read back as it was, and none of its
bytes is a bracket or a quote.
-/

namespace YangEvolution.Markup

open Text

/-- A character, or the reference to its entity. -/
def escapeChar (c : Char) : List Char :=
  match c with
  | '&' => ['&', 'a', 'm', 'p', ';']
  | '<' => ['&', 'l', 't', ';']
  | '>' => ['&', 'g', 't', ';']
  | '"' => ['&', 'q', 'u', 'o', 't', ';']
  | '\'' => ['&', 'a', 'p', 'o', 's', ';']
  | c => [c]

def escape (s : String) : String :=
  String.ofList (s.toList.flatMap escapeChar)

/-! ### Reading back -/

/-- A reference is replaced by its character, whatever precedes and follows it. -/
theorem unescapeFrom_escapeChar (total index : Nat) (done rest : List Char) (c : Char) :
    ∃ index', unescapeFrom total index done none (escapeChar c ++ rest) =
      unescapeFrom total index' (c :: done) none rest := by
  unfold escapeChar
  split
  · exact ⟨_, rfl⟩
  · exact ⟨_, rfl⟩
  · exact ⟨_, rfl⟩
  · exact ⟨_, rfl⟩
  · exact ⟨_, rfl⟩
  · rename_i hamp _ _ _ _
    refine ⟨index + Utf8.charWidth c, ?_⟩
    rw [List.singleton_append, unescapeFrom]
    exact if_neg hamp

theorem unescapeFrom_escape (total index : Nat) (done cs : List Char) :
    unescapeFrom total index done none (cs.flatMap escapeChar) = .ok (done.reverse ++ cs) := by
  induction cs generalizing index done with
  | nil => simp [unescapeFrom]
  | cons c cs ih =>
      obtain ⟨index', hindex⟩ :=
        unescapeFrom_escapeChar total index done (cs.flatMap escapeChar) c
      rw [List.flatMap_cons, hindex, ih]
      simp

theorem decodeText_escape (s : String) : decodeText (Utf8.encode (escape s)) = .ok s := by
  have hchars : Utf8.decodeChars (Utf8.encode (escape s)) = .ok (escape s).toList :=
    Utf8.decodeChars_encode _
  have hunescape : unescape (escape s).toList = .ok s.toList := by
    rw [escape, String.toList_ofList]
    exact unescapeFrom_escape _ 0 [] s.toList
  rw [decodeText, hchars]
  simp only [hunescape, String.ofList_toList]

/-! ### Bytes of a text -/

theorem byte_toNat {x : Char} (hx : x.toNat < 0x80) : (byte x).toNat = x.toNat :=
  Utf8.toNat_toUInt8 (by omega)

/-- An ASCII character is in a text if and only if its byte is in the encoding. -/
theorem byte_mem_encode_iff {x : Char} (hx : x.toNat < 0x80) {s : String} :
    byte x ∈ Utf8.encode s ↔ x ∈ s.toList := by
  rw [Utf8.encode, List.mem_flatMap]
  constructor
  · rintro ⟨c, hc, hbyte⟩
    have hlow : (byte x).toNat < 0x80 := by
      rw [byte_toNat hx]
      exact hx
    have hsame := Utf8.toNat_eq_of_mem_encodeChar hbyte hlow
    rw [byte_toNat hx] at hsame
    have hchar : c = x := Char.toNat_inj.mp hsame
    exact hchar ▸ hc
  · intro h
    refine ⟨x, h, ?_⟩
    rw [Utf8.encodeChar_of_lt hx]
    exact List.mem_singleton_self _

theorem not_mem_escapeChar (c : Char) {x : Char} (hx : x ∈ ['<', '>', '"', '\'']) :
    x ∉ escapeChar c := by
  simp only [List.mem_cons, List.not_mem_nil, or_false] at hx
  unfold escapeChar
  split
  · rcases hx with rfl | rfl | rfl | rfl <;> decide
  · rcases hx with rfl | rfl | rfl | rfl <;> decide
  · rcases hx with rfl | rfl | rfl | rfl <;> decide
  · rcases hx with rfl | rfl | rfl | rfl <;> decide
  · rcases hx with rfl | rfl | rfl | rfl <;> decide
  · rename_i hlt hgt hquot hapos
    rw [List.mem_singleton]
    rintro rfl
    rcases hx with h | h | h | h
    · exact hlt h
    · exact hgt h
    · exact hquot h
    · exact hapos h

/-- Neither brackets nor quotes are left in an escaped text. -/
theorem byte_not_mem_escape {x : Char} (hx : x ∈ ['<', '>', '"', '\'']) (s : String) :
    byte x ∉ Utf8.encode (escape s) := by
  have hlow : x.toNat < 0x80 := by
    simp only [List.mem_cons, List.not_mem_nil, or_false] at hx
    rcases hx with rfl | rfl | rfl | rfl <;> decide
  rw [byte_mem_encode_iff hlow, escape, String.toList_ofList, List.mem_flatMap]
  rintro ⟨c, -, hc⟩
  exact not_mem_escapeChar c hx hc

end YangEvolution.Markup
