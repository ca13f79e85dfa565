import YangEvolution.Markup.Document
import YangEvolution.Outcome.Except
import YangEvolution.Proofs.Utf8Coding

/-!
The element that a tag opens. Main statement: it has the prefix and the tag that the tag's name
comes apart into, and the attributes that are read after the name, so that its own name is the name
in the tag.
-/

namespace YangEvolution.Markup

open Text Outcome

namespace Element

/-- The prefix, a colon and the tag, or the tag alone. -/
def qualifiedName (e : Element) : String :=
  match e.nsPrefix with
  | some lead => lead ++ ":" ++ e.tag
  | none => e.tag

/-- The name in bytes. -/
def writtenName (e : Element) : Bytes :=
  Utf8.encode e.qualifiedName

theorem writtenName_eq (e : Element) :
    e.writtenName = match e.nsPrefix with
      | some lead => Utf8.encode lead ++ byte ':' :: Utf8.encode e.tag
      | none => Utf8.encode e.tag := by
  unfold writtenName qualifiedName
  cases e.nsPrefix with
  | none => rfl
  | some lead =>
      have hcolon : Utf8.encode ":" = [byte ':'] := by decide
      simp only [Utf8.encode_append, hcolon, List.append_assoc, List.cons_append, List.nil_append]

end Element

/-! ### Names apart -/

theorem decodeName_eq_ok_iff {bytes : Bytes} {s : String} :
    decodeName bytes = .ok s ↔ bytes = Utf8.encode s := by
  rw [decodeName, mapError_eq_ok_iff, Utf8.decode_eq_ok_iff]

theorem takeWhile_bne_of_not_mem {b : UInt8} {bytes : Bytes} (h : b ∉ bytes) (rest : Bytes) :
    ((bytes ++ rest).takeWhile fun c => c != b) = bytes ++ rest.takeWhile fun c => c != b := by
  apply List.takeWhile_append_of_pos
  intro c hc
  rw [bne_iff_ne]
  rintro rfl
  exact h hc

theorem splitName_of_not_mem {name : Bytes} (h : byte ':' ∉ name) :
    splitName name = (none, name) := by
  have hlead := takeWhile_bne_of_not_mem h []
  rw [List.takeWhile_nil, List.append_nil] at hlead
  simp only [splitName, hlead, List.drop_length]

theorem splitName_append {lead : Bytes} (h : byte ':' ∉ lead) (rest : Bytes) :
    splitName (lead ++ byte ':' :: rest) = (some lead, rest) := by
  have hlead := takeWhile_bne_of_not_mem h (byte ':' :: rest)
  simp only [List.takeWhile_cons, bne_self_eq_false, Bool.false_eq_true, if_false,
    List.append_nil] at hlead
  simp only [splitName, hlead, List.drop_left]

/-! ### The element of a tag -/

theorem attributed_eq_ok_iff {decoded : Except DocumentFault (List (String × String))}
    {fault : Option AttributeFault} {tag : String} {nsPrefix : Option String} {head : Element} :
    (do
      let attributes ← decoded
      match fault with
      | some fault => Except.error (DocumentFault.reading (.attributes fault))
      | none => Except.ok ({ tag, nsPrefix, attributes } : Element)) = .ok head ↔
      tag = head.tag ∧ nsPrefix = head.nsPrefix ∧ decoded = .ok head.attributes ∧
        fault = none ∧ head.children = [] ∧ head.text = none := by
  cases decoded with
  | error e => simp [bind, Except.bind]
  | ok attributes =>
      cases fault with
      | some f => simp [bind, Except.bind]
      | none =>
          cases head
          simp only [bind, Except.bind, Except.ok.injEq, Element.mk.injEq]
          grind

theorem elementOfTag_eq_ok_iff {content : Bytes} {head : Element} :
    elementOfTag content = .ok head ↔
      splitName (tagName content) = (head.nsPrefix.map Utf8.encode, Utf8.encode head.tag) ∧
      decodeAttributes [] (rawAttributes content).items = .ok head.attributes ∧
      (rawAttributes content).fault = none ∧ head.children = [] ∧ head.text = none := by
  unfold elementOfTag
  obtain ⟨lead, rest⟩ := splitName (tagName content)
  constructor
  · intro h
    obtain ⟨tag, htag, h⟩ := exists_of_bind_eq_ok h
    have hrest := decodeName_eq_ok_iff.mp htag
    cases lead with
    | none =>
        obtain ⟨rfl, hlead, hhead⟩ := attributed_eq_ok_iff.mp h
        exact ⟨by rw [← hlead, hrest]; rfl, hhead⟩
    | some bytes =>
        obtain ⟨nsPrefix, hlead, h⟩ := exists_of_bind_eq_ok h
        obtain ⟨rfl, rfl, hhead⟩ := attributed_eq_ok_iff.mp h
        obtain ⟨lead, hlead, hsome⟩ := map_eq_ok_iff.mp hlead
        exact ⟨by rw [← hsome, hrest, decodeName_eq_ok_iff.mp hlead]; rfl, hhead⟩
  · rintro ⟨hname, h⟩
    obtain ⟨hlead, hrest⟩ := Prod.mk.inj hname
    have htag : decodeName rest = .ok head.tag := decodeName_eq_ok_iff.mpr hrest
    subst hlead
    simp only [htag, ok_bind]
    cases hlead : head.nsPrefix with
    | none => exact attributed_eq_ok_iff.mpr ⟨rfl, hlead.symm, h⟩
    | some lead =>
        have hdecode : decodeName (Utf8.encode lead) = .ok lead := decodeName_eq_ok_iff.mpr rfl
        simp only [Option.map_some, hdecode]
        exact attributed_eq_ok_iff.mpr ⟨rfl, hlead.symm, h⟩

/-- The fault of a tag is that of its name, of an attribute or of what follows the attributes. -/
theorem elementOfTag_ne_error {content : Bytes} {e : DocumentFault}
    (hname : ∀ bytes, decodeName bytes ≠ .error e)
    (hattributes : decodeAttributes [] (rawAttributes content).items ≠ .error e)
    (hfault : ∀ fault, DocumentFault.reading (.attributes fault) ≠ e) :
    elementOfTag content ≠ .error e := by
  have hattributed : ∀ tag nsPrefix,
      (do
        let attributes ← decodeAttributes [] (rawAttributes content).items
        match (rawAttributes content).fault with
        | some fault => Except.error (DocumentFault.reading (.attributes fault))
        | none => Except.ok ({ tag, nsPrefix, attributes } : Element)) ≠ .error e := by
    intro tag nsPrefix
    apply bind_ne_error hattributes
    intro attributes _ h
    cases hend : (rawAttributes content).fault with
    | none =>
        rw [hend] at h
        cases h
    | some fault =>
        rw [hend] at h
        exact hfault fault (Except.error.inj h)
  unfold elementOfTag
  obtain ⟨lead, rest⟩ := splitName (tagName content)
  apply bind_ne_error (hname rest)
  intro tag _
  cases lead with
  | none => exact hattributed tag none
  | some bytes =>
      refine bind_ne_error ?_ fun nsPrefix _ => hattributed tag nsPrefix
      intro h
      have hlead := hname bytes
      cases hs : decodeName bytes with
      | error e' =>
          rw [hs] at h hlead
          cases h
          exact hlead rfl
      | ok s =>
          rw [hs] at h
          cases h

/-- An element is written with the name of its tag. -/
theorem writtenName_of_tag {content : Bytes} {head : Element}
    (h : elementOfTag content = .ok head) : head.writtenName = tagName content := by
  obtain ⟨hsplit, -⟩ := elementOfTag_eq_ok_iff.mp h
  rw [Element.writtenName_eq]
  by_cases hcolon : byte ':' ∈ tagName content
  · obtain ⟨lead, rest, hname, hlead⟩ := List.eq_append_cons_of_mem hcolon
    rw [hname, splitName_append hlead] at hsplit
    obtain ⟨hlead, htag⟩ := Prod.mk.inj hsplit
    obtain ⟨p, hp, hencode⟩ := Option.map_eq_some_iff.mp hlead.symm
    rw [hp, hname, ← htag, ← hencode]
  · rw [splitName_of_not_mem hcolon] at hsplit
    obtain ⟨hlead, htag⟩ := Prod.mk.inj hsplit
    rw [Option.map_eq_none_iff.mp hlead.symm, htag]

end YangEvolution.Markup
