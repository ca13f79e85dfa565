import Mathlib.Data.List.Forall2
import YangEvolution.Proofs.EscapedText
import YangEvolution.Proofs.TagElement

/-!
Tags as they are written: a name, and after it the attributes with a blank before each one, an
equals sign, and the escaped value between two quotes of one kind. Main statement: the written
content of a start tag gives the name and the attributes back.
-/

namespace YangEvolution.Markup

open Text

/-- White space and the characters that markup uses. -/
def reserved : List Char :=
  [' ', '\t', '\r', '\n', '"', '\'', '<', '>', '/', '=', ':', '!', '?', '&']

/-- Whether a text can be a name as it is. -/
def isName (s : String) : Bool :=
  !s.toList.isEmpty && s.toList.all fun c => !reserved.contains c

/-- The two kinds of quotes. -/
inductive Quote where
  | single
  | double

def Quote.text : Quote → String
  | .single => "'"
  | .double => "\""

def Quote.byte : Quote → UInt8
  | .single => Markup.byte '\''
  | .double => Markup.byte '"'

@[simp] theorem Quote.encode_text (q : Quote) : Utf8.encode q.text = [q.byte] := by
  cases q <;> decide

def writeAttributes (q : Quote) : List (String × String) → String
  | [] => ""
  | a :: rest =>
    " " ++ a.1 ++ "=" ++ q.text ++ escape a.2 ++ q.text ++ writeAttributes q rest

namespace Element

/-- What stands between the brackets of the start tag. -/
def startContent (q : Quote) (e : Element) : String :=
  e.qualifiedName ++ writeAttributes q e.attributes

/-- The tag, the prefix and the keys are names, the keys are in their order with none there twice,
and none declares a namespace. -/
structure HasNames (e : Element) : Prop where
  tag : isName e.tag = true
  lead : ∀ p ∈ e.nsPrefix, isName p = true
  keys : ∀ a ∈ e.attributes, isName a.1 = true ∧ a.1 ≠ "xmlns"
  sorted : e.attributes.Pairwise fun a b => a.1 < b.1

end Element

/-! ### Names -/

theorem toNat_lt_of_mem_reserved {x : Char} (hx : x ∈ reserved) : x.toNat < 0x80 := by
  have hall : reserved.all (fun x => decide (x.toNat < 0x80)) = true := by decide
  exact of_decide_eq_true (List.all_eq_true.mp hall x hx)

theorem byte_not_mem_of_isName {s : String} (h : isName s = true) {x : Char} (hx : x ∈ reserved) :
    byte x ∉ Utf8.encode s := by
  rw [byte_mem_encode_iff (toNat_lt_of_mem_reserved hx)]
  intro hmem
  rw [isName, Bool.and_eq_true, List.all_eq_true] at h
  have hfree := h.2 x hmem
  rw [Bool.not_eq_true', List.contains_eq_mem, decide_eq_false_iff_not] at hfree
  exact hfree hx

theorem encode_ne_nil {s : String} (h : s.toList ≠ []) : Utf8.encode s ≠ [] := by
  rw [Utf8.encode]
  cases hs : s.toList with
  | nil => exact absurd hs h
  | cons c cs =>
      intro hnil
      rw [List.flatMap_cons, List.append_eq_nil_iff] at hnil
      have hpos := Utf8.charWidth_pos c
      rw [← Utf8.length_encodeChar, hnil.1] at hpos
      exact absurd hpos (Nat.lt_irrefl 0)

theorem encode_ne_nil_of_isName {s : String} (h : isName s = true) : Utf8.encode s ≠ [] := by
  rw [isName, Bool.and_eq_true, Bool.not_eq_true', List.isEmpty_eq_false_iff] at h
  exact encode_ne_nil h.1

theorem isSpace_iff {b : UInt8} :
    isSpace b = true ↔ ∃ x ∈ [' ', '\t', '\r', '\n'], b = byte x := by
  simp [isSpace, or_assoc]

namespace Element

variable {e : Element}

/-- The colon apart, a written name has the characters of names only. -/
theorem HasNames.byte_not_mem (h : e.HasNames) {x : Char} (hx : x ∈ reserved) (hcolon : x ≠ ':') :
    byte x ∉ e.writtenName := by
  have htag := byte_not_mem_of_isName h.tag hx
  rw [writtenName_eq]
  cases hlead : e.nsPrefix with
  | none => exact htag
  | some p =>
      have hp := byte_not_mem_of_isName (h.lead p hlead) hx
      have hne : byte x ≠ byte ':' := by
        intro heq
        have hnat := congrArg UInt8.toNat heq
        rw [byte_toNat (toNat_lt_of_mem_reserved hx), byte_toNat (by decide)] at hnat
        exact hcolon (Char.toNat_inj.mp hnat)
      simp only [List.mem_append, List.mem_cons, not_or]
      exact ⟨hp, hne, htag⟩

theorem HasNames.writtenName_ne_nil (h : e.HasNames) : e.writtenName ≠ [] := by
  have htag := encode_ne_nil_of_isName h.tag
  rw [writtenName_eq]
  cases e.nsPrefix with
  | none => exact htag
  | some p => simp

theorem HasNames.isSpace_eq_false (h : e.HasNames) {b : UInt8} (hb : b ∈ e.writtenName) :
    isSpace b = false := by
  rw [← Bool.not_eq_true, isSpace_iff]
  rintro ⟨x, hx, rfl⟩
  refine h.byte_not_mem (List.mem_append_left _ hx) ?_ hb
  rintro rfl
  exact absurd hx (by decide)

theorem HasNames.splitName_writtenName (h : e.HasNames) :
    splitName e.writtenName = (e.nsPrefix.map Utf8.encode, Utf8.encode e.tag) := by
  rw [writtenName_eq]
  cases hlead : e.nsPrefix with
  | none => exact splitName_of_not_mem (byte_not_mem_of_isName h.tag (by decide))
  | some p => exact splitName_append (byte_not_mem_of_isName (h.lead p hlead) (by decide)) _

end Element

/-! ### Attributes -/

@[simp] theorem encode_writeAttributes_nil (q : Quote) : Utf8.encode (writeAttributes q []) = [] :=
  rfl

theorem encode_writeAttributes_cons (q : Quote) (a : String × String)
    (rest : List (String × String)) :
    Utf8.encode (writeAttributes q (a :: rest)) =
      byte ' ' :: (Utf8.encode a.1 ++ byte '=' :: q.byte ::
        (Utf8.encode (escape a.2) ++ q.byte :: Utf8.encode (writeAttributes q rest))) := by
  have hblank : Utf8.encode " " = [byte ' '] := by decide
  have hequals : Utf8.encode "=" = [byte '='] := by decide
  simp [writeAttributes, Utf8.encode_append, hblank, hequals]

theorem Quote.not_mem_escape (q : Quote) (s : String) : q.byte ∉ Utf8.encode (escape s) := by
  cases q with
  | single => exact byte_not_mem_escape (by decide) s
  | double => exact byte_not_mem_escape (by decide) s

section

variable (done : List RawAttribute) (position start : Nat) (rest : Bytes)

theorem attributesFrom_key {bytes : Bytes} (hbytes : ∀ b ∈ bytes, b ≠ byte '=' ∧ isSpace b = false)
    (seen : Bytes) :
    attributesFrom done position (.inKey start seen) (bytes ++ rest) =
      attributesFrom done (position + bytes.length) (.inKey start (bytes.reverse ++ seen))
        rest := by
  induction bytes generalizing position seen with
  | nil => rfl
  | cons b bytes ih =>
      obtain ⟨⟨hequals, hspace⟩, hbytes⟩ := List.forall_mem_cons.mp hbytes
      have hstep : AttributeState.step done position (.inKey start seen) b =
          .go (.inKey start (b :: seen)) := by
        simp [AttributeState.step, hequals, hspace]
      rw [List.cons_append, attributesFrom, hstep]
      simp only [ih (position + 1) hbytes, List.length_cons, List.reverse_cons, List.append_assoc,
        List.singleton_append, Nat.add_assoc, Nat.add_comm 1]

theorem attributesFrom_value {bytes : Bytes} {quote : UInt8} (hbytes : quote ∉ bytes)
    (key seen : Bytes) :
    attributesFrom done position (.inValue start key quote seen) (bytes ++ rest) =
      attributesFrom done (position + bytes.length)
        (.inValue start key quote (bytes.reverse ++ seen)) rest := by
  induction bytes generalizing position seen with
  | nil => rfl
  | cons b bytes ih =>
      rw [List.mem_cons, not_or] at hbytes
      obtain ⟨hb, hbytes⟩ := hbytes
      have hstep : AttributeState.step done position (.inValue start key quote seen) b =
          .go (.inValue start key quote (b :: seen)) := by
        simp [AttributeState.step, Ne.symm hb]
      rw [List.cons_append, attributesFrom, hstep]
      simp only [ih (position + 1) hbytes, List.length_cons, List.reverse_cons, List.append_assoc,
        List.singleton_append, Nat.add_assoc, Nat.add_comm 1]

end

/-- The bytes of a key neither end it nor are white space. -/
theorem key_bytes_of_isName {key : String} (h : isName key = true) {b : UInt8}
    (hb : b ∈ Utf8.encode key) : b ≠ byte '=' ∧ isSpace b = false := by
  constructor
  · rintro rfl
    exact byte_not_mem_of_isName h (by decide) hb
  · rw [← Bool.not_eq_true, isSpace_iff]
    rintro ⟨x, hx, rfl⟩
    exact byte_not_mem_of_isName h (List.mem_append_left _ hx) hb

theorem equalsStep_of_new {done : List RawAttribute} {key : Bytes}
    (hnew : ∀ r ∈ done, r.key ≠ key) (start : Nat) :
    equalsStep done start key = .go (.equals start key) := by
  have hfind : (done.find? fun a => a.key == key) = none := by
    rw [List.find?_eq_none]
    intro r hr
    simpa using hnew r hr
  rw [equalsStep, hfind]

/-- What is read of the written attribute `a`. -/
structure RawAttribute.Writes (r : RawAttribute) (a : String × String) : Prop where
  key : r.key = Utf8.encode a.1
  value : r.value = Utf8.encode (escape a.2)

/-- One written attribute, after others that have different keys. -/
theorem attributesFrom_attribute (q : Quote) {done : List RawAttribute} (position : Nat)
    (rest : Bytes) {a : String × String} (hname : isName a.1 = true)
    (hnew : ∀ r ∈ done, r.key ≠ Utf8.encode a.1) :
    ∃ r position', r.Writes a ∧
      attributesFrom done position .gap
        (byte ' ' :: (Utf8.encode a.1 ++ byte '=' :: q.byte ::
          (Utf8.encode (escape a.2) ++ q.byte :: rest))) =
      attributesFrom (r :: done) position' .gap rest := by
  have hquote : (q.byte == byte '"' || q.byte == byte '\'') = true := by
    cases q <;> decide
  have hblank : isSpace q.byte = false := by
    cases q <;> decide
  have hvalue := q.not_mem_escape a.2
  generalize hkey : Utf8.encode a.1 = key at hnew
  generalize htext : Utf8.encode (escape a.2) = value at hvalue
  have hbytes : ∀ b ∈ key, b ≠ byte '=' ∧ isSpace b = false :=
    fun b hb => key_bytes_of_isName hname (hkey ▸ hb)
  cases key with
  | nil => exact absurd hkey (encode_ne_nil_of_isName hname)
  | cons b bytes =>
      obtain ⟨⟨-, hspace⟩, hbytes⟩ := List.forall_mem_cons.mp hbytes
      refine ⟨⟨position + 1, b :: bytes, value⟩,
        position + 1 + 1 + bytes.length + 1 + 1 + value.length + 1, ⟨hkey.symm, htext.symm⟩, ?_⟩
      have hgap : AttributeState.step done position .gap (byte ' ') = .go .gap := rfl
      -- the blank, and the first byte of the key
      rw [attributesFrom, hgap]
      simp only [List.cons_append]
      rw [attributesFrom, AttributeState.step, hspace]
      simp only [Bool.false_eq_true, if_false]
      rw [attributesFrom_key done _ _ _ hbytes, attributesFrom, AttributeState.step]
      simp only [beq_self_eq_true, if_true, List.reverse_append, List.reverse_reverse,
        List.reverse_singleton, List.singleton_append]
      -- the equals sign and the value
      rw [equalsStep_of_new hnew]
      simp only
      rw [attributesFrom, AttributeState.step, hblank]
      simp only [Bool.false_eq_true, if_false, hquote, if_true]
      rw [attributesFrom_value _ _ _ _ hvalue, attributesFrom, AttributeState.step]
      simp only [beq_self_eq_true, if_true, List.append_nil, List.reverse_reverse]

theorem encode_injective {s t : String} (h : Utf8.encode s = Utf8.encode t) : s = t := by
  have hdecode := congrArg Utf8.decode h
  rw [Utf8.decode_encode, Utf8.decode_encode] at hdecode
  exact Except.ok.inj hdecode

theorem attributesFrom_write (q : Quote) {attributes : List (String × String)}
    (hkeys : ∀ a ∈ attributes, isName a.1 = true)
    (hsorted : attributes.Pairwise fun a b => a.1 < b.1) (done : List RawAttribute)
    (position : Nat) (hnew : ∀ a ∈ attributes, ∀ r ∈ done, r.key ≠ Utf8.encode a.1) :
    ∃ raw, attributesFrom done position .gap (Utf8.encode (writeAttributes q attributes)) =
        ⟨done.reverse ++ raw, none⟩ ∧ List.Forall₂ RawAttribute.Writes raw attributes := by
  induction attributes generalizing done position with
  | nil =>
      refine ⟨[], ?_, .nil⟩
      rw [encode_writeAttributes_nil, attributesFrom, List.append_nil]
      rfl
  | cons a rest ih =>
      obtain ⟨hkey, hkeys⟩ := List.forall_mem_cons.mp hkeys
      obtain ⟨hless, hsorted⟩ := List.pairwise_cons.mp hsorted
      obtain ⟨hfirst, hnew⟩ := List.forall_mem_cons.mp hnew
      obtain ⟨r, position', hwrites, hposition⟩ := attributesFrom_attribute q position
        (Utf8.encode (writeAttributes q rest)) hkey hfirst
      rw [encode_writeAttributes_cons, hposition]
      -- the keys that follow are greater than the one just read
      have hnew' : ∀ b ∈ rest, ∀ s ∈ r :: done, s.key ≠ Utf8.encode b.1 := by
        intro b hb s hs
        rcases List.mem_cons.mp hs with rfl | hs
        · rw [hwrites.key]
          intro heq
          exact String.ne_of_lt (hless b hb) (encode_injective heq)
        · exact hnew b hb s hs
      obtain ⟨raw, hraw, hall⟩ := ih hkeys hsorted (r :: done) position' hnew'
      refine ⟨r :: raw, ?_, .cons hwrites hall⟩
      rw [hraw]
      simp

/-! ### Decoding attributes -/

theorem setAttribute_last {key value : String} {done : List (String × String)}
    (h : ∀ a ∈ done, a.1 < key) : setAttribute key value done = done ++ [(key, value)] := by
  induction done with
  | nil => rfl
  | cons a rest ih =>
      obtain ⟨hless, hrest⟩ := List.forall_mem_cons.mp h
      rw [setAttribute, if_neg (Ne.symm (String.ne_of_lt hless)), if_neg (String.lt_asymm hless),
        ih hrest]
      rfl

theorem declaresNamespace_eq_false {key : String} (h : isName key = true) (hne : key ≠ "xmlns") :
    declaresNamespace (Utf8.encode key) = false := by
  have hwhole : Utf8.encode key ≠ byteString "xmlns" := by
    intro heq
    have hxmlns : byteString "xmlns" = Utf8.encode "xmlns" := by decide
    exact hne (encode_injective (heq.trans hxmlns))
  have hcolon : (byteString "xmlns:").isPrefixOf (Utf8.encode key) = false := by
    rw [← Bool.not_eq_true, List.isPrefixOf_iff_prefix]
    intro hp
    have hmem : byte ':' ∈ byteString "xmlns:" := by decide
    exact byte_not_mem_of_isName h (by decide) (hp.subset hmem)
  rw [declaresNamespace, hcolon, Bool.or_false]
  simpa using hwhole

/-- Attributes in the order of their keys are decoded in that order. -/
theorem decodeAttributes_write {raw : List RawAttribute} {attributes : List (String × String)}
    (hall : List.Forall₂ RawAttribute.Writes raw attributes)
    (hkeys : ∀ a ∈ attributes, isName a.1 = true ∧ a.1 ≠ "xmlns")
    (hsorted : attributes.Pairwise fun a b => a.1 < b.1) (done : List (String × String))
    (hdone : ∀ a ∈ done, ∀ b ∈ attributes, a.1 < b.1) :
    decodeAttributes done raw = .ok (done ++ attributes) := by
  induction hall generalizing done with
  | nil => rw [decodeAttributes, List.append_nil]
  | @cons r a raw rest hwrites _ ih =>
      obtain ⟨⟨hname, hxmlns⟩, hkeys⟩ := List.forall_mem_cons.mp hkeys
      obtain ⟨hless, hsorted⟩ := List.pairwise_cons.mp hsorted
      have hlast : setAttribute a.1 a.2 done = done ++ [a] :=
        setAttribute_last fun b hb => hdone b hb a List.mem_cons_self
      have hdone' : ∀ b ∈ done ++ [a], ∀ c ∈ rest, b.1 < c.1 := by
        intro b hb c hc
        rcases List.mem_append.mp hb with hb | hb
        · exact hdone b hb c (List.mem_cons_of_mem _ hc)
        · rw [List.mem_singleton] at hb
          exact hb ▸ hless c hc
      rw [decodeAttributes, hwrites.key, hwrites.value, declaresNamespace_eq_false hname hxmlns,
        decodeName_eq_ok_iff.mpr rfl, decodeText_escape]
      simp only [Bool.false_eq_true, if_false, hlast]
      rw [ih hkeys hsorted _ hdone', List.append_assoc]
      rfl

/-! ### The start tag -/

namespace Element

variable {e : Element}

theorem encode_startContent (q : Quote) (e : Element) :
    Utf8.encode (e.startContent q) =
      e.writtenName ++ Utf8.encode (writeAttributes q e.attributes) :=
  Utf8.encode_append _ _

theorem HasNames.tagName_startContent (h : e.HasNames) (q : Quote) :
    tagName (Utf8.encode (e.startContent q)) = e.writtenName := by
  rw [encode_startContent, tagName, List.takeWhile_append_of_pos]
  · cases e.attributes with
    | nil => simp
    | cons a rest =>
        rw [encode_writeAttributes_cons]
        exact List.append_nil _
  · intro b hb
    rw [h.isSpace_eq_false hb]
    rfl

/-- The start tag gives back what it was written from. -/
theorem HasNames.elementOfTag_startContent (h : e.HasNames) (q : Quote) :
    elementOfTag (Utf8.encode (e.startContent q)) =
      .ok { tag := e.tag, nsPrefix := e.nsPrefix, attributes := e.attributes } := by
  have hname := h.tagName_startContent q
  have hdrop : (Utf8.encode (e.startContent q)).drop e.writtenName.length =
      Utf8.encode (writeAttributes q e.attributes) := by
    rw [encode_startContent, List.drop_left]
  obtain ⟨raw, hraw, hall⟩ := attributesFrom_write q (fun a ha => (h.keys a ha).1) h.sorted []
    e.writtenName.length (fun a _ r hr => absurd hr (List.not_mem_nil))
  have hattributes : rawAttributes (Utf8.encode (e.startContent q)) = ⟨raw, none⟩ := by
    simp only [rawAttributes, hname, hdrop, hraw, List.reverse_nil, List.nil_append]
  apply elementOfTag_eq_ok_iff.mpr
  rw [hname, hattributes]
  refine ⟨h.splitName_writtenName, ?_, rfl, rfl, rfl⟩
  exact decodeAttributes_write hall h.keys h.sorted [] fun a ha => absurd ha (List.not_mem_nil)

end Element

end YangEvolution.Markup
