import YangEvolution.Markup.Token
import YangEvolution.Proofs.WrittenTag

/-!
Documents as they are written from a tree: the start tag of an element, its text, its children and
its end tag. Main statement: whatever characters the attribute values and the texts have, scanning a
written tree takes each tag and each text as one token.
-/

namespace YangEvolution.Markup

open Text

namespace Element

mutual

/-- The element with everything in it. -/
def write (q : Quote) : Element → String
  | ⟨tag, nsPrefix, attributes, children, text⟩ =>
    let e : Element := ⟨tag, nsPrefix, attributes, children, text⟩
    "<" ++ e.startContent q ++ ">" ++ escape (text.getD "") ++ writeAll q children ++ "</" ++
      e.qualifiedName ++ ">"

def writeAll (q : Quote) : List Element → String
  | [] => ""
  | e :: rest => e.write q ++ writeAll q rest

end

mutual

/-- All elements of the tree have proper names, and their texts, where there are any, are not all
white space. -/
def Writable : Element → Prop
  | ⟨tag, nsPrefix, attributes, children, text⟩ =>
    HasNames ⟨tag, nsPrefix, attributes, children, text⟩ ∧ (∀ s ∈ text, isAllBlank s = false) ∧
      AllWritable children

def AllWritable : List Element → Prop
  | [] => True
  | e :: rest => e.Writable ∧ AllWritable rest

end

/-- The token of a text, unless there is none. -/
def textTokens : Option String → List Token
  | none => []
  | some s => [.text (Utf8.encode (escape s))]

mutual

/-- The tokens of a written element. -/
def tokens (q : Quote) : Element → List Token
  | ⟨tag, nsPrefix, attributes, children, text⟩ =>
    let e : Element := ⟨tag, nsPrefix, attributes, children, text⟩
    .opening (Utf8.encode (e.startContent q)) ::
      (textTokens text ++ tokensAll q children ++ [.closing e.writtenName])

def tokensAll (q : Quote) : List Element → List Token
  | [] => []
  | e :: rest => e.tokens q ++ tokensAll q rest

end

end Element

/-! ### Scanning -/

/-- The bytes are read inside a tag without ending it, from one state of its quotes to another. -/
def StaysInTag (quote : Option UInt8) (bytes : Bytes) (quote' : Option UInt8) : Prop :=
  ∀ (done : List Token) (seen rest : Bytes),
    scanFrom done (.tag quote seen) (bytes ++ rest) =
      scanFrom done (.tag quote' (bytes.reverse ++ seen)) rest

namespace StaysInTag

variable {quote quote' quote'' : Option UInt8} {bytes bytes' : Bytes}

theorem nil (quote : Option UInt8) : StaysInTag quote [] quote :=
  fun _ _ _ => rfl

theorem append (h : StaysInTag quote bytes quote') (h' : StaysInTag quote' bytes' quote'') :
    StaysInTag quote (bytes ++ bytes') quote'' := by
  intro done seen rest
  rw [List.append_assoc, h, h', List.reverse_append, List.append_assoc]

theorem singleton {b : UInt8} (h : (quote.isNone && b == byte '>') = false) :
    StaysInTag quote [b] (quoteAfter quote b) := by
  intro done seen rest
  rw [List.singleton_append, scanFrom, ScanState.step, ScanState.tagStep, h]
  rfl

theorem cons {b : UInt8} (h : (quote.isNone && b == byte '>') = false)
    (h' : StaysInTag (quoteAfter quote b) bytes quote') : StaysInTag quote (b :: bytes) quote' :=
  (singleton h).append h'

/-- Bytes outside of quotes. -/
theorem unquoted (hclose : byte '>' ∉ bytes) (hdouble : byte '"' ∉ bytes)
    (hsingle : byte '\'' ∉ bytes) : StaysInTag none bytes none := by
  induction bytes with
  | nil => exact nil none
  | cons b bytes ih =>
      rw [List.mem_cons, not_or] at hclose hdouble hsingle
      have hquote : quoteAfter none b = none := by
        simp [quoteAfter, Ne.symm hdouble.1, Ne.symm hsingle.1]
      apply cons
      · simpa using Ne.symm hclose.1
      · rw [hquote]
        exact ih hclose.2 hdouble.2 hsingle.2

/-- Bytes between two quotes. -/
theorem quoted {q : UInt8} (h : q ∉ bytes) : StaysInTag (some q) bytes (some q) := by
  induction bytes with
  | nil => exact nil (some q)
  | cons b bytes ih =>
      rw [List.mem_cons, not_or] at h
      have hquote : quoteAfter (some q) b = some q := by
        simp [quoteAfter, Ne.symm h.1]
      apply cons rfl
      rw [hquote]
      exact ih h.2

theorem opensQuote (q : Quote) (h : StaysInTag (some q.byte) bytes quote') :
    StaysInTag none (q.byte :: bytes) quote' := by
  have hquote : quoteAfter none q.byte = some q.byte := by
    cases q <;> decide
  apply cons
  · cases q <;> decide
  · rw [hquote]
    exact h

theorem closesQuote {q : UInt8} (h : StaysInTag none bytes quote') :
    StaysInTag (some q) (q :: bytes) quote' := by
  have hquote : quoteAfter (some q) q = none := by
    simp [quoteAfter]
  apply cons rfl
  rw [hquote]
  exact h

/-- Written attributes leave the tag open and no quote. -/
theorem writeAttributes (q : Quote) {attributes : List (String × String)}
    (hkeys : ∀ a ∈ attributes, isName a.1 = true) :
    StaysInTag none (Utf8.encode (Markup.writeAttributes q attributes)) none := by
  induction attributes with
  | nil => exact nil none
  | cons a rest ih =>
      obtain ⟨hkey, hkeys⟩ := List.forall_mem_cons.mp hkeys
      have hname : StaysInTag none (Utf8.encode a.1) none :=
        unquoted (byte_not_mem_of_isName hkey (by decide)) (byte_not_mem_of_isName hkey (by decide))
          (byte_not_mem_of_isName hkey (by decide))
      rw [encode_writeAttributes_cons]
      refine cons (by decide) (hname.append (cons (by decide) ?_))
      apply opensQuote
      apply (quoted (q.not_mem_escape a.2)).append
      exact closesQuote (ih hkeys)

end StaysInTag

/-- A tag that begins neither a comment nor an instruction is read up to its bracket. -/
theorem scanFrom_tag {b : UInt8} {bytes : Bytes} (hbang : b ≠ byte '!') (hquestion : b ≠ byte '?')
    (hstays : StaysInTag none (b :: bytes) none) (done : List Token) (rest : Bytes) :
    scanFrom done (.text []) (byte '<' :: (b :: bytes) ++ byte '>' :: rest) =
      scanFrom (tagToken (b :: bytes) :: done) (.text []) rest := by
  have hangle : scanFrom done .angle (b :: bytes ++ byte '>' :: rest) =
      scanFrom done (.tag none []) (b :: bytes ++ byte '>' :: rest) := by
    simp [scanFrom, ScanState.step, hbang, hquestion]
  have hopen : scanFrom done (.text []) (byte '<' :: (b :: bytes) ++ byte '>' :: rest) =
      scanFrom done .angle (b :: bytes ++ byte '>' :: rest) := rfl
  rw [hopen, hangle, hstays, scanFrom, ScanState.step, ScanState.tagStep]
  simp

theorem scanFrom_text_append {bytes : Bytes} (h : byte '<' ∉ bytes) (done : List Token)
    (seen rest : Bytes) :
    scanFrom done (.text seen) (bytes ++ rest) =
      scanFrom done (.text (bytes.reverse ++ seen)) rest := by
  induction bytes generalizing seen with
  | nil => rfl
  | cons b bytes ih =>
      rw [List.mem_cons, not_or] at h
      have hstep : ScanState.step (.text seen) b = .go (.text (b :: seen)) := by
        simp [ScanState.step, Ne.symm h.1]
      rw [List.cons_append, scanFrom, hstep]
      simp only [ih h.2, List.reverse_cons, List.append_assoc, List.singleton_append]

/-- Text without brackets is a token of its own before a tag. -/
theorem scanFrom_text {bytes : Bytes} (hne : bytes ≠ []) (h : byte '<' ∉ bytes) (done : List Token)
    (rest : Bytes) :
    scanFrom done (.text []) (bytes ++ byte '<' :: rest) =
      scanFrom (.text bytes :: done) (.text []) (byte '<' :: rest) := by
  have hempty : bytes.reverse.isEmpty = false := by
    simpa using hne
  rw [scanFrom_text_append h, List.append_nil, scanFrom, ScanState.step]
  simp only [beq_self_eq_true, if_true, hempty, Bool.false_eq_true, if_false, List.reverse_reverse]
  rfl

/-! ### Tokens of a written element -/

/-- A tag without a slash at either end opens an element. -/
theorem tagToken_of_not_slash {b : UInt8} {bytes : Bytes} (hfirst : b ≠ byte '/')
    (hlast : (b :: bytes).getLast? ≠ some (byte '/')) :
    tagToken (b :: bytes) = .opening (b :: bytes) := by
  simp [tagToken, hfirst, hlast]

/-- Written attributes, where there are any, end in a quote. -/
theorem getLast?_writeAttributes {q : Quote} {attributes : List (String × String)} {b : UInt8}
    (h : (Utf8.encode (writeAttributes q attributes)).getLast? = some b) : b = q.byte := by
  induction attributes with
  | nil => cases h
  | cons a rest ih =>
      rw [encode_writeAttributes_cons] at h
      simp only [List.getLast?_cons, List.getLast?_append, Option.some.injEq] at h
      cases hrest : (Utf8.encode (writeAttributes q rest)).getLast? with
      | none =>
          rw [hrest] at h
          exact h.symm
      | some c =>
          rw [hrest] at h ih
          cases h
          exact ih rfl

theorem trimName_eq_self {name : Bytes} (h : ∀ b ∈ name, isSpace b = false) :
    trimName name = name := by
  have hdrop : name.reverse.dropWhile isSpace = name.reverse := by
    cases hname : name.reverse with
    | nil => rfl
    | cons b rest =>
        have hb : b ∈ name := List.mem_reverse.mp (hname ▸ List.mem_cons_self)
        rw [List.dropWhile_cons_of_neg (by rw [h b hb]; exact Bool.false_ne_true)]
  simp only [trimName, hdrop, List.reverse_reverse]
  split <;> rfl

namespace Element

variable {e : Element}

theorem write_eq (q : Quote) (e : Element) :
    e.write q = "<" ++ e.startContent q ++ ">" ++ escape (e.text.getD "") ++
      writeAll q e.children ++ "</" ++ e.qualifiedName ++ ">" := by
  cases e
  rw [write]

theorem tokens_eq (q : Quote) (e : Element) :
    e.tokens q = .opening (Utf8.encode (e.startContent q)) ::
      (textTokens e.text ++ tokensAll q e.children ++ [.closing e.writtenName]) := by
  cases e
  rw [tokens]

theorem allWritable_iff {es : List Element} : AllWritable es ↔ ∀ e ∈ es, e.Writable := by
  induction es with
  | nil => simp [AllWritable]
  | cons e rest ih => rw [AllWritable, ih, List.forall_mem_cons]

theorem writable_iff : e.Writable ↔
    e.HasNames ∧ (∀ s ∈ e.text, isAllBlank s = false) ∧ ∀ c ∈ e.children, c.Writable := by
  cases e
  rw [Writable, allWritable_iff]

/-- The pieces of a written element in bytes. -/
theorem encode_write (q : Quote) (e : Element) :
    Utf8.encode (e.write q) =
      byte '<' :: (Utf8.encode (e.startContent q) ++ byte '>' ::
        (Utf8.encode (escape (e.text.getD "")) ++ (Utf8.encode (writeAll q e.children) ++
          byte '<' :: (byte '/' :: e.writtenName ++ [byte '>'])))) := by
  have hopen : Utf8.encode "<" = [byte '<'] := by decide
  have hclose : Utf8.encode ">" = [byte '>'] := by decide
  have hslash : Utf8.encode "</" = [byte '<', byte '/'] := by decide
  rw [write_eq, writtenName]
  simp [Utf8.encode_append, hopen, hclose, hslash]

theorem HasNames.staysInTag (h : e.HasNames) : StaysInTag none e.writtenName none :=
  .unquoted (h.byte_not_mem (by decide) (by decide)) (h.byte_not_mem (by decide) (by decide))
    (h.byte_not_mem (by decide) (by decide))

theorem HasNames.staysInTag_startContent (h : e.HasNames) (q : Quote) :
    StaysInTag none (Utf8.encode (e.startContent q)) none := by
  rw [encode_startContent]
  exact h.staysInTag.append (.writeAttributes q fun a ha => (h.keys a ha).1)

/-- The last byte of a start tag belongs to a name or is a quote. -/
theorem HasNames.getLast?_startContent (h : e.HasNames) (q : Quote) :
    (Utf8.encode (e.startContent q)).getLast? ≠ some (byte '/') := by
  rw [encode_startContent, List.getLast?_append, ne_eq, Option.or_eq_some_iff, not_or]
  constructor
  · intro hlast
    have hquote := getLast?_writeAttributes hlast
    exact absurd hquote (by cases q <;> decide)
  · rintro ⟨-, hlast⟩
    exact h.byte_not_mem (by decide) (by decide) (List.mem_of_getLast? hlast)

/-- The start tag is one token. -/
theorem HasNames.scanFrom_startTag (h : e.HasNames) (q : Quote) (done : List Token) (rest : Bytes) :
    scanFrom done (.text [])
        (byte '<' :: (Utf8.encode (e.startContent q) ++ byte '>' :: rest)) =
      scanFrom (.opening (Utf8.encode (e.startContent q)) :: done) (.text []) rest := by
  have hstays := h.staysInTag_startContent q
  have hlast := h.getLast?_startContent q
  have hfirst : ∀ {x}, x ∈ reserved → x ≠ ':' →
      (Utf8.encode (e.startContent q)).head? ≠ some (byte x) := by
    intro x hx hcolon hhead
    rw [encode_startContent, List.head?_append_of_ne_nil _ h.writtenName_ne_nil] at hhead
    exact h.byte_not_mem hx hcolon (List.mem_of_head? hhead)
  cases hcontent : Utf8.encode (e.startContent q) with
  | nil =>
      rw [encode_startContent, List.append_eq_nil_iff] at hcontent
      exact absurd hcontent.1 h.writtenName_ne_nil
  | cons b bytes =>
      simp only [hcontent, List.head?_cons, ne_eq, Option.some.injEq] at hstays hlast hfirst
      have htag := scanFrom_tag (hfirst (by decide) (by decide)) (hfirst (by decide) (by decide))
        hstays done rest
      rw [tagToken_of_not_slash (hfirst (by decide) (by decide)) hlast] at htag
      exact htag

theorem HasNames.scanFrom_endTag (h : e.HasNames) (done : List Token) (rest : Bytes) :
    scanFrom done (.text []) (byte '<' :: (byte '/' :: e.writtenName ++ byte '>' :: rest)) =
      scanFrom (.closing e.writtenName :: done) (.text []) rest := by
  have hstays : StaysInTag none (byte '/' :: e.writtenName) none :=
    .cons (by decide) h.staysInTag
  have hname : tagToken (byte '/' :: e.writtenName) = .closing e.writtenName := by
    simp [tagToken, trimName_eq_self fun b hb => h.isSpace_eq_false hb]
  have htag := scanFrom_tag (by decide) (by decide) hstays done rest
  rw [hname] at htag
  exact htag

end Element

/-! ### Tokens of a written tree -/

/-- The bytes are scanned as these tokens, whatever follows them. -/
def ScansTo (bytes : Bytes) (ts : List Token) : Prop :=
  ∀ (done : List Token) (rest : Bytes),
    scanFrom done (.text []) (bytes ++ rest) = scanFrom (ts.reverse ++ done) (.text []) rest

theorem ScansTo.append {bytes bytes' : Bytes} {ts ts' : List Token} (h : ScansTo bytes ts)
    (h' : ScansTo bytes' ts') : ScansTo (bytes ++ bytes') (ts ++ ts') := by
  intro done rest
  rw [List.append_assoc, h, h', List.reverse_append, List.append_assoc]

namespace Element

variable {e : Element}

theorem encode_escape_ne_nil {s : String} (h : isAllBlank s = false) :
    Utf8.encode (escape s) ≠ [] := by
  intro hnil
  have hdecode := decodeText_escape s
  rw [hnil] at hdecode
  cases hdecode
  cases h

/-- The text of an element, with the tag that follows it. -/
theorem scanFrom_textTokens {text : Option String} (h : ∀ s ∈ text, isAllBlank s = false)
    (done : List Token) (rest : Bytes) :
    scanFrom done (.text []) (Utf8.encode (escape (text.getD "")) ++ byte '<' :: rest) =
      scanFrom ((textTokens text).reverse ++ done) (.text []) (byte '<' :: rest) := by
  cases text with
  | none => rfl
  | some s =>
      exact scanFrom_text (encode_escape_ne_nil (h s rfl)) (byte_not_mem_escape (by decide) s) done
        rest

/-- After its text an element goes on with a tag, be it that of a child or its own. -/
theorem exists_bracket_of_writeAll (q : Quote) (es : List Element) (tail : Bytes) :
    ∃ rest, Utf8.encode (writeAll q es) ++ byte '<' :: tail = byte '<' :: rest := by
  cases es with
  | nil => exact ⟨tail, rfl⟩
  | cons e es =>
      rw [writeAll, Utf8.encode_append, encode_write]
      exact ⟨_, rfl⟩

theorem scansTo_writeAll {q : Quote} {es : List Element}
    (h : ∀ e ∈ es, ScansTo (Utf8.encode (e.write q)) (e.tokens q)) :
    ScansTo (Utf8.encode (writeAll q es)) (tokensAll q es) := by
  induction es with
  | nil =>
      intro done rest
      rfl
  | cons e es ih =>
      obtain ⟨he, hes⟩ := List.forall_mem_cons.mp h
      rw [writeAll, Utf8.encode_append, tokensAll]
      exact he.append (ih hes)

theorem Writable.scansTo_write (h : e.Writable) (q : Quote) :
    ScansTo (Utf8.encode (e.write q)) (e.tokens q) := by
  induction e using treeInduction with
  | element e ih =>
      obtain ⟨hnames, htext, hall⟩ := writable_iff.mp h
      have hchildren := scansTo_writeAll fun c hc => ih c hc (hall c hc)
      intro done rest
      obtain ⟨next, hnext⟩ := exists_bracket_of_writeAll q e.children
        (byte '/' :: e.writtenName ++ byte '>' :: rest)
      rw [encode_write, tokens_eq]
      simp only [List.cons_append, List.append_assoc, List.nil_append] at hnext ⊢
      rw [hnames.scanFrom_startTag, hnext, scanFrom_textTokens htext, ← hnext, hchildren,
        ← List.cons_append, hnames.scanFrom_endTag]
      simp

end Element

end YangEvolution.Markup
