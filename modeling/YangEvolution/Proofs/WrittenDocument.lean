import YangEvolution.Proofs.DocumentStructure
import YangEvolution.Proofs.WrittenTokens

/-!
Reading a written tree. Its tags close each other, so that they leave the open names as they are,
and the events of an element put that element below the one which is open around it. Main statement:
a document that is written from a tree is read as this tree.
-/

namespace YangEvolution.Markup

open Text Outcome

/-! ### Events -/

/-- The tags among the tokens close each other: the reader takes all of them and is left with the
names that were open before. -/
def Balanced (ts : List Token) : Prop :=
  ∀ (done : List Event) (names : List Bytes) (fault : Option ReadFault) (rest : List Token),
    eventsFrom done names fault (ts ++ rest) =
      eventsFrom ((ts.flatMap Token.events).reverse ++ done) names fault rest

namespace Balanced

variable {ts ts' : List Token}

theorem nil : Balanced [] :=
  fun _ _ _ _ => rfl

theorem append (h : Balanced ts) (h' : Balanced ts') : Balanced (ts ++ ts') := by
  intro done names fault rest
  rw [List.append_assoc, h, h', List.flatMap_append, List.reverse_append, List.append_assoc]

theorem enclosed (h : Balanced ts) (content : Bytes) :
    Balanced (.opening content :: (ts ++ [.closing (tagName content)])) := by
  intro done names fault rest
  rw [List.cons_append, List.append_assoc, eventsFrom, h, List.singleton_append, eventsFrom]
  simp [Token.events]

theorem textTokens (text : Option String) : Balanced (Element.textTokens text) := by
  cases text with
  | none => exact nil
  | some s => exact fun _ _ _ _ => rfl

end Balanced

namespace Element

variable {e : Element}

theorem balanced_tokensAll {q : Quote} {es : List Element} (h : ∀ e ∈ es, Balanced (e.tokens q)) :
    Balanced (tokensAll q es) := by
  induction es with
  | nil => exact .nil
  | cons e es ih =>
      obtain ⟨he, hes⟩ := List.forall_mem_cons.mp h
      rw [tokensAll]
      exact he.append (ih hes)

theorem Writable.balanced_tokens (h : e.Writable) (q : Quote) : Balanced (e.tokens q) := by
  induction e using treeInduction with
  | element e ih =>
      obtain ⟨hnames, -, hall⟩ := writable_iff.mp h
      have hchildren := balanced_tokensAll fun c hc => ih c hc (hall c hc)
      rw [tokens_eq, ← hnames.tagName_startContent q]
      exact ((Balanced.textTokens e.text).append hchildren).enclosed _

/-! ### Building the tree -/

/-- The text of an element is all that its first frame takes on before its children. -/
theorem run_textTokens {text : Option String} (h : ∀ s ∈ text, isAllBlank s = false)
    (head : Element) (stack : List Frame) (root : Option Element) :
    Builder.run ⟨{ head } :: stack, root⟩ ((textTokens text).flatMap Token.events) =
      .ok ⟨{ head, text } :: stack, root⟩ := by
  cases text with
  | none => rfl
  | some s =>
      have hblank := h s rfl
      simp only [textTokens, List.flatMap_singleton, Token.events, Builder.run_singleton,
        Builder.step, decodeText_escape]
      simp [Builder.addText, Frame.addText, hblank, Except.mapError, Except.map]

theorem run_tokensAll {q : Quote} {es : List Element}
    (h : ∀ e ∈ es, ∀ b : Builder, b.run ((e.tokens q).flatMap Token.events) = b.attach e)
    (top : Frame) (stack : List Frame) (root : Option Element) :
    Builder.run ⟨top :: stack, root⟩ ((tokensAll q es).flatMap Token.events) =
      .ok ⟨{ top with children := es.reverse ++ top.children } :: stack, root⟩ := by
  induction es generalizing top with
  | nil => rfl
  | cons e es ih =>
      obtain ⟨he, hes⟩ := List.forall_mem_cons.mp h
      have hattach : Builder.attach ⟨top :: stack, root⟩ e =
          .ok ⟨{ top with children := e :: top.children } :: stack, root⟩ := rfl
      rw [tokensAll, List.flatMap_append, Builder.run_append, he, hattach, ok_bind, ih hes,
        List.reverse_cons, List.append_assoc, List.singleton_append]

/-- A frame that has got the children and the text of an element closes to this element. -/
theorem close_frame (e : Element) :
    Frame.close ⟨⟨e.tag, e.nsPrefix, e.attributes, [], none⟩, e.children.reverse ++ [], e.text⟩ =
      e := by
  cases e
  simp [Frame.close]

/-- A written element is put where the builder puts an element that is closed. -/
theorem Writable.run_tokens (h : e.Writable) (q : Quote) (b : Builder) :
    b.run ((e.tokens q).flatMap Token.events) = b.attach e := by
  induction e using treeInduction generalizing b with
  | element e ih =>
      obtain ⟨hnames, htext, hall⟩ := writable_iff.mp h
      obtain ⟨stack, root⟩ := b
      have hopen : Builder.step ⟨stack, root⟩ (.opening (Utf8.encode (e.startContent q))) =
          .ok ⟨{ head := ⟨e.tag, e.nsPrefix, e.attributes, [], none⟩ } :: stack, root⟩ := by
        rw [Builder.step, hnames.elementOfTag_startContent]
        rfl
      have hchildren := run_tokensAll fun c hc b => ih c hc (hall c hc) b
      rw [tokens_eq, List.flatMap_cons, List.flatMap_append, List.flatMap_append,
        Builder.run_append, Token.events, Builder.run_singleton, hopen, ok_bind,
        Builder.run_append, Builder.run_append, run_textTokens htext, ok_bind, hchildren, ok_bind,
        List.flatMap_singleton, Token.events, Builder.run_singleton]
      exact congrArg (Builder.attach ⟨stack, root⟩) e.close_frame

/-! ### The whole document -/

theorem Writable.scan_write (h : e.Writable) (q : Quote) :
    scan (Utf8.encode (e.write q)) = ⟨e.tokens q, none⟩ := by
  have hmark : dropMark (Utf8.encode (e.write q)) = Utf8.encode (e.write q) := by
    rw [encode_write]
    rfl
  have hscan := h.scansTo_write q [] []
  rw [List.append_nil, List.append_nil] at hscan
  rw [scan, hmark, hscan, scanFrom, List.reverse_reverse]
  simp [ScanState.finish]

theorem Writable.events_write (h : e.Writable) (q : Quote) :
    events (Utf8.encode (e.write q)) = ⟨(e.tokens q).flatMap Token.events, none⟩ := by
  have hevents := h.balanced_tokens q [] [] none []
  rw [List.append_nil, List.append_nil, eventsFrom, List.reverse_reverse] at hevents
  rw [events, h.scan_write q]
  exact hevents

/-- Reading a document undoes writing it, with quotes of either kind. -/
theorem parse_write (h : e.Writable) (q : Quote) : parse (Utf8.encode (e.write q)) = .ok e := by
  rw [parse_eq, h.events_write q, h.run_tokens q]
  rfl

/-- A pattern whose texts look like markup, with both kinds of quotes and a character of two bytes.
-/
def notedPattern : Element where
  tag := "pattern"
  nsPrefix := some "yin"
  attributes := [("note", "say \"a='b'\" />\n"), ("value", "<é&amp;>")]
  children := [⟨"note", none, [], [], none⟩]
  text := some " ]]> &lt; </yin:pattern>"

theorem parse_write_notedPattern :
    notedPattern.Writable ∧
      parse (Utf8.encode (notedPattern.write .single)) = .ok notedPattern ∧
      parse (Utf8.encode (notedPattern.write .double)) = .ok notedPattern := by
  have hpattern : notedPattern.HasNames :=
    { tag := by decide
      lead := by
        intro p hp
        cases hp
        decide
      keys := by decide
      sorted := by decide }
  have hnote : HasNames ⟨"note", none, [], [], none⟩ :=
    { tag := by decide
      lead := by
        intro p hp
        cases hp
      keys := by decide
      sorted := by decide }
  have hwritable : notedPattern.Writable := by
    refine ⟨hpattern, ?_, ⟨hnote, ?_, trivial⟩, trivial⟩
    · intro s hs
      cases hs
      decide
    · intro s hs
      cases hs
  exact ⟨hwritable, parse_write hwritable .single, parse_write hwritable .double⟩

end Element

end YangEvolution.Markup
