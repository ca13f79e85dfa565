import YangEvolution.Proofs.DocumentMarks

/-!
The tree of a document and its tags. The builder of the tree and the reader of the tags keep the
same stack of open names, so that an end tag which closes nothing is always the reader's fault. Main
statement: a document whose tags and texts can be read has a tree if and only if it closes every
element and has one element at its top, and the listing of any tree that is returned is that of the
document.
-/

namespace YangEvolution.Markup

open Text Outcome

/-- The name and the attributes of an element are those of its tag. -/
theorem head_of_tag {content : Bytes} {head : Element} (h : elementOfTag content = .ok head) :
    head.writtenName = tagName content ∧ head.attributes = tagAttributes content ∧
      head.children = [] := by
  obtain ⟨-, hattributes, -, hchildren, -⟩ := elementOfTag_eq_ok_iff.mp h
  refine ⟨writtenName_of_tag h, ?_, hchildren⟩
  rw [tagAttributes, hattributes]

/-! ### What one event leads to -/

/-- The beginning of an open element and its children so far. -/
def Frame.marks (f : Frame) : List Mark :=
  .begins f.head.writtenName f.head.attributes :: Element.marksAll f.children.reverse

theorem Frame.marks_close (f : Frame) : f.close.marks = f.marks ++ [.ends f.head.writtenName] := by
  rw [Element.marks_eq]
  rfl

theorem Frame.marks_addText (f : Frame) (s : String) : (f.addText s).marks = f.marks := by
  unfold addText
  split
  · rfl
  · rfl

theorem Frame.head_addText (f : Frame) (s : String) : (f.addText s).head = f.head := by
  unfold addText
  split
  · rfl
  · rfl

namespace Builder

/-- The names of the open elements, from the innermost on. -/
def names (b : Builder) : List Bytes :=
  b.stack.map fun f => f.head.writtenName

/-- What has been read: the root once it is closed, and the open elements from the outermost on. -/
def marks (b : Builder) : List Mark :=
  (b.root.map Element.marks).getD [] ++ b.stack.reverse.flatMap Frame.marks

/-- How many elements have begun at the top. -/
def tops (b : Builder) : Nat :=
  (if b.root.isSome then 1 else 0) + (if b.stack.isEmpty then 0 else 1)

theorem attach_spec {b b' : Builder} {e : Element} (h : b.attach e = .ok b') :
    b'.names = b.names ∧ b'.marks = b.marks ++ e.marks := by
  obtain ⟨stack, root⟩ := b
  cases stack with
  | cons top rest =>
      cases h
      refine ⟨rfl, ?_⟩
      simp [marks, Frame.marks, Element.marksAll]
  | nil =>
      cases root with
      | none =>
          cases h
          refine ⟨rfl, ?_⟩
          simp [marks]
      | some r => cases h

/-- An element goes below the innermost open one or becomes the root, unless there is one. -/
theorem attach_total (b : Builder) (e : Element) :
    (∃ b', b.attach e = .ok b' ∧ b'.tops = b.tops + if b.stack.length = 0 then 1 else 0) ∨
      (b.attach e = .error (.shape .manyRoots) ∧ b.stack = [] ∧ b.root.isSome = true) := by
  obtain ⟨stack, root⟩ := b
  cases stack with
  | cons top rest => exact .inl ⟨_, rfl, rfl⟩
  | nil =>
      cases root with
      | none => exact .inl ⟨_, rfl, rfl⟩
      | some r => exact .inr ⟨rfl, rfl, rfl⟩

theorem addText_ok (b : Builder) (s : String) :
    ∃ b', b.addText (.ok s) = .ok b' ∧ b'.names = b.names ∧ b'.marks = b.marks ∧
      b'.tops = b.tops := by
  obtain ⟨stack, root⟩ := b
  cases stack with
  | nil => exact ⟨_, rfl, rfl, rfl, rfl⟩
  | cons top rest =>
      refine ⟨_, rfl, ?_, ?_, rfl⟩
      · simp [names, Frame.head_addText]
      · simp [marks, Frame.marks_addText]

theorem addText_spec {b b' : Builder} {text : Except DocumentFault String}
    (h : b.addText text = .ok b') : b'.names = b.names ∧ b'.marks = b.marks := by
  cases text with
  | ok s =>
      obtain ⟨c, hc, hnames, hmarks, -⟩ := b.addText_ok s
      cases hc.symm.trans h
      exact ⟨hnames, hmarks⟩
  | error f =>
      obtain ⟨stack, root⟩ := b
      cases stack with
      | nil =>
          cases h
          exact ⟨rfl, rfl⟩
      | cons top rest => cases h

theorem run_append (b : Builder) (xs ys : List Event) :
    b.run (xs ++ ys) = b.run xs >>= fun b' => b'.run ys := by
  induction xs generalizing b with
  | nil => rfl
  | cons e xs ih =>
      simp only [List.cons_append, run]
      cases b.step e with
      | ok next => exact ih next
      | error fault => rfl

theorem run_singleton (b : Builder) (e : Event) : b.run [e] = b.step e := by
  simp only [run]
  cases b.step e with
  | ok next => rfl
  | error fault => rfl

end Builder

/-! ### One token -/

namespace Builder

/-- The builder follows the reader: it keeps the same open names and adds what the token stands for.
-/
theorem token_spec {t : Token} {b b' : Builder} {names' : List Bytes}
    (hnames : t.names? b.names = some names') (h : b.run t.events = .ok b') :
    b'.names = names' ∧ b'.marks = b.marks ++ t.marks := by
  cases t with
  | skipped =>
      cases h
      cases hnames
      exact ⟨rfl, (List.append_nil _).symm⟩
  | text bytes =>
      cases hnames
      rw [Token.events, run_singleton] at h
      rw [Token.marks, List.append_nil]
      exact addText_spec h
  | cdata bytes =>
      cases hnames
      rw [Token.events, run_singleton] at h
      rw [Token.marks, List.append_nil]
      exact addText_spec h
  | opening content =>
      cases hnames
      rw [Token.events, run_singleton] at h
      obtain ⟨head, hhead, h⟩ := exists_of_bind_eq_ok h
      cases h
      obtain ⟨hname, hattributes, -⟩ := head_of_tag hhead
      constructor
      · simp [names, hname]
      · simp [marks, Frame.marks, Token.marks, hname, hattributes, Element.marksAll]
  | empty content =>
      cases hnames
      rw [Token.events, run_singleton] at h
      obtain ⟨head, hhead, h⟩ := exists_of_bind_eq_ok h
      obtain ⟨hname, hattributes, hchildren⟩ := head_of_tag hhead
      obtain ⟨hsame, hmarks⟩ := attach_spec h
      refine ⟨hsame, ?_⟩
      rw [hmarks, Element.marks_eq, hname, hattributes, hchildren]
      rfl
  | closing name =>
      obtain ⟨stack, root⟩ := b
      cases stack with
      | nil => cases hnames
      | cons top rest =>
          rw [Token.events, run_singleton] at h
          simp only [names, List.map_cons, Token.names?] at hnames
          split at hnames
          · rename_i htop
            cases hnames
            obtain ⟨hsame, hmarks⟩ := attach_spec h
            refine ⟨hsame, ?_⟩
            rw [hmarks, Frame.marks_close, htop]
            simp [marks, Token.marks]
          · cases hnames

/-- Where the token can be read, the builder goes on and counts the elements at the top, or it
refuses one that comes after another. -/
theorem token_total {t : Token} {b : Builder} {names' : List Bytes}
    (hnames : t.names? b.names = some names') (ht : t.decodes = true) :
    (∃ b', b.run t.events = .ok b' ∧ b'.tops = b.tops + topLevel b.stack.length t.marks) ∨
      (b.run t.events = .error (.shape .manyRoots) ∧
        2 ≤ b.tops + topLevel b.stack.length t.marks) := by
  cases t with
  | skipped => exact .inl ⟨b, rfl, rfl⟩
  | text bytes =>
      obtain ⟨s, hs⟩ := exists_of_isOk ht
      obtain ⟨b', hb', -, -, htops⟩ := b.addText_ok s
      refine .inl ⟨b', ?_, htops⟩
      rw [Token.events, run_singleton, step, hs]
      exact hb'
  | cdata bytes =>
      obtain ⟨s, hs⟩ := exists_of_isOk ht
      obtain ⟨b', hb', -, -, htops⟩ := b.addText_ok s
      refine .inl ⟨b', ?_, htops⟩
      rw [Token.events, run_singleton, step, hs]
      exact hb'
  | opening content =>
      obtain ⟨head, hhead⟩ := exists_of_isOk ht
      refine .inl ⟨{ b with stack := { head } :: b.stack }, ?_, ?_⟩
      · rw [Token.events, run_singleton, step, hhead]
        rfl
      · cases hstack : b.stack with
        | nil => simp [tops, topLevel, Token.marks, hstack]
        | cons top rest => simp [tops, topLevel, Token.marks, hstack]
  | empty content =>
      obtain ⟨head, hhead⟩ := exists_of_isOk ht
      have hrun : b.run (Token.events (.empty content)) = b.attach head := by
        rw [Token.events, run_singleton, step, hhead]
        rfl
      rw [hrun]
      rcases b.attach_total head with ⟨b', hb', htops⟩ | ⟨hmany, hstack, hroot⟩
      · exact .inl ⟨b', hb', htops⟩
      · refine .inr ⟨hmany, ?_⟩
        simp [tops, topLevel, Token.marks, hstack, hroot]
  | closing name =>
      obtain ⟨stack, root⟩ := b
      cases stack with
      | nil => cases hnames
      | cons top rest =>
          have hrun : run ⟨top :: rest, root⟩ (Token.events (.closing name)) =
              attach ⟨rest, root⟩ top.close := by
            rw [Token.events, run_singleton]
            rfl
          rw [hrun]
          rcases attach_total ⟨rest, root⟩ top.close with ⟨b', hb', htops⟩ | ⟨hmany, hstack, hroot⟩
          · refine .inl ⟨b', hb', ?_⟩
            rw [htops]
            cases rest with
            | nil => simp [tops, topLevel, Token.marks]
            | cons second rest => simp [tops, topLevel, Token.marks]
          · refine .inr ⟨hmany, ?_⟩
            simp only at hroot
            simp [tops, topLevel, Token.marks, hroot]

end Builder

/-! ### Which faults are about the shape of the tree -/

theorem decodeName_ne_shape (bytes : Bytes) (f : ShapeFault) :
    decodeName bytes ≠ .error (.shape f) := by
  intro h
  unfold decodeName at h
  cases hdecode : Utf8.decode bytes with
  | error e =>
      rw [hdecode] at h
      cases h
  | ok s =>
      rw [hdecode] at h
      cases h

theorem decodeAttributes_ne_shape (done : List (String × String)) (raw : List RawAttribute)
    (f : ShapeFault) : decodeAttributes done raw ≠ .error (.shape f) := by
  induction raw generalizing done with
  | nil =>
      intro h
      cases h
  | cons a rest ih =>
      rw [decodeAttributes]
      split
      · exact ih done
      · have hkey := decodeName_ne_shape a.key f
        cases hdecode : decodeName a.key with
        | error e =>
            intro h
            cases h
            exact hkey hdecode
        | ok key =>
            cases decodeText a.value with
            | error e =>
                intro h
                cases h
            | ok value => exact ih _

theorem elementOfTag_ne_shape (content : Bytes) (f : ShapeFault) :
    elementOfTag content ≠ .error (.shape f) := by
  apply elementOfTag_ne_error
  · intro bytes
    exact decodeName_ne_shape bytes f
  · exact decodeAttributes_ne_shape [] _ f
  · intro fault h
    cases h

namespace Builder

theorem attach_ne_stray (b : Builder) (e : Element) :
    b.attach e ≠ .error (.shape .strayClosing) := by
  intro h
  rcases b.attach_total e with ⟨b', hb', -⟩ | ⟨hmany, -⟩
  · cases hb'.symm.trans h
  · cases hmany.symm.trans h

theorem addText_ne_stray (b : Builder) {text : Except DocumentFault String}
    (htext : text ≠ .error (.shape .strayClosing)) :
    b.addText text ≠ .error (.shape .strayClosing) := by
  unfold addText
  split
  · intro h
    cases h
  · cases text with
    | ok s =>
        intro h
        cases h
    | error e =>
        intro h
        cases h
        exact htext rfl

/-- An end tag that the reader lets through closes an element of the builder. -/
theorem token_ne_stray {t : Token} {b : Builder} {names' : List Bytes}
    (hnames : t.names? b.names = some names') :
    b.run t.events ≠ .error (.shape .strayClosing) := by
  cases t with
  | skipped =>
      intro h
      cases h
  | text bytes =>
      rw [Token.events, run_singleton]
      apply addText_ne_stray
      intro h
      cases hdecode : decodeText bytes with
      | error e =>
          rw [hdecode] at h
          cases h
      | ok s =>
          rw [hdecode] at h
          cases h
  | cdata bytes =>
      rw [Token.events, run_singleton]
      exact addText_ne_stray b (decodeName_ne_shape bytes _)
  | opening content =>
      rw [Token.events, run_singleton]
      apply bind_ne_error (elementOfTag_ne_shape content _)
      intro head _ h
      cases h
  | empty content =>
      rw [Token.events, run_singleton]
      exact bind_ne_error (elementOfTag_ne_shape content _) fun head _ => attach_ne_stray b head
  | closing name =>
      rw [Token.events, run_singleton]
      obtain ⟨stack, root⟩ := b
      cases stack with
      | nil => cases hnames
      | cons top rest => exact attach_ne_stray ⟨rest, root⟩ top.close

/-! ### All tokens -/

theorem run_ne_stray (b : Builder) (fault : Option ReadFault) (tokens : List Token) :
    b.run (eventsFrom [] b.names fault tokens).items ≠ .error (.shape .strayClosing) := by
  induction tokens generalizing b with
  | nil =>
      intro h
      cases h
  | cons t rest ih =>
      rcases eventsFrom_cons b.names fault t rest with ⟨names', hnames, heq⟩ | ⟨f, heq⟩
      · rw [heq, run_append]
        refine bind_ne_error (token_ne_stray hnames) fun b' hb' => ?_
        obtain ⟨rfl, -⟩ := token_spec hnames hb'
        exact ih b'
      · rw [heq]
        intro h
        cases h

/-- What the reader and the builder make of tokens that the reader takes to their end. -/
theorem run_spec {b b' : Builder} {fault : Option ReadFault} {tokens : List Token}
    (hfault : (eventsFrom [] b.names fault tokens).fault = none)
    (h : b.run (eventsFrom [] b.names fault tokens).items = .ok b') :
    b'.marks = b.marks ++ tokens.flatMap Token.marks ∧
      b'.names.length = openAfter b.names.length (tokens.flatMap Token.marks) := by
  induction tokens generalizing b with
  | nil =>
      cases h
      exact ⟨(List.append_nil _).symm, rfl⟩
  | cons t rest ih =>
      rcases eventsFrom_cons b.names fault t rest with ⟨names', hnames, heq⟩ | ⟨f, heq⟩
      · rw [heq] at h hfault
        rw [run_append] at h
        obtain ⟨c, hc, h⟩ := exists_of_bind_eq_ok h
        obtain ⟨rfl, hmarks⟩ := token_spec hnames hc
        obtain ⟨hrest, hlength⟩ := ih hfault h
        rw [List.flatMap_cons, openAfter_append, ← length_of_names? hnames]
        exact ⟨by rw [hrest, hmarks, List.append_assoc], hlength⟩
      · rw [heq] at hfault
        cases hfault

theorem run_total {b : Builder} {fault : Option ReadFault} {tokens : List Token}
    (hfault : (eventsFrom [] b.names fault tokens).fault = none)
    (hdecodes : ∀ t ∈ tokens, t.decodes = true) :
    (∃ b', b.run (eventsFrom [] b.names fault tokens).items = .ok b' ∧
        b'.tops = b.tops + topLevel b.names.length (tokens.flatMap Token.marks)) ∨
      (b.run (eventsFrom [] b.names fault tokens).items = .error (.shape .manyRoots) ∧
        2 ≤ b.tops + topLevel b.names.length (tokens.flatMap Token.marks)) := by
  induction tokens generalizing b with
  | nil => exact .inl ⟨b, rfl, rfl⟩
  | cons t rest ih =>
      obtain ⟨ht, hrest⟩ := List.forall_mem_cons.mp hdecodes
      rcases eventsFrom_cons b.names fault t rest with ⟨names', hnames, heq⟩ | ⟨f, heq⟩
      · have hdepth : b.stack.length = b.names.length := (List.length_map _).symm
        rw [heq] at hfault ⊢
        rw [List.flatMap_cons, topLevel_append, ← length_of_names? hnames, run_append, ← hdepth]
        rcases token_total hnames ht with ⟨c, hc, htops⟩ | ⟨hmany, htops⟩
        · obtain ⟨rfl, -⟩ := token_spec hnames hc
          rw [hc, ok_bind, ← Nat.add_assoc, ← htops]
          exact ih hfault hrest
        · exact .inr ⟨by rw [hmany]; rfl, by omega⟩
      · rw [heq] at hfault
        cases hfault

end Builder

/-! ### The whole document -/

theorem parse_eq (bytes : Bytes) :
    parse bytes = (Builder.run {} (events bytes).items >>= fun b =>
      match (events bytes).fault with
      | some fault => .error (.reading fault)
      | none => b.finish) :=
  rfl

theorem Builder.finish_eq_ok_iff {b : Builder} {e : Element} :
    b.finish = .ok e ↔ b.stack = [] ∧ b.root = some e := by
  obtain ⟨stack, root⟩ := b
  cases stack with
  | cons top rest => simp [finish]
  | nil =>
      cases root with
      | none => simp [finish]
      | some r => simp [finish]

theorem Builder.finish_ne_stray (b : Builder) : b.finish ≠ .error (.shape .strayClosing) := by
  obtain ⟨stack, root⟩ := b
  cases stack with
  | cons top rest => simp [finish]
  | nil =>
      cases root with
      | none => simp [finish]
      | some r => simp [finish]

theorem parse_ne_stray (bytes : Bytes) : parse bytes ≠ .error (.shape .strayClosing) := by
  rw [parse_eq]
  refine bind_ne_error (Builder.run_ne_stray {} _ _) fun b _ => ?_
  cases (events bytes).fault with
  | some fault =>
      intro h
      cases h
  | none => exact b.finish_ne_stray

theorem exists_builder_of_parse {bytes : Bytes} {e : Element} (h : parse bytes = .ok e) :
    ∃ b, Builder.run {} (events bytes).items = .ok b ∧ (events bytes).fault = none ∧
      b.stack = [] ∧ b.root = some e := by
  rw [parse_eq] at h
  obtain ⟨b, hb, h⟩ := exists_of_bind_eq_ok h
  cases hfault : (events bytes).fault with
  | some fault =>
      rw [hfault] at h
      cases h
  | none =>
      rw [hfault] at h
      exact ⟨b, hb, rfl, Builder.finish_eq_ok_iff.mp h⟩

theorem marks_of_parse {bytes : Bytes} {e : Element} (h : parse bytes = .ok e) :
    e.marks = documentMarks bytes := by
  obtain ⟨b, hb, hfault, hstack, hroot⟩ := exists_builder_of_parse h
  obtain ⟨hmarks, -⟩ := Builder.run_spec (b := {}) hfault hb
  simpa [documentMarks, Builder.marks, hstack, hroot] using hmarks

/-- Both counts are those of the builder at the end of the document. -/
theorem exists_parse_iff {bytes : Bytes} (hfault : (events bytes).fault = none)
    (hdecodes : ∀ t ∈ (scan bytes).items, t.decodes = true) :
    (∃ e, parse bytes = .ok e) ↔
      openAfter 0 (documentMarks bytes) = 0 ∧ topLevel 0 (documentMarks bytes) = 1 := by
  have htotal := Builder.run_total (b := {}) hfault hdecodes
  simp only [Builder.tops, Option.isSome_none, Bool.false_eq_true, if_false, List.isEmpty_nil,
    if_true, Nat.zero_add] at htotal
  constructor
  · rintro ⟨e, he⟩
    obtain ⟨b, hb, -, hstack, hroot⟩ := exists_builder_of_parse he
    obtain ⟨-, hopen⟩ := Builder.run_spec (b := {}) hfault hb
    constructor
    · exact hopen.symm.trans (by rw [Builder.names, hstack]; rfl)
    · rcases htotal with ⟨c, hc, htops⟩ | ⟨hmany, -⟩
      · cases hb.symm.trans hc
        exact htops.symm.trans (by rw [hstack, hroot]; rfl)
      · cases hb.symm.trans hmany
  · rintro ⟨hopen, htop⟩
    rcases htotal with ⟨b, hb, htops⟩ | ⟨-, hmany⟩
    · obtain ⟨-, hlength⟩ := Builder.run_spec (b := {}) hfault hb
      have hstack : b.stack = [] :=
        List.length_eq_zero_iff.mp ((List.length_map _).symm.trans (hlength.trans hopen))
      have hone := htops.trans htop
      rw [hstack] at hone
      cases hroot : b.root with
      | none =>
          rw [hroot] at hone
          cases hone
      | some e =>
          refine ⟨e, ?_⟩
          rw [parse_eq, show Builder.run {} (events bytes).items = .ok b from hb, ok_bind]
          simp only [hfault]
          exact Builder.finish_eq_ok_iff.mpr ⟨hstack, hroot⟩
    · have htwo : 2 ≤ topLevel 0 (documentMarks bytes) := hmany
      omega

/-- The tree of a document follows its tags. It takes at most one event for each byte; an end tag
without a start tag is never left to the builder; a document that can be read has a tree exactly if
all its elements are closed and one of them is at the top; and the elements of the tree are those of
the document, in its order. -/
theorem tree_follows_tags (bytes : Bytes) :
    (events bytes).items.length ≤ bytes.length ∧
    parse bytes ≠ .error (.shape .strayClosing) ∧
    ((events bytes).fault = none → (∀ t ∈ (scan bytes).items, t.decodes = true) →
      ((∃ e, parse bytes = .ok e) ↔
        openAfter 0 (documentMarks bytes) = 0 ∧ topLevel 0 (documentMarks bytes) = 1)) ∧
    ∀ e, parse bytes = .ok e → e.marks = documentMarks bytes :=
  ⟨length_events bytes, parse_ne_stray bytes, exists_parse_iff, fun _ => marks_of_parse⟩

/-- A list of two stops. -/
def stopList : Bytes :=
  byteString "<s><a n='1'/>x<a n='2'/></s>"

theorem tree_follows_tags_stopList :
    ∃ e, parse stopList = .ok e ∧ e.marks = documentMarks stopList := by
  have hfault : (events stopList).fault = none := by decide +kernel
  have hdecodes : ∀ t ∈ (scan stopList).items, t.decodes = true := by decide +kernel
  have hcounts : openAfter 0 (documentMarks stopList) = 0 ∧
      topLevel 0 (documentMarks stopList) = 1 := by decide +kernel
  obtain ⟨-, -, hiff, hmarks⟩ := tree_follows_tags stopList
  obtain ⟨e, he⟩ := (hiff hfault hdecodes).mpr hcounts
  exact ⟨e, he, hmarks e he⟩

end YangEvolution.Markup
