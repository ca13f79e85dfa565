import YangEvolution.Markup.Token

/-!
Events: the tokens of a document that make up its elements, as far as each end tag closes the
element that was opened last.
-/

namespace YangEvolution.Markup

open Text

inductive Event where
  | opening (content : Bytes)
  | empty (content : Bytes)
  | closing
  | text (bytes : Bytes)
  | cdata (bytes : Bytes)
  deriving DecidableEq

/-- The name of a tag, which ends at the first white space. -/
def tagName (content : Bytes) : Bytes :=
  content.takeWhile fun b => !isSpace b

/-- A name for a message; one that is not UTF-8 is left out. -/
def shownName (name : Bytes) : String :=
  match Utf8.decode name with
  | .ok s => s
  | .error _ => ""

/-- The events of tokens that end in `fault`, where `names` are the open elements from the
innermost on and `done` the events before, in reverse. -/
def eventsFrom (done : List Event) (names : List Bytes) (fault : Option ReadFault) :
    List Token → Reading Event ReadFault
  | [] => ⟨done.reverse, fault⟩
  | .text bytes :: rest => eventsFrom (.text bytes :: done) names fault rest
  | .cdata bytes :: rest => eventsFrom (.cdata bytes :: done) names fault rest
  | .opening content :: rest =>
    eventsFrom (.opening content :: done) (tagName content :: names) fault rest
  | .empty content :: rest => eventsFrom (.empty content :: done) names fault rest
  | .closing name :: rest =>
    match names with
    | [] => ⟨done.reverse, some (.nesting (.unopened (shownName name)))⟩
    | top :: others =>
      if top = name then eventsFrom (.closing :: done) others fault rest
      else ⟨done.reverse, some (.nesting (.mismatched (shownName top) (shownName name)))⟩
  | .skipped :: rest => eventsFrom done names fault rest

/-- The events of a document. -/
def events (bytes : Bytes) : Reading Event ReadFault :=
  eventsFrom [] [] (scan bytes).fault (scan bytes).items

theorem eventsFrom_done (done : List Event) (names : List Bytes) (fault : Option ReadFault)
    (tokens : List Token) :
    eventsFrom done names fault tokens =
      ⟨done.reverse ++ (eventsFrom [] names fault tokens).items,
        (eventsFrom [] names fault tokens).fault⟩ := by
  induction tokens generalizing done names with
  | nil => simp [eventsFrom]
  | cons t rest ih =>
    cases t with
    | text bytes =>
      simp only [eventsFrom]
      rw [ih (.text bytes :: done), ih [.text bytes]]
      simp
    | cdata bytes =>
      simp only [eventsFrom]
      rw [ih (.cdata bytes :: done), ih [.cdata bytes]]
      simp
    | opening content =>
      simp only [eventsFrom]
      rw [ih (.opening content :: done), ih [.opening content]]
      simp
    | empty content =>
      simp only [eventsFrom]
      rw [ih (.empty content :: done), ih [.empty content]]
      simp
    | skipped =>
      simp only [eventsFrom]
      exact ih done names
    | closing name =>
      cases names with
      | nil => simp [eventsFrom]
      | cons top others =>
        simp only [eventsFrom]
        split
        · rw [ih (.closing :: done), ih [.closing]]
          simp
        · simp

end YangEvolution.Markup
