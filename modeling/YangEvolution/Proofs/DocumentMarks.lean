import YangEvolution.Proofs.TagElement

/-!
The elements of a tree and the tags of a document as one kind of listing. A tree is listed in
depth-first order as the beginnings and the ends of its elements, and a document as the beginnings
and ends that its start tags, its tags of elements without content and its end tags stand for. The
reader takes the tokens one by one; its open names are as many as the marks before leave open, and
it has at most one event for each byte.
-/

namespace YangEvolution.Markup

open Text

/-- The beginning or the end of an element; its name is as it is written, with its prefix. -/
inductive Mark where
  | begins (name : Bytes) (attributes : List (String × String))
  | ends (name : Bytes)

namespace Element

mutual

/-- The elements of the tree in depth-first order. -/
def marks : Element → List Mark
  | ⟨tag, nsPrefix, attributes, children, text⟩ =>
    let name := writtenName ⟨tag, nsPrefix, attributes, children, text⟩
    .begins name attributes :: (marksAll children ++ [.ends name])

def marksAll : List Element → List Mark
  | [] => []
  | e :: rest => e.marks ++ marksAll rest

end

theorem marks_eq (e : Element) :
    e.marks = .begins e.writtenName e.attributes ::
      (marksAll e.children ++ [.ends e.writtenName]) := by
  cases e
  rfl

@[simp] theorem marksAll_append (es fs : List Element) :
    marksAll (es ++ fs) = marksAll es ++ marksAll fs := by
  induction es with
  | nil => rfl
  | cons e rest ih =>
      rw [List.cons_append, marksAll, marksAll, ih, List.append_assoc]

end Element

/-- The attributes that a tag gives to its element, as far as they can be read. -/
def tagAttributes (content : Bytes) : List (String × String) :=
  match decodeAttributes [] (rawAttributes content).items with
  | .ok attributes => attributes
  | .error _ => []

namespace Token

def marks : Token → List Mark
  | .opening content => [.begins (tagName content) (tagAttributes content)]
  | .empty content => [.begins (tagName content) (tagAttributes content), .ends (tagName content)]
  | .closing name => [.ends name]
  | .text _ => []
  | .cdata _ => []
  | .skipped => []

/-- Whether the name, the attributes and the text of a token can be read. -/
def decodes : Token → Bool
  | .opening content => (elementOfTag content).isOk
  | .empty content => (elementOfTag content).isOk
  | .text bytes => (decodeText bytes).isOk
  | .cdata bytes => (decodeName bytes).isOk
  | .closing _ => true
  | .skipped => true

end Token

/-- The beginnings and ends of elements in a document, in the order of its tags. -/
def documentMarks (bytes : Bytes) : List Mark :=
  (scan bytes).items.flatMap Token.marks

/-- How many elements are open after the marks, when `depth` are open before them. -/
def openAfter (depth : Nat) : List Mark → Nat
  | [] => depth
  | .begins _ _ :: rest => openAfter (depth + 1) rest
  | .ends _ :: rest => openAfter (depth - 1) rest

/-- How many of the marks begin an element that is in no other one. -/
def topLevel (depth : Nat) : List Mark → Nat
  | [] => 0
  | .begins _ _ :: rest => (if depth = 0 then 1 else 0) + topLevel (depth + 1) rest
  | .ends _ :: rest => topLevel (depth - 1) rest

theorem openAfter_append (depth : Nat) (ms ns : List Mark) :
    openAfter depth (ms ++ ns) = openAfter (openAfter depth ms) ns := by
  induction ms generalizing depth with
  | nil => rfl
  | cons m ms ih =>
      cases m with
      | begins name attributes => exact ih (depth + 1)
      | ends name => exact ih (depth - 1)

theorem topLevel_append (depth : Nat) (ms ns : List Mark) :
    topLevel depth (ms ++ ns) = topLevel depth ms + topLevel (openAfter depth ms) ns := by
  induction ms generalizing depth with
  | nil => simp [topLevel, openAfter]
  | cons m ms ih =>
      cases m with
      | begins name attributes =>
          simp only [List.cons_append, topLevel, openAfter, ih (depth + 1)]
          omega
      | ends name => exact ih (depth - 1)

/-! ### What one token leads to -/

namespace Token

/-- The event of a token, unless it says nothing. -/
def events : Token → List Event
  | .text bytes => [.text bytes]
  | .cdata bytes => [.cdata bytes]
  | .opening content => [.opening content]
  | .empty content => [.empty content]
  | .closing _ => [.closing]
  | .skipped => []

/-- The open names after a token, unless it is an end tag of another name than the innermost. -/
def names? (names : List Bytes) : Token → Option (List Bytes)
  | .opening content => some (tagName content :: names)
  | .closing name =>
    match names with
    | [] => none
    | top :: others => if top = name then some others else none
  | .empty _ => some names
  | .text _ => some names
  | .cdata _ => some names
  | .skipped => some names

end Token

/-- The reader either goes on after a token, with the names that are open then, or stops before it
with a fault of nesting. -/
theorem eventsFrom_cons (names : List Bytes) (fault : Option ReadFault) (t : Token)
    (rest : List Token) :
    (∃ names', t.names? names = some names' ∧
      eventsFrom [] names fault (t :: rest) =
        ⟨t.events ++ (eventsFrom [] names' fault rest).items,
          (eventsFrom [] names' fault rest).fault⟩) ∨
    ∃ f, eventsFrom [] names fault (t :: rest) = ⟨[], some (.nesting f)⟩ := by
  cases t with
  | text bytes => exact .inl ⟨names, rfl, eventsFrom_done [.text bytes] names fault rest⟩
  | cdata bytes => exact .inl ⟨names, rfl, eventsFrom_done [.cdata bytes] names fault rest⟩
  | opening content =>
      exact .inl ⟨_, rfl, eventsFrom_done [.opening content] (tagName content :: names) fault rest⟩
  | empty content => exact .inl ⟨names, rfl, eventsFrom_done [.empty content] names fault rest⟩
  | skipped => exact .inl ⟨names, rfl, rfl⟩
  | closing name =>
      cases names with
      | nil => exact .inr ⟨_, rfl⟩
      | cons top others =>
          by_cases h : top = name
          · refine .inl ⟨others, if_pos h, ?_⟩
            rw [eventsFrom]
            simp only [h, if_true]
            exact eventsFrom_done [.closing] others fault rest
          · refine .inr ⟨.mismatched (shownName top) (shownName name), ?_⟩
            rw [eventsFrom]
            simp only [h, if_false]
            rfl

theorem length_of_names? {t : Token} {names names' : List Bytes}
    (h : t.names? names = some names') : names'.length = openAfter names.length t.marks := by
  cases t with
  | closing name =>
      cases names with
      | nil => cases h
      | cons top others =>
          simp only [Token.names?] at h
          split at h
          · cases h
            rfl
          · cases h
  | opening content =>
      cases h
      rfl
  | _ =>
      cases h
      rfl

/-! ### The number of events -/

/-- One where a token has begun that is not emitted yet. -/
def ScanState.pending : ScanState → Nat
  | .text [] => 0
  | _ => 1

theorem ScanState.pending_le_one (state : ScanState) : state.pending ≤ 1 := by
  unfold pending
  split
  · exact Nat.zero_le 1
  · exact Nat.le_refl 1

/-- Only what has begun is emitted. -/
theorem ScanState.pending_of_emit {state next : ScanState} {b : UInt8} {t : Token}
    (h : state.step b = .emit t next) : state.pending = 1 := by
  cases state with
  | text seen =>
      cases seen with
      | nil =>
          simp only [step] at h
          split at h
          · cases h
          · cases h
      | cons c seen => rfl
  | _ => rfl

theorem ScanState.length_finish (state : ScanState) :
    state.finish.items.length ≤ state.pending := by
  cases state with
  | text seen =>
      cases seen with
      | nil => exact Nat.le_refl 0
      | cons c seen => exact Nat.le_refl 1
  | _ => exact Nat.zero_le _

/-- Each byte ends one token at most. -/
theorem length_scanFrom (done : List Token) (state : ScanState) (bytes : Bytes) :
    (scanFrom done state bytes).items.length ≤ done.length + bytes.length + state.pending := by
  induction bytes generalizing done state with
  | nil =>
      have hfinish := state.length_finish
      simp only [scanFrom, List.length_append, List.length_reverse, List.length_nil]
      omega
  | cons b rest ih =>
      rw [scanFrom]
      cases hstep : state.step b with
      | go next =>
          have hnext := ih done next
          have hone := next.pending_le_one
          simp only [List.length_cons]
          omega
      | emit t next =>
          have hnext := ih (t :: done) next
          have hone := next.pending_le_one
          have hpending := ScanState.pending_of_emit hstep
          simp only [List.length_cons] at hnext ⊢
          omega
      | stop fault =>
          simp only [List.length_reverse]
          omega

theorem length_eventsFrom (names : List Bytes) (fault : Option ReadFault) (tokens : List Token) :
    (eventsFrom [] names fault tokens).items.length ≤ tokens.length := by
  induction tokens generalizing names with
  | nil => exact Nat.le_refl 0
  | cons t rest ih =>
      rcases eventsFrom_cons names fault t rest with ⟨names', -, heq⟩ | ⟨f, heq⟩
      · have hone : t.events.length ≤ 1 := by
          cases t <;> simp [Token.events]
        have hrest := ih names'
        rw [heq]
        simp only [List.length_append, List.length_cons]
        omega
      · rw [heq]
        exact Nat.zero_le _

theorem length_events (bytes : Bytes) : (events bytes).items.length ≤ bytes.length := by
  have hevents := length_eventsFrom [] (scan bytes).fault (scan bytes).items
  have hscan := length_scanFrom [] (.text []) (dropMark bytes)
  have hmark : (dropMark bytes).length ≤ bytes.length := by
    unfold dropMark
    split
    · simp
    · exact Nat.le_refl _
  simp only [List.length_nil, ScanState.pending] at hscan
  calc (events bytes).items.length ≤ (scan bytes).items.length := hevents
    _ ≤ bytes.length := by
      unfold scan
      omega

end YangEvolution.Markup
