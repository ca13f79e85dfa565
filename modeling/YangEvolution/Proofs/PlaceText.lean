import YangEvolution.Compatibility.Position

/-!
The text of a place. A finding names its place by a path between brackets, behind a value that may
be any text. Main statement: where the names on the paths are free of the characters that paths and
places are written with, the text tells both the path and the value.
-/

namespace YangEvolution

/-- A part of a text that is free of a character ends where that character stands or where the text
does. -/
theorem append_inj_of_stop {stop : Char} {a a' b b' : List Char} (ha : stop ∉ a) (ha' : stop ∉ a')
    (hb : ∀ x ∈ b.head?, x = stop) (hb' : ∀ x ∈ b'.head?, x = stop) (h : a ++ b = a' ++ b') :
    a = a' ∧ b = b' := by
  induction a generalizing a' with
  | nil =>
      cases a' with
      | nil => exact ⟨rfl, h⟩
      | cons y a' =>
          obtain rfl : b = y :: (a' ++ b') := h
          exact absurd (hb y rfl ▸ List.mem_cons_self) ha'
  | cons x a ih =>
      cases a' with
      | nil =>
          obtain rfl : x :: (a ++ b) = b' := h
          exact absurd (hb' x rfl ▸ List.mem_cons_self) ha
      | cons y a' =>
          obtain ⟨rfl, htail⟩ := List.cons.inj h
          obtain ⟨rfl, rfl⟩ := ih (fun hs => ha (List.mem_cons_of_mem _ hs))
            (fun hs => ha' (List.mem_cons_of_mem _ hs)) htail
          exact ⟨rfl, rfl⟩

/-- A name without the characters that set off the parts of a place. -/
structure IsPlain (name : String) : Prop where
  slash : '/' ∉ name.toList
  colon : ':' ∉ name.toList
  bracket : '[' ∉ name.toList

instance (name : String) : Decidable (IsPlain name) :=
  decidable_of_iff ('/' ∉ name.toList ∧ ':' ∉ name.toList ∧ '[' ∉ name.toList)
    ⟨fun ⟨slash, colon, bracket⟩ => ⟨slash, colon, bracket⟩,
      fun h => ⟨h.slash, h.colon, h.bracket⟩⟩

namespace SchemaPath

/-- All names on the path are plain. -/
def Plain (p : SchemaPath) : Prop :=
  ∀ s ∈ p.segments, IsPlain s.owner ∧ IsPlain s.localName

/-- The characters of a path other than the root. -/
def chars (segments : List Segment) : List Char :=
  segments.flatMap fun s => '/' :: (s.owner.toList ++ ':' :: s.localName.toList)

theorem chars_cons (s : Segment) (rest : List Segment) :
    chars (s :: rest) = '/' :: (s.owner.toList ++ ':' :: (s.localName.toList ++ chars rest)) := by
  simp [chars]

theorem toList_text (p : SchemaPath) :
    p.text.toList = if p.segments.isEmpty then ['/'] else chars p.segments := by
  unfold text
  split
  · rfl
  · simp [chars, Segment.text, List.flatMap_map]

theorem head?_chars (segments : List Segment) : ∀ x ∈ (chars segments).head?, x = '/' := by
  cases segments with
  | nil => simp [chars]
  | cons s rest => simp [chars_cons]

theorem chars_injective {segments segments' : List Segment} (hp : Plain ⟨segments⟩)
    (hp' : Plain ⟨segments'⟩) (h : chars segments = chars segments') : segments = segments' := by
  induction segments generalizing segments' with
  | nil =>
      cases segments' with
      | nil => rfl
      | cons s' rest' => simp [chars] at h
  | cons s rest ih =>
      cases segments' with
      | nil => simp [chars] at h
      | cons s' rest' =>
          obtain ⟨⟨howner, hlocal⟩, hrest⟩ := List.forall_mem_cons.mp hp
          obtain ⟨⟨howner', hlocal'⟩, hrest'⟩ := List.forall_mem_cons.mp hp'
          rw [chars_cons, chars_cons] at h
          obtain ⟨howners, h⟩ := append_inj_of_stop howner.colon howner'.colon (by simp) (by simp)
            (List.cons.inj h).2
          obtain ⟨hlocals, h⟩ := append_inj_of_stop hlocal.slash hlocal'.slash
            (head?_chars rest) (head?_chars rest') (List.cons.inj h).2
          obtain rfl := ih hrest hrest' h
          obtain ⟨owner, localName⟩ := s
          obtain ⟨owner', localName'⟩ := s'
          simp_all [String.toList_inj]

theorem colon_mem_chars {segments : List Segment} (h : segments ≠ []) : ':' ∈ chars segments := by
  cases segments with
  | nil => exact absurd rfl h
  | cons s rest => simp [chars]

theorem text_injective {p q : SchemaPath} (hp : p.Plain) (hq : q.Plain) (h : p.text = q.text) :
    p = q := by
  obtain ⟨segments⟩ := p
  obtain ⟨segments'⟩ := q
  have hchars := congrArg String.toList h
  rw [toList_text, toList_text] at hchars
  cases segments with
  | nil =>
      cases segments' with
      | nil => rfl
      | cons s' rest' =>
          have hcolon := colon_mem_chars (List.cons_ne_nil s' rest')
          rw [← show ['/'] = chars (s' :: rest') from hchars] at hcolon
          simp at hcolon
  | cons s rest =>
      cases segments' with
      | nil =>
          have hcolon := colon_mem_chars (List.cons_ne_nil s rest)
          rw [show chars (s :: rest) = ['/'] from hchars] at hcolon
          simp at hcolon
      | cons s' rest' => exact congrArg mk (chars_injective hp hq hchars)

theorem bracket_not_mem_text {p : SchemaPath} (hp : p.Plain) : '[' ∉ p.text.toList := by
  obtain ⟨segments⟩ := p
  have hchars : '[' ∉ chars segments := by
    induction segments with
    | nil => simp [chars]
    | cons s rest ih =>
        obtain ⟨⟨howner, hlocal⟩, hrest⟩ := List.forall_mem_cons.mp hp
        simp [chars_cons, howner.bracket, hlocal.bracket, ih hrest]
  rw [toList_text]
  split
  · simp
  · exact hchars

end SchemaPath

/-- A value with its place tells the value and the place: the last bracket that opens is the one
before the path. -/
theorem Position.locate_injective {p q : SchemaPath} (hp : p.Plain) (hq : q.Plain)
    {value value' : String} (h : locate p value = locate q value') : p = q ∧ value = value' := by
  have hchars : p.text.toList.reverse ++ '[' :: ' ' :: value.toList.reverse =
      q.text.toList.reverse ++ '[' :: ' ' :: value'.toList.reverse := by
    simpa [locate] using congrArg (fun s => s.toList.reverse) h
  have hp' : '[' ∉ p.text.toList.reverse := by
    simpa using SchemaPath.bracket_not_mem_text hp
  have hq' : '[' ∉ q.text.toList.reverse := by
    simpa using SchemaPath.bracket_not_mem_text hq
  obtain ⟨hpaths, hvalues⟩ := append_inj_of_stop hp' hq' (by simp) (by simp) hchars
  have htexts : p.text = q.text := String.toList_inj.mp (List.reverse_inj.mp hpaths)
  have hvalue : value.toList.reverse = value'.toList.reverse := by simpa using hvalues
  exact ⟨SchemaPath.text_injective hp hq htexts,
    String.toList_inj.mp (List.reverse_inj.mp hvalue)⟩

theorem Position.locate_right_injective {p : SchemaPath} {value value' : String}
    (h : locate p value = locate p value') : value = value' := by
  have hchars := congrArg String.toList h
  simp only [locate, String.toList_append, List.append_assoc] at hchars
  exact String.toList_inj.mp (List.append_cancel_right hchars)

end YangEvolution
