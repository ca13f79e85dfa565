import Mathlib.Algebra.Order.Ring.Int
import Mathlib.Algebra.Order.Ring.Nat
import YangEvolution.Outcome.Except
import YangEvolution.Proofs.FirstMatch
import YangEvolution.Yin.Numbering

/-!
Numbers that are not stated. Enums and bits are numbered in one way: a statement is read with one
more than the highest number before it at hand. Main statements: an enum whose value is neither
stated nor inherited gets one more than the highest value before it, but never less than zero, and
fails exactly where that is too much; and for enums as for bits, a number given in this way is above
all before it, a number that is not stated is an inherited one where the name is inherited, and
nothing is numbered past the end of the range.
-/

namespace YangEvolution.Yin

open Text Markup Outcome

/-! ### A run over statements -/

section Run

variable {α β : Type} [Semiring α] [LinearOrder α]

/-- One more than the highest of numbers, and not less than `next`. -/
def nextAfter (next : α) (numbers : List α) : α :=
  numbers.foldl (fun highest v => max highest (v + 1)) next

theorem nextAfter_le_iff {next bound : α} {numbers : List α} :
    nextAfter next numbers ≤ bound ↔ next ≤ bound ∧ ∀ v ∈ numbers, v + 1 ≤ bound := by
  induction numbers generalizing next with
  | nil => simp [nextAfter]
  | cons v rest ih =>
      show nextAfter (max next (v + 1)) rest ≤ bound ↔ _
      rw [ih, max_le_iff, List.forall_mem_cons, and_assoc]

theorem add_one_le_nextAfter {next v : α} {numbers : List α} (hv : v ∈ numbers) :
    v + 1 ≤ nextAfter next numbers :=
  (nextAfter_le_iff.mp le_rfl).2 v hv

theorem nextAfter_eq_or (next : α) (numbers : List α) :
    nextAfter next numbers = next ∨ ∃ v ∈ numbers, v + 1 = nextAfter next numbers := by
  induction numbers generalizing next with
  | nil => exact .inl rfl
  | cons v rest ih =>
      change nextAfter (max next (v + 1)) rest = next ∨
        ∃ w ∈ v :: rest, w + 1 = nextAfter (max next (v + 1)) rest
      rcases ih (max next (v + 1)) with h | ⟨w, hw, h⟩
      · rcases max_choice next (v + 1) with hmax | hmax
        · exact .inl (h.trans hmax)
        · exact .inr ⟨v, List.mem_cons_self, (h.trans hmax).symm⟩
      · exact .inr ⟨w, List.mem_cons_of_mem _ hw, h⟩

variable (entry : α → Element → Except LoadFault β) (number : β → α)

/-- The entries of statements, each read with one more than the highest number before it. -/
def entriesFrom (next : α) : List Element → Except LoadFault (List β)
  | [] => .ok []
  | stmt :: rest => do
    let e ← entry next stmt
    let others ← entriesFrom (max next (number e + 1)) rest
    .ok (e :: others)

variable {entry number}

theorem entriesFrom_append (next : α) (before after : List Element) :
    entriesFrom entry number next (before ++ after) = (do
      let earlier ← entriesFrom entry number next before
      let later ← entriesFrom entry number (nextAfter next (earlier.map number)) after
      .ok (earlier ++ later)) := by
  induction before generalizing next with
  | nil =>
      rw [List.nil_append, entriesFrom, ok_bind]
      show entriesFrom entry number next after = entriesFrom entry number next after >>= Except.ok
      exact (bind_pure _).symm
  | cons stmt rest ih =>
      simp only [List.cons_append, entriesFrom, ih, bind_assoc, ok_bind, List.map_cons, nextAfter,
        List.foldl_cons]

/-- Each statement has one entry, which is read with what the entries before it leave. -/
theorem exists_entry {next : α} {stmts : List Element} {entries : List β}
    (h : entriesFrom entry number next stmts = .ok entries) {i : Nat} {stmt : Element}
    (hi : stmts[i]? = some stmt) :
    ∃ e, entries[i]? = some e ∧
      entry (nextAfter next ((entries.take i).map number)) stmt = .ok e := by
  induction stmts generalizing next entries i with
  | nil => simp at hi
  | cons first rest ih =>
      obtain ⟨e, he, h⟩ := exists_of_bind_eq_ok h
      obtain ⟨others, hothers, h⟩ := exists_of_bind_eq_ok h
      cases h
      cases i with
      | zero =>
          obtain rfl : first = stmt := by simpa using hi
          exact ⟨e, rfl, he⟩
      | succ i => exact ih hothers hi

theorem length_entriesFrom {next : α} {stmts : List Element} {entries : List β}
    (h : entriesFrom entry number next stmts = .ok entries) : entries.length = stmts.length := by
  induction stmts generalizing next entries with
  | nil =>
      cases h
      rfl
  | cons stmt rest ih =>
      obtain ⟨e, -, h⟩ := exists_of_bind_eq_ok h
      obtain ⟨others, hothers, h⟩ := exists_of_bind_eq_ok h
      cases h
      rw [List.length_cons, List.length_cons, ih hothers]

theorem entriesFrom_eq_error {next : α} {before : List Element} {earlier : List β}
    (h : entriesFrom entry number next before = .ok earlier) {stmt : Element} {fault : LoadFault}
    (hstmt : entry (nextAfter next (earlier.map number)) stmt = .error fault)
    (after : List Element) :
    entriesFrom entry number next (before ++ stmt :: after) = .error fault := by
  rw [entriesFrom_append, h, ok_bind, entriesFrom, hstmt]
  rfl

end Run

/-! ### Where a number comes from -/

/-- How the entries of a type are numbered: the statement that a number is stated with, how it is
read, and the highest number. -/
structure Scheme (α β : Type) where
  tag : String
  read : String → Option α
  limit : α
  name : β → String
  number : β → α

def enumScheme : Scheme Int EnumValue where
  tag := "value"
  read := readEnumValue
  limit := Nat.pow 2 31 - 1
  name := EnumValue.name
  number := EnumValue.value

def bitScheme : Scheme Nat Bit where
  tag := "position"
  read := readCount
  limit := Nat.pow 2 32 - 1
  name := Bit.name
  number := Bit.position

namespace Scheme

variable {α β : Type}

/-- The number of a statement is neither stated nor inherited. -/
def Automatic (s : Scheme α β) (inherited : List β) (stmt : Element) : Prop :=
  stmt.childAttribute? s.tag "value" = none ∧
    ∀ b ∈ inherited, stmt.attribute? "name" ≠ some (s.name b)

/-- The three ways in which a statement of a name gets a number, where `next` is one more than the
highest before it. -/
inductive Assigns [LE α] (s : Scheme α β) (inherited : List β) (next : α) (stmt : Element)
    (name : String) : α → Prop where
  | stated {raw : String} {v : α} : stmt.childAttribute? s.tag "value" = some raw →
      s.read raw = some v → Assigns s inherited next stmt name v
  | inherited {b : β} : stmt.childAttribute? s.tag "value" = none →
      IsFirst (fun b => s.name b = name) inherited b →
      Assigns s inherited next stmt name (s.number b)
  | automatic : stmt.childAttribute? s.tag "value" = none →
      (∀ b ∈ inherited, s.name b ≠ name) → next ≤ s.limit →
      Assigns s inherited next stmt name next

/-- The number of a statement of a name. -/
def assign [LE α] [DecidableLE α] (s : Scheme α β) (fault : String → LoadFault)
    (inherited : List β) (next : α) (name : String) (stmt : Element) : Except LoadFault α :=
  match stmt.childAttribute? s.tag "value" with
  | some raw =>
    match s.read raw with
    | some v => .ok v
    | none => .error (fault raw)
  | none =>
    match inherited.find? fun b => s.name b == name with
    | some b => .ok (s.number b)
    | none => if next ≤ s.limit then .ok next else .error (fault name)

theorem assigns_of_assign [LE α] [DecidableLE α] {s : Scheme α β} {fault : String → LoadFault}
    {inherited : List β} {next v : α} {name : String} {stmt : Element}
    (h : s.assign fault inherited next name stmt = .ok v) :
    s.Assigns inherited next stmt name v := by
  unfold assign at h
  split at h
  · rename_i raw hraw
    split at h
    · rename_i w hw
      cases h
      exact .stated hraw hw
    · cases h
  · rename_i hnone
    split at h
    · rename_i b hb
      cases h
      exact .inherited hnone (find?_key_eq_some_iff.mp hb)
    · rename_i hother
      split at h
      · rename_i hlimit
        cases h
        exact .automatic hnone (by simpa using hother) hlimit
      · cases h

theorem assign_of_automatic [LE α] [DecidableLE α] {s : Scheme α β} {fault : String → LoadFault}
    {inherited : List β} {name : String} {stmt : Element}
    (hname : stmt.attribute? "name" = some name) (hauto : s.Automatic inherited stmt) (next : α) :
    s.assign fault inherited next name stmt =
      if next ≤ s.limit then .ok next else .error (fault name) := by
  have hother : (inherited.find? fun b => s.name b == name) = none := by
    refine List.find?_eq_none.mpr fun b hb hsame => hauto.2 b hb ?_
    rw [hname, eq_of_beq hsame]
  unfold assign
  simp only [hauto.1, hother]

theorem Assigns.of_automatic [LE α] {s : Scheme α β} {inherited : List β} {next v : α}
    {stmt : Element} {name : String} (h : s.Assigns inherited next stmt name v)
    (hname : stmt.attribute? "name" = some name) (hauto : s.Automatic inherited stmt) :
    v = next ∧ next ≤ s.limit := by
  obtain ⟨hnone, hinherited⟩ := hauto
  cases h with
  | stated hraw _ => exact absurd (hraw.symm.trans hnone) (Option.some_ne_none _)
  | inherited _ hfirst => exact absurd (hfirst.1 ▸ hname) (hinherited _ hfirst.mem)
  | automatic _ _ hlimit => exact ⟨rfl, hlimit⟩

theorem Assigns.of_inherited [LE α] {s : Scheme α β} {inherited : List β} {next v : α}
    {stmt : Element} {name : String} (h : s.Assigns inherited next stmt name v)
    (hnone : stmt.childAttribute? s.tag "value" = none)
    (hinherited : ∃ b ∈ inherited, s.name b = name) :
    ∃ b ∈ inherited, s.name b = name ∧ s.number b = v := by
  cases h with
  | stated hraw _ => exact absurd (hraw.symm.trans hnone) (Option.some_ne_none _)
  | @inherited b _ hfirst => exact ⟨b, hfirst.mem, hfirst.1, rfl⟩
  | automatic _ hother _ =>
      obtain ⟨b, hb, hsame⟩ := hinherited
      exact absurd hsame (hother b hb)

/-- Entries have the names of their statements, and numbers that come about in one of the ways. -/
def Follows [LE α] (s : Scheme α β) (inherited : List β)
    (entry : α → Element → Except LoadFault β) : Prop :=
  ∀ next stmt e, entry next stmt = .ok e → stmt.attribute? "name" = some (s.name e) ∧
    s.Assigns inherited next stmt (s.name e) (s.number e)

/-- What a run over statements does about numbers that are not stated. -/
structure Apart [LinearOrder α] (s : Scheme α β) (inherited : List β)
    (run : List Element → Except LoadFault (List β)) : Prop where
  greater : ∀ stmts entries, run stmts = .ok entries →
    ∀ i stmt, stmts[i]? = some stmt → s.Automatic inherited stmt →
    ∃ e, entries[i]? = some e ∧ (∀ x ∈ entries.take i, s.number x < s.number e) ∧
      s.number e ≤ s.limit
  carried : ∀ stmts entries, run stmts = .ok entries →
    ∀ (i : Nat) (stmt : Element) name, stmts[i]? = some stmt →
    stmt.childAttribute? s.tag "value" = none →
    stmt.attribute? "name" = some name → name ∈ inherited.map s.name →
    ∃ e, entries[i]? = some e ∧ ∃ b ∈ inherited, s.name b = name ∧ s.name e = name ∧
      s.number e = s.number b
  exhausted : ∀ before entries, run before = .ok entries → s.limit ∈ entries.map s.number →
    ∀ stmt after, s.Automatic inherited stmt →
    ∃ fault, run (before ++ stmt :: after) = .error fault

theorem Follows.apart [Semiring α] [LinearOrder α] [IsStrictOrderedRing α] {s : Scheme α β}
    {inherited : List β} {entry : α → Element → Except LoadFault β} (h : s.Follows inherited entry)
    (first : α) : s.Apart inherited (entriesFrom entry s.number first) where
  greater stmts entries hrun i stmt hi hauto := by
    obtain ⟨e, he, hentry⟩ := exists_entry hrun hi
    obtain ⟨hname, hassigns⟩ := h _ _ _ hentry
    obtain ⟨hnext, hlimit⟩ := hassigns.of_automatic hname hauto
    refine ⟨e, he, fun x hx => ?_, hnext ▸ hlimit⟩
    calc
      s.number x < s.number x + 1 := lt_add_one _
      _ ≤ nextAfter first ((entries.take i).map s.number) :=
        add_one_le_nextAfter (List.mem_map_of_mem hx)
      _ = s.number e := hnext.symm
  carried stmts entries hrun i stmt name hi hnone hname hinherited := by
    obtain ⟨e, he, hentry⟩ := exists_entry hrun hi
    obtain ⟨hown, hassigns⟩ := h _ _ _ hentry
    obtain rfl : name = s.name e := Option.some.inj (hname.symm.trans hown)
    obtain ⟨b, hb, hsame, hnumber⟩ := hassigns.of_inherited hnone (List.mem_map.mp hinherited)
    exact ⟨e, he, b, hb, hsame, rfl, hnumber.symm⟩
  exhausted before entries hrun hlimit stmt after hauto := by
    cases hentry : entry (nextAfter first (entries.map s.number)) stmt with
    | error fault => exact ⟨fault, entriesFrom_eq_error hrun hentry after⟩
    | ok e =>
        -- the statement would have to be numbered past the limit
        obtain ⟨hname, hassigns⟩ := h _ _ _ hentry
        obtain ⟨-, hle⟩ := hassigns.of_automatic hname hauto
        have hpast : s.limit + 1 ≤ nextAfter first (entries.map s.number) :=
          add_one_le_nextAfter hlimit
        exact absurd (hpast.trans hle) (not_le.mpr (lt_add_one _))

end Scheme

/-! ### Enums and bits -/

theorem attribute?_of_argument {owner key value : String} {stmt : Element}
    (h : argument owner stmt key = .ok value) : stmt.attribute? key = some value := by
  unfold argument at h
  split at h
  · cases h
    assumption
  · cases h

section Enums

variable {owner : String} {inherited : List EnumValue}

/-- The enum of one statement. -/
def enumEntry (owner : String) (inherited : List EnumValue) (next : Int) (stmt : Element) :
    Except LoadFault EnumValue := do
  let name ← argument owner stmt "name"
  let value ← enumValue owner inherited next name stmt
  let status ← statusOf owner stmt
  let description := descriptionOf stmt
  let reference := referenceOf stmt
  .ok { name, value, status, description, reference }

theorem enumsOf_eq_entriesFrom :
    enumsOf owner inherited = entriesFrom (enumEntry owner inherited) EnumValue.value 0 := by
  suffices h : ∀ stmts next, enumsFrom owner inherited next stmts =
      entriesFrom (enumEntry owner inherited) EnumValue.value next stmts from
    funext fun stmts => h stmts 0
  intro stmts
  induction stmts with
  | nil => intro next; rfl
  | cons stmt rest ih =>
      intro next
      simp only [enumsFrom, entriesFrom, enumEntry, ih, bind_assoc, ok_bind]

theorem enumValue_eq_assign (next : Int) (name : String) (stmt : Element) :
    enumValue owner inherited next name stmt =
      enumScheme.assign (.invalid owner "enum value") inherited next name stmt := by
  simp only [enumValue, Scheme.assign, enumScheme]
  cases stmt.childAttribute? "value" "value" with
  | some raw =>
      dsimp only
      cases readEnumValue raw <;> rfl
  | none =>
      dsimp only
      cases inherited.find? fun e => e.name == name <;> rfl

theorem enumScheme_follows : enumScheme.Follows inherited (enumEntry owner inherited) := by
  intro next stmt e h
  obtain ⟨name, hname, h⟩ := exists_of_bind_eq_ok h
  obtain ⟨value, hvalue, h⟩ := exists_of_bind_eq_ok h
  obtain ⟨status, -, h⟩ := exists_of_bind_eq_ok h
  cases h
  refine ⟨attribute?_of_argument hname, ?_⟩
  rw [enumValue_eq_assign] at hvalue
  exact Scheme.assigns_of_assign hvalue

end Enums

section Bits

variable {owner : String} {inherited : List Bit}

/-- The bit of one statement. -/
def bitEntry (owner : String) (inherited : List Bit) (next : Nat) (stmt : Element) :
    Except LoadFault Bit := do
  let name ← argument owner stmt "name"
  let position ← bitPosition owner inherited next name stmt
  .ok { name, position, reference := referenceOf stmt }

theorem bitsOf_eq_entriesFrom :
    bitsOf owner inherited = entriesFrom (bitEntry owner inherited) Bit.position 0 := by
  suffices h : ∀ stmts next, bitsFrom owner inherited next stmts =
      entriesFrom (bitEntry owner inherited) Bit.position next stmts from
    funext fun stmts => h stmts 0
  intro stmts
  induction stmts with
  | nil => intro next; rfl
  | cons stmt rest ih =>
      intro next
      simp only [bitsFrom, entriesFrom, bitEntry, ih, bind_assoc, ok_bind]

theorem bitPosition_eq_assign (next : Nat) (name : String) (stmt : Element) :
    bitPosition owner inherited next name stmt =
      bitScheme.assign (.invalid owner "bit position") inherited next name stmt := by
  simp only [bitPosition, Scheme.assign, bitScheme]
  cases stmt.childAttribute? "position" "value" with
  | some raw =>
      dsimp only
      cases readCount raw <;> rfl
  | none =>
      dsimp only
      cases inherited.find? fun b => b.name == name <;> rfl

theorem bitScheme_follows : bitScheme.Follows inherited (bitEntry owner inherited) := by
  intro next stmt b h
  obtain ⟨name, hname, h⟩ := exists_of_bind_eq_ok h
  obtain ⟨position, hposition, h⟩ := exists_of_bind_eq_ok h
  cases h
  refine ⟨attribute?_of_argument hname, ?_⟩
  rw [bitPosition_eq_assign] at hposition
  exact Scheme.assigns_of_assign hposition

end Bits

/-- Numbers that are not stated are inherited or above all before them, and there is none past the
end of the range. -/
theorem unstated_numbers_apart (owner : String) :
    (∀ inherited, enumScheme.Apart inherited (enumsOf owner inherited)) ∧
      ∀ inherited, bitScheme.Apart inherited (bitsOf owner inherited) := by
  refine ⟨fun inherited => ?_, fun inherited => ?_⟩
  · rw [enumsOf_eq_entriesFrom]
    exact enumScheme_follows.apart 0
  · rw [bitsOf_eq_entriesFrom]
    exact bitScheme_follows.apart 0

/-- A statement of an enum or a bit, which may state its number. -/
def entryNamed (tag name : String) (number : Option String) : Element where
  tag := "entry"
  attributes := [("name", name)]
  children := number.toList.map fun n => { tag := tag, attributes := [("value", n)] }

/-- Three levels of which the last is inherited. -/
def levels : List Element :=
  [entryNamed "value" "low" (some "-5"), entryNamed "value" "near" none,
    entryNamed "value" "far" none]

/-- One more than the highest position is none. -/
def flags : List Element :=
  [entryNamed "position" "last" (some "4294967295"), entryNamed "position" "over" none]

theorem unstated_numbers_apart_levels :
    (∃ enums, enumsOf "stops" [{ name := "far", value := 7 }] levels = .ok enums ∧
      (∃ e, enums[1]? = some e ∧ (∀ x ∈ enums.take 1, x.value < e.value) ∧
        e.value ≤ enumScheme.limit) ∧
      ∃ e, enums[2]? = some e ∧ ∃ b ∈ [{ name := "far", value := 7 : EnumValue }],
        b.name = "far" ∧ e.name = "far" ∧ e.value = b.value) ∧
    ∃ fault, bitsOf "stops" [] flags = .error fault := by
  obtain ⟨henums, hbits⟩ := unstated_numbers_apart "stops"
  have hrun : enumsOf "stops" [{ name := "far", value := 7 }] levels =
      .ok [{ name := "low", value := -5 }, { name := "near", value := 0 },
        { name := "far", value := 7 }] := rfl
  have hapart := henums [{ name := "far", value := 7 }]
  refine ⟨⟨_, hrun, ?_, ?_⟩, ?_⟩
  · exact hapart.greater levels _ hrun 1 _ rfl ⟨rfl, by decide⟩
  · exact hapart.carried levels _ hrun 2 _ "far" rfl rfl rfl (by decide)
  · exact (hbits []).exhausted [entryNamed "position" "last" (some "4294967295")]
      [{ name := "last", position := 4294967295 }] rfl (by decide) _ []
      ⟨rfl, List.forall_mem_nil _⟩

/-! ### One more than the highest -/

/-- `Due numbers n`: after these numbers, `n` is due, which is zero for the first of all and
otherwise one more than the highest. -/
inductive Due : List Int → Int → Prop where
  | first : Due [] 0
  | next {numbers : List Int} {highest : Int} : highest ∈ numbers → (∀ v ∈ numbers, v ≤ highest) →
      Due numbers (highest + 1)

theorem exists_due (numbers : List Int) : ∃ n, Due numbers n := by
  induction numbers with
  | nil => exact ⟨0, .first⟩
  | cons v rest ih =>
      obtain ⟨n, hn⟩ := ih
      cases hn with
      | first => exact ⟨v + 1, .next List.mem_cons_self (by simp)⟩
      | @next _ highest hmem hle =>
          rcases le_total v highest with hv | hv
          · exact ⟨highest + 1, .next (List.mem_cons_of_mem _ hmem)
              (List.forall_mem_cons.mpr ⟨hv, hle⟩)⟩
          · exact ⟨v + 1, .next List.mem_cons_self
              (List.forall_mem_cons.mpr ⟨le_rfl, fun w hw => (hle w hw).trans hv⟩)⟩

theorem Due.nextAfter_eq {numbers : List Int} {n : Int} (h : Due numbers n) :
    nextAfter 0 numbers = max 0 n := by
  refine eq_of_forall_ge_iff fun bound => ?_
  rw [nextAfter_le_iff, max_le_iff]
  cases h with
  | first => simp
  | next hmem hle =>
      refine and_congr_right fun _ => ⟨fun hall => hall _ hmem, fun hbound v hv => ?_⟩
      have := hle v hv
      omega

theorem Due.nonneg_iff {numbers : List Int} {n : Int} (h : Due numbers n) :
    0 ≤ n ↔ numbers = [] ∨ ∃ v ∈ numbers, -1 ≤ v := by
  cases h with
  | first => simp
  | @next _ highest hmem hle =>
      constructor
      · intro hn
        exact .inr ⟨highest, hmem, by omega⟩
      · rintro (rfl | ⟨v, hv, hle'⟩)
        · cases hmem
        · have := hle v hv
          omega

section Enums

variable {owner : String} {inherited : List EnumValue}

theorem enumEntry_of_automatic {stmt : Element} {name : String}
    (hname : stmt.attribute? "name" = some name) (hauto : enumScheme.Automatic inherited stmt)
    (next : Int) :
    enumEntry owner inherited next stmt =
      if next ≤ Nat.pow 2 31 - 1 then do
        let status ← statusOf owner stmt
        let description := descriptionOf stmt
        let reference := referenceOf stmt
        .ok { name, value := next, status, description, reference }
      else .error (.invalid owner "enum value" name) := by
  have hargument : argument owner stmt "name" = .ok name := by rw [argument, hname]
  have hvalue : enumValue owner inherited next name stmt =
      if next ≤ Nat.pow 2 31 - 1 then .ok next else .error (.invalid owner "enum value" name) :=
    (enumValue_eq_assign next name stmt).trans (Scheme.assign_of_automatic hname hauto next)
  rw [enumEntry, hargument, ok_bind, hvalue]
  split
  · rfl
  · rfl

theorem value_of_automatic {stmts : List Element} {enums : List EnumValue}
    (h : enumsOf owner inherited stmts = .ok enums) {i : Nat} {stmt : Element}
    (hi : stmts[i]? = some stmt) (hauto : enumScheme.Automatic inherited stmt) {due : Int}
    (hdue : Due ((enums.take i).map EnumValue.value) due) :
    ∃ e, enums[i]? = some e ∧ e.value = max 0 due := by
  rw [enumsOf_eq_entriesFrom] at h
  obtain ⟨e, he, hentry⟩ := exists_entry h hi
  obtain ⟨hname, hassigns⟩ := enumScheme_follows _ _ _ hentry
  obtain ⟨hvalue, -⟩ := hassigns.of_automatic hname hauto
  exact ⟨e, he, hvalue.trans hdue.nextAfter_eq⟩

theorem enumsOf_append_automatic {before : List Element} {enums : List EnumValue}
    (h : enumsOf owner inherited before = .ok enums) {stmt : Element} {name : String}
    (hname : stmt.attribute? "name" = some name) (hauto : enumScheme.Automatic inherited stmt)
    {due : Int} (hdue : Due (enums.map EnumValue.value) due) (after : List Element) :
    (Nat.pow 2 31 - 1 < due → enumsOf owner inherited (before ++ stmt :: after) =
      .error (.invalid owner "enum value" name)) ∧
    (due ≤ Nat.pow 2 31 - 1 → enumsOf owner inherited (before ++ [stmt]) = do
      let status ← statusOf owner stmt
      let description := descriptionOf stmt
      let reference := referenceOf stmt
      .ok (enums ++ [{ name, value := max 0 due, status, description, reference }])) := by
  rw [enumsOf_eq_entriesFrom] at h ⊢
  have hentry : enumEntry owner inherited (max 0 due) stmt = _ :=
    enumEntry_of_automatic hname hauto (max 0 due)
  constructor
  · intro hover
    rw [if_neg fun hle => absurd ((le_max_right 0 due).trans hle) (not_le.mpr hover)] at hentry
    refine entriesFrom_eq_error h ?_ after
    rw [hdue.nextAfter_eq]
    exact hentry
  · intro hle
    rw [if_pos (max_le (by decide) hle)] at hentry
    rw [entriesFrom_append, h, ok_bind, hdue.nextAfter_eq, entriesFrom, hentry]
    simp only [entriesFrom, bind_assoc, ok_bind]

end Enums

/-- An enum whose value is neither stated nor inherited gets the value that is due, or zero where
that is negative, which is where all values before it are below minus one; and it gets none exactly
where the value that is due is too high. -/
theorem automatic_enum_value_iff (owner : String) (inherited : List EnumValue) :
    (∀ stmts enums, enumsOf owner inherited stmts = .ok enums →
      ∀ (i : Nat) stmt, stmts[i]? = some stmt → enumScheme.Automatic inherited stmt →
      ∃ e due, enums[i]? = some e ∧ Due ((enums.take i).map EnumValue.value) due ∧
        e.value = max 0 due ∧ (e.value = due ↔ i = 0 ∨ ∃ x ∈ enums.take i, -1 ≤ x.value)) ∧
    ∀ before enums, enumsOf owner inherited before = .ok enums →
      ∀ (stmt : Element) name, stmt.attribute? "name" = some name →
      enumScheme.Automatic inherited stmt →
      ∃ due, Due (enums.map EnumValue.value) due ∧
        (Nat.pow 2 31 - 1 < due → ∀ after, enumsOf owner inherited (before ++ stmt :: after) =
          .error (.invalid owner "enum value" name)) ∧
        (due ≤ Nat.pow 2 31 - 1 → enumsOf owner inherited (before ++ [stmt]) = do
          let status ← statusOf owner stmt
          let description := descriptionOf stmt
          let reference := referenceOf stmt
          .ok (enums ++ [{ name, value := max 0 due, status, description, reference }])) := by
  constructor
  · intro stmts enums h i stmt hi hauto
    obtain ⟨due, hdue⟩ := exists_due ((enums.take i).map EnumValue.value)
    obtain ⟨e, he, hvalue⟩ := value_of_automatic h hi hauto hdue
    refine ⟨e, due, he, hdue, hvalue, ?_⟩
    have hne : enums ≠ [] := by
      rintro rfl
      simp at he
    rw [hvalue, max_eq_right_iff, hdue.nonneg_iff]
    simp only [List.map_eq_nil_iff, List.take_eq_nil_iff, hne, or_false, List.mem_map,
      exists_exists_and_eq_and]
  · intro before enums h stmt name hname hauto
    obtain ⟨due, hdue⟩ := exists_due (enums.map EnumValue.value)
    refine ⟨due, hdue, fun hover after => ?_, (enumsOf_append_automatic h hname hauto hdue []).2⟩
    exact (enumsOf_append_automatic h hname hauto hdue after).1 hover

theorem automatic_enum_value_iff_levels :
    (∃ enums, enumsOf "stops" [{ name := "far", value := 7 }]
        (levels ++ [entryNamed "value" "top" none]) = .ok enums ∧
      (∃ e due, enums[1]? = some e ∧ Due ((enums.take 1).map EnumValue.value) due ∧
        e.value = max 0 due ∧ e.value ≠ due) ∧
      ∃ e due, enums[3]? = some e ∧ Due ((enums.take 3).map EnumValue.value) due ∧
        e.value = max 0 due ∧ e.value = due) ∧
    ∃ due, Due [2147483647] due ∧
      (Nat.pow 2 31 - 1 < due → ∀ after, enumsOf "stops" []
        ([entryNamed "value" "last" (some "2147483647")] ++
          entryNamed "value" "over" none :: after) =
            .error (.invalid "stops" "enum value" "over")) := by
  have hrun : enumsOf "stops" [{ name := "far", value := 7 }]
      (levels ++ [entryNamed "value" "top" none]) =
      .ok [{ name := "low", value := -5 }, { name := "near", value := 0 },
        { name := "far", value := 7 }, { name := "top", value := 8 }] := rfl
  have hall := (automatic_enum_value_iff "stops" [{ name := "far", value := 7 }]).1 _ _ hrun
  refine ⟨⟨_, hrun, ?_, ?_⟩, ?_⟩
  · obtain ⟨e, due, he, hdue, hvalue, hiff⟩ := hall 1 _ rfl ⟨rfl, by decide⟩
    exact ⟨e, due, he, hdue, hvalue, fun heq => absurd (hiff.mp heq) (by decide)⟩
  · obtain ⟨e, due, he, hdue, hvalue, hiff⟩ := hall 3 _ rfl ⟨rfl, by decide⟩
    exact ⟨e, due, he, hdue, hvalue, hiff.mpr (by decide)⟩
  · obtain ⟨due, hdue, hover, -⟩ := (automatic_enum_value_iff "stops" []).2
      [entryNamed "value" "last" (some "2147483647")] [{ name := "last", value := 2147483647 }] rfl
      (entryNamed "value" "over" none) "over" rfl ⟨rfl, List.forall_mem_nil _⟩
    exact ⟨due, hdue, hover⟩

/-- After an enum of the value minus five, minus four is due, and zero is given. -/
theorem zero_after_negative_enum :
    ∃ enums e, enumsOf "stops" []
        [entryNamed "value" "low" (some "-5"), entryNamed "value" "near" none] = .ok enums ∧
      enumScheme.Automatic [] (entryNamed "value" "near" none) ∧ enums[1]? = some e ∧
      Due ((enums.take 1).map EnumValue.value) (-4) ∧ e.value = 0 := by
  have hdue : Due [-5] (-5 + 1) := .next List.mem_cons_self (by simp)
  exact ⟨[{ name := "low", value := -5 }, { name := "near", value := 0 }], _, rfl,
    ⟨rfl, List.forall_mem_nil _⟩, rfl, hdue, rfl⟩

end YangEvolution.Yin
