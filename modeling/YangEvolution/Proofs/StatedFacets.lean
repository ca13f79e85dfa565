import Mathlib.Data.List.Forall2
import YangEvolution.Proofs.AutomaticNumbers
import YangEvolution.Proofs.DigitText
import YangEvolution.Proofs.TextParts
import YangEvolution.Yin.TypeStatement

/-!
What the statements in a type say, apart from how they are read: which intervals an expression
stands for, where `min` and `max` are the extremes of what it restricts; which pattern, enum or bit
a statement declares, with the number that it states, inherits or gets; and which identity it names.
Main statements: what is read of a statement is what the statement says.
-/

namespace YangEvolution

/-! ### Lists that are read element by element -/

section Elements

variable {α β ε : Type}

theorem forall₂_of_mapM_eq_some {f : α → Option β} {xs : List α} {ys : List β}
    (h : xs.mapM f = some ys) : List.Forall₂ (fun x y => f x = some y) xs ys := by
  induction xs generalizing ys with
  | nil =>
      cases h
      exact .nil
  | cons x rest ih =>
      rw [List.mapM_cons] at h
      obtain ⟨y, hy, h⟩ := Option.bind_eq_some_iff.mp h
      obtain ⟨others, hothers, h⟩ := Option.bind_eq_some_iff.mp h
      cases h
      exact .cons hy (ih hothers)

theorem forall₂_of_mapM_eq_ok {f : α → Except ε β} {xs : List α} {ys : List β}
    (h : xs.mapM f = .ok ys) : List.Forall₂ (fun x y => f x = .ok y) xs ys := by
  induction xs generalizing ys with
  | nil =>
      cases h
      exact .nil
  | cons x rest ih =>
      rw [List.mapM_cons] at h
      obtain ⟨y, hy, h⟩ := Outcome.exists_of_bind_eq_ok h
      obtain ⟨others, hothers, h⟩ := Outcome.exists_of_bind_eq_ok h
      cases h
      exact .cons hy (ih hothers)

end Elements

namespace Text

/-! ### Words and numbers -/

/-- The text `cs` is a word with blanks around it, where the word neither begins nor ends with one.
-/
structure Padded (word cs : List Char) : Prop where
  around : ∃ lead trail, (∀ c ∈ lead, isBlank c = true) ∧ (∀ c ∈ trail, isBlank c = true) ∧
    cs = lead ++ word ++ trail
  begins : ∀ c, word.head? = some c → isBlank c = false
  ends : ∀ c, word.getLast? = some c → isBlank c = false

theorem padded_trimChars (cs : List Char) : Padded (trimChars cs) cs := by
  obtain ⟨lead, hlead, hcs⟩ := eq_blanks_append_trimStartChars cs
  obtain ⟨trail, htrail, hend⟩ := eq_blanks_append_trimStartChars (trimStartChars cs).reverse
  have hword : trimStartChars cs = trimChars cs ++ trail.reverse := by
    have h := congrArg List.reverse hend
    rwa [List.reverse_reverse, List.reverse_append] at h
  refine ⟨⟨lead, trail.reverse, hlead, by simpa using htrail, ?_⟩, ?_, ?_⟩
  · rw [List.append_assoc, ← hword, ← hcs]
  · have hplain := beginsPlain_trimStartChars cs
    rw [hword] at hplain
    exact hplain.append_left
  · intro c hc
    rw [trimChars, trimEndChars, List.getLast?_reverse] at hc
    exact beginsPlain_trimStartChars _ c hc

/-- `IsInteger cs v`: the text `cs` is digits, with at most one sign before them, and stands for
`v`. -/
inductive IsInteger : List Char → Int → Prop where
  | unsigned {digits : List Char} {n : Nat} : digits ≠ [] → Digits digits.length digits n →
      IsInteger digits n
  | plus {digits : List Char} {n : Nat} : digits ≠ [] → Digits digits.length digits n →
      IsInteger ('+' :: digits) n
  | minus {digits : List Char} {n : Nat} : digits ≠ [] → Digits digits.length digits n →
      IsInteger ('-' :: digits) (-n)

theorem isInteger_of_readSigned {lowest highest v : Int} {cs : List Char}
    (h : readSigned lowest highest cs = some v) : IsInteger cs v ∧ lowest ≤ v ∧ v ≤ highest := by
  refine ⟨?_, readSigned_mem h⟩
  simp only [readSigned, Option.filter_eq_some_iff] at h
  obtain ⟨h, -⟩ := h
  split at h
  all_goals
    obtain ⟨w, hw, rfl⟩ := Option.map_eq_some_iff.mp h
    obtain ⟨n, hn, hw⟩ := Option.bind_eq_some_iff.mp hw
    cases hw
    obtain ⟨hne, hdigits⟩ := readNat_eq_some_iff.mp hn
  · exact .minus hne hdigits
  · exact .plus hne hdigits
  · exact .unsigned hne hdigits

end Text

namespace Yin

open Text Markup Outcome

/-! ### Expressions -/

section Expressions

variable (number : List Char → Int → Prop) (base : List Interval)

/-- A bound is a number, or an extreme of the intervals that are restricted. -/
inductive IsBound (cs : List Char) : Int → Prop where
  | min {v : Int} : Padded "min".toList cs → (∃ i ∈ base, i.min = v) → (∀ i ∈ base, v ≤ i.min) →
      IsBound cs v
  | max {v : Int} : Padded "max".toList cs → (∃ i ∈ base, i.max = v) → (∀ i ∈ base, i.max ≤ v) →
      IsBound cs v
  | number {word : List Char} {v : Int} : Padded word cs → word ≠ "min".toList →
      word ≠ "max".toList → number word v → IsBound cs v

/-- One bound, or two in order with dots between them. -/
inductive IsInterval : List Char → Interval → Prop where
  | one {cs : List Char} {v : Int} : IsBound number base cs v → IsInterval cs ⟨v, v⟩
  | two {lo hi : List Char} {v w : Int} : IsBound number base lo v → IsBound number base hi w →
      v ≤ w → IsInterval (lo ++ ['.', '.'] ++ hi) ⟨v, w⟩

/-- One or more intervals with bars between them. -/
def IsExpression (cs : List Char) (intervals : List Interval) : Prop :=
  ∃ parts, parts ≠ [] ∧ cs = ['|'].intercalate parts ∧
    List.Forall₂ (IsInterval number base) parts intervals

variable {number base} {number? : List Char → Option Int} {cs : List Char}

theorem isBound_of_readBound (hnumber : ∀ word v, number? word = some v → number word v) {v : Int}
    (h : readBound base number? cs = some v) : IsBound number base cs v := by
  have hpadded := padded_trimChars cs
  simp only [readBound] at h
  split at h
  · rename_i hmin
    obtain ⟨hmem, hle⟩ := List.min?_eq_some_iff.mp h
    exact .min (hmin ▸ hpadded) (List.mem_map.mp hmem) fun i hi => hle _ (List.mem_map_of_mem hi)
  · rename_i hmin
    split at h
    · rename_i hmax
      obtain ⟨hmem, hle⟩ := List.max?_eq_some_iff.mp h
      exact .max (hmax ▸ hpadded) (List.mem_map.mp hmem) fun i hi => hle _ (List.mem_map_of_mem hi)
    · rename_i hmax
      exact .number hpadded hmin hmax (hnumber _ _ h)

theorem isInterval_of_readInterval (hnumber : ∀ word v, number? word = some v → number word v)
    {i : Interval} (h : readInterval base number? cs = some i) : IsInterval number base cs i := by
  obtain ⟨hbounds, hle⟩ := Option.filter_eq_some_iff.mp h
  unfold readBounds at hbounds
  split at hbounds
  · rename_i lo hi hcut
    obtain ⟨v, hv, hbounds⟩ := Option.bind_eq_some_iff.mp hbounds
    obtain ⟨w, hw, hbounds⟩ := Option.bind_eq_some_iff.mp hbounds
    cases hbounds
    rw [eq_append_of_cut hcut]
    exact .two (isBound_of_readBound hnumber hv) (isBound_of_readBound hnumber hw)
      (of_decide_eq_true hle)
  · obtain ⟨v, hv, rfl⟩ := Option.map_eq_some_iff.mp hbounds
    exact .one (isBound_of_readBound hnumber hv)

theorem isExpression_of_readIntervals (hnumber : ∀ word v, number? word = some v → number word v)
    {intervals : List Interval} (h : readIntervals base number? cs = some intervals) :
    IsExpression number base cs intervals := by
  obtain ⟨hne, -, hparts⟩ := pieces_eq_iff.mp (rfl : pieces '|' cs = pieces '|' cs)
  refine ⟨pieces '|' cs, hne, hparts, ?_⟩
  exact (forall₂_of_mapM_eq_some h).imp fun _ _ => isInterval_of_readInterval hnumber

end Expressions

/-- A length is written as a count of 64 bits. -/
def LengthNumber (cs : List Char) (v : Int) : Prop :=
  ∃ n : Nat, Signed cs n ∧ n ≤ 18446744073709551615 ∧ v = n

/-- A value of an integer type is written as an integer of a 128-bit word. -/
def RangeNumber (cs : List Char) (v : Int) : Prop :=
  IsInteger cs v ∧ wordMin ≤ v ∧ v ≤ wordMax

/-- The lengths that a length restricts; without one beneath it, these are all counts of 64 bits. -/
def lengthsBeneath : Option LengthRestriction → List Interval
  | none => [⟨0, 18446744073709551615⟩]
  | some l => l.intervals

theorem isExpression_of_readLength {owner expr : String} {base : Option LengthRestriction}
    {l : LengthRestriction} (h : readLength owner expr base = .ok l) :
    IsExpression LengthNumber (lengthsBeneath base) expr.toList l.intervals := by
  have hbase : (base.getD .unrestricted).intervals = lengthsBeneath base := by
    cases base <;> rfl
  unfold readLength at h
  split at h
  · rename_i intervals hread
    cases h
    rw [hbase] at hread
    refine isExpression_of_readIntervals (fun word v hv => ?_) hread
    obtain ⟨w, hw, rfl⟩ := Option.map_eq_some_iff.mp hv
    obtain ⟨n, hn, hw⟩ := Option.bind_eq_some_iff.mp hw
    cases hw
    obtain ⟨hle, hsigned⟩ := readUnsigned_eq_some_iff.mp hn
    exact ⟨n, hsigned, hle, rfl⟩
  · cases h

theorem isExpression_of_readRange {owner expr : String} {base r : RangeRestriction}
    (hbase : base.fractionDigits = 0) (h : readRange owner expr base = .ok r) :
    r.fractionDigits = 0 ∧ IsExpression RangeNumber base.intervals expr.toList r.intervals := by
  unfold readRange at h
  split at h
  · rename_i intervals hread
    cases h
    refine ⟨hbase, isExpression_of_readIntervals (fun word v hv => ?_) hread⟩
    rw [readRangeNumber, if_pos hbase] at hv
    exact isInteger_of_readSigned hv
  · cases h

/-! ### Patterns -/

/-- A statement declares a pattern. -/
structure StatesPattern (stmt : Element) (p : Pattern) : Prop where
  regex : stmt.attribute? "value" = some p.regex
  invertMatch : p.invertMatch = true ↔
    stmt.childAttribute? "modifier" "value" = some "invert-match"
  errorMessage : p.errorMessage = stmt.childText? "error-message" "value"
  errorAppTag : p.errorAppTag = stmt.childAttribute? "error-app-tag" "value"
  description : p.description = stmt.childText? "description" "text"
  reference : p.reference = stmt.childText? "reference" "text"

theorem statesPattern_of_patternOf {owner : String} {stmt : Element} {p : Pattern}
    (h : patternOf owner stmt = .ok p) : StatesPattern stmt p := by
  obtain ⟨regex, hregex, h⟩ := exists_of_bind_eq_ok h
  cases h
  exact ⟨attribute?_of_argument hregex, beq_iff_eq, rfl, rfl, rfl, rfl⟩

/-! ### Enums and bits -/

/-- The status that a statement has; it is current unless stated otherwise. -/
inductive StatesStatus (stmt : Element) : Status → Prop where
  | unstated : stmt.childAttribute? "status" "value" = none → StatesStatus stmt .current
  | stated {raw : String} {word : List Char} {status : Status} :
      stmt.childAttribute? "status" "value" = some raw → Padded word raw.toList →
      (String.ofList word, status) ∈
        [("current", .current), ("deprecated", .deprecated), ("obsolete", .obsolete)] →
      StatesStatus stmt status

theorem statesStatus_of_statusOf {owner : String} {stmt : Element} {status : Status}
    (h : statusOf owner stmt = .ok status) : StatesStatus stmt status := by
  unfold statusOf at h
  split at h
  · rename_i hnone
    cases h
    exact .unstated hnone
  · rename_i raw hraw
    split at h
    · rename_i s hs
      cases h
      refine .stated hraw (padded_trimChars _) ?_
      unfold Status.read? at hs
      split at hs
      all_goals rename_i hword; cases hs
      all_goals
        rw [trim] at hword
        rw [hword]
        decide
    · cases h

section Numbers

variable {α β : Type} [Semiring α] [LinearOrder α]

/-- The least number that is not negative and above all earlier ones. -/
structure IsNext (earlier : List α) (v : α) : Prop where
  nonneg : 0 ≤ v
  above : ∀ x ∈ earlier, x + 1 ≤ v
  least : v = 0 ∨ ∃ x ∈ earlier, x + 1 = v

theorem isNext_nextAfter (earlier : List α) : IsNext earlier (nextAfter 0 earlier) where
  nonneg := (nextAfter_le_iff.mp le_rfl).1
  above := fun _ => add_one_le_nextAfter
  least := nextAfter_eq_or 0 earlier

/-- The number of a statement of a name: the one that it states, or else the one of the first
inherited entry of the name, or else the next after the earlier ones. -/
inductive Scheme.Numbers (s : Scheme α β) (numeral : List Char → α → Prop)
    (inherited earlier : List β) (stmt : Element) (name : String) : α → Prop where
  | stated {raw : String} {word : List Char} {v : α} :
      stmt.childAttribute? s.tag "value" = some raw → Padded word raw.toList → numeral word v →
      Numbers s numeral inherited earlier stmt name v
  | inherited {b : β} : stmt.childAttribute? s.tag "value" = none →
      IsFirst (fun b => s.name b = name) inherited b →
      Numbers s numeral inherited earlier stmt name (s.number b)
  | automatic {v : α} : stmt.childAttribute? s.tag "value" = none →
      (∀ b ∈ inherited, s.name b ≠ name) → IsNext (earlier.map s.number) v → v ≤ s.limit →
      Numbers s numeral inherited earlier stmt name v

/-- Each statement declares one entry, in order and in view of the entries before it. -/
structure StatesInTurn (states : List β → Element → β → Prop) (stmts : List Element)
    (entries : List β) : Prop where
  length : entries.length = stmts.length
  states : ∀ i stmt e, stmts[i]? = some stmt → entries[i]? = some e →
    states (entries.take i) stmt e

theorem Scheme.Assigns.numbers {s : Scheme α β} {numeral : List Char → α → Prop}
    {inherited earlier : List β} {stmt : Element} {name : String} {v : α}
    (h : s.Assigns inherited (nextAfter 0 (earlier.map s.number)) stmt name v)
    (hread : ∀ raw v, s.read raw = some v → numeral (trimChars raw.toList) v) :
    s.Numbers numeral inherited earlier stmt name v := by
  cases h with
  | stated hraw hv => exact .stated hraw (padded_trimChars _) (hread _ _ hv)
  | inherited hnone hfirst => exact .inherited hnone hfirst
  | automatic hnone hother hlimit =>
      exact .automatic hnone hother (isNext_nextAfter _) hlimit

theorem statesInTurn_of_entriesFrom {entry : α → Element → Except LoadFault β} {number : β → α}
    {states : List β → Element → β → Prop} {stmts : List Element} {entries : List β}
    (h : entriesFrom entry number 0 stmts = .ok entries)
    (hentry : ∀ earlier stmt e, entry (nextAfter 0 (earlier.map number)) stmt = .ok e →
      states earlier stmt e) : StatesInTurn states stmts entries where
  length := length_entriesFrom h
  states i stmt e hi he := by
    obtain ⟨e', he', hread⟩ := exists_entry h hi
    cases he.symm.trans he'
    exact hentry _ _ _ hread

end Numbers

/-- A statement declares an enum, in view of the enums before it. -/
structure StatesEnum (inherited earlier : List EnumValue) (stmt : Element) (e : EnumValue) :
    Prop where
  name : stmt.attribute? "name" = some e.name
  value : enumScheme.Numbers (fun word v => IsInteger word v ∧ -2147483648 ≤ v ∧ v ≤ 2147483647)
    inherited earlier stmt e.name e.value
  status : StatesStatus stmt e.status
  description : e.description = stmt.childText? "description" "text"
  reference : e.reference = stmt.childText? "reference" "text"

theorem statesEnum_of_enumsOf {owner : String} {inherited enums : List EnumValue}
    {stmts : List Element} (h : enumsOf owner inherited stmts = .ok enums) :
    StatesInTurn (StatesEnum inherited) stmts enums := by
  rw [enumsOf_eq_entriesFrom] at h
  refine statesInTurn_of_entriesFrom h fun earlier stmt e hentry => ?_
  obtain ⟨hname, hassigns⟩ := enumScheme_follows _ _ _ hentry
  obtain ⟨name, -, hentry⟩ := exists_of_bind_eq_ok hentry
  obtain ⟨value, -, hentry⟩ := exists_of_bind_eq_ok hentry
  obtain ⟨status, hstatus, hentry⟩ := exists_of_bind_eq_ok hentry
  cases hentry
  exact ⟨hname, hassigns.numbers fun raw v hv => isInteger_of_readSigned hv,
    statesStatus_of_statusOf hstatus, rfl, rfl⟩

/-- A statement declares a bit, in view of the bits before it. -/
structure StatesBit (inherited earlier : List Bit) (stmt : Element) (b : Bit) : Prop where
  name : stmt.attribute? "name" = some b.name
  position : bitScheme.Numbers (fun word n => Signed word n ∧ n ≤ 4294967295)
    inherited earlier stmt b.name b.position
  reference : b.reference = stmt.childText? "reference" "text"

theorem statesBit_of_bitsOf {owner : String} {inherited bits : List Bit} {stmts : List Element}
    (h : bitsOf owner inherited stmts = .ok bits) :
    StatesInTurn (StatesBit inherited) stmts bits := by
  rw [bitsOf_eq_entriesFrom] at h
  refine statesInTurn_of_entriesFrom h fun earlier stmt b hentry => ?_
  obtain ⟨hname, hassigns⟩ := bitScheme_follows _ _ _ hentry
  obtain ⟨name, -, hentry⟩ := exists_of_bind_eq_ok hentry
  obtain ⟨position, -, hentry⟩ := exists_of_bind_eq_ok hentry
  cases hentry
  refine ⟨hname, hassigns.numbers fun raw n hn => ?_, rfl⟩
  obtain ⟨hle, hsigned⟩ := readUnsigned_eq_some_iff.mp hn
  exact ⟨hsigned, hle⟩

/-! ### Identities -/

/-- A prefix stands for the module that has it itself, or for the one that is first imported under
it; that is the one being loaded where its name is asked for. -/
inductive StandsFor (env : Environment) (source : ModuleSource) (given : String) :
    ModuleSource → Prop where
  | own : given = source.nsPrefix → StandsFor env source given source
  | main {i : Import} : given ≠ source.nsPrefix →
      IsFirst (fun i => i.nsPrefix = given) source.imports i → i.target = env.main.name →
      StandsFor env source given env.main
  | imported {i : Import} {m : ModuleSource} : given ≠ source.nsPrefix →
      IsFirst (fun i => i.nsPrefix = given) source.imports i → i.target ≠ env.main.name →
      IsFirst (fun entry => entry.1 = i.target) env.imports (i.target, m) →
      StandsFor env source given m

/-- A reference names something local in a module: in the one that it is written in, or in the one
that the prefix before its first colon stands for. -/
inductive RefersTo (env : Environment) (source : ModuleSource) (reference : String) :
    ModuleSource → String → Prop where
  | plain {word : List Char} : Padded word reference.toList → ':' ∉ word →
      RefersTo env source reference source (String.ofList word)
  | prefixed {lead rest : List Char} {m : ModuleSource} :
      Padded (lead ++ ':' :: rest) reference.toList → ':' ∉ lead →
      StandsFor env source (String.ofList lead) m →
      RefersTo env source reference m (String.ofList rest)

/-- A statement names an identity. -/
def StatesBase (env : Environment) (scope : Scope) (stmt : Element) (q : QName) : Prop :=
  ∃ reference m localName, stmt.attribute? "name" = some reference ∧
    RefersTo env scope.source reference m localName ∧ q = ⟨m.uri, m.revision, localName⟩

variable {env : Environment} {source m : ModuleSource}

theorem standsFor_of_moduleOfPrefix {given : String}
    (h : env.moduleOfPrefix source given = .ok m) : StandsFor env source given m := by
  unfold Environment.moduleOfPrefix at h
  split at h
  · rename_i hown
    cases h
    exact .own hown
  · rename_i hgiven
    split at h
    · cases h
    · rename_i name hname
      obtain ⟨i, hi, rfl⟩ := Option.map_eq_some_iff.mp hname
      have hfirst := find?_key_eq_some_iff.mp hi
      split at h
      · rename_i hmain
        cases h
        exact .main hgiven hfirst hmain
      · rename_i hmain
        split at h
        · rename_i found hfound
          cases h
          exact .imported hgiven hfirst hmain (isFirst_of_lookup hfound)
        · cases h

theorem refersTo_of_splitOwner {reference localName : String}
    (h : env.splitOwner source reference = .ok (m, localName)) :
    RefersTo env source reference m localName := by
  have hpadded := padded_trimChars reference.toList
  unfold Environment.splitOwner splitReference at h
  cases hcut : cut [':'] (trimChars reference.toList) with
  | none =>
      simp only [hcut] at h
      cases h
      exact .plain hpadded (cut_eq_none_iff.mp hcut)
  | some parts =>
      obtain ⟨lead, rest⟩ := parts
      simp only [hcut] at h
      obtain ⟨m, hm, h⟩ := exists_of_bind_eq_ok h
      cases h
      have hword : trimChars reference.toList = lead ++ ':' :: rest := by
        simpa using eq_append_of_cut hcut
      exact .prefixed (hword ▸ hpadded) (not_mem_of_cut hcut) (standsFor_of_moduleOfPrefix hm)

theorem statesBase_of_baseIdentities {scope : Scope} {stmt : Element} {bases : List QName}
    (h : baseIdentities env scope stmt = .ok bases) :
    List.Forall₂ (StatesBase env scope) (stmt.childrenOf "base") bases := by
  refine (forall₂_of_mapM_eq_ok h).imp fun base q hbase => ?_
  obtain ⟨reference, hreference, hbase⟩ := exists_of_bind_eq_ok hbase
  obtain ⟨⟨m, localName⟩, hsplit, hbase⟩ := exists_of_bind_eq_ok hbase
  cases hbase
  exact ⟨reference, m, localName, attribute?_of_argument hreference,
    refersTo_of_splitOwner hsplit, rfl⟩

end Yin

end YangEvolution
