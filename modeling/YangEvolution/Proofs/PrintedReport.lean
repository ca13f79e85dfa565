import Mathlib.Data.List.Forall2
import YangEvolution.Proofs.StructuredReport
import YangEvolution.Proofs.TextParts
import YangEvolution.Report.Terminal

/-!
What a report says, apart from how it is put together. As text, it has the lines on each finding by
its number, painted by what they hold, and then the counts; as JSON, it reads back to the findings.
Main statement: what is rendered in a format is such a report.
-/

namespace YangEvolution

namespace Text

/-! ### Lines -/

/-- The lines of a text. A line ends with a line feed, before which there may be a carriage return;
only the last one may do without, if it is not empty. -/
inductive BreaksInto : List Char → List (List Char) → Prop where
  | nil : BreaksInto [] []
  | last {line : List Char} : line ≠ [] → '\n' ∉ line → BreaksInto line [line]
  | feed {line rest : List Char} {others : List (List Char)} : '\n' ∉ line →
      line.getLast? ≠ some '\r' → BreaksInto rest others →
      BreaksInto (line ++ '\n' :: rest) (line :: others)
  | returnFeed {line rest : List Char} {others : List (List Char)} : '\n' ∉ line →
      BreaksInto rest others → BreaksInto (line ++ '\r' :: '\n' :: rest) (line :: others)

theorem lines_of_not_mem {cs : List Char} (h : '\n' ∉ cs) :
    lines cs = if cs = [] then [] else [cs] := by
  have hpieces : pieces '\n' cs = [cs] := piecesFrom_of_not_mem h []
  rw [lines, hpieces]
  cases cs <;> rfl

theorem lines_append {line : List Char} (h : '\n' ∉ line) (rest : List Char) :
    lines (line ++ '\n' :: rest) = dropReturn line :: lines rest := by
  have hpieces : pieces '\n' (line ++ '\n' :: rest) = line :: pieces '\n' rest :=
    piecesFrom_append h []
  obtain ⟨part, parts, hrest⟩ := List.exists_cons_of_ne_nil (pieces_ne_nil '\n' rest)
  rw [lines, lines, hpieces, hrest]
  simp only [List.dropLast_cons_cons, List.map_cons, List.getLast?_cons_cons]
  split <;> rfl

theorem breaksInto_lines (cs : List Char) : BreaksInto cs (lines cs) := by
  induction hlength : cs.length using Nat.strongRecOn generalizing cs with
  | _ n ih =>
      by_cases hmem : '\n' ∈ cs
      · obtain ⟨line, rest, rfl, hline⟩ := List.eq_append_cons_of_mem hmem
        have hrest := ih rest.length (by simp [← hlength]; omega) rest rfl
        rw [lines_append hline, dropReturn]
        split
        · rename_i hreturn
          obtain ⟨front, rfl⟩ := List.getLast?_eq_some_iff.mp hreturn
          rw [List.dropLast_concat, List.append_assoc]
          exact .returnFeed (fun h => hline (List.mem_append_left _ h)) hrest
        · rename_i hreturn
          exact .feed hline hreturn hrest
      · rw [lines_of_not_mem hmem]
        split
        · rename_i hnil
          rw [hnil]
          exact .nil
        · rename_i hne
          exact .last hne hmem

theorem occurs_iff {sep cs : List Char} : occurs sep cs = true ↔ sep <:+: cs := by
  induction cs with
  | nil => simp [occurs, cut, apply_ite Option.isSome]
  | cons c cs ih =>
      rw [List.infix_cons_iff, ← ih, ← List.isPrefixOf_iff_prefix, occurs, cut]
      split
      · rename_i h
        simp [h]
      · rename_i h
        simp [h, occurs]

theorem isPrefixOf_trimStartChars_iff {word cs : List Char} (hne : word ≠ [])
    (hword : BeginsPlain word) :
    word.isPrefixOf (trimStartChars cs) = true ↔
      ∃ blanks rest, (∀ c ∈ blanks, isBlank c = true) ∧ cs = blanks ++ word ++ rest := by
  rw [List.isPrefixOf_iff_prefix]
  constructor
  · rintro ⟨rest, hrest⟩
    obtain ⟨blanks, hblanks, hcs⟩ := eq_blanks_append_trimStartChars cs
    exact ⟨blanks, rest, hblanks, by rw [List.append_assoc, hrest, ← hcs]⟩
  · rintro ⟨blanks, rest, hblanks, rfl⟩
    obtain ⟨c, word, rfl⟩ := List.exists_cons_of_ne_nil hne
    have hbegins : BeginsPlain (c :: word ++ rest) := fun x hx => hword x hx
    rw [List.append_assoc, trimStartChars_append hblanks hbegins]
    exact List.prefix_append _ _

end Text

theorem Catalog.errorCount_pos_iff {c : Catalog} :
    0 < c.errorCount ↔ ∃ f ∈ c.findings, f.severity = .error := by
  simp [errorCount, countBySeverity, List.countP_pos_iff]

namespace Report

open Text

/-! ### Styles -/

/-- A text in a style that is wanted: the style is switched on before it and after everything in it
that ends all styles, and ended after it. -/
inductive Painted (color : Bool) (style : Style) (text : List Char) : List Char → Prop where
  | bare : color = false ∨ style = .plain → Painted color style text text
  | styled {parts : List (List Char)} : color = true → style ≠ .plain →
      (∀ part ∈ parts, ¬ reset <:+: part) → text = reset.intercalate parts →
      Painted color style text
        (style.start ++ (reset ++ style.start).intercalate parts ++ reset)

theorem resume_skip (start : List Char) {word : List Char} (hne : word ≠ []) (rest : List Char) :
    resume start word.length (word ++ rest) = word ++ start ++ resume start 0 rest := by
  induction word with
  | nil => exact absurd rfl hne
  | cons c word ih =>
      cases word with
      | nil => rfl
      | cons d word =>
          simpa [resume] using ih (List.cons_ne_nil d word)

theorem resume_reset (start rest : List Char) :
    resume start 0 (reset ++ rest) = reset ++ start ++ resume start 0 rest := by
  have hskip : resume start 3 ('[' :: '0' :: 'm' :: rest) = _ :=
    resume_skip start (List.cons_ne_nil '[' ['0', 'm']) rest
  change '\x1b' :: resume start 3 ('[' :: '0' :: 'm' :: rest) = _
  rw [hskip]
  rfl

theorem intercalate_grow (sep : List Char) (c : Char) (part : List Char)
    (parts : List (List Char)) :
    sep.intercalate ((c :: part) :: parts) = c :: sep.intercalate (part :: parts) := by
  cases parts with
  | nil => simp
  | cons next parts => simp [List.intercalate_cons_cons]

theorem prefix_intercalate (sep part : List Char) (parts : List (List Char)) :
    part <+: sep.intercalate (part :: parts) := by
  cases parts with
  | nil => simp
  | cons next parts => simp [List.intercalate_cons_cons]

/-- The parts between the places where a style is switched on again. -/
theorem exists_parts_resume (start cs : List Char) :
    ∃ part parts, (∀ p ∈ part :: parts, ¬ reset <:+: p) ∧ cs = reset.intercalate (part :: parts) ∧
      resume start 0 cs = (reset ++ start).intercalate (part :: parts) := by
  induction hlength : cs.length using Nat.strongRecOn generalizing cs with
  | _ n ih =>
      cases cs with
      | nil => exact ⟨[], [], by decide, rfl, rfl⟩
      | cons c cs =>
          by_cases hreset : reset <+: c :: cs
          · -- a part ends here, and it is empty
            obtain ⟨rest, hrest⟩ := hreset
            have hshort : rest.length < n := by
              rw [← hlength, ← hrest, List.length_append]
              exact Nat.lt_add_of_pos_left (by decide)
            obtain ⟨part, parts, hparts, hcs, hresume⟩ := ih _ hshort rest rfl
            refine ⟨[], part :: parts, List.forall_mem_cons.mpr ⟨by decide, hparts⟩, ?_, ?_⟩
            · rw [List.intercalate_cons_cons, ← hcs, ← hrest]
              rfl
            · rw [← hrest, resume_reset, hresume, List.intercalate_cons_cons]
              rfl
          · -- the first part of the rest goes on for one character
            obtain ⟨part, parts, hparts, hcs, hresume⟩ := ih cs.length (by simp [← hlength]) cs rfl
            obtain ⟨hpart, hothers⟩ := List.forall_mem_cons.mp hparts
            have hgrown : ¬ reset <:+: c :: part := by
              intro hinfix
              rcases List.infix_cons_iff.mp hinfix with hbegins | hinfix
              · refine hreset (hbegins.trans ?_)
                rw [hcs, ← intercalate_grow]
                exact prefix_intercalate _ _ _
              · exact hpart hinfix
            refine ⟨c :: part, parts, List.forall_mem_cons.mpr ⟨hgrown, hothers⟩, ?_, ?_⟩
            · rw [intercalate_grow, ← hcs]
            · rw [intercalate_grow, ← hresume, resume,
                if_neg (mt List.isPrefixOf_iff_prefix.mp hreset)]

theorem painted_paint (color : Bool) (style : Style) (s : String) :
    Painted color style s.toList (paint color style s).toList := by
  unfold paint
  split
  · rename_i h
    exact .bare (by simpa using h)
  · rename_i h
    obtain ⟨part, parts, hparts, hs, hresume⟩ := exists_parts_resume style.start s.toList
    rw [String.toList_ofList, hresume]
    have hwanted : color = true ∧ style ≠ .plain := by simpa using h
    exact .styled hwanted.1 hwanted.2 hparts hs

/-- What begins with `old`, but for blanks. -/
def IsOld (line : List Char) : Prop :=
  ∃ blanks rest, (∀ c ∈ blanks, isBlank c = true) ∧ line = blanks ++ "old ".toList ++ rest

/-- The style of a line, by what it holds first. -/
inductive StyleOf (line : List Char) : Style → Prop where
  | error : "[error]".toList <:+: line → StyleOf line .red
  | warning : ¬ "[error]".toList <:+: line → "[warning]".toList <:+: line → StyleOf line .yellow
  | old : ¬ "[error]".toList <:+: line → ¬ "[warning]".toList <:+: line → IsOld line →
      StyleOf line .dimmed
  | other : ¬ "[error]".toList <:+: line → ¬ "[warning]".toList <:+: line → ¬ IsOld line →
      StyleOf line .plain

theorem isOld_iff {line : List Char} :
    "old ".toList.isPrefixOf (trimStartChars line) = true ↔ IsOld line := by
  refine isPrefixOf_trimStartChars_iff (by decide) fun c hc => ?_
  cases hc
  decide

theorem styleOf_lineStyle (line : List Char) : StyleOf line (lineStyle line) := by
  unfold lineStyle
  split
  · rename_i herror
    exact .error (occurs_iff.mp herror)
  · rename_i herror
    split
    · rename_i hwarning
      exact .warning (mt occurs_iff.mpr herror) (occurs_iff.mp hwarning)
    · rename_i hwarning
      split
      · rename_i hold
        exact .old (mt occurs_iff.mpr herror) (mt occurs_iff.mpr hwarning) (isOld_iff.mp hold)
      · rename_i hold
        exact .other (mt occurs_iff.mpr herror) (mt occurs_iff.mpr hwarning)
          (mt isOld_iff.mpr hold)

/-! ### Reports -/

/-- Three lines on each finding of a list, with numbers from `first` on. -/
inductive Lists : List String → Nat → List Finding → Prop where
  | nil (first : Nat) : Lists [] first []
  | cons {texts : List String} {first : Nat} {f : Finding} {fs : List Finding} :
      Lists texts (first + 1) fs →
      Lists ((toString first ++ ". [" ++ f.severity.text ++ "] " ++ f.rule.code ++ ": " ++
          f.rule.message) ::
        ("   new " ++ f.rule.subject ++ ": " ++ f.new) ::
        ("   old " ++ f.rule.subject ++ ": " ++ f.old) :: texts) first (f :: fs)

theorem lists_zipIdx (fs : List Finding) (first : Nat) :
    Lists ((fs.zipIdx first).flatMap fun p => findingLines (p.2, p.1)) first fs := by
  induction fs generalizing first with
  | nil => exact .nil first
  | cons f fs ih => exact .cons (ih (first + 1))

/-- The findings as text: that there are none, or the lines on them, each painted by what it holds.
A detail with line breaks takes up several lines. -/
inductive ShowsFindings (color : Bool) (fs : List Finding) : List Char → Prop where
  | none {text : List Char} : fs = [] →
      Painted color .green "no compatibility findings".toList text → ShowsFindings color fs text
  | some {texts : List String} {rows painted : List (List Char)} : fs ≠ [] → Lists texts 1 fs →
      BreaksInto (['\n'].intercalate (texts.map String.toList)) rows →
      List.Forall₂ (fun row text => ∃ style, StyleOf row style ∧ Painted color style row text)
        rows painted →
      ShowsFindings color fs (['\n'].intercalate painted)

/-- How many findings there are, and how many of each severity. -/
def countsText (fs : List Finding) : String :=
  "findings=" ++ toString fs.length ++
    " errors=" ++ toString (fs.filter fun f => f.severity == .error).length ++
    " warnings=" ++ toString (fs.filter fun f => f.severity == .warning).length

/-- The counts in a style that tells whether there are errors. -/
inductive ShowsCounts (color : Bool) (fs : List Finding) : List Char → Prop where
  | errors {text : List Char} : (∃ f ∈ fs, f.severity = .error) →
      Painted color .boldRed (countsText fs).toList text → ShowsCounts color fs text
  | noErrors {text : List Char} : (∀ f ∈ fs, f.severity ≠ .error) →
      Painted color .cyan (countsText fs).toList text → ShowsCounts color fs text

/-- A report on a catalog in a format. -/
inductive Prints (color : Bool) (c : Catalog) : Format → String → Prop where
  | text {findings counts : List Char} : ShowsFindings color c.findings findings →
      ShowsCounts color c.findings counts →
      Prints color c .text (String.ofList (findings ++ '\n' :: counts))
  | json {report : String} {value : Json} : Json.read report = some value → TellsCatalog value c →
      Prints color c .json report

theorem showsFindings_terminalText (color : Bool) (c : Catalog) :
    ShowsFindings color c.findings (terminalText color c).toList := by
  unfold terminalText
  split
  · rename_i hempty
    exact .none (List.isEmpty_iff.mp hempty) (painted_paint _ _ _)
  · rename_i hne
    have hlists : Lists (c.numbered.flatMap findingLines) 1 c.findings := by
      rw [Catalog.numbered, List.flatMap_map]
      exact lists_zipIdx c.findings 1
    have hrows : BreaksInto
        (['\n'].intercalate ((c.numbered.flatMap findingLines).map String.toList))
        (lines (plain c).toList) := by
      rw [plain, join, String.toList_intercalate]
      exact breaksInto_lines _
    rw [join, String.toList_intercalate, List.map_map]
    refine .some (fun hnil => hne (List.isEmpty_iff.mpr hnil)) hlists hrows ?_
    rw [List.forall₂_map_right_iff, List.forall₂_same]
    intro row _
    refine ⟨lineStyle row, styleOf_lineStyle row, ?_⟩
    simpa using painted_paint color (lineStyle row) (String.ofList row)

theorem summary_eq (c : Catalog) : summary c = countsText c.findings := by
  have hcount : ∀ severity, c.countBySeverity severity =
      (c.findings.filter fun f => f.severity == severity).length := fun _ =>
    List.countP_eq_length_filter
  rw [summary, Catalog.size, Catalog.errorCount, Catalog.warningCount, hcount, hcount]
  rfl

theorem showsCounts_terminalSummary (color : Bool) (c : Catalog) :
    ShowsCounts color c.findings (terminalSummary color c).toList := by
  rw [terminalSummary, summary_eq]
  split
  · rename_i hzero
    refine .noErrors (fun f hf herror => ?_) (painted_paint _ _ _)
    have hpos := Catalog.errorCount_pos_iff.mpr ⟨f, hf, herror⟩
    omega
  · rename_i hne
    exact .errors (Catalog.errorCount_pos_iff.mp (Nat.pos_of_ne_zero hne)) (painted_paint _ _ _)

theorem prints_render (color : Bool) (format : Format) (c : Catalog) :
    Prints color c format (render color format c) := by
  cases format with
  | text =>
      have hrender : render color .text c = String.ofList
          ((terminalText color c).toList ++ '\n' :: (terminalSummary color c).toList) := by
        simp [render, ← String.toList_inj]
      rw [hrender]
      exact .text (showsFindings_terminalText color c) (showsCounts_terminalSummary color c)
  | json => exact .json (read_structured c) (tellsCatalog_catalogJson c)

end Report

end YangEvolution
