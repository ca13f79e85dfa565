import YangEvolution.Proofs.JsonReader
import YangEvolution.Report.Structured

/-!
The JSON report read back. Main statement: the report of a catalog is read as an object that has the
numbers of errors and warnings, and the findings in their order, each with its place counted from
one, its severity, code and message and with exactly its two details; so that no two catalogs have
the same report.
-/

namespace YangEvolution

open Text

/-- The value of a field of an object. -/
def Text.Json.field? (key : String) : Json → Option Json
  | .obj fields => fields.lookup key
  | _ => none

/-- No two rules have one code. -/
theorem Rule.find?_code (r : Rule) : Rule.all.find? (fun s => s.code == r.code) = some r := by
  cases r <;> decide

/-- What a catalog has seen is determined by what it lists. -/
theorem Catalog.eq_of_findings {c c' : Catalog} (h : c.findings = c'.findings) : c = c' := by
  have hseen : c.seen = c'.seen := by
    funext f
    apply Bool.eq_iff_iff.mpr
    rw [c.seen_iff, c'.seen_iff, h]
  cases c
  cases c'
  simp only at h hseen
  subst h hseen
  rfl

namespace Report

/-- An object says what there is to say on a finding. -/
structure Tells (entry : Json) (ordinal : Nat) (f : Finding) : Prop where
  ordinal : entry.field? "ordinal" = some (.int ordinal)
  severity : entry.field? "severity" = some (.str f.severity.text)
  code : entry.field? "kind" = some (.str f.rule.code)
  message : entry.field? "message" = some (.str f.rule.message)
  new : entry.field? "new" = some (.str f.new)
  old : entry.field? "old" = some (.str f.old)

theorem tells_findingJson (ordinal : Nat) (f : Finding) :
    Tells (findingJson (ordinal, f)) ordinal f :=
  ⟨rfl, rfl, rfl, rfl, rfl, rfl⟩

theorem Tells.unique {entry : Json} {ordinal ordinal' : Nat} {f f' : Finding}
    (h : Tells entry ordinal f) (h' : Tells entry ordinal' f') : f = f' := by
  have hcode := h.code.symm.trans h'.code
  have hnew := h.new.symm.trans h'.new
  have hold := h.old.symm.trans h'.old
  simp only [Option.some.injEq, Json.str.injEq] at hcode hnew hold
  have hrule : some f.rule = some f'.rule := by
    rw [← Rule.find?_code f.rule, ← Rule.find?_code f'.rule, hcode]
  obtain ⟨rule, new, old⟩ := f
  obtain ⟨rule', new', old'⟩ := f'
  obtain rfl := Option.some.inj hrule
  obtain rfl := hnew
  obtain rfl := hold
  rfl

/-- The entries say what there is to say on the findings of a list, with places from `first` on. -/
inductive TellsAll : List Json → Nat → List Finding → Prop where
  | nil (first : Nat) : TellsAll [] first []
  | cons {entry : Json} {entries : List Json} {first : Nat} {f : Finding} {fs : List Finding} :
      Tells entry first f → TellsAll entries (first + 1) fs →
        TellsAll (entry :: entries) first (f :: fs)

theorem tellsAll_zipIdx (fs : List Finding) (first : Nat) :
    TellsAll ((fs.zipIdx first).map fun p => findingJson (p.2, p.1)) first fs := by
  induction fs generalizing first with
  | nil => exact .nil first
  | cons f fs ih => exact .cons (tells_findingJson first f) (ih (first + 1))

theorem TellsAll.unique {entries : List Json} {first : Nat} {fs fs' : List Finding}
    (h : TellsAll entries first fs) (h' : TellsAll entries first fs') : fs = fs' := by
  induction h generalizing fs' with
  | nil first =>
      cases h'
      rfl
  | cons hf _ ih =>
      cases h' with
      | cons hf' hfs' => rw [hf.unique hf', ih hfs']

/-- A report gives the numbers of a catalog's errors and warnings, and tells of its findings from
the first on. -/
structure TellsCatalog (report : Json) (c : Catalog) : Prop where
  errors : report.field? "errors" =
    some (.int (c.findings.filter fun f => f.severity == .error).length)
  warnings : report.field? "warnings" =
    some (.int (c.findings.filter fun f => f.severity == .warning).length)
  findings : ∃ entries, report.field? "findings" = some (.arr entries) ∧
    TellsAll entries 1 c.findings

theorem tellsCatalog_catalogJson (c : Catalog) : TellsCatalog (catalogJson c) c where
  errors := by
    rw [← List.countP_eq_length_filter]
    rfl
  warnings := by
    rw [← List.countP_eq_length_filter]
    rfl
  findings := by
    refine ⟨c.numbered.map findingJson, rfl, ?_⟩
    rw [Catalog.numbered, List.map_map]
    exact tellsAll_zipIdx c.findings 1

theorem TellsCatalog.unique {report : Json} {c c' : Catalog} (h : TellsCatalog report c)
    (h' : TellsCatalog report c') : c = c' := by
  obtain ⟨entries, hentries, htells⟩ := h.findings
  obtain ⟨entries', hentries', htells'⟩ := h'.findings
  have heq := hentries.symm.trans hentries'
  simp only [Option.some.injEq, Json.arr.injEq] at heq
  subst heq
  exact Catalog.eq_of_findings (htells.unique htells')

theorem read_structured (c : Catalog) : Json.read (structured c) = some (catalogJson c) :=
  Json.read_pretty (catalogJson c)

/-- Reading the report of a catalog gives an object that tells all of the catalog, and catalogs with
one report are one. -/
theorem structured_report_lossless (c : Catalog) :
    (∃ report, Json.read (structured c) = some report ∧ TellsCatalog report c) ∧
      ∀ c', structured c' = structured c → c' = c := by
  refine ⟨⟨catalogJson c, read_structured c, tellsCatalog_catalogJson c⟩, ?_⟩
  intro c' heq
  have hreport : catalogJson c' = catalogJson c := by
    have hread := congrArg Json.read heq
    rw [read_structured, read_structured] at hread
    exact Option.some.inj hread
  exact (hreport ▸ tellsCatalog_catalogJson c').unique (tellsCatalog_catalogJson c)

end Report

end YangEvolution
