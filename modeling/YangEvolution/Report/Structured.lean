import YangEvolution.Compatibility.Catalog

/-!
Catalogs as JSON: the counts, and the findings with their places.
-/

namespace YangEvolution.Report

open Text

def findingJson (entry : Nat × Finding) : Json :=
  let (ordinal, f) := entry
  .obj [("ordinal", .int ordinal), ("severity", f.severity.toJson), ("kind", .str f.rule.code),
    ("message", .str f.rule.message), ("new", .str f.new), ("old", .str f.old)]

def catalogJson (c : Catalog) : Json :=
  .obj [("errors", .int c.errorCount), ("warnings", .int c.warningCount),
    ("findings", .arr (c.numbered.map findingJson))]

def structured (c : Catalog) : String :=
  (catalogJson c).pretty

end YangEvolution.Report
