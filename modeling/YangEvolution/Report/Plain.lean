import YangEvolution.Compatibility.Catalog
import YangEvolution.Text.Split

/-!
Catalogs as plain text: three lines for each finding, and a line of counts.
-/

namespace YangEvolution.Report

open Text

/-- The rule that is broken, then the new and the old side of the change. -/
def findingLines (entry : Nat × Finding) : List String :=
  let (ordinal, f) := entry
  [natText ordinal ++ ". [" ++ f.severity.text ++ "] " ++ f.rule.code ++ ": " ++ f.rule.message,
    "   new " ++ f.rule.subject ++ ": " ++ f.new,
    "   old " ++ f.rule.subject ++ ": " ++ f.old]

def plain (c : Catalog) : String :=
  join "\n" (c.numbered.flatMap findingLines)

def summary (c : Catalog) : String :=
  "findings=" ++ natText c.size ++ " errors=" ++ natText c.errorCount ++
    " warnings=" ++ natText c.warningCount

end YangEvolution.Report
