import YangEvolution.Compatibility.Finding
import YangEvolution.Schema.SchemaPath

/-!
Positions: the places of a definition in the old and in the new module.
-/

namespace YangEvolution

structure Position where
  old : SchemaPath
  new : SchemaPath
  deriving DecidableEq

namespace Position

def root : Position := ⟨.root, .root⟩

def enter (p : Position) (old new : Segment) : Position :=
  ⟨p.old.child old, p.new.child new⟩

/-- A value followed by its place between brackets. -/
def locate (path : SchemaPath) (value : String) : String :=
  value ++ " [" ++ path.text ++ "]"

/-- The finding that a rule is broken at a position, by the values on its two sides. -/
def finding (p : Position) (rule : Rule) (new old : String) : Finding :=
  ⟨rule, locate p.new new, locate p.old old⟩

@[simp] theorem rule_finding (p : Position) (r : Rule) (new old : String) :
    (p.finding r new old).rule = r := rfl

end Position

end YangEvolution
