import YangEvolution.Compatibility.TypeChange
import YangEvolution.Schema.SchemaNode

/-!
What may change in a node, its children apart.
-/

namespace YangEvolution.Compatibility

open Text

/-- No condition may be added. Where their number stays the same, each new one is to be looked at.
-/
def mustFindings (p : Position) (old new : List Must) : List Finding :=
  if old.length < new.length then
    [p.finding .addedMust (listing (new.map Must.xpath)) (listing (old.map Must.xpath))]
  else if old.length = new.length then
    (new.filter fun m => !old.contains m).map fun m =>
      p.finding .checkMust m.xpath (listing (old.map Must.xpath))
  else []

def whenFindings (p : Position) (old new : Option String) : List Finding :=
  match old, new with
  | none, some w => [p.finding .addedWhen w "none"]
  | some v, some w => if v = w then [] else [p.finding .checkWhen w v]
  | _, none => []

def mandatoryFindings (p : Position) (old new : NodeData) : List Finding :=
  if !old.isMandatory && new.isMandatory then [p.finding .mandatory "true" "false"] else []

/-- Configuration may not become state, and state may become configuration unless it is mandatory.
-/
def configFindings (p : Position) (old new : NodeData) : List Finding :=
  match old.config, new.config with
  | some true, some false => [p.finding .illegalConfigChange "false" "true"]
  | some false, some true =>
    if new.isMandatory then [p.finding .illegalConfigState "true, mandatory" "false"] else []
  | _, _ => []

/-- Whether fewer than before suffice no longer. -/
def minimumRaised (old new : Option Nat) : Bool :=
  match old, new with
  | none, some _ => true
  | some m, some n => m < n
  | _, none => false

def minElementsFindings (p : Position) (old new : Option Nat) : List Finding :=
  if minimumRaised old new then
    [p.finding .minElements (orNone (new.map natText)) (orNone (old.map natText))]
  else []

def maxElementsFindings (p : Position) (old new : Option Nat) : List Finding :=
  match old, new with
  | some m, some n => if n < m then [p.finding .maxElements (natText n) (natText m)] else []
  | _, _ => []

def nodeTypeFindings (version : LanguageVersion) (p : Position) (old new : Option TypeDef) :
    List Finding :=
  match old, new with
  | some s, some t => typeFindings version p s t
  | _, _ => []

def nodeFindings (version : LanguageVersion) (p : Position) (old new : NodeData) : List Finding :=
  referenceFindings p old.reference new.reference ++ mustFindings p old.musts new.musts ++
    (if version.is7950 then whenFindings p old.when new.when else []) ++
    mandatoryFindings p old new ++ configFindings p old new ++
    statusFindings p old.status new.status ++
    minElementsFindings p (old.count.getD {}).min (new.count.getD {}).min ++
    maxElementsFindings p (old.count.getD {}).max (new.count.getD {}).max ++
    nodeTypeFindings version p old.type new.type

end YangEvolution.Compatibility
