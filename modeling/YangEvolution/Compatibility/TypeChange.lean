import YangEvolution.Compatibility.LanguageVersion
import YangEvolution.Compatibility.Position
import YangEvolution.Schema.TypeDef

/-!
What may change in the type of a node. Types of different built-in types are not compared any
further; otherwise a default, units and a reference may not go, and no value may become invalid.
-/

namespace YangEvolution.Compatibility

open Text

/-- Texts between brackets, with commas between them. -/
def listing (items : List String) : String :=
  "[" ++ join ", " items ++ "]"

def nameListing (names : List QName) : String :=
  listing (names.map QName.localName)

def orNone (value : Option String) : String :=
  value.getD "none"

def referenceFindings (p : Position) (old new : Option String) : List Finding :=
  match old, new with
  | some r, none => [p.finding .reference "none" r]
  | _, _ => []

def statusFindings (p : Position) (old new : Status) : List Finding :=
  if old < new then [p.finding .status new.text old.text] else []

/-- The built-in type may not change. -/
def builtinFindings (p : Position) (old new : TypeDef) : List Finding :=
  if old.builtinName = new.builtinName then []
  else [p.finding .type new.builtinName old.builtinName]

def defaultFindings (p : Position) (old new : TypeDef) : List Finding :=
  match old.default with
  | some d =>
    if new.default = some d then [] else [p.finding .defaultValue (orNone new.default) d]
  | none => []

def unitsFindings (p : Position) (old new : TypeDef) : List Finding :=
  match old.units, new.units with
  | some u, none => [p.finding .units "none" u]
  | _, _ => []

/-- The base identities may not become fewer. -/
def identityrefFindings (p : Position) (old new : TypeDef) : List Finding :=
  match old.identityBases?, new.identityBases? with
  | some oldBases, some newBases =>
    if oldBases.isEmpty || newBases.length < oldBases.length then
      [p.finding .identityrefBase (nameListing newBases) (nameListing oldBases)]
    else []
  | _, _ => []

/-- No length restriction allows all lengths. -/
def lengthNarrowed (old : LengthRestriction) : Option LengthRestriction → Bool
  | none => !old.isUnrestricted
  | some new => !new.includes old

def lengthFindings (p : Position) (old new : TypeDef) : List Finding :=
  match old.length? with
  | some l =>
    if lengthNarrowed l new.length? then
      [p.finding .length (orNone (new.length?.map LengthRestriction.text)) l.text]
    else []
  | none => []

/-- A range that is gone counts as narrowed. -/
def rangeNarrowed (old : RangeRestriction) : Option RangeRestriction → Bool
  | none => true
  | some new => !new.includes old

def rangeFindings (p : Position) (old new : TypeDef) : List Finding :=
  match old.range? with
  | some r =>
    if rangeNarrowed r new.range? then
      [p.finding .range (orNone (new.range?.map RangeRestriction.text)) r.text]
    else []
  | none => []

/-- All missing enums make one finding. -/
def enumFindings (p : Position) (old new : TypeDef) : List Finding :=
  if old.enums.all fun e => new.enums.any fun e' => e'.same e then []
  else
    [p.finding .missingEnum (listing (new.enums.map EnumValue.text))
      (listing (old.enums.map EnumValue.text))]

/-- Each missing bit makes a finding. -/
def bitFindings (p : Position) (old new : TypeDef) : List Finding :=
  (old.bits.filter fun b => !new.bits.any fun b' => b'.same b).map fun b =>
    p.finding .missingBit (listing (new.bits.map Bit.text)) b.text

def patternFindings (p : Position) (old new : TypeDef) : List Finding :=
  if old.patterns = new.patterns then []
  else
    [p.finding .pattern (listing (new.patterns.map Pattern.text))
      (listing (old.patterns.map Pattern.text))]

def typeFindings (version : LanguageVersion) (p : Position) (old new : TypeDef) : List Finding :=
  if old.builtinName = new.builtinName then
    defaultFindings p old new ++ unitsFindings p old new ++
      referenceFindings p old.reference new.reference ++
      (if version.is7950 then identityrefFindings p old new else []) ++
      lengthFindings p old new ++ rangeFindings p old new ++ enumFindings p old new ++
      bitFindings p old new ++ patternFindings p old new
  else builtinFindings p old new

end YangEvolution.Compatibility
