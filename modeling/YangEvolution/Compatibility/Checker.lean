import YangEvolution.Compatibility.ModuleChange
import YangEvolution.Schema.CheckedRange

/-!
The run of a comparison. Each rule reports to the one catalog of the run as the walk comes by, and
the run ends without a catalog where a power of ten leaves its word.
-/

namespace YangEvolution

/-- A part of a run, which adds to the catalog or ends the run. -/
abbrev Check := StateT Catalog Option Unit

namespace Check

def report (f : Finding) : Check :=
  modify fun catalog => catalog.add f

def reportAll : List Finding → Check
  | [] => pure ()
  | f :: rest => do
    report f
    reportAll rest

/-- Reports findings if there is an answer at all. -/
def reportAll? : Option (List Finding) → Check
  | some findings => reportAll findings
  | none => failure

/-- A check of the later version of the language. -/
def since7950 (version : LanguageVersion) (check : Check) : Check :=
  if version.is7950 then check else pure ()

end Check

namespace Compatibility

open Check

/-- The findings on the ranges of two types. -/
def rangeFindings? (p : Position) (old new : TypeDef) : Option (List Finding) :=
  match old.range?, new.range? with
  | none, _ => some []
  | some r, none => do some [p.finding .range "none" (← r.text?)]
  | some r, some r' => do
    if ← r'.includes? r then some []
    else some [p.finding .range (← r'.text?) (← r.text?)]

def checkType (version : LanguageVersion) (p : Position) (old new : TypeDef) : Check :=
  if old.builtinName = new.builtinName then do
    reportAll (defaultFindings p old new)
    reportAll (unitsFindings p old new)
    reportAll (referenceFindings p old.reference new.reference)
    since7950 version (reportAll (identityrefFindings p old new))
    reportAll (lengthFindings p old new)
    reportAll? (rangeFindings? p old new)
    reportAll (enumFindings p old new)
    reportAll (bitFindings p old new)
    reportAll (patternFindings p old new)
  else reportAll (builtinFindings p old new)

def checkNodeType (version : LanguageVersion) (p : Position) (old new : Option TypeDef) : Check :=
  match old, new with
  | some s, some t => checkType version p s t
  | _, _ => pure ()

def checkNode (version : LanguageVersion) (p : Position) (old new : NodeData) : Check := do
  reportAll (referenceFindings p old.reference new.reference)
  reportAll (mustFindings p old.musts new.musts)
  since7950 version (reportAll (whenFindings p old.when new.when))
  reportAll (mandatoryFindings p old new)
  reportAll (configFindings p old new)
  reportAll (statusFindings p old.status new.status)
  reportAll (minElementsFindings p (old.count.getD {}).min (new.count.getD {}).min)
  reportAll (maxElementsFindings p (old.count.getD {}).max (new.count.getD {}).max)
  checkNodeType version p old.type new.type

end Compatibility

namespace Comparison

open Check Compatibility

mutual

/-- Walks from an old node and the first node of its name among `siblings` downwards. -/
def walkNested (c : Comparison) (siblings : List SchemaNode) (parent : Position) :
    SchemaNode → Check
  | ⟨data, children⟩ =>
    let p := c.enter parent data.qname.localName
    match SchemaNode.find? siblings data.qname.localName with
    | none => report (missing p data)
    | some new => do
      checkNode c.version p data new.data
      c.walkNestedAll new.children p children

def walkNestedAll (c : Comparison) (siblings : List SchemaNode) (parent : Position) :
    List SchemaNode → Check
  | [] => pure ()
  | n :: rest => do
    c.walkNested siblings parent n
    c.walkNestedAll siblings parent rest

end

mutual

/-- Walks from an old data node and the node at its path in the new module downwards. -/
def walkData (c : Comparison) (parent : Position) : SchemaNode → Check
  | ⟨data, children⟩ =>
    let p := c.enter parent data.qname.localName
    match c.new.findNode? p.new with
    | none => report (missing p data)
    | some new => do
      checkNode c.version p data new.data
      c.walkDataAll p children

def walkDataAll (c : Comparison) (parent : Position) : List SchemaNode → Check
  | [] => pure ()
  | n :: rest => do
    c.walkData parent n
    c.walkDataAll parent rest

end

def walkOperation (c : Comparison) (find : String → Option SchemaNode) (old : SchemaNode) :
    Check :=
  let p := c.enter .root old.localName
  match find old.localName with
  | none => report (missing p old.data)
  | some new => do
    checkNode c.version p old.data new.data
    c.walkNestedAll new.children p old.children

def walkAugmentation (c : Comparison) (old : Augmentation) : Check :=
  match c.new.findAugmentation? old.target with
  | none => report ⟨.missingNode, "missing", "augment [" ++ old.target.text ++ "]"⟩
  | some new => c.walkNestedAll new.children ⟨old.target, new.target⟩ old.children

/-- The whole walk, in the order of the report. -/
def walk (c : Comparison) : Check := do
  reportAll c.headerFindings
  reportAll c.revisionFindings
  reportAll c.historyFindings
  since7950 c.version (c.old.identities.forM fun i => reportAll (c.identityFindings i))
  c.walkDataAll .root c.old.children
  c.old.rpcs.forM (c.walkOperation c.new.findRpc?)
  c.old.notifications.forM (c.walkOperation c.new.findNotification?)
  c.old.augmentations.forM c.walkAugmentation
  c.old.typedefs.forM fun t => reportAll (c.typedefFindings t)

/-- The catalog of the whole walk, if the run comes to its end. -/
def validate? (c : Comparison) : Option Catalog :=
  (c.walk.run .empty).map Prod.snd

end Comparison

end YangEvolution
