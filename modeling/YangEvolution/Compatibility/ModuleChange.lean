import YangEvolution.Compatibility.Catalog
import YangEvolution.Compatibility.TreeChange

/-!
What may change from one revision of a module to the next. Definitions may be added anywhere; what
the old module defines has to be there in the new one, and to allow at least what it allowed.
-/

namespace YangEvolution.Comparison

open Compatibility

def headerFindings (c : Comparison) : List Finding :=
  (if c.old.name = c.new.name then [] else [⟨.moduleName, c.new.name, c.old.name⟩]) ++
    (if c.old.uri = c.new.uri then [] else [⟨.moduleNamespace, c.new.uri, c.old.uri⟩])

/-- The new module needs a revision, and a later one than the old module has. -/
def revisionFindings (c : Comparison) : List Finding :=
  match c.new.revision, c.old.revision with
  | none, old => [⟨.missingRevision, "none", orNone (old.map Revision.text)⟩]
  | some new, some old => if new ≤ old then [⟨.revision, new.text, old.text⟩] else []
  | some _, none => []

/-- The history of revisions only grows. -/
def historyFindings (c : Comparison) : List Finding :=
  (c.old.revisions.filter fun r => !c.new.revisions.contains r).map fun r =>
    ⟨.missingOldRevision, "missing", r.text⟩

/-- An identity may not lose a base identity. -/
def identityFindings (c : Comparison) (old : Identity) : List Finding :=
  let name := old.qname.localName
  match c.new.findIdentity? name with
  | none => [⟨.missingIdentity, "missing", name⟩]
  | some new =>
    (if new.bases.length < old.bases.length then
      [⟨.baseIdentity, name ++ " " ++ nameListing new.bases,
        name ++ " " ++ nameListing old.bases⟩]
    else []) ++
      (old.bases.filter fun b => !new.bases.any fun b' => b'.localName == b.localName).map
        fun b => ⟨.missingBaseIdentity, name ++ " " ++ nameListing new.bases,
          name ++ " " ++ b.localName⟩

def operationFindings (c : Comparison) (find : String → Option SchemaNode) (old : SchemaNode) :
    List Finding :=
  let p := c.enter .root old.localName
  match find old.localName with
  | none => [missing p old.data]
  | some new =>
    nodeFindings c.version p old.data new.data ++ c.nestedAll new.children p old.children

/-- Augmentations of the same target are compared by their nodes. -/
def augmentationFindings (c : Comparison) (old : Augmentation) : List Finding :=
  match c.new.findAugmentation? old.target with
  | none => [⟨.missingNode, "missing", "augment [" ++ old.target.text ++ "]"⟩]
  | some new => c.nestedAll new.children ⟨old.target, new.target⟩ old.children

/-- A type definition may go, as what used it shows the effect; if it stays, so do its built-in
type and its status. -/
def typedefFindings (c : Comparison) (old : TypeDef) : List Finding :=
  match c.new.findTypedef? old.qname.localName with
  | none => []
  | some new =>
    let p := c.enter .root old.qname.localName
    builtinFindings p old new ++ statusFindings p old.status new.status

/-- Everything that the rules have to say, in the order of the report. -/
def findings (c : Comparison) : List Finding :=
  c.headerFindings ++ c.revisionFindings ++ c.historyFindings ++
    (if c.version.is7950 then c.old.identities.flatMap c.identityFindings else []) ++
    c.dataNodes .root c.old.children ++
    c.old.rpcs.flatMap (c.operationFindings c.new.findRpc?) ++
    c.old.notifications.flatMap (c.operationFindings c.new.findNotification?) ++
    c.old.augmentations.flatMap c.augmentationFindings ++
    c.old.typedefs.flatMap c.typedefFindings

/-- The findings of a comparison, each of them once. -/
def catalog (c : Comparison) : Catalog :=
  .ofList c.findings

end YangEvolution.Comparison
