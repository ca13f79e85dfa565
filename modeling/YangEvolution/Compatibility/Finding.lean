import YangEvolution.Text.Json

/-!
Findings: one incompatible change, by the rule that it breaks and by what stood in the new and in
the old module.
-/

namespace YangEvolution

open Text

inductive Severity where
  | error
  | warning
  deriving DecidableEq

/-- The rules of compatible change. -/
inductive Rule where
  | moduleName
  | moduleNamespace
  | revision
  | missingRevision
  | missingOldRevision
  | missingIdentity
  | baseIdentity
  | missingBaseIdentity
  | missingNode
  | reference
  | addedMust
  | checkMust
  | addedWhen
  | checkWhen
  | mandatory
  | illegalConfigChange
  | illegalConfigState
  | status
  | minElements
  | maxElements
  | type
  | defaultValue
  | units
  | identityrefBase
  | length
  | range
  | missingEnum
  | missingBit
  | pattern
  deriving DecidableEq

structure Finding where
  rule : Rule
  new : String
  old : String
  deriving DecidableEq

namespace Severity

def text : Severity → String
  | .error => "error"
  | .warning => "warning"

def toJson (s : Severity) : Json :=
  .str s.text

end Severity

namespace Rule

def all : List Rule :=
  [moduleName, moduleNamespace, revision, missingRevision, missingOldRevision, missingIdentity,
    baseIdentity, missingBaseIdentity, missingNode, reference, addedMust, checkMust, addedWhen,
    checkWhen, mandatory, illegalConfigChange, illegalConfigState, status, minElements,
    maxElements, type, defaultValue, units, identityrefBase, length, range, missingEnum,
    missingBit, pattern]

/-- A change that only a reader can judge is a warning. -/
def severity : Rule → Severity
  | checkMust => .warning
  | checkWhen => .warning
  | _ => .error

/-- The name of the rule in a finding's own JSON form. -/
def name : Rule → String
  | moduleName => "NameError"
  | moduleNamespace => "NamespaceError"
  | revision => "RevisionError"
  | missingRevision => "MissingRevisionError"
  | missingOldRevision => "MissingOldRevisionError"
  | missingIdentity => "MissingIdentityError"
  | baseIdentity => "BaseIdentityError"
  | missingBaseIdentity => "MissingBaseIdentityError"
  | missingNode => "MissingNodeError"
  | reference => "ReferenceError"
  | addedMust => "AddedMustError"
  | checkMust => "CheckMustWarning"
  | addedWhen => "AddedWhenError"
  | checkWhen => "CheckWhenWarning"
  | mandatory => "MandatoryError"
  | illegalConfigChange => "IllegalConfigChangeError"
  | illegalConfigState => "IllegalConfigStateError"
  | status => "StatusError"
  | minElements => "MinElementsError"
  | maxElements => "MaxElementsError"
  | type => "TypeError"
  | defaultValue => "DefaultError"
  | units => "UnitsError"
  | identityrefBase => "IdentityRefBaseError"
  | length => "LengthError"
  | range => "RangeError"
  | missingEnum => "MissingEnumError"
  | missingBit => "MissingBitError"
  | pattern => "PatternError"

/-- The short name of the rule in reports. -/
def code : Rule → String
  | moduleName => "name"
  | moduleNamespace => "namespace"
  | revision => "revision"
  | missingRevision => "missing-revision"
  | missingOldRevision => "missing-old-revision"
  | missingIdentity => "missing-identity"
  | baseIdentity => "base-identity"
  | missingBaseIdentity => "missing-base-identity"
  | missingNode => "missing-node"
  | reference => "reference"
  | addedMust => "added-must"
  | checkMust => "check-must"
  | addedWhen => "added-when"
  | checkWhen => "check-when"
  | mandatory => "mandatory"
  | illegalConfigChange => "illegal-config-change"
  | illegalConfigState => "illegal-config-state"
  | status => "status"
  | minElements => "min-elements"
  | maxElements => "max-elements"
  | type => "type"
  | defaultValue => "default"
  | units => "units"
  | identityrefBase => "identityref-base"
  | length => "length"
  | range => "range"
  | missingEnum => "missing-enum"
  | missingBit => "missing-bit"
  | pattern => "pattern"

/-- What a change that breaks the rule has done. -/
def message : Rule → String
  | moduleName => "module name changed"
  | moduleNamespace => "module namespace changed"
  | revision => "new revision is not newer than the old revision"
  | missingRevision => "new module has no revision"
  | missingOldRevision => "old revision removed from revision history"
  | missingIdentity => "identity removed"
  | baseIdentity => "identity lost base identities"
  | missingBaseIdentity => "identity base removed"
  | missingNode => "definition removed"
  | reference => "reference statement removed"
  | addedMust => "must constraint added"
  | checkMust => "must constraint changed, check semantics"
  | addedWhen => "when condition added"
  | checkWhen => "when condition changed, check semantics"
  | mandatory => "node became mandatory"
  | illegalConfigChange => "config changed from true to false"
  | illegalConfigState => "config changed from false to true on a mandatory node"
  | status => "status moved backwards"
  | minElements => "min-elements increased"
  | maxElements => "max-elements decreased"
  | type => "base type changed"
  | defaultValue => "default value changed or removed"
  | units => "units removed"
  | identityrefBase => "identityref bases reduced"
  | length => "allowed length narrowed"
  | range => "allowed range narrowed"
  | missingEnum => "enum removed or renumbered"
  | missingBit => "bit removed or repositioned"
  | pattern => "patterns changed"

/-- What the two details of a finding are about. -/
def subject : Rule → String
  | moduleName => "name"
  | moduleNamespace => "namespace"
  | revision => "revision"
  | missingRevision => "revision"
  | missingOldRevision => "revision history"
  | missingIdentity => "identity"
  | baseIdentity => "base"
  | missingBaseIdentity => "base"
  | missingNode => "node"
  | reference => "reference"
  | addedMust => "must"
  | checkMust => "must"
  | addedWhen => "when"
  | checkWhen => "when"
  | mandatory => "mandatory"
  | illegalConfigChange => "config"
  | illegalConfigState => "config"
  | status => "status"
  | minElements => "min-elements"
  | maxElements => "max-elements"
  | type => "type"
  | defaultValue => "default"
  | units => "units"
  | identityrefBase => "bases"
  | length => "length"
  | range => "ranges"
  | missingEnum => "enums"
  | missingBit => "bits"
  | pattern => "patterns"

/-- The rules that only the later version of the language has. -/
def since7950 : Rule → Bool
  | missingIdentity | baseIdentity | missingBaseIdentity => true
  | addedWhen | checkWhen | identityrefBase => true
  | _ => false

end Rule

namespace Finding

def severity (f : Finding) : Severity :=
  f.rule.severity

def toJson (f : Finding) : Json :=
  .obj [("kind", .str f.rule.name), ("new_detail", .str f.new), ("old_detail", .str f.old)]

end Finding

end YangEvolution
