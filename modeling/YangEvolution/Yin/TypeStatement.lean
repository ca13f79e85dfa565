import YangEvolution.Yin.Numbering
import YangEvolution.Yin.Restriction
import YangEvolution.Yin.Scope

/-!
Type statements. A type statement names a built-in type or a typedef and may restrict it. Typedefs
are followed a bounded number of times, which also ends one that refers to itself; between two
typedefs the resolution is by recursion on the statement.
-/

namespace YangEvolution.Yin

open Text Markup

/-- The substatements that restrict or complete the type that is named. -/
def restrictionTags : List String :=
  ["length", "pattern", "range", "fraction-digits", "enum", "bit", "base", "type"]

def isRestricted (stmt : Element) : Bool :=
  stmt.children.any fun c => restrictionTags.contains c.tag

def baseIdentities (env : Environment) (scope : Scope) (stmt : Element) :
    Except LoadFault (List QName) :=
  (stmt.childrenOf "base").mapM fun b => do
    env.qualify scope (← argument scope.owner b "name")

def restrictLength (owner : String) (stmt : Element) (length : Option LengthRestriction) :
    Except LoadFault (Option LengthRestriction) :=
  match stmt.childAttribute? "length" "value" with
  | some expr => some <$> readLength owner expr length
  | none => .ok length

/-- Only a `decimal64` takes its places from the statement, and it has no range before that. -/
def scaleRange (owner : String) (stmt : Element) (builtin : Option Builtin)
    (range : Option RangeRestriction) : Except LoadFault (Option RangeRestriction) :=
  match builtin, stmt.childAttribute? "fraction-digits" "value" with
  | some .decimal64, some raw => do
    .ok (some (decimalRange (← readFractionDigits owner raw)))
  | _, _ => .ok range

def restrictRange (owner : String) (stmt : Element) (range : Option RangeRestriction) :
    Except LoadFault (Option RangeRestriction) :=
  match stmt.childAttribute? "range" "value", range with
  | none, _ => .ok range
  | some expr, some base => some <$> readRange owner expr base
  | some expr, none => .error (.invalid owner "range without fraction-digits" expr)

/-- The facets of a type after the restrictions of a statement. Enums, bits and base identities
replace the inherited ones where there are any, patterns and the members of a union add to them. -/
def restrict (env : Environment) (scope : Scope) (stmt : Element) (builtin : Option Builtin)
    (members : Unit → Except LoadFault (List TypeDef)) :
    Facets TypeDef → Except LoadFault (Facets TypeDef)
  | .none => .ok .none
  | .binary length => .binary <$> restrictLength scope.owner stmt length
  | .string length patterns => do
    let length ← restrictLength scope.owner stmt length
    let added ← (stmt.childrenOf "pattern").mapM (patternOf scope.owner)
    .ok (.string length (patterns ++ added))
  | .numeric range => do
    let scaled ← scaleRange scope.owner stmt builtin range
    .numeric <$> restrictRange scope.owner stmt scaled
  | .enumeration enums =>
    match stmt.childrenOf "enum" with
    | [] => .ok (.enumeration enums)
    | declared => .enumeration <$> enumsOf scope.owner enums declared
  | .bits bits =>
    match stmt.childrenOf "bit" with
    | [] => .ok (.bits bits)
    | declared => .bits <$> bitsOf scope.owner bits declared
  | .identityref bases => do
    match ← baseIdentities env scope stmt with
    | [] => .ok (.identityref bases)
    | declared => .ok (.identityref declared)
  | .union inherited => do .ok (.union (inherited ++ (← members ())))

/-- The type that a statement restricts `base` to; it keeps the name of `base`. -/
def restrictedType (base : TypeDef) (facets : Facets TypeDef) : TypeDef :=
  { TypeDef.derived base.qname base with
    status := base.status
    description := base.description
    reference := base.reference
    facets }

/-- An `identityref` has to have a base identity. -/
def checkIdentityref (owner : String) (t : TypeDef) : Except LoadFault TypeDef :=
  match t.identityBases? with
  | some [] => .error (.missingStatement owner "base (in identityref type)")
  | _ => .ok t

/-- How to resolve a typedef that a type statement names: given the name as it is written, the
typedef statement and its scope. -/
abbrev TypedefResolver := String → Element → Scope → Except LoadFault TypeDef

/-- The type that is named by a type statement, before the statement restricts it. -/
def namedType (env : Environment) (follow : TypedefResolver) (scope : Scope) (stmt : Element) :
    Except LoadFault TypeDef := do
  let name ← argument scope.owner stmt "name"
  match Builtin.ofName? (trim name) with
  | some b => .ok (.ofBuiltin b)
  | none =>
    match ← env.findDefinition "typedef" scope name with
    | some (typedef, inner) => follow name typedef inner
    | none => .error (.unresolvedType scope.owner name)

mutual

/-- The type of a type statement; only a union has members among its substatements. -/
def typeVia (env : Environment) (follow : TypedefResolver) (scope : Scope) :
    Element → Except LoadFault TypeDef
  | ⟨tag, nsPrefix, attributes, children, text⟩ => do
    let stmt : Element := ⟨tag, nsPrefix, attributes, children, text⟩
    let base ← namedType env follow scope stmt
    if isRestricted stmt then
      let facets ← restrict env scope stmt base.builtin?
        (fun _ => membersVia env follow scope children) base.facets
      checkIdentityref scope.owner (restrictedType base facets)
    else checkIdentityref scope.owner base

def membersVia (env : Environment) (follow : TypedefResolver) (scope : Scope) :
    List Element → Except LoadFault (List TypeDef)
  | [] => .ok []
  | stmt :: rest =>
    if stmt.tag = "type" then do
      let member ← typeVia env follow scope stmt
      let members ← membersVia env follow scope rest
      .ok (member :: members)
    else membersVia env follow scope rest

end

/-- The type that a typedef defines, where `resolve` resolves the type statement in it. -/
def typedefVia (resolve : Element → Except LoadFault TypeDef) (scope : Scope) (stmt : Element) :
    Except LoadFault TypeDef := do
  let name ← argument scope.owner stmt "name"
  match stmt.child? "type" with
  | none => .error (.missingStatement scope.owner ("type (in typedef " ++ name ++ ")"))
  | some type =>
    let base ← resolve type
    let status ← statusOf scope.owner stmt
    let derived := TypeDef.derived ⟨scope.source.uri, scope.source.revision, name⟩ base
    .ok { derived with
      default := (stmt.childAttribute? "default" "value").or derived.default
      units := (stmt.childAttribute? "units" "name").or derived.units
      status
      description := descriptionOf stmt
      reference := referenceOf stmt }

/-- How many typedefs and groupings may be followed, one from within another. -/
def maxDepth : Nat := 64

/-- The type of a type statement, following at most `depth` typedefs. -/
def typeOf (env : Environment) : Nat → Scope → Element → Except LoadFault TypeDef
  | 0 => typeVia env fun name _ inner => .error (.tooDeep inner.owner name)
  | depth + 1 => typeVia env fun _ stmt inner => typedefVia (typeOf env depth inner) inner stmt

/-- The type that a typedef defines, following it and what it needs. -/
def typedefOf (env : Environment) (depth : Nat) (scope : Scope) (stmt : Element) :
    Except LoadFault TypeDef :=
  typedefVia (typeOf env depth scope) scope stmt

end YangEvolution.Yin
