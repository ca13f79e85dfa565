import YangEvolution.Markup.Element
import YangEvolution.Schema.Module
import YangEvolution.Yin.Fault

/-!
What most statements have in common: an argument that has to be there, and the substatements for
status, description and reference. `owner` is the module that a fault is reported for.
-/

namespace YangEvolution.Yin

open Text Markup

/-- The argument of a statement, which is written as an attribute. -/
def argument (owner : String) (stmt : Element) (key : String) : Except LoadFault String :=
  match stmt.attribute? key with
  | some value => .ok value
  | none => .error (.missingArgument owner stmt.tag key)

/-- Reads `true` or `false`; blanks around it are ignored. -/
def readFlag (owner what value : String) : Except LoadFault Bool :=
  match trim value with
  | "true" => .ok true
  | "false" => .ok false
  | other => .error (.invalid owner what other)

def statusOf (owner : String) (stmt : Element) : Except LoadFault Status :=
  match stmt.childAttribute? "status" "value" with
  | none => .ok .current
  | some raw =>
    match Status.read? raw with
    | some s => .ok s
    | none => .error (.invalid owner "status" (trim raw))

def descriptionOf (stmt : Element) : Option String :=
  stmt.childText? "description" "text"

def referenceOf (stmt : Element) : Option String :=
  stmt.childText? "reference" "text"

def whenOf (stmt : Element) : Option String :=
  stmt.childAttribute? "when" "condition"

def errorMessageOf (stmt : Element) : Option String :=
  stmt.childText? "error-message" "value"

def errorAppTagOf (stmt : Element) : Option String :=
  stmt.childAttribute? "error-app-tag" "value"

/-- The defaults of a statement, of which a leaf-list may have several. -/
def defaultOf (stmt : Element) : Option String :=
  match (stmt.childrenOf "default").filterMap fun d => d.attribute? "value" with
  | [] => none
  | values => some (join ", " values)

def mustOf (owner : String) (stmt : Element) : Except LoadFault Must := do
  let xpath ← argument owner stmt "condition"
  .ok {
    xpath
    errorMessage := errorMessageOf stmt
    errorAppTag := errorAppTagOf stmt
    description := descriptionOf stmt
    reference := referenceOf stmt }

def mustsOf (owner : String) (stmt : Element) : Except LoadFault (List Must) :=
  (stmt.childrenOf "must").mapM (mustOf owner)

def readCount (s : String) : Option Nat :=
  readUnsigned (Nat.pow 2 32 - 1) (trimChars s.toList)

def minElementsOf (owner : String) (stmt : Element) : Except LoadFault (Option Nat) :=
  match stmt.childAttribute? "min-elements" "value" with
  | none => .ok none
  | some raw =>
    match readCount raw with
    | some n => .ok (some n)
    | none => .error (.invalid owner "min-elements" raw)

/-- An unbounded number of elements is no restriction. -/
def maxElementsOf (owner : String) (stmt : Element) : Except LoadFault (Option Nat) :=
  match stmt.childAttribute? "max-elements" "value" with
  | none => .ok none
  | some raw =>
    if trim raw = "unbounded" then .ok none
    else
      match readCount raw with
      | some n => .ok (some n)
      | none => .error (.invalid owner "max-elements" (trim raw))

/-- The bounds on the number of elements, where one of them is stated. -/
def elementCountOf (owner : String) (stmt : Element) : Except LoadFault (Option ElementCount) :=
  if (stmt.childAttribute? "min-elements" "value").isNone &&
      (stmt.childAttribute? "max-elements" "value").isNone then .ok none
  else do
    let min ← minElementsOf owner stmt
    let max ← maxElementsOf owner stmt
    .ok (some { min, max })

/-- A reference apart at its first colon, without the blanks around it. -/
def splitReference (reference : String) : Option String × String :=
  let cs := trimChars reference.toList
  match cut [':'] cs with
  | some (lead, rest) => (some (String.ofList lead), String.ofList rest)
  | none => (none, String.ofList cs)

/-- The steps between the slashes of a path, without empty ones. -/
def pathSteps (path : String) : List String :=
  ((pieces '/' path.toList).filter fun step => !step.isEmpty).map String.ofList

end YangEvolution.Yin
