import YangEvolution.Text.Blank
import YangEvolution.Text.Json

/-!
Elements: a name, attributes in the order of their keys, child elements, and the text between
them. Names are looked up without regard to their namespace prefixes.
-/

namespace YangEvolution.Markup

open Text

structure Element where
  tag : String
  nsPrefix : Option String := none
  attributes : List (String × String) := []
  children : List Element := []
  text : Option String := none

/-- Sets the value of a key in a list that is sorted by keys. -/
def setAttribute (key value : String) : List (String × String) → List (String × String)
  | [] => [(key, value)]
  | (k, v) :: rest =>
    if key = k then (key, value) :: rest
    else if key < k then (key, value) :: (k, v) :: rest
    else (k, v) :: setAttribute key value rest

namespace Element

/-- Induction on the tree of elements below an element. -/
theorem treeInduction {motive : Element → Prop}
    (element : ∀ e : Element, (∀ c ∈ e.children, motive c) → motive e) (e : Element) : motive e :=
  match e with
  | ⟨tag, nsPrefix, attributes, children, text⟩ =>
    element ⟨tag, nsPrefix, attributes, children, text⟩ fun c _ => treeInduction element c

def withAttribute (e : Element) (key value : String) : Element :=
  { e with attributes := setAttribute key value e.attributes }

def withChild (e child : Element) : Element :=
  { e with children := e.children ++ [child] }

/-- The first child of the given tag. -/
def child? (e : Element) (tag : String) : Option Element :=
  e.children.find? fun c => c.tag == tag

def childrenOf (e : Element) (tag : String) : List Element :=
  e.children.filter fun c => c.tag == tag

/-- The element reached by following the first child of each tag. -/
def descend? (e : Element) : List String → Option Element
  | [] => some e
  | tag :: rest => (e.child? tag).bind fun c => c.descend? rest

/-- The text of the element reached by following tags. -/
def textAt? (e : Element) (path : List String) : Option String :=
  (e.descend? path).bind Element.text

def attribute? (e : Element) (key : String) : Option String :=
  e.attributes.lookup key

/-- An attribute of the first child of a tag. -/
def childAttribute? (e : Element) (tag key : String) : Option String :=
  (e.child? tag).bind fun c => c.attribute? key

/-- The text of a grandchild, without the blanks around it. -/
def childText? (e : Element) (tag inner : String) : Option String :=
  (e.textAt? [tag, inner]).map trim

mutual

def toJson : Element → Json
  | ⟨tag, nsPrefix, attributes, children, text⟩ =>
    .obj [("tag", .str tag), ("prefix", Json.ofOption nsPrefix),
      ("attributes", .obj (attributes.map fun (k, v) => (k, .str v))),
      ("children", .arr (toJsonAll children)), ("text", Json.ofOption text)]

def toJsonAll : List Element → List Json
  | [] => []
  | e :: rest => e.toJson :: toJsonAll rest

end

mutual

def decEq : (a b : Element) → Decidable (a = b)
  | ⟨tag, nsPrefix, attributes, children, text⟩, ⟨tag', nsPrefix', attributes', children', text'⟩ =>
    match decEqAll children children' with
    | .isTrue h =>
      decidable_of_iff (tag = tag' ∧ nsPrefix = nsPrefix' ∧ attributes = attributes' ∧ text = text')
        (by rw [Element.mk.injEq, h]; simp)
    | .isFalse h => .isFalse fun heq => h (Element.mk.inj heq).2.2.2.1

def decEqAll : (as bs : List Element) → Decidable (as = bs)
  | [], [] => .isTrue rfl
  | [], _ :: _ => .isFalse (List.cons_ne_nil _ _).symm
  | _ :: _, [] => .isFalse (List.cons_ne_nil _ _)
  | a :: as, b :: bs =>
    match decEq a b with
    | .isFalse h => .isFalse fun heq => h (List.cons.inj heq).1
    | .isTrue h =>
      match decEqAll as bs with
      | .isFalse h' => .isFalse fun heq => h' (List.cons.inj heq).2
      | .isTrue h' => .isTrue (by rw [h, h'])

end

instance : DecidableEq Element := decEq

@[simp] theorem descend?_nil (e : Element) : e.descend? [] = some e := rfl

theorem mem_of_child? {e c : Element} {tag : String} (h : e.child? tag = some c) :
    c ∈ e.children :=
  List.mem_of_find?_eq_some h

end Element

end YangEvolution.Markup
