import YangEvolution.Proofs.RenamedReference
import YangEvolution.Proofs.RetoldDocument

/-!
Other prefixes for the modules that a module refers to. Main statement: if the prefixes that a
module declares are renamed, to different ones without colons and blanks that stand for nothing else
in it, and those in paths to ones without slashes, then the renamed document is loaded exactly if
the document is, and to the same module but for its own prefix. A slash in a new prefix would end a
step of a path.
-/

namespace YangEvolution

open Text Markup Yin Outcome

namespace Markup.Element

/-! ### Renamed documents -/

/-- The value of an attribute with other prefixes. -/
def renameAttribute (rename : String → String) (tag key value : String) : String :=
  if key = "name" ∧ tag ∈ ["type", "uses", "base"] then renameReference rename value
  else if key = "target-node" ∧ tag ∈ ["augment", "refine"] then renamePath rename value
  else if key = "value" ∧ tag = "prefix" then rename value
  else value

mutual

/-- A document with other prefixes, in the statements that declare them and in all references. -/
def renamed (rename : String → String) : Element → Element
  | ⟨tag, nsPrefix, attributes, children, text⟩ =>
    ⟨tag, nsPrefix, attributes.map fun a => (a.1, renameAttribute rename tag a.1 a.2),
      renamedAll rename children, text⟩

def renamedAll (rename : String → String) : List Element → List Element
  | [] => []
  | e :: rest => e.renamed rename :: renamedAll rename rest

end

/-- The steps of paths in an attribute. -/
def stepsIn (tag key value : String) : List String :=
  if key = "target-node" ∧ tag ∈ ["augment", "refine"] then pathSteps value else []

/-- The references in an attribute, the steps of paths included. -/
def referencesIn (tag key value : String) : List String :=
  if key = "name" ∧ tag ∈ ["type", "uses", "base"] then [value] else stepsIn tag key value

mutual

/-- The prefixes of the references that are found in the attributes of a document. -/
def prefixesIn (found : String → String → String → List String) : Element → List String
  | ⟨tag, _, attributes, children, _⟩ =>
    (attributes.flatMap fun a => found tag a.1 a.2).filterMap
      (fun given => (splitReference given).1) ++ prefixesInAll found children

def prefixesInAll (found : String → String → String → List String) : List Element → List String
  | [] => []
  | e :: rest => e.prefixesIn found ++ prefixesInAll found rest

end

/-- The prefixes that a document uses. -/
def usedPrefixes : Element → List String :=
  prefixesIn referencesIn

/-- The prefixes that a document uses in paths. -/
def pathPrefixes : Element → List String :=
  prefixesIn stepsIn

/-- A document has no other prefixes in it than a whole that it is part of. -/
def Within (root e : Element) : Prop :=
  ∀ found, e.prefixesIn found ⊆ root.prefixesIn found

variable (rename : String → String)

theorem renamedAll_eq_map (stmts : List Element) :
    renamedAll rename stmts = stmts.map (renamed rename) := by
  induction stmts with
  | nil => rfl
  | cons e rest ih => rw [renamedAll, ih, List.map_cons]

@[simp] theorem tag_renamed (e : Element) : (e.renamed rename).tag = e.tag := by
  cases e
  rw [renamed]

@[simp] theorem text_renamed (e : Element) : (e.renamed rename).text = e.text := by
  cases e
  rw [renamed]

@[simp] theorem children_renamed (e : Element) :
    (e.renamed rename).children = e.children.map (renamed rename) := by
  cases e
  rw [renamed, renamedAll_eq_map]

theorem attribute?_renamed (e : Element) (key : String) :
    (e.renamed rename).attribute? key =
      (e.attribute? key).map (renameAttribute rename e.tag key) := by
  obtain ⟨tag, nsPrefix, attributes, children, text⟩ := e
  rw [renamed, attribute?, attribute?]
  induction attributes with
  | nil => rfl
  | cons a rest ih =>
      obtain ⟨k, v⟩ := a
      rw [List.map_cons, List.lookup_cons, List.lookup_cons]
      cases hk : key == k with
      | true =>
          obtain rfl := beq_iff_eq.mp hk
          rfl
      | false => exact ih

/-- Only attributes that hold prefixes are changed. -/
theorem renameAttribute_of_not_holdsPrefix {tag key : String} (h : holdsPrefix tag key = false)
    (value : String) : renameAttribute rename tag key value = value := by
  have hreference : ¬ (key = "name" ∧ tag ∈ ["type", "uses", "base"]) := by
    rintro ⟨rfl, htag⟩
    rw [holdsPrefix, List.contains_iff_mem.mpr htag] at h
    simp at h
  have hpath : ¬ (key = "target-node" ∧ tag ∈ ["augment", "refine"]) := by
    rintro ⟨rfl, htag⟩
    rw [holdsPrefix, List.contains_iff_mem.mpr htag] at h
    simp at h
  have hdeclared : ¬ (key = "value" ∧ tag = "prefix") := by
    rintro ⟨rfl, rfl⟩
    simp [holdsPrefix] at h
  rw [renameAttribute, if_neg hreference, if_neg hpath, if_neg hdeclared]

theorem renameAttribute_reference {tag : String} (h : tag ∈ ["type", "uses", "base"])
    (value : String) :
    renameAttribute rename tag "name" value = renameReference rename value :=
  if_pos ⟨rfl, h⟩

theorem renameAttribute_path {tag : String} (h : tag ∈ ["augment", "refine"]) (value : String) :
    renameAttribute rename tag "target-node" value = renamePath rename value := by
  rw [renameAttribute, if_neg (by simp), if_pos ⟨rfl, h⟩]

theorem Within.child {root e c : Element} (h : root.Within e) (hc : c ∈ e.children) :
    root.Within c := by
  intro found
  have hall : ∀ stmts : List Element, c ∈ stmts →
      c.prefixesIn found ⊆ prefixesInAll found stmts := by
    intro stmts hmem
    induction stmts with
    | nil => cases hmem
    | cons e rest ih =>
        rw [prefixesInAll]
        rcases List.mem_cons.mp hmem with rfl | hmem
        · exact List.subset_append_left _ _
        · exact List.subset_append_of_subset_right _ (ih hmem)
  refine List.Subset.trans ?_ (h found)
  obtain ⟨tag, nsPrefix, attributes, children, text⟩ := e
  rw [prefixesIn]
  exact List.subset_append_of_subset_right _ (hall children hc)

variable {rename}

theorem forall₂_renamed {root e : Element} (h : root.Within e) (p : String → Bool) :
    List.Forall₂ (fun c c' : Element => c' = c.renamed rename ∧ root.Within c)
      (e.children.filter fun c => p c.tag)
      ((e.renamed rename).children.filter fun c => p c.tag) := by
  rw [children_renamed, List.filter_map, List.forall₂_map_right_iff]
  simp only [Function.comp_def, tag_renamed]
  exact List.forall₂_same.mpr fun c hc => ⟨rfl, h.child (List.mem_of_mem_filter hc)⟩

theorem mem_prefixesIn {e : Element} {found : String → String → String → List String}
    {key value given p : String} (hvalue : e.attribute? key = some value)
    (hgiven : given ∈ found e.tag key value) (hp : (splitReference given).1 = some p) :
    p ∈ e.prefixesIn found := by
  obtain ⟨tag, nsPrefix, attributes, children, text⟩ := e
  rw [prefixesIn]
  refine List.mem_append_left _ (List.mem_filterMap.mpr ⟨given, ?_, hp⟩)
  obtain ⟨before, after, hsplit, -⟩ := List.lookup_eq_some_iff.mp hvalue
  refine List.mem_flatMap.mpr ⟨(key, value), ?_, hgiven⟩
  rw [show attributes = _ from hsplit]
  exact List.mem_append_right _ List.mem_cons_self

end Markup.Element

namespace Yin

open Element (renamed renameAttribute usedPrefixes pathPrefixes referencesIn stepsIn)

/-- A renaming of the prefixes that a document declares. The new prefixes are different, can be told
from the name in a reference, and are not used for anything else. -/
structure RenamesPrefixes (root : Element) (rename : String → String) : Prop where
  other : ∀ p, p ∉ declaredPrefixes root → rename p = p
  plain : ∀ p ∈ declaredPrefixes root, ∀ c ∈ (rename p).toList, c ≠ ':' ∧ isBlank c = false
  injective : ∀ p ∈ declaredPrefixes root, ∀ q ∈ declaredPrefixes root, rename p = rename q → p = q
  fresh : ∀ p ∈ declaredPrefixes root, ∀ q ∈ root.usedPrefixes, q ∉ declaredPrefixes root →
    rename p ≠ q

namespace RenamesPrefixes

variable {root : Element} {rename : String → String} (h : RenamesPrefixes root rename)

include h

theorem apart {p q : String} (hp : p ∈ root.usedPrefixes) (hq : q ∈ declaredPrefixes root)
    (heq : rename p = rename q) : p = q := by
  by_cases hdeclared : p ∈ declaredPrefixes root
  · exact h.injective p hdeclared q hq heq
  · -- what is used without a declaration stays, and no new prefix is taken for it
    rw [h.other p hdeclared] at heq
    exact absurd heq.symm (h.fresh q hq p hp hdeclared)

theorem isPrefix {p : String} (hp : IsPrefix p) : IsPrefix (rename p) := by
  by_cases hdeclared : p ∈ declaredPrefixes root
  · have hplain := h.plain p hdeclared
    refine ⟨fun hmem => (hplain _ hmem).1 rfl, fun x hx => (hplain x ?_).2⟩
    exact List.mem_of_mem_head? hx
  · rwa [h.other p hdeclared]

theorem renameReference {given : String}
    (hused : ∀ p, (splitReference given).1 = some p → p ∈ root.usedPrefixes) :
    Renamed (· ∈ root.usedPrefixes) rename given (Yin.renameReference rename given) where
  split := splitReference_renameReference fun _ hp => h.isPrefix (isPrefix_of_splitReference hp).1
  known := hused

theorem reference {e : Element} (hwithin : root.Within e)
    (htag : e.tag ∈ ["type", "uses", "base"]) :
    Option.Rel (Renamed (· ∈ root.usedPrefixes) rename) (e.attribute? "name")
      ((e.renamed rename).attribute? "name") := by
  rw [Element.attribute?_renamed]
  cases hname : e.attribute? "name" with
  | none => exact .none
  | some given =>
      rw [Option.map_some, Element.renameAttribute_reference rename htag]
      refine .some (h.renameReference fun p hp => ?_)
      refine hwithin referencesIn (Element.mem_prefixesIn hname ?_ hp)
      rw [referencesIn, if_pos ⟨rfl, htag⟩]
      exact List.mem_singleton_self given

variable (hslash : ∀ p ∈ declaredPrefixes root, p ∈ root.pathPrefixes → '/' ∉ (rename p).toList)

include hslash

theorem slash_not_mem {p : String} (hpath : p ∈ root.pathPrefixes) (hp : '/' ∉ p.toList) :
    '/' ∉ (rename p).toList := by
  by_cases hdeclared : p ∈ declaredPrefixes root
  · exact hslash p hdeclared hpath
  · rwa [h.other p hdeclared]

theorem renamePath {path : String}
    (hused : ∀ step ∈ pathSteps path, ∀ p, (splitReference step).1 = some p →
      p ∈ root.usedPrefixes ∧ p ∈ root.pathPrefixes) :
    List.Forall₂ (Renamed (· ∈ root.usedPrefixes) rename) (pathSteps path)
      (pathSteps (Yin.renamePath rename path)) := by
  rw [pathSteps_renamePath, List.forall₂_map_right_iff]
  · exact List.forall₂_same.mpr fun step hstep =>
      h.renameReference fun p hp => (hused step hstep p hp).1
  · intro step hstep p hp
    -- a step is a piece between slashes, so an old prefix in it has none
    refine h.slash_not_mem hslash (hused step hstep p hp).2 fun hmem => ?_
    obtain ⟨piece, hpiece, rfl⟩ := List.mem_map.mp hstep
    have hpieceSlash := (isPrefix_of_splitReference hp).2 _ hmem
    rw [String.toList_ofList] at hpieceSlash
    exact not_mem_of_mem_pieces (List.mem_of_mem_filter hpiece) hpieceSlash

theorem path {e : Element} (hwithin : root.Within e) (htag : e.tag ∈ ["augment", "refine"]) :
    Option.Rel (fun path path' =>
      List.Forall₂ (Renamed (· ∈ root.usedPrefixes) rename) (pathSteps path) (pathSteps path'))
      (e.attribute? "target-node") ((e.renamed rename).attribute? "target-node") := by
  rw [Element.attribute?_renamed]
  cases htarget : e.attribute? "target-node" with
  | none => exact .none
  | some path =>
      rw [Option.map_some, Element.renameAttribute_path rename htag]
      have hsteps : stepsIn e.tag "target-node" path = pathSteps path := if_pos ⟨rfl, htag⟩
      have hreferences : referencesIn e.tag "target-node" path = pathSteps path := by
        rw [referencesIn, if_neg (by simp), hsteps]
      refine .some (h.renamePath hslash fun step hstep p hp => ⟨?_, ?_⟩)
      · exact hwithin referencesIn (Element.mem_prefixesIn htarget (hreferences ▸ hstep) hp)
      · exact hwithin stepsIn (Element.mem_prefixesIn htarget (hsteps ▸ hstep) hp)

/-- A document with other prefixes is another text of it. -/
def retelling : Retelling False where
  stmt e e' := e' = e.renamed rename ∧ root.Within e
  rename
  known p := p ∈ root.usedPrefixes
  reading := {
    tag := by
      rintro e _ ⟨rfl, -⟩
      exact Element.tag_renamed rename e
    text := by
      rintro e _ ⟨rfl, -⟩
      exact Element.text_renamed rename e
    attribute? := by
      rintro e _ key ⟨rfl, -⟩ hkey
      rw [Element.attribute?_renamed,
        funext (Element.renameAttribute_of_not_holdsPrefix rename hkey)]
      exact Option.map_id'
    childrenOf := by
      rintro e _ tag ⟨rfl, hwithin⟩ _
      exact Element.forall₂_renamed hwithin fun tag' => tag' == tag }
  rename_eq _ := False.elim
  attribute? _ := False.elim
  reference := by
    rintro e _ ⟨rfl, hwithin⟩ htag
    exact h.reference hwithin htag
  path := by
    rintro e _ ⟨rfl, hwithin⟩ htag
    exact h.path hslash hwithin htag
  declared := by
    rintro e _ ⟨rfl, -⟩ htag
    rw [Element.attribute?_renamed, htag]
    rfl
  definitions := by
    rintro e _ tag ⟨rfl, hwithin⟩ _
    exact Element.forall₂_renamed hwithin fun tag' => tag' == tag
  nodes := by
    rintro e _ ⟨rfl, hwithin⟩
    exact Element.forall₂_renamed hwithin fun tag => (dataKind? tag).isSome || tag == "uses"
  inOrder _ := False.elim

end RenamesPrefixes

end Yin

namespace Loading.Loader

/-- A document with other prefixes is loaded exactly if the document is, and to the same module but
for its own prefix; what the loader keeps is the same in any case. -/
theorem prefixes_immaterial (loader : Loader) (tree : FileTree) {origin origin' : Origin}
    {root : Element} {rename : String → String} (hroot : origin.element tree = .ok root)
    (hroot' : origin'.element tree = .ok (root.renamed rename)) (hdir : origin'.dir = origin.dir)
    (h : RenamesPrefixes root rename)
    (hslash : ∀ p ∈ declaredPrefixes root, p ∈ root.pathPrefixes → '/' ∉ (rename p).toList) :
    (∀ m' after, loader.load tree origin' = (.ok m', after) ↔
      ∃ m, loader.load tree origin = (.ok m, after) ∧
        m' = { m with nsPrefix := rename m.nsPrefix }) ∧
    (loader.load tree origin').2 = (loader.load tree origin).2 := by
  obtain ⟨hagree, hloader⟩ := loader.load_retold (h.retelling hslash) hroot hroot' hdir False.elim
    ⟨rfl, fun _ => List.Subset.refl _⟩ fun p q hp hq => h.apart hp hq
  refine ⟨fun m' after => ?_, hloader⟩
  constructor
  · intro hload
    obtain ⟨m, hm, heq⟩ := hagree.exists_of_eq_ok_right (congrArg Prod.fst hload)
    refine ⟨m, Prod.ext hm ?_, heq⟩
    rw [← hloader, hload]
  · rintro ⟨m, hload, rfl⟩
    obtain ⟨m', hm', rfl⟩ := hagree.exists_of_eq_ok (congrArg Prod.fst hload)
    refine Prod.ext hm' ?_
    rw [hloader, hload]

/-- Another prefix for a module, in place of an old one. -/
def replacePrefix (old new p : String) : String :=
  if p = old then new else p

theorem renamesPrefixes_replacePrefix {root : Element} {old new : String}
    (hdeclared : declaredPrefixes root = [old])
    (hplain : new.toList.all (fun c => c != ':' && !isBlank c) = true)
    (hfresh : new ∉ root.usedPrefixes) :
    RenamesPrefixes root (replacePrefix old new) := by
  have hold : replacePrefix old new old = new := if_pos rfl
  constructor
  · intro p hp
    rw [hdeclared, List.mem_singleton] at hp
    exact if_neg hp
  all_goals simp only [hdeclared, List.mem_singleton, forall_eq, hold]
  · simpa [List.all_eq_true] using hplain
  · exact fun _ => trivial
  · rintro q hq - rfl
    exact hfresh hq

/-- A module that refers to its own definitions by its own prefix. -/
def selfReferring (own : String) : Element where
  tag := "module"
  attributes := [("name", "a")]
  children := [
    { tag := "namespace", attributes := [("uri", "urn:a")] },
    { tag := "prefix", attributes := [("value", own)] },
    { tag := "typedef"
      attributes := [("name", "t")]
      children := [{ tag := "type", attributes := [("name", "int8")] }] },
    { tag := "leaf"
      attributes := [("name", "l")]
      children := [{ tag := "type", attributes := [("name", own ++ ":t")] }] },
    { tag := "augment"
      attributes := [("target-node", "/" ++ own ++ ":top")]
      children := [{ tag := "container", attributes := [("name", "c")] }] }]

def selfReferringText (own : String) : Bytes :=
  ("<module name=\"a\" xmlns=\"urn:ietf:params:xml:ns:yang:yin:1\">" ++
    "<namespace uri=\"urn:a\"/><prefix value=\"" ++ own ++ "\"/>" ++
    "<typedef name=\"t\"><type name=\"int8\"/></typedef>" ++
    "<leaf name=\"l\"><type name=\"" ++ own ++ ":t\"/></leaf>" ++
    "<augment target-node=\"/" ++ own ++ ":top\"><container name=\"c\"/></augment>" ++
    "</module>").toUTF8.toList

theorem selfReferring_loads :
    (parse (selfReferringText "a")).toOption = some (selfReferring "a") ∧
      declaredPrefixes (selfReferring "a") = ["a"] ∧ (selfReferring "a").usedPrefixes = ["a", "a"] ∧
      loadsAlone (selfReferringText "a") (fun m =>
        m.nsPrefix == "a" && !m.augmentations.isEmpty) = true := by
  decide +kernel

theorem prefixes_immaterial_selfReferring :
    ∃ m, RenamesPrefixes (selfReferring "a") (replacePrefix "a" "b") ∧
      load ⟨[], []⟩ ⟨.empty, ⟨"/"⟩⟩ (.document (selfReferringText "a") none) =
        (.ok m, ⟨[], []⟩) ∧
      load ⟨[], []⟩ ⟨.empty, ⟨"/"⟩⟩ (.document (selfReferringText "b") none) =
        (.ok { m with nsPrefix := "b" }, ⟨[], []⟩) ∧
      m.augmentations ≠ [] := by
  have hnew : (parse (selfReferringText "b")).toOption =
      some ((selfReferring "a").renamed (replacePrefix "a" "b")) := by
    decide +kernel
  obtain ⟨hold, hdeclared, hused, hloads⟩ := selfReferring_loads
  have hrenames : RenamesPrefixes (selfReferring "a") (replacePrefix "a" "b") :=
    renamesPrefixes_replacePrefix hdeclared (by decide) (by simp [hused])
  obtain ⟨m, hm, hloaded⟩ := exists_of_loadsAlone hloads ⟨.empty, ⟨"/"⟩⟩
  simp only [Bool.and_eq_true, beq_iff_eq, Bool.not_eq_true', List.isEmpty_eq_false_iff] at hloaded
  obtain ⟨hown, haugmentations⟩ := hloaded
  have hsame := prefixes_immaterial ⟨[], []⟩ ⟨.empty, ⟨"/"⟩⟩
    (Origin.element_of_parse hold _ none) (Origin.element_of_parse hnew _ none) (by simp)
    hrenames (by rw [hdeclared]; decide +kernel)
  have hloadsNew := (hsame.1 _ _).mpr ⟨m, hm, rfl⟩
  rw [hown] at hloadsNew
  exact ⟨m, hrenames, hm, hloadsNew, haugmentations⟩

/-- A new prefix with a slash in it is taken for two steps of a path. -/
theorem slash_in_prefix_unknown :
    ∃ m, RenamesPrefixes (selfReferring "a") (replacePrefix "a" "y/z") ∧
      (Origin.document (selfReferringText "a") none).element ⟨.empty, ⟨"/"⟩⟩ =
        .ok (selfReferring "a") ∧
      (Origin.document (selfReferringText "y/z") none).element ⟨.empty, ⟨"/"⟩⟩ =
        .ok ((selfReferring "a").renamed (replacePrefix "a" "y/z")) ∧
      load ⟨[], []⟩ ⟨.empty, ⟨"/"⟩⟩ (.document (selfReferringText "a") none) =
        (.ok m, ⟨[], []⟩) ∧
      load ⟨[], []⟩ ⟨.empty, ⟨"/"⟩⟩ (.document (selfReferringText "y/z") none) =
        (.error (.unknownPrefix "a" "z"), ⟨[], []⟩) := by
  have hchecked : (parse (selfReferringText "y/z")).toOption =
        some ((selfReferring "a").renamed (replacePrefix "a" "y/z")) ∧
      failsAlone (selfReferringText "y/z") (· == .unknownPrefix "a" "z") = true := by
    decide +kernel
  obtain ⟨hnew, hfails⟩ := hchecked
  obtain ⟨hold, hdeclared, hused, hloads⟩ := selfReferring_loads
  obtain ⟨m, hm, -⟩ := exists_of_loadsAlone hloads ⟨.empty, ⟨"/"⟩⟩
  obtain ⟨fault, hfault, heq⟩ := exists_of_failsAlone hfails ⟨.empty, ⟨"/"⟩⟩
  obtain rfl := beq_iff_eq.mp heq
  exact ⟨m, renamesPrefixes_replacePrefix hdeclared (by decide) (by simp [hused]),
    Origin.element_of_parse hold _ none, Origin.element_of_parse hnew _ none, hm, hfault⟩

end Loading.Loader

end YangEvolution
