import YangEvolution.Proofs.Reading

/-!
What a statement says itself. The skeleton of a statement is what is left of it without the typedefs
and groupings in it, at any depth. Main statement: statements of one skeleton read the same, so that
definitions in a statement matter only where a reference leads to them.
-/

namespace YangEvolution

open Yin

namespace Markup.Element

/-- The keywords of statements that only a reference leads to. -/
def isDefinitionTag (tag : String) : Bool :=
  tag == "typedef" || tag == "grouping"

mutual

/-- A statement without the definitions in it. -/
def skeleton : Element → Element
  | ⟨tag, nsPrefix, attributes, children, text⟩ =>
    ⟨tag, nsPrefix, attributes, skeletons children, text⟩

def skeletons : List Element → List Element
  | [] => []
  | e :: rest => if isDefinitionTag e.tag then skeletons rest else e.skeleton :: skeletons rest

end

/-- The statements of a list that are no definitions. -/
def plain (stmts : List Element) : List Element :=
  stmts.filter fun e => !isDefinitionTag e.tag

theorem skeletons_eq_map (stmts : List Element) : skeletons stmts = (plain stmts).map skeleton := by
  induction stmts with
  | nil => rfl
  | cons e rest ih =>
      rw [skeletons, ih, plain, plain, List.filter_cons]
      by_cases h : isDefinitionTag e.tag = true
      · simp [h]
      · simp [h]

@[simp] theorem tag_skeleton (e : Element) : e.skeleton.tag = e.tag := by
  cases e
  rw [skeleton]

@[simp] theorem text_skeleton (e : Element) : e.skeleton.text = e.text := by
  cases e
  rw [skeleton]

@[simp] theorem attribute?_skeleton (e : Element) (key : String) :
    e.skeleton.attribute? key = e.attribute? key := by
  cases e
  rw [skeleton]
  rfl

theorem children_skeleton (e : Element) :
    e.skeleton.children = (plain e.children).map skeleton := by
  cases e
  rw [skeleton, skeletons_eq_map]

/-- Where definitions are left out anyway, nothing is lost without them. -/
theorem filter_plain {p : Element → Bool} (h : ∀ c, p c = true → isDefinitionTag c.tag = false)
    (stmts : List Element) : (plain stmts).filter p = stmts.filter p := by
  rw [plain, List.filter_filter]
  refine List.filter_congr fun c _ => ?_
  cases hc : p c with
  | false => rfl
  | true => simp [h c hc]

variable {e e' : Element}

/-- What is read off the skeleton of a statement is the same for statements of one skeleton. -/
theorem eq_of_skeleton {α : Type} (f : Element → α) (hf : ∀ e, f e.skeleton = f e)
    (h : e'.skeleton = e.skeleton) : f e' = f e := by
  rw [← hf e', h, hf]

theorem forall₂_skeleton (h : e'.skeleton = e.skeleton) :
    List.Forall₂ (fun c c' : Element => c'.skeleton = c.skeleton) (plain e.children)
      (plain e'.children) := by
  refine forall₂_of_map_eq ?_
  rw [← children_skeleton, ← children_skeleton, h]

/-- Statements of one skeleton read the same. -/
theorem reading_skeleton : SameReading fun e e' : Element => e'.skeleton = e.skeleton where
  tag := eq_of_skeleton tag tag_skeleton
  text := eq_of_skeleton text text_skeleton
  attribute? h _ := eq_of_skeleton (attribute? · _) (attribute?_skeleton · _) h
  childrenOf {e e' tag} h htag := by
    have hread : ∀ tag ∈ readTags, isDefinitionTag tag = false := by decide
    have hplain : ∀ c : Element, (c.tag == tag) = true → isDefinitionTag c.tag = false :=
      fun c hc => beq_iff_eq.mp hc ▸ hread tag htag
    rw [childrenOf, childrenOf, ← filter_plain hplain e.children, ← filter_plain hplain e'.children]
    refine filter_of_forall₂ (forall₂_skeleton h) fun c c' hc => ?_
    rw [eq_of_skeleton Element.tag tag_skeleton hc]

theorem exists_child?_of_skeleton {tag : String} (htag : tag ∈ readTags) {c : Element}
    (h : e'.skeleton = e.skeleton) (hc : e.child? tag = some c) :
    ∃ c', e'.child? tag = some c' ∧ c'.skeleton = c.skeleton := by
  have hchild := reading_skeleton.child? h tag htag
  rw [hc] at hchild
  generalize e'.child? tag = found at hchild ⊢
  cases hchild with
  | some hboth => exact ⟨_, rfl, hboth.2⟩

/-- Substatements of one skeleton have the same attributes, those that hold prefixes included. -/
theorem childAttribute?_of_skeleton (h : e'.skeleton = e.skeleton) {tag : String}
    (htag : tag ∈ readTags) (key : String) :
    e'.childAttribute? tag key = e.childAttribute? tag key := by
  refine bind_eq_of_optionRel ?_ (reading_skeleton.child? h tag htag)
  exact fun c c' hc => eq_of_skeleton (attribute? · key) (attribute?_skeleton · key) hc.2

end Markup.Element

namespace Yin

open Text Markup

open Element (reading_skeleton)

variable {e e' : Element}

theorem argument_of_skeleton (h : e'.skeleton = e.skeleton) (owner key : String) :
    argument owner e' key = argument owner e key :=
  Element.eq_of_skeleton (argument owner · key) (fun e => by simp [argument]) h

theorem nodeNameOf_of_skeleton (h : e'.skeleton = e.skeleton) (owner : String) (kind : NodeKind) :
    nodeNameOf owner kind e' = nodeNameOf owner kind e := by
  cases kind <;> simp only [nodeNameOf, argument_of_skeleton h]

theorem baseIdentities_of_skeleton (h : e'.skeleton = e.skeleton) (env : Environment)
    (scope : Scope) : baseIdentities env scope e' = baseIdentities env scope e := by
  refine reading_skeleton.childrenOf_mapM h (by decide) fun c c' _ hc => ?_
  rw [argument_of_skeleton hc]

theorem refine_of_skeleton (h : e'.skeleton = e.skeleton) (owner : String)
    (nodes : List SchemaNode) : refine owner nodes e' = refine owner nodes e := by
  have hnode : refineNode owner e' = refineNode owner e :=
    funext fun n => reading_skeleton.refineNode h owner n
  simp only [refine, argument_of_skeleton h, hnode]

/-- The refinements of a `uses` statement are read off its skeleton. -/
theorem foldlM_refine_of_skeleton (h : e'.skeleton = e.skeleton) (owner : String)
    (nodes : List SchemaNode) :
    (e'.childrenOf "refine").foldlM (refine owner) nodes =
      (e.childrenOf "refine").foldlM (refine owner) nodes := by
  have hall := reading_skeleton.childrenOf h (show "refine" ∈ readTags by decide)
  generalize e.childrenOf "refine" = stmts at hall ⊢
  generalize e'.childrenOf "refine" = stmts' at hall ⊢
  induction hall generalizing nodes with
  | nil => rfl
  | cons hc _ ih =>
      simp only [List.foldlM_cons, refine_of_skeleton hc, ih]

/-! ### Headers of modules -/

theorem importOf_of_skeleton (h : e'.skeleton = e.skeleton) (owner : String) :
    importOf owner e' = importOf owner e := by
  simp only [importOf, argument_of_skeleton h, reading_skeleton.importedRevision h,
    Element.childAttribute?_of_skeleton h (show "prefix" ∈ readTags by decide)]

/-- The header of a module is read off the skeleton of its outermost statement. -/
theorem ofElement_of_skeleton (origin : String) (dir : Option PathName) {root root' : Element}
    (h : root'.skeleton = root.skeleton) :
    ModuleSource.ofElement origin dir root' =
      (fun m => { m with root := root' }) <$> ModuleSource.ofElement origin dir root := by
  have hrevisions : ∀ name, (root'.childrenOf "revision").mapM (revisionOf name) =
      (root.childrenOf "revision").mapM (revisionOf name) := fun name =>
    reading_skeleton.childrenOf_mapM h (by decide) fun _ _ _ hc =>
      reading_skeleton.revisionOf hc name
  have himports : ∀ name, (root'.childrenOf "import").mapM (importOf name) =
      (root.childrenOf "import").mapM (importOf name) := fun name =>
    reading_skeleton.childrenOf_mapM h (by decide) fun _ _ _ hc => importOf_of_skeleton hc name
  simp only [ModuleSource.ofElement, checkTag, reading_skeleton.tag h, argument_of_skeleton h,
    Element.childAttribute?_of_skeleton h (show "namespace" ∈ readTags by decide),
    Element.childAttribute?_of_skeleton h (show "prefix" ∈ readTags by decide), hrevisions,
    himports, map_bind]
  rfl

end Yin

end YangEvolution
