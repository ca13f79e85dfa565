import YangEvolution.Proofs.RetoldDocument

/-!
The order of statements. Main statement: where the substatements of one statement are rearranged,
but those of one tag keep their order, and so do those that make nodes, a document is loaded to the
same module as before, or it is not loaded as before.
-/

namespace YangEvolution

open Text Markup Yin Outcome

namespace Markup.Element

/-- The tags of data definitions, cases, actions and notifications, and of the uses of groupings. -/
def nodeTags : List String :=
  ["container", "list", "leaf", "leaf-list", "choice", "case", "anydata", "anyxml", "action",
    "notification", "uses"]

/-- The same statements in another order, which is the same among those of one tag and among those
that make nodes. -/
structure Rearranged (stmts stmts' : List Element) : Prop where
  perm : stmts.Perm stmts'
  tag : ∀ tag, (stmts'.filter fun c => c.tag == tag) = stmts.filter fun c => c.tag == tag
  nodes : (stmts'.filter fun c => nodeTags.contains c.tag) =
    stmts.filter fun c => nodeTags.contains c.tag

theorem rearranged_swap {c d : Element} (htag : c.tag ≠ d.tag)
    (hnodes : c.tag ∉ nodeTags ∨ d.tag ∉ nodeTags) (before after : List Element) :
    Rearranged (before ++ c :: d :: after) (before ++ d :: c :: after) := by
  have hfilter : ∀ p : Element → Bool, ¬ (p c = true ∧ p d = true) →
      (before ++ d :: c :: after).filter p = (before ++ c :: d :: after).filter p := by
    intro p hp
    rw [List.filter_append, List.filter_append]
    refine congrArg (before.filter p ++ ·) ?_
    cases hc : p c with
    | false => simp [List.filter_cons, hc]
    | true =>
        have hd : p d = false := by simpa [hc] using hp
        simp [List.filter_cons, hd]
  refine ⟨(List.Perm.swap d c after).append_left before, fun tag => ?_, ?_⟩
  · refine hfilter _ fun h => htag ?_
    rw [beq_iff_eq.mp h.1, beq_iff_eq.mp h.2]
  · refine hfilter _ fun h => ?_
    rcases hnodes with hc | hd
    · exact hc (List.contains_iff_mem.mp h.1)
    · exact hd (List.contains_iff_mem.mp h.2)

end Markup.Element

namespace Yin

open Element (nodeTags)

theorem isNodeStatement_eq (stmt : Element) :
    isNodeStatement stmt = nodeTags.contains stmt.tag := by
  have hkeyword : ∀ kind : NodeKind, dataKind? kind.keyword = some kind →
      kind.keyword ∈ nodeTags := by
    intro kind h
    cases kind <;> revert h <;> decide
  have hkind : ∀ tag ∈ nodeTags, ((dataKind? tag).isSome || tag == "uses") = true := by decide
  rw [Bool.eq_iff_iff, List.contains_iff_mem]
  constructor
  · intro h
    rcases Bool.or_eq_true_iff.mp h with h | h
    · obtain ⟨kind, hsome⟩ := Option.isSome_iff_exists.mp h
      have htag := tag_of_dataKind? hsome
      rw [htag] at hsome ⊢
      exact hkeyword kind hsome
    · rw [beq_iff_eq.mp h]
      decide
  · exact hkind stmt.tag

def rearranging : Retelling False :=
  .ofAltered Element.Rearranged (fun tag _ _ _ h => h.tag tag)
    (fun l l' h => by
      have hfilter : ∀ l : List Element, l.filter isNodeStatement =
          l.filter fun c => nodeTags.contains c.tag := fun l =>
        List.filter_congr fun c _ => isNodeStatement_eq c
      rw [hfilter, hfilter, h.nodes])
    False.elim

end Yin

namespace Loading.Loader

/-- Rearranging the substatements of a statement changes neither the module that a document is
loaded to nor what the loader keeps. -/
theorem statement_order_immaterial (loader : Loader) (tree : FileTree) {origin origin' : Origin}
    {root root' : Element} (hroot : origin.element tree = .ok root)
    (hroot' : origin'.element tree = .ok root') (hdir : origin'.dir = origin.dir)
    (h : Element.Altered Element.Rearranged root root') :
    (∀ m after, loader.load tree origin' = (.ok m, after) ↔
      loader.load tree origin = (.ok m, after)) ∧
    (loader.load tree origin').2 = (loader.load tree origin).2 := by
  obtain ⟨hagree, hloader⟩ := loader.load_retold rearranging hroot hroot' hdir False.elim (.inr h)
    fun p q _ _ => id
  refine ⟨fun m after => ?_, hloader⟩
  rw [Prod.ext_iff, Prod.ext_iff, hloader]
  refine and_congr_left fun _ => ⟨fun hm => ?_, fun hm => ?_⟩
  · obtain ⟨m', hm', rfl⟩ := hagree.exists_of_eq_ok_right hm
    exact hm'
  · obtain ⟨m', hm', rfl⟩ := hagree.exists_of_eq_ok hm
    exact hm'

/-- A leaf of a type that is defined beside it. -/
def typedLeaf : Element where
  tag := "leaf"
  attributes := [("name", "l")]
  children := [{ tag := "type", attributes := [("name", "t")] }]

def leafType : Element where
  tag := "typedef"
  attributes := [("name", "t")]
  children := [{ tag := "type", attributes := [("name", "int8")] }]

def boxed (stmts : List Element) : Element where
  tag := "container"
  attributes := [("name", "c")]
  children := stmts

/-- A module with one container. -/
def boxModule (stmts : List Element) : Element where
  tag := "module"
  attributes := [("name", "a")]
  children := [
    { tag := "namespace", attributes := [("uri", "u")] },
    { tag := "prefix", attributes := [("value", "a")] }] ++ [boxed stmts]

theorem altered_boxModule {P : List Element → List Element → Prop} {stmts stmts' : List Element}
    (h : P stmts stmts') : Element.Altered P (boxModule stmts) (boxModule stmts') :=
  .inside rfl (Element.Altered.here h)

def typeFirst : Bytes :=
  ("<module name=\"a\"><namespace uri=\"u\"/><prefix value=\"a\"/><container name=\"c\">" ++
    "<typedef name=\"t\"><type name=\"int8\"/></typedef>" ++
    "<leaf name=\"l\"><type name=\"t\"/></leaf></container></module>").toUTF8.toList

def leafFirst : Bytes :=
  ("<module name=\"a\"><namespace uri=\"u\"/><prefix value=\"a\"/><container name=\"c\">" ++
    "<leaf name=\"l\"><type name=\"t\"/></leaf>" ++
    "<typedef name=\"t\"><type name=\"int8\"/></typedef></container></module>").toUTF8.toList

theorem statement_order_immaterial_leafFirst :
    ∃ m, Element.Altered Element.Rearranged (boxModule [leafType, typedLeaf])
        (boxModule [typedLeaf, leafType]) ∧
      load ⟨[], []⟩ ⟨.empty, ⟨"/"⟩⟩ (.document typeFirst none) = (.ok m, ⟨[], []⟩) ∧
      load ⟨[], []⟩ ⟨.empty, ⟨"/"⟩⟩ (.document leafFirst none) = (.ok m, ⟨[], []⟩) ∧
      ∃ n, m.HasNode n ∧ n.data.kind = .leaf := by
  have hchecked : (parse typeFirst).toOption = some (boxModule [leafType, typedLeaf]) ∧
      (parse leafFirst).toOption = some (boxModule [typedLeaf, leafType]) ∧
      loadsAlone typeFirst (fun m => m.children.any fun n =>
        n.children.any fun c => c.data.kind == .leaf) = true := by
    decide +kernel
  obtain ⟨htypeFirst, hleafFirst, hloads⟩ := hchecked
  have haltered : Element.Altered Element.Rearranged (boxModule [leafType, typedLeaf])
      (boxModule [typedLeaf, leafType]) :=
    altered_boxModule (Element.rearranged_swap (by decide) (by decide) [] [])
  obtain ⟨m, hm, hleaf⟩ := exists_of_loadsAlone hloads ⟨.empty, ⟨"/"⟩⟩
  have hsame := statement_order_immaterial ⟨[], []⟩ ⟨.empty, ⟨"/"⟩⟩
    (Origin.element_of_parse htypeFirst _ none) (Origin.element_of_parse hleafFirst _ none)
    (by simp) haltered
  refine ⟨m, haltered, hm, (hsame.1 m _).mpr hm, ?_⟩
  simp only [List.any_eq_true, beq_iff_eq] at hleaf
  obtain ⟨n, hn, c, hc, hkind⟩ := hleaf
  exact ⟨c, .data (.below hn (.of_mem hc)), hkind⟩

end Loading.Loader

end YangEvolution
