import YangEvolution.Proofs.CheckedRange
import YangEvolution.Proofs.LoadedNodes
import YangEvolution.Proofs.TypeShape

/-!
The types of loaded modules: those of nodes, those of type definitions, and the members of unions in
them. What is done with a type after it is resolved changes its default and its units at most. Main
statement: all types of a loaded module are well-formed, and no comparison of two loaded modules
leaves the 128-bit words in which it scales and writes ranges.
-/

namespace YangEvolution

namespace SchemaNode

/-- All types in a tree have a property. -/
def AllTypes (Q : TypeDef → Prop) (n : SchemaNode) : Prop :=
  ∀ d, Occurs [n] d → ∀ t, d.data.type = some t → Q t

variable {Q : TypeDef → Prop} {n : SchemaNode}

theorem allTypes_iff :
    AllTypes Q n ↔ (∀ t, n.data.type = some t → Q t) ∧ ∀ c ∈ n.children, AllTypes Q c :=
  forall_occurs_iff

theorem AllTypes.of_occurs {nodes : List SchemaNode} (h : ∀ n ∈ nodes, AllTypes Q n)
    {d : SchemaNode} (hd : Occurs nodes d) {t : TypeDef} (ht : d.data.type = some t) : Q t := by
  obtain ⟨n, hn, names, hd⟩ := hd
  exact h n hn d (occurs_singleton.mpr ⟨names, hd⟩) t ht

theorem occurs_of_descend? {names : List String} {m : SchemaNode}
    (h : n.descend? names = some m) : Occurs [n] m := by
  induction names generalizing n with
  | nil =>
      cases h
      exact .of_mem List.mem_cons_self
  | cons name rest ih =>
      obtain ⟨c, hc, h⟩ := Option.bind_eq_some_iff.mp h
      obtain ⟨path, hm⟩ := occurs_singleton.mp (ih h)
      exact .below List.mem_cons_self ⟨c, List.mem_of_find?_eq_some hc, path, hm⟩

theorem occurs_of_reach? {nodes : List SchemaNode} {names : List String} {m : SchemaNode}
    (h : reach? nodes names = some m) : Occurs nodes m := by
  cases names with
  | nil => cases h
  | cons name rest =>
      obtain ⟨n, hn, h⟩ := Option.bind_eq_some_iff.mp h
      obtain ⟨path, hm⟩ := occurs_singleton.mp (occurs_of_descend? h)
      exact ⟨n, List.mem_of_find?_eq_some hn, path, hm⟩

end SchemaNode

open SchemaNode

/-- The nodes of a pair are nodes of the modules that are compared. -/
theorem Comparison.hasNode_of_mem_nodePairs {c : Comparison} {q : NodePair}
    (h : q ∈ c.nodePairs) :
    (∃ n, c.old.HasNode n ∧ n.data = q.old) ∧ ∃ n, c.new.HasNode n ∧ n.data = q.new := by
  have hamong : ∀ siblings parent nodes, q ∈ c.pairsAmong siblings parent nodes →
      (∃ n, Occurs nodes n ∧ n.data = q.old) ∧ ∃ n, Occurs siblings n ∧ n.data = q.new := by
    intro siblings parent nodes hq
    obtain ⟨e, he, hpair⟩ := List.mem_filterMap.mp hq
    obtain ⟨m, hm, rfl⟩ := Option.map_eq_some_iff.mp hpair
    obtain ⟨n, hn, k, hk, hdata⟩ := exists_contains_of_mem_entriesAll he
    exact ⟨⟨k, ⟨n, hn, _, hk⟩, hdata⟩, m, occurs_of_reach? hm, rfl⟩
  simp only [nodePairs, List.mem_append, List.mem_flatMap] at h
  obtain ((h | h) | h) | ⟨a, ha, h⟩ := h
  · obtain ⟨⟨n, hn, hold⟩, k, hk, hnew⟩ := hamong _ _ _ h
    exact ⟨⟨n, .data hn, hold⟩, k, .data hk, hnew⟩
  · obtain ⟨⟨n, hn, hold⟩, k, hk, hnew⟩ := hamong _ _ _ h
    exact ⟨⟨n, .rpc hn, hold⟩, k, .rpc hk, hnew⟩
  · obtain ⟨⟨n, hn, hold⟩, k, hk, hnew⟩ := hamong _ _ _ h
    exact ⟨⟨n, .notification hn, hold⟩, k, .notification hk, hnew⟩
  · unfold augmentationPairs at h
    split at h
    · rename_i b hb
      obtain ⟨⟨n, hn, hold⟩, k, hk, hnew⟩ := hamong _ _ _ h
      exact ⟨⟨n, .augmentation ha hn, hold⟩, k,
        .augmentation (List.mem_of_find?_eq_some hb) hk, hnew⟩
    · cases h

/-- `t` is a type of the module: of a node, of a type definition, or of a member of a union among
these. -/
inductive Module.HasType (m : Module) : TypeDef → Prop where
  | node {n : SchemaNode} {t : TypeDef} : m.HasNode n → n.data.type = some t → HasType m t
  | typedef {t : TypeDef} : t ∈ m.typedefs → HasType m t
  | member {t u v : TypeDef} {members : List TypeDef} : HasType m t → t.Extends u →
      u.facets = .union members → v ∈ members → HasType m v

/-- A range of a type that is well-formed has no more places than a `decimal64` can have. -/
theorem TypeDef.Grounded.fractionDigits_le {t : TypeDef} {b : Builtin} (h : t.Grounded b)
    {r : RangeRestriction} (hr : t.range? = some r) : r.fractionDigits ≤ 18 := by
  have hfits := h.facets t (.self t)
  unfold range? at hr
  split at hr
  · rename_i range hfacets
    rw [hfacets, hr] at hfits
    cases hfits with
    | integer _ _ hdigits => omega
    | decimal hrange => exact (hrange r rfl).2.2
  · cases hr

namespace Yin

open Text Markup Outcome

variable {env : Environment} {scope : Scope} {owner : String} {stmt : Element}

/-! ### Uses and refinements -/

theorem allTypes_clearConfig {Q : TypeDef → Prop} {n : SchemaNode} (h : AllTypes Q n) :
    AllTypes Q (clearConfig n) := by
  induction n using treeInduction with
  | node data children ih =>
      obtain ⟨hself, hchildren⟩ := allTypes_iff.mp h
      rw [clearConfig, clearConfigAll_eq_map]
      refine allTypes_iff.mpr ⟨hself, ?_⟩
      simpa using fun c hc => ih c hc (hchildren c hc)

/-- A refinement changes the default of a type, and nothing else of it. -/
theorem type_of_refineNode {n n' : SchemaNode} (h : refineNode owner stmt n = .ok n') :
    n'.data.type.map TypeDef.bare = n.data.type.map TypeDef.bare := by
  obtain ⟨config, children, mandatory, count, added, rfl, -⟩ := exists_of_refineNode h
  show (refineDefault stmt n).data.type.map TypeDef.bare = n.data.type.map TypeDef.bare
  unfold refineDefault
  split
  · rfl
  · simp only [Option.map_map]
    rfl

section Unaffected

variable {Q : TypeDef → Prop} (hbare : ∀ s t : TypeDef, s.bare = t.bare → Q t → Q s)

include hbare

theorem allTypes_refineNode {n n' : SchemaNode} (h : refineNode owner stmt n = .ok n')
    (hn : AllTypes Q n) : AllTypes Q n' := by
  obtain ⟨hself, hchildren⟩ := allTypes_iff.mp hn
  refine allTypes_iff.mpr ⟨fun t ht => ?_, ?_⟩
  · have heq := type_of_refineNode h
    rw [ht, Option.map_some] at heq
    obtain ⟨s, hs, hst⟩ := Option.map_eq_some_iff.mp heq.symm
    exact hbare t s hst.symm (hself s hs)
  · obtain ⟨-, -, hsame | hcleared⟩ := refineNode_eq_ok h
    · exact hsame ▸ hchildren
    · rw [hcleared]
      simpa using fun c hc => allTypes_clearConfig (hchildren c hc)

theorem allTypes_modifyAt {fault : LoadFault} {steps : List String}
    {nodes nodes' : List SchemaNode}
    (h : modifyAt fault (refineNode owner stmt) steps nodes = .ok nodes')
    (hnodes : ∀ n ∈ nodes, AllTypes Q n) : ∀ n ∈ nodes', AllTypes Q n := by
  fun_induction modifyAt fault (refineNode owner stmt) steps nodes generalizing nodes' with
  | case1 => cases h
  | case2 name nodes =>
      obtain ⟨before, n, n', after, rfl, rfl, -, hn'⟩ := modifyFirst_eq_ok h
      simp only [List.forall_mem_append, List.forall_mem_cons] at hnodes ⊢
      exact ⟨hnodes.1, allTypes_refineNode hbare hn' hnodes.2.1, hnodes.2.2⟩
  | case3 name next rest nodes ih =>
      obtain ⟨before, n, n', after, rfl, rfl, -, hn'⟩ := modifyFirst_eq_ok h
      obtain ⟨children, hchildren, hn'⟩ := exists_of_bind_eq_ok hn'
      cases hn'
      simp only [List.forall_mem_append, List.forall_mem_cons] at hnodes ⊢
      obtain ⟨hself, hbelow⟩ := allTypes_iff.mp hnodes.2.1
      exact ⟨hnodes.1, allTypes_iff.mpr ⟨hself, ih n hchildren hbelow⟩, hnodes.2.2⟩

theorem allTypes_refined {refines : List Element} {nodes used : List SchemaNode}
    (h : refines.foldlM (refine owner) nodes = .ok used)
    (hnodes : ∀ n ∈ nodes, AllTypes Q n) : ∀ n ∈ used, AllTypes Q n := by
  induction refines generalizing nodes with
  | nil =>
      cases h
      exact hnodes
  | cons r rest ih =>
      rw [List.foldlM_cons] at h
      obtain ⟨next, hnext, h⟩ := exists_of_bind_eq_ok h
      obtain ⟨path, -, hnext⟩ := exists_of_bind_eq_ok hnext
      exact ih h (allTypes_modifyAt hbare hnext hnodes)

end Unaffected

theorem allTypes_conditioned {Q : TypeDef → Prop} {nodes : List SchemaNode}
    (h : ∀ n ∈ nodes, AllTypes Q n) : ∀ n ∈ conditioned stmt nodes, AllTypes Q n := by
  unfold conditioned
  split
  · intro n hn
    obtain ⟨k, hk, rfl⟩ := List.mem_map.mp hn
    obtain ⟨hself, hchildren⟩ := allTypes_iff.mp (h k hk)
    exact allTypes_iff.mpr ⟨hself, hchildren⟩
  · exact h

/-! ### Nodes -/

/-- The type of a node is that of its type statement, up to the default and the units. -/
theorem exists_of_nodeDataOf {refs : References} {inherited : Option Bool} {kind : NodeKind}
    {data : NodeData} (h : nodeDataOf env refs scope inherited kind stmt = .ok data)
    {t : TypeDef} (ht : data.type = some t) :
    ∃ type resolved, kind.isTyped = true ∧ stmt.child? "type" = some type ∧
      refs.type (scope.enter stmt) type = .ok resolved ∧ t.bare = resolved.bare := by
  unfold nodeDataOf at h
  obtain ⟨name, -, h⟩ := exists_of_bind_eq_ok h
  obtain ⟨status, -, h⟩ := exists_of_bind_eq_ok h
  obtain ⟨musts, -, h⟩ := exists_of_bind_eq_ok h
  obtain ⟨config, -, h⟩ := exists_of_bind_eq_ok h
  obtain ⟨mandatory, -, h⟩ := exists_of_bind_eq_ok h
  obtain ⟨count, -, h⟩ := exists_of_bind_eq_ok h
  obtain ⟨type, htype, h⟩ := exists_of_bind_eq_ok h
  cases h
  cases (ht : type = some t)
  split at htype
  · rename_i htyped
    rw [map_eq_pure_bind] at htype
    obtain ⟨typed, hnode, htype⟩ := exists_of_bind_eq_ok htype
    cases htype
    unfold nodeType at hnode
    split at hnode
    · cases hnode
    · rename_i type hchild
      obtain ⟨resolved, hresolved, hnode⟩ := exists_of_bind_eq_ok hnode
      cases hnode
      exact ⟨type, resolved, htyped, hchild, hresolved, rfl⟩
  · cases htype

theorem allTypes_implicitCase {Q : TypeDef → Prop} {n : SchemaNode} :
    AllTypes Q (implicitCase n) ↔ AllTypes Q n := by
  rw [allTypes_iff]
  simp [implicitCase]

theorem allTypes_emptyPart {Q : TypeDef → Prop} {kind : NodeKind} :
    AllTypes Q (emptyPart env kind) :=
  allTypes_iff.mpr ⟨nofun, nofun⟩

/-! ### Modules -/

section Resolved

variable {Q : TypeDef → Prop} (hbare : ∀ s t : TypeDef, s.bare = t.bare → Q t → Q s)
  (htype : ∀ depth scope stmt t, Built env (.type scope stmt) →
    typeOf env depth scope stmt = .ok t → Q t)

include hbare htype

/-- What the types of all type statements have in common is found in all nodes: uses keep it. -/
theorem allTypes_of_nodes {depth : Nat} {inherited : Option Bool} {b : Constituent}
    {nodes : List SchemaNode} (hbuilt : Built env (.constituent scope b))
    (h : b.nodes env (.upTo env depth) scope inherited = .ok nodes) :
    ∀ n ∈ nodes, AllTypes Q n := by
  refine Constituent.induction env
    (motive := fun _ scope _ b nodes => Built env (.constituent scope b) →
      ∀ n ∈ nodes, AllTypes Q n)
    ?node ?uses depth scope inherited b nodes h hbuilt
  case node =>
    intro depth scope inherited kind stmt n hn ih hbuilt
    refine List.forall_mem_singleton.mpr (allTypes_iff.mpr ⟨fun t ht => ?_, ?_⟩)
    · obtain ⟨type, resolved, htyped, hchild, hresolved, heq⟩ :=
        exists_of_nodeDataOf (nodeVia_eq_ok hn) ht
      rw [type_upTo] at hresolved
      exact hbare _ _ heq (htype _ _ _ _ (hbuilt.part (.nodeType htyped hchild)) hresolved)
    · refine (forall_children_iff (fun _ => allTypes_implicitCase) allTypes_emptyPart
        allTypes_emptyPart hn).mpr fun b hb => ?_
      obtain ⟨nodes, hnodes⟩ := exists_nodes_of_nodeVia hn hb
      exact ⟨nodes, hnodes, ih b hb nodes hnodes (hbuilt.part (.below hb))⟩
  case uses =>
    -- neither a condition nor a refinement touches more of a type than its default
    intro depth scope inherited stmt grouping inner nodes used hleads hnodes ih hused hbuilt
    refine allTypes_refined hbare hused (allTypes_conditioned ?_)
    refine (forall_nodesVia_iff hnodes).mpr fun b hb => ?_
    obtain ⟨nodes, hnodes⟩ := exists_nodes_of_nodesVia hnodes hb
    exact ⟨nodes, hnodes, ih b hb nodes hnodes ((hbuilt.link (.uses hleads)).part (.body hb))⟩

theorem allTypes_of_module {m : Module} (h : env.module = .ok m) :
    ∀ n ∈ m.trees, AllTypes Q n := by
  have hall : ∀ {scope inherited} {b : Constituent}, Built env (.constituent scope b) →
      b.All env (.upTo env maxDepth) scope inherited (fun _ => True) →
      b.All env (.upTo env maxDepth) scope inherited (AllTypes Q) := by
    rintro scope inherited b hbuilt ⟨nodes, hnodes, -⟩
    exact ⟨nodes, hnodes, allTypes_of_nodes hbare htype hbuilt hnodes⟩
  have hparts := module_eq_ok h
  obtain ⟨hdata, hrpcs, haugmentations⟩ := hparts.forall_trees_iff.mp fun _ _ => trivial
  refine hparts.forall_trees_iff.mpr ⟨?_, ?_, ?_⟩
  · exact fun b hb => hall (Stated.data hb).built (hdata b hb)
  · exact fun stmt hstmt htag => hall (Stated.rpc hstmt htag).built (hrpcs stmt hstmt htag)
  · exact fun stmt hstmt htag a ha b hb =>
      hall (Stated.augmentation hstmt htag hb).built (haugmentations stmt hstmt htag a ha b hb)

end Resolved

variable {m : Module}

theorem exists_of_mem_typedefs (h : env.module = .ok m) {t : TypeDef} (ht : t ∈ m.typedefs) :
    ∃ depth scope stmt, Built env (.typedef scope stmt) ∧
      typedefOf env depth scope stmt = .ok t := by
  obtain ⟨nodes, -, h⟩ := exists_of_bind_eq_ok h
  obtain ⟨definitions, hdefinitions, h⟩ := exists_of_bind_eq_ok h
  cases h
  obtain ⟨d, hd, htype⟩ := List.mem_filterMap.mp ht
  obtain ⟨_, hmem, rfl⟩ := List.mem_filterMap.mp hd
  obtain ⟨stmt, hstmt, hdefinition⟩ := exists_of_mapM_eq_ok hdefinitions hmem
  cases definitionOf?_eq_some_iff.mp hdefinition with
  | typedef htag htypedef =>
      cases htype
      exact ⟨_, _, stmt, (Stated.typedef hstmt htag).built, htypedef⟩
  | _ => cases htype

/-- All types of a module have a property that resolved types have, that does not depend on the
default and the units, and that the members of a union share with it. -/
theorem forall_hasType {Q : TypeDef → Prop} (hbare : ∀ s t : TypeDef, s.bare = t.bare → Q t → Q s)
    (htype : ∀ depth scope stmt t, Built env (.type scope stmt) →
      typeOf env depth scope stmt = .ok t → Q t)
    (htypedef : ∀ depth scope stmt t, Built env (.typedef scope stmt) →
      typedefOf env depth scope stmt = .ok t → Q t)
    (hmember : ∀ t u members v, Q t → t.Extends u → u.facets = .union members → v ∈ members → Q v)
    (h : env.module = .ok m) {t : TypeDef} (ht : m.HasType t) : Q t := by
  induction ht with
  | node hn hdata =>
      exact AllTypes.of_occurs (allTypes_of_module hbare htype h) (Module.hasNode_iff.mp hn) hdata
  | typedef ht =>
      obtain ⟨depth, scope, stmt, hbuilt, hresolved⟩ := exists_of_mem_typedefs h ht
      exact htypedef depth scope stmt _ hbuilt hresolved
  | member _ hchain hunion hv ih => exact hmember _ _ _ _ ih hchain hunion hv

theorem sound_of_hasType (h : env.module = .ok m) {t : TypeDef} (ht : m.HasType t) : t.Sound :=
  forall_hasType (fun _ _ heq hsound => hsound.of_bare_eq heq)
    (fun _ _ _ _ _ hresolved => sound_of_typeOf hresolved)
    (fun _ _ _ _ _ hresolved => sound_of_typedefOf hresolved)
    (fun _ _ _ _ hsound hchain hunion hv => hsound.members _ _ hchain hunion _ hv) h ht

end Yin

namespace Loading.Loader

open Text Yin

variable {loader after : Loader} {tree : FileTree} {m : Module}

theorem sound_of_load {origin : Origin} (h : loader.load tree origin = (.ok m, after))
    {t : TypeDef} (ht : m.HasType t) : t.Sound := by
  obtain ⟨main, -, hmodule⟩ := module_of_load h
  exact sound_of_hasType hmodule ht

theorem fractionDigits_le_of_load {origin : Origin} (h : loader.load tree origin = (.ok m, after))
    {t : TypeDef} (ht : m.HasType t) {r : RangeRestriction} (hr : t.range? = some r) :
    r.fractionDigits ≤ 38 := by
  obtain ⟨b, hground⟩ := (sound_of_load h ht).grounded
  have hle := hground.fractionDigits_le hr
  omega

/-- All types of a loaded module are well-formed. Compared with another loaded module, no power of
ten on the way to a finding on ranges leaves the word, and neither does one in any other comparison
or rendering of ranges of the two. -/
theorem loaded_types_wellFormed {origin : Origin}
    (h : loader.load tree origin = (.ok m, after)) :
    (∀ t, m.HasType t → ∃ b, t.WellFormed b) ∧
      ∀ (loader' after' : Loader) (tree' : FileTree) (origin' : Origin) (new : Module),
        loader'.load tree' origin' = (.ok new, after') →
        (∀ version, (Comparison.mk m new version).rangeFindings? =
          some ((Comparison.mk m new version).findings.filter fun f => f.rule == .range)) ∧
        ∀ t u r s, m.HasType t → new.HasType u → t.range? = some r → u.range? = some s →
          r.includes? s = some (r.includes s) ∧ s.includes? r = some (s.includes r) ∧
            r.text? = some r.text ∧ s.text? = some s.text := by
  constructor
  · intro t ht
    obtain ⟨b, hwell, -⟩ := sound_of_load h ht
    exact ⟨b, hwell⟩
  · intro loader' after' tree' origin' new h'
    refine ⟨fun version => Comparison.rangeFindings?_eq_some ?_ ?_, ?_⟩
    · -- a pair is made of a node of each module, whose types have at most 18 places
      intro q hq t r ht
      obtain ⟨⟨n, hn, hdata⟩, -⟩ := Comparison.hasNode_of_mem_nodePairs hq
      exact fractionDigits_le_of_load h (.node hn (hdata ▸ ht))
    · intro q hq t r ht
      obtain ⟨-, n, hn, hdata⟩ := Comparison.hasNode_of_mem_nodePairs hq
      exact fractionDigits_le_of_load h' (.node hn (hdata ▸ ht))
    · intro t u r s ht hu hr hs
      have hle := fractionDigits_le_of_load h ht hr
      have hle' := fractionDigits_le_of_load h' hu hs
      exact ⟨RangeRestriction.includes?_of_nearScale ⟨by omega, by omega⟩,
        RangeRestriction.includes?_of_nearScale ⟨by omega, by omega⟩,
        RangeRestriction.text?_of_writable (.inl hle),
        RangeRestriction.text?_of_writable (.inl hle')⟩

/-- A module with a decimal of as many places as there can be, up to the greatest one. -/
def decimalLeaf : Bytes :=
  ("<module name=\"a\"><namespace uri=\"u\"/><prefix value=\"a\"/>" ++
    "<leaf name=\"c\"><type name=\"decimal64\"><fraction-digits value=\"18\"/>" ++
    "<range value=\"1..max\"/></type></leaf></module>").toUTF8.toList

theorem loaded_types_wellFormed_decimalLeaf :
    ∃ m t r, load ⟨[], []⟩ ⟨.empty, ⟨"/"⟩⟩ (.document decimalLeaf none) = (.ok m, ⟨[], []⟩) ∧
      m.HasType t ∧ t.range? = some r ∧ r.fractionDigits = 18 ∧ (∃ b, t.WellFormed b) ∧
      (Comparison.mk m m .rfc7950).rangeFindings?.isSome ∧
      r.includes? r = some (r.includes r) ∧ r.text? = some r.text := by
  have hchecked : loadsAlone decimalLeaf (fun m => m.children.any fun n =>
      n.data.type.any fun t => t.range?.any fun r => r.fractionDigits == 18) = true := by
    decide +kernel
  obtain ⟨m, hload, hany⟩ := exists_of_loadsAlone hchecked ⟨.empty, ⟨"/"⟩⟩
  simp only [List.any_eq_true, Option.any_eq_true, beq_iff_eq] at hany
  obtain ⟨n, hn, t, ht, r, hr, hdigits⟩ := hany
  have htype : m.HasType t := .node (.data (.of_mem hn)) ht
  obtain ⟨hwell, hcompare⟩ := loaded_types_wellFormed hload
  obtain ⟨hfindings, hranges⟩ := hcompare _ _ _ _ _ hload
  obtain ⟨hincludes, -, htext, -⟩ := hranges t t r r htype htype hr hr
  exact ⟨m, t, r, hload, htype, hr, hdigits, hwell t htype, by rw [hfindings]; rfl, hincludes,
    htext⟩

end Loading.Loader

end YangEvolution
