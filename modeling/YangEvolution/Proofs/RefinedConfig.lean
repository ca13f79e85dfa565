import YangEvolution.Proofs.RefinedNode
import YangEvolution.Proofs.Replacement

/-!
Refining `config` and writing it. A use of a grouping refines the `config` of a node after the nodes
of the grouping were built; the grouping may as well have the value in the statement of that node.
Main statement: where the refined use is resolved, so is a plain use of the grouping with the value
written, and exactly under a condition on the refined node all nodes have the same `config`.
-/

namespace YangEvolution.Yin

open SchemaNode

open Text Markup Outcome

open Element (isDefinitionTag Exchanges)

/-! ### The way to the statement -/

/-- The kinds of data nodes that have others below them. -/
def isInterior : NodeKind → Bool
  | .container | .list | .branch | .choice => true
  | _ => false

section Building

variable {env : Environment} {refs : References} {scope : Scope} {inherited : Option Bool}
  {outer kind : NodeKind} {p : Element}

/-- The nodes of the statements around that of a data node are built apart from it. -/
theorem childrenVia_split (houter : isInterior outer = true) (hkind : dataKind? p.tag = some kind)
    (hdata : kind.isData = true) (before after : List Element) :
    childrenVia env refs scope inherited outer (before ++ p :: after) = (do
      let earlier ← childrenVia env refs scope inherited outer before
      let n ← nodeVia env refs scope inherited kind p
      let later ← childrenVia env refs scope inherited outer after
      .ok (earlier ++ wrapped outer kind n :: later)) := by
  cases outer with
  | container | list | branch =>
      simp only [childrenVia, nodesVia_append, nodesVia, hkind, bind_assoc, ok_bind]
      rfl
  | choice =>
      have hwrapped : ∀ n, wrapped .choice kind n =
          if kind = .branch then n else implicitCase n := by
        intro n
        by_cases hbranch : kind = .branch <;> simp [wrapped, isShorthand, hbranch]
      simp only [childrenVia, casesVia_append, casesVia, hkind, hdata, if_true, hwrapped,
        bind_assoc, ok_bind]
  | _ => cases houter

theorem childrenVia_filter (hdata : kind.isData = true) (stmts : List Element) :
    childrenVia env refs scope inherited kind (stmts.filter isNodeStatement) =
      childrenVia env refs scope inherited kind stmts := by
  cases kind with
  | container | list | branch => exact nodesVia_filter env refs scope inherited stmts
  | choice => exact casesVia_filter env refs scope inherited stmts
  | leaf | leafList | anydata | anyxml => rfl
  | _ => cases hdata

/-- The name of a data node is the argument of its statement. -/
theorem localName_of_nodeVia (hdata : kind.isData = true) {name : String}
    (hname : p.attribute? "name" = some name) {n : SchemaNode}
    (h : nodeVia env refs scope inherited kind p = .ok n) : n.localName = name := by
  obtain ⟨given, hgiven, hqname⟩ := qname_of_nodeDataOf (nodeVia_eq_ok h)
  have hargument : nodeNameOf scope.owner kind p = .ok name := by
    have hread : argument scope.owner p "name" = .ok name := by
      rw [argument, hname]
    cases kind with
    | input | output => cases hdata
    | _ => exact hread
  cases hargument.symm.trans hgiven
  rw [SchemaNode.localName, hqname]
  rfl

theorem inheritedConfig_of_data (hdata : kind.isData = true) (inherited : Option Bool) :
    inheritedConfig kind inherited = inherited := by
  cases kind with
  | rpc | action | notification => cases hdata
  | _ => rfl

/-- A data node among data is configuration or state data. -/
theorem config_of_data (hdata : kind.isData = true) {value : Bool} {data : NodeData}
    (h : nodeDataOf env refs scope (some value) kind p = .ok data) :
    configOf scope.owner p (some value) = .ok data.config ∧ data.config.isSome = true := by
  have hconfig := (nodeDataOf_eq_ok h).2.1
  rw [inheritedConfig_of_data hdata] at hconfig
  refine ⟨hconfig, ?_⟩
  rw [configOf] at hconfig
  split at hconfig
  · obtain ⟨flag, -, hflag⟩ := map_eq_ok_iff.mp hconfig
    rw [← hflag]
    rfl
  · rw [← Except.ok.inj hconfig]
    rfl

end Building

section Way

variable (env : Environment) (refs : References)

/-- In a statement `e` of the kind `outer`, `p` is the statement of a data node, and no node before
it has its name; in `e'`, `p'` is in the place of `p`. -/
structure Slot (outer : NodeKind) (scope : Scope) (inherited : Bool) (e e' : Element)
    (kind : NodeKind) (name : String) (p p' : Element) : Prop where
  interior : isInterior outer = true
  keyword : dataKind? p.tag = some kind
  isData : kind.isData = true
  argument : p.attribute? "name" = some name
  tag : p'.tag = p.tag
  attributes : p'.attributes = p.attributes
  first : ∃ before after, e.children = before ++ p :: after ∧
    e' = { e with children := before ++ p' :: after } ∧
    ∀ earlier, childrenVia env refs (scope.enter e) (some inherited) outer before = .ok earlier →
      ∀ n ∈ earlier, n.localName ≠ name

/-- `t'` has a `config` statement with the argument `raw` where `t` has its own, if any. -/
structure HasConfig (raw : String) (t t' : Element) : Prop where
  config : t'.childAttribute? "config" "value" = some raw
  others : t'.children.filter (fun c => c.tag != "config") =
    t.children.filter fun c => c.tag != "config"

/-- `Writes raw outer scope inherited e e' steps shorthand`: steps lead from a statement `e` of the
kind `outer` to the statement of a data node in it, which in `e'` has a `config` statement with the
argument `raw` instead. The node is directly in a choice if `shorthand` holds. -/
inductive Writes (raw : String) : NodeKind → Scope → Bool → Element → Element → List String →
    Bool → Prop where
  | target {outer kind : NodeKind} {scope : Scope} {inherited : Bool} {e e' t t' : Element}
      {name : String} : Slot env refs outer scope inherited e e' kind name t t' →
      HasConfig raw t t' →
      Writes raw outer scope inherited e e' (stepsTo outer kind name) (isShorthand outer kind)
  | inside {outer kind : NodeKind} {scope : Scope} {inherited config shorthand : Bool}
      {e e' p p' : Element} {name : String} {steps : List String} :
      Slot env refs outer scope inherited e e' kind name p p' →
      configOf scope.owner p (some inherited) = .ok (some config) →
      Writes raw kind (scope.enter e) config p p' steps shorthand →
      Writes raw outer scope inherited e e' (stepsTo outer kind name ++ steps) shorthand

variable {env refs} {outer kind : NodeKind} {scope : Scope} {inherited shorthand : Bool}
  {e e' p p' t t' : Element} {name raw : String} {steps : List String}

theorem Slot.exchanges (h : Slot env refs outer scope inherited e e' kind name p p') :
    Exchanges e e' p p' := by
  obtain ⟨before, after, hchildren, he', -⟩ := h.first
  exact ⟨h.tag, h.attributes, before, after, hchildren, he'⟩

theorem Slot.mem_constituents (h : Slot env refs outer scope inherited e e' kind name p p') :
    ⟨some kind, p⟩ ∈ constituents outer e.children := by
  obtain ⟨before, after, hchildren, -⟩ := h.first
  have hp : p ∈ e.children := by simp [hchildren]
  have hbody : bodyConstituent? p = some ⟨some kind, p⟩ := by
    simp only [bodyConstituent?, h.keyword]
  have hcase : caseConstituent? p = some ⟨some kind, p⟩ := by
    simp only [caseConstituent?, h.keyword, h.isData, if_true]
  have houter := h.interior
  cases outer with
  | container | list | branch => exact List.mem_filterMap.mpr ⟨p, hp, hbody⟩
  | choice => exact List.mem_filterMap.mpr ⟨p, hp, hcase⟩
  | _ => cases houter

theorem Writes.exchanges (h : Writes env refs raw outer scope inherited e e' steps shorthand) :
    ∃ p p' kind, Exchanges e e' p p' ∧ dataKind? p.tag = some kind := by
  cases h with
  | target hslot _ => exact ⟨_, _, _, hslot.exchanges, hslot.keyword⟩
  | inside hslot _ _ => exact ⟨_, _, _, hslot.exchanges, hslot.keyword⟩

theorem Writes.steps_ne_nil (h : Writes env refs raw outer scope inherited e e' steps shorthand) :
    steps ≠ [] := by
  have hfirst : ∀ outer kind name, stepsTo outer kind name ≠ [] := by
    intro outer kind name
    unfold stepsTo
    split <;> exact List.cons_ne_nil _ _
  cases h with
  | target _ _ => exact hfirst _ _ _
  | inside _ _ _ => exact fun hnil => hfirst _ _ _ (List.append_eq_nil_iff.mp hnil).1

end Way

/-! ### What the statements say -/

/-- Statements of which the same is read but for `config`, the statements of nodes in them apart. -/
structure ReadsAlike (e e' : Element) : Prop where
  tag : e'.tag = e.tag
  attributes : e'.attributes = e.attributes
  childrenOf : ∀ tag ∈ readTags, tag ≠ "config" → e'.childrenOf tag = e.childrenOf tag

section Saying

variable {e e' p p' t t' : Element} {kind : NodeKind} {tag raw : String}

theorem childrenOf_of_exchanges (h : Exchanges e e' p p') (hkind : dataKind? p.tag = some kind)
    (htag : tag ∈ readTags) : e'.childrenOf tag = e.childrenOf tag := by
  have hread : ∀ tag ∈ readTags, dataKind? tag = none := by decide
  have hother : (p.tag == tag) = false := by
    refine beq_false_of_ne fun heq => ?_
    rw [heq, hread tag htag] at hkind
    cases hkind
  have hother' : (p'.tag == tag) = false := h.tag ▸ hother
  obtain ⟨before, after, hchildren, rfl⟩ := h.children
  simp [Element.childrenOf, hchildren, List.filter_append, hother, hother']

theorem readsAlike_of_exchanges (h : Exchanges e e' p p') (hkind : dataKind? p.tag = some kind) :
    ReadsAlike e e' :=
  ⟨h.parent.1, h.parent.2, fun _ htag _ => childrenOf_of_exchanges h hkind htag⟩

theorem definitions_of_exchanges (h : Exchanges e e' p p') (hkind : dataKind? p.tag = some kind) :
    SharesDefinitions e e' := by
  refine sharesDefinitions_of_exchanges h (isDefinitionTag_of_isNodeStatement p ?_)
  rw [isNodeStatement, hkind]
  rfl

theorem HasConfig.filter (h : HasConfig raw t t') {q : Element → Bool}
    (hq : ∀ c, q c = true → c.tag ≠ "config") : t'.children.filter q = t.children.filter q := by
  have hdropped : ∀ l : List Element, l.filter q =
      (l.filter fun c => c.tag != "config").filter q := by
    intro l
    rw [List.filter_filter]
    refine List.filter_congr fun c _ => ?_
    cases hc : q c with
    | false => rfl
    | true => simp [hq c hc]
  rw [hdropped, h.others, ← hdropped]

theorem HasConfig.readsAlike (h : HasConfig raw t t') (htag : t'.tag = t.tag)
    (hattributes : t'.attributes = t.attributes) : ReadsAlike t t' := by
  refine ⟨htag, hattributes, fun tag _ hother => h.filter fun c hc => ?_⟩
  rw [beq_iff_eq.mp hc]
  exact hother

theorem HasConfig.sharesDefinitions (h : HasConfig raw t t') : SharesDefinitions t t' := by
  refine h.filter fun c hc htag => ?_
  rw [htag] at hc
  revert hc
  decide

theorem HasConfig.nodeStatements (h : HasConfig raw t t') :
    t'.children.filter isNodeStatement = t.children.filter isNodeStatement := by
  refine h.filter fun c hc htag => ?_
  rw [isNodeStatement, htag] at hc
  revert hc
  decide

theorem ReadsAlike.child? (h : ReadsAlike e e') (htag : tag ∈ readTags) (hother : tag ≠ "config") :
    e'.child? tag = e.child? tag := by
  rw [child?_eq_head?, child?_eq_head?, h.childrenOf tag htag hother]

theorem ReadsAlike.childAttribute? (h : ReadsAlike e e') (tag key : String) (htag : tag ∈ readTags)
    (hother : tag ≠ "config") : e'.childAttribute? tag key = e.childAttribute? tag key := by
  rw [Element.childAttribute?, Element.childAttribute?, h.child? htag hother]

theorem ReadsAlike.childText? (h : ReadsAlike e e') (tag inside : String) (htag : tag ∈ readTags)
    (hother : tag ≠ "config") : e'.childText? tag inside = e.childText? tag inside := by
  simp only [Element.childText?, Element.textAt?, Element.descend?, h.child? htag hother]

theorem ReadsAlike.saysSame (h : ReadsAlike e e') : SaysSame e e' := by
  have hname : ∀ owner, argument owner e' "name" = argument owner e "name" := by
    intro owner
    rw [argument, argument, Element.attribute?, Element.attribute?, h.attributes, h.tag]
  exact {
    name := fun owner kind => by cases kind <;> first | exact hname owner | rfl
    status := fun owner => by
      rw [statusOf, statusOf, h.childAttribute? "status" "value" (by decide) (by decide)]
    musts := fun owner => by rw [mustsOf, mustsOf, h.childrenOf "must" (by decide) (by decide)]
    mandatory := fun owner => by
      rw [mandatoryOf, mandatoryOf,
        h.childAttribute? "mandatory" "value" (by decide) (by decide)]
    count := fun owner => by
      simp only [elementCountOf, minElementsOf, maxElementsOf,
        h.childAttribute? "min-elements" "value" (by decide) (by decide),
        h.childAttribute? "max-elements" "value" (by decide) (by decide)]
    description := h.childText? "description" "text" (by decide) (by decide)
    reference := h.childText? "reference" "text" (by decide) (by decide)
    condition := h.childAttribute? "when" "condition" (by decide) (by decide)
    default := by rw [defaultOf, defaultOf, h.childrenOf "default" (by decide) (by decide)]
    units := h.childAttribute? "units" "name" (by decide) (by decide)
    type := fun type htype => ⟨type, by rw [h.child? (by decide) (by decide), htype], rfl⟩ }

end Saying

/-! ### Both ways compared -/

section Comparing

variable {env env' : Environment} {inner inner' : Scope} {g g' : Element}
  (h : Replaces env env' inner inner' g g') {depth : Nat} {scope scope' : Scope}
  {outer kind : NodeKind} {inherited shorthand : Bool} {e e' p p' : Element} {name raw : String}
  {steps : List String} {nodes refined : List SchemaNode}

theorem mem_constituents_of_sublist (houter : isInterior outer = true) {stmts others : List Element}
    (hsublist : stmts.Sublist others) {b : Constituent} (hb : b ∈ constituents outer stmts) :
    b ∈ constituents outer others := by
  cases outer with
  | container | list | branch | choice => exact (hsublist.filterMap _).mem hb
  | _ => cases houter

theorem readFlag_congr {owner what raw : String} {value : Bool}
    (h : readFlag owner what raw = .ok value) (other : String) :
    readFlag other what raw = .ok value := by
  unfold readFlag at h ⊢
  split at h
  · exact h
  · exact h
  · cases h

include h

/-- Statements in corresponding scopes are resolved to the same. -/
theorem Replaces.childrenVia {s s' : Scope} (hs : Corresponds inner inner' g g' s s')
    {stmts : List Element} {inherited : Option Bool}
    (hclear : ∀ b ∈ constituents kind stmts, h.simulation.Clear (.constituent s b))
    (hnodes : childrenVia env (.upTo env depth) s inherited kind stmts = .ok nodes) :
    childrenVia env' (.upTo env' depth) s' inherited kind stmts = .ok nodes := by
  have hrefs := h.simulation.refers_upTo h.nodeName depth
  refine Simulation.childrenVia_plain_of_forall₂ hrefs ?_ (fun b hb => ?_) hnodes
  · exact List.forall₂_same.mpr fun _ _ => .same hs
  · exact Simulation.carries_of_refers hrefs b (tag_of_mem_constituents hb ▸ b.keyword_ne_grouping)
      (hclear b hb)

/-- The nodes around a statement and around its replacement are the same. -/
theorem Slot.resolved (hslot : Slot env (.upTo env depth) outer scope inherited e e' kind name p p')
    (hs : Alongside inner inner' g g' (scope.enter e) (scope'.enter e'))
    (hclear : ∀ b ∈ constituents outer e.children,
      h.simulation.Clear (.constituent (scope.enter e) b))
    (hnodes : childrenVia env (.upTo env depth) (scope.enter e) (some inherited) outer e.children =
      .ok nodes) :
    ∃ earlier n later, nodes = earlier ++ wrapped outer kind n :: later ∧
      (∀ m ∈ earlier, m.localName ≠ name) ∧
      nodeVia env (.upTo env depth) (scope.enter e) (some inherited) kind p = .ok n ∧
      ∀ n', nodeVia env' (.upTo env' depth) (scope'.enter e') (some inherited) kind p' = .ok n' →
        childrenVia env' (.upTo env' depth) (scope'.enter e') (some inherited) outer e'.children =
          .ok (earlier ++ wrapped outer kind n' :: later) := by
  obtain ⟨before, after, hchildren, he', hfirst⟩ := hslot.first
  rw [hchildren, childrenVia_split hslot.interior hslot.keyword hslot.isData] at hnodes
  obtain ⟨earlier, hearlier, hnodes⟩ := exists_of_bind_eq_ok hnodes
  obtain ⟨n, hn, hnodes⟩ := exists_of_bind_eq_ok hnodes
  obtain ⟨later, hlater, hnodes⟩ := exists_of_bind_eq_ok hnodes
  cases hnodes
  refine ⟨earlier, n, later, rfl, hfirst earlier hearlier, hn, fun n' hn' => ?_⟩
  have hkind : dataKind? p'.tag = some kind := hslot.tag ▸ hslot.keyword
  have hearlier' := h.childrenVia (.own hs) (fun b hb => hclear b
    (mem_constituents_of_sublist hslot.interior (by simp [hchildren]) hb)) hearlier
  have hlater' := h.childrenVia (.own hs) (fun b hb => hclear b
    (mem_constituents_of_sublist hslot.interior (by simp [hchildren]) hb)) hlater
  have hsplit : e'.children = before ++ p' :: after := by rw [he']
  rw [hsplit, childrenVia_split hslot.interior hkind hslot.isData, hearlier', hn', hlater']
  rfl

/-- The node of a statement that has another `config` statement. -/
theorem HasConfig.nodeVia {t t' : Element} (hconfig : HasConfig raw t t') (htag : t'.tag = t.tag)
    (hattributes : t'.attributes = t.attributes) {s s' : Scope}
    (hs : Alongside inner inner' g g' s s') (hdata : kind.isData = true)
    (hclear : h.simulation.Clear (.constituent s ⟨some kind, t⟩)) {value : Bool}
    (hvalue : readFlag s'.owner "config" raw = .ok value) {n : SchemaNode}
    (hn : nodeVia env (.upTo env depth) s (some inherited) kind t = .ok n) :
    ∃ n', nodeVia env' (.upTo env' depth) s' (some inherited) kind t' = .ok n' ∧
      n'.data = { n.data with config := some value } ∧ RecolouredAll n.children n'.children ∧
      (n.data.config = some value → n'.children = n.children) := by
  have hrefs := h.simulation.refers_upTo h.nodeName depth
  have hin : Alongside inner inner' g g' (s.enter t) (s'.enter t') :=
    hs.enter hconfig.sharesDefinitions
  rw [nodeVia_eq] at hn
  obtain ⟨data, hread, hn⟩ := exists_of_bind_eq_ok hn
  obtain ⟨children, hchildren, hn⟩ := exists_of_bind_eq_ok hn
  cases hn
  have hwritten : configOf s'.owner t' (inheritedConfig kind (some inherited)) =
      .ok (some value) := by
    simp only [inheritedConfig_of_data hdata, configOf, hconfig.config, hvalue]
    rfl
  have hread' := Simulation.nodeDataOf_of_says hrefs (h.simulation.owner (.own hs)) (.own hin)
    (hconfig.readsAlike htag hattributes).saysSame hwritten hread
  -- what is below inherits the value instead
  have hsome : (some value).isSome = data.config.isSome := (config_of_data hdata hread).2.symm
  obtain ⟨children', hchildren', hrecoloured⟩ := exists_childrenVia_of_inherited hsome hchildren
  have hbelow := h.childrenVia (.own hin) (fun b hb => hclear.part (.below hb)) hchildren'
  rw [← childrenVia_filter hdata, ← hconfig.nodeStatements, childrenVia_filter hdata] at hbelow
  refine ⟨⟨{ data with config := some value }, children'⟩, ?_, rfl, hrecoloured, ?_⟩
  · simp only [nodeVia_eq, hread', ok_bind, hbelow]
  · intro hsame
    rw [hsame] at hchildren
    exact Except.ok.inj (hchildren'.symm.trans hchildren)

/-- The node of a statement in which another one is exchanged, once what is below is built. -/
theorem Replaces.nodeVia_of_exchanges {q q' : Element} {inside : NodeKind}
    (hexchanges : Exchanges p p' q q') (hinside : dataKind? q.tag = some inside) {s s' : Scope}
    (hs : Alongside inner inner' g g' s s') {data : NodeData} {inherited : Option Bool}
    (hdata : nodeDataOf env (.upTo env depth) s inherited kind p = .ok data)
    (hnodes : Yin.childrenVia env' (.upTo env' depth) (s'.enter p') data.config kind p'.children =
      .ok nodes) :
    nodeVia env' (.upTo env' depth) s' inherited kind p' = .ok ⟨data, nodes⟩ := by
  have hconfig : configOf s'.owner p' (inheritedConfig kind inherited) = .ok data.config := by
    have howner : s'.owner = s.owner := h.simulation.owner (.own hs)
    have hchild : p'.childAttribute? "config" "value" = p.childAttribute? "config" "value" := by
      rw [Element.childAttribute?, Element.childAttribute?, child?_eq_head?, child?_eq_head?,
        childrenOf_of_exchanges hexchanges hinside (by decide)]
    rw [howner, ← (nodeDataOf_eq_ok hdata).2.1]
    cases inheritedConfig kind inherited with
    | none => rfl
    | some value => rw [configOf, configOf, hchild]
  have hdata' := Simulation.nodeDataOf_of_says (h.simulation.refers_upTo h.nodeName depth)
    (h.simulation.owner (.own hs))
    (.own (hs.enter (definitions_of_exchanges hexchanges hinside)))
    (readsAlike_of_exchanges hexchanges hinside).saysSame hconfig hdata
  simp only [nodeVia_eq, hdata', ok_bind, hnodes]

/-- The whole way, from the outermost statement on: the induction is on the statements that the
steps lead through. -/
theorem Writes.compared {fault : LoadFault} {owner : String} {stmt : Element}
    (hraw : stmt.childAttribute? "config" "value" = some raw)
    (hwrites : Writes env (.upTo env depth) raw outer scope inherited e e' steps shorthand)
    (hs : Alongside inner inner' g g' (scope.enter e) (scope'.enter e'))
    (hclear : ∀ b ∈ constituents outer e.children,
      h.simulation.Clear (.constituent (scope.enter e) b))
    (hnodes : childrenVia env (.upTo env depth) (scope.enter e) (some inherited) outer e.children =
      .ok nodes)
    (hrefined : modifyAt fault (refineNode owner stmt) steps nodes = .ok refined) :
    ∃ value written n n', readFlag owner "config" raw = .ok value ∧
      childrenVia env' (.upTo env' depth) (scope'.enter e') (some inherited) outer e'.children =
        .ok written ∧
      Compared value shorthand steps nodes refined written n n' := by
  induction hwrites generalizing scope' nodes refined with
  | @target outer kind scope inherited e e' t t' name hslot hconfig =>
      obtain ⟨earlier, n, later, rfl, hearlier, hn, hwritten⟩ :=
        hslot.resolved h hs hclear hnodes
      have hname := localName_of_nodeVia hslot.isData hslot.argument hn
      rw [← List.append_nil (stepsTo outer kind name), modifyAt_stepsTo [] hearlier hname]
        at hrefined
      obtain ⟨n₁, hn₁, hrefined⟩ := exists_of_bind_eq_ok hrefined
      cases hrefined
      obtain ⟨value, hvalue, hkind₁, hname₁, hconfig₁, hchildren₁⟩ := refineNode_config hraw hn₁
      obtain ⟨n', hn', hdata, hrecoloured, hsame⟩ := hconfig.nodeVia h hslot.tag hslot.attributes hs
        hslot.isData (hclear _ hslot.mem_constituents) (readFlag_congr hvalue _) hn
      have hname' : n'.localName = name := by
        rw [← hname, SchemaNode.localName, SchemaNode.localName, hdata]
      refine ⟨value, _, n, n', hvalue, hwritten n' hn', ?_, ?_, hdata, hrecoloured, hsame, ?_⟩
      · rw [← List.append_nil (stepsTo outer kind name)]
        exact reached?_stepsTo [] hearlier hname
      · rw [← List.append_nil (stepsTo outer kind name)]
        exact reached?_stepsTo [] hearlier hname'
      · rw [← interchangeable_iff hkind₁ hname₁ hconfig₁ hchildren₁ hdata hrecoloured]
        simp
  | @inside outer kind scope inherited config shorthand e e' p p' name steps hslot hconfig hinside
      ih =>
      obtain ⟨earlier, n, later, rfl, hearlier, hn, hwritten⟩ :=
        hslot.resolved h hs hclear hnodes
      have hname := localName_of_nodeVia hslot.isData hslot.argument hn
      rw [modifyAt_stepsTo steps hearlier hname] at hrefined
      obtain ⟨n₁, hn₁, hrefined⟩ := exists_of_bind_eq_ok hrefined
      cases hrefined
      rw [changeAt_of_ne_nil _ _ hinside.steps_ne_nil] at hn₁
      obtain ⟨children₁, hchildren₁, hn₁⟩ := exists_of_bind_eq_ok hn₁
      cases hn₁
      rw [nodeVia_eq] at hn
      obtain ⟨data, hread, hn⟩ := exists_of_bind_eq_ok hn
      obtain ⟨children, hchildren, hn⟩ := exists_of_bind_eq_ok hn
      cases hn
      have hdata : data.config = some config :=
        Except.ok.inj ((config_of_data hslot.isData hread).1.symm.trans hconfig)
      rw [hdata] at hchildren
      -- the statement itself says the same as before, so the difference is further inside
      obtain ⟨q, q', inside, hexchanges, hinner⟩ := hinside.exchanges
      have hclear' := hclear _ hslot.mem_constituents
      obtain ⟨value, written, m, m', hvalue, hbelow, hcompared⟩ :=
        ih (hs.enter (definitions_of_exchanges hexchanges hinner))
          (fun b hb => hclear'.part (.below hb)) hchildren hchildren₁
      rw [← hdata] at hbelow
      exact ⟨value, _, m, m', hvalue, hwritten _ (h.nodeVia_of_exchanges hexchanges hinner hs hread
        hbelow), hcompared.outwards hinside.steps_ne_nil hearlier hname⟩

end Comparing

/-- A use of a grouping that has nothing but a refinement of `config` in it, against a use without
refinements of the grouping with the value written: wherever the first is resolved, the second is,
too, and all nodes have the same `config` exactly where the two are interchangeable. -/
theorem refined_config_alike_iff {env env' : Environment} {scope scope' inner inner' : Scope}
    {g g' uses uses' stmt : Element} {depth : Nat} {path raw : String} {inherited shorthand : Bool}
    {used : List SchemaNode} (h : Replaces env env' inner inner' g g')
    (huses : LeadsTo env scope uses g inner) (huses' : LeadsTo env' scope' uses' g' inner')
    (hrefine : uses.children = [stmt]) (htag : stmt.tag = "refine")
    (hpath : stmt.attribute? "target-node" = some path)
    (hraw : stmt.childAttribute? "config" "value" = some raw) (hplain : uses'.children = [])
    (hwrites : Writes env (.upTo env depth) raw .container inner inherited g g' (refineSteps path)
      shorthand)
    (hused : usedNodes env (.upTo env (depth + 1)) scope (some inherited) uses = .ok used) :
    ∃ value nodes written n n', readFlag scope.owner "config" raw = .ok value ∧
      nodesVia env (.upTo env depth) (inner.enter g) (some inherited) g.children = .ok nodes ∧
      usedNodes env' (.upTo env' (depth + 1)) scope' (some inherited) uses' = .ok written ∧
      Compared value shorthand (refineSteps path) nodes used written n n' := by
  obtain ⟨_, _, _, nodes, hleads, hnodes, hused⟩ := usedNodes_eq_ok hused
  obtain ⟨rfl, rfl⟩ := hleads.unique huses
  -- the refinement is all that the use adds to the nodes of the grouping
  have hbare : conditioned uses nodes = nodes := by
    rw [conditioned, whenOf, Element.childAttribute?, Element.child?, hrefine,
      List.find?_cons_of_neg (by rw [htag]; decide)]
    rfl
  have hstmts : uses.childrenOf "refine" = [stmt] := by
    rw [Element.childrenOf, hrefine, List.filter_cons_of_pos (by rw [htag]; decide)]
    rfl
  rw [hbare, hstmts, List.foldlM_cons, refine, argument, hpath] at hused
  obtain ⟨refined, hrefined, hused⟩ := exists_of_bind_eq_ok hused
  cases hused
  have hbody : nodesVia env (.upTo env depth) (inner.enter g) (some inherited) g.children =
      .ok nodes := hnodes
  obtain ⟨value, written, n, n', hvalue, hwritten, hcompared⟩ := hwrites.compared h hraw h.alongside
    (fun b hb => h.clear ⟨_, nodes, hbody⟩ (.body hb)) hbody hrefined
  refine ⟨value, nodes, written, n, n', hvalue, hbody, ?_, hcompared⟩
  obtain ⟨name, hname, hfound⟩ := huses'
  have hwhen : whenOf uses' = none := by
    rw [whenOf, Element.childAttribute?, Element.child?, hplain]
    rfl
  have hnone : uses'.childrenOf "refine" = [] := by
    rw [Element.childrenOf, hplain]
    rfl
  have hgrouping : (References.upTo env' (depth + 1)).grouping name g' inner' (some inherited) =
      .ok written := hwritten
  simp only [usedNodes, hname, hfound, hgrouping, hwhen, hnone, ok_bind]
  rfl

/-! ### A grouping with two containers -/

/-- A leaf with or without a `config` statement. -/
def levelStmt (own : Option String) : Element :=
  stmtOf "leaf" "level" (typeNamed "string" [] :: (own.map (valued "config")).toList)

def dimmerStmt (own level : Option String) : Element :=
  stmtOf "container" "dimmer" ((own.map (valued "config")).toList ++ [levelStmt level])

def lightStmt (own level : Option String) : Element :=
  stmtOf "container" "light" [dimmerStmt own level]

/-- A container in another one, with or without a `config` statement, and a leaf in it. -/
def lampStmt (own level : Option String) : Element :=
  stmtOf "grouping" "lamp" [lightStmt own level]

def lampModule (own level : Option String) : ModuleSource where
  name := "lamps"
  uri := "urn:lamps"
  nsPrefix := "l"
  revision := none
  revisions := []
  imports := []
  root := stmtOf "module" "lamps" [lampStmt own level]
  dir := none

def lamps (own level : Option String) : Environment where
  main := lampModule own level
  imports := []

def refineDimmer (raw : String) : Element where
  tag := "refine"
  attributes := [("target-node", "light/dimmer")]
  children := [valued "config" raw]

/-- Two environments with the grouping; in the second one it has the value written. -/
theorem replaces_lamps (own level : Option String) (raw : String) :
    Replaces (lamps own level) (lamps (some raw) level) (.top (lampModule own level))
      (.top (lampModule (some raw) level)) (lampStmt own level) (lampStmt (some raw) level) where
  header := ⟨_, rfl⟩
  sources key := by
    cases key with
    | none => exact .inr ⟨rfl, rfl⟩
    | some name => exact .inl rfl
  spine := .step ⟨rfl, rfl, [], [], rfl, rfl⟩ .root
  root := rfl
  root' := rfl
  keyword := rfl
  definitions := rfl

theorem leadsTo_lampStmt (own level : Option String) (stmts : List Element) :
    LeadsTo (lamps own level) (.top (lampModule own level)) (stmtOf "uses" "lamp" stmts)
      (lampStmt own level) (.top (lampModule own level)) :=
  ⟨"lamp", rfl, rfl⟩

theorem writes_lampStmt (refs : References) (own level : Option String) (raw : String)
    (inherited : Bool) :
    Writes (lamps own level) refs raw .container (.top (lampModule own level)) inherited
      (lampStmt own level) (lampStmt (some raw) level) ["light", "dimmer"] false := by
  have hfirst : ∀ scope name earlier,
      childrenVia (lamps own level) refs scope (some inherited) .container [] = .ok earlier →
        ∀ n ∈ earlier, n.localName ≠ name := by
    intro scope name earlier hearlier
    cases hearlier
    exact List.forall_mem_nil _
  have hlight : Slot (lamps own level) refs .container (.top (lampModule own level)) inherited
      (lampStmt own level) (lampStmt (some raw) level) .container "light" (lightStmt own level)
      (lightStmt (some raw) level) :=
    ⟨rfl, rfl, rfl, rfl, rfl, rfl, [], [], rfl, rfl, hfirst _ _⟩
  have hdimmer : Slot (lamps own level) refs .container
      ((Scope.top (lampModule own level)).enter (lampStmt own level)) inherited
      (lightStmt own level) (lightStmt (some raw) level) .container "dimmer" (dimmerStmt own level)
      (dimmerStmt (some raw) level) :=
    ⟨rfl, rfl, rfl, rfl, rfl, rfl, [], [], rfl, rfl, hfirst _ _⟩
  exact .inside hlight rfl (.target hdimmer ⟨rfl, by cases own <;> rfl⟩)

/-- The nodes of a use of the grouping at the top of its module, with statements in the use. -/
def lampsUsed (own level : Option String) (stmts : List Element) :
    Except LoadFault (List SchemaNode) :=
  usedNodes (lamps own level) (.upTo (lamps own level) 2) (.top (lampModule own level)) (some true)
    (stmtOf "uses" "lamp" stmts)

theorem refined_config_alike_iff_lamp :
    ∃ used, lampsUsed none none [refineDimmer "false"] = .ok used ∧
      ∃ value nodes written n n', readFlag "lamps" "config" "false" = .ok value ∧
        nodesVia (lamps none none) (.upTo (lamps none none) 1)
          ((Scope.top (lampModule none none)).enter (lampStmt none none)) (some true)
          (lampStmt none none).children = .ok nodes ∧
        lampsUsed (some "false") none [] = .ok written ∧
        Compared value false ["light", "dimmer"] nodes used written n n' := by
  have hok : (lampsUsed none none [refineDimmer "false"]).isOk = true := by decide +kernel
  have hsteps : refineSteps "light/dimmer" = ["light", "dimmer"] := by decide +kernel
  have hwrites := writes_lampStmt (.upTo (lamps none none) 1) none none "false" true
  rw [← hsteps] at hwrites
  obtain ⟨used, hused⟩ := Outcome.exists_of_isOk hok
  refine ⟨used, hused, ?_⟩
  rw [← hsteps]
  exact refined_config_alike_iff (replaces_lamps none none "false") (leadsTo_lampStmt none none _)
    (leadsTo_lampStmt (some "false") none []) rfl rfl rfl rfl rfl hwrites hused

theorem exists_level (used : Except LoadFault (List SchemaNode)) (config : Option Bool)
    (h : (used.toOption.bind (reached? ["light", "dimmer", "level"])).map
      (fun n => n.data.config) = some config) :
    ∃ nodes n, used = .ok nodes ∧ reached? ["light", "dimmer", "level"] nodes = some n ∧
      n.data.config = config := by
  cases used with
  | error fault => cases h
  | ok nodes =>
      obtain ⟨n, hn, hconfig⟩ := Option.map_eq_some_iff.mp h
      exact ⟨nodes, n, rfl, hn, hconfig⟩

/-- What has `config true` written below a container that is refined to be state data becomes state
data, too, and what inherits from one that is refined to be configuration does not become
configuration; with the value written, both are configuration. -/
theorem refined_config_unlike_written :
    (∃ used n written n', lampsUsed none (some "true") [refineDimmer "false"] = .ok used ∧
      reached? ["light", "dimmer", "level"] used = some n ∧ n.data.config = some false ∧
      lampsUsed (some "false") (some "true") [] = .ok written ∧
      reached? ["light", "dimmer", "level"] written = some n' ∧ n'.data.config = some true) ∧
    ∃ used n written n', lampsUsed (some "false") none [refineDimmer "true"] = .ok used ∧
      reached? ["light", "dimmer", "level"] used = some n ∧ n.data.config = some false ∧
      lampsUsed (some "true") none [] = .ok written ∧
      reached? ["light", "dimmer", "level"] written = some n' ∧ n'.data.config = some true := by
  constructor
  · obtain ⟨used, n, hused, hn, hconfig⟩ := exists_level
      (lampsUsed none (some "true") [refineDimmer "false"]) (some false) (by decide +kernel)
    obtain ⟨written, n', hwritten, hn', hconfig'⟩ := exists_level
      (lampsUsed (some "false") (some "true") []) (some true) (by decide +kernel)
    exact ⟨used, n, written, n', hused, hn, hconfig, hwritten, hn', hconfig'⟩
  · obtain ⟨used, n, hused, hn, hconfig⟩ := exists_level
      (lampsUsed (some "false") none [refineDimmer "true"]) (some false) (by decide +kernel)
    obtain ⟨written, n', hwritten, hn', hconfig'⟩ := exists_level
      (lampsUsed (some "true") none []) (some true) (by decide +kernel)
    exact ⟨used, n, written, n', hused, hn, hconfig, hwritten, hn', hconfig'⟩

end YangEvolution.Yin
