import YangEvolution.Proofs.Retelling

/-!
What a module is resolved to does not depend on how it is told. Main statement: from two texts of a
module that are related by a retelling, the same module is resolved but for its own prefix, or none
from both; where the retelling is strict, the fault is the same, too.
-/

namespace YangEvolution.Yin

open Text Markup Outcome

/-! ### Refinements -/

variable {strict : Prop}

theorem modifyFirst_agree {fault fault' : LoadFault} (hfault : strict → fault' = fault)
    {change change' : SchemaNode → Except LoadFault SchemaNode}
    (hchange : ∀ n, Agree strict Eq (change n) (change' n)) (name : String)
    (nodes : List SchemaNode) :
    Agree strict Eq (modifyFirst fault name change nodes)
      (modifyFirst fault' name change' nodes) := by
  induction nodes with
  | nil => exact .error hfault
  | cons n rest ih =>
      rw [modifyFirst, modifyFirst]
      split
      · exact (hchange n).bind_eq fun _ => .refl _
      · exact ih.bind_eq fun _ => .refl _

theorem modifyAt_agree {fault fault' : LoadFault} (hfault : strict → fault' = fault)
    {change change' : SchemaNode → Except LoadFault SchemaNode}
    (hchange : ∀ n, Agree strict Eq (change n) (change' n)) (steps : List String)
    (nodes : List SchemaNode) :
    Agree strict Eq (modifyAt fault change steps nodes) (modifyAt fault' change' steps nodes) := by
  induction steps generalizing nodes with
  | nil => exact .error hfault
  | cons name rest ih =>
      cases rest with
      | nil => exact modifyFirst_agree hfault hchange name nodes
      | cons next rest =>
          rw [modifyAt, modifyAt]
          refine modifyFirst_agree hfault (fun n => ?_) name nodes
          exact (ih n.children).bind_eq fun _ => .refl _

theorem Retelling.refine (t : Retelling strict) {e e' : Element} (he : t.stmt e e')
    (htag : e.tag = "refine") (owner : String) (nodes : List SchemaNode) :
    Agree strict Eq (Yin.refine owner nodes e) (Yin.refine owner nodes e') := by
  refine (t.argument_path he owner (by rw [htag]; decide)).bind ?_
  rintro target target' ⟨hsteps, hsame⟩
  have hnames : (pathSteps target').map (fun step => (splitReference step).2) =
      (pathSteps target).map fun step => (splitReference step).2 :=
    map_eq_of_forall₂ (hsteps.imp fun step step' hstep => by rw [hstep.split])
  rw [hnames]
  refine modifyAt_agree (fun hstrict => by rw [hsame hstrict]) (fun n => ?_) _ nodes
  exact .of_eq (t.reading.refineNode he owner n)

/-! ### Definitions by their tags -/

namespace Definition

def tag : Definition → String
  | .rpc _ => "rpc"
  | .augmentation _ => "augment"
  | .typedef _ => "typedef"
  | .identity _ => "identity"

/-- The definitions of a tag, in their order. -/
def ofTag (tag : String) (definitions : List Definition) : List Definition :=
  definitions.filter fun d => d.tag == tag

theorem filterMap_ofTag {γ : Type} {tag : String} {gather : Definition → Option γ}
    (h : ∀ d, d.tag ≠ tag → gather d = none) (definitions : List Definition) :
    (ofTag tag definitions).filterMap gather = definitions.filterMap gather := by
  rw [ofTag, List.filterMap_filter]
  congr 1
  funext d
  by_cases htag : d.tag = tag
  · simp [htag]
  · simp [htag, h d htag]

theorem eq_none_of_tag (d : Definition) :
    (d.tag ≠ "rpc" → d.rpc? = none) ∧ (d.tag ≠ "augment" → d.augmentation? = none) ∧
      (d.tag ≠ "typedef" → d.typedef? = none) ∧ (d.tag ≠ "identity" → d.identity? = none) := by
  cases d <;> simp [tag, rpc?, augmentation?, typedef?, identity?]

end Definition

section Definitions

variable {env env' : Environment} {s s' : Scope}

theorem definitionOf?_of_not_isDefinition {stmt : Element} (h : isDefinition stmt = false) :
    definitionOf? env s stmt = .ok none := by
  have htag : stmt.tag ∉ topTags := by simpa [isDefinition] using h
  simp only [topTags, List.mem_cons, List.not_mem_nil, or_false, not_or] at htag
  unfold definitionOf?
  split
  · exact absurd ‹_› htag.1
  · exact absurd ‹_› htag.2.1
  · exact absurd ‹_› htag.2.2.1
  · exact absurd ‹_› htag.2.2.2
  · rfl

theorem tag_of_definitionOf? {stmt : Element} {d : Definition}
    (h : definitionOf? env s stmt = .ok (some d)) : d.tag = stmt.tag := by
  cases definitionOf?_eq_some_iff.mp h with
  | rpc htag | augmentation htag | typedef htag | identity htag => exact htag.symm

/-- Statements that are no definitions add nothing to those of a module. -/
theorem definitions_filter (stmts : List Element) :
    List.filterMap id <$> (stmts.filter isDefinition).mapM (definitionOf? env s) =
      List.filterMap id <$> stmts.mapM (definitionOf? env s) := by
  have hcons : ∀ (d : Option Definition) (rest : Except LoadFault (List (Option Definition))),
      List.filterMap id <$> (rest >>= fun ds => pure (d :: ds)) =
        (d.toList ++ ·) <$> (List.filterMap id <$> rest) := by
    intro d rest
    cases rest with
    | error f => rfl
    | ok ds => cases d <;> rfl
  induction stmts with
  | nil => rfl
  | cons stmt rest ih =>
      cases hdefinition : isDefinition stmt with
      | false =>
          rw [List.filter_cons_of_neg (by simp [hdefinition]), ih, List.mapM_cons,
            definitionOf?_of_not_isDefinition hdefinition, ok_bind, hcons]
          exact (id_map _).symm
      | true =>
          rw [List.filter_cons_of_pos hdefinition, List.mapM_cons, List.mapM_cons]
          cases definitionOf? env s stmt with
          | error f => rfl
          | ok d => rw [ok_bind, ok_bind, hcons, hcons, ih]

/-- The definitions of a tag come from the statements of that tag. -/
theorem exists_definitions_ofTag {e : Element} {ds : List (Option Definition)}
    (h : e.children.mapM (definitionOf? env s) = .ok ds) (tag : String) :
    ∃ zs, (e.childrenOf tag).mapM (definitionOf? env s) = .ok zs ∧
      Definition.ofTag tag (zs.filterMap id) = Definition.ofTag tag (ds.filterMap id) := by
  simp only [Definition.ofTag, List.filter_filterMap]
  refine exists_mapM_filter_eq_ok h fun c _ htag d hd => ?_
  cases d with
  | none => rfl
  | some d =>
      rw [← tag_of_definitionOf? hd] at htag
      exact Option.filter_some_neg (by simp [htag])

/-- Where the statements of each tag are resolved to the same, so are all definitions but for the
order of those of different tags. -/
theorem exists_definitions {e e' : Element}
    (hsame : ∀ tag ∈ topTags, List.Forall₂ (fun c c' =>
      Agree strict Eq (definitionOf? env s c) (definitionOf? env' s' c')) (e.childrenOf tag)
        (e'.childrenOf tag))
    {ds : List (Option Definition)} (h : e.children.mapM (definitionOf? env s) = .ok ds) :
    ∃ ds', e'.children.mapM (definitionOf? env' s') = .ok ds' ∧
      ∀ tag ∈ topTags, Definition.ofTag tag (ds'.filterMap id) =
        Definition.ofTag tag (ds.filterMap id) := by
  obtain ⟨ds', hds'⟩ : ∃ ds', e'.children.mapM (definitionOf? env' s') = .ok ds' := by
    refine exists_mapM_eq_ok fun c hc => ?_
    cases hdefinition : isDefinition c with
    | false => exact ⟨none, definitionOf?_of_not_isDefinition hdefinition⟩
    | true =>
        obtain ⟨zs, hzs, -⟩ := exists_definitions_ofTag h c.tag
        have htop : c.tag ∈ topTags := by simpa [isDefinition] using hdefinition
        have hzs' := (Agree.mapM_eq (hsame c.tag htop)).eq_ok hzs
        obtain ⟨d, -, hd⟩ := exists_mem_of_mapM_eq_ok hzs' (List.mem_filter.mpr ⟨hc, by simp⟩)
        exact ⟨d, hd⟩
  refine ⟨ds', hds', fun tag htag => ?_⟩
  obtain ⟨zs, hzs, heq⟩ := exists_definitions_ofTag h tag
  obtain ⟨zs', hzs', heq'⟩ := exists_definitions_ofTag hds' tag
  cases hzs'.symm.trans ((Agree.mapM_eq (hsame tag htag)).eq_ok hzs)
  rw [← heq', heq]

/-- A module with the nodes and definitions that its statements are resolved to. -/
def Environment.assembled (env : Environment) (nodes : List SchemaNode)
    (definitions : List Definition) : Module where
  name := env.main.name
  uri := env.main.uri
  nsPrefix := env.main.nsPrefix
  revision := env.main.revision
  revisions := env.main.revisions
  children := nodes.filter fun n => n.data.kind != .notification
  notifications := nodes.filter fun n => n.data.kind == .notification
  rpcs := definitions.filterMap Definition.rpc?
  augmentations := definitions.filterMap Definition.augmentation?
  typedefs := definitions.filterMap Definition.typedef?
  identities := definitions.filterMap Definition.identity?

theorem module_eq_assembled (env : Environment) : env.module = (do
    let nodes ← nodesVia env (.upTo env maxDepth) (Scope.top env.main) (some true)
      env.main.root.children
    let definitions ← List.filterMap id <$>
      env.main.root.children.mapM (definitionOf? env (Scope.top env.main))
    .ok (env.assembled nodes definitions)) := by
  rw [Environment.module]
  refine bind_congr fun nodes => ?_
  rw [bind_map_left]
  rfl

end Definitions

namespace Retold

variable {t u : Retelling strict} {env env' : Environment} (h : Retold t env env')
  {refs refs' : References} {s s' : Scope} {e e' : Element}

/-- References to types and groupings that correspond are resolved to the same. -/
structure Refers (t : Retelling strict) (env env' : Environment) (refs refs' : References) :
    Prop where
  type : ∀ {u : Retelling strict} {s s' e e'}, Hears t env env' u s s' → u.stmt e e' →
    e.tag = "type" → Agree strict Eq (refs.type s e) (refs'.type s' e')
  grouping : ∀ {u : Retelling strict} {i i' d d' name name'} (inherited : Option Bool),
    (strict → name' = name) → u.stmt d d' → d.tag = "grouping" → Hears t env env' u i i' →
    Agree strict Eq (refs.grouping name d i inherited) (refs'.grouping name' d' i' inherited)

variable (hrefs : Refers t env env' refs refs')

include h hrefs

theorem nodeType (hs : Hears t env env' u s s') (he : u.stmt e e') (kind : NodeKind)
    (name : String) :
    Agree strict Eq (Yin.nodeType refs s kind name e) (Yin.nodeType refs' s' kind name e') := by
  have hR := u.reading
  have htype := hR.child? he "type" (by decide)
  rw [Yin.nodeType, Yin.nodeType, h.owner hs]
  generalize e.child? "type" = found at htype ⊢
  generalize e'.child? "type" = found' at htype ⊢
  cases htype with
  | none => exact .refl _
  | some hc =>
      refine (hrefs.type (hs.enter he) hc.2 hc.1).bind_eq fun type => ?_
      rw [hR.defaultOf he, hR.childAttribute? he "units" "name" (by decide) (by decide)]
      exact .refl _

theorem nodeDataOf (hs : Hears t env env' u s s') (he : u.stmt e e') {kind : NodeKind}
    (htag : e.tag = kind.keyword) (inherited : Option Bool) :
    Agree strict Eq (Yin.nodeDataOf env refs s inherited kind e)
      (Yin.nodeDataOf env' refs' s' inherited kind e') := by
  have hR := u.reading
  simp only [Yin.nodeDataOf, h.owner hs, hR.nodeNameOf he s.owner htag, hR.statusOf he,
    hR.mustsOf he, hR.configOf he, hR.mandatoryOf he, hR.elementCountOf he, hR.descriptionOf he,
    hR.referenceOf he, hR.whenOf he, h.nodeName]
  refine (Agree.refl _).bind_eq fun name => (Agree.refl _).bind_eq fun status => ?_
  refine (Agree.refl _).bind_eq fun musts => (Agree.refl _).bind_eq fun config => ?_
  refine (Agree.refl _).bind_eq fun mandatory => (Agree.refl _).bind_eq fun count => ?_
  refine Agree.bind_eq ?_ fun type => .refl _
  split
  · exact (h.nodeType hrefs hs he kind name).map_eq some
  · exact .refl _

theorem usedNodes (hs : Hears t env env' u s s') (he : u.stmt e e') (htag : e.tag = "uses")
    (inherited : Option Bool) :
    Agree strict Eq (Yin.usedNodes env refs s inherited e)
      (Yin.usedNodes env' refs' s' inherited e') := by
  rw [Yin.usedNodes, Yin.usedNodes, h.owner hs]
  refine (u.argument_reference he s.owner (by rw [htag]; decide)).bind ?_
  rintro name name' ⟨hgiven, hsame⟩
  refine (h.findDefinition hs (by decide) hgiven).bind fun found found' hfound => ?_
  cases hfound with
  | none => exact .error fun hstrict => by rw [hsame hstrict]
  | some hd =>
      obtain ⟨hkeyword, v, hstmt, hinner⟩ := hd
      refine (hrefs.grouping inherited hsame hstmt hkeyword hinner).bind_eq fun nodes => ?_
      rw [u.reading.whenOf he]
      refine .foldlM ((u.reading.tagged he (by decide)).imp ?_) _
      rintro c c' ⟨hctag, hc⟩ nodes
      exact u.refine hc hctag s.owner nodes

omit h hrefs in
/-- Statements that are built to the same nodes, of whatever kind they are. -/
def Builds (strict : Prop) (env env' : Environment) (refs refs' : References) (s s' : Scope)
    (c c' : Element) : Prop :=
  ∀ kind inherited, c.tag = kind.keyword → Agree strict Eq (Yin.nodeVia env refs s inherited kind c)
    (Yin.nodeVia env' refs' s' inherited kind c')

omit h hrefs in
theorem nodeStatements (he : u.stmt e e')
    (hbelow : ∀ c ∈ e.children, ∀ c', u.stmt c c' → Builds strict env env' refs refs' s s' c c') :
    List.Forall₂ (fun c c' => u.stmt c c' ∧ Builds strict env env' refs refs' s s' c c')
      (e.children.filter isNodeStatement) (e'.children.filter isNodeStatement) := by
  have hmem := (List.forall₂_and_left (p := fun c : Element => c ∈ e.children) _ _).mpr
    ⟨fun c hc => List.mem_of_mem_filter hc, u.nodes he⟩
  exact hmem.imp fun c c' hc => ⟨hc.2, hbelow c hc.1 c' hc.2⟩

theorem nodesVia_of_below (hs : Hears t env env' u s s') (he : u.stmt e e')
    (hbelow : ∀ c ∈ e.children, ∀ c', u.stmt c c' → Builds strict env env' refs refs' s s' c c')
    (inherited : Option Bool) :
    Agree strict Eq (Yin.nodesVia env refs s inherited e.children)
      (Yin.nodesVia env' refs' s' inherited e'.children) := by
  rw [← nodesVia_filter, ← nodesVia_filter env']
  have hstmts := nodeStatements he hbelow
  generalize e.children.filter isNodeStatement = stmts at hstmts ⊢
  generalize e'.children.filter isNodeStatement = stmts' at hstmts ⊢
  induction hstmts with
  | nil => exact .refl _
  | @cons c c' rest rest' hc _ ih =>
      obtain ⟨hstmt, hbuilds⟩ := hc
      rw [Yin.nodesVia, Yin.nodesVia, u.reading.tag hstmt]
      cases hkind : dataKind? c.tag with
      | some kind =>
          refine (hbuilds kind inherited (tag_of_dataKind? hkind)).bind_eq fun node => ?_
          exact ih.bind_eq fun _ => .refl _
      | none =>
          by_cases huses : c.tag = "uses"
          · simp only [if_pos huses]
            refine (h.usedNodes hrefs hs hstmt huses inherited).bind_eq fun used => ?_
            exact ih.bind_eq fun _ => .refl _
          · simp only [if_neg huses]
            exact ih

omit h hrefs in
theorem casesVia_of_below (he : u.stmt e e')
    (hbelow : ∀ c ∈ e.children, ∀ c', u.stmt c c' → Builds strict env env' refs refs' s s' c c')
    (inherited : Option Bool) :
    Agree strict Eq (casesVia env refs s inherited e.children)
      (casesVia env' refs' s' inherited e'.children) := by
  rw [← casesVia_filter, ← casesVia_filter env']
  have hstmts := nodeStatements he hbelow
  generalize e.children.filter isNodeStatement = stmts at hstmts ⊢
  generalize e'.children.filter isNodeStatement = stmts' at hstmts ⊢
  induction hstmts with
  | nil => exact .refl _
  | @cons c c' rest rest' hc _ ih =>
      obtain ⟨hstmt, hbuilds⟩ := hc
      rw [casesVia, casesVia, u.reading.tag hstmt]
      cases hkind : dataKind? c.tag with
      | none => exact ih
      | some kind =>
          by_cases hdata : kind.isData = true
          · simp only [if_pos hdata]
            refine (hbuilds kind inherited (tag_of_dataKind? hkind)).bind_eq fun node => ?_
            exact ih.bind_eq fun _ => .refl _
          · simp only [if_neg hdata]
            exact ih

omit hrefs in
theorem partVia_of_below (kind : NodeKind) (hread : kind.keyword ∈ readTags) (he : u.stmt e e')
    (hbelow : ∀ c ∈ e.children, ∀ c', u.stmt c c' → Builds strict env env' refs refs' s s' c c') :
    Agree strict Eq (partVia env refs s kind e.children)
      (partVia env' refs' s' kind e'.children) := by
  have hchild := u.reading.child? he kind.keyword hread
  have hmem : ∀ c, e.child? kind.keyword = some c → c ∈ e.children := fun c =>
    Element.mem_of_child?
  rw [partVia_eq_find?, partVia_eq_find?, ← Element.child?, ← Element.child?]
  generalize e.child? kind.keyword = found at hchild hmem ⊢
  generalize e'.child? kind.keyword = found' at hchild ⊢
  cases hchild with
  | none => exact .of_eq (by rw [emptyPart, emptyPart, h.nodeName])
  | some hc => exact hbelow _ (hmem _ rfl) _ hc.2 kind none hc.1

theorem nodeVia (hs : Hears t env env' u s s') (he : u.stmt e e') :
    Builds strict env env' refs refs' s s' e e' := by
  -- a `uses` statement ends the descent: what it leads to is up to `hrefs`
  induction e using Element.treeInduction generalizing s s' e' with
  | element e ih =>
      intro kind inherited htag
      have hinner := hs.enter he
      have hbelow : ∀ c ∈ e.children, ∀ c', u.stmt c c' →
          Builds strict env env' refs refs' (s.enter e) (s'.enter e') c c' :=
        fun c hc c' hstmt => ih c hc hinner hstmt
      have hdata := h.nodeDataOf hrefs hs he htag inherited
      have hnodes := h.nodesVia_of_below hrefs hinner he hbelow
      have hcases := casesVia_of_below he hbelow
      have hinput := h.partVia_of_below .input (by decide) he hbelow
      have houtput := h.partVia_of_below .output (by decide) he hbelow
      obtain ⟨tag, nsPrefix, attributes, children, text⟩ := e
      obtain ⟨tag', nsPrefix', attributes', children', text'⟩ := e'
      rw [Yin.nodeVia, Yin.nodeVia]
      refine hdata.bind_eq fun data => ?_
      cases kind with
      | container | list | branch | input | output | notification =>
          exact (hnodes data.config).bind_eq fun _ => .refl _
      | choice => exact (hcases data.config).bind_eq fun _ => .refl _
      | rpc | action => exact hinput.bind_eq fun input => houtput.bind_eq fun _ => .refl _
      | leaf | leafList | anydata | anyxml => exact .refl _

theorem nodesVia (hs : Hears t env env' u s s') (he : u.stmt e e') (inherited : Option Bool) :
    Agree strict Eq (Yin.nodesVia env refs s inherited e.children)
      (Yin.nodesVia env' refs' s' inherited e'.children) :=
  h.nodesVia_of_below hrefs hs he (fun _ _ _ hc => h.nodeVia hrefs hs hc) inherited

omit hrefs in
theorem refers_upTo (depth : Nat) :
    Refers t env env' (.upTo env depth) (.upTo env' depth) := by
  induction depth with
  | zero =>
      refine ⟨fun hs he htag => h.typeOf hs he htag, ?_⟩
      intro u i i' d d' name name' inherited hsame _ _ hi
      exact .error fun hstrict => by rw [hsame hstrict, h.owner hi]
  | succ depth ih =>
      refine ⟨fun hs he htag => h.typeOf hs he htag, ?_⟩
      intro u i i' d d' name name' inherited _ hd _ hi
      exact h.nodesVia ih (hi.enter hd) hd inherited

/-! ### Definitions -/

omit hrefs in
theorem augmentationOf (hs : Hears t env env' u s s') (he : u.stmt e e')
    (htag : e.tag = "augment") :
    Agree strict Eq (Yin.augmentationOf env s e) (Yin.augmentationOf env' s' e') := by
  rw [Yin.augmentationOf, Yin.augmentationOf, h.owner hs]
  refine (u.argument_path he s.owner (by rw [htag]; decide)).bind ?_
  rintro path path' ⟨hsteps, -⟩
  have htarget : Agree strict Eq ((pathSteps path).mapM (targetSegment env s))
      ((pathSteps path').mapM (targetSegment env' s')) := by
    refine .mapM_eq (hsteps.imp fun step step' hstep => ?_)
    refine (h.splitOwner hs.voice hstep).bind ?_
    rintro ⟨k, name⟩ ⟨k', _⟩ ⟨⟨v, hk⟩, rfl⟩
    exact .ok (by rw [h.name hk])
  refine htarget.bind_eq fun segments => ?_
  refine (h.nodesVia (h.refers_upTo maxDepth) (hs.enter he) he _).bind_eq fun children => ?_
  rw [u.reading.statusOf he, u.reading.whenOf he]
  exact .refl _

omit hrefs in
theorem identityOf (hs : Hears t env env' u s s') (he : u.stmt e e') (htag : e.tag = "identity") :
    Agree strict Eq (Yin.identityOf env s e) (Yin.identityOf env' s' e') := by
  have hR := u.reading
  rw [Yin.identityOf, Yin.identityOf, h.owner hs,
    hR.argument he s.owner "name" (by rw [htag]; decide)]
  refine (Agree.refl _).bind_eq fun name => (h.baseIdentities hs he).bind_eq fun bases => ?_
  rw [hR.statusOf he, hR.descriptionOf he, hR.referenceOf he, h.nodeName]
  exact .refl _

omit hrefs in
theorem definitionOf? (hs : Hears t env env' u s s') (he : u.stmt e e') :
    Agree strict Eq (Yin.definitionOf? env s e) (Yin.definitionOf? env' s' e') := by
  rw [Yin.definitionOf?, Yin.definitionOf?, u.reading.tag he]
  split
  · rename_i htag
    exact (h.nodeVia (h.refers_upTo maxDepth) hs he .rpc none htag).bind_eq fun _ => .refl _
  · rename_i htag
    exact (h.augmentationOf hs he htag).bind_eq fun _ => .refl _
  · rename_i htag
    exact (h.typedefOf hs he htag).bind_eq fun _ => .refl _
  · rename_i htag
    exact (h.identityOf hs he htag).bind_eq fun _ => .refl _
  · exact .refl _

omit hrefs in
theorem definitions (hs : Hears t env env' u s s') (he : u.stmt e e') :
    Agree strict (fun ds ds' => ∀ tag ∈ topTags, Definition.ofTag tag ds' = Definition.ofTag tag ds)
      (List.filterMap id <$> e.children.mapM (Yin.definitionOf? env s))
      (List.filterMap id <$> e'.children.mapM (Yin.definitionOf? env' s')) := by
  by_cases hstrict : strict
  · -- the definitions are in the same order, so that the first fault is the same
    rw [← definitions_filter e.children, ← definitions_filter e'.children]
    refine (Agree.mapM_eq ((u.inOrder he hstrict).imp fun c c' hc => ?_)).map ?_
    · exact h.definitionOf? hs hc
    · rintro ds _ rfl tag _
      rfl
  · have hsame : ∀ tag ∈ topTags, List.Forall₂ (fun c c' =>
        Agree strict Eq (Yin.definitionOf? env s c) (Yin.definitionOf? env' s' c'))
          (e.childrenOf tag) (e'.childrenOf tag) := by
      intro tag htag
      have htags : topTags ⊆ definitionTags := by decide
      exact (u.definitions he (htags htag)).imp fun c c' hc => h.definitionOf? hs hc
    refine .of_results hstrict ?_ ?_
    · intro ds hds
      obtain ⟨found, hfound, rfl⟩ := map_eq_ok_iff.mp hds
      obtain ⟨found', hfound', heq⟩ := exists_definitions hsame hfound
      exact ⟨_, map_eq_ok_iff.mpr ⟨found', hfound', rfl⟩, heq⟩
    · intro ds' hds'
      obtain ⟨found', hfound', rfl⟩ := map_eq_ok_iff.mp hds'
      obtain ⟨found, hfound, -⟩ := exists_definitions (fun tag htag =>
        ((hsame tag htag).imp fun _ _ hc => hc.symm).flip) hfound'
      exact ⟨_, map_eq_ok_iff.mpr ⟨found, hfound, rfl⟩⟩

omit hrefs in
theorem assembled (nodes : List SchemaNode) {ds ds' : List Definition}
    (hds : ∀ tag ∈ topTags, Definition.ofTag tag ds' = Definition.ofTag tag ds) :
    env'.assembled nodes ds' =
      { env.assembled nodes ds with nsPrefix := t.rename env.main.nsPrefix } := by
  have hgather : ∀ {γ : Type} {gather : Definition → Option γ}, ∀ tag ∈ topTags,
      (∀ d, d.tag ≠ tag → gather d = none) → ds'.filterMap gather = ds.filterMap gather := by
    intro γ gather tag htag hother
    rw [← Definition.filterMap_ofTag hother, hds tag htag, Definition.filterMap_ofTag hother]
  have hrpcs := hgather "rpc" (by decide) fun d => d.eq_none_of_tag.1
  have haugmentations := hgather "augment" (by decide) fun d => d.eq_none_of_tag.2.1
  have htypedefs := hgather "typedef" (by decide) fun d => d.eq_none_of_tag.2.2.1
  have hidentities := hgather "identity" (by decide) fun d => d.eq_none_of_tag.2.2.2
  simp only [Environment.assembled, hrpcs, haugmentations, htypedefs, hidentities]
  rw [h.main]
  rfl

omit hrefs in
/-- Two texts of a module are resolved to the same but for the prefix of the module. -/
theorem module :
    Agree strict (fun m m' => m' = { m with nsPrefix := t.rename m.nsPrefix }) env.module
      env'.module := by
  have htop : Hears t env env' t (Scope.top env.main) (Scope.top env'.main) := h.top .main
  rw [module_eq_assembled, module_eq_assembled]
  refine (h.nodesVia (h.refers_upTo maxDepth) htop h.root _).bind_eq fun nodes => ?_
  refine (h.definitions htop h.root).bind fun ds ds' hds => ?_
  exact .ok (h.assembled nodes hds)

end Retold

end YangEvolution.Yin
