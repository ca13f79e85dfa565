import YangEvolution.Proofs.MatchedPairs
import YangEvolution.Proofs.RuleFamilies

/-!
The two versions of the language. The rules that only the later version has are tried among the
others, at three depths of the walk. Main statement: for the same two modules, the catalog of the
earlier version is that of the later one without the findings of these rules, in the same order; so
that no finding of a common rule depends on the version, nor its place among the others.
-/

namespace YangEvolution

/-! ### Catalogs of a part of the findings -/

namespace Catalog

variable {p : Finding → Bool}

/-- Repetitions are told by the finding itself, so that it does not matter whether they are dropped
before or after a choice of findings. -/
theorem findings_foldl_add_filter (l : List Finding) {c d : Catalog}
    (h : d.findings = c.findings.filter p) :
    ((l.filter p).foldl add d).findings = (l.foldl add c).findings.filter p := by
  induction l generalizing c d with
  | nil => exact h
  | cons f rest ih =>
      rw [List.filter_cons, List.foldl_cons]
      by_cases hp : p f = true
      · rw [if_pos hp, List.foldl_cons]
        refine ih ?_
        by_cases hmem : f ∈ c.findings
        · have hmem' : f ∈ d.findings := by
            rw [h]
            exact List.mem_filter.mpr ⟨hmem, hp⟩
          rw [findings_add_of_mem hmem, findings_add_of_mem hmem', h]
        · have hmem' : f ∉ d.findings := by
            rw [h]
            exact fun hf => hmem (List.mem_filter.mp hf).1
          rw [findings_add_of_not_mem hmem, findings_add_of_not_mem hmem', List.filter_append, h]
          simp [hp]
      · rw [if_neg hp]
        refine ih ?_
        by_cases hmem : f ∈ c.findings
        · rw [findings_add_of_mem hmem, h]
        · rw [findings_add_of_not_mem hmem, List.filter_append, h]
          simp [hp]

theorem findings_ofList_filter (l : List Finding) :
    (ofList (l.filter p)).findings = (ofList l).findings.filter p :=
  findings_foldl_add_filter l rfl

end Catalog

/-- Whether both versions have the rule of a finding. -/
def Finding.isCommon (f : Finding) : Bool :=
  !f.rule.since7950

theorem isCommon_of_rule_eq {f : Finding} {rule : Rule} (h : f.rule = rule) :
    f.isCommon = !rule.since7950 := by
  rw [Finding.isCommon, h]

theorem filter_isCommon_eq_nil {l : List Finding} (h : ∀ f ∈ l, f.isCommon = false) :
    l.filter Finding.isCommon = [] :=
  List.filter_eq_nil_iff.mpr fun f hf => by simp [h f hf]

namespace Compatibility

variable {p : Position}

/-! ### The rules on types and nodes -/

theorem isCommon_of_rule_mem {f : Finding} (h : f.rule ∈ nodeRules) : f.isCommon = true := by
  have hall : ∀ rule ∈ nodeRules, rule.since7950 = false := by decide
  simp [Finding.isCommon, hall f.rule h]

theorem isCommon_of_mem_typeFindings {old new : TypeDef} {f : Finding}
    (h : f ∈ typeFindings .rfc6020 p old new) : f.isCommon = true := by
  rcases rule_of_mem_typeFindings h with hrule | ⟨hversion, -⟩
  · exact isCommon_of_rule_mem (List.mem_append_right _ hrule)
  · cases hversion

theorem isCommon_of_mem_nodeFindings {old new : NodeData} {f : Finding}
    (h : f ∈ nodeFindings .rfc6020 p old new) : f.isCommon = true := by
  rcases rule_of_mem_nodeFindings h with hrule | ⟨hversion, -⟩
  · exact isCommon_of_rule_mem hrule
  · cases hversion

theorem filter_typeFindings (old new : TypeDef) :
    (typeFindings .rfc7950 p old new).filter Finding.isCommon =
      typeFindings .rfc6020 p old new := by
  have hbases : (identityrefFindings p old new).filter Finding.isCommon = [] :=
    filter_isCommon_eq_nil fun f hf => isCommon_of_rule_eq (rule_of_mem_identityrefFindings hf)
  have hself : (typeFindings .rfc6020 p old new).filter Finding.isCommon =
      typeFindings .rfc6020 p old new :=
    List.filter_eq_self.mpr fun _ => isCommon_of_mem_typeFindings
  -- types of different built-in types are not compared further, in either version
  rw [← hself, typeFindings, typeFindings]
  split
  · simp [LanguageVersion.is7950, List.filter_append, hbases]
  · rfl

theorem filter_nodeTypeFindings (old new : Option TypeDef) :
    (nodeTypeFindings .rfc7950 p old new).filter Finding.isCommon =
      nodeTypeFindings .rfc6020 p old new := by
  unfold nodeTypeFindings
  split
  · exact filter_typeFindings _ _
  · rfl

theorem filter_nodeFindings (old new : NodeData) :
    (nodeFindings .rfc7950 p old new).filter Finding.isCommon =
      nodeFindings .rfc6020 p old new := by
  have hwhen : (whenFindings p old.when new.when).filter Finding.isCommon = [] :=
    filter_isCommon_eq_nil fun f hf =>
      (rule_of_mem_whenFindings hf).elim isCommon_of_rule_eq isCommon_of_rule_eq
  have htype : (nodeTypeFindings .rfc6020 p old.type new.type).filter Finding.isCommon =
      nodeTypeFindings .rfc6020 p old.type new.type := by
    rw [← filter_nodeTypeFindings, List.filter_filter]
    simp only [Bool.and_self]
  have hself : (nodeFindings .rfc6020 p old new).filter Finding.isCommon =
      nodeFindings .rfc6020 p old new :=
    List.filter_eq_self.mpr fun _ => isCommon_of_mem_nodeFindings
  rw [← hself, nodeFindings, nodeFindings]
  simp [LanguageVersion.is7950, List.filter_append, hwhen, filter_nodeTypeFindings, htype]

end Compatibility

namespace Comparison

open Compatibility SchemaNode

variable {old new : Module}

/-! ### Walks in the two versions -/

/-- The version matters at each node by itself, so that what is filtered below it is filtered with
it. -/
theorem filter_isCommon_nested (siblings : List SchemaNode) (parent : Position) (n : SchemaNode) :
    (nested ⟨old, new, .rfc7950⟩ siblings parent n).filter Finding.isCommon =
      nested ⟨old, new, .rfc6020⟩ siblings parent n := by
  induction n using treeInduction generalizing siblings parent with
  | node data children ih =>
      rw [nested, nested]
      -- the counterpart is looked up without regard to the version
      cases find? siblings data.qname.localName with
      | none => rfl
      | some counterpart =>
          simp only [List.filter_append, filter_nodeFindings, nestedAll_eq_flatMap,
            List.filter_flatMap]
          rw [List.flatMap_congr fun n hn => ih n hn _ _]
          rfl

theorem filter_isCommon_nestedAll (siblings : List SchemaNode) (parent : Position)
    (nodes : List SchemaNode) :
    (nestedAll ⟨old, new, .rfc7950⟩ siblings parent nodes).filter Finding.isCommon =
      nestedAll ⟨old, new, .rfc6020⟩ siblings parent nodes := by
  rw [nestedAll_eq_flatMap, nestedAll_eq_flatMap, List.filter_flatMap]
  exact List.flatMap_congr fun n _ => filter_isCommon_nested siblings parent n

theorem filter_isCommon_operations (operations nodes : List SchemaNode) :
    (nodes.flatMap (operationFindings ⟨old, new, .rfc7950⟩ (find? operations))).filter
        Finding.isCommon =
      nodes.flatMap (operationFindings ⟨old, new, .rfc6020⟩ (find? operations)) := by
  rw [flatMap_operationFindings, flatMap_operationFindings]
  exact filter_isCommon_nestedAll operations .root nodes

theorem filter_isCommon_augmentations (augmentations : List Augmentation) :
    (augmentations.flatMap (augmentationFindings ⟨old, new, .rfc7950⟩)).filter Finding.isCommon =
      augmentations.flatMap (augmentationFindings ⟨old, new, .rfc6020⟩) := by
  rw [List.filter_flatMap]
  refine List.flatMap_congr fun a _ => ?_
  cases hfind : new.findAugmentation? a.target with
  | none =>
      simp only [augmentationFindings, hfind]
      rfl
  | some b =>
      simp only [augmentationFindings, hfind]
      exact filter_isCommon_nestedAll _ _ _

/-! ### Modules in the two versions -/

theorem filter_isCommon_findings (old new : Module) :
    (findings ⟨old, new, .rfc7950⟩).filter Finding.isCommon = findings ⟨old, new, .rfc6020⟩ := by
  have hheader : (headerFindings ⟨old, new, .rfc7950⟩).filter Finding.isCommon =
      headerFindings ⟨old, new, .rfc6020⟩ :=
    List.filter_eq_self.mpr fun f hf =>
      (rule_of_mem_headerFindings hf).elim isCommon_of_rule_eq isCommon_of_rule_eq
  have hrevision : (revisionFindings ⟨old, new, .rfc7950⟩).filter Finding.isCommon =
      revisionFindings ⟨old, new, .rfc6020⟩ :=
    List.filter_eq_self.mpr fun f hf =>
      (rule_of_mem_revisionFindings hf).elim isCommon_of_rule_eq isCommon_of_rule_eq
  have hhistory : (historyFindings ⟨old, new, .rfc7950⟩).filter Finding.isCommon =
      historyFindings ⟨old, new, .rfc6020⟩ :=
    List.filter_eq_self.mpr fun f hf => isCommon_of_rule_eq (rule_of_mem_historyFindings hf)
  -- identities are compared in the later version only
  have hidentities : (old.identities.flatMap (identityFindings ⟨old, new, .rfc7950⟩)).filter
      Finding.isCommon = [] := by
    refine filter_isCommon_eq_nil fun f hf => ?_
    obtain ⟨i, -, hf⟩ := List.mem_flatMap.mp hf
    rcases rule_of_mem_identityFindings hf with hrule | hrule | hrule
    · exact isCommon_of_rule_eq hrule
    · exact isCommon_of_rule_eq hrule
    · exact isCommon_of_rule_eq hrule
  have htypedefs : (old.typedefs.flatMap (typedefFindings ⟨old, new, .rfc7950⟩)).filter
      Finding.isCommon = old.typedefs.flatMap (typedefFindings ⟨old, new, .rfc6020⟩) := by
    refine List.filter_eq_self.mpr fun f hf => ?_
    obtain ⟨t, -, hf⟩ := List.mem_flatMap.mp hf
    exact (rule_of_mem_typedefFindings hf).elim isCommon_of_rule_eq isCommon_of_rule_eq
  have hdata : (dataNodes ⟨old, new, .rfc7950⟩ .root old.children).filter Finding.isCommon =
      dataNodes ⟨old, new, .rfc6020⟩ .root old.children := by
    rw [dataNodes_eq_nestedAll, dataNodes_eq_nestedAll]
    exact filter_isCommon_nestedAll _ _ _
  have hrpcs : (old.rpcs.flatMap (operationFindings ⟨old, new, .rfc7950⟩ new.findRpc?)).filter
      Finding.isCommon = _ := filter_isCommon_operations new.rpcs old.rpcs
  have hnotifications : (old.notifications.flatMap
      (operationFindings ⟨old, new, .rfc7950⟩ new.findNotification?)).filter
      Finding.isCommon = _ := filter_isCommon_operations new.notifications old.notifications
  simp only [findings, List.filter_append, LanguageVersion.is7950, if_true, hheader, hrevision,
    hhistory, hidentities, hdata, hrpcs, hnotifications, filter_isCommon_augmentations, htypedefs]
  rfl

/-- The rules of the later version only neither hide nor move a finding of another rule. -/
theorem findings_rfc6020_eq_filter (old new : Module) :
    (catalog ⟨old, new, .rfc6020⟩).findings =
      (catalog ⟨old, new, .rfc7950⟩).findings.filter fun f =>
        f.rule ∉ [.missingIdentity, .baseIdentity, .missingBaseIdentity, .addedWhen, .checkWhen,
          .identityrefBase] := by
  have hcommon : Finding.isCommon = fun f : Finding => decide (f.rule ∉ [.missingIdentity,
      .baseIdentity, .missingBaseIdentity, .addedWhen, .checkWhen, .identityrefBase]) := by
    funext ⟨rule, _, _⟩
    cases rule <;> rfl
  rw [catalog, catalog, ← hcommon, ← Catalog.findings_ofList_filter, filter_isCommon_findings]

end Comparison

end YangEvolution
