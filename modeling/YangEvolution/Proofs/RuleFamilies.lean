import YangEvolution.Compatibility.ModuleChange
import YangEvolution.Proofs.CompatibleNode

/-!
Which rules can be broken by a change of a type, of a node and of a definition of a module.
-/

namespace YangEvolution

namespace Compatibility

/-- The rules on types of the same built-in type that both versions of the language have. -/
def facetRules : List Rule :=
  [.defaultValue, .units, .reference, .length, .range, .missingEnum, .missingBit, .pattern]

/-- The rules on nodes that both versions of the language have, but for those on status and types.
-/
def propertyRules : List Rule :=
  [.reference, .addedMust, .checkMust, .mandatory, .illegalConfigChange, .illegalConfigState,
    .minElements, .maxElements]

/-- The rules on types that both versions of the language have. -/
def typeRules : List Rule :=
  .type :: facetRules

/-- The rules on nodes that both versions of the language have. -/
def nodeRules : List Rule :=
  .status :: propertyRules ++ typeRules

variable {version : LanguageVersion} {p : Position} {f : Finding}

theorem rule_of_mem_singleton {rule : Rule} {new old : String}
    (h : f ∈ [p.finding rule new old]) : f.rule = rule := by
  rw [List.mem_singleton.mp h, Position.rule_finding]

theorem rule_of_mem_ite {rule : Rule} {new old : String} {b : Prop} [Decidable b]
    (h : f ∈ if b then [p.finding rule new old] else []) : f.rule = rule := by
  split at h
  · exact rule_of_mem_singleton h
  · cases h

theorem rule_eq_reference {old new : Option String} (h : f ∈ referenceFindings p old new) :
    f.rule = .reference := by
  unfold referenceFindings at h
  split at h
  · exact rule_of_mem_singleton h
  · cases h

/-! ### Rules on types -/

theorem rule_eq_type {old new : TypeDef} (h : f ∈ builtinFindings p old new) :
    f.rule = .type := by
  unfold builtinFindings at h
  split at h
  · cases h
  · exact rule_of_mem_singleton h

theorem rule_of_mem_identityrefFindings {old new : TypeDef}
    (h : f ∈ identityrefFindings p old new) : f.rule = .identityrefBase := by
  unfold identityrefFindings at h
  split at h
  · exact rule_of_mem_ite h
  · cases h

theorem rule_eq_defaultValue {old new : TypeDef} (h : f ∈ defaultFindings p old new) :
    f.rule = .defaultValue := by
  unfold defaultFindings at h
  split at h
  · split at h
    · cases h
    · exact rule_of_mem_singleton h
  · cases h

theorem rule_eq_units {old new : TypeDef} (h : f ∈ unitsFindings p old new) :
    f.rule = .units := by
  unfold unitsFindings at h
  split at h
  · exact rule_of_mem_singleton h
  · cases h

theorem rule_eq_length {old new : TypeDef} (h : f ∈ lengthFindings p old new) :
    f.rule = .length := by
  unfold lengthFindings at h
  split at h
  · exact rule_of_mem_ite h
  · cases h

theorem rule_eq_range {old new : TypeDef} (h : f ∈ rangeFindings p old new) :
    f.rule = .range := by
  unfold rangeFindings at h
  split at h
  · exact rule_of_mem_ite h
  · cases h

theorem rule_eq_missingEnum {old new : TypeDef} (h : f ∈ enumFindings p old new) :
    f.rule = .missingEnum := by
  unfold enumFindings at h
  split at h
  · cases h
  · exact rule_of_mem_singleton h

theorem rule_eq_missingBit {old new : TypeDef} (h : f ∈ bitFindings p old new) :
    f.rule = .missingBit := by
  obtain ⟨b, -, rfl⟩ := List.mem_map.mp h
  rfl

theorem rule_eq_pattern {old new : TypeDef} (h : f ∈ patternFindings p old new) :
    f.rule = .pattern := by
  unfold patternFindings at h
  split at h
  · cases h
  · exact rule_of_mem_singleton h

/-- Of the findings on a type, only that on its built-in type has the rule on types. -/
theorem mem_typeFindings_cases {old new : TypeDef} (h : f ∈ typeFindings version p old new) :
    f ∈ builtinFindings p old new ∨ f.rule ∈ facetRules ∨
      version = .rfc7950 ∧ f.rule = .identityrefBase := by
  have hfacet : ∀ rule ∈ facetRules, f.rule = rule → f ∈ builtinFindings p old new ∨
      f.rule ∈ facetRules ∨ version = .rfc7950 ∧ f.rule = .identityrefBase := by
    rintro rule hrule rfl
    exact .inr (.inl hrule)
  unfold typeFindings at h
  split at h
  · simp only [List.mem_append] at h
    obtain (((((((h | h) | h) | h) | h) | h) | h) | h) | h := h
    · exact hfacet .defaultValue (by decide) (rule_eq_defaultValue h)
    · exact hfacet .units (by decide) (rule_eq_units h)
    · exact hfacet .reference (by decide) (rule_eq_reference h)
    · split at h
      · rename_i hversion
        exact .inr (.inr ⟨is7950_iff.mp hversion, rule_of_mem_identityrefFindings h⟩)
      · cases h
    · exact hfacet .length (by decide) (rule_eq_length h)
    · exact hfacet .range (by decide) (rule_eq_range h)
    · exact hfacet .missingEnum (by decide) (rule_eq_missingEnum h)
    · exact hfacet .missingBit (by decide) (rule_eq_missingBit h)
    · exact hfacet .pattern (by decide) (rule_eq_pattern h)
  · exact .inl h

theorem rule_of_mem_typeFindings {old new : TypeDef} (h : f ∈ typeFindings version p old new) :
    f.rule ∈ typeRules ∨ version = .rfc7950 ∧ f.rule = .identityrefBase := by
  rcases mem_typeFindings_cases h with h | h | h
  · exact .inl (List.mem_cons.mpr (.inl (rule_eq_type h)))
  · exact .inl (List.mem_cons_of_mem _ h)
  · exact .inr h

/-! ### Rules on nodes -/

theorem rule_of_mem_mustFindings {old new : List Must} (h : f ∈ mustFindings p old new) :
    f.rule = .addedMust ∨ f.rule = .checkMust := by
  unfold mustFindings at h
  split at h
  · exact .inl (rule_of_mem_singleton h)
  · split at h
    · obtain ⟨m, -, rfl⟩ := List.mem_map.mp h
      exact .inr rfl
    · cases h

theorem rule_of_mem_whenFindings {old new : Option String} (h : f ∈ whenFindings p old new) :
    f.rule = .addedWhen ∨ f.rule = .checkWhen := by
  unfold whenFindings at h
  split at h
  · exact .inl (rule_of_mem_singleton h)
  · split at h
    · cases h
    · exact .inr (rule_of_mem_singleton h)
  · cases h

theorem rule_of_mem_configFindings {old new : NodeData} (h : f ∈ configFindings p old new) :
    f.rule = .illegalConfigChange ∨ f.rule = .illegalConfigState := by
  unfold configFindings at h
  split at h
  · exact .inl (rule_of_mem_singleton h)
  · exact .inr (rule_of_mem_ite h)
  · cases h

theorem rule_eq_maxElements {old new : Option Nat} (h : f ∈ maxElementsFindings p old new) :
    f.rule = .maxElements := by
  unfold maxElementsFindings at h
  split at h
  · exact rule_of_mem_ite h
  · cases h

/-- Of the findings on a node, only those on its status and on its type have their rules. -/
theorem mem_nodeFindings_cases {old new : NodeData} (h : f ∈ nodeFindings version p old new) :
    f ∈ statusFindings p old.status new.status ∨
      f ∈ nodeTypeFindings version p old.type new.type ∨ f.rule ∈ propertyRules ∨
      version = .rfc7950 ∧ (f.rule = .addedWhen ∨ f.rule = .checkWhen) := by
  have hproperty : ∀ rule ∈ propertyRules, f.rule = rule →
      f ∈ statusFindings p old.status new.status ∨
        f ∈ nodeTypeFindings version p old.type new.type ∨ f.rule ∈ propertyRules ∨
        version = .rfc7950 ∧ (f.rule = .addedWhen ∨ f.rule = .checkWhen) := by
    rintro rule hrule rfl
    exact .inr (.inr (.inl hrule))
  simp only [nodeFindings, List.mem_append] at h
  obtain (((((((h | h) | h) | h) | h) | h) | h) | h) | h := h
  · exact hproperty .reference (by decide) (rule_eq_reference h)
  · exact (rule_of_mem_mustFindings h).elim (hproperty _ (by decide)) (hproperty _ (by decide))
  · split at h
    · rename_i hversion
      exact .inr (.inr (.inr ⟨is7950_iff.mp hversion, rule_of_mem_whenFindings h⟩))
    · cases h
  · exact hproperty .mandatory (by decide) (rule_of_mem_ite h)
  · exact (rule_of_mem_configFindings h).elim (hproperty _ (by decide)) (hproperty _ (by decide))
  · exact .inl h
  · exact hproperty .minElements (by decide) (rule_of_mem_ite h)
  · exact hproperty .maxElements (by decide) (rule_eq_maxElements h)
  · exact .inr (.inl h)

theorem rule_of_mem_nodeFindings {old new : NodeData} (h : f ∈ nodeFindings version p old new) :
    f.rule ∈ nodeRules ∨
      version = .rfc7950 ∧ (f.rule = .addedWhen ∨ f.rule = .checkWhen ∨
        f.rule = .identityrefBase) := by
  rcases mem_nodeFindings_cases h with h | h | h | ⟨hversion, h⟩
  · exact .inl (List.mem_append_left _ (List.mem_cons.mpr (.inl (rule_of_mem_ite h))))
  · unfold nodeTypeFindings at h
    split at h
    · rcases rule_of_mem_typeFindings h with hrule | ⟨hversion, hrule⟩
      · exact .inl (List.mem_append_right _ hrule)
      · exact .inr ⟨hversion, .inr (.inr hrule)⟩
    · cases h
  · exact .inl (List.mem_append_left _ (List.mem_cons_of_mem _ h))
  · exact .inr ⟨hversion, h.imp_right .inl⟩

end Compatibility

namespace Comparison

open Compatibility

variable {c : Comparison} {f : Finding}

/-! ### Rules on modules -/

theorem rule_of_mem_headerFindings (h : f ∈ c.headerFindings) :
    f.rule = .moduleName ∨ f.rule = .moduleNamespace := by
  rcases List.mem_append.mp h with h | h
  · split at h
    · cases h
    · exact .inl (by rw [List.mem_singleton.mp h])
  · split at h
    · cases h
    · exact .inr (by rw [List.mem_singleton.mp h])

theorem rule_of_mem_revisionFindings (h : f ∈ c.revisionFindings) :
    f.rule = .missingRevision ∨ f.rule = .revision := by
  unfold revisionFindings at h
  split at h
  · exact .inl (by rw [List.mem_singleton.mp h])
  · split at h
    · exact .inr (by rw [List.mem_singleton.mp h])
    · cases h
  · cases h

theorem rule_of_mem_historyFindings (h : f ∈ c.historyFindings) :
    f.rule = .missingOldRevision := by
  obtain ⟨r, -, rfl⟩ := List.mem_map.mp h
  rfl

theorem rule_of_mem_identityFindings {i : Identity} (h : f ∈ c.identityFindings i) :
    f.rule = .missingIdentity ∨ f.rule = .baseIdentity ∨ f.rule = .missingBaseIdentity := by
  simp only [identityFindings] at h
  split at h
  · exact .inl (by rw [List.mem_singleton.mp h])
  · rcases List.mem_append.mp h with h | h
    · split at h
      · exact .inr (.inl (by rw [List.mem_singleton.mp h]))
      · cases h
    · obtain ⟨b, -, rfl⟩ := List.mem_map.mp h
      exact .inr (.inr rfl)

theorem rule_of_mem_typedefFindings {t : TypeDef} (h : f ∈ c.typedefFindings t) :
    f.rule = .type ∨ f.rule = .status := by
  unfold typedefFindings at h
  split at h
  · cases h
  · rcases List.mem_append.mp h with h | h
    · exact .inl (rule_eq_type h)
    · exact .inr (rule_of_mem_ite h)

end Comparison

end YangEvolution
