import YangEvolution.Proofs.CheckedRange

/-!
The run of a comparison against its findings. A part of the run adds the findings of its rules to
whatever catalog it starts from, one after the other, unless it meets ranges whose powers of ten
leave the word; then it ends the run. Main statement: a run comes to its end exactly when the ranges
of all pairs of nodes fit, and its catalog is empty exactly when the change is compatible.
-/

namespace YangEvolution

/-- On every catalog a check adds the findings in order if `fits` holds, and ends the run otherwise.
-/
structure Check.Emits (check : Check) (fits : Prop) (findings : List Finding) : Prop where
  adds : fits → ∀ catalog, check.run catalog = some ((), findings.foldl Catalog.add catalog)
  ends : ¬ fits → ∀ catalog, check.run catalog = none

namespace Check

variable {check next : Check} {fits fits' : Prop} {findings findings' : List Finding}

theorem Emits.congr (h : check.Emits fits findings) (hfits : fits' ↔ fits)
    (hfindings : findings' = findings) : check.Emits fits' findings' := by
  rw [hfindings]
  exact ⟨fun hf => h.adds (hfits.mp hf), fun hf => h.ends (mt hfits.mpr hf)⟩

theorem emits_pure : Emits (pure ()) True [] :=
  ⟨fun _ _ => rfl, fun h => absurd trivial h⟩

theorem emits_report (f : Finding) : (report f).Emits True [f] :=
  ⟨fun _ _ => rfl, fun h => absurd trivial h⟩

theorem Emits.bind (h : check.Emits fits findings) (hnext : next.Emits fits' findings') :
    Emits (do check; next) (fits ∧ fits') (findings ++ findings') where
  adds := by
    rintro ⟨hfits, hfits'⟩ catalog
    rw [StateT.run_bind, h.adds hfits, List.foldl_append]
    exact hnext.adds hfits' _
  ends := by
    intro hnot catalog
    rw [StateT.run_bind]
    by_cases hfits : fits
    · rw [h.adds hfits]
      exact hnext.ends (fun hfits' => hnot ⟨hfits, hfits'⟩) _
    · rw [h.ends hfits]
      rfl

/-- After a check that never ends the run. -/
theorem Emits.bind_left (h : check.Emits True findings) (hnext : next.Emits fits findings') :
    Emits (do check; next) fits (findings ++ findings') :=
  (h.bind hnext).congr (by simp) rfl

theorem emits_reportAll (findings : List Finding) : (reportAll findings).Emits True findings := by
  induction findings with
  | nil => exact emits_pure
  | cons f rest ih => exact (emits_report f).bind_left ih

theorem emits_reportAll? {answer : Option (List Finding)} (hfit : fits → answer = some findings)
    (hnot : ¬ fits → answer = none) : (reportAll? answer).Emits fits findings where
  adds h := by
    rw [hfit h]
    exact (emits_reportAll findings).adds trivial
  ends h := by
    rw [hnot h]
    exact fun _ => rfl

theorem Emits.since7950 (h : check.Emits True findings) (version : LanguageVersion) :
    (since7950 version check).Emits True (if version.is7950 then findings else []) := by
  unfold Check.since7950
  split
  · exact h
  · exact emits_pure

theorem emits_forM {α : Type} {check : α → Check} {fits : α → Prop}
    {findings : α → List Finding} {l : List α}
    (h : ∀ x ∈ l, (check x).Emits (fits x) (findings x)) :
    Emits (l.forM check) (∀ x ∈ l, fits x) (l.flatMap findings) := by
  induction l with
  | nil => exact emits_pure.congr (by simp) rfl
  | cons x rest ih =>
      obtain ⟨hx, hrest⟩ := List.forall_mem_cons.mp h
      exact (hx.bind (ih hrest)).congr List.forall_mem_cons List.flatMap_cons

theorem forM_congr {α : Type} {check check' : α → Check} {l : List α}
    (h : ∀ x ∈ l, check x = check' x) : l.forM check = l.forM check' := by
  induction l with
  | nil => rfl
  | cons x rest ih =>
      obtain ⟨hx, hrest⟩ := List.forall_mem_cons.mp h
      change (check x >>= fun _ => rest.forM check) = (check' x >>= fun _ => rest.forM check')
      rw [hx, ih hrest]

end Check

namespace Compatibility

open Check

variable {version : LanguageVersion} {p : Position}

theorem emits_checkType (old new : TypeDef) :
    (checkType version p old new).Emits (old.builtinName = new.builtinName → RangesFit old new)
      (typeFindings version p old new) := by
  have hrange : (reportAll? (rangeFindings? p old new)).Emits (RangesFit old new)
      (rangeFindings p old new) :=
    emits_reportAll? rangeFindings?_of_fit rangeFindings?_of_not_fit
  have hrest := (emits_reportAll (enumFindings p old new)).bind_left
    ((emits_reportAll (bitFindings p old new)).bind_left
      (emits_reportAll (patternFindings p old new)))
  unfold checkType typeFindings
  split
  · rename_i hbuiltin
    refine ((emits_reportAll _).bind_left ((emits_reportAll _).bind_left
      ((emits_reportAll _).bind_left (((emits_reportAll _).since7950 version).bind_left
        ((emits_reportAll _).bind_left (hrange.bind hrest)))))).congr ?_ ?_
    · simp [hbuiltin]
    · simp only [List.append_assoc]
  · rename_i hbuiltin
    exact (emits_reportAll _).congr (by simp [hbuiltin]) rfl

end Compatibility

namespace Comparison

open Compatibility Check SchemaNode

/-- The ranges of the types of a pair fit, if the two are of the same built-in type. -/
def NodePair.RangesFit (q : NodePair) : Prop :=
  ∀ s t name, q.old.type = some s → q.new.type = some t → s.IsRootedIn name → t.IsRootedIn name →
    Compatibility.RangesFit s t

/-- The ranges of all pairs fit. -/
def RangesFit (c : Comparison) : Prop :=
  ∀ q ∈ c.nodePairs, q.RangesFit

variable {c : Comparison}

theorem emits_checkNode (version : LanguageVersion) (p : Position) (old new : NodeData) :
    (checkNode version p old new).Emits (NodePair.RangesFit ⟨p, old, new⟩)
      (nodeFindings version p old new) := by
  have htype : (checkNodeType version p old.type new.type).Emits
      (NodePair.RangesFit ⟨p, old, new⟩) (nodeTypeFindings version p old.type new.type) := by
    unfold checkNodeType nodeTypeFindings
    cases hs : old.type with
    | none => exact emits_pure.congr (iff_of_true (by simp [NodePair.RangesFit, hs]) trivial) rfl
    | some s =>
        cases ht : new.type with
        | none =>
            exact emits_pure.congr (iff_of_true (by simp [NodePair.RangesFit, ht]) trivial) rfl
        | some t =>
            refine (emits_checkType s t).congr ⟨fun h hbuiltin => ?_, fun h => ?_⟩ rfl
            · exact h s t _ hs ht (TypeDef.isRootedIn_iff.mpr hbuiltin)
                (TypeDef.isRootedIn_iff.mpr rfl)
            · intro s' t' name hs' ht' hroot hroot'
              cases hs.symm.trans hs'
              cases ht.symm.trans ht'
              rw [TypeDef.isRootedIn_iff] at hroot hroot'
              exact h (hroot.trans hroot'.symm)
  refine ((emits_reportAll _).bind_left ((emits_reportAll _).bind_left
    (((emits_reportAll _).since7950 version).bind_left ((emits_reportAll _).bind_left
      ((emits_reportAll _).bind_left ((emits_reportAll _).bind_left
        ((emits_reportAll _).bind_left ((emits_reportAll _).bind_left htype)))))))).congr
      Iff.rfl ?_
  simp only [nodeFindings, List.append_assoc]

/-! ### Walks -/

theorem walkNestedAll_eq_forM (siblings : List SchemaNode) (parent : Position)
    (nodes : List SchemaNode) :
    c.walkNestedAll siblings parent nodes = nodes.forM (c.walkNested siblings parent) := by
  induction nodes with
  | nil => rw [walkNestedAll]; rfl
  | cons n rest ih => rw [walkNestedAll, ih]; rfl

theorem walkDataAll_eq_forM (parent : Position) (nodes : List SchemaNode) :
    c.walkDataAll parent nodes = nodes.forM (c.walkData parent) := by
  induction nodes with
  | nil => rw [walkDataAll]; rfl
  | cons n rest ih => rw [walkDataAll, ih]; rfl

theorem forall_mem_pairsAmong_iff {siblings nodes : List SchemaNode} {parent : Position}
    {P : NodePair → Prop} :
    (∀ q ∈ c.pairsAmong siblings parent nodes, P q) ↔
      ∀ n ∈ nodes, ∀ q ∈ n.entries.filterMap (c.pair? siblings parent), P q := by
  rw [pairsAmong, entriesAll_eq_flatMap, List.filterMap_flatMap]
  simp only [List.mem_flatMap]
  constructor
  · intro h n hn q hq
    exact h q ⟨n, hn, hq⟩
  · rintro h q ⟨n, hn, hq⟩
    exact h n hn q hq

/-- The walk from a node on emits what there is to find on its tree, if the ranges of the pairs fit
on the way. -/
theorem emits_walkNested (siblings : List SchemaNode) (parent : Position) (n : SchemaNode) :
    (c.walkNested siblings parent n).Emits
      (∀ q ∈ n.entries.filterMap (c.pair? siblings parent), q.RangesFit)
      (c.nested siblings parent n) := by
  induction n using treeInduction generalizing siblings parent with
  | node data children ih =>
      rw [walkNested, nested, filterMap_pair?_entries]
      cases find? siblings data.qname.localName with
      | none => exact (emits_report _).congr (by simp) rfl
      | some new =>
          have hchildren := emits_forM fun n hn =>
            ih n hn new.children (c.enter parent data.qname.localName)
          rw [← walkNestedAll_eq_forM, ← nestedAll_eq_flatMap,
            ← forall_mem_pairsAmong_iff] at hchildren
          exact ((emits_checkNode c.version _ data new.data).bind hchildren).congr
            List.forall_mem_cons rfl

theorem emits_walkNestedAll (siblings : List SchemaNode) (parent : Position)
    (nodes : List SchemaNode) :
    (c.walkNestedAll siblings parent nodes).Emits
      (∀ q ∈ c.pairsAmong siblings parent nodes, q.RangesFit)
      (c.nestedAll siblings parent nodes) := by
  rw [walkNestedAll_eq_forM, nestedAll_eq_flatMap, forall_mem_pairsAmong_iff]
  exact emits_forM fun n _ => emits_walkNested siblings parent n

/-- As for the findings, a data node is looked up among the children of its parent's counterpart. -/
theorem walkData_eq_walkNested {siblings : List SchemaNode} {parent : Position}
    (h : ∀ names, names ≠ [] →
      reach? c.new.children (parent.new.localNames ++ names) = reach? siblings names)
    (n : SchemaNode) : c.walkData parent n = c.walkNested siblings parent n := by
  induction n using treeInduction generalizing siblings parent with
  | node data children ih =>
      rw [walkData, walkNested, findNode?_enter h]
      cases hnew : find? siblings data.qname.localName with
      | none => rfl
      | some new =>
          have hchildren : children.forM (c.walkData (c.enter parent data.qname.localName)) =
              children.forM (c.walkNested new.children (c.enter parent data.qname.localName)) :=
            forM_congr fun n hn => ih n hn (reach?_enter h hnew)
          simp only [walkDataAll_eq_forM, walkNestedAll_eq_forM, hchildren]

theorem emits_walkDataAll (nodes : List SchemaNode) :
    (c.walkDataAll .root nodes).Emits
      (∀ q ∈ c.pairsAmong c.new.children .root nodes, q.RangesFit) (c.dataNodes .root nodes) := by
  have hwalk : c.walkDataAll .root nodes = c.walkNestedAll c.new.children .root nodes := by
    rw [walkDataAll_eq_forM, walkNestedAll_eq_forM]
    exact forM_congr fun n _ => walkData_eq_walkNested (fun _ _ => rfl) n
  rw [hwalk, dataNodes_eq_nestedAll]
  exact emits_walkNestedAll _ _ _

theorem emits_walkOperations (operations nodes : List SchemaNode) :
    Emits (nodes.forM (c.walkOperation (find? operations)))
      (∀ q ∈ c.pairsAmong operations .root nodes, q.RangesFit)
      (nodes.flatMap (c.operationFindings (find? operations))) := by
  have hwalk : nodes.forM (c.walkOperation (find? operations)) =
      c.walkNestedAll operations .root nodes := by
    rw [walkNestedAll_eq_forM]
    refine forM_congr fun n _ => ?_
    obtain ⟨data, children⟩ := n
    rw [walkNested]
    rfl
  rw [hwalk, flatMap_operationFindings]
  exact emits_walkNestedAll _ _ _

theorem emits_walkAugmentation (c : Comparison) (a : Augmentation) :
    (c.walkAugmentation a).Emits (∀ q ∈ c.augmentationPairs a, q.RangesFit)
      (c.augmentationFindings a) := by
  unfold walkAugmentation augmentationPairs augmentationFindings
  cases c.new.findAugmentation? a.target with
  | none => exact (emits_report _).congr (by simp) rfl
  | some b => exact emits_walkNestedAll _ _ _

/-- The run adds the findings one by one, and comes to its end if the ranges fit. -/
theorem emits_walk (c : Comparison) : c.walk.Emits c.RangesFit c.findings := by
  have hall : ∀ {α : Type} (l : List α) (findings : α → List Finding),
      Emits (l.forM fun x => reportAll (findings x)) True (l.flatMap findings) := by
    intro α l findings
    exact (emits_forM fun x _ => emits_reportAll (findings x)).congr (by simp) rfl
  have haugmentations := emits_forM fun a (_ : a ∈ c.old.augmentations) =>
    c.emits_walkAugmentation a
  have hrpcs : Emits (c.old.rpcs.forM (c.walkOperation c.new.findRpc?)) _ _ :=
    emits_walkOperations c.new.rpcs c.old.rpcs
  have hnotifications :
      Emits (c.old.notifications.forM (c.walkOperation c.new.findNotification?)) _ _ :=
    emits_walkOperations c.new.notifications c.old.notifications
  refine ((emits_reportAll _).bind_left ((emits_reportAll _).bind_left
    ((emits_reportAll _).bind_left (((hall _ _).since7950 c.version).bind_left
      ((emits_walkDataAll _).bind (hrpcs.bind (hnotifications.bind
        (haugmentations.bind (hall _ _))))))))).congr ?_ ?_
  · rw [RangesFit, nodePairs]
    simp only [List.forall_mem_append, List.forall_mem_flatMap, and_assoc, and_true]
  · simp only [findings, List.append_assoc]
    rfl

theorem validate?_of_fit (h : c.RangesFit) : c.validate? = some c.catalog := by
  rw [validate?, c.emits_walk.adds h]
  rfl

theorem validate?_of_not_fit (h : ¬ c.RangesFit) : c.validate? = none := by
  rw [validate?, c.emits_walk.ends h]
  rfl

/-- The run of a comparison comes to its end exactly when no power of ten leaves the word on the
way, and then there are no findings exactly when the change is compatible. -/
theorem verdict_exact (c : Comparison) :
    (c.RangesFit → c.validate? = some c.catalog ∧ (c.catalog.findings = [] ↔ c.Compatible)) ∧
      (¬ c.RangesFit → c.validate? = none) := by
  have hempty : c.catalog.findings = [] ↔ c.Compatible := by
    rw [← isEmpty_catalog_iff, Catalog.isEmpty, List.isEmpty_iff]
  exact ⟨fun h => ⟨validate?_of_fit h, hempty⟩, validate?_of_not_fit⟩

/-- A module with fares and names, which have the given restrictions. -/
def tariff (revision : Revision) (fares : RangeRestriction) (lengths : Option LengthRestriction) :
    Module where
  name := "tariff"
  uri := "urn:tariff"
  nsPrefix := "t"
  revision := some revision
  children := [
    ⟨{ kind := .leaf, qname := ⟨"urn:tariff", none, "fare"⟩,
       type := some { TypeDef.ofBuiltin .decimal64 with facets := .numeric (some fares) } }, []⟩,
    ⟨{ kind := .leaf, qname := ⟨"urn:tariff", none, "name"⟩,
       type := some { TypeDef.ofBuiltin .string with facets := .string lengths [] } }, []⟩]

/-- A change of fares from 0.50 to 9.99 and of names of any length. -/
def tariffChange (fares : RangeRestriction) (lengths : Option LengthRestriction) : Comparison where
  old := tariff ⟨2020, 4, 9, by decide, by decide⟩ ⟨[⟨50, 299⟩, ⟨300, 999⟩], 2⟩
    (some ⟨[⟨8, 18446744073709551615⟩, ⟨0, 7⟩]⟩)
  new := tariff ⟨2021, 4, 9, by decide, by decide⟩ fares lengths
  version := .rfc7950

/-- Wider fares in smaller units, fares with a gap, and fares in units that are too small to
compare. -/
theorem verdict_exact_tariff :
    (tariffChange ⟨[⟨0, 20000⟩], 3⟩ none).Compatible ∧
      ¬ (tariffChange ⟨[⟨500, 2990⟩, ⟨3010, 9990⟩], 3⟩ (some ⟨[⟨0, 40⟩]⟩)).Compatible ∧
      (tariffChange ⟨[⟨500, 2990⟩, ⟨3010, 9990⟩], 3⟩ (some ⟨[⟨0, 40⟩]⟩)).catalog.findings =
        [⟨.range, "[0.500..2.990 | 3.010..9.990] [/tariff:fare]",
            "[0.50..2.99 | 3.00..9.99] [/tariff:fare]"⟩,
          ⟨.length, "[0..40] [/tariff:name]",
            "[8..18446744073709551615 | 0..7] [/tariff:name]"⟩] ∧
      ¬ (tariffChange ⟨[⟨0, 20000⟩], 41⟩ none).RangesFit := by
  have hfits : ∀ c : Comparison, c.validate?.isSome = true → c.RangesFit := by
    intro c hrun
    refine Classical.byContradiction fun hnot => ?_
    rw [(verdict_exact c).2 hnot] at hrun
    cases hrun
  refine ⟨?_, ?_, by decide +kernel, ?_⟩
  · exact ((verdict_exact _).1 (hfits _ (by decide +kernel))).2.mp (by decide +kernel)
  · intro hcompatible
    have hnone := ((verdict_exact _).1 (hfits _ (by decide +kernel))).2.mpr hcompatible
    revert hnone
    decide +kernel
  · intro hfit
    have hrun := ((verdict_exact _).1 hfit).1
    have hnone : (tariffChange ⟨[⟨0, 20000⟩], 41⟩ none).validate?.isSome = false := by
      decide +kernel
    rw [hrun] at hnone
    cases hnone

end Comparison

end YangEvolution
