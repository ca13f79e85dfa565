import Mathlib.Data.List.Induction
import Mathlib.Data.List.Zip
import YangEvolution.Proofs.Counterparts
import YangEvolution.Proofs.TreeWalks

/-!
Catalogs as runs of additions. Main statement: after any run of additions, a catalog lists the first
occurrences of what was added, in order and numbered from one; it has seen what it lists; and an
addition is answered by whether the finding is a new one. The catalog of a comparison comes from
such a run over what there is to say on the module itself, on its identities, on its trees in
pre-order and on its type definitions.
-/

namespace YangEvolution

namespace Catalog

/-! ### Runs of additions -/

theorem ofList_concat (emitted : List Finding) (f : Finding) :
    ofList (emitted ++ [f]) = (ofList emitted).add f :=
  List.foldl_concat add empty f emitted

/-- A run of additions leaves the first occurrences. -/
theorem findings_ofList (emitted : List Finding) :
    (ofList emitted).findings = emitted.eraseDups := by
  induction emitted using List.reverseRecOn with
  | nil => rfl
  | append_singleton emitted f ih =>
      rw [ofList_concat, List.eraseDups_append]
      by_cases h : f ∈ emitted
      · rw [findings_add_of_mem (mem_ofList.mpr h), ih]
        simp [List.removeAll, h]
      · rw [findings_add_of_not_mem (mt mem_ofList.mp h), ih]
        simp [List.removeAll, h, List.eraseDups_cons]

theorem record_ofList (before : List Finding) (f : Finding) :
    ((ofList before).record f).1 = true ↔ f ∉ before := by
  rw [fst_record, Bool.not_eq_true', ← Bool.not_eq_true, seen_iff, mem_ofList]

/-! ### What a catalog tells -/

theorem numbered_eq_zip (c : Catalog) :
    c.numbered = (List.range' 1 c.size).zip c.findings := by
  rw [numbered, List.zipIdx_eq_zip_range', size]
  exact List.zip_swap _ _

theorem errorCount_add_warningCount (c : Catalog) :
    c.errorCount + c.warningCount = c.size := by
  have hwarning : ∀ f ∈ c.findings,
      (f.severity == .warning) = true ↔ decide (¬(f.severity == .error) = true) = true := by
    intro f _
    cases f.severity <;> decide
  rw [size, List.length_eq_countP_add_countP fun f : Finding => f.severity == .error,
    ← List.countP_congr hwarning]
  rfl

/-- The catalog lists the first occurrences in a run of additions, has seen what it lists, and
numbers and counts its list. -/
structure ListsFirst (c : Catalog) (emitted : List Finding) : Prop where
  findings : c.findings = emitted.eraseDups
  seen : ∀ f, c.seen f = true ↔ f ∈ c.findings
  numbered : c.numbered = (List.range' 1 c.size).zip c.findings
  severities : c.errorCount + c.warningCount = c.size

theorem listsFirst_ofList (emitted : List Finding) : (ofList emitted).ListsFirst emitted where
  findings := findings_ofList emitted
  seen := (ofList emitted).seen_iff
  numbered := (ofList emitted).numbered_eq_zip
  severities := (ofList emitted).errorCount_add_warningCount

end Catalog

namespace Comparison

variable {c : Comparison}

/-! ### What the rules emit -/

def augmentationListing (c : Comparison) (a : Augmentation) : List Finding :=
  match c.new.findAugmentation? a.target with
  | none => [⟨.missingNode, "missing", "augment [" ++ a.target.text ++ "]"⟩]
  | some b => c.preorder b.children ⟨a.target, b.target⟩ a.children

/-- What there is to say on two modules, with all trees in pre-order. -/
def listing (c : Comparison) : List Finding :=
  c.headerFindings ++ c.revisionFindings ++ c.historyFindings ++
    (if c.version.is7950 then c.old.identities.flatMap c.identityFindings else []) ++
    c.preorder c.new.children .root c.old.children ++
    c.preorder c.new.rpcs .root c.old.rpcs ++
    c.preorder c.new.notifications .root c.old.notifications ++
    c.old.augmentations.flatMap c.augmentationListing ++
    c.old.typedefs.flatMap c.typedefFindings

theorem augmentationFindings_eq_listing : c.augmentationFindings = c.augmentationListing := by
  funext a
  rw [augmentationFindings, augmentationListing]
  cases c.new.findAugmentation? a.target with
  | none => rfl
  | some b => exact nestedAll_eq_preorder b.children ⟨a.target, b.target⟩ a.children

theorem findings_eq_listing (c : Comparison) : c.findings = c.listing := by
  simp only [findings_eq_walks, listing, nestedAll_eq_preorder, augmentationFindings_eq_listing]

/-- A catalog is what a run of additions leaves of the findings that it is given, and that of a
comparison is given the listing of its two modules. -/
theorem catalog_lists_first_occurrences :
    (∀ emitted : List Finding, (Catalog.ofList emitted).ListsFirst emitted) ∧
      (∀ (before : List Finding) (f : Finding),
        ((Catalog.ofList before).record f).1 = true ↔ f ∉ before) ∧
      ∀ c : Comparison, c.catalog = .ofList c.listing ∧ c.catalog.ListsFirst c.listing := by
  refine ⟨Catalog.listsFirst_ofList, Catalog.record_ofList, fun c => ?_⟩
  rw [catalog, findings_eq_listing]
  exact ⟨rfl, Catalog.listsFirst_ofList c.listing⟩

end Comparison

end YangEvolution
