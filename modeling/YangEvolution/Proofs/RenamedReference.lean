import YangEvolution.Proofs.Retelling
import YangEvolution.Proofs.TextParts

/-!
References with other prefixes. The prefix of a reference is what stands before its first colon,
without the blanks before it; in a path each step has one. Main statement: a reference whose prefix
is replaced by one without colons and blanks is taken apart into the new prefix and the same local
name, and so are the steps of a path, if the new prefixes have no slashes either.
-/

namespace YangEvolution

open Text Yin

namespace Yin

/-! ### References -/

/-- A text with another prefix, where it has one. -/
def renameChars (rename : String → String) (cs : List Char) : List Char :=
  match cut [':'] (trimStartChars cs) with
  | none => cs
  | some (lead, rest) =>
    cs.takeWhile isBlank ++ (rename (String.ofList lead)).toList ++ ':' :: rest

def renameReference (rename : String → String) (given : String) : String :=
  String.ofList (renameChars rename given.toList)

/-- A prefix that can stand at the beginning of a reference. -/
structure IsPrefix (p : String) : Prop where
  colon : ':' ∉ p.toList
  begins : BeginsPlain p.toList

theorem splitReference_of_lead {given : String} {lead rest : List Char}
    (h : cut [':'] (trimStartChars given.toList) = some (lead, rest)) :
    splitReference given = (some (String.ofList lead), String.ofList (trimEndChars rest)) := by
  refine splitReference_of_cut ?_
  rw [trimChars, eq_append_of_cut h, List.append_assoc, List.singleton_append,
    trimEndChars_append (by decide), cut_append (not_mem_of_cut h)]

theorem splitReference_of_no_lead {given : String}
    (h : cut [':'] (trimStartChars given.toList) = none) :
    splitReference given = (none, trim given) := by
  refine splitReference_of_no_cut (cut_eq_none_iff.mpr fun hmem => ?_)
  refine cut_eq_none_iff.mp h ?_
  rw [trimChars, trimEndChars, List.mem_reverse] at hmem
  simpa using (List.dropWhile_sublist _).mem hmem

theorem isPrefix_of_splitReference {given p : String} (h : (splitReference given).1 = some p) :
    IsPrefix p ∧ ∀ x ∈ p.toList, x ∈ given.toList := by
  cases hcut : cut [':'] (trimStartChars given.toList) with
  | none =>
      rw [splitReference_of_no_lead hcut] at h
      cases h
  | some parts =>
      obtain ⟨lead, rest⟩ := parts
      rw [splitReference_of_lead hcut] at h
      cases h
      have hsplit : trimStartChars given.toList = lead ++ ([':'] ++ rest) := by
        rw [eq_append_of_cut hcut, List.append_assoc]
      have hbegins := beginsPlain_trimStartChars given.toList
      rw [hsplit] at hbegins
      refine ⟨⟨?_, ?_⟩, fun x hx => ?_⟩
      · simpa using not_mem_of_cut hcut
      · simpa using hbegins.append_left
      · have hmem : x ∈ trimStartChars given.toList := by
          rw [hsplit]
          exact List.mem_append_left _ (by simpa using hx)
        exact (List.dropWhile_sublist _).mem hmem

theorem splitReference_renameReference {rename : String → String} {given : String}
    (h : ∀ p, (splitReference given).1 = some p → IsPrefix (rename p)) :
    splitReference (renameReference rename given) =
      ((splitReference given).1.map rename, (splitReference given).2) := by
  cases hcut : cut [':'] (trimStartChars given.toList) with
  | none =>
      have hsame : renameReference rename given = given := by
        simp [renameReference, renameChars, hcut]
      rw [hsame, splitReference_of_no_lead hcut]
      rfl
  | some parts =>
      obtain ⟨lead, rest⟩ := parts
      have hsplit := splitReference_of_lead hcut
      have hnew := h (String.ofList lead) (by rw [hsplit])
      -- the blanks before a prefix are kept, and the new prefix begins with none
      have hstart : trimStartChars (renameReference rename given).toList =
          (rename (String.ofList lead)).toList ++ ':' :: rest := by
        simp only [renameReference, renameChars, hcut, String.toList_ofList, List.append_assoc]
        exact trimStartChars_append (fun x hx => List.mem_takeWhile_imp hx)
          (hnew.begins.append (by decide))
      rw [splitReference_of_lead (by rw [hstart, cut_append hnew.colon]), hsplit,
        String.ofList_toList]
      rfl

/-! ### Paths -/

def renamePath (rename : String → String) (path : String) : String :=
  String.ofList (['/'].intercalate ((pieces '/' path.toList).map (renameChars rename)))

theorem isEmpty_renameChars (rename : String → String) (cs : List Char) :
    (renameChars rename cs).isEmpty = cs.isEmpty := by
  cases cs with
  | nil => rfl
  | cons x cs =>
      rw [renameChars]
      split
      · rfl
      · simp

theorem slash_not_mem_renameChars {rename : String → String} {piece : List Char}
    (hpiece : '/' ∉ piece)
    (h : ∀ p, (splitReference (String.ofList piece)).1 = some p → '/' ∉ (rename p).toList) :
    '/' ∉ renameChars rename piece := by
  rw [renameChars]
  split
  · exact hpiece
  · rename_i lead rest hcut
    have hlead := h (String.ofList lead) (by
      rw [splitReference_of_lead (by rw [String.toList_ofList, hcut])])
    have hrest : '/' ∉ rest := by
      intro hmem
      refine hpiece ((List.dropWhile_sublist isBlank).mem ?_)
      rw [show piece.dropWhile isBlank = _ from eq_append_of_cut hcut]
      simp [hmem]
    have hblanks : '/' ∉ piece.takeWhile isBlank := fun hmem =>
      hpiece ((List.takeWhile_sublist isBlank).mem hmem)
    simp [hlead, hrest, hblanks]

theorem pathSteps_renamePath {rename : String → String} {path : String}
    (h : ∀ step ∈ pathSteps path, ∀ p, (splitReference step).1 = some p → '/' ∉ (rename p).toList) :
    pathSteps (renamePath rename path) = (pathSteps path).map (renameReference rename) := by
  have hpieces : pieces '/' (renamePath rename path).toList =
      (pieces '/' path.toList).map (renameChars rename) := by
    rw [renamePath, String.toList_ofList]
    refine pieces_intercalate (by simpa using pieces_ne_nil '/' path.toList) ?_
    intro part hpart
    obtain ⟨piece, hpiece, rfl⟩ := List.mem_map.mp hpart
    refine slash_not_mem_renameChars (not_mem_of_mem_pieces hpiece) fun p hp => ?_
    -- a piece with a prefix is not empty, and so it is a step
    refine h (String.ofList piece) (List.mem_map_of_mem (List.mem_filter.mpr ⟨hpiece, ?_⟩)) p hp
    cases piece with
    | nil => cases hp
    | cons => rfl
  have hstep : ∀ piece, String.ofList (renameChars rename piece) =
      renameReference rename (String.ofList piece) := fun piece => by
    rw [renameReference, String.toList_ofList]
  rw [pathSteps, hpieces, pathSteps, List.filter_map, List.map_map, List.map_map]
  simp only [Function.comp_def, isEmpty_renameChars, hstep]

end Yin

end YangEvolution
