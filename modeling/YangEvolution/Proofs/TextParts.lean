import Mathlib.Data.List.TakeWhile
import YangEvolution.Text.Blank
import YangEvolution.Text.Split

/-!
Texts and their parts: where a text is cut, what is left of it without the blanks around it, and the
pieces between the occurrences of a character. Main statement: a text has given pieces exactly when
it is these, none of which has the character, with the character between them.
-/

namespace YangEvolution.Text

variable {c : Char} {cs lead rest : List Char}

theorem cut_eq_none_iff : cut [c] cs = none ↔ c ∉ cs := by
  induction cs with
  | nil => simp [cut]
  | cons x cs ih =>
      by_cases hx : c = x
      · simp [cut, hx]
      · simp [cut, hx, ih]

theorem cut_append (h : c ∉ lead) : cut [c] (lead ++ c :: rest) = some (lead, rest) := by
  induction lead with
  | nil => simp [cut]
  | cons x lead ih =>
      have hx : c ≠ x := fun heq => h (heq ▸ List.mem_cons_self)
      simp [cut, hx, ih fun hmem => h (List.mem_cons_of_mem _ hmem)]

/-- What has no character that a separator begins with does not hold it. -/
theorem cut_append_left {sep : List Char} (h : c ∉ lead) :
    cut (c :: sep) (lead ++ rest) = (cut (c :: sep) rest).map fun q => (lead ++ q.1, q.2) := by
  induction lead with
  | nil => simp
  | cons x lead ih =>
      have hx : c ≠ x := fun heq => h (heq ▸ List.mem_cons_self)
      rw [List.cons_append, cut, ih fun hmem => h (List.mem_cons_of_mem _ hmem)]
      simp [hx, Function.comp_def]

theorem not_mem_of_cut (h : cut [c] cs = some (lead, rest)) : c ∉ lead := by
  induction cs generalizing lead with
  | nil => simp [cut] at h
  | cons x cs ih =>
      by_cases hx : c = x
      · simp [cut, hx] at h
        simp [h.1]
      · simp only [cut, List.isPrefixOf, Bool.and_true, beq_iff_eq, hx, if_false] at h
        obtain ⟨⟨lead', rest'⟩, hcut, heq⟩ := Option.map_eq_some_iff.mp h
        obtain ⟨rfl, rfl⟩ := Prod.mk.inj heq
        simp [hx, ih hcut]

theorem after?_eq_some_iff : after? lead cs = some rest ↔ cs = lead ++ rest := by
  unfold after?
  split
  · rename_i h
    obtain ⟨tail, rfl⟩ := List.isPrefixOf_iff_prefix.mp h
    simp
  · rename_i h
    constructor
    · intro hnone
      cases hnone
    · rintro rfl
      exact absurd (List.isPrefixOf_iff_prefix.mpr (List.prefix_append lead rest)) h

theorem before?_eq_some_iff {tail : List Char} :
    before? tail cs = some lead ↔ cs = lead ++ tail := by
  unfold before?
  split
  · rename_i h
    obtain ⟨front, rfl⟩ := List.isSuffixOf_iff_suffix.mp h
    simp
  · rename_i h
    constructor
    · intro hnone
      cases hnone
    · rintro rfl
      exact absurd (List.isSuffixOf_iff_suffix.mpr (List.suffix_append lead tail)) h

theorem trimEndChars_append (hc : isBlank c = false) :
    trimEndChars (lead ++ c :: rest) = lead ++ c :: trimEndChars rest := by
  have hrest : (rest.reverse ++ c :: lead.reverse).dropWhile isBlank =
      rest.reverse.dropWhile isBlank ++ c :: lead.reverse := by
    induction rest.reverse with
    | nil => simp [hc]
    | cons x xs ih =>
        cases hx : isBlank x with
        | true => simpa [hx] using ih
        | false => simp [hx]
  simp [trimEndChars, hrest]

theorem eq_blanks_append_trimStartChars (cs : List Char) :
    ∃ lead, (∀ c ∈ lead, isBlank c = true) ∧ cs = lead ++ trimStartChars cs :=
  ⟨cs.takeWhile isBlank, fun _ hc => List.mem_takeWhile_imp hc,
    (List.takeWhile_append_dropWhile (p := isBlank)).symm⟩

/-- Text that does not begin with a blank. -/
def BeginsPlain (cs : List Char) : Prop :=
  ∀ x, cs.head? = some x → isBlank x = false

theorem beginsPlain_trimStartChars (cs : List Char) : BeginsPlain (trimStartChars cs) := by
  induction cs with
  | nil => simp [BeginsPlain]
  | cons y cs ih =>
      cases hy : isBlank y with
      | true => simpa [trimStartChars, hy] using ih
      | false => simp [trimStartChars, hy, BeginsPlain]

theorem BeginsPlain.append_left (h : BeginsPlain (lead ++ rest)) : BeginsPlain lead := by
  intro x hx
  refine h x ?_
  rw [List.head?_append, hx]
  rfl

theorem BeginsPlain.append (h : BeginsPlain lead) (hc : isBlank c = false) :
    BeginsPlain (lead ++ c :: rest) := by
  cases lead with
  | nil => simpa [BeginsPlain] using hc
  | cons x lead => simpa [BeginsPlain] using h x rfl

theorem trimStartChars_append {blanks : List Char} (hblanks : ∀ x ∈ blanks, isBlank x = true)
    (h : BeginsPlain cs) : trimStartChars (blanks ++ cs) = cs := by
  rw [trimStartChars, List.dropWhile_append_of_pos hblanks]
  cases cs with
  | nil => rfl
  | cons x cs => simp [h x rfl]

theorem trimChars_padded {blanks blanks' : List Char} (hblanks : ∀ x ∈ blanks, isBlank x = true)
    (hblanks' : ∀ x ∈ blanks', isBlank x = true) (hne : cs ≠ [])
    (h : ∀ x ∈ cs, isBlank x = false) : trimChars (blanks ++ (cs ++ blanks')) = cs := by
  have hbegins : ∀ {text : List Char}, (∀ x ∈ text, isBlank x = false) → BeginsPlain text :=
    fun htext x hx => htext x (List.mem_of_mem_head? hx)
  have hstart : BeginsPlain (cs ++ blanks') := by
    obtain ⟨x, cs, rfl⟩ := List.exists_cons_of_ne_nil hne
    simpa [BeginsPlain] using h x List.mem_cons_self
  have hend : trimStartChars (blanks'.reverse ++ cs.reverse) = cs.reverse :=
    trimStartChars_append (by simpa using hblanks') (hbegins (by simpa using h))
  rw [trimChars, trimStartChars_append hblanks hstart, trimEndChars, List.reverse_append,
    ← trimStartChars, hend, List.reverse_reverse]

theorem piecesFrom_of_not_mem (h : c ∉ cs) (piece : List Char) :
    piecesFrom c piece cs = [piece.reverse ++ cs] := by
  induction cs generalizing piece with
  | nil => simp [piecesFrom]
  | cons x cs ih =>
      have hx : x ≠ c := fun heq => h (heq ▸ List.mem_cons_self)
      rw [piecesFrom, if_neg hx, ih fun hmem => h (List.mem_cons_of_mem _ hmem)]
      simp

theorem piecesFrom_append (h : c ∉ cs) (piece : List Char) :
    piecesFrom c piece (cs ++ c :: rest) = (piece.reverse ++ cs) :: pieces c rest := by
  induction cs generalizing piece with
  | nil => simp [piecesFrom, pieces]
  | cons x cs ih =>
      have hx : x ≠ c := fun heq => h (heq ▸ List.mem_cons_self)
      rw [List.cons_append, piecesFrom, if_neg hx, ih fun hmem => h (List.mem_cons_of_mem _ hmem)]
      simp

theorem pieces_intercalate {parts : List (List Char)} (hne : parts ≠ [])
    (h : ∀ part ∈ parts, c ∉ part) : pieces c ([c].intercalate parts) = parts := by
  induction parts with
  | nil => exact absurd rfl hne
  | cons part parts ih =>
      have hpart := h part List.mem_cons_self
      cases parts with
      | nil => simpa [pieces] using piecesFrom_of_not_mem hpart []
      | cons next parts =>
          have hrest := ih (List.cons_ne_nil _ _) fun q hq => h q (List.mem_cons_of_mem _ hq)
          rw [List.intercalate_cons_cons, List.append_assoc, List.singleton_append, pieces,
            piecesFrom_append hpart, hrest]
          rfl

theorem not_mem_of_mem_piecesFrom {piece part : List Char} (hpiece : c ∉ piece)
    (h : part ∈ piecesFrom c piece cs) : c ∉ part := by
  induction cs generalizing piece with
  | nil =>
      rw [piecesFrom, List.mem_singleton] at h
      simpa [h] using hpiece
  | cons x cs ih =>
      rw [piecesFrom] at h
      split at h
      · rcases List.mem_cons.mp h with rfl | h
        · simpa using hpiece
        · exact ih List.not_mem_nil h
      · rename_i hx
        refine ih ?_ h
        simp [hpiece, Ne.symm hx]

theorem not_mem_of_mem_pieces {part : List Char} (h : part ∈ pieces c cs) : c ∉ part :=
  not_mem_of_mem_piecesFrom List.not_mem_nil h

theorem intercalate_piecesFrom (c : Char) (piece cs : List Char) :
    [c].intercalate (piecesFrom c piece cs) = piece.reverse ++ cs := by
  induction cs generalizing piece with
  | nil => simp [piecesFrom]
  | cons x cs ih =>
      rw [piecesFrom]
      split
      · rename_i hx
        obtain ⟨next, others, hrest⟩ := List.exists_cons_of_ne_nil (piecesFrom_ne_nil c [] cs)
        have hcs := ih []
        rw [hrest] at hcs ⊢
        rw [List.intercalate_cons_cons, hcs, hx]
        simp
      · rw [ih]
        simp

theorem pieces_eq_iff {parts : List (List Char)} :
    pieces c cs = parts ↔
      parts ≠ [] ∧ (∀ part ∈ parts, c ∉ part) ∧ cs = [c].intercalate parts := by
  constructor
  · rintro rfl
    refine ⟨pieces_ne_nil c cs, fun part hpart => not_mem_of_mem_pieces hpart, ?_⟩
    exact (intercalate_piecesFrom c [] cs).symm
  · rintro ⟨hne, hparts, rfl⟩
    exact pieces_intercalate hne hparts

end YangEvolution.Text
