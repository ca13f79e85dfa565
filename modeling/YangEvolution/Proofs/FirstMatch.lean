import Mathlib.Data.List.Forall2
import Mathlib.Data.List.Perm.Basic
import Mathlib.Data.Option.Defs

/-!
Look-ups by first match: what they find, said without searching; in lists whose elements are told by
keys, where the order does not matter; and in lists that are related element by element, where what
is found is related.
-/

namespace YangEvolution

variable {α β : Type}

/-- `x` is the first of a list with the property `p`. -/
def IsFirst (p : α → Prop) (l : List α) (x : α) : Prop :=
  p x ∧ ∃ before after, l = before ++ x :: after ∧ ∀ y ∈ before, ¬ p y

theorem IsFirst.mem {p : α → Prop} {l : List α} {x : α} (h : IsFirst p l x) : x ∈ l := by
  obtain ⟨-, before, after, rfl, -⟩ := h
  simp

theorem find?_key_eq_some_iff [BEq β] [LawfulBEq β] {key : α → β} {k : β} {l : List α} {x : α} :
    l.find? (fun y => key y == k) = some x ↔ IsFirst (fun y => key y = k) l x := by
  simp [List.find?_eq_some_iff_append, IsFirst]

theorem isFirst_of_lookup [BEq α] [LawfulBEq α] {l : List (α × β)} {k : α} {x : β}
    (h : l.lookup k = some x) : IsFirst (fun entry => entry.1 = k) l (k, x) := by
  induction l with
  | nil => cases h
  | cons entry rest ih =>
      obtain ⟨k', x'⟩ := entry
      cases hk : k == k' with
      | true =>
          obtain rfl := eq_of_beq hk
          rw [List.lookup_cons, hk] at h
          cases h
          exact ⟨rfl, [], rest, rfl, nofun⟩
      | false =>
          rw [List.lookup_cons, hk] at h
          obtain ⟨-, before, after, rfl, hbefore⟩ := ih h
          refine ⟨rfl, (k', x') :: before, after, rfl, List.forall_mem_cons.mpr ⟨?_, hbefore⟩⟩
          exact fun heq => beq_eq_false_iff_ne.mp hk heq.symm

/-- Where keys are different, the first element of a key is the one that has it. -/
theorem find?_key_of_mem [BEq β] [LawfulBEq β] {key : α → β} {l : List α} {x : α}
    (hnodup : (l.map key).Nodup) (hx : x ∈ l) : l.find? (fun y => key y == key x) = some x := by
  induction l with
  | nil => cases hx
  | cons y rest ih =>
      obtain ⟨hy, hrest⟩ := List.nodup_cons.mp hnodup
      rcases List.mem_cons.mp hx with rfl | hx
      · simp
      · have hne : (key y == key x) = false := by
          refine beq_eq_false_iff_ne.mpr fun h => hy ?_
          exact h ▸ List.mem_map_of_mem hx
        rw [List.find?_cons, hne]
        exact ih hrest hx

theorem isFirst_of_mem [BEq β] [LawfulBEq β] {key : α → β} {l : List α} {x : α}
    (hnodup : (l.map key).Nodup) (hx : x ∈ l) : IsFirst (fun y => key y = key x) l x :=
  find?_key_eq_some_iff.mp (find?_key_of_mem hnodup hx)

/-- Where keys are different, look-ups do not depend on the order. -/
theorem find?_key_of_perm [BEq β] [LawfulBEq β] {key : α → β} {l l' : List α} (h : l.Perm l')
    (hnodup : (l.map key).Nodup) (k : β) :
    l.find? (fun x => key x == k) = l'.find? (fun x => key x == k) := by
  have hnodup' : (l'.map key).Nodup := (h.map key).nodup_iff.mp hnodup
  cases hfind : l.find? fun x => key x == k with
  | none =>
      refine (List.find?_eq_none.mpr fun x hx => ?_).symm
      exact List.find?_eq_none.mp hfind x (h.mem_iff.mpr hx)
  | some x =>
      obtain rfl : key x = k := by simpa using List.find?_some hfind
      have hx : x ∈ l' := h.mem_iff.mp (List.mem_of_find?_eq_some hfind)
      exact (find?_key_of_mem hnodup' hx).symm

/-! ### Related results -/

theorem optionRel_refl {R : α → α → Prop} (h : ∀ x, R x x) (found : Option α) :
    Option.Rel R found found := by
  cases found with
  | none => exact .none
  | some x => exact .some (h x)

theorem optionRel_imp {R S : α → α → Prop} {found found' : Option α}
    (h : Option.Rel R found found') (hRS : ∀ x y, R x y → S x y) : Option.Rel S found found' := by
  cases h with
  | none => exact .none
  | some h => exact .some (hRS _ _ h)

theorem optionRel_map {R : α → α → Prop} {S : β → β → Prop} {f g : α → β} {found found' : Option α}
    (h : Option.Rel R found found') (hfg : ∀ x y, R x y → S (f x) (g y)) :
    Option.Rel S (found.map f) (found'.map g) := by
  cases h with
  | none => exact .none
  | some h => exact .some (hfg _ _ h)

theorem bind_eq_of_optionRel {R : α → α → Prop} {f : α → Option β}
    (hf : ∀ x y, R x y → f y = f x) {found found' : Option α} (h : Option.Rel R found found') :
    found'.bind f = found.bind f := by
  cases h with
  | none => rfl
  | some h => exact hf _ _ h

theorem isSome_eq_of_optionRel {R : α → α → Prop} {found found' : Option α}
    (h : Option.Rel R found found') : found'.isSome = found.isSome := by
  cases h with
  | none | some => rfl

theorem map_eq_of_forall₂ {f : α → β} {l l' : List α}
    (h : List.Forall₂ (fun x y => f y = f x) l l') : l'.map f = l.map f := by
  induction h with
  | nil => rfl
  | cons hxy _ ih => rw [List.map_cons, List.map_cons, hxy, ih]

theorem forall₂_of_map_eq {f : α → β} {l l' : List α} (h : l'.map f = l.map f) :
    List.Forall₂ (fun x y => f y = f x) l l' := by
  rw [← List.forall₂_eq_eq_eq, List.forall₂_map_left_iff, List.forall₂_map_right_iff] at h
  exact h.flip

theorem eq_map_of_forall₂ {f : α → β} {l : List α} {l' : List β}
    (h : List.Forall₂ (fun x y => y = f x) l l') : l' = l.map f := by
  induction h with
  | nil => rfl
  | cons hxy _ ih => rw [List.map_cons, hxy, ih]

theorem find?_of_forall₂ {R : α → α → Prop} {l l' : List α} {p : α → Bool}
    (h : List.Forall₂ R l l') (hp : ∀ x y, R x y → p y = p x) :
    Option.Rel R (l.find? p) (l'.find? p) := by
  induction h with
  | nil => exact .none
  | @cons x y rest rest' hxy _ ih =>
      cases hpx : p x with
      | true =>
          rw [List.find?_cons_of_pos hpx, List.find?_cons_of_pos ((hp x y hxy).trans hpx)]
          exact .some hxy
      | false =>
          have hpy : ¬ p y = true := by simp [hp x y hxy, hpx]
          rw [List.find?_cons_of_neg (by simp [hpx]), List.find?_cons_of_neg hpy]
          exact ih

theorem filter_of_forall₂ {R : α → α → Prop} {l l' : List α} {p : α → Bool}
    (h : List.Forall₂ R l l') (hp : ∀ x y, R x y → p y = p x) :
    List.Forall₂ R (l.filter p) (l'.filter p) := by
  refine List.rel_filter (fun x y hxy => ?_) h
  change p x = true ↔ p y = true
  rw [hp x y hxy]

end YangEvolution
