import Mathlib.Data.List.Forall2
import YangEvolution.Outcome.Except

/-!
Outcomes that agree: two sequences of steps either both give results, which are related, or both
stop at a fault. Where agreement is strict the faults are the same, too. Main statements: steps that
agree one after the other agree as a whole, in sequence, over lists, and in the gathering of what is
found in a list whose order matters only within classes.
-/

namespace YangEvolution.Outcome

variable {ε α β γ δ : Type} {strict : Prop}

inductive Agree (strict : Prop) (Q : α → β → Prop) : Except ε α → Except ε β → Prop where
  | ok {a : α} {b : β} : Q a b → Agree strict Q (.ok a) (.ok b)
  | error {f g : ε} : (strict → g = f) → Agree strict Q (.error f) (.error g)

namespace Agree

variable {Q : α → β → Prop} {Q' : γ → δ → Prop} {x : Except ε α} {y : Except ε β}

theorem refl (x : Except ε α) : Agree strict Eq x x := by
  cases x with
  | ok a => exact .ok rfl
  | error f => exact .error fun _ => rfl

theorem of_eq {x y : Except ε α} (h : y = x) : Agree strict Eq x y :=
  h ▸ refl y

theorem imp {R : α → β → Prop} (h : Agree strict Q x y) (hQ : ∀ a b, Q a b → R a b) :
    Agree strict R x y := by
  cases h with
  | ok hab => exact .ok (hQ _ _ hab)
  | error hfg => exact .error hfg

theorem bind {f : α → Except ε γ} {g : β → Except ε δ} (h : Agree strict Q x y)
    (hfg : ∀ a b, Q a b → Agree strict Q' (f a) (g b)) :
    Agree strict Q' (x >>= f) (y >>= g) := by
  cases h with
  | ok hab => exact hfg _ _ hab
  | error hfault => exact .error hfault

theorem map {f : α → γ} {g : β → δ} (h : Agree strict Q x y)
    (hfg : ∀ a b, Q a b → Q' (f a) (g b)) : Agree strict Q' (f <$> x) (g <$> y) := by
  cases h with
  | ok hab => exact .ok (hfg _ _ hab)
  | error hfault => exact .error hfault

/-- A sequence whose first steps have equal results. -/
theorem bind_eq {x y : Except ε α} {f : α → Except ε γ} {g : α → Except ε δ}
    (h : Agree strict Eq x y) (hfg : ∀ a, Agree strict Q' (f a) (g a)) :
    Agree strict Q' (x >>= f) (y >>= g) := by
  refine h.bind ?_
  rintro a _ rfl
  exact hfg a

theorem map_eq {x y : Except ε α} (h : Agree strict Eq x y) (f : α → γ) :
    Agree strict Eq (f <$> x) (f <$> y) :=
  h.map fun _ _ => congrArg f

theorem symm {x y : Except ε α} (h : Agree strict Eq x y) : Agree strict Eq y x := by
  cases h with
  | ok hab => exact .ok hab.symm
  | error hfg => exact .error fun hstrict => (hfg hstrict).symm

theorem eq_of_strict {x y : Except ε α} (h : Agree strict Eq x y) (hstrict : strict) : y = x := by
  cases h with
  | ok hab => rw [hab]
  | error hfg => rw [hfg hstrict]

/-- Results on one side are results on the other. -/
theorem exists_of_eq_ok (h : Agree strict Q x y) {a : α} (hx : x = .ok a) :
    ∃ b, y = .ok b ∧ Q a b := by
  cases h with
  | ok hab =>
      cases hx
      exact ⟨_, rfl, hab⟩
  | error => cases hx

theorem exists_of_eq_ok_right (h : Agree strict Q x y) {b : β} (hy : y = .ok b) :
    ∃ a, x = .ok a ∧ Q a b := by
  cases h with
  | ok hab =>
      cases hy
      exact ⟨_, rfl, hab⟩
  | error => cases hy

theorem eq_ok {x y : Except ε α} (h : Agree strict Eq x y) {a : α} (hx : x = .ok a) :
    y = .ok a := by
  obtain ⟨b, hb, rfl⟩ := h.exists_of_eq_ok hx
  exact hb

/-- Where faults do not matter, it is enough that each side has a result where the other has. -/
theorem of_results (hstrict : ¬ strict) (h : ∀ a, x = .ok a → ∃ b, y = .ok b ∧ Q a b)
    (h' : ∀ b, y = .ok b → ∃ a, x = .ok a) : Agree strict Q x y := by
  cases x with
  | ok a =>
      obtain ⟨b, rfl, hab⟩ := h a rfl
      exact .ok hab
  | error f =>
      cases y with
      | ok b =>
          obtain ⟨a, ha⟩ := h' b rfl
          cases ha
      | error g => exact .error fun hyes => absurd hyes hstrict

/-! ### Lists -/

theorem mapM {f : α → Except ε γ} {g : β → Except ε δ} {xs : List α} {ys : List β}
    (h : List.Forall₂ (fun a b => Agree strict Q' (f a) (g b)) xs ys) :
    Agree strict (List.Forall₂ Q') (xs.mapM f) (ys.mapM g) := by
  induction h with
  | nil => exact .ok .nil
  | cons hab _ ih =>
      rw [List.mapM_cons, List.mapM_cons]
      refine hab.bind fun c d hcd => ih.bind fun cs ds hcds => ?_
      exact .ok (.cons hcd hcds)

theorem mapM_eq {f : α → Except ε γ} {g : β → Except ε γ} {xs : List α} {ys : List β}
    (h : List.Forall₂ (fun a b => Agree strict Eq (f a) (g b)) xs ys) :
    Agree strict Eq (xs.mapM f) (ys.mapM g) :=
  (mapM h).imp fun _ _ hcs => List.forall₂_eq_eq_eq ▸ hcs

theorem foldlM {f : γ → α → Except ε γ} {g : γ → β → Except ε γ} {xs : List α} {ys : List β}
    (h : List.Forall₂ (fun a b => ∀ c, Agree strict Eq (f c a) (g c b)) xs ys) (c : γ) :
    Agree strict Eq (xs.foldlM f c) (ys.foldlM g c) := by
  induction h generalizing c with
  | nil => exact refl _
  | cons hab _ ih =>
      rw [List.foldlM_cons, List.foldlM_cons]
      exact (hab c).bind_eq fun next => ih next

end Agree

/-! ### Gathering from a list -/

theorem exists_mapM_eq_ok {f : α → Except ε β} {xs : List α}
    (h : ∀ x ∈ xs, ∃ y, f x = .ok y) : ∃ ys, xs.mapM f = .ok ys := by
  induction xs with
  | nil => exact ⟨[], rfl⟩
  | cons x rest ih =>
      obtain ⟨y, hy⟩ := h x List.mem_cons_self
      obtain ⟨ys, hys⟩ := ih fun z hz => h z (List.mem_cons_of_mem _ hz)
      refine ⟨y :: ys, ?_⟩
      rw [List.mapM_cons, hy, hys]
      rfl

/-- What is gathered from a list comes from the elements that can give it. -/
theorem exists_mapM_filter_eq_ok {f : α → Except ε β} {xs : List α} {ys : List β}
    (h : xs.mapM f = .ok ys) {p : α → Bool} {gather : β → Option γ}
    (hother : ∀ x ∈ xs, p x = false → ∀ y, f x = .ok y → gather y = none) :
    ∃ zs, (xs.filter p).mapM f = .ok zs ∧ zs.filterMap gather = ys.filterMap gather := by
  induction xs generalizing ys with
  | nil =>
      cases h
      exact ⟨[], rfl, rfl⟩
  | cons x rest ih =>
      rw [List.mapM_cons] at h
      obtain ⟨y, hy, h⟩ := exists_of_bind_eq_ok h
      obtain ⟨others, hothers, h⟩ := exists_of_bind_eq_ok h
      cases h
      obtain ⟨zs, hzs, heq⟩ := ih hothers fun z hz => hother z (List.mem_cons_of_mem _ hz)
      cases hp : p x with
      | true =>
          refine ⟨y :: zs, ?_, ?_⟩
          · rw [List.filter_cons_of_pos hp, List.mapM_cons, hy, hzs]
            rfl
          · rw [List.filterMap_cons, List.filterMap_cons, heq]
      | false =>
          refine ⟨zs, ?_, ?_⟩
          · rw [List.filter_cons_of_neg (by simp [hp])]
            exact hzs
          · rw [List.filterMap_cons, hother x List.mem_cons_self hp y hy, heq]

end YangEvolution.Outcome
