import YangEvolution.Proofs.IntervalInclusion

/-!
Merging as a canonical form. A list of intervals is canonical when no interval has its ends reversed
and an integer is missing between each two, in the order of the list; such a list is determined by
the integers that it holds. Main statement: for intervals of 128-bit integers, merging leaves the
integers as they are and gives a canonical list, so that two lists hold the same integers exactly
when they merge to the same list, and a length is unrestricted exactly when it allows every count
of 64 bits and nothing else.
-/

namespace YangEvolution

open Text

namespace Interval

/-- The integer after the end of `i` comes before the beginning of `j`. -/
def Precedes (i j : Interval) : Prop :=
  i.max + 1 < j.min

/-- No ends are reversed, and an integer is missing between each interval and all later ones. -/
structure Canonical (l : List Interval) : Prop where
  proper : ∀ i ∈ l, i.min ≤ i.max
  gaps : l.Pairwise Precedes

theorem contains_cons {i : Interval} {l : List Interval} {v : Int} :
    Contains (i :: l) v ↔ i.Has v ∨ Contains l v := by
  simp [Contains]

theorem not_contains_nil (v : Int) : ¬ Contains [] v := by
  rintro ⟨i, hi, _⟩
  cases hi

/-! ### A canonical list is determined by its integers -/

section Unique

variable {i j : Interval} {l k : List Interval} {v : Int}

theorem Canonical.tail (h : Canonical (i :: l)) : Canonical l where
  proper := fun m hm => h.proper m (List.mem_cons_of_mem i hm)
  gaps := (List.pairwise_cons.mp h.gaps).2

theorem Canonical.head_le (h : Canonical (i :: l)) : i.min ≤ i.max :=
  h.proper i List.mem_cons_self

/-- What the later intervals hold lies beyond the gap after the first one. -/
theorem Canonical.lt_of_contains (h : Canonical (i :: l)) (hv : Contains l v) : i.max + 1 < v := by
  obtain ⟨m, hm, hlo, _⟩ := hv
  have hgap : i.max + 1 < m.min := (List.pairwise_cons.mp h.gaps).1 m hm
  omega

theorem Canonical.ordered (h : Canonical l) : Ordered l := by
  refine h.gaps.imp_of_mem fun {i j} hi _ (hgap : i.max + 1 < j.min) => ?_
  have hle := h.proper i hi
  omega

theorem Canonical.min_le_of_contains (h : Canonical (i :: l)) (hv : Contains (i :: l) v) :
    i.min ≤ v := by
  rcases contains_cons.mp hv with hi | hl
  · exact hi.1
  · have hle := h.head_le
    have hlt := h.lt_of_contains hl
    omega

/-- The first interval runs from the least integer up to the first one that is missing. -/
theorem Canonical.head_le_head (hi : Canonical (i :: l)) (hj : Canonical (j :: k))
    (hsub : ∀ v, Contains (i :: l) v → Contains (j :: k) v) (hmin : i.min = j.min) :
    i.max ≤ j.max := by
  refine Int.not_lt.mp fun hlt => ?_
  have hile := hi.head_le
  have hjle := hj.head_le
  have hnext : i.Has (j.max + 1) := by
    constructor
    · omega
    · omega
  rcases contains_cons.mp (hsub _ (contains_cons.mpr (.inl hnext))) with hhead | htail
  · have hhi := hhead.2
    omega
  · have hlt := hj.lt_of_contains htail
    omega

theorem Canonical.tail_contains (hi : Canonical (i :: l))
    (hsub : ∀ v, Contains (i :: l) v → Contains (i :: k) v) (hv : Contains l v) :
    Contains k v := by
  rcases contains_cons.mp (hsub v (contains_cons.mpr (.inr hv))) with hhead | htail
  · have hlt := hi.lt_of_contains hv
    have hhi := hhead.2
    omega
  · exact htail

theorem Canonical.eq_of_contains_iff (hl : Canonical l) (hk : Canonical k)
    (h : ∀ v, Contains l v ↔ Contains k v) : l = k := by
  induction l generalizing k with
  | nil =>
      cases k with
      | nil => rfl
      | cons j k =>
          have hj : Contains (j :: k) j.min :=
            contains_cons.mpr (.inl ⟨Int.le_refl _, hk.head_le⟩)
          exact absurd ((h _).mpr hj) (not_contains_nil _)
  | cons i l ih =>
      have hi : Contains (i :: l) i.min := contains_cons.mpr (.inl ⟨Int.le_refl _, hl.head_le⟩)
      cases k with
      | nil => exact absurd ((h _).mp hi) (not_contains_nil _)
      | cons j k =>
          have hj : Contains (j :: k) j.min :=
            contains_cons.mpr (.inl ⟨Int.le_refl _, hk.head_le⟩)
          have hmin : i.min = j.min :=
            Int.le_antisymm (hl.min_le_of_contains ((h _).mpr hj))
              (hk.min_le_of_contains ((h _).mp hi))
          have hmax : i.max = j.max :=
            Int.le_antisymm (hl.head_le_head hk (fun v => (h v).mp) hmin)
              (hk.head_le_head hl (fun v => (h v).mpr) hmin.symm)
          obtain rfl : i = j := by
            cases i
            cases j
            simp only at hmin hmax
            rw [hmin, hmax]
          have htails : l = k := ih hl.tail hk.tail fun v =>
            ⟨hl.tail_contains fun v => (h v).mp, hk.tail_contains fun v => (h v).mpr⟩
          rw [htails]

end Unique

/-! ### Merging -/

/-- All ends are integers of 128-bit words, and none are reversed. -/
structure Proper (l : List Interval) : Prop where
  fits : ∀ i ∈ l, i.Fits
  le : ∀ i ∈ l, i.min ≤ i.max

section Merging

variable {l k : List Interval} {m n : Interval}

theorem Joined.le (hl : ∀ i ∈ l, i.min ≤ i.max) (hm : Joined l m) : m.min ≤ m.max := by
  induction hm with
  | mem hi => exact hl _ hi
  | @join a b _ _ _ iha _ => exact Int.le_trans iha (Int.le_max_left _ _)

/-- Beyond the greatest word nothing begins, so that what is apart there in saturated arithmetic is
apart. -/
theorem Apart.precedes (hn : n.Fits) (h : Apart m n) : m.Precedes n := by
  have hle := hn.min_le
  simp only [Apart, saturate] at h
  simp only [Precedes]
  omega

theorem Proper.merge (hl : Proper l) : Proper (merge l) where
  fits := fun _ hm => (joined_of_mem_merge hm).fits hl.fits
  le := fun _ hm => (joined_of_mem_merge hm).le hl.le

theorem contains_merge_iff (hl : Proper l) (v : Int) : Contains (merge l) v ↔ Contains l v := by
  constructor
  · rintro ⟨m, hm, hv⟩
    exact contains_of_joined hl.fits (joined_of_mem_merge hm) hv
  · rintro ⟨i, hi, hlo, hhi⟩
    obtain ⟨m, hm, hmlo, hmhi⟩ := exists_within_merge hi
    exact ⟨m, hm, Int.le_trans hmlo hlo, Int.le_trans hhi hmhi⟩

theorem canonical_merge (hl : Proper l) : Canonical (merge l) where
  proper := hl.merge.le
  gaps := (pairwise_apart_merge l).imp_of_mem fun _ hn h => h.precedes (hl.merge.fits _ hn)

theorem merge_eq_iff (hl : Proper l) (hk : Canonical k) :
    merge l = k ↔ ∀ v, Contains l v ↔ Contains k v := by
  constructor
  · rintro rfl v
    exact (contains_merge_iff hl v).symm
  · intro h
    exact (canonical_merge hl).eq_of_contains_iff hk fun v => (contains_merge_iff hl v).trans (h v)

theorem merge_eq_merge_iff (hl : Proper l) (hk : Proper k) :
    merge l = merge k ↔ ∀ v, Contains l v ↔ Contains k v := by
  rw [merge_eq_iff hl (canonical_merge hk)]
  exact forall_congr' fun v => iff_congr Iff.rfl (contains_merge_iff hk v)

theorem merge_of_mem_iff (hl : Proper l) (h : ∀ i, i ∈ k ↔ i ∈ l) : merge k = merge l := by
  have hk : Proper k := ⟨fun i hi => hl.fits i ((h i).mp hi), fun i hi => hl.le i ((h i).mp hi)⟩
  apply (merge_eq_merge_iff hk hl).mpr
  intro v
  show (∃ i ∈ k, i.Has v) ↔ ∃ i ∈ l, i.Has v
  simp only [h]

end Merging

end Interval

namespace LengthRestriction

open YangEvolution.Interval

theorem canonical_unrestricted : Canonical unrestricted.intervals where
  proper := by decide
  gaps := List.pairwise_singleton _ _

theorem contains_unrestricted_iff (v : Int) :
    Contains unrestricted.intervals v ↔ 0 ≤ v ∧ v ≤ Nat.pow 2 64 - 1 := by
  rw [unrestricted, contains_cons, or_iff_left (not_contains_nil v)]
  rfl

theorem isUnrestricted_iff_contains {l : LengthRestriction} (hl : Proper l.intervals) :
    l.isUnrestricted = true ↔ ∀ v, Contains l.intervals v ↔ 0 ≤ v ∧ v ≤ Nat.pow 2 64 - 1 := by
  rw [isUnrestricted, beq_iff_eq, merge_eq_iff hl canonical_unrestricted]
  exact forall_congr' fun v => iff_congr Iff.rfl (contains_unrestricted_iff v)

end LengthRestriction

namespace Interval

/-- Merging keeps the integers, puts the intervals in order and leaves a missing integer between
each two. A second merge changes nothing, neither the order of the intervals nor how often one is
given matters, two lists merge alike exactly when they hold the same integers, and the test for an
unrestricted length is exact. -/
theorem merge_canonical_form {l : List Interval} (hl : Proper l) :
    (∀ v, Contains (merge l) v ↔ Contains l v) ∧
      Ordered (merge l) ∧ Canonical (merge l) ∧
      merge (merge l) = merge l ∧
      (∀ k, l.Perm k → merge k = merge l) ∧
      (∀ k, (∀ i, i ∈ k ↔ i ∈ l) → merge k = merge l) ∧
      (∀ k, Proper k → ((∀ v, Contains l v ↔ Contains k v) ↔ merge l = merge k)) ∧
      (LengthRestriction.isUnrestricted ⟨l⟩ = true ↔
        ∀ v, Contains l v ↔ 0 ≤ v ∧ v ≤ Nat.pow 2 64 - 1) := by
  have hcanonical := canonical_merge hl
  refine ⟨contains_merge_iff hl, hcanonical.ordered, hcanonical, ?_, ?_, ?_, ?_, ?_⟩
  · exact (merge_eq_iff hl.merge hcanonical).mpr fun _ => Iff.rfl
  · exact fun k hperm => merge_of_mem_iff hl fun i => hperm.mem_iff.symm
  · exact fun k hmem => merge_of_mem_iff hl hmem
  · exact fun k hk => (merge_eq_merge_iff hl hk).symm
  · exact LengthRestriction.isUnrestricted_iff_contains hl

/-- Intervals out of order that overlap, touch and repeat, from the least word to the greatest. -/
theorem merge_canonical_form_words :
    merge [⟨6, wordMax⟩, ⟨1, 5⟩, ⟨wordMin, -1⟩, ⟨6, 6⟩, ⟨1, 5⟩] =
        [⟨wordMin, -1⟩, ⟨1, wordMax⟩] ∧
      Canonical [⟨wordMin, -1⟩, ⟨1, wordMax⟩] ∧
      ∀ v, Contains [⟨wordMin, -1⟩, ⟨1, wordMax⟩] v ↔
        Contains [⟨6, wordMax⟩, ⟨1, 5⟩, ⟨wordMin, -1⟩, ⟨6, 6⟩, ⟨1, 5⟩] v := by
  have hl : Proper [⟨6, wordMax⟩, ⟨1, 5⟩, ⟨wordMin, -1⟩, ⟨6, 6⟩, ⟨1, 5⟩] := by
    have hword : wordMin ≤ -1 ∧ 6 ≤ wordMax := by decide
    constructor
    · intro i hi
      simp only [List.mem_cons, List.not_mem_nil, or_false] at hi
      rcases hi with rfl | rfl | rfl | rfl | rfl <;> constructor <;> simp only <;> omega
    · decide
  have hmerge : merge [⟨6, wordMax⟩, ⟨1, 5⟩, ⟨wordMin, -1⟩, ⟨6, 6⟩, ⟨1, 5⟩] =
      [⟨wordMin, -1⟩, ⟨1, wordMax⟩] := by decide
  obtain ⟨hcontains, _, hcanonical, _⟩ := merge_canonical_form hl
  rw [hmerge] at hcontains hcanonical
  exact ⟨hmerge, hcanonical, hcontains⟩

end Interval

end YangEvolution
