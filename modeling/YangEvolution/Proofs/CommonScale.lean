import Mathlib.Algebra.Order.Field.Basic
import YangEvolution.Proofs.DecimalInclusion

/-!
Ranges at a common scale. The decimals between the bounds of an interval that a finer scale can
write are the integers between the scaled bounds. Main statement: at the finer of their scales two
decimal ranges are compared with exact bounds, and one includes the other exactly when it spans all
decimals of that scale which the other spans. Intervals that touch at their own scale need not do so
at a finer one, so that the scaled intervals are merged and not the given ones.
-/

namespace YangEvolution.RangeRestriction

open Text

/-- The number `v` lies between the bounds of one of the intervals. -/
def Spans (r : RangeRestriction) (v : ℚ) : Prop :=
  ∃ i ∈ r.intervals, (i.min : ℚ) / 10 ^ r.fractionDigits ≤ v ∧
    v ≤ (i.max : ℚ) / 10 ^ r.fractionDigits

theorem pow_split {e d : ℕ} (h : e ≤ d) :
    (10 : ℚ) ^ d = 10 ^ e * ((Nat.pow 10 (d - e) : ℕ) : ℚ) := by
  rw [Nat.pow_eq, Nat.cast_pow, Nat.cast_ofNat, ← pow_add, Nat.add_sub_cancel' h]

theorem div_pow_le_iff {e d : ℕ} (h : e ≤ d) {bound k : ℤ} :
    (bound : ℚ) / 10 ^ e ≤ k / 10 ^ d ↔ bound * Nat.pow 10 (d - e) ≤ k := by
  have hpos : (0 : ℚ) < 10 ^ d := by positivity
  rw [le_div_iff₀ hpos, pow_split h, ← mul_assoc, div_mul_cancel₀ _ (by positivity),
    ← Int.cast_natCast, ← Int.cast_mul, Int.cast_le]

theorem le_div_pow_iff {e d : ℕ} (h : e ≤ d) {bound k : ℤ} :
    (k : ℚ) / 10 ^ d ≤ bound / 10 ^ e ↔ k ≤ bound * Nat.pow 10 (d - e) := by
  have hpos : (0 : ℚ) < 10 ^ d := by positivity
  rw [div_le_iff₀ hpos, pow_split h, ← mul_assoc, div_mul_cancel₀ _ (by positivity),
    ← Int.cast_natCast, ← Int.cast_mul, Int.cast_le]

/-- The decimals of a finer scale in the intervals are the integers in the scaled ones. -/
theorem spans_div_iff {r : RangeRestriction} {d : ℕ} (h : r.fractionDigits ≤ d) {k : ℤ} :
    r.Spans (k / 10 ^ d) ↔
      Interval.Contains
        (r.intervals.map fun i => i.times (Nat.pow 10 (d - r.fractionDigits))) k := by
  simp only [Spans, Interval.Contains, Interval.Has, Interval.times, List.mem_map,
    exists_exists_and_eq_and, div_pow_le_iff h, le_div_pow_iff h]

variable {r inner : RangeRestriction}

/-- At the finer scale no bound of a decimal range is clipped, and the comparison of two of them
decides whether the decimals of that scale which lie in one lie in the other. -/
theorem includes_decides_common_scale (hr : r.IsDecimal) (hinner : inner.IsDecimal) :
    (∀ c ∈ [r, inner],
      c.rescaled (max r.fractionDigits inner.fractionDigits) = c.intervals.map fun i =>
        i.times (Nat.pow 10 (max r.fractionDigits inner.fractionDigits - c.fractionDigits))) ∧
    (r.includes inner = true ↔
      ∀ k : ℤ, inner.Spans (k / 10 ^ max r.fractionDigits inner.fractionDigits) →
        r.Spans (k / 10 ^ max r.fractionDigits inner.fractionDigits)) := by
  have hdigits : max r.fractionDigits inner.fractionDigits ≤ 18 :=
    max_le hr.digits_le hinner.digits_le
  have hscaled : r.rescaled (max r.fractionDigits inner.fractionDigits) = _ :=
    hr.rescaled_eq hdigits
  have hscaled' : inner.rescaled (max r.fractionDigits inner.fractionDigits) = _ :=
    hinner.rescaled_eq hdigits
  refine ⟨by simpa using ⟨hscaled, hscaled'⟩, ?_⟩
  rw [includes]
  simp only [hscaled, hscaled', spans_div_iff (le_max_left _ _), spans_div_iff (le_max_right _ _)]
  refine Interval.cover_iff_contains ?_ ?_
  · intro i hi
    obtain ⟨j, hj, rfl⟩ := List.mem_map.mp hi
    exact hr.times_fits (Nat.pow_le_pow_right (by decide) (by omega)) hj
  · intro i hi
    obtain ⟨j, hj, rfl⟩ := List.mem_map.mp hi
    exact Int.mul_le_mul_of_nonneg_right (hinner.min_le_max j hj) (Int.natCast_nonneg _)

/-- Two intervals that touch at one place after the point, and leave a gap at two. -/
def touching : RangeRestriction := ⟨[⟨15, 19⟩, ⟨20, 25⟩], 1⟩

theorem touching_isDecimal : touching.IsDecimal := by
  constructor <;> decide

/-- The gap holds numbers of two places that are to be spanned. -/
theorem includes_decides_common_scale_touching :
    touching.includes twoPlaces = false ∧
      ¬ ∀ k : ℤ, twoPlaces.Spans (k / 10 ^ 2) → touching.Spans (k / 10 ^ 2) := by
  have hfalse : touching.includes twoPlaces = false := by decide
  refine ⟨hfalse, fun h => ?_⟩
  have htrue := (includes_decides_common_scale touching_isDecimal twoPlaces_isDecimal).2.mpr h
  rw [hfalse] at htrue
  cases htrue

end YangEvolution.RangeRestriction
