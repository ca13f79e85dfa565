import Mathlib.Algebra.Order.Field.Rat
import Mathlib.Tactic.NormNum
import YangEvolution.Proofs.IntervalInclusion

/-!
Ranges of decimals with different numbers of fraction digits. A range is compared with another one
after both are taken to the finer of their scales, so that the comparison is about the bounds and
not about which decimals each scale can write. Main statement: a range that includes another one
accepts exactly those numbers of the other that have no more fraction digits than it has itself.
-/

namespace YangEvolution

open Text

theorem Interval.contains_map_times {l : List Interval} {factor : Nat} (hfactor : 0 < factor)
    {k : Int} : Contains (l.map fun i => i.times factor) (k * factor) ↔ Contains l k := by
  have hpos : (0 : Int) < factor := Int.natCast_pos.mpr hfactor
  simp only [Contains, Has, times, List.mem_map, exists_exists_and_eq_and]
  simp only [Int.mul_le_mul_right hpos]

namespace RangeRestriction

/-- The range of a decimal type: at most 18 fraction digits, and intervals of 64-bit integers with
their ends in order. -/
structure IsDecimal (r : RangeRestriction) : Prop where
  digits_le : r.fractionDigits ≤ 18
  min_ge : ∀ i ∈ r.intervals, -Nat.pow 2 63 ≤ i.min
  max_le : ∀ i ∈ r.intervals, i.max ≤ Nat.pow 2 63 - 1
  min_le_max : ∀ i ∈ r.intervals, i.min ≤ i.max

/-- The number `v` can be written with the range's fraction digits and lies within its intervals. -/
def Accepts (r : RangeRestriction) (v : ℚ) : Prop :=
  ∃ k : ℤ, v * 10 ^ r.fractionDigits = k ∧ Interval.Contains r.intervals k

/-! ### No bound is clipped -/

/-- 64-bit integers stay within 128 bits at a scale of up to 18 places more. -/
theorem word_of_mul {v : Int} {factor : Nat} (hlo : -Nat.pow 2 63 ≤ v) (hhi : v ≤ Nat.pow 2 63)
    (hfactor : factor ≤ Nat.pow 10 18) : wordMin ≤ v * factor ∧ v * factor ≤ wordMax := by
  have hle : (factor : Int) ≤ Nat.pow 10 18 := Int.ofNat_le.mpr hfactor
  have hnonneg : (0 : Int) ≤ factor := Int.natCast_nonneg factor
  constructor
  · calc wordMin ≤ -Nat.pow 2 63 * (Nat.pow 10 18 : Nat) := by decide
      _ ≤ -Nat.pow 2 63 * factor := Int.mul_le_mul_of_nonpos_left (by decide) hle
      _ ≤ v * factor := Int.mul_le_mul_of_nonneg_right hlo hnonneg
  · calc v * factor ≤ Nat.pow 2 63 * factor := Int.mul_le_mul_of_nonneg_right hhi hnonneg
      _ ≤ Nat.pow 2 63 * (Nat.pow 10 18 : Nat) := Int.mul_le_mul_of_nonneg_left hle (by decide)
      _ ≤ wordMax := by decide

theorem IsDecimal.times_fits {r : RangeRestriction} (h : r.IsDecimal) {factor : Nat}
    (hfactor : factor ≤ Nat.pow 10 18) {i : Interval} (hi : i ∈ r.intervals) :
    (i.times factor).Fits := by
  have hmin := h.min_ge i hi
  have hmax := h.max_le i hi
  have hends := h.min_le_max i hi
  obtain ⟨hminge, hminle⟩ := word_of_mul hmin (by omega) hfactor
  obtain ⟨hmaxge, hmaxle⟩ := word_of_mul (v := i.max) (by omega) (by omega) hfactor
  exact ⟨hminge, hminle, hmaxge, hmaxle⟩

theorem IsDecimal.rescaled_eq {r : RangeRestriction} (h : r.IsDecimal) {digits : Nat}
    (hdigits : digits ≤ 18) :
    r.rescaled digits =
      r.intervals.map fun i => i.times (Nat.pow 10 (digits - r.fractionDigits)) := by
  apply rescaled_eq_map_times
  intro i hi
  exact h.times_fits (Nat.pow_le_pow_right (by decide) (by omega)) hi

/-! ### Numbers at two scales -/

theorem mul_pow_of_le {v : ℚ} {k : ℤ} {e d : ℕ} (hle : e ≤ d) (h : v * 10 ^ e = k) :
    v * 10 ^ d = (k * Nat.pow 10 (d - e) : ℤ) := by
  calc v * 10 ^ d = v * 10 ^ e * 10 ^ (d - e) := by
        rw [mul_assoc, ← pow_add, Nat.add_sub_cancel' hle]
    _ = (k * Nat.pow 10 (d - e) : ℤ) := by
        rw [h, Nat.pow_eq]
        push_cast
        rfl

variable {new old : RangeRestriction}

/-- A number of the included range lies within the other one's intervals as far as both write it. -/
theorem accepts_of_includes (hnew : new.IsDecimal) (hold : old.IsDecimal)
    (h : new.includes old = true) {v : ℚ} (hv : old.Accepts v) {m : ℤ}
    (hm : v * 10 ^ new.fractionDigits = m) : new.Accepts v := by
  obtain ⟨k, hk, hcontains⟩ := hv
  have hdigits : max new.fractionDigits old.fractionDigits ≤ 18 :=
    max_le hnew.digits_le hold.digits_le
  rw [includes] at h
  simp only [hnew.rescaled_eq hdigits, hold.rescaled_eq hdigits] at h
  generalize hd : max new.fractionDigits old.fractionDigits = d at h hdigits
  have hnewle : new.fractionDigits ≤ d := hd ▸ le_max_left _ _
  have holdle : old.fractionDigits ≤ d := hd ▸ le_max_right _ _
  have hsame : k * Nat.pow 10 (d - old.fractionDigits) = m * Nat.pow 10 (d - new.fractionDigits) :=
    Int.cast_injective ((mul_pow_of_le holdle hk).symm.trans (mul_pow_of_le hnewle hm))
  have hpos : ∀ n, 0 < Nat.pow 10 n := fun n => Nat.pow_pos (by decide)
  have hfine := Interval.contains_of_cover ?_ h
    ((Interval.contains_map_times (hpos _)).mpr hcontains)
  · rw [hsame] at hfine
    exact ⟨m, hm, (Interval.contains_map_times (hpos _)).mp hfine⟩
  · intro i hi
    obtain ⟨j, hj, rfl⟩ := List.mem_map.mp hi
    exact hnew.times_fits (Nat.pow_le_pow_right (by decide) (by omega)) hj

/-- A range that includes another one accepts a number of the other if and only if the number can
be written with its own fraction digits. So nothing is lost when it has at least as many. -/
theorem includes_keeps_writable_decimals (hnew : new.IsDecimal) (hold : old.IsDecimal)
    (h : new.includes old = true) :
    (∀ v, old.Accepts v → (new.Accepts v ↔ ∃ m : ℤ, v * 10 ^ new.fractionDigits = m)) ∧
    (old.fractionDigits ≤ new.fractionDigits → ∀ v, old.Accepts v → new.Accepts v) := by
  constructor
  · intro v hv
    constructor
    · rintro ⟨m, hm, -⟩
      exact ⟨m, hm⟩
    · rintro ⟨m, hm⟩
      exact accepts_of_includes hnew hold h hv hm
  · intro hle v hv
    obtain ⟨k, hk, -⟩ := id hv
    exact accepts_of_includes hnew hold h hv (mul_pow_of_le hle hk)

/-- The numbers of two places from 1.50 to 2.50. -/
def twoPlaces : RangeRestriction := ⟨[⟨150, 250⟩], 2⟩

/-- The same bounds with one place. -/
def onePlace : RangeRestriction := ⟨[⟨15, 25⟩], 1⟩

theorem twoPlaces_isDecimal : twoPlaces.IsDecimal := by
  constructor <;> decide

theorem onePlace_isDecimal : onePlace.IsDecimal := by
  constructor <;> decide

theorem accepts_twoPlaces (k : ℤ) (hlo : 150 ≤ k) (hhi : k ≤ 250) :
    twoPlaces.Accepts (k / 100) := by
  refine ⟨k, ?_, _, List.mem_singleton_self _, hlo, hhi⟩
  norm_num [twoPlaces]

theorem includes_keeps_writable_decimals_onePlace :
    onePlace.includes twoPlaces = true ∧ onePlace.Accepts (160 / 100) := by
  have hincludes : onePlace.includes twoPlaces = true := by decide
  obtain ⟨hkeeps, -⟩ :=
    includes_keeps_writable_decimals onePlace_isDecimal twoPlaces_isDecimal hincludes
  refine ⟨hincludes, (hkeeps _ (accepts_twoPlaces 160 (by decide) (by decide))).mpr ⟨16, ?_⟩⟩
  norm_num [onePlace]

/-- The bounds of both ranges agree, and the number 1.51 is lost between them. -/
theorem onePlace_loses_number :
    onePlace.IsDecimal ∧ twoPlaces.IsDecimal ∧ onePlace.includes twoPlaces = true ∧
      twoPlaces.Accepts (151 / 100) ∧ ¬ onePlace.Accepts (151 / 100) := by
  refine ⟨onePlace_isDecimal, twoPlaces_isDecimal, by decide,
    accepts_twoPlaces 151 (by decide) (by decide), ?_⟩
  rintro ⟨m, hm, -⟩
  have hten : ((151 : ℤ) : ℚ) = ((m * 10 : ℤ) : ℚ) := by
    push_cast
    rw [← hm]
    norm_num [onePlace]
  have hint := Int.cast_injective hten
  omega

end RangeRestriction

end YangEvolution
