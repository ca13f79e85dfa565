import YangEvolution.Proofs.IntervalCover

/-!
Coverage of intervals as inclusion of sets of integers. Joining two intervals that overlap or touch
adds no integer, and a run of integers that the intervals of a list hold piece by piece lies within
one interval that they join to. Main statement: for ends of 128 bits the coverage check decides
whether the integers of one list are integers of another, whatever the order of the two lists and
however their intervals overlap, touch or repeat.
-/

namespace YangEvolution

open Text

namespace Interval

/-- Both ends are integers of a 128-bit word. -/
structure Fits (i : Interval) : Prop where
  min_ge : wordMin ≤ i.min
  min_le : i.min ≤ wordMax
  max_ge : wordMin ≤ i.max
  max_le : i.max ≤ wordMax

/-- The integers that a list of intervals stands for. -/
def Contains (intervals : List Interval) (v : Int) : Prop :=
  ∃ i ∈ intervals, i.Has v

theorem Fits.saturate_next_le {i : Interval} (h : i.Fits) : saturate (i.max + 1) ≤ i.max + 1 := by
  have hge := h.max_ge
  unfold saturate
  omega

theorem Fits.join {i j : Interval} (hi : i.Fits) (hj : j.Fits) :
    Fits ⟨i.min, Max.max i.max j.max⟩ where
  min_ge := hi.min_ge
  min_le := hi.min_le
  max_ge := Int.le_trans hi.max_ge (Int.le_max_left _ _)
  max_le := Int.max_le.mpr ⟨hi.max_le, hj.max_le⟩

theorem Joined.fits {l : List Interval} {j : Interval} (hl : ∀ i ∈ l, i.Fits)
    (hj : Joined l j) : j.Fits := by
  induction hj with
  | mem hi => exact hl _ hi
  | join _ _ _ iha ihb => exact iha.join ihb

/-! ### Joining adds no integer -/

theorem contains_of_joined {l : List Interval} {j : Interval} {v : Int} (hl : ∀ i ∈ l, i.Fits)
    (hj : Joined l j) (hv : j.Has v) : Contains l v := by
  induction hj with
  | mem hi => exact ⟨_, hi, hv⟩
  | @join a b ha _ hreach iha ihb =>
      obtain ⟨hlo, hhi⟩ := hv
      by_cases hle : v ≤ a.max
      · exact iha ⟨hlo, hle⟩
      · -- beyond `a` the second interval begins no later than right after the end of `a`
        have hnext : b.min ≤ a.max + 1 :=
          Int.le_trans (reaches_iff.mp hreach).2 (ha.fits hl).saturate_next_le
        apply ihb
        constructor
        · omega
        · simp only at hhi
          omega

/-! ### Integers held piece by piece -/

/-- One more integer: where the joined interval ends before it, the interval of the list that holds
it either begins within reach or begins earlier and takes the place of the joined one. -/
theorem joined_reaches_next {l : List Interval} {j : Interval} {lo v : Int}
    (hl : ∀ i ∈ l, i.Fits) (hj : Joined l j) (hlo : j.min ≤ lo) (hv : v ≤ j.max)
    (hnext : Contains l (v + 1)) : ∃ m, Joined l m ∧ m.min ≤ lo ∧ v + 1 ≤ m.max := by
  by_cases hle : v + 1 ≤ j.max
  · exact ⟨j, hj, hlo, hle⟩
  obtain ⟨o, ho, homin, homax⟩ := hnext
  by_cases hfirst : o.min < j.min
  · exact ⟨o, .mem ho, by omega, homax⟩
  · have hend : j.max = v := by omega
    have hword : saturate (v + 1) = v + 1 := by
      have hvge := (hj.fits hl).max_ge
      have hvle := (hl o ho).max_le
      apply saturate_of_mem
      · omega
      · omega
    have hreach : j.Reaches o := by
      apply reaches_iff.mpr
      constructor
      · omega
      · rw [hend, hword]
        exact homin
    exact ⟨_, .join hj (.mem ho) hreach, hlo, Int.le_trans homax (Int.le_max_right _ _)⟩

theorem exists_joined_of_run {l : List Interval} {lo : Int} (hl : ∀ i ∈ l, i.Fits) (n : Nat)
    (hrun : ∀ v, lo ≤ v → v ≤ lo + n → Contains l v) :
    ∃ m, Joined l m ∧ m.min ≤ lo ∧ lo + n ≤ m.max := by
  induction n with
  | zero =>
      obtain ⟨o, ho, homin, homax⟩ := hrun lo (Int.le_refl _) (by omega)
      exact ⟨o, .mem ho, homin, by omega⟩
  | succ n ih =>
      obtain ⟨j, hj, hjmin, hjmax⟩ := ih fun v hlo hhi => hrun v hlo (by omega)
      have hlast : Contains l (lo + n + 1) := hrun _ (by omega) (by omega)
      obtain ⟨m, hm, hmmin, hmmax⟩ := joined_reaches_next hl hj hjmin hjmax hlast
      exact ⟨m, hm, hmmin, by omega⟩

/-! ### Coverage -/

variable {outer inner : List Interval}

/-- A list that covers another one holds all its integers; the other list may have intervals whose
ends are reversed. -/
theorem contains_of_cover (houter : ∀ i ∈ outer, i.Fits) (h : cover outer inner = true) {v : Int}
    (hv : Contains inner v) : Contains outer v := by
  obtain ⟨i, hi, himin, himax⟩ := hv
  obtain ⟨j, hj, hjmin, hjmax⟩ := cover_iff.mp h i hi
  exact contains_of_joined houter hj ⟨Int.le_trans hjmin himin, Int.le_trans himax hjmax⟩

theorem cover_of_contains (houter : ∀ i ∈ outer, i.Fits) (hinner : ∀ i ∈ inner, i.min ≤ i.max)
    (h : ∀ v, Contains inner v → Contains outer v) : cover outer inner = true := by
  apply cover_iff.mpr
  intro i hi
  have hle := hinner i hi
  have hlength : i.min + ((i.max - i.min).toNat : Int) = i.max := by omega
  obtain ⟨m, hm, hmmin, hmmax⟩ := exists_joined_of_run houter (i.max - i.min).toNat
    fun v hlo hhi => h v ⟨i, hi, hlo, by omega⟩
  exact ⟨m, hm, hmmin, by omega⟩

theorem cover_iff_contains (houter : ∀ i ∈ outer, i.Fits) (hinner : ∀ i ∈ inner, i.min ≤ i.max) :
    cover outer inner = true ↔ ∀ v, Contains inner v → Contains outer v :=
  ⟨fun h _ => contains_of_cover houter h, cover_of_contains houter hinner⟩

/-- Both ends times a factor. -/
def times (i : Interval) (factor : Nat) : Interval :=
  ⟨i.min * factor, i.max * factor⟩

@[simp] theorem times_one (i : Interval) : i.times 1 = i := by
  simp [times]

end Interval

namespace RangeRestriction

/-- Where no end is beyond the words at the finer scale, nothing is clipped. -/
theorem rescaled_eq_map_times {r : RangeRestriction} {digits : Nat}
    (h : ∀ i ∈ r.intervals, (i.times (Nat.pow 10 (digits - r.fractionDigits))).Fits) :
    r.rescaled digits =
      r.intervals.map fun i => i.times (Nat.pow 10 (digits - r.fractionDigits)) := by
  apply List.map_congr_left
  intro i hi
  obtain ⟨hminge, hminle, hmaxge, hmaxle⟩ := h i hi
  simp only [Interval.times] at hminge hminle hmaxge hmaxle ⊢
  rw [saturate_of_mem hminge hminle, saturate_of_mem hmaxge hmaxle]

theorem rescaled_self {r : RangeRestriction} (h : ∀ i ∈ r.intervals, i.Fits) :
    r.rescaled r.fractionDigits = r.intervals := by
  have hfactor : Nat.pow 10 (r.fractionDigits - r.fractionDigits) = 1 := by
    rw [Nat.sub_self]
  have htimes : (fun i : Interval => i.times 1) = id := by
    funext i
    exact i.times_one
  rw [rescaled_eq_map_times, hfactor, htimes, List.map_id]
  intro i hi
  rw [hfactor, Interval.times_one]
  exact h i hi

end RangeRestriction

namespace Interval

/-- The coverage check, and with it the comparison of two lengths and of two ranges of equally many
fraction digits, decides whether every integer of the inner intervals is one of the outer ones. -/
theorem cover_decides_inclusion {outer inner : List Interval} (houter : ∀ i ∈ outer, i.Fits)
    (hinner : ∀ i ∈ inner, i.Fits) (hends : ∀ i ∈ inner, i.min ≤ i.max) :
    (cover outer inner = true ↔ ∀ v, Contains inner v → Contains outer v) ∧
    (LengthRestriction.includes ⟨outer⟩ ⟨inner⟩ = true ↔
      ∀ v, Contains inner v → Contains outer v) ∧
    ∀ digits, RangeRestriction.includes ⟨outer, digits⟩ ⟨inner, digits⟩ = true ↔
      ∀ v, Contains inner v → Contains outer v := by
  have hcover := cover_iff_contains houter hends
  refine ⟨hcover, hcover, fun digits => ?_⟩
  have hself : RangeRestriction.includes ⟨outer, digits⟩ ⟨inner, digits⟩ = cover outer inner := by
    have ho := RangeRestriction.rescaled_self (r := ⟨outer, digits⟩) houter
    have hi := RangeRestriction.rescaled_self (r := ⟨inner, digits⟩) hinner
    simp only [RangeRestriction.includes, Nat.max_self] at ho hi ⊢
    rw [ho, hi]
  rw [hself]
  exact hcover

/-- Two intervals out of order that touch, the first up to the greatest word, against one that runs
through both. -/
theorem cover_decides_inclusion_touching :
    cover [⟨6, wordMax⟩, ⟨1, 5⟩] [⟨1, wordMax⟩] = true ∧
      ∀ v, Contains [⟨1, wordMax⟩] v → Contains [⟨6, wordMax⟩, ⟨1, 5⟩] v := by
  have hcover : cover [⟨6, wordMax⟩, ⟨1, 5⟩] [⟨1, wordMax⟩] = true := by decide
  have hword : wordMin ≤ 1 ∧ 6 ≤ wordMax := by decide
  refine ⟨hcover, (cover_decides_inclusion ?_ ?_ ?_).1.mp hcover⟩
  · intro i hi
    simp only [List.mem_cons, List.not_mem_nil, or_false] at hi
    rcases hi with rfl | rfl <;> constructor <;> simp only <;> omega
  · intro i hi
    simp only [List.mem_cons, List.not_mem_nil, or_false] at hi
    subst hi
    constructor <;> simp only <;> omega
  · decide

end Interval

end YangEvolution
