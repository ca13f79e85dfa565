import YangEvolution.Schema.Restriction

/-!
What a list of intervals covers, said without sorting it: intervals that overlap or touch may be
joined, and another interval is covered when it lies within one that is joined in this way. Merging
computes the joined intervals that matter, for lists of any order and also for intervals whose ends
are reversed, so that the coverage check decides this relation.
-/

namespace YangEvolution

/-- `w` is the integer of a 128-bit word that is nearest to `v`: itself, or the end of the word that
it lies beyond. -/
def Text.Nearest (v w : Int) : Prop :=
  (wordMin ≤ v ∧ v ≤ wordMax ∧ w = v) ∨ (v < wordMin ∧ w = wordMin) ∨ (wordMax < v ∧ w = wordMax)

theorem Text.saturate_eq_iff {v w : Int} : saturate v = w ↔ Nearest v w := by
  have hword : wordMin ≤ wordMax := by decide
  unfold saturate Nearest
  omega

namespace Interval

open Text

/-- `j` begins within `i` or right after its end; the integer after the end is one of 128 bits. -/
def Reaches (i j : Interval) : Prop :=
  i.min ≤ j.min ∧ ∃ next, Nearest (i.max + 1) next ∧ j.min ≤ next

/-- The intervals of a list, and whatever results from joining two that overlap or touch. -/
inductive Joined (intervals : List Interval) : Interval → Prop where
  | mem {i : Interval} : i ∈ intervals → Joined intervals i
  | join {i j : Interval} : Joined intervals i → Joined intervals j → i.Reaches j →
      Joined intervals ⟨i.min, Max.max i.max j.max⟩

/-- Each interval of `inner` lies within one that the intervals of `outer` join to. -/
def Covers (outer inner : List Interval) : Prop :=
  ∀ i ∈ inner, ∃ j, Joined outer j ∧ j.min ≤ i.min ∧ i.max ≤ j.max

theorem reaches_iff {i j : Interval} :
    i.Reaches j ↔ i.min ≤ j.min ∧ j.min ≤ saturate (i.max + 1) := by
  simp [Reaches, ← saturate_eq_iff]

theorem within_iff {inner outer : Interval} :
    inner.within outer = true ↔ outer.min ≤ inner.min ∧ inner.max ≤ outer.max := by
  simp [within]

/-! ### Sorting -/

theorem mem_insertSorted {i j : Interval} {l : List Interval} :
    j ∈ insertSorted i l ↔ j = i ∨ j ∈ l := by
  induction l with
  | nil => simp [insertSorted]
  | cons k rest ih =>
      by_cases h : before i k = true
      · simp [insertSorted, h]
      · simp [insertSorted, h, ih, or_left_comm]

@[simp] theorem mem_sort {j : Interval} {l : List Interval} : j ∈ sort l ↔ j ∈ l := by
  induction l with
  | nil => simp [sort]
  | cons i rest ih => simp [sort, mem_insertSorted, ih]

theorem before_iff {i j : Interval} :
    before i j = true ↔ i.min < j.min ∨ (i.min = j.min ∧ i.max ≤ j.max) := by
  simp [before]

theorem min_le_of_before {i j : Interval} (h : before i j = true) : i.min ≤ j.min := by
  rw [before_iff] at h
  omega

/-- The lower ends are in order. -/
def Ordered (l : List Interval) : Prop :=
  l.Pairwise fun i j => i.min ≤ j.min

theorem pairwise_before_insertSorted (i : Interval) {l : List Interval}
    (h : l.Pairwise fun i j => before i j = true) :
    (insertSorted i l).Pairwise fun i j => before i j = true := by
  induction l with
  | nil => exact List.pairwise_singleton _ _
  | cons j rest ih =>
      obtain ⟨hj, hrest⟩ := List.pairwise_cons.mp h
      simp only [insertSorted]
      split
      · rename_i hij
        refine List.pairwise_cons.mpr ⟨?_, h⟩
        intro k hk
        rcases List.mem_cons.mp hk with rfl | hk
        · exact hij
        · have hjk := hj k hk
          rw [before_iff] at hij hjk ⊢
          omega
      · rename_i hij
        refine List.pairwise_cons.mpr ⟨?_, ih hrest⟩
        intro k hk
        rcases mem_insertSorted.mp hk with rfl | hk
        · rw [before_iff] at hij ⊢
          omega
        · exact hj k hk

theorem pairwise_before_sort (l : List Interval) :
    (sort l).Pairwise fun i j => before i j = true := by
  induction l with
  | nil => exact List.Pairwise.nil
  | cons i rest ih => exact pairwise_before_insertSorted i ih

theorem ordered_sort (l : List Interval) : Ordered (sort l) :=
  (pairwise_before_sort l).imp min_le_of_before

/-! ### Merging -/

/-- There is an integer between the end of `i` and the beginning of `j`. -/
def Apart (i j : Interval) : Prop :=
  saturate (i.max + 1) < j.min

theorem joined_of_mem_joinSorted {l rest : List Interval} {current m : Interval}
    (hordered : Ordered (current :: rest)) (hcurrent : Joined l current)
    (hrest : ∀ i ∈ rest, i ∈ l) (hm : m ∈ joinSorted current rest) : Joined l m := by
  induction rest generalizing current with
  | nil =>
      rw [joinSorted, List.mem_singleton] at hm
      exact hm ▸ hcurrent
  | cons i rest ih =>
      obtain ⟨hmin, hordered⟩ := List.pairwise_cons.mp hordered
      obtain ⟨hi, hrest⟩ := List.forall_mem_cons.mp hrest
      rw [joinSorted] at hm
      split at hm
      · rename_i htouch
        have hreach : current.Reaches i := reaches_iff.mpr ⟨hmin i List.mem_cons_self, htouch⟩
        refine ih ?_ (.join hcurrent (.mem hi) hreach) hrest hm
        exact List.pairwise_cons.mpr
          ⟨fun k hk => hmin k (List.mem_cons_of_mem _ hk), (List.pairwise_cons.mp hordered).2⟩
      · rcases List.mem_cons.mp hm with rfl | hm
        · exact hcurrent
        · exact ih hordered (.mem hi) hrest hm

/-- Nothing is lost on the way: the open interval only grows, and each next one goes into it or
follows it. What goes into it begins within its reach. -/
theorem exists_within_joinSorted {rest : List Interval} {current i : Interval}
    (hordered : Ordered (current :: rest)) (hi : i ∈ current :: rest) :
    ∃ m ∈ joinSorted current rest, m.min ≤ i.min ∧ i.max ≤ m.max ∧
      (i.min = m.min ∨ i.min ≤ saturate (m.max + 1)) := by
  induction rest generalizing current i with
  | nil =>
      obtain rfl := List.mem_singleton.mp hi
      exact ⟨i, by simp [joinSorted], Int.le_refl _, Int.le_refl _, .inl rfl⟩
  | cons j rest ih =>
      obtain ⟨hmin, htail⟩ := List.pairwise_cons.mp hordered
      rw [joinSorted]
      split
      · rename_i htouch
        have hjoined : Ordered (⟨current.min, Max.max current.max j.max⟩ :: rest) :=
          List.pairwise_cons.mpr
            ⟨fun k hk => hmin k (List.mem_cons_of_mem _ hk), (List.pairwise_cons.mp htail).2⟩
        -- what lies within the joined interval lies within what it grows to
        obtain ⟨m, hm, hmlo, hmhi, hreach⟩ := ih hjoined List.mem_cons_self
        obtain ⟨hcurrent, hj⟩ := Int.max_le.mp hmhi
        rcases List.mem_cons.mp hi with rfl | hi
        · exact ⟨m, hm, hmlo, hcurrent, hreach⟩
        rcases List.mem_cons.mp hi with rfl | hi
        · refine ⟨m, hm, Int.le_trans hmlo (hmin i List.mem_cons_self), hj, .inr ?_⟩
          exact Int.le_trans htouch (saturate_mono (Int.add_le_add_right hcurrent 1))
        · exact ih hjoined (List.mem_cons_of_mem _ hi)
      · rcases List.mem_cons.mp hi with rfl | hi
        · exact ⟨i, List.mem_cons_self, Int.le_refl _, Int.le_refl _, .inl rfl⟩
        · obtain ⟨m, hm, hwithin⟩ := ih htail hi
          exact ⟨m, List.mem_cons_of_mem _ hm, hwithin⟩

theorem min_le_of_mem_joinSorted {rest : List Interval} {current m : Interval}
    (hordered : Ordered (current :: rest)) (hm : m ∈ joinSorted current rest) :
    current.min ≤ m.min := by
  induction rest generalizing current with
  | nil =>
      rw [joinSorted, List.mem_singleton] at hm
      exact hm ▸ Int.le_refl _
  | cons j rest ih =>
      obtain ⟨hmin, htail⟩ := List.pairwise_cons.mp hordered
      rw [joinSorted] at hm
      split at hm
      · have hjoined : Ordered (⟨current.min, Max.max current.max j.max⟩ :: rest) :=
          List.pairwise_cons.mpr
            ⟨fun k hk => hmin k (List.mem_cons_of_mem _ hk), (List.pairwise_cons.mp htail).2⟩
        have hle := ih hjoined hm
        exact hle
      · rcases List.mem_cons.mp hm with rfl | hm
        · exact Int.le_refl _
        · exact Int.le_trans (hmin j List.mem_cons_self) (ih htail hm)

theorem pairwise_apart_joinSorted {rest : List Interval} {current : Interval}
    (hordered : Ordered (current :: rest)) : (joinSorted current rest).Pairwise Apart := by
  induction rest generalizing current with
  | nil => exact List.pairwise_singleton _ _
  | cons j rest ih =>
      obtain ⟨hmin, htail⟩ := List.pairwise_cons.mp hordered
      rw [joinSorted]
      split
      · refine ih (List.pairwise_cons.mpr ⟨?_, (List.pairwise_cons.mp htail).2⟩)
        exact fun k hk => hmin k (List.mem_cons_of_mem _ hk)
      · rename_i hgap
        refine List.pairwise_cons.mpr ⟨?_, ih htail⟩
        intro m hm
        exact Int.lt_of_lt_of_le (Int.not_le.mp hgap) (min_le_of_mem_joinSorted htail hm)

theorem joined_of_mem_merge {l : List Interval} {m : Interval} (hm : m ∈ merge l) :
    Joined l m := by
  unfold merge at hm
  split at hm
  · cases hm
  · rename_i i rest hsort
    have hmem : ∀ k ∈ i :: rest, k ∈ l := fun k hk => mem_sort.mp (hsort ▸ hk)
    exact joined_of_mem_joinSorted (hsort ▸ ordered_sort l) (.mem (hmem i List.mem_cons_self))
      (fun k hk => hmem k (List.mem_cons_of_mem _ hk)) hm

theorem exists_reaching_merge {l : List Interval} {i : Interval} (hi : i ∈ l) :
    ∃ m ∈ merge l, m.min ≤ i.min ∧ i.max ≤ m.max ∧
      (i.min = m.min ∨ i.min ≤ saturate (m.max + 1)) := by
  have hmem : i ∈ sort l := mem_sort.mpr hi
  unfold merge
  split
  · rename_i hsort
    rw [hsort] at hmem
    cases hmem
  · rename_i j rest hsort
    exact exists_within_joinSorted (hsort ▸ ordered_sort l) (hsort ▸ hmem)

theorem exists_within_merge {l : List Interval} {i : Interval} (hi : i ∈ l) :
    ∃ m ∈ merge l, m.min ≤ i.min ∧ i.max ≤ m.max := by
  obtain ⟨m, hm, hlo, hhi, -⟩ := exists_reaching_merge hi
  exact ⟨m, hm, hlo, hhi⟩

theorem pairwise_apart_merge (l : List Interval) : (merge l).Pairwise Apart := by
  unfold merge
  split
  · exact List.Pairwise.nil
  · rename_i i rest hsort
    exact pairwise_apart_joinSorted (hsort ▸ ordered_sort l)

theorem ordered_joinSorted {rest : List Interval} {current : Interval}
    (hordered : Ordered (current :: rest)) : Ordered (joinSorted current rest) := by
  induction rest generalizing current with
  | nil => exact List.pairwise_singleton _ _
  | cons j rest ih =>
      obtain ⟨hmin, htail⟩ := List.pairwise_cons.mp hordered
      rw [joinSorted]
      split
      · refine ih (List.pairwise_cons.mpr ⟨?_, (List.pairwise_cons.mp htail).2⟩)
        exact fun k hk => hmin k (List.mem_cons_of_mem _ hk)
      · refine List.pairwise_cons.mpr ⟨fun m hm => ?_, ih htail⟩
        exact Int.le_trans (hmin j List.mem_cons_self) (min_le_of_mem_joinSorted htail hm)

theorem ordered_merge (l : List Interval) : Ordered (merge l) := by
  unfold merge
  split
  · exact List.Pairwise.nil
  · rename_i i rest hsort
    exact ordered_joinSorted (hsort ▸ ordered_sort l)

theorem eq_or_apart_of_mem_merge {l : List Interval} {m n : Interval} (hm : m ∈ merge l)
    (hn : n ∈ merge l) :
    m = n ∨ (m.min ≤ n.min ∧ Apart m n) ∨ (n.min ≤ m.min ∧ Apart n m) := by
  have hapart := (ordered_merge l).and (pairwise_apart_merge l)
  refine List.Pairwise.forall_of_forall_of_flip
    (R := fun m n => m = n ∨ (m.min ≤ n.min ∧ Apart m n) ∨ (n.min ≤ m.min ∧ Apart n m))
    (fun _ _ => .inl rfl) (hapart.imp fun h => .inr (.inl h)) ?_ hm hn
  exact hapart.imp fun h => .inr (.inr h)

/-! ### Coverage -/

/-- Joining leads nowhere that merging does not. Of two merged intervals the second begins beyond
the reach of the first, so that intervals within different ones are joined only where the other has
its ends reversed and adds nothing. -/
theorem exists_merge_of_joined {l : List Interval} {j : Interval} (h : Joined l j) :
    ∃ m ∈ merge l, m.min ≤ j.min ∧ j.max ≤ m.max := by
  induction h with
  | mem hi => exact exists_within_merge hi
  | @join a b _ _ hreach iha ihb =>
      obtain ⟨m, hm, hmlo, hmhi⟩ := iha
      obtain ⟨n, hn, hnlo, hnhi⟩ := ihb
      obtain ⟨hab, htouch⟩ := reaches_iff.mp hreach
      refine ⟨m, hm, hmlo, Int.max_le.mpr ⟨hmhi, ?_⟩⟩
      have hreach : b.min ≤ saturate (m.max + 1) :=
        Int.le_trans htouch (saturate_mono (Int.add_le_add_right hmhi 1))
      rcases eq_or_apart_of_mem_merge hm hn with rfl | ⟨-, hmn⟩ | ⟨-, hnm⟩
      · exact hnhi
      · exact absurd (Int.le_trans hnlo hreach) (Int.not_le.mpr hmn)
      · -- `b` ends before `m` begins, and `m` ends no earlier than right before its beginning
        have hends : saturate (n.max + 1) < saturate (m.max + 1) :=
          Int.lt_of_lt_of_le hnm (Int.le_trans hmlo (Int.le_trans hab hreach))
        have hlt : n.max < m.max := by
          refine Int.not_le.mp fun hle => ?_
          exact absurd (saturate_mono (Int.add_le_add_right hle 1)) (Int.not_le.mpr hends)
        exact Int.le_trans hnhi (Int.le_of_lt hlt)

theorem cover_iff {outer inner : List Interval} :
    cover outer inner = true ↔ Covers outer inner := by
  simp only [cover, List.all_eq_true, List.any_eq_true, within_iff]
  constructor
  · intro h i hi
    obtain ⟨m, hm, hwithin⟩ := h i hi
    exact ⟨m, joined_of_mem_merge hm, hwithin⟩
  · intro h i hi
    obtain ⟨j, hj, hjlo, hjhi⟩ := h i hi
    obtain ⟨m, hm, hmlo, hmhi⟩ := exists_merge_of_joined hj
    exact ⟨m, hm, Int.le_trans hmlo hjlo, Int.le_trans hjhi hmhi⟩

theorem covers_self (l : List Interval) : Covers l l :=
  fun i hi => ⟨i, .mem hi, Int.le_refl _, Int.le_refl _⟩

/-! ### Lists that merge to one interval -/

/-- A joined interval begins as one of the list does that ends no later. -/
theorem Joined.exists_first {l : List Interval} {j : Interval} (h : Joined l j) :
    ∃ i ∈ l, i.min = j.min ∧ i.max ≤ j.max := by
  induction h with
  | mem hi => exact ⟨_, hi, rfl, Int.le_refl _⟩
  | join _ _ _ iha _ =>
      obtain ⟨i, hi, hmin, hmax⟩ := iha
      exact ⟨i, hi, hmin, Int.le_trans hmax (Int.le_max_left _ _)⟩

theorem Joined.exists_last {l : List Interval} {j : Interval} (h : Joined l j) :
    ∃ i ∈ l, i.max = j.max := by
  induction h with
  | mem hi => exact ⟨_, hi, rfl⟩
  | @join a b _ _ _ iha ihb =>
      rcases Int.le_total a.max b.max with hle | hle
      · simpa [Int.max_eq_right hle] using ihb
      · simpa [Int.max_eq_left hle] using iha

/-- Above the least word, joining adds no integer. -/
theorem Joined.exists_has {l : List Interval} {j : Interval} {v : Int}
    (hl : ∀ i ∈ l, wordMin < i.min) (h : Joined l j) (hv : j.Has v) : ∃ i ∈ l, i.Has v := by
  induction h with
  | mem hi => exact ⟨_, hi, hv⟩
  | @join a b _ hb hreach iha ihb =>
      obtain ⟨hlo, hhi⟩ := hv
      obtain ⟨hmin, htouch⟩ := reaches_iff.mp hreach
      by_cases hle : v ≤ a.max
      · exact iha ⟨hlo, hle⟩
      · obtain ⟨i, hi, himin, -⟩ := hb.exists_first
        have hword := hl i hi
        apply ihb
        simp only [saturate] at htouch
        simp only at hhi
        constructor
        · omega
        · omega

section One

variable {l : List Interval} {lo up : Int}

/-- What is sorted to the front reaches the next interval, and of the same lower end it ends first.
-/
theorem le_max_of_merge_eq_singleton (hlo : wordMin < lo) (hle : lo ≤ up)
    (h : merge l = [⟨lo, up⟩]) {i : Interval} (hi : i ∈ l) (hmin : i.min = lo) :
    lo - 1 ≤ i.max := by
  have hlower : ∀ j ∈ l, lo ≤ j.min := by
    intro j hj
    obtain ⟨m, hm, hmlo, -⟩ := exists_within_merge hj
    rw [h, List.mem_singleton] at hm
    rwa [hm] at hmlo
  unfold merge at h
  split at h
  · cases h
  · rename_i first rest hsort
    have hbefore := hsort ▸ pairwise_before_sort l
    obtain ⟨hfirst, hrest⟩ := List.pairwise_cons.mp hbefore
    have hmem : ∀ j ∈ first :: rest, lo ≤ j.min := fun j hj =>
      hlower j (mem_sort.mp (hsort ▸ hj))
    have hfront : first.min ≤ i.min ∧ (first.min = i.min → first.max ≤ i.max) := by
      rcases List.mem_cons.mp (hsort ▸ mem_sort.mpr hi) with rfl | hi
      · exact ⟨Int.le_refl _, fun _ => Int.le_refl _⟩
      · have hi := before_iff.mp (hfirst i hi)
        constructor <;> omega
    have hfirstMin := hmem first List.mem_cons_self
    have hends : lo - 1 ≤ first.max := by
      cases rest with
      | nil =>
          rw [joinSorted, List.cons.injEq] at h
          have hmax : first.max = up := congrArg Interval.max h.1
          omega
      | cons next rest =>
          rw [joinSorted] at h
          split at h
          · rename_i htouch
            have hnext := hmem next (by simp)
            simp only [saturate] at htouch
            omega
          · obtain ⟨m, hm, -⟩ := exists_within_joinSorted (hrest.imp min_le_of_before)
              List.mem_cons_self
            rw [(List.cons.inj h).2] at hm
            cases hm
    omega

theorem eq_singleton_of_forall_eq {m : Interval} (hm : m ∈ merge l)
    (hall : ∀ n ∈ merge l, n = m) (hself : ¬ Apart m m) : merge l = [m] := by
  have hapart := pairwise_apart_merge l
  cases hmerge : merge l with
  | nil =>
      rw [hmerge] at hm
      cases hm
  | cons a rest =>
      rw [hmerge] at hall hapart
      cases rest with
      | nil => rw [hall a List.mem_cons_self]
      | cons b rest =>
          have hab : Apart a b := (List.pairwise_cons.mp hapart).1 b List.mem_cons_self
          rw [hall a List.mem_cons_self, hall b (by simp)] at hab
          exact absurd hab hself

/-- Where nothing begins before `lo`, beyond the reach of `up` or ends beyond `up`, the integers
from `lo` to `up` are held in one merged interval, and there is no other. -/
theorem merge_eq_singleton_of_has (hlo : wordMin < lo) (hle : lo ≤ up) (hup : up < wordMax)
    (hvalues : ∀ v, lo ≤ v → v ≤ up → ∃ i ∈ l, i.Has v)
    (hbounds : ∀ i ∈ l, lo ≤ i.min ∧ i.min ≤ up + 1 ∧ i.max ≤ up)
    (hfirst : ∀ i ∈ l, i.min = lo → lo - 1 ≤ i.max) : merge l = [⟨lo, up⟩] := by
  have hjoined : ∀ m ∈ merge l, lo ≤ m.min ∧ m.min ≤ up + 1 ∧ m.max ≤ up ∧
      (m.min = lo → lo - 1 ≤ m.max) := by
    intro m hm
    obtain ⟨i, hi, himin, himax⟩ := (joined_of_mem_merge hm).exists_first
    obtain ⟨j, hj, hjmax⟩ := (joined_of_mem_merge hm).exists_last
    have hbi := hbounds i hi
    have hbj := hbounds j hj
    have hfi := hfirst i hi
    omega
  obtain ⟨i, hi, hilo, hihi⟩ := hvalues lo (Int.le_refl _) hle
  obtain ⟨m, hm, hmlo, hmhi⟩ := exists_within_merge hi
  have hbm := hjoined m hm
  -- the integer after the end of `m` would be held by a merged interval within its reach
  have hend : m.max = up := by
    refine Int.le_antisymm hbm.2.2.1 (Int.not_lt.mp fun hlt => ?_)
    obtain ⟨j, hj, hjlo, hjhi⟩ := hvalues (m.max + 1) (by omega) (by omega)
    obtain ⟨n, hn, hnlo, hnhi⟩ := exists_within_merge hj
    rcases eq_or_apart_of_mem_merge hm hn with rfl | ⟨-, hapart⟩ | ⟨-, hapart⟩
    · omega
    · simp only [Apart, saturate] at hapart
      omega
    · simp only [Apart, saturate] at hapart
      omega
  obtain rfl : m = ⟨lo, up⟩ := by
    obtain ⟨mmin, mmax⟩ := m
    simp only at hmlo hbm hend
    rw [hend, Int.le_antisymm (Int.le_trans hmlo hilo) hbm.1]
  refine eq_singleton_of_forall_eq hm (fun n hn => ?_) ?_
  · have hbn := hjoined n hn
    rcases eq_or_apart_of_mem_merge hn hm with rfl | ⟨hmin, hapart⟩ | ⟨-, hapart⟩
    · rfl
    · simp only [Apart, saturate] at hapart hmin
      omega
    · simp only [Apart, saturate] at hapart
      omega
  · simp only [Apart, saturate]
    omega

/-- The integers of the list are those of the one interval, and an interval whose ends are reversed
begins where it is joined to the others. -/
theorem merge_eq_singleton_iff (hlo : wordMin < lo) (hle : lo ≤ up) (hup : up < wordMax) :
    merge l = [⟨lo, up⟩] ↔
      (∀ v, (∃ i ∈ l, i.Has v) ↔ lo ≤ v ∧ v ≤ up) ∧
        ∀ i ∈ l, i.max < i.min →
          (lo < i.min ∧ i.min ≤ up + 1) ∨ (i.min = lo ∧ i.max = lo - 1) := by
  constructor
  · intro hmerge
    have hbounds : ∀ i ∈ l, lo ≤ i.min ∧ i.min ≤ up + 1 ∧ i.max ≤ up := by
      intro i hi
      obtain ⟨m, hm, hmlo, hmhi, hreach⟩ := exists_reaching_merge hi
      rw [hmerge, List.mem_singleton] at hm
      subst hm
      simp only [saturate] at hmlo hmhi hreach
      omega
    refine ⟨fun v => ⟨?_, fun hv => ?_⟩, fun i hi hreversed => ?_⟩
    · rintro ⟨i, hi, hvlo, hvhi⟩
      have hb := hbounds i hi
      omega
    · have hjoined : Joined l ⟨lo, up⟩ := joined_of_mem_merge (by simp [hmerge])
      exact hjoined.exists_has (fun i hi => Int.lt_of_lt_of_le hlo (hbounds i hi).1) hv
    · have hb := hbounds i hi
      have hends := le_max_of_merge_eq_singleton hlo hle hmerge hi
      omega
  · rintro ⟨hvalues, hreversed⟩
    have hproper : ∀ i ∈ l, i.min ≤ i.max → lo ≤ i.min ∧ i.max ≤ up := fun i hi hends =>
      ⟨((hvalues i.min).mp ⟨i, hi, Int.le_refl _, hends⟩).1,
        ((hvalues i.max).mp ⟨i, hi, hends, Int.le_refl _⟩).2⟩
    refine merge_eq_singleton_of_has hlo hle hup (fun v hvlo hvhi => (hvalues v).mpr ⟨hvlo, hvhi⟩)
      (fun i hi => ?_) (fun i hi => ?_)
    · have hp := hproper i hi
      have hr := hreversed i hi
      omega
    · have hr := hreversed i hi
      omega

end One

end Interval

end YangEvolution
