import YangEvolution.Loading.ModuleFile
import YangEvolution.Proofs.ListingOrder
import YangEvolution.Proofs.RevisionText

/-!
Which file is found for a module, over all orders in which its directory can be listed. Main
statement: the files that can be found are that of the wanted revision, else that without a date,
else every entry whose name has the newest date; so the order has no influence exactly when there is
only one such entry, as is always the case where the dates in names are written as dates are.
-/

namespace YangEvolution.Loading

open Text

/-- A file name that is made of the name of a module and of a text that is read as a date. -/
def HasDate (target : String) (r : Revision) (name : String) : Prop :=
  ∃ date, Revision.read date = .ok r ∧ name = target ++ "@" ++ date ++ ".yin"

/-- A name in a listing with a date that none of the others is later than. -/
def IsNewest (target : String) (names : List String) (name : String) : Prop :=
  name ∈ names ∧ ∃ r, HasDate target r name ∧
    ∀ other ∈ names, ∀ s, HasDate target s other → s ≤ r

/-- No file is named for the wanted revision. -/
def LacksRevision (t : FileTree) (dir : PathName) (target : String)
    (revision : Option Revision) : Prop :=
  ∀ r, revision = some r → t.isFile (revisionFile dir target r) = false

/-- The entries of a directory that may stand for a module: the file of the wanted revision, without
one the file that has no date, and without that the newest of those that have one. -/
inductive Offers (t : FileTree) (dir : PathName) (target : String) (revision : Option Revision) :
    PathName → Prop
  | wanted {r : Revision} (hr : revision = some r)
      (hfile : t.isFile (revisionFile dir target r) = true) :
      Offers t dir target revision (revisionFile dir target r)
  | plain (hwanted : LacksRevision t dir target revision)
      (hfile : t.isFile (plainFile dir target) = true) :
      Offers t dir target revision (plainFile dir target)
  | newest {names : List String} {name : String} (hwanted : LacksRevision t dir target revision)
      (hplain : t.isFile (plainFile dir target) = false) (hnames : t.names? dir = some names)
      (hname : IsNewest target names name) : Offers t dir target revision (dir.join ⟨name⟩)

variable {target name : String} {names : List String} {r : Revision}

/-! ### The newest name of a listing -/

theorem datedName?_eq_some_iff : datedName? target name = some r ↔ HasDate target r name := by
  unfold datedName? HasDate
  simp only [Option.bind_eq_bind, Option.bind_eq_some_iff, after?_eq_some_iff,
    before?_eq_some_iff]
  constructor
  · rintro ⟨rest, hname, date, rfl, hread⟩
    refine ⟨String.ofList date, Revision.read_eq_ok_iff_read?.mpr hread, ?_⟩
    rw [← String.toList_inj, hname]
    simp
  · rintro ⟨date, hread, rfl⟩
    refine ⟨date.toList ++ ".yin".toList, by simp, date.toList, rfl, ?_⟩
    rw [String.ofList_toList]
    exact Revision.read_eq_ok_iff_read?.mp hread

theorem exists_newer (best : Option (Revision × String)) (x : Revision × String) :
    ∃ b, newer best x = some b ∧ (b = x ∨ best = some b) ∧ x.1 ≤ b.1 ∧
      ∀ b', best = some b' → b'.1 ≤ b.1 := by
  cases best with
  | none => exact ⟨x, rfl, .inl rfl, Nat.le_refl _, by simp⟩
  | some b =>
      by_cases hle : b.1 ≤ x.1
      · exact ⟨x, by simp [newer, hle], .inl rfl, Nat.le_refl _, by simpa using hle⟩
      · refine ⟨b, by simp [newer, hle], .inr rfl, Nat.le_of_not_le hle, ?_⟩
        rintro b' ⟨⟩
        exact Nat.le_refl _

/-- What a run over dated names ends with is one of them, and not earlier than any. -/
theorem newest_of_foldl {dated : List (Revision × String)} {best : Option (Revision × String)}
    {d : Revision × String} (h : dated.foldl newer best = some d) :
    (best = some d ∨ d ∈ dated) ∧ (∀ b, best = some b → b.1 ≤ d.1) ∧
      ∀ x ∈ dated, x.1 ≤ d.1 := by
  induction dated generalizing best with
  | nil =>
      rw [List.foldl_nil] at h
      refine ⟨.inl h, fun b hb => ?_, fun x hx => absurd hx List.not_mem_nil⟩
      obtain rfl := Option.some.inj (h.symm.trans hb)
      exact Nat.le_refl _
  | cons x dated ih =>
      obtain ⟨hfrom, hbest, hdated⟩ := ih h
      obtain ⟨b, hnewer, hb, hxb, hbefore⟩ := exists_newer best x
      have hbd := hbest b hnewer
      refine ⟨?_, fun b' hb' => Nat.le_trans (hbefore b' hb') hbd,
        List.forall_mem_cons.mpr ⟨Nat.le_trans hxb hbd, hdated⟩⟩
      rcases hfrom with hfrom | hfrom
      · obtain rfl := Option.some.inj (hnewer.symm.trans hfrom)
        rcases hb with rfl | hb
        · exact .inr List.mem_cons_self
        · exact .inl hb
      · exact .inr (List.mem_cons_of_mem _ hfrom)

theorem foldl_newer_eq_none_iff {dated : List (Revision × String)} :
    dated.foldl newer none = none ↔ dated = [] := by
  constructor
  · intro h
    rcases List.eq_nil_or_concat dated with hnil | ⟨front, x, rfl⟩
    · exact hnil
    · rw [List.concat_eq_append, List.foldl_concat] at h
      obtain ⟨b, hnewer, -⟩ := exists_newer (front.foldl newer none) x
      rw [hnewer] at h
      cases h
  · rintro rfl
    rfl

theorem mem_datedNames :
    (r, name) ∈ datedNames target names ↔ name ∈ names ∧ HasDate target r name := by
  unfold datedNames
  rw [List.mem_filterMap]
  constructor
  · rintro ⟨n, hn, h⟩
    obtain ⟨s, hs, heq⟩ := Option.map_eq_some_iff.mp h
    obtain ⟨rfl, rfl⟩ := Prod.mk.inj heq
    exact ⟨hn, datedName?_eq_some_iff.mp hs⟩
  · rintro ⟨hname, hdate⟩
    exact ⟨name, hname, by rw [datedName?_eq_some_iff.mpr hdate]; rfl⟩

theorem newestDated?_eq_none_iff :
    newestDated? target names = none ↔ ∀ name ∈ names, ∀ r, ¬ HasDate target r name := by
  rw [newestDated?, Option.map_eq_none_iff, foldl_newer_eq_none_iff, List.eq_nil_iff_forall_not_mem]
  constructor
  · intro h name hname r hdate
    exact h (r, name) (mem_datedNames.mpr ⟨hname, hdate⟩)
  · rintro h ⟨r, name⟩ hmem
    obtain ⟨hname, hdate⟩ := mem_datedNames.mp hmem
    exact h name hname r hdate

theorem isNewest_of_newestDated? (h : newestDated? target names = some name) :
    IsNewest target names name := by
  obtain ⟨⟨r, n⟩, hfold, rfl⟩ := Option.map_eq_some_iff.mp h
  obtain ⟨hfrom, -, hdated⟩ := newest_of_foldl hfold
  obtain ⟨hname, hdate⟩ := mem_datedNames.mp (hfrom.resolve_left (by simp))
  refine ⟨hname, r, hdate, fun other hother s hs => ?_⟩
  exact hdated (s, other) (mem_datedNames.mpr ⟨hother, hs⟩)

/-- Of the newest names, the one listed last is taken. -/
theorem newestDated?_concat (h : IsNewest target (names ++ [name]) name) :
    newestDated? target (names ++ [name]) = some name := by
  obtain ⟨-, r, hdate, hnewest⟩ := h
  have hsplit : datedNames target (names ++ [name]) = datedNames target names ++ [(r, name)] := by
    simp [datedNames, List.filterMap_append, datedName?_eq_some_iff.mpr hdate]
  have hlast : (datedNames target (names ++ [name])).foldl newer none = some (r, name) := by
    rw [hsplit, List.foldl_concat]
    cases hfront : (datedNames target names).foldl newer none with
    | none => rfl
    | some b =>
        obtain ⟨hfrom, -⟩ := newest_of_foldl hfront
        obtain ⟨hname, hb⟩ := mem_datedNames.mp (hfrom.resolve_left (by simp))
        have hle := hnewest b.2 (List.mem_append_left _ hname) b.1 hb
        simp [newer, hle]
  exact Option.map_eq_some_iff.mpr ⟨_, hlast, rfl⟩

/-! ### Look-ups -/

variable {t : FileTree} {dir p : PathName} {revision : Option Revision}

theorem LacksRevision.not_isFile (h : LacksRevision t dir target revision)
    (hr : revision = some r) : ¬ t.isFile (revisionFile dir target r) = true :=
  Bool.eq_false_iff.mp (h r hr)

theorem moduleFile?_of_wanted (hr : revision = some r)
    (hfile : t.isFile (revisionFile dir target r) = true) :
    moduleFile? t dir target revision = some (revisionFile dir target r) := by
  simp [moduleFile?, hr, Option.filter_some, hfile]

theorem moduleFile?_of_lacksRevision (h : LacksRevision t dir target revision) :
    moduleFile? t dir target revision =
      if t.isFile (plainFile dir target) then some (plainFile dir target)
      else (t.names? dir).bind fun names =>
        (newestDated? target names).map fun name => dir.join ⟨name⟩ := by
  have hwanted : (revision.map (revisionFile dir target)).filter (fun p => t.isFile p) = none := by
    cases revision with
    | none => rfl
    | some r => simp [Option.filter_some, h r rfl]
  unfold moduleFile?
  rw [hwanted]

theorem lacksRevision_or_exists (t : FileTree) (dir : PathName) (target : String)
    (revision : Option Revision) :
    LacksRevision t dir target revision ∨
      ∃ r, revision = some r ∧ t.isFile (revisionFile dir target r) = true := by
  by_cases h : ∃ r, revision = some r ∧ t.isFile (revisionFile dir target r) = true
  · exact .inr h
  · exact .inl fun r hr => Bool.eq_false_iff.mpr fun hfile => h ⟨r, hr, hfile⟩

theorem offers_of_moduleFile? (h : moduleFile? t dir target revision = some p) :
    Offers t dir target revision p := by
  rcases lacksRevision_or_exists t dir target revision with hlacks | ⟨r, hr, hfile⟩
  · rw [moduleFile?_of_lacksRevision hlacks] at h
    split at h
    · rename_i hplain
      cases h
      exact .plain hlacks hplain
    · rename_i hplain
      obtain ⟨names, hnames, h⟩ := Option.bind_eq_some_iff.mp h
      obtain ⟨name, hname, rfl⟩ := Option.map_eq_some_iff.mp h
      exact .newest hlacks (Bool.eq_false_iff.mpr hplain) hnames (isNewest_of_newestDated? hname)
  · rw [moduleFile?_of_wanted hr hfile] at h
    cases h
    exact .wanted hr hfile

theorem moduleFile?_eq_none_iff :
    moduleFile? t dir target revision = none ↔
      LacksRevision t dir target revision ∧ t.isFile (plainFile dir target) = false ∧
        ∀ names, t.names? dir = some names → ∀ name ∈ names, ∀ r, ¬ HasDate target r name := by
  rcases lacksRevision_or_exists t dir target revision with hlacks | ⟨r, hr, hfile⟩
  · rw [moduleFile?_of_lacksRevision hlacks]
    cases hplain : t.isFile (plainFile dir target) with
    | true => simp
    | false =>
        simp only [hlacks, Bool.false_eq_true, if_false, true_and, Option.bind_eq_none_iff,
          Option.map_eq_none_iff, newestDated?_eq_none_iff]
  · rw [moduleFile?_of_wanted hr hfile]
    constructor
    · intro h
      cases h
    · rintro ⟨hlacks, -⟩
      exact absurd hfile (hlacks.not_isFile hr)

/-- Something is found wherever an entry may stand for the module. -/
theorem moduleFile?_eq_none_iff_not_offers :
    moduleFile? t dir target revision = none ↔ ∀ p, ¬ Offers t dir target revision p := by
  constructor
  · intro hnone p hoffers
    obtain ⟨hlacks, hplain, hdates⟩ := moduleFile?_eq_none_iff.mp hnone
    cases hoffers with
    | wanted hr hfile => exact hlacks.not_isFile hr hfile
    | plain _ hfile => exact Bool.eq_false_iff.mp hplain hfile
    | newest _ _ hnames hname =>
        obtain ⟨hmem, r, hdate, -⟩ := hname
        exact hdates _ hnames _ hmem r hdate
  · intro h
    cases hfound : moduleFile? t dir target revision with
    | none => rfl
    | some p => exact absurd (offers_of_moduleFile? hfound) (h p)

/-! ### Other listings -/

variable {order : Entries → Entries}

theorem isNewest_of_perm {names' : List String} (hperm : names.Perm names')
    (h : IsNewest target names name) : IsNewest target names' name := by
  obtain ⟨hname, r, hdate, hnewest⟩ := h
  exact ⟨hperm.mem_iff.mp hname, r, hdate,
    fun other hother => hnewest other (hperm.mem_iff.mpr hother)⟩

/-- Only what is a file and which names are listed matters, and not their order. -/
theorem Offers.of_same {t' : FileTree} (hfile : ∀ p, t.isFile p = t'.isFile p)
    (hnames : ∀ names, t.names? dir = some names →
      ∃ names', t'.names? dir = some names' ∧ names.Perm names')
    (h : Offers t dir target revision p) : Offers t' dir target revision p := by
  have hlacks : LacksRevision t dir target revision → LacksRevision t' dir target revision :=
    fun hlacks r hr => (hfile _).symm.trans (hlacks r hr)
  cases h with
  | wanted hr hwanted => exact .wanted hr ((hfile _).symm.trans hwanted)
  | plain hwanted hplain => exact .plain (hlacks hwanted) ((hfile _).symm.trans hplain)
  | newest hwanted hplain hlisted hname =>
      obtain ⟨names', hlisted', hperm⟩ := hnames _ hlisted
      exact .newest (hlacks hwanted) ((hfile _).symm.trans hplain) hlisted'
        (isNewest_of_perm hperm hname)

theorem offers_relist_iff (horder : IsListing order) (ht : t.root.Distinct) :
    Offers (t.relist order) dir target revision p ↔ Offers t dir target revision p := by
  have hrel := t.names?_relist horder ht dir
  constructor
  · refine Offers.of_same (t.isFile_relist horder ht) fun names hlisted => ?_
    rw [hlisted] at hrel
    generalize t.names? dir = listed at hrel ⊢
    cases hrel with
    | some hperm => exact ⟨_, rfl, hperm⟩
  · refine Offers.of_same (fun p => (t.isFile_relist horder ht p).symm) fun names hlisted => ?_
    rw [hlisted] at hrel
    generalize (t.relist order).names? dir = listed at hrel ⊢
    cases hrel with
    | some hperm => exact ⟨_, rfl, hperm.symm⟩

/-- Every entry that may stand for a module is found in some order: the newest, if listed last. -/
theorem exists_listing_of_offers (ht : t.root.Distinct) (h : Offers t dir target revision p) :
    ∃ order, IsListing order ∧ moduleFile? (t.relist order) dir target revision = some p := by
  have hid : IsListing id := fun _ => .refl _
  cases h with
  | wanted hr hfile => exact ⟨id, hid, by rw [t.relist_id, moduleFile?_of_wanted hr hfile]⟩
  | plain hwanted hfile =>
      refine ⟨id, hid, ?_⟩
      rw [t.relist_id, moduleFile?_of_lacksRevision hwanted, if_pos hfile]
  | @newest names name hwanted hplain hnames hname =>
      have horder := FileTree.isListing_putLast name
      have hlast := t.names?_relist_putLast ht hnames hname.1
      have hperm := t.names?_relist horder ht dir
      rw [hlast, hnames] at hperm
      have hlacks : LacksRevision (t.relist (FileTree.putLast name)) dir target revision :=
        fun r hr => (t.isFile_relist horder ht _).trans (hwanted r hr)
      refine ⟨FileTree.putLast name, horder, ?_⟩
      cases hperm with
      | some hperm =>
          rw [moduleFile?_of_lacksRevision hlacks, t.isFile_relist horder ht, hplain, hlast,
            Option.bind_some, newestDated?_concat (isNewest_of_perm hperm.symm hname)]
          rfl

/-- The newest of names in which each date stands as it is written is one. -/
theorem Offers.unique (hwritten : ∀ names, t.names? dir = some names → ∀ name ∈ names, ∀ r,
      HasDate target r name → name = target ++ "@" ++ r.text ++ ".yin")
    {q : PathName} (hp : Offers t dir target revision p) (hq : Offers t dir target revision q) :
    p = q := by
  cases hp with
  | @wanted r hr hfile =>
      cases hq with
      | wanted hr' _ => rw [Option.some.inj (hr.symm.trans hr')]
      | plain hwanted _ => exact absurd hfile (hwanted.not_isFile hr)
      | newest hwanted _ _ _ => exact absurd hfile (hwanted.not_isFile hr)
  | plain hwanted hfile =>
      cases hq with
      | wanted hr hfile' => exact absurd hfile' (hwanted.not_isFile hr)
      | plain _ _ => rfl
      | newest _ hplain _ _ => exact absurd hfile (Bool.eq_false_iff.mp hplain)
  | newest hwanted hplain hnames hname =>
      cases hq with
      | wanted hr hfile => exact absurd hfile (hwanted.not_isFile hr)
      | plain _ hfile => exact absurd hfile (Bool.eq_false_iff.mp hplain)
      | newest _ _ hnames' hname' =>
          obtain rfl := Option.some.inj (hnames.symm.trans hnames')
          obtain ⟨hmem, r, hdate, hnewest⟩ := hname
          obtain ⟨hmem', r', hdate', hnewest'⟩ := hname'
          obtain rfl := Revision.le_antisymm (hnewest' _ hmem _ hdate) (hnewest _ hmem' _ hdate')
          rw [hwritten _ hnames _ hmem _ hdate, hwritten _ hnames _ hmem' _ hdate']

/-- Over all orders in which directories can be listed, the files that are found for a module are
those that may stand for it, and in each order one is found if there is any. So the order matters
exactly when there are two, which takes a date that is not written as dates are. -/
theorem module_files_over_listings (t : FileTree) (ht : t.root.Distinct) (dir : PathName)
    (target : String) (revision : Option Revision) :
    (∀ p, (∃ order, IsListing order ∧
        moduleFile? (t.relist order) dir target revision = some p) ↔
      Offers t dir target revision p) ∧
    (∀ order, IsListing order → (moduleFile? (t.relist order) dir target revision = none ↔
      LacksRevision t dir target revision ∧ t.isFile (plainFile dir target) = false ∧
        ∀ names, t.names? dir = some names → ∀ name ∈ names, ∀ r, ¬ HasDate target r name)) ∧
    ((∀ order, IsListing order → moduleFile? (t.relist order) dir target revision =
        moduleFile? t dir target revision) ↔
      ∀ p q, Offers t dir target revision p → Offers t dir target revision q → p = q) ∧
    ((∀ names, t.names? dir = some names → ∀ name ∈ names, ∀ r,
        HasDate target r name → name = target ++ "@" ++ r.text ++ ".yin") →
      ∀ p q, Offers t dir target revision p → Offers t dir target revision q → p = q) := by
  have hfound : ∀ {order p}, IsListing order →
      moduleFile? (t.relist order) dir target revision = some p → Offers t dir target revision p :=
    fun horder h => (offers_relist_iff horder ht).mp (offers_of_moduleFile? h)
  have hnone : ∀ {order}, IsListing order →
      (moduleFile? (t.relist order) dir target revision = none ↔
        moduleFile? t dir target revision = none) := by
    intro order horder
    simp only [moduleFile?_eq_none_iff_not_offers, offers_relist_iff horder ht]
  refine ⟨fun p => ⟨fun ⟨order, horder, h⟩ => hfound horder h, exists_listing_of_offers ht⟩,
    fun order horder => (hnone horder).trans moduleFile?_eq_none_iff, ⟨?_, ?_⟩,
    fun hwritten p q => Offers.unique hwritten⟩
  · intro hsame p q hp hq
    obtain ⟨order, horder, hp⟩ := exists_listing_of_offers ht hp
    obtain ⟨order', horder', hq⟩ := exists_listing_of_offers ht hq
    rw [hsame order horder] at hp
    rw [hsame order' horder'] at hq
    exact Option.some.inj (hp.symm.trans hq)
  · intro hunique order horder
    cases h : moduleFile? (t.relist order) dir target revision with
    | none => exact ((hnone horder).mp h).symm
    | some p =>
        cases h' : moduleFile? t dir target revision with
        | none => rw [(hnone horder).mpr h'] at h; cases h
        | some q => rw [hunique p q (hfound horder h) (offers_of_moduleFile? h')]

/-- A directory of empty files with the given names. -/
def filesNamed (names : List String) : FileTree :=
  ⟨.directory [("d", .directory (names.map fun name => (name, .file [])))], ⟨"/"⟩⟩

theorem distinct_filesNamed {names : List String} (h : names.Nodup) :
    (filesNamed names).root.Distinct := by
  have hall : ∀ names : List String,
      FileEntry.DistinctAll (names.map fun name => (name, FileEntry.file [])) := by
    intro names
    induction names with
    | nil => exact True.intro
    | cons name rest ih => exact ⟨True.intro, ih⟩
  refine ⟨by simp, ⟨?_, hall names⟩, True.intro⟩
  simpa [Function.comp_def] using h

/-- Two revisions of a module. -/
def revisedTypes : FileTree :=
  filesNamed ["types@2020-01-01.yin", "types@2021-06-01.yin"]

theorem module_files_over_listings_newest :
    revisedTypes.root.Distinct ∧ ∀ order, IsListing order →
      moduleFile? (revisedTypes.relist order) ⟨"d"⟩ "types" none =
        some ⟨"d/types@2021-06-01.yin"⟩ := by
  have hdistinct : revisedTypes.root.Distinct := distinct_filesNamed (by decide)
  obtain ⟨-, -, hsame, hwritten⟩ := module_files_over_listings _ hdistinct ⟨"d"⟩ "types" none
  have hnames : revisedTypes.names? ⟨"d"⟩ =
      some ["types@2020-01-01.yin", "types@2021-06-01.yin"] := by decide +kernel
  have htexts : ∀ name ∈ ["types@2020-01-01.yin", "types@2021-06-01.yin"],
      (datedName? "types" name).map (fun r => "types" ++ "@" ++ r.text ++ ".yin") = some name := by
    decide +kernel
  have hfound : moduleFile? revisedTypes ⟨"d"⟩ "types" none =
      some ⟨"d/types@2021-06-01.yin"⟩ := by decide +kernel
  refine ⟨hdistinct, fun order horder => (hsame.mpr (hwritten ?_) order horder).trans hfound⟩
  intro names hlisted name hname r hdate
  obtain rfl := Option.some.inj (hnames.symm.trans hlisted)
  have htext := htexts name hname
  rw [datedName?_eq_some_iff.mpr hdate] at htext
  exact (Option.some.inj htext).symm

/-- Two names with one date, of which the second is no text of a date. -/
def respelledTypes : FileTree :=
  filesNamed ["types@2020-01-01.yin", "types@2020-+1-01.yin"]

/-- Where two names have one date, the order in which they are listed decides; and a name whose date
is written otherwise can come before one whose date is written as dates are. -/
theorem listing_order_decides_module :
    respelledTypes.root.Distinct ∧ IsListing List.reverse ∧
      moduleFile? respelledTypes ⟨"d"⟩ "types" none = some ⟨"d/types@2020-+1-01.yin"⟩ ∧
      moduleFile? (respelledTypes.relist List.reverse) ⟨"d"⟩ "types" none =
        some ⟨"d/types@2020-01-01.yin"⟩ ∧
      moduleFile? (filesNamed ["types@2020-01-01.yin", "types@2020-+2-01.yin"]) ⟨"d"⟩ "types" none =
        some ⟨"d/types@2020-+2-01.yin"⟩ :=
  ⟨distinct_filesNamed (by decide), List.reverse_perm, by decide +kernel, by decide +kernel,
    by decide +kernel⟩

end YangEvolution.Loading
