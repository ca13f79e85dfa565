import Mathlib.Data.List.Nodup
import YangEvolution.Files.FileTree
import YangEvolution.Proofs.FirstMatch

/-!
File trees whose directories are listed in another order. Main statement: where the names of each
directory are distinct, every path name leads to the same entry as before, listed in the new order,
so that the same path names are files and each directory has the same names.
-/

namespace YangEvolution

/-- Where keys are different, what is kept under a key does not depend on the order. -/
theorem lookup_of_perm {α β : Type} [BEq α] [LawfulBEq α] {l l' : List (α × β)} (h : l.Perm l')
    (hnodup : (l.map Prod.fst).Nodup) (k : α) : l.lookup k = l'.lookup k := by
  have hfind : ∀ entries : List (α × β),
      entries.lookup k = (entries.find? fun entry => entry.1 == k).map Prod.snd := by
    intro entries
    induction entries with
    | nil => rfl
    | cons entry rest ih =>
        rw [List.lookup_cons, List.find?_cons, ih, BEq.comm]
        cases entry.1 == k <;> rfl
  rw [hfind, hfind, find?_key_of_perm h hnodup]

/-- The entries of a directory. -/
abbrev Entries := List (String × FileEntry)

/-- An order in which the entries of directories can be listed. -/
def IsListing (order : Entries → Entries) : Prop :=
  ∀ entries, (order entries).Perm entries

namespace FileEntry

mutual

/-- The same entry, with every directory in it listed in another order. -/
def relist (order : Entries → Entries) : FileEntry → FileEntry
  | .file content => .file content
  | .directory entries => .directory (order (relistAll order entries))

def relistAll (order : Entries → Entries) : Entries → Entries
  | [] => []
  | (name, e) :: rest => (name, e.relist order) :: relistAll order rest

end

mutual

/-- The names of each directory are different from one another. -/
def Distinct : FileEntry → Prop
  | .file _ => True
  | .directory entries => (entries.map Prod.fst).Nodup ∧ DistinctAll entries

def DistinctAll : Entries → Prop
  | [] => True
  | (_, e) :: rest => e.Distinct ∧ DistinctAll rest

end

variable {order : Entries → Entries} {entries : Entries}

theorem map_fst_relistAll (order : Entries → Entries) (entries : Entries) :
    (relistAll order entries).map Prod.fst = entries.map Prod.fst := by
  induction entries with
  | nil => rfl
  | cons entry rest ih => simp [relistAll, ih]

theorem lookup_relistAll (order : Entries → Entries) (entries : Entries) (name : String) :
    (relistAll order entries).lookup name = (entries.lookup name).map (relist order) := by
  induction entries with
  | nil => rfl
  | cons entry rest ih =>
      rw [relistAll, List.lookup_cons, List.lookup_cons, ih]
      cases name == entry.1 <;> rfl

theorem lookup_order_relistAll (horder : IsListing order) (h : (entries.map Prod.fst).Nodup)
    (name : String) :
    (order (relistAll order entries)).lookup name = (entries.lookup name).map (relist order) := by
  rw [← lookup_relistAll]
  refine (lookup_of_perm (horder _).symm ?_ name).symm
  rw [map_fst_relistAll]
  exact h

theorem DistinctAll.of_lookup (h : DistinctAll entries) {name : String} {e : FileEntry}
    (he : entries.lookup name = some e) : e.Distinct := by
  induction entries with
  | nil => cases he
  | cons entry rest ih =>
      obtain ⟨hentry, hrest⟩ := h
      rw [List.lookup_cons] at he
      split at he
      · cases he
        exact hentry
      · exact ih hrest he

/-- Parts lead to the same entry whatever the order. -/
theorem follow_relist (horder : IsListing order) (parts : List String) (trail : List FileEntry)
    {e : FileEntry} (htrail : ∀ d ∈ trail, d.Distinct) (he : e.Distinct) :
    follow (trail.map (relist order)) (e.relist order) parts =
      (follow trail e parts).map (relist order) := by
  induction parts generalizing trail e with
  | nil => rfl
  | cons part rest ih =>
      cases e with
      | file content => rfl
      | directory entries =>
          have hsame : relist order (.directory entries) =
              .directory (order (relistAll order entries)) := by rw [relist]
          rw [hsame]
          simp only [follow]
          split
          · rw [← hsame]
            exact ih _ htrail he
          · split
            · cases trail with
              | nil =>
                  rw [← hsame]
                  exact ih _ htrail he
              | cons above trail =>
                  obtain ⟨habove, htrail⟩ := List.forall_mem_cons.mp htrail
                  exact ih _ htrail habove
            · split
              · rfl
              · rw [lookup_order_relistAll horder he.1]
                cases hnext : entries.lookup part with
                | none => rfl
                | some next =>
                    have hbelow : ∀ d ∈ FileEntry.directory entries :: trail, d.Distinct :=
                      List.forall_mem_cons.mpr ⟨he, htrail⟩
                    simpa [hsame] using ih _ hbelow (he.2.of_lookup hnext)

mutual

theorem relist_id : ∀ e : FileEntry, e.relist id = e
  | .file _ => rfl
  | .directory entries => by rw [relist, relistAll_id entries]; rfl

theorem relistAll_id : ∀ entries : Entries, relistAll id entries = entries
  | [] => rfl
  | (name, e) :: rest => by rw [relistAll, relist_id e, relistAll_id rest]

end

end FileEntry

namespace FileTree

/-- The same tree, with every directory listed in another order. -/
def relist (t : FileTree) (order : Entries → Entries) : FileTree :=
  { t with root := t.root.relist order }

variable {t : FileTree} {order : Entries → Entries}

theorem relist_id (t : FileTree) : t.relist id = t := by
  rw [relist, FileEntry.relist_id]

theorem find_relist (horder : IsListing order) (ht : t.root.Distinct) (p : PathName) :
    (t.relist order).find p = (t.find p).map (FileEntry.relist order) := by
  have hfollow := FileEntry.follow_relist horder (t.way p) []
    (fun d hd => absurd hd List.not_mem_nil) ht
  unfold find
  split
  · rfl
  · split
    · rfl
    · split
      · rfl
      · exact hfollow

theorem isFile_relist (horder : IsListing order) (ht : t.root.Distinct) (p : PathName) :
    (t.relist order).isFile p = t.isFile p := by
  unfold isFile
  rw [find_relist horder ht]
  cases t.find p with
  | error fault => rfl
  | ok e => cases e <;> rfl

theorem names?_eq_some_iff {p : PathName} {names : List String} :
    t.names? p = some names ↔
      ∃ entries, t.find p = .ok (.directory entries) ∧ entries.map Prod.fst = names := by
  unfold names?
  cases t.find p with
  | error fault => simp
  | ok e => cases e <;> simp

theorem names?_relist_of_find (horder : IsListing order) (ht : t.root.Distinct) {p : PathName}
    {entries : Entries} (h : t.find p = .ok (.directory entries)) :
    (t.relist order).names? p =
      some ((order (FileEntry.relistAll order entries)).map Prod.fst) := by
  refine names?_eq_some_iff.mpr ⟨_, ?_, rfl⟩
  rw [find_relist horder ht, h]
  simp [Except.map, FileEntry.relist]

/-- A directory has the same names in every order. -/
theorem names?_relist (horder : IsListing order) (ht : t.root.Distinct) (p : PathName) :
    Option.Rel List.Perm ((t.relist order).names? p) (t.names? p) := by
  cases hnames : t.names? p with
  | some names =>
      obtain ⟨entries, hfind, rfl⟩ := names?_eq_some_iff.mp hnames
      rw [names?_relist_of_find horder ht hfind, ← FileEntry.map_fst_relistAll order entries]
      exact .some ((horder _).map Prod.fst)
  | none =>
      unfold names? at hnames ⊢
      rw [find_relist horder ht]
      cases hfind : t.find p with
      | error fault => exact .none
      | ok e =>
          cases e with
          | file content => exact .none
          | directory entries => simp [hfind] at hnames

theorem nodup_of_names? (ht : t.root.Distinct) {p : PathName} {names : List String}
    (h : t.names? p = some names) : names.Nodup := by
  obtain ⟨entries, hfind, rfl⟩ := names?_eq_some_iff.mp h
  unfold find at hfind
  split at hfind
  · cases hfind
  split at hfind
  · cases hfind
  split at hfind
  · cases hfind
  have hdistinct := FileEntry.follow_induction (P := FileEntry.Distinct)
    (fun hdir hnext => hdir.2.of_lookup hnext) (fun d hd => absurd hd List.not_mem_nil) ht hfind
  exact hdistinct.1

/-- The order in which a name comes after all others. -/
def putLast (name : String) (entries : Entries) : Entries :=
  entries.filter (fun entry => entry.1 != name) ++ entries.filter (fun entry => entry.1 == name)

theorem isListing_putLast (name : String) : IsListing (putLast name) := by
  intro entries
  have hsplit := List.filter_append_perm (fun entry : String × FileEntry => entry.1 != name) entries
  simpa only [putLast, bne, Bool.not_not] using hsplit

theorem names?_relist_putLast (ht : t.root.Distinct) {p : PathName} {names : List String}
    (h : t.names? p = some names) {name : String} (hname : name ∈ names) :
    (t.relist (putLast name)).names? p = some (names.filter (fun n => n != name) ++ [name]) := by
  have hnodup := nodup_of_names? ht h
  obtain ⟨entries, hfind, rfl⟩ := names?_eq_some_iff.mp h
  have hone : (entries.map Prod.fst).filter (fun n => n == name) = [name] := by
    rw [List.filter_beq, List.count_eq_one_of_mem hnodup hname]
    rfl
  rw [names?_relist_of_find (isListing_putLast name) ht hfind, ← hone,
    ← FileEntry.map_fst_relistAll (putLast name) entries, List.filter_map, List.filter_map,
    ← List.map_append]
  rfl

end FileTree

end YangEvolution
