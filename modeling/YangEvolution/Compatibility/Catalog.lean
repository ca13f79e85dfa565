import YangEvolution.Compatibility.Finding

/-!
Catalogs: findings in the order in which they were first added, each of them once, and beside them
the set of findings that have been seen.
-/

namespace YangEvolution

structure Catalog where
  seen : Finding → Bool
  findings : List Finding
  seen_iff : ∀ f, seen f = true ↔ f ∈ findings
  nodup : findings.Nodup

namespace Catalog

def empty : Catalog where
  seen := fun _ => false
  findings := []
  seen_iff := by simp
  nodup := List.nodup_nil

/-- Adds a finding at the end unless it has been seen already, and tells whether it was added. -/
def record (c : Catalog) (f : Finding) : Bool × Catalog :=
  if h : c.seen f = true then (false, c)
  else
    (true, {
      seen := fun g => g == f || c.seen g
      findings := c.findings ++ [f]
      seen_iff := fun g => by simp [c.seen_iff, or_comm]
      nodup := by
        rw [c.seen_iff] at h
        refine List.nodup_append.2 ⟨c.nodup, by simp, ?_⟩
        intro a ha b hb hab
        rw [List.mem_singleton] at hb
        exact h (hb ▸ hab ▸ ha) })

def add (c : Catalog) (f : Finding) : Catalog :=
  (c.record f).2

def ofList (findings : List Finding) : Catalog :=
  findings.foldl add empty

def size (c : Catalog) : Nat :=
  c.findings.length

def isEmpty (c : Catalog) : Bool :=
  c.findings.isEmpty

/-- How many findings a rule has. -/
def countOf (c : Catalog) (r : Rule) : Nat :=
  c.findings.countP fun f => f.rule == r

def countBySeverity (c : Catalog) (s : Severity) : Nat :=
  c.findings.countP fun f => f.severity == s

def errorCount (c : Catalog) : Nat :=
  c.countBySeverity .error

def warningCount (c : Catalog) : Nat :=
  c.countBySeverity .warning

/-- The findings with their places, counted from one. -/
def numbered (c : Catalog) : List (Nat × Finding) :=
  (c.findings.zipIdx 1).map fun (f, i) => (i, f)

@[simp] theorem findings_empty : empty.findings = [] := rfl

theorem fst_record (c : Catalog) (f : Finding) : (c.record f).1 = !c.seen f := by
  cases h : c.seen f <;> simp [record, h]

theorem findings_add_of_mem {c : Catalog} {f : Finding} (h : f ∈ c.findings) :
    (c.add f).findings = c.findings := by
  simp [add, record, (c.seen_iff f).2 h]

theorem findings_add_of_not_mem {c : Catalog} {f : Finding} (h : f ∉ c.findings) :
    (c.add f).findings = c.findings ++ [f] := by
  simp [add, record, mt (c.seen_iff f).1 h]

theorem mem_add {c : Catalog} {f g : Finding} :
    g ∈ (c.add f).findings ↔ g ∈ c.findings ∨ g = f := by
  by_cases h : f ∈ c.findings
  · rw [findings_add_of_mem h]
    constructor
    · exact Or.inl
    · rintro (hg | rfl)
      · exact hg
      · exact h
  · simp [findings_add_of_not_mem h]

end Catalog

end YangEvolution
