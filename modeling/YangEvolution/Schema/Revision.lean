import YangEvolution.Text.Blank
import YangEvolution.Text.Json
import YangEvolution.Text.Split

/-!
Revision dates. A date is read from `YYYY-MM-DD` and ordered in time; that a month has so many
days is not checked.
-/

namespace YangEvolution

open Text

structure Revision where
  year : Nat
  month : Nat
  day : Nat
  month_mem : 1 ≤ month ∧ month ≤ 12
  day_mem : 1 ≤ day ∧ day ≤ 31
  deriving DecidableEq

/-- A text that is no date. -/
structure InvalidRevision where
  given : String
  deriving DecidableEq

def InvalidRevision.message (e : InvalidRevision) : String :=
  "invalid revision date '" ++ e.given ++ "'"

namespace Revision

def ofParts? (year month day : Nat) : Option Revision :=
  if h : (1 ≤ month ∧ month ≤ 12) ∧ (1 ≤ day ∧ day ≤ 31) then
    some ⟨year, month, day, h.1, h.2⟩
  else none

/-- A number written with exactly `width` characters. -/
def readField (width : Nat) (cs : List Char) : Option Nat :=
  if cs.length = width then readUnsigned (Nat.pow 10 width) cs else none

def readChars? (cs : List Char) : Option Revision :=
  match pieces '-' cs with
  | [year, month, day] => do
    ofParts? (← readField 4 year) (← readField 2 month) (← readField 2 day)
  | _ => none

/-- Reads a date; blanks around it are ignored. -/
def read? (s : String) : Option Revision :=
  readChars? (trimChars s.toList)

/-- Reads a date, or tells what was given instead of one. -/
def read (s : String) : Except InvalidRevision Revision :=
  match read? s with
  | some r => .ok r
  | none => .error ⟨s⟩

def text (r : Revision) : String :=
  paddedText 4 r.year ++ "-" ++ paddedText 2 r.month ++ "-" ++ paddedText 2 r.day

def toJson (r : Revision) : Json :=
  .str r.text

/-- The position of a date in time, with room for the months and days that do not exist. -/
def ordinal (r : Revision) : Nat :=
  (r.year * 13 + r.month) * 32 + r.day

instance : LE Revision := ⟨fun a b => a.ordinal ≤ b.ordinal⟩

instance : LT Revision := ⟨fun a b => a.ordinal < b.ordinal⟩

instance (a b : Revision) : Decidable (a ≤ b) := inferInstanceAs (Decidable (a.ordinal ≤ b.ordinal))

instance (a b : Revision) : Decidable (a < b) := inferInstanceAs (Decidable (a.ordinal < b.ordinal))

/-- The later of two dates. -/
def later (a b : Revision) : Revision :=
  if a ≤ b then b else a

def newest? : List Revision → Option Revision
  | [] => none
  | r :: rest => some (rest.foldl later r)

theorem le_def {a b : Revision} : a ≤ b ↔ a.ordinal ≤ b.ordinal := Iff.rfl

theorem lt_def {a b : Revision} : a < b ↔ a.ordinal < b.ordinal := Iff.rfl

theorem ordinal_inj {a b : Revision} (h : a.ordinal = b.ordinal) : a = b := by
  obtain ⟨y, m, d, hm, hd⟩ := a
  obtain ⟨y', m', d', hm', hd'⟩ := b
  simp only [ordinal] at h
  simp only [mk.injEq]
  omega

theorem le_antisymm {a b : Revision} (hab : a ≤ b) (hba : b ≤ a) : a = b :=
  ordinal_inj (Nat.le_antisymm hab hba)

end Revision

end YangEvolution
