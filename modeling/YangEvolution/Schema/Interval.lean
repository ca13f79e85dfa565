import YangEvolution.Text.Scaled

/-!
Closed intervals of 128-bit integers. A list of intervals stands for the integers in any of them;
merging sorts the list and joins what overlaps or touches, and one list covers another when each
interval of the other lies within a single merged interval.
-/

namespace YangEvolution

open Text

structure Interval where
  min : Int
  max : Int
  deriving DecidableEq

namespace Interval

def single (v : Int) : Interval := ⟨v, v⟩

/-- Whether `v` lies in the interval. -/
def Has (i : Interval) (v : Int) : Prop :=
  i.min ≤ v ∧ v ≤ i.max

/-- The order of the lower ends, and of the upper ends where those are equal. -/
def before (i j : Interval) : Bool :=
  i.min < j.min || (i.min == j.min && i.max ≤ j.max)

/-- Inserts an interval at its place in a sorted list. -/
def insertSorted (i : Interval) : List Interval → List Interval
  | [] => [i]
  | j :: rest => if before i j then i :: j :: rest else j :: insertSorted i rest

def sort : List Interval → List Interval
  | [] => []
  | i :: rest => insertSorted i (sort rest)

/-- Joins the intervals of a sorted list that overlap or touch, where `current` comes before all of
them. -/
def joinSorted (current : Interval) : List Interval → List Interval
  | [] => [current]
  | i :: rest =>
    if i.min ≤ saturate (current.max + 1) then
      joinSorted ⟨current.min, Max.max current.max i.max⟩ rest
    else current :: joinSorted i rest

/-- The same integers as intervals in order with a gap between each two. -/
def merge (intervals : List Interval) : List Interval :=
  match sort intervals with
  | [] => []
  | i :: rest => joinSorted i rest

def within (inner outer : Interval) : Bool :=
  outer.min ≤ inner.min && inner.max ≤ outer.max

/-- Whether each interval of `inner` lies within one merged interval of `outer`. -/
def cover (outer inner : List Interval) : Bool :=
  inner.all fun i => (merge outer).any fun o => i.within o

/-- Both ends, or the one value of an interval of equal ends. -/
def text (number : Int → String) (i : Interval) : String :=
  if i.min = i.max then number i.min else number i.min ++ ".." ++ number i.max

/-- The intervals between brackets, with bars between them. -/
def listText (number : Int → String) (intervals : List Interval) : String :=
  "[" ++ join " | " (intervals.map (text number)) ++ "]"

end Interval

end YangEvolution
