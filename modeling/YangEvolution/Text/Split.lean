/-!
Texts taken apart: at every occurrence of a character, at the first occurrence of a separator,
and into lines.
-/

namespace YangEvolution.Text

/-- The pieces of `cs` between occurrences of `c`, where `piece` is the reversed beginning of the
first one. -/
def piecesFrom (c : Char) (piece : List Char) : List Char → List (List Char)
  | [] => [piece.reverse]
  | x :: xs =>
    if x = c then piece.reverse :: piecesFrom c [] xs
    else piecesFrom c (x :: piece) xs

/-- The pieces of `cs` between occurrences of `c`; one more piece than there are occurrences. -/
def pieces (c : Char) (cs : List Char) : List (List Char) :=
  piecesFrom c [] cs

/-- The parts of `cs` before and after the first occurrence of `sep`. -/
def cut (sep : List Char) : List Char → Option (List Char × List Char)
  | [] => if sep.isEmpty then some ([], []) else none
  | c :: cs =>
    if sep.isPrefixOf (c :: cs) then some ([], (c :: cs).drop sep.length)
    else (cut sep cs).map fun (before, after) => (c :: before, after)

/-- The text after `lead`, when it begins so. -/
def after? (lead : List Char) (cs : List Char) : Option (List Char) :=
  if lead.isPrefixOf cs then some (cs.drop lead.length) else none

/-- The text before `tail`, when it ends so. -/
def before? (tail : List Char) (cs : List Char) : Option (List Char) :=
  if tail.isSuffixOf cs then some (cs.take (cs.length - tail.length)) else none

/-- Whether `sep` occurs in `cs`. -/
def occurs (sep cs : List Char) : Bool :=
  (cut sep cs).isSome

/-- A line without the carriage return that ends it. -/
def dropReturn (line : List Char) : List Char :=
  if line.getLast? = some '\r' then line.dropLast else line

/-- Lines end at a line feed, with at most one carriage return before it. What follows the last
line feed is a line of its own unless it is empty. -/
def lines (cs : List Char) : List (List Char) :=
  let parts := pieces '\n' cs
  let closed := parts.dropLast.map dropReturn
  match parts.getLast? with
  | some (c :: rest) => closed ++ [c :: rest]
  | _ => closed

/-- The texts one after another with `sep` between them. -/
def join (sep : String) (texts : List String) : String :=
  String.intercalate sep texts

theorem piecesFrom_ne_nil (c : Char) (piece cs : List Char) : piecesFrom c piece cs ≠ [] := by
  induction cs generalizing piece with
  | nil => simp [piecesFrom]
  | cons x xs ih =>
    simp only [piecesFrom]
    split
    · simp
    · exact ih _

theorem pieces_ne_nil (c : Char) (cs : List Char) : pieces c cs ≠ [] :=
  piecesFrom_ne_nil c [] cs

theorem eq_append_of_cut {sep cs before after : List Char}
    (h : cut sep cs = some (before, after)) : cs = before ++ sep ++ after := by
  induction cs generalizing before with
  | nil =>
    simp only [cut] at h
    split at h
    · simp_all
    · simp at h
  | cons c cs ih =>
    simp only [cut] at h
    split at h
    · rename_i hp
      obtain ⟨rest, hrest⟩ := List.isPrefixOf_iff_prefix.1 hp
      simp only [Option.some.injEq, Prod.mk.injEq] at h
      obtain ⟨rfl, rfl⟩ := h
      simp [← hrest]
    · obtain ⟨⟨b, a⟩, hcut, heq⟩ := Option.map_eq_some_iff.1 h
      simp only [Prod.mk.injEq] at heq
      obtain ⟨rfl, rfl⟩ := heq
      simp [ih hcut]

end YangEvolution.Text
