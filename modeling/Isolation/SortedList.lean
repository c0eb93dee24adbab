/-!
# Sorted Lists

Lists in ascending order without repeats, as sets that can be listed. Insertion leaves a list as it is
if the element is already there.

## Main definitions

* `SortedList.insert`, `SortedList.ofList`: Adds an element at its place, and sorts a list.
-/

namespace Isolation.SortedList

variable {α : Type} [Ord α]

/-- Adds an element at its place, if it is not there already. -/
def insert (a : α) : List α → List α
  | [] => [a]
  | b :: rest =>
    match compare a b with
    | .lt => a :: b :: rest
    | .eq => b :: rest
    | .gt => b :: insert a rest

/-- The elements of a list in ascending order, each once. -/
def ofList (l : List α) : List α :=
  l.foldl (fun sorted a => insert a sorted) []

section SortBy

variable {β : Type} (compare : β → β → Ordering)

/-- Puts an element before the first one that it does not exceed. -/
def place (b : β) : List β → List β
  | [] => [b]
  | c :: rest => if compare b c = .gt then c :: place b rest else b :: c :: rest

/-- The elements of a list in ascending order. Those that compare equal keep their order. -/
def sortBy (l : List β) : List β :=
  l.foldr (place compare) []

end SortBy

end Isolation.SortedList
