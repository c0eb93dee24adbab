/-!
# Sorted Maps

Lists of keys with values, in the order of the keys and without repeats. A value is changed where it
stands, and a key that is not there yet is put in at its place.

## Main definitions

* `SortedMap.update`, `SortedMap.gather`: Changes the value of a key, and collects values under keys.
-/

namespace Isolation.SortedMap

/-- Pairs are compared by their first components, and by their second ones if these are equal. -/
instance pairOrder {α β : Type} [Ord α] [Ord β] : Ord (α × β) where
  compare p q := (compare p.1 q.1).then (compare p.2 q.2)

variable {α β : Type} [Ord α]

/-- Changes the value of a key; what it becomes may depend on whether there was one. -/
def update (key : α) (change : Option β → β) : List (α × β) → List (α × β)
  | [] => [(key, change none)]
  | (k, value) :: rest =>
    match compare key k with
    | .lt => (key, change none) :: (k, value) :: rest
    | .eq => (k, change (some value)) :: rest
    | .gt => (k, value) :: update key change rest

/-- Collects values under their keys, each by the given insertion. -/
def gather {γ : Type} (insert : γ → List γ → List γ) (entries : List (α × γ)) : List (α × List γ) :=
  entries.foldl
    (fun map (key, x) => update key (fun values => insert x (values.getD [])) map) []

end Isolation.SortedMap
