/-!
# Totals

The sum of a measure over a list: bytes of a text, edges of a graph, days of a year.

## Main definitions

* `total`: The sum of a measure.

## Theorems

* `length_flatMap_eq_total`: The length of a list that is put together from lists.
-/

namespace Isolation

/-- The sum of a measure over a list. -/
def total {α : Type} (measure : α → Nat) : List α → Nat
  | [] => 0
  | a :: rest => measure a + total measure rest

@[simp]
theorem total_cons {α : Type} (measure : α → Nat) (a : α) (rest : List α) :
    total measure (a :: rest) = measure a + total measure rest := rfl

/-- Totals of parts add up. -/
@[simp]
theorem total_append {α : Type} (measure : α → Nat) (l k : List α) :
    total measure (l ++ k) = total measure l + total measure k := by
  induction l with
  | nil => simp [total]
  | cons a rest ih => simp [ih, Nat.add_assoc]

theorem total_congr {α : Type} {measure other : α → Nat} {l : List α}
    (h : ∀ a ∈ l, measure a = other a) : total measure l = total other l := by
  induction l with
  | nil => rfl
  | cons a rest ih =>
    rw [total_cons, total_cons, h a List.mem_cons_self,
      ih fun b hb => h b (List.mem_cons_of_mem a hb)]

theorem total_map {α β : Type} (measure : β → Nat) (f : α → β) (l : List α) :
    total measure (l.map f) = total (fun a => measure (f a)) l := by
  induction l with
  | nil => rfl
  | cons a rest ih => rw [List.map_cons, total_cons, total_cons, ih]

theorem total_flatMap {α β : Type} (measure : β → Nat) (f : α → List β) (l : List α) :
    total measure (l.flatMap f) = total (fun a => total measure (f a)) l := by
  induction l with
  | nil => rfl
  | cons a rest ih => rw [List.flatMap_cons, total_append, total_cons, ih]

theorem length_flatMap_eq_total {α β : Type} (f : α → List β) (l : List α) :
    (l.flatMap f).length = total (fun a => (f a).length) l := by
  induction l with
  | nil => rfl
  | cons a rest ih => rw [List.flatMap_cons, List.length_append, total_cons, ih]

end Isolation
