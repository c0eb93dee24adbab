import Isolation.Graph.Tagged
import Isolation.Sat.Engine
import Isolation.Total

/-!
# Searching for a Valuation

The search looks at what is left of the clauses under the choices made so far, takes a literal from a
shortest clause, and tries it both ways.

What is left of a clause remembers which variables were involved in shortening it. When a clause runs
empty, these variables are a reason for the failure. If the reason for the failure of one way does not
involve the variable that was just chosen, the other way fails for the same reason and need not be
tried. Otherwise the two reasons together, without the variable, are a reason for both. What reaches
the top involves assumptions only, and these are the core.

Every choice shortens or removes the clause it came from, so the number of literals that are left bounds
the search.

## Main definitions

* `search`: A set of true variables, or a reason why there is none.
-/

namespace Isolation.Sat

/-- What is left of a clause under some choices. -/
structure Residue where
  literals : List Literal
  /-- The variables of the literals that have become false. -/
  reason : Nat

/-- A literal becomes true. A clause that holds it is satisfied and disappears; from the others the
    opposite literal disappears. -/
def Residue.assign? (l : Literal) (residue : Residue) : Option Residue :=
  if residue.literals.contains l then none
  else if residue.literals.contains l.negate then
    some ⟨residue.literals.filter (· ≠ l.negate), residue.reason ||| bit l.index⟩
  else some residue

def assign (l : Literal) (residues : List Residue) : List Residue :=
  residues.filterMap (Residue.assign? l)

/-- The shorter one of two residues; the first if they are of one length. -/
def Residue.shorter (a b : Residue) : Residue :=
  if b.literals.length < a.literals.length then b else a

def shortest? : List Residue → Option Residue
  | [] => none
  | residue :: rest => some (rest.foldl Residue.shorter residue)

def literalCount (residues : List Residue) : Nat :=
  total (fun residue => residue.literals.length) residues

section Fewer

theorem foldl_shorter_mem (residue : Residue) (rest : List Residue) :
    rest.foldl Residue.shorter residue ∈ residue :: rest := by
  induction rest generalizing residue with
  | nil => simp
  | cons next rest ih =>
    have h := ih (residue.shorter next)
    simp only [List.foldl_cons, List.mem_cons] at h ⊢
    rcases h with h | h
    · rw [h]
      unfold Residue.shorter
      split <;> simp
    · exact Or.inr (Or.inr h)

theorem shortest?_mem {residues : List Residue} {residue : Residue}
    (h : shortest? residues = some residue) : residue ∈ residues := by
  cases residues with
  | nil => simp [shortest?] at h
  | cons first rest =>
    simp only [shortest?, Option.some.injEq] at h
    exact h ▸ foldl_shorter_mem first rest

theorem literalCount_cons (residue : Residue) (residues : List Residue) :
    literalCount (residue :: residues) = residue.literals.length + literalCount residues := by
  simp [literalCount]

theorem Residue.length_assign?_le {l : Literal} {residue kept : Residue}
    (hkept : residue.assign? l = some kept) : kept.literals.length ≤ residue.literals.length := by
  unfold Residue.assign? at hkept
  split at hkept
  · cases hkept
  · split at hkept <;> cases hkept
    · exact List.length_filter_le ..
    · exact Nat.le_refl _

theorem literalCount_assign_cons_le (l : Literal) (residue : Residue) (rest : List Residue) :
    literalCount (assign l (residue :: rest)) ≤ residue.literals.length + literalCount (assign l rest) := by
  simp only [assign, List.filterMap_cons]
  split
  · exact Nat.le_add_left ..
  · rename_i kept hkept
    rw [literalCount_cons]
    exact Nat.add_le_add_right (Residue.length_assign?_le hkept) _

theorem literalCount_assign_le (l : Literal) (residues : List Residue) :
    literalCount (assign l residues) ≤ literalCount residues := by
  induction residues with
  | nil => simp [assign, literalCount]
  | cons residue rest ih =>
    have hfirst := literalCount_assign_cons_le l residue rest
    rw [literalCount_cons]
    omega

/-- Deciding a variable that occurs leaves fewer literals. -/
theorem literalCount_assign_lt (l : Literal) {residues : List Residue} {residue : Residue}
    (hmem : residue ∈ residues) (hocc : l ∈ residue.literals ∨ l.negate ∈ residue.literals) :
    literalCount (assign l residues) < literalCount residues := by
  induction residues with
  | nil => simp at hmem
  | cons first rest ih =>
    have hle := literalCount_assign_le l rest
    rw [literalCount_cons]
    rcases List.mem_cons.mp hmem with heq | hmem
    · subst heq
      simp only [assign, List.filterMap_cons, Residue.assign?] at hle ⊢
      by_cases hl : residue.literals.contains l
      · have : 0 < residue.literals.length := List.length_pos_of_mem (List.contains_iff_mem.mp hl)
        simp only [hl, if_true]
        omega
      · have hn : l.negate ∈ residue.literals := by
          rcases hocc with h | h
          · exact absurd (List.contains_iff_mem.mpr h) hl
          · exact h
        have hlt : (residue.literals.filter fun m => decide (m ≠ l.negate)).length <
            residue.literals.length := by
          rw [List.length_filter_lt_length_iff_exists]
          exact ⟨l.negate, hn, by simp⟩
        simp only [hl, List.contains_iff_mem.mpr hn, Bool.false_eq_true, if_false, if_true,
          literalCount_cons]
        omega
    · have hrest := ih hmem
      have hfirst := literalCount_assign_cons_le l first rest
      omega

theorem negate_negate (l : Literal) : l.negate.negate = l := by
  cases l
  simp [Literal.negate]

end Fewer

/-- The result of a search. Sets of variables are written as bits of a number. -/
inductive Found where
  /-- Satisfied if these variables are true and all others that were not decided before are false. -/
  | model (truths : Nat)
  /-- The decisions on these variables cannot all stand. -/
  | reason (decided : Nat)

/-- Adds the variable of a true literal to the true variables. -/
def withLiteral (l : Literal) (truths : Nat) : Nat :=
  if l.positive then truths ||| bit l.index else truths

/-- Two reasons that share a variable, decided one way and the other, are one reason without it. -/
def resolve (v a b : Nat) : Nat :=
  (a ||| b) ^^^ bit v

def search (residues : List Residue) : Found :=
  match _h : shortest? residues with
  | none => .model 0
  | some ⟨[], reason⟩ => .reason reason
  | some ⟨l :: _, _⟩ =>
    match search (assign l residues) with
    | .model truths => .model (withLiteral l truths)
    | .reason first =>
      if first.testBit l.index then
        match search (assign l.negate residues) with
        | .model truths => .model (withLiteral l.negate truths)
        | .reason second =>
          if second.testBit l.index then .reason (resolve l.index first second)
          else .reason second
      else .reason first
termination_by literalCount residues
decreasing_by
  · exact literalCount_assign_lt _ (shortest?_mem _h) (Or.inl List.mem_cons_self)
  · exact literalCount_assign_lt _ (shortest?_mem _h)
      (Or.inr (by rw [negate_negate]; exact List.mem_cons_self ..))

end Isolation.Sat
