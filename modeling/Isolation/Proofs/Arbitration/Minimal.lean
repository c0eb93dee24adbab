import Isolation.Arbitration.Solve
import Isolation.Proofs.Arbitration.Questions

/-!
# Conflicts From Which Nothing Can Be Taken

Assumptions are left out one by one, and what a refutation does not use is left out with them. The index of
the next one to try stays where it is when a smaller core has been found, so that the assumptions before it
are not tried again. That is right because they are needed: without one of them the others were feasible, so
every core among the others names it. Cores keep the order of the assumptions. The needed ones therefore
stand where they stood, and they are needed in the smaller core as well.

Clauses learned in one attempt are used in the next, where fewer or other assumptions are made. They hold in
every valuation that respects the links and has no cycles, so they do not make a later attempt fail.

## Main definitions

* `Arbitration.Minimal`: Refuted assumptions from which nothing can be taken.

## Theorems

* `minimizeFrom_minimal`, `solve_conflicting`: What is left of a core, and every conflict, is minimal.
-/

namespace Isolation

open Isolation.Sat

namespace Arbitration

/-- Assumptions that are refuted, where those before an index are needed. -/
structure NeededBelow (a : Arbitration) (core : List Literal) (index : Nat) : Prop where
  refuted : ¬ a.Feasible core
  needed : ∀ n < index, a.Feasible (core.eraseIdx n)

/-- Assumptions that are refuted, and all of them needed. -/
def Minimal (a : Arbitration) (core : List Literal) : Prop :=
  a.NeededBelow core core.length

variable {a : Arbitration} {core : List Literal} {index : Nat}

theorem NeededBelow.succ (hneeded : a.NeededBelow core index)
    (hfeasible : a.Feasible (core.eraseIdx index)) : a.NeededBelow core (index + 1) := by
  refine ⟨hneeded.refuted, fun n hn => ?_⟩
  by_cases hlt : n < index
  · exact hneeded.needed n hlt
  · rw [show n = index by omega]
    exact hfeasible

/-- Every refuted part of the assumptions contains the needed ones: it would be feasible without them. -/
theorem NeededBelow.keeps (hneeded : a.NeededBelow core index) {keep : Literal → Bool}
    {part : List Literal} (hpart : ∀ l ∈ part, l ∈ core) (hrefuted : ¬ a.Feasible (part.filter keep)) :
    ∀ l ∈ core.take index, keep l = true := by
  intro l hl
  by_contra hdropped
  rcases List.mem_iff_getElem?.mp hl with ⟨n, hn⟩
  rw [List.getElem?_take, Option.ite_none_right_eq_some] at hn
  refine hrefuted ((hneeded.needed n hn.1).mono fun x hx => ?_)
  rcases List.mem_filter.mp hx with ⟨hmem, hkept⟩
  rcases List.mem_iff_getElem?.mp (hpart x hmem) with ⟨m, hm⟩
  refine List.mem_eraseIdx_iff_getElem?.mpr ⟨m, fun hc => ?_, hm⟩
  -- The member at the place of the needed one would be the needed one, which is dropped.
  rw [hc, hn.2, Option.some.injEq] at hm
  rw [hm] at hdropped
  exact hdropped hkept

/-- In a smaller core the needed assumptions stand where they stood, and they are needed. -/
theorem NeededBelow.shrink (hneeded : a.NeededBelow core index) (hlt : index < core.length)
    {keep : Literal → Bool} (hrefuted : ¬ a.Feasible ((core.eraseIdx index).filter keep)) :
    a.NeededBelow ((core.eraseIdx index).filter keep) index := by
  have hkeeps := hneeded.keeps (fun l hl => List.mem_of_mem_eraseIdx hl) hrefuted
  have hlength : (core.take index).length = index := List.length_take_of_le (Nat.le_of_lt hlt)
  have hsmaller : (core.eraseIdx index).filter keep =
      core.take index ++ (core.drop (index + 1)).filter keep := by
    rw [List.eraseIdx_eq_take_drop_succ, List.filter_append, List.filter_eq_self.mpr hkeeps]
  refine ⟨hrefuted, fun n hn => (hneeded.needed n hn).mono fun l hl => ?_⟩
  rw [hsmaller, List.eraseIdx_append_of_lt_length (by omega)] at hl
  rw [← List.take_append_drop index core, List.eraseIdx_append_of_lt_length (by omega)]
  rcases List.mem_append.mp hl with hl | hl
  · exact List.mem_append_left _ hl
  · refine List.mem_append_right _ ?_
    have hrest := (List.mem_filter.mp hl).1
    rw [← List.drop_drop] at hrest
    exact List.mem_of_mem_drop hrest

section Minimize

variable {engine : Engine} (ha : a.Proper) (hsound : engine.Sound) (hexplaining : engine.Explaining)

include ha hsound hexplaining

theorem not_feasible_of_refine {shortcuts : Bool} {assumptions named : List Literal}
    {clauses last : List Clause} (hasks : a.Asks shortcuts assumptions)
    (hlearned : a.Learned engine clauses)
    (hend : a.refine engine shortcuts assumptions clauses = .refuted named last) :
    a.Learned engine last ∧ ¬ a.Feasible named ∧ ∃ keep, named = assumptions.filter keep := by
  have hjustified := refine_justified ha hsound hasks hlearned
  rw [hend] at hjustified
  rcases hjustified with ⟨hlast, core, hanswer, rfl⟩
  refine ⟨hlast, ?_, _, rfl⟩
  rintro ⟨goal, hgoal, hrespects, hacyclic⟩
  rcases hexplaining last assumptions core hanswer goal fun clause hclause =>
    (hlast.safe ha hsound).1.holds clause hclause goal hrespects hacyclic with ⟨l, hl, hnamed, hfalse⟩
  have hmem : l ∈ namedBy core assumptions := by
    rw [namedBy, List.mem_filter, Bool.or_eq_true, List.contains_iff_mem, List.contains_iff_mem]
    exact ⟨hl, hnamed⟩
  rw [hgoal l hmem] at hfalse
  exact absurd hfalse (by decide)

theorem minimizeFrom_minimal {clauses : List Clause} {result : List Literal}
    (hlearned : a.Learned engine clauses) (hsub : core.Sublist a.assumptions)
    (hneeded : a.NeededBelow core index)
    (hend : minimizeFrom engine a clauses core index = .ok result) :
    a.Minimal result ∧ result.Sublist a.assumptions := by
  -- Without shortcuts every part may be asked about.
  have hasks : ∀ {part : List Literal}, part.Sublist a.assumptions → a.Asks false part :=
    fun hpart => ⟨fun l hl => hpart.subset hl, fun hc => absurd hc Bool.false_ne_true⟩
  fun_induction minimizeFrom engine a clauses core index with
  | case1 clauses core index hlt message hfailed =>
    cases hend
  | case2 clauses core index hlt valuation last hacyclic ih =>
    have hpart := hasks ((List.eraseIdx_sublist core index).trans hsub)
    have hjustified := refine_justified ha hsound hpart hlearned
    rw [hacyclic] at hjustified
    have hfeasible := feasible_of_refine ha hsound hpart hlearned hacyclic
    exact ih hjustified.1 hsub (hneeded.succ hfeasible) hend
  | case3 clauses core index hlt smaller last hrefuted ih =>
    have hpart := (List.eraseIdx_sublist core index).trans hsub
    rcases not_feasible_of_refine ha hsound hexplaining (hasks hpart) hlearned hrefuted with
      ⟨hlast, hinfeasible, keep, rfl⟩
    exact ih hlast (List.filter_sublist.trans hpart) (hneeded.shrink hlt hinfeasible) hend
  | case4 clauses core index hlt =>
    rw [← Except.ok.inj hend]
    exact ⟨⟨hneeded.refuted, fun n hn => hneeded.needed n (by omega)⟩, hsub⟩

end Minimize

section Solve

variable {κ : Type} [Ord κ] {g : Precedence κ} {cs : List (Constraint κ)} {options : AuditOptions}

/-- An arbitration that ends with a conflict has found minimal assumptions. -/
theorem solve_conflicting (hnodup : g.nodes.Nodup) {engine : Engine} (hsound : engine.Sound)
    (hexplaining : engine.Explaining) {found : Conflicts κ}
    (hsolve : solve engine g cs options = .conflicting found) :
    ∃ core, (ofPrecedence g cs options).Minimal core ∧
      core.Sublist (ofPrecedence g cs options).assumptions ∧
      found = (behind g cs core).sorted := by
  have ha := proper_ofPrecedence hnodup cs options
  rw [solve] at hsolve
  split at hsolve
  · cases hsolve
  · split at hsolve
    · cases hsolve
    · cases hsolve
  · next named clauses hrefine =>
      rcases not_feasible_of_refine ha hsound hexplaining (asks_assumptions _ true) .links hrefine with
        ⟨hlearned, hinfeasible, keep, rfl⟩
      -- Nothing has been tried yet, so nothing is known to be needed.
      have hstart : (ofPrecedence g cs options).NeededBelow _ 0 :=
        ⟨hinfeasible, fun n hn => absurd hn (Nat.not_lt_zero n)⟩
      split at hsolve
      · next core hminimize =>
          rcases minimizeFrom_minimal ha hsound hexplaining hlearned List.filter_sublist hstart
            hminimize with ⟨hminimal, hsub⟩
          exact ⟨core, hminimal, hsub, (Decision.conflicting.inj hsolve).symm⟩
      · cases hsolve

end Solve

section Meaning

variable {κ : Type} {g : Precedence κ} {cs : List (Constraint κ)} {core : List Literal} {k : Nat}

theorem lookup_tables (g : Precedence κ) (cs : List (Constraint κ)) (l : Literal) :
    (knownTable g).lookup l = none ∨ (constraintTable g cs).lookup l = none := by
  rw [or_iff_not_imp_left]
  intro hknown
  rcases Option.ne_none_iff_exists'.mp hknown with ⟨e, he⟩
  rcases lookup_knownTable_iff.mp he with ⟨n, hn, rfl⟩
  refine Option.eq_none_iff_forall_ne_some.mpr fun c hc => ?_
  rcases lookup_constraintTable_iff.mp hc with ⟨m, b, hb, heq⟩
  have hlt := (List.getElem?_eq_some_iff.mp hn).1
  have hle := Ballot.le_first (List.mem_of_getElem? hb.ballot_eq)
  have hindex : b.first = n := (Literal.mk.inj heq).1
  omega

theorem exists_behind_eraseIdx_edges (hk : k < (behind g cs core).edges.length) :
    ∃ n < core.length, behind g cs (core.eraseIdx n) =
      ⟨(behind g cs core).edges.eraseIdx k, (behind g cs core).constraints⟩ := by
  rcases exists_eraseIdx_filterMap hk with ⟨n, l, hl, hsome, heq⟩
  have hnone := (lookup_tables g cs l).resolve_left hsome
  refine ⟨n, (List.getElem?_eq_some_iff.mp hl).1, Conflicts.mk.injEq .. ▸ ⟨heq.symm, ?_⟩⟩
  exact filterMap_eraseIdx_of_eq_none hl hnone

theorem exists_behind_eraseIdx_constraints (hk : k < (behind g cs core).constraints.length) :
    ∃ n < core.length, behind g cs (core.eraseIdx n) =
      ⟨(behind g cs core).edges, (behind g cs core).constraints.eraseIdx k⟩ := by
  rcases exists_eraseIdx_filterMap hk with ⟨n, l, hl, hsome, heq⟩
  have hnone := (lookup_tables g cs l).resolve_right hsome
  refine ⟨n, (List.getElem?_eq_some_iff.mp hl).1, ?_⟩
  rw [behind, behind, filterMap_eraseIdx_of_eq_none hl hnone, ← heq]

theorem behind_assumptions (g : Precedence κ) (cs : List (Constraint κ)) (options : AuditOptions) :
    behind g cs (ofPrecedence g cs options).assumptions = ⟨knownEdges g, cs⟩ := by
  have hknown : ∀ b ∈ Ballot.ofConstraints g (knownEdges g).length cs,
      (knownTable g).lookup b.active = none := by
    intro b hb
    rcases List.mem_iff_getElem?.mp hb with ⟨n, hn⟩
    rcases Ballot.exists_of_getElem?_ofConstraints hn with ⟨c, hc, _⟩
    refine (lookup_tables g cs b.active).resolve_right ?_
    rw [lookup_constraintTable_iff.mpr ⟨n, b, ⟨hc, hn⟩, rfl⟩]
    exact Option.some_ne_none c
  have hcounted : ∀ n < (knownEdges g).length,
      (constraintTable g cs).lookup (knownLiteral n) = none := by
    intro n hn
    refine (lookup_tables g cs (knownLiteral n)).resolve_left ?_
    rw [lookup_knownTable_iff.mpr ⟨n, List.getElem?_eq_getElem hn, rfl⟩]
    exact Option.some_ne_none _
  rw [behind, assumptions, List.filterMap_append, List.filterMap_append, Conflicts.mk.injEq]
  constructor
  · have hnil : ((ofPrecedence g cs options).ballots.map Ballot.active).filterMap
        (fun l => (knownTable g).lookup l) = [] := by
      rw [List.filterMap_map, List.filterMap_eq_nil_iff]
      exact hknown
    rw [hnil, List.append_nil]
    exact filterMap_lookup_zip nodup_keys_knownTable (by rw [List.length_map, List.length_range])
  · have hnil : ((List.range (ofPrecedence g cs options).knownCount).map knownLiteral).filterMap
        (fun l => (constraintTable g cs).lookup l) = [] := by
      rw [List.filterMap_map, List.filterMap_eq_nil_iff]
      exact fun n hn => hcounted n (List.mem_range.mp hn)
    rw [hnil, List.nil_append]
    exact filterMap_lookup_zip nodup_keys_constraintTable
      (by rw [List.length_map, Ballot.length_ofConstraints])

variable [Ord κ]

theorem subperm_sorted_behind {options : AuditOptions}
    (hsub : core.Sublist (ofPrecedence g cs options).assumptions) :
    (behind g cs core).sorted.edges.Subperm (knownEdges g) ∧
      (behind g cs core).sorted.constraints.Subperm cs := by
  have hall := Conflicts.mk.inj (behind_assumptions g cs options)
  constructor
  · exact ⟨_, (SortedList.sortBy_perm _ _).symm, hall.1 ▸ hsub.filterMap _⟩
  · refine ⟨_, (SortedList.sortBy_perm _ _).symm, ?_⟩
    have hconstraints := hsub.filterMap fun l => (constraintTable g cs).lookup l
    rw [hall.2] at hconstraints
    exact hconstraints

variable (hnodup : g.nodes.Nodup) {options : AuditOptions}
  (hminimal : (ofPrecedence g cs options).Minimal core)

include hnodup hminimal

omit [Ord κ] in
theorem Minimal.orderable_without {n : Nat} (hn : n < core.length) :
    g.Orderable options.level (behind g cs (core.eraseIdx n)).edges
      (behind g cs (core.eraseIdx n)).constraints :=
  Feasible.orderable hnodup (hminimal.needed n hn)

/-- The edges and constraints behind minimal assumptions cannot be ordered. -/
theorem Minimal.not_orderable (hsub : core.Sublist (ofPrecedence g cs options).assumptions) :
    ¬ g.Orderable options.level (behind g cs core).sorted.edges
      (behind g cs core).sorted.constraints := by
  intro horderable
  refine hminimal.refuted ((feasible_iff_orderable hnodup fun l hl => hsub.subset hl).mpr ?_)
  exact horderable.mono (fun e he => (SortedList.sortBy_perm _ _).mem_iff.mpr he)
    fun c hc => (SortedList.sortBy_perm _ _).mem_iff.mpr hc

theorem Minimal.orderable_eraseIdx_edges (hk : k < (behind g cs core).sorted.edges.length) :
    g.Orderable options.level ((behind g cs core).sorted.edges.eraseIdx k)
      (behind g cs core).sorted.constraints := by
  rcases exists_eraseIdx_perm (SortedList.sortBy_perm _ _) hk with ⟨k', hk', hperm⟩
  rcases exists_behind_eraseIdx_edges hk' with ⟨n, hn, heq⟩
  have hwithout := hminimal.orderable_without hnodup hn
  rw [heq] at hwithout
  exact hwithout.mono (fun e he => hperm.mem_iff.mp he)
    fun c hc => (SortedList.sortBy_perm _ _).mem_iff.mp hc

theorem Minimal.orderable_eraseIdx_constraints
    (hk : k < (behind g cs core).sorted.constraints.length) :
    g.Orderable options.level (behind g cs core).sorted.edges
      ((behind g cs core).sorted.constraints.eraseIdx k) := by
  rcases exists_eraseIdx_perm (SortedList.sortBy_perm _ _) hk with ⟨k', hk', hperm⟩
  rcases exists_behind_eraseIdx_constraints hk' with ⟨n, hn, heq⟩
  have hwithout := hminimal.orderable_without hnodup hn
  rw [heq] at hwithout
  exact hwithout.mono (fun e he => (SortedList.sortBy_perm _ _).mem_iff.mp he)
    fun c hc => hperm.mem_iff.mp hc

end Meaning

end Arbitration

end Isolation
