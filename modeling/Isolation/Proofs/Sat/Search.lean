import Isolation.Proofs.Graph.Edges
import Isolation.Proofs.Sat.Models
import Isolation.Sat.Search

/-!
# The Search Is Right

Two things are carried through the search. If it ends with true variables, all of them occur in what is left of the clauses, and every
clause has a literal that they make true. If it ends with a reason, the variables of the reason are among
those that have shortened the clauses, and no valuation that satisfies the clauses agrees with all the
decisions on them.

The second statement is about any set of valuations and any decisions. What makes it work is that a
residue *follows* from the decisions: a valuation that agrees with the decisions on its reason satisfies
one of its literals. Deciding another literal keeps this, as long as the variable has not been decided
before.

## Main definitions

* `Satisfies`, `Excludes`: What true variables and reasons say about residues.

## Theorems

* `search_tells`: Every result of a search is right.
-/

namespace Isolation.Sat

section Literals

theorem Literal.holds_iff (valuation : Valuation) (l : Literal) :
    l.holds valuation = true ↔ valuation l.index = l.positive :=
  beq_iff_eq

theorem Literal.eq_or_eq_negate {l m : Literal} (hindex : m.index = l.index) :
    m = l ∨ m = l.negate := by
  rcases l with ⟨index, positive⟩
  rcases m with ⟨index', positive'⟩
  simp only at hindex
  subst hindex
  cases positive <;> cases positive' <;> simp only [Literal.negate, Bool.not_true, Bool.not_false,
    or_true, true_or]

theorem Clause.holds_iff (valuation : Valuation) (clause : Clause) :
    Clause.holds valuation clause = true ↔ ∃ l ∈ clause, l.holds valuation = true :=
  List.any_eq_true

theorem testBit_withLiteral (l : Literal) (truths index : Nat) :
    (withLiteral l truths).testBit index =
      (truths.testBit index || (l.positive && decide (l.index = index))) := by
  unfold withLiteral
  cases l.positive with
  | true => rw [if_pos rfl, Nat.testBit_or, testBit_bit, Bool.true_and]
  | false => rw [if_neg Bool.false_ne_true, Bool.false_and, Bool.or_false]

end Literals

section Assigning

variable {l : Literal} {residues : List Residue}

theorem exists_of_mem_assign {after : Residue} (hmem : after ∈ assign l residues) :
    ∃ residue ∈ residues, l ∉ residue.literals ∧
      (∀ m, m ∈ after.literals ↔ m ∈ residue.literals ∧ m ≠ l.negate) ∧
      (∀ index, after.reason.testBit index = true ↔
        residue.reason.testBit index = true ∨ l.negate ∈ residue.literals ∧ index = l.index) := by
  rcases List.mem_filterMap.mp hmem with ⟨residue, hresidue, hassign⟩
  refine ⟨residue, hresidue, ?_⟩
  unfold Residue.assign? at hassign
  by_cases hl : l ∈ residue.literals
  · rw [if_pos (List.contains_iff_mem.mpr hl)] at hassign
    cases hassign
  rw [if_neg fun hc => hl (List.contains_iff_mem.mp hc)] at hassign
  refine ⟨hl, ?_⟩
  by_cases hnegate : l.negate ∈ residue.literals
  · rw [if_pos (List.contains_iff_mem.mpr hnegate), Option.some.injEq] at hassign
    rw [← hassign]
    refine ⟨fun m => ?_, fun index => ?_⟩
    · rw [List.mem_filter, decide_eq_true_eq]
    · rw [Nat.testBit_or, Bool.or_eq_true, testBit_bit, decide_eq_true_eq]
      exact or_congr_right ⟨fun heq => ⟨hnegate, heq.symm⟩, fun h => h.2.symm⟩
  · rw [if_neg fun hc => hnegate (List.contains_iff_mem.mp hc), Option.some.injEq] at hassign
    rw [← hassign]
    refine ⟨fun m => ⟨fun hm => ⟨hm, fun hc => hnegate (hc ▸ hm)⟩, And.left⟩, fun index => ?_⟩
    exact ⟨Or.inl, fun h => h.resolve_right fun hc => hnegate hc.1⟩

theorem exists_mem_assign {residue : Residue} (hmem : residue ∈ residues)
    (hl : l ∉ residue.literals) :
    ∃ after ∈ assign l residues, ∀ m ∈ after.literals, m ∈ residue.literals := by
  rcases hassign : residue.assign? l with _ | after
  · unfold Residue.assign? at hassign
    rw [if_neg fun hc => hl (List.contains_iff_mem.mp hc)] at hassign
    split at hassign
    · cases hassign
    · cases hassign
  · refine ⟨after, List.mem_filterMap.mpr ⟨residue, hmem, hassign⟩, fun m hm => ?_⟩
    unfold Residue.assign? at hassign
    rw [if_neg fun hc => hl (List.contains_iff_mem.mp hc)] at hassign
    split at hassign
    · rw [← Option.some.inj hassign] at hm
      exact (List.mem_filter.mp hm).1
    · rw [← Option.some.inj hassign] at hm
      exact hm

theorem index_ne_of_mem_assign {after : Residue} (hmem : after ∈ assign l residues) {m : Literal}
    (hm : m ∈ after.literals) : m.index ≠ l.index := by
  rcases exists_of_mem_assign hmem with ⟨residue, _, hl, hliterals, _⟩
  rcases (hliterals m).mp hm with ⟨hm, hne⟩
  intro hindex
  rcases Literal.eq_or_eq_negate hindex with rfl | heq
  · exact hl hm
  · exact hne heq

end Assigning

section Model

/-- The true variables occur in what is left of the clauses, and satisfy it. -/
structure Satisfies (truths : Nat) (residues : List Residue) : Prop where
  occurs : ∀ index, truths.testBit index = true →
    ∃ residue ∈ residues, ∃ l ∈ residue.literals, l.index = index
  holds : ∀ residue ∈ residues, ∃ l ∈ residue.literals, l.holds truths.testBit = true

/-- A model of what a decision leaves, with the decided literal, is a model. -/
theorem Satisfies.withLiteral {l : Literal} {residues : List Residue} {truths : Nat}
    (hsat : Satisfies truths (assign l residues))
    (hoccurs : ∃ residue ∈ residues, ∃ m ∈ residue.literals, m.index = l.index) :
    Satisfies (withLiteral l truths) residues := by
  have hundecided : truths.testBit l.index = false := by
    by_contra htrue
    rw [Bool.not_eq_false] at htrue
    rcases hsat.occurs l.index htrue with ⟨after, hafter, m, hm, hindex⟩
    exact index_ne_of_mem_assign hafter hm hindex
  have hl : l.holds (Sat.withLiteral l truths).testBit = true := by
    rw [Literal.holds_iff, testBit_withLiteral, hundecided, decide_eq_true rfl, Bool.false_or,
      Bool.and_true]
  constructor
  · intro index htrue
    rw [testBit_withLiteral, Bool.or_eq_true, Bool.and_eq_true, decide_eq_true_eq] at htrue
    rcases htrue with htrue | ⟨_, rfl⟩
    · rcases hsat.occurs index htrue with ⟨after, hafter, m, hm, hindex⟩
      rcases exists_of_mem_assign hafter with ⟨residue, hresidue, _, hliterals, _⟩
      exact ⟨residue, hresidue, m, ((hliterals m).mp hm).1, hindex⟩
    · exact hoccurs
  · intro residue hresidue
    by_cases hmem : l ∈ residue.literals
    · exact ⟨l, hmem, hl⟩
    · rcases exists_mem_assign hresidue hmem with ⟨after, hafter, hsub⟩
      rcases hsat.holds after hafter with ⟨m, hm, hholds⟩
      refine ⟨m, hsub m hm, ?_⟩
      have hne : l.index ≠ m.index := (index_ne_of_mem_assign hafter hm).symm
      rw [Literal.holds_iff] at hholds ⊢
      rw [testBit_withLiteral, hholds, decide_eq_false hne, Bool.and_false, Bool.or_false]

end Model

section Reason

/-- The variables of the residue's reason are good for something: if a valuation agrees with the decisions
    on them, it satisfies one of the literals that are left. -/
def Residue.Follows (valuation decisions : Valuation) (residue : Residue) : Prop :=
  (∀ index, residue.reason.testBit index = true → valuation index = decisions index) →
    ∃ l ∈ residue.literals, l.holds valuation = true

/-- What is undecided occurs in no reason. -/
def Fresh (residues : List Residue) : Prop :=
  ∀ residue ∈ residues, ∀ l ∈ residue.literals, ∀ other ∈ residues,
    other.reason.testBit l.index = false

/-- The reason consists of variables that have shortened clauses, and no valuation for which the residues
    follow agrees with the decisions on all of them. -/
structure Excludes (reason : Nat) (residues : List Residue) : Prop where
  involved : ∀ index, reason.testBit index = true →
    ∃ residue ∈ residues, residue.reason.testBit index = true
  disagrees : Fresh residues → ∀ valuation decisions,
    (∀ residue ∈ residues, residue.Follows valuation decisions) →
    ∃ index, reason.testBit index = true ∧ valuation index ≠ decisions index

variable {l : Literal} {residues : List Residue}

theorem Fresh.assign (hfresh : Fresh residues) : Fresh (assign l residues) := by
  intro after hafter m hm other hother
  have hne := index_ne_of_mem_assign hafter hm
  rcases exists_of_mem_assign hafter with ⟨residue, hresidue, _, hliterals, _⟩
  rcases exists_of_mem_assign hother with ⟨before, hbefore, _, _, hreason⟩
  rw [← Bool.not_eq_true, hreason]
  rintro (hbit | ⟨_, hindex⟩)
  · rw [hfresh residue hresidue m ((hliterals m).mp hm).1 before hbefore] at hbit
    exact absurd hbit (by decide)
  · exact hne hindex

theorem follows_assign (hfresh : Fresh residues)
    (hoccurs : ∃ residue ∈ residues, ∃ m ∈ residue.literals, m.index = l.index)
    {valuation decisions : Valuation}
    (hfollows : ∀ residue ∈ residues, residue.Follows valuation decisions) :
    ∀ after ∈ assign l residues,
      after.Follows valuation (Function.update decisions l.index l.positive) := by
  intro after hafter hagrees
  rcases hoccurs with ⟨source, hsource, k, hk, hindex⟩
  rcases exists_of_mem_assign hafter with ⟨residue, hresidue, _, hliterals, hreason⟩
  have hbefore : ∀ index, residue.reason.testBit index = true →
      valuation index = decisions index := by
    intro index hbit
    have hne : index ≠ l.index := by
      rintro rfl
      rw [← hindex, hfresh source hsource k hk residue hresidue] at hbit
      exact absurd hbit (by decide)
    rw [hagrees index ((hreason index).mpr (Or.inl hbit)), Function.update_of_ne hne]
  rcases hfollows residue hresidue hbefore with ⟨m, hm, hholds⟩
  by_cases hc : m = l.negate
  · -- The valuation agrees with the decision, so the opposite literal does not hold.
    rw [hc] at hm hholds
    have hagree := hagrees l.index ((hreason l.index).mpr (Or.inr ⟨hm, rfl⟩))
    rw [Function.update_self, ← Literal.holds_iff] at hagree
    rw [Literal.holds_negate, hagree] at hholds
    exact absurd hholds (by decide)
  · exact ⟨m, (hliterals m).mpr ⟨hm, hc⟩, hholds⟩

theorem involved_of_assign {index : Nat} (hne : index ≠ l.index)
    (hafter : ∃ after ∈ assign l residues, after.reason.testBit index = true) :
    ∃ residue ∈ residues, residue.reason.testBit index = true := by
  rcases hafter with ⟨after, hafter, hreason⟩
  rcases exists_of_mem_assign hafter with ⟨residue, hresidue, _, _, hmeaning⟩
  rcases (hmeaning index).mp hreason with hreason | ⟨_, hindex⟩
  · exact ⟨residue, hresidue, hreason⟩
  · exact absurd hindex hne

/-- A reason that does not involve the decided variable is a reason without the decision. -/
theorem Excludes.of_assign {reason : Nat} (hexcludes : Excludes reason (assign l residues))
    (hoccurs : ∃ residue ∈ residues, ∃ m ∈ residue.literals, m.index = l.index)
    (hfree : ¬ reason.testBit l.index = true) : Excludes reason residues := by
  constructor
  · intro index hbit
    exact involved_of_assign (fun hc => hfree (hc ▸ hbit)) (hexcludes.involved index hbit)
  · intro hfresh valuation decisions hfollows
    rcases hexcludes.disagrees hfresh.assign valuation _ (follows_assign hfresh hoccurs hfollows) with
      ⟨index, hbit, hne⟩
    have hindex : index ≠ l.index := fun hc => hfree (hc ▸ hbit)
    rw [Function.update_of_ne hindex] at hne
    exact ⟨index, hbit, hne⟩

theorem testBit_resolve (v a b index : Nat) : (resolve v a b).testBit index =
    ((a.testBit index || b.testBit index) ^^ decide (v = index)) := by
  rw [resolve, Nat.testBit_xor, Nat.testBit_or, testBit_bit]

/-- The reasons of both decisions together, without the variable, are a reason without either. -/
theorem Excludes.resolve {first second : Nat} (hfirst : Excludes first (assign l residues))
    (hsecond : Excludes second (assign l.negate residues))
    (hoccurs : ∃ residue ∈ residues, ∃ m ∈ residue.literals, m.index = l.index)
    (hbit : first.testBit l.index = true) : Excludes (resolve l.index first second) residues := by
  have hmeaning : ∀ index, (Sat.resolve l.index first second).testBit index = true ↔
      index ≠ l.index ∧ (first.testBit index = true ∨ second.testBit index = true) := by
    intro index
    rw [testBit_resolve]
    by_cases hc : l.index = index
    · rw [← hc, hbit, Bool.true_or, decide_eq_true rfl, Bool.xor_self]
      exact ⟨fun h => absurd h (by decide), fun h => absurd rfl h.1⟩
    · rw [decide_eq_false hc, Bool.xor_false, Bool.or_eq_true]
      exact ⟨fun h => ⟨Ne.symm hc, h⟩, And.right⟩
  constructor
  · intro index hindex
    rcases (hmeaning index).mp hindex with ⟨hne, hbit | hbit⟩
    · exact involved_of_assign hne (hfirst.involved index hbit)
    · exact involved_of_assign (l := l.negate) hne (hsecond.involved index hbit)
  · intro hfresh valuation decisions hfollows
    -- The valuation agrees with one of the two decisions, so it disagrees elsewhere.
    rcases hfirst.disagrees hfresh.assign valuation _ (follows_assign hfresh hoccurs hfollows) with
      ⟨index, hin, hne⟩
    rcases hsecond.disagrees hfresh.assign valuation _
      (follows_assign (l := l.negate) hfresh hoccurs hfollows) with ⟨index', hin', hne'⟩
    rw [show l.negate.index = l.index from rfl] at hne'
    by_cases hc : index = l.index
    · by_cases hc' : index' = l.index
      · rw [hc, Function.update_self] at hne
        rw [hc', Function.update_self] at hne'
        exact absurd (Bool.eq_not_of_ne hne) hne'
      · rw [Function.update_of_ne hc'] at hne'
        exact ⟨index', (hmeaning index').mpr ⟨hc', Or.inr hin'⟩, hne'⟩
    · rw [Function.update_of_ne hc] at hne
      exact ⟨index, (hmeaning index).mpr ⟨hc, Or.inl hin⟩, hne⟩

end Reason

/-- What the result of a search says about what was searched. -/
def Found.Tells (residues : List Residue) : Found → Prop
  | .model truths => Satisfies truths residues
  | .reason decided => Excludes decided residues

/-- The search is right. The induction follows its branches. -/
theorem search_tells (residues : List Residue) : (search residues).Tells residues := by
  fun_induction search residues with
  | case1 residues hshortest =>
    cases residues with
    | nil =>
      refine ⟨fun index htrue => ?_, fun residue hmem => absurd hmem List.not_mem_nil⟩
      rw [Nat.zero_testBit] at htrue
      exact absurd htrue (by decide)
    | cons residue rest => exact absurd hshortest (by simp [shortest?])
  | case2 residues reason hshortest =>
    have hmem := shortest?_mem hshortest
    refine ⟨fun index hbit => ⟨_, hmem, hbit⟩, fun _ valuation decisions hfollows => ?_⟩
    by_contra hall
    push Not at hall
    rcases hfollows _ hmem hall with ⟨l, hl, _⟩
    exact absurd hl List.not_mem_nil
  | case3 residues l tail reason hshortest truths hmodel ih =>
    rw [hmodel] at ih
    exact ih.withLiteral ⟨_, shortest?_mem hshortest, l, List.mem_cons_self, rfl⟩
  | case4 residues l tail reason hshortest first hfirst hbit truths hmodel ihfirst ih =>
    rw [hmodel] at ih
    exact ih.withLiteral ⟨_, shortest?_mem hshortest, l, List.mem_cons_self, rfl⟩
  | case5 residues l tail reason hshortest first hfirst hbit second hsecond hbit' ihfirst ihsecond =>
    rw [hfirst] at ihfirst
    rw [hsecond] at ihsecond
    exact ihfirst.resolve ihsecond ⟨_, shortest?_mem hshortest, l, List.mem_cons_self, rfl⟩ hbit
  | case6 residues l tail reason hshortest first hfirst hbit second hsecond hfree ihfirst ihsecond =>
    rw [hsecond] at ihsecond
    exact ihsecond.of_assign ⟨_, shortest?_mem hshortest, l, List.mem_cons_self, rfl⟩ hfree
  | case7 residues l tail reason hshortest first hfirst hfree ihfirst =>
    rw [hfirst] at ihfirst
    exact ihfirst.of_assign ⟨_, shortest?_mem hshortest, l, List.mem_cons_self, rfl⟩ hfree

end Isolation.Sat
