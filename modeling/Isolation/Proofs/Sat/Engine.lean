import Isolation.Proofs.Sat.Search
import Isolation.Sat.Substitution

/-!
# The Promises of the Engine

A guess is looked at before it is an answer, so nothing has to be known about it. For the search it is
enough that what the assumptions leave of the clauses follows from the assumptions, and that nothing is
assumed about it any more. So the engine keeps all the promises of an engine.

## Theorems

* `searchEngine_sound`, `searchEngine_complete`, `searchEngine_reliable`: The promises.
* `forall_engines`: What holds of all engines that keep their promises holds of this one.
-/

namespace Isolation.Sat

theorem testBit_foldl_bit {α : Type} (keep : α → Bool) (place : α → Nat) (l : List α) (set index : Nat) :
    (l.foldl (fun set x => if keep x then set ||| bit (place x) else set) set).testBit index = true ↔
      set.testBit index = true ∨ ∃ x ∈ l, keep x = true ∧ place x = index := by
  induction l generalizing set with
  | nil => simp only [List.foldl_nil, List.not_mem_nil, false_and, exists_false, or_false]
  | cons x rest ih =>
    rw [List.foldl_cons, ih, List.exists_mem_cons_iff, ← or_assoc]
    refine or_congr_left ?_
    by_cases hkeep : keep x = true
    · rw [if_pos hkeep, Nat.testBit_or, Bool.or_eq_true, testBit_bit, decide_eq_true_eq]
      exact or_congr_right (and_iff_right hkeep).symm
    · rw [if_neg hkeep]
      exact ⟨Or.inl, fun h => h.resolve_right fun hc => hkeep hc.1⟩

section Engine

variable {assumptions : List Literal}

theorem testBit_assumed_iff (positive : Bool) (index : Nat) :
    (assumed positive assumptions).testBit index = true ↔ ⟨index, positive⟩ ∈ assumptions := by
  rw [assumed, testBit_foldl_bit (fun l : Literal => l.positive == positive) Literal.index,
    Nat.zero_testBit, or_iff_right Bool.false_ne_true]
  simp only [beq_iff_eq]
  constructor
  · rintro ⟨⟨i, sign⟩, hmem, rfl, rfl⟩
    exact hmem
  · exact fun hmem => ⟨_, hmem, rfl, rfl⟩

theorem testBit_assumed_true_iff (l : Literal) :
    (if l.positive then assumed true assumptions else assumed false assumptions).testBit l.index =
      true ↔ l ∈ assumptions := by
  rcases l with ⟨index, positive⟩
  cases positive with
  | true => exact testBit_assumed_iff true index
  | false => exact testBit_assumed_iff false index

theorem testBit_assumed_false_iff (l : Literal) :
    (if l.positive then assumed false assumptions else assumed true assumptions).testBit l.index =
      true ↔ l.negate ∈ assumptions := by
  rcases l with ⟨index, positive⟩
  cases positive with
  | true => exact testBit_assumed_iff false index
  | false => exact testBit_assumed_iff true index

theorem exists_of_residue?_eq_none {clause : Clause}
    (hnone : residue? (assumed true assumptions) (assumed false assumptions) clause = none) :
    ∃ l ∈ clause, l ∈ assumptions := by
  rw [residue?, ite_eq_left_iff] at hnone
  by_contra hall
  push Not at hall
  refine absurd (hnone ?_) (by simp)
  rw [List.any_eq_true]
  rintro ⟨l, hl, hbit⟩
  exact hall l hl ((testBit_assumed_true_iff l).mp hbit)

/-- What is collected of a clause: the literals that are not assumed to be false, and the variables of
    those that are. -/
theorem foldr_residue_spec (clause : Clause) :
    let residue := clause.foldr (fun l residue =>
      if (if l.positive then assumed false assumptions else assumed true assumptions).testBit l.index
      then { residue with reason := residue.reason ||| bit l.index }
      else { residue with literals := l :: residue.literals }) (⟨[], 0⟩ : Residue);
    (∀ l, l ∈ residue.literals ↔ l ∈ clause ∧ l.negate ∉ assumptions) ∧
      ∀ index, residue.reason.testBit index = true ↔
        ∃ l ∈ clause, l.negate ∈ assumptions ∧ l.index = index := by
  induction clause with
  | nil =>
    simp only [List.foldr_nil, List.not_mem_nil, false_and, exists_false, Nat.zero_testBit,
      Bool.false_eq_true, implies_true, and_self]
  | cons l clause ih =>
    rw [List.foldr_cons]
    by_cases hfalse : l.negate ∈ assumptions
    · rw [if_pos ((testBit_assumed_false_iff l).mpr hfalse)]
      refine ⟨fun m => ?_, fun index => ?_⟩
      · rw [ih.1 m, List.mem_cons]
        exact ⟨fun h => ⟨Or.inr h.1, h.2⟩,
          fun h => ⟨h.1.resolve_left fun hc => h.2 (hc ▸ hfalse), h.2⟩⟩
      · rw [Nat.testBit_or, Bool.or_eq_true, ih.2 index, testBit_bit, decide_eq_true_eq]
        simp only [List.mem_cons, exists_eq_or_imp]
        rw [or_comm]
        exact or_congr_left ⟨fun h => ⟨hfalse, h⟩, And.right⟩
    · rw [if_neg fun hc => hfalse ((testBit_assumed_false_iff l).mp hc)]
      refine ⟨fun m => ?_, fun index => ?_⟩
      · rw [List.mem_cons, ih.1 m, List.mem_cons, or_and_right]
        exact or_congr_left ⟨fun h => ⟨h, h ▸ hfalse⟩, And.left⟩
      · rw [ih.2 index]
        simp only [List.mem_cons, exists_eq_or_imp]
        exact ⟨Or.inr, fun h => h.resolve_left fun hc => hfalse hc.1⟩

theorem residue?_spec {clause : Clause} {residue : Residue}
    (hsome : residue? (assumed true assumptions) (assumed false assumptions) clause = some residue) :
    (∀ l ∈ clause, l ∉ assumptions) ∧
      (∀ l, l ∈ residue.literals ↔ l ∈ clause ∧ l.negate ∉ assumptions) ∧
      ∀ index, residue.reason.testBit index = true ↔
        ∃ l ∈ clause, l.negate ∈ assumptions ∧ l.index = index := by
  rw [residue?] at hsome
  split at hsome
  · cases hsome
  · next hany =>
      rw [List.any_eq_true] at hany
      rw [← Option.some.inj hsome]
      exact ⟨fun l hl hc => hany ⟨l, hl, (testBit_assumed_true_iff l).mpr hc⟩,
        foldr_residue_spec clause⟩

theorem exists_of_clash (hclash : assumed true assumptions &&& assumed false assumptions ≠ 0) :
    ∃ index, (assumed true assumptions &&& assumed false assumptions).testBit index = true := by
  by_contra hall
  push Not at hall
  refine hclash (Nat.eq_of_testBit_eq fun index => ?_)
  rw [Nat.zero_testBit, ← Bool.not_eq_true]
  exact hall index

theorem not_mem_of_no_clash (hclash : assumed true assumptions &&& assumed false assumptions = 0)
    {l : Literal} (hl : l ∈ assumptions) : l.negate ∉ assumptions := by
  intro hnegate
  have hbits : (assumed true assumptions &&& assumed false assumptions).testBit l.index = true := by
    rw [Nat.testBit_and, Bool.and_eq_true, testBit_assumed_iff, testBit_assumed_iff]
    rcases l with ⟨index, positive⟩
    cases positive with
    | true => exact ⟨hl, hnegate⟩
    | false => exact ⟨hnegate, hl⟩
  rw [hclash, Nat.zero_testBit] at hbits
  exact absurd hbits (by decide)

variable (clauses : List Clause)

/-- The residues of clauses under assumptions. -/
def residues (clauses : List Clause) (assumptions : List Literal) : List Residue :=
  clauses.filterMap (residue? (assumed true assumptions) (assumed false assumptions))

/-- Every answer to a question is a clash of assumptions, a guess that is right, or what the search
    finds. -/
theorem solve_searchEngine_cases (assumptions : List Literal) :
    (assumed true assumptions &&& assumed false assumptions ≠ 0 ∧
      searchEngine.solve clauses assumptions = .refuted (assumptions.filter fun l =>
        (assumed true assumptions &&& assumed false assumptions).testBit l.index)) ∨
    (∃ guessed : Nat, searchEngine.solve clauses assumptions = .satisfied guessed.testBit ∧
      (∀ clause ∈ clauses, Clause.holds guessed.testBit clause = true) ∧
      ∀ l ∈ assumptions, l.holds guessed.testBit = true) ∨
    assumed true assumptions &&& assumed false assumptions = 0 ∧
      ((∃ found, Satisfies found (residues clauses assumptions) ∧
        searchEngine.solve clauses assumptions =
          .satisfied (assumed true assumptions ||| found).testBit) ∨
      ∃ decided, Excludes decided (residues clauses assumptions) ∧
        searchEngine.solve clauses assumptions =
          .refuted (assumptions.filter fun l => decided.testBit l.index)) := by
  have htells := search_tells (residues clauses assumptions)
  simp only [searchEngine]
  split
  · next hclash => exact Or.inl ⟨hclash, rfl⟩
  next hclash =>
  split
  · next hright =>
      rw [Bool.and_eq_true, List.all_eq_true, List.all_eq_true] at hright
      exact Or.inr (Or.inl ⟨_, rfl, hright⟩)
  refine Or.inr (Or.inr ⟨not_not.mp hclash, ?_⟩)
  rw [residues] at htells
  split
  · next found hfound =>
      rw [hfound] at htells
      exact Or.inl ⟨found, htells, rfl⟩
  · next decided hdecided =>
      rw [hdecided] at htells
      exact Or.inr ⟨decided, htells, rfl⟩

variable {clauses}

theorem index_ne_of_mem_residues {residue : Residue} (hresidue : residue ∈ residues clauses assumptions)
    {l : Literal} (hl : l ∈ residue.literals) {m : Literal} (hm : m ∈ assumptions) :
    m.index ≠ l.index := by
  rcases List.mem_filterMap.mp hresidue with ⟨clause, _, hsome⟩
  rcases residue?_spec hsome with ⟨hnot, hliterals, _⟩
  rcases (hliterals l).mp hl with ⟨hmem, hnegate⟩
  intro hindex
  rcases Literal.eq_or_eq_negate hindex with rfl | rfl
  · exact hnot m hmem hm
  · exact hnegate hm

section NoClash

variable (hclash : assumed true assumptions &&& assumed false assumptions = 0)

include hclash

theorem holds_assumed {m : Literal} (hm : m ∈ assumptions) :
    m.holds (assumed true assumptions).testBit = true := by
  have hnegate := not_mem_of_no_clash hclash hm
  rcases m with ⟨index, positive⟩
  rw [Literal.holds_iff]
  cases positive with
  | true => exact (testBit_assumed_iff true index).mpr hm
  | false =>
    rw [← Bool.not_eq_true, testBit_assumed_iff]
    exact hnegate

/-- With the variables that the search has found to be true, they still do. -/
theorem holds_assumed_or {found : Nat} (hsat : Satisfies found (residues clauses assumptions))
    {m : Literal} (hm : m ∈ assumptions) :
    m.holds (assumed true assumptions ||| found).testBit = true := by
  have hundecided : found.testBit m.index = false := by
    rw [← Bool.not_eq_true]
    intro htrue
    rcases hsat.occurs m.index htrue with ⟨residue, hresidue, l, hl, hindex⟩
    exact index_ne_of_mem_residues hresidue hl hm hindex.symm
  have hholds := holds_assumed hclash hm
  rw [Literal.holds_iff] at hholds ⊢
  rw [Nat.testBit_or, hundecided, Bool.or_false, hholds]

theorem holds_clause_of_satisfies {found : Nat}
    (hsat : Satisfies found (residues clauses assumptions)) {clause : Clause}
    (hclause : clause ∈ clauses) :
    Clause.holds (assumed true assumptions ||| found).testBit clause = true := by
  rw [Clause.holds_iff]
  cases hresidue : residue? (assumed true assumptions) (assumed false assumptions) clause with
  | none =>
    rcases exists_of_residue?_eq_none hresidue with ⟨l, hl, hmem⟩
    exact ⟨l, hl, holds_assumed_or hclash hsat hmem⟩
  | some residue =>
    have hmem : residue ∈ residues clauses assumptions :=
      List.mem_filterMap.mpr ⟨clause, hclause, hresidue⟩
    rcases hsat.holds residue hmem with ⟨l, hl, hholds⟩
    refine ⟨l, (((residue?_spec hresidue).2.1 l).mp hl).1, ?_⟩
    have hnot : (assumed true assumptions).testBit l.index = false := by
      rw [← Bool.not_eq_true, testBit_assumed_iff]
      exact fun hc => index_ne_of_mem_residues hmem hl hc rfl
    rw [Literal.holds_iff] at hholds ⊢
    rw [Nat.testBit_or, hnot, Bool.false_or, hholds]

omit hclash in
theorem fresh_residues : Fresh (residues clauses assumptions) := by
  intro residue hresidue l hl other hother
  rw [← Bool.not_eq_true]
  intro hbit
  rcases List.mem_filterMap.mp hother with ⟨clause, _, hsome⟩
  rcases ((residue?_spec hsome).2.2 l.index).mp hbit with ⟨m, _, hm, hindex⟩
  exact index_ne_of_mem_residues hresidue hl hm hindex

theorem follows_residues {valuation : Valuation}
    (hclauses : ∀ clause ∈ clauses, Clause.holds valuation clause = true) :
    ∀ residue ∈ residues clauses assumptions,
      residue.Follows valuation (assumed true assumptions).testBit := by
  intro residue hresidue hagrees
  rcases List.mem_filterMap.mp hresidue with ⟨clause, hclause, hsome⟩
  rcases residue?_spec hsome with ⟨_, hliterals, hreason⟩
  rcases (Clause.holds_iff valuation clause).mp (hclauses clause hclause) with ⟨l, hl, hholds⟩
  refine ⟨l, (hliterals l).mpr ⟨hl, fun hnegate => ?_⟩, hholds⟩
  -- A literal that is assumed to be false is false where the valuation agrees with the assumptions.
  have hagree := hagrees l.index ((hreason l.index).mpr ⟨l, hl, hnegate, rfl⟩)
  have hassumed := holds_assumed hclash hnegate
  rw [Literal.holds_negate, Bool.not_eq_true', Literal.holds, ← hagree] at hassumed
  rw [Literal.holds, hassumed] at hholds
  exact absurd hholds (by decide)

end NoClash

theorem searchEngine_sound : searchEngine.Sound := by
  intro clauses assumptions valuation hanswer
  rcases solve_searchEngine_cases clauses assumptions with
    ⟨_, heq⟩ | ⟨guessed, heq, hright⟩ | ⟨hclash, ⟨found, hsat, heq⟩ | ⟨decided, _, heq⟩⟩
  · rw [heq] at hanswer
    cases hanswer
  · rw [heq] at hanswer
    rw [← Answer.satisfied.inj hanswer]
    exact hright
  · rw [heq] at hanswer
    rw [← Answer.satisfied.inj hanswer]
    exact ⟨fun clause hclause => holds_clause_of_satisfies hclash hsat hclause,
      fun l hl => holds_assumed_or hclash hsat hl⟩
  · rw [heq] at hanswer
    cases hanswer

theorem exists_holds_eq_false_of_clash
    (hclash : assumed true assumptions &&& assumed false assumptions ≠ 0) (valuation : Valuation) :
    ∃ l ∈ assumptions.filter fun l =>
      (assumed true assumptions &&& assumed false assumptions).testBit l.index,
      l.holds valuation = false := by
  rcases exists_of_clash hclash with ⟨index, hbit⟩
  have hboth := hbit
  rw [Nat.testBit_and, Bool.and_eq_true, testBit_assumed_iff, testBit_assumed_iff] at hboth
  cases hvalue : valuation index with
  | true => exact ⟨⟨index, false⟩, List.mem_filter.mpr ⟨hboth.2, hbit⟩, by
      rw [Literal.holds, hvalue]; rfl⟩
  | false => exact ⟨⟨index, true⟩, List.mem_filter.mpr ⟨hboth.1, hbit⟩, by
      rw [Literal.holds, hvalue]; rfl⟩

/-- A reason consists of assumptions, and one of them does not hold if the clauses do. -/
theorem exists_holds_eq_false_of_excludes {clauses : List Clause} {decided : Nat}
    (hclash : assumed true assumptions &&& assumed false assumptions = 0)
    (hexcludes : Excludes decided (residues clauses assumptions)) {valuation : Valuation}
    (hclauses : ∀ clause ∈ clauses, Clause.holds valuation clause = true) :
    ∃ l ∈ assumptions.filter fun l => decided.testBit l.index, l.holds valuation = false := by
  rcases hexcludes.disagrees fresh_residues valuation _ (follows_residues hclash hclauses) with
    ⟨index, hbit, hne⟩
  rcases hexcludes.involved index hbit with ⟨residue, hresidue, hreason⟩
  rcases List.mem_filterMap.mp hresidue with ⟨clause, _, hsome⟩
  rcases ((residue?_spec hsome).2.2 index).mp hreason with ⟨l, _, hnegate, rfl⟩
  refine ⟨l.negate, List.mem_filter.mpr ⟨hnegate, hbit⟩, ?_⟩
  have hassumed := (Literal.holds_iff _ _).mp (holds_assumed hclash hnegate)
  rw [← Bool.not_eq_true, Literal.holds_iff, ← hassumed]
  exact hne

theorem searchEngine_complete : searchEngine.Complete := by
  intro clauses assumptions core hanswer
  rcases solve_searchEngine_cases clauses assumptions with
    ⟨hclash, heq⟩ | ⟨guessed, heq, _⟩ | ⟨hclash, ⟨found, _, heq⟩ | ⟨decided, hexcludes, heq⟩⟩
  · rw [heq] at hanswer
    rw [← Answer.refuted.inj hanswer]
    exact ⟨fun l hl => (List.mem_filter.mp hl).1,
      fun valuation _ => exists_holds_eq_false_of_clash hclash valuation⟩
  · rw [heq] at hanswer
    cases hanswer
  · rw [heq] at hanswer
    cases hanswer
  · rw [heq] at hanswer
    rw [← Answer.refuted.inj hanswer]
    exact ⟨fun l hl => (List.mem_filter.mp hl).1,
      fun valuation hclauses => exists_holds_eq_false_of_excludes hclash hexcludes hclauses⟩

theorem searchEngine_reliable : searchEngine.Reliable := by
  intro clauses assumptions message hanswer
  rcases solve_searchEngine_cases clauses assumptions with
    ⟨_, heq⟩ | ⟨guessed, heq, _⟩ | ⟨_, ⟨found, _, heq⟩ | ⟨decided, _, heq⟩⟩
  all_goals
    rw [heq] at hanswer
    cases hanswer

/-- What holds of every engine that keeps its promises holds of the own one, and so does what follows. -/
theorem forall_engines {P : Engine → Prop} {own : Prop} (hown : P searchEngine → own)
    (hall : ∀ engine : Engine, engine.Sound → engine.Refuting → engine.Reliable → P engine) :
    own ∧ ∀ engine : Engine, engine.Sound → engine.Refuting → engine.Reliable → P engine :=
  ⟨hown (hall _ searchEngine_sound searchEngine_complete.refuting searchEngine_reliable), hall⟩

end Engine

end Isolation.Sat
