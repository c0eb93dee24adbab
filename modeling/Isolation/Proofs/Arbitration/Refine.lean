import Isolation.Proofs.Arbitration.Valuations
import Isolation.Proofs.Graph.Descent

/-!
# What Cycles Forbid

The graph of a valuation is searched for a cycle, and the cycle that is found becomes a clause. This is right
in two ways. Where no cycle is found, there is none, because what the known edges imply can be left out of the
search: the thinned known graph leads the same ways. And a clause forbids a cycle only. Every edge of the
cycle has left a reason, whichever of the literals that bring it was met first, and every reason brings its
edge under every valuation. So the clause is violated by the valuation that has the cycle, and satisfied by
every valuation whose final graph has none.

## Main definitions

* `Arbitration.Proper`: What the parts of an arbitration have to do with each other.

## Theorems

* `cycleClause?_spec`: A cycle violates its clause, and valuations without cycles satisfy it.
-/

namespace Isolation

open Relation Isolation.Sat

theorem mem_cyclePairs_iff {cycle : List Nat} {v w : Nat} : (v, w) ∈ cyclePairs cycle ↔
    ∃ i, cycle[i]? = some v ∧ cycle[(i + 1) % cycle.length]? = some w := by
  simp only [cyclePairs, List.mem_filterMap, Prod.exists, List.mem_zipIdx_iff_getElem?,
    Option.map_eq_some_iff, Prod.mk.injEq]
  constructor
  · rintro ⟨v', i, hv, w', hw, rfl, rfl⟩
    exact ⟨i, hv, hw⟩
  · rintro ⟨i, hv, hw⟩
    exact ⟨v, i, hv, w, hw, rfl, rfl⟩

namespace TaggedGraph

variable {g : TaggedGraph}

theorem isCycle_of_findCycle? {cycle : List Nat} (hfound : g.findCycle? = some cycle) :
    IsCycle g.Edge cycle := by
  have hvertices : ∀ i, ∀ j ∈ g.successors i, j ∈ g.nodes := fun i j hj =>
    (mem_nodes_iff j).mpr ((mem_successors_iff i j).mp hj).1
  exact (Graph.isCycle_of_findCycle? hvertices hfound).mono fun i j hj =>
    ((mem_successors_iff i j).mp hj).2

theorem findCycle?_eq_none_iff (hg : g.Regular) : g.findCycle? = none ↔ Acyclic g.Edge := by
  have hsuccessors : (fun i j => j ∈ g.successors i) = g.Edge := by
    funext i j
    rw [mem_successors_iff]
    exact propext (and_iff_right_of_imp hg.target_lt)
  rw [findCycle?, Graph.findCycle?_eq_none_iff, hsuccessors]
  · exact fun i j hj => (mem_nodes_iff j).mpr ((mem_successors_iff i j).mp hj).1
  · exact fun i j hj => (mem_nodes_iff i).mpr (lt_size_of_edge ((mem_successors_iff i j).mp hj).2)
  · exact fun i hi => hi

end TaggedGraph

namespace Arbitration

/-- An edge of the thinned known graph. -/
def Shortcut (a : Arbitration) (i j : Nat) : Prop :=
  ∃ s ∈ a.shortcuts, s.source = i ∧ s.target = j

/-- What the parts of an arbitration have to do with each other: its clauses are about its variables, the
    thinned graph is part of what is known, and the closure says where it leads. -/
structure Proper (a : Arbitration) : Prop extends Bundled a where
  index_lt : ∀ arc ∈ a.arcs, arc.literal.index < a.variableCount
  links_lt : ∀ clause ∈ a.links, ∀ l ∈ clause, l.index < a.variableCount
  known : ∀ arc ∈ a.known, ∃ n < a.knownCount, arc.literal = knownLiteral n
  shortcut : ∀ s ∈ a.shortcuts, Brings a.level a.known s
  path_of_closure : ∀ {i j}, a.closure.Edge i j → ReflTransGen a.Shortcut i j

section OfPrecedence

variable {κ : Type} {g : Precedence κ} (hnodup : g.nodes.Nodup) (cs : List (Constraint κ))
  (options : AuditOptions)

theorem knownCount_le : (knownEdges g).length ≤ (ofPrecedence g cs options).variableCount :=
  Ballot.le_foldl_next _ cs

theorem next_le_variableCount {b : Ballot} (hb : b ∈ (ofPrecedence g cs options).ballots) :
    b.next ≤ (ofPrecedence g cs options).variableCount :=
  Ballot.next_le_foldl_next hb

include hnodup

theorem index_lt_of_mem_arcs {arc : Arc} (harc : arc ∈ (ofPrecedence g cs options).arcs) :
    arc.literal.index < (ofPrecedence g cs options).variableCount := by
  rcases List.mem_append.mp harc with harc | harc
  · rcases (mem_knownArcs_iff hnodup arc).mp harc with ⟨e, n, he, _, hliteral⟩
    rw [hliteral]
    exact Nat.lt_of_lt_of_le (List.getElem?_eq_some_iff.mp he).1 (knownCount_le cs options)
  · rcases List.mem_flatMap.mp harc with ⟨b, hb, hside⟩
    rcases (mem_ballots_iff cs options b).mp hb with ⟨c, n, hn⟩
    rcases Ballot.mem_sides_iff.mp hside with ⟨direction, hside⟩
    rcases List.mem_iff_getElem?.mp hside with ⟨m, hm⟩
    have hlt := Ballot.edgeLiteral_lt (List.getElem?_eq_some_iff.mp hm).1
    rw [hn.eq, Ballot.getElem?_arcs_iff hnodup, ← hn.eq] at hm
    rcases hm with ⟨_, _, _, hliteral⟩
    rw [hliteral]
    exact Nat.lt_of_lt_of_le hlt (next_le_variableCount cs options hb)

theorem index_lt_of_mem_links {clause : Clause} (hclause : clause ∈ (ofPrecedence g cs options).links)
    {l : Literal} (hl : l ∈ clause) : l.index < (ofPrecedence g cs options).variableCount := by
  rcases List.mem_flatMap.mp hclause with ⟨b, hb, hclause⟩
  have hle := next_le_variableCount cs options hb
  have hfirst := b.first_lt_next
  rcases Ballot.index_of_mem_links hclause hl with hindex | ⟨arc, harc, hindex⟩
  · omega
  · rw [hindex]
    exact index_lt_of_mem_arcs hnodup cs options
      (List.mem_append_right _ (List.mem_flatMap.mpr ⟨b, hb, harc⟩))

omit hnodup in
theorem knownUnder_true {layer : Layer} {a b : TransactionId} {e : LabelledEdge κ} (he : e ∈ g.edges)
    (hnodes : a ∈ g.nodes ∧ b ∈ g.nodes) (hends : e.source = a ∧ e.target = b)
    (hlayer : e.layer = layer) : KnownUnder g (fun _ => true) layer a b := by
  rcases hends with ⟨rfl, rfl⟩
  rcases List.mem_iff_getElem?.mp ((mem_knownEdges_iff e).mpr ⟨he, hnodes⟩) with ⟨n, hn⟩
  exact ⟨e, n, hn, rfl, ⟨rfl, rfl⟩, hlayer⟩

theorem final_of_knownGraph {i j : Nat}
    (hedge : (g.knownGraph options.level options.strategy).Edge i j) :
    Final options.level (knownArcs g) (fun _ => true) i j := by
  have hnames := (Precedence.knownGraph_spec hnodup options.level options.strategy).2
  rcases (hnames.edge_iff i j).mp hedge with ⟨x, y, hx, hy, hxy⟩
  refine (Computed.names_iff (present_knownArcs_iff hnodup _ .dependency)
    (present_knownArcs_iff hnodup _ .antiDependency) ?_ i j).mpr ⟨x, y, hx, hy, ?_⟩
  · rintro a b ⟨e, n, he, _, ⟨rfl, rfl⟩, _⟩
    exact ((mem_knownEdges_iff e).mp (List.mem_of_getElem? he)).2.2
  · refine Computed.mono ?_ ?_ hxy
    · rintro a b ⟨hnodes, e, he, hsource, htarget, hdep⟩
      exact knownUnder_true he hnodes ⟨hsource, htarget⟩ (e.layer_eq_iff.mpr hdep)
    · rintro a b ⟨hnodes, e, he, hsource, htarget, hanti⟩
      refine knownUnder_true he hnodes ⟨hsource, htarget⟩ ?_
      cases hlayer : e.layer with
      | dependency => exact absurd (e.layer_eq_iff.mp hlayer) hanti
      | antiDependency => rfl

theorem bounded_knownArcs : Bounded g.nodes.length (knownArcs g) := fun arc harc =>
  (bundled_ofPrecedence hnodup [] {}).bounded arc (List.mem_append_left _ harc)

theorem shortcut_of_thinned {i j : Nat} (hedge : (thinnedGraph g options).Edge i j) :
    (ofPrecedence g cs options).Shortcut i j :=
  exists_mem_shortcutsFor (bounded_knownArcs hnodup) (TaggedGraph.Regular.thin _) hedge
    (final_of_knownGraph hnodup options (TaggedGraph.edge_of_thin hedge))

theorem proper_ofPrecedence : (ofPrecedence g cs options).Proper where
  toBundled := bundled_ofPrecedence hnodup cs options
  index_lt _ := index_lt_of_mem_arcs hnodup cs options
  links_lt _ hclause _ := index_lt_of_mem_links hnodup cs options hclause
  known arc harc := by
    rcases (mem_knownArcs_iff hnodup arc).mp harc with ⟨e, n, he, _, hliteral⟩
    exact ⟨n, (List.getElem?_eq_some_iff.mp he).1, hliteral⟩
  shortcut s hs := (brings_of_mem_shortcutsFor hs).1
  path_of_closure hedge :=
    ReflTransGen.mono (fun _ _ => shortcut_of_thinned hnodup cs options) _ _
      ((TaggedGraph.closure_within (TaggedGraph.Regular.thin _) options.strategy).edge hedge)

end OfPrecedence

theorem size_finalGraph (a : Arbitration) (valuation : Valuation) :
    (a.finalGraph valuation).size = a.size :=
  ModelGraph.size_ofSteps ..

section Clauses

variable {a : Arbitration} (ha : a.Proper) {valuation : Valuation} {shortcuts : Bool} {i j : Nat}

/-- The edges that are put into the searched graph. -/
def searchedSteps (a : Arbitration) (valuation : Valuation) (shortcuts : Bool) : List Step :=
  if shortcuts then a.shortcuts ++ (a.finalSteps valuation).filter a.isOpen else a.finalSteps valuation

theorem mem_searchedSteps {s : Step} (hs : s ∈ a.searchedSteps valuation shortcuts) :
    shortcuts = true ∧ s ∈ a.shortcuts ∨ s ∈ a.finalSteps valuation := by
  unfold searchedSteps at hs
  split at hs
  · next hshort =>
      rcases List.mem_append.mp hs with hs | hs
      · exact Or.inl ⟨hshort, hs⟩
      · exact Or.inr (List.mem_filter.mp hs).1
  · exact Or.inr hs

include ha

theorem holds_of_mem_shortcuts
    (hknown : ∀ n < a.knownCount, (knownLiteral n).holds valuation = true) {s : Step}
    (hs : s ∈ a.shortcuts) : ∀ l ∈ s.reason, l.holds valuation = true := by
  intro l hl
  rcases (ha.shortcut s hs).literal l hl with ⟨arc, harc, rfl⟩
  rcases ha.known arc harc with ⟨n, hn, hliteral⟩
  rw [hliteral]
  exact hknown n hn

theorem brings_of_mem_shortcuts {s : Step} (hs : s ∈ a.shortcuts) : Brings a.level a.arcs s :=
  (ha.shortcut s hs).mono fun _ harc => List.mem_append_left _ harc

/-- The edges that are put in have honest reasons, which hold; with shortcuts, if the known edges are
    there. -/
theorem brings_of_mem_searchedSteps
    (hknown : shortcuts = true → ∀ n < a.knownCount, (knownLiteral n).holds valuation = true)
    {s : Step} (hs : s ∈ a.searchedSteps valuation shortcuts) :
    Brings a.level a.arcs s ∧ ∀ l ∈ s.reason, l.holds valuation = true := by
  rcases mem_searchedSteps hs with ⟨hshort, hs⟩ | hs
  · exact ⟨brings_of_mem_shortcuts ha hs, holds_of_mem_shortcuts ha (hknown hshort) hs⟩
  · exact brings_of_mem_finalSteps ha.toBundled hs

theorem lists_modelGraph (valuation : Valuation) (shortcuts : Bool) :
    (a.modelGraph valuation shortcuts).Lists a.size (a.searchedSteps valuation shortcuts) := by
  refine ModelGraph.lists_ofSteps fun s hs => ?_
  rcases mem_searchedSteps hs with ⟨_, hs⟩ | hs
  · -- Where everything is true the reason holds, so the edge lies between transactions.
    exact ha.bounded.final_lt ((brings_of_mem_shortcuts ha hs).edge (fun _ => true)
      (holds_of_mem_shortcuts ha (fun _ _ => rfl) hs))
  · rcases brings_of_mem_finalSteps ha.toBundled hs with ⟨hbrings, hholds⟩
    exact ha.bounded.final_lt (hbrings.edge valuation hholds)

/-- What is searched is part of the final graph; with shortcuts, if the known edges are there. -/
theorem edge_of_modelGraph
    (hknown : shortcuts = true → ∀ n < a.knownCount, (knownLiteral n).holds valuation = true)
    (hedge : (a.modelGraph valuation shortcuts).graph.Edge i j) : (a.finalGraph valuation).Edge i j := by
  rcases ((lists_modelGraph ha valuation shortcuts).edge_iff i j).mp hedge with ⟨s, hs, rfl, rfl⟩
  rcases brings_of_mem_searchedSteps ha hknown hs with ⟨hbrings, hholds⟩
  exact (edge_finalGraph_iff ha.toBundled valuation _ _).mpr (hbrings.edge valuation hholds)

theorem path_of_finalGraph (shortcuts : Bool) (hedge : (a.finalGraph valuation).Edge i j) :
    TransGen (a.modelGraph valuation shortcuts).graph.Edge i j := by
  have hlists := lists_modelGraph ha valuation shortcuts
  rcases ((lists_finalGraph ha.toBundled valuation).edge_iff i j).mp hedge with ⟨s, hs, rfl, rfl⟩
  cases shortcuts with
  | false => exact TransGen.single (hlists.edge s hs)
  | true =>
    cases hopen : a.isOpen s with
    | true =>
      exact TransGen.single (hlists.edge s
        (List.mem_append_right _ (List.mem_filter.mpr ⟨hs, hopen⟩)))
    | false =>
      rw [isOpen, Bool.or_eq_false_iff, decide_eq_false_iff_not, Bool.not_eq_false'] at hopen
      have hpath : ReflTransGen (a.modelGraph valuation true).graph.Edge s.source s.target := by
        refine ReflTransGen.mono ?_ _ _ (ha.path_of_closure hopen.2)
        rintro x y ⟨s', hs', rfl, rfl⟩
        exact hlists.edge s' (List.mem_append_left _ hs')
      exact (reflTransGen_iff_eq_or_transGen.mp hpath).resolve_left fun heq => hopen.1 heq.symm

theorem regular_finalGraph (valuation : Valuation) : (a.finalGraph valuation).Regular :=
  (lists_modelGraph ha valuation false).regular

theorem acyclic_of_cycleClause?_eq_none (hnone : a.cycleClause? shortcuts valuation = none) :
    Acyclic (a.finalGraph valuation).Edge := by
  have hregular := (lists_modelGraph ha valuation shortcuts).regular
  rw [cycleClause?, Option.map_eq_none_iff, TaggedGraph.findCycle?_eq_none_iff hregular] at hnone
  exact hnone.of_paths fun _ _ => path_of_finalGraph ha shortcuts

/-- The clause of a cycle is violated by the valuation that has the cycle, and satisfied by every
    valuation without cycles. -/
theorem cycleClause?_spec
    (hknown : shortcuts = true → ∀ n < a.knownCount, (knownLiteral n).holds valuation = true)
    {clause : Clause} (hclause : a.cycleClause? shortcuts valuation = some clause) :
    Clause.holds valuation clause = false ∧ (∀ l ∈ clause, l.index < a.variableCount) ∧
      ∀ other, Acyclic (a.finalGraph other).Edge → Clause.holds other clause = true := by
  rcases Option.map_eq_some_iff.mp hclause with ⟨cycle, hfound, rfl⟩
  have hcycle := TaggedGraph.isCycle_of_findCycle? hfound
  -- Every edge of the cycle has been put in with the reason that it has.
  have hreason : ∀ {v w}, (v, w) ∈ cyclePairs cycle → ∃ s, (s.source = v ∧ s.target = w) ∧
      (a.modelGraph valuation shortcuts).reason (v, w) = s.reason ∧ Brings a.level a.arcs s ∧
      ∀ l ∈ s.reason, l.holds valuation = true := by
    intro v w hpair
    rcases mem_cyclePairs_iff.mp hpair with ⟨i, hv, hw⟩
    rcases (lists_modelGraph ha valuation shortcuts).reason (hcycle.next hv hw) with
      ⟨s, hs, hends, hsame⟩
    exact ⟨s, hends, hsame, brings_of_mem_searchedSteps ha hknown hs⟩
  have hliteral : ∀ l ∈ ((cyclePairs cycle).flatMap
      (a.modelGraph valuation shortcuts).reason).eraseDups,
      l.holds valuation = true ∧ l.index < a.variableCount := by
    intro l hl
    rw [List.mem_eraseDups] at hl
    rcases List.mem_flatMap.mp hl with ⟨⟨v, w⟩, hpair, hl⟩
    rcases hreason hpair with ⟨s, _, hsame, hbrings, hholds⟩
    rw [hsame] at hl
    rcases hbrings.literal l hl with ⟨arc, harc, rfl⟩
    exact ⟨hholds _ hl, ha.index_lt arc harc⟩
  refine ⟨?_, fun l hl => ?_, fun other hother => ?_⟩
  · rw [← Bool.not_eq_true, ModelGraph.cycleClause, Clause.holds_map_negate_iff]
    rintro ⟨l, hl, hfalse⟩
    rw [(hliteral l hl).1] at hfalse
    exact absurd hfalse (by decide)
  · rcases List.mem_map.mp hl with ⟨literal, hmem, rfl⟩
    exact (hliteral literal hmem).2
  · rw [ModelGraph.cycleClause, Clause.holds_map_negate_iff]
    by_contra hall
    -- Under a valuation that has all the reasons, the cycle would be there.
    refine IsCycle.not_acyclic ⟨hcycle.ne_nil, hcycle.nodup, fun {i v w} hv hw => ?_⟩ hother
    have hpair := mem_cyclePairs_iff.mpr ⟨i, hv, hw⟩
    rcases hreason hpair with ⟨s, ⟨rfl, rfl⟩, hsame, hbrings, _⟩
    refine (edge_finalGraph_iff ha.toBundled other _ _).mpr (hbrings.edge other fun l hl => ?_)
    by_contra hfalse
    refine hall ⟨l, ?_, (Bool.not_eq_true _).mp hfalse⟩
    rw [List.mem_eraseDups]
    exact List.mem_flatMap.mpr ⟨_, hpair, hsame ▸ hl⟩

end Clauses

section Loop

variable {a : Arbitration} {engine : Engine} (hsound : engine.Sound)

include hsound

/-- A refinement ends with a valuation that satisfies the assumptions and all clauses asked about, and
    shows no cycle. -/
theorem refineWithin_acyclic {shortcuts : Bool} {assumptions : List Literal} {budget : Nat}
    {clauses last : List Clause} {valuation : Valuation}
    (hend : refineWithin engine a shortcuts assumptions budget clauses = .acyclic valuation last) :
    (∀ l ∈ assumptions, l.holds valuation = true) ∧
      (∀ clause ∈ clauses, Clause.holds valuation clause = true) ∧
      a.cycleClause? shortcuts valuation = none := by
  induction budget generalizing clauses with
  | zero => exact absurd hend (by simp only [refineWithin, reduceCtorEq, not_false_eq_true])
  | succ budget ih =>
    rw [refineWithin] at hend
    cases hanswer : engine.solve clauses assumptions with
    | failed message => simp only [hanswer, reduceCtorEq] at hend
    | refuted core => simp only [hanswer, reduceCtorEq] at hend
    | satisfied found =>
      simp only [hanswer] at hend
      cases hclause : a.cycleClause? shortcuts found with
      | none =>
        simp only [hclause, Refined.acyclic.injEq] at hend
        rw [← hend.1]
        exact ⟨(hsound clauses assumptions found hanswer).2, (hsound clauses assumptions found hanswer).1,
          hclause⟩
      | some clause =>
        simp only [hclause] at hend
        rcases ih hend with ⟨hassumed, hholds, hnone⟩
        exact ⟨hassumed, fun c hc => hholds c (List.mem_cons_of_mem _ hc), hnone⟩

end Loop

end Arbitration

end Isolation
