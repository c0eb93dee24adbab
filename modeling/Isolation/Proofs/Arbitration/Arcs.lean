import Isolation.Arbitration.Refine
import Isolation.Proofs.Lists
import Isolation.Proofs.Precedence.Orders
import Isolation.Proofs.Sorted

/-!
# Arcs and Their Reasons

The arcs that are there under a valuation form two layers, and the final graph is computed from them. Its
edges are listed with reasons. A reason names one arc, or two arcs that meet, and of all arcs between the
same transactions it names the first that is there. So a reason is honest in two ways. It holds under the
valuation that gave the edge, and under every other valuation under which it holds, the edge is there as
well, whichever arc is the first there.

The thinned known graph is listed with reasons in the same way. They come from known arcs only.

## Main definitions

* `Present`, `Final`: The arcs of a layer that are there, and what is computed from both layers.

## Theorems

* `edge_finalGraph_iff`: The final graph is computed from the arcs that are there.
-/

namespace Isolation

open Isolation.Sat

/-- The ends of the arcs are transactions. -/
def Bounded (size : Nat) (arcs : List Arc) : Prop :=
  ∀ arc ∈ arcs, arc.source < size ∧ arc.target < size

/-- An arc of the layer is there under a valuation. -/
def Present (arcs : List Arc) (valuation : Valuation) (layer : Layer) (i j : Nat) : Prop :=
  ∃ arc ∈ arcs, (arc.layer = layer ∧ arc.source = i ∧ arc.target = j) ∧
    arc.literal.holds valuation = true

/-- What is computed at a level from the arcs that are there. -/
def Final (level : IsolationLevel) (arcs : List Arc) (valuation : Valuation) : Nat → Nat → Prop :=
  Computed level (Present arcs valuation .dependency) (Present arcs valuation .antiDependency)

/-- An edge whose reason is honest: it consists of literals of arcs, and the edge is there wherever it
    holds. -/
structure Brings (level : IsolationLevel) (arcs : List Arc) (step : Step) : Prop where
  literal : ∀ l ∈ step.reason, ∃ arc ∈ arcs, arc.literal = l
  edge : ∀ valuation, (∀ l ∈ step.reason, l.holds valuation = true) →
    Final level arcs valuation step.source step.target

section Arcs

variable {size : Nat} {arcs more : List Arc} {level : IsolationLevel} {valuation : Valuation}
  {layer : Layer} {i j : Nat}

theorem Present.mono (hsub : ∀ arc ∈ arcs, arc ∈ more) (hpresent : Present arcs valuation layer i j) :
    Present more valuation layer i j := by
  rcases hpresent with ⟨arc, harc, hends, hholds⟩
  exact ⟨arc, hsub arc harc, hends, hholds⟩

theorem Final.mono (hsub : ∀ arc ∈ arcs, arc ∈ more) (hfinal : Final level arcs valuation i j) :
    Final level more valuation i j :=
  Computed.mono (fun _ _ => Present.mono hsub) (fun _ _ => Present.mono hsub) hfinal

theorem Bounded.present_lt (hbounded : Bounded size arcs) (hpresent : Present arcs valuation layer i j) :
    i < size ∧ j < size := by
  rcases hpresent with ⟨arc, harc, ⟨_, rfl, rfl⟩, _⟩
  exact hbounded arc harc

theorem Bounded.final_lt (hbounded : Bounded size arcs) (hfinal : Final level arcs valuation i j) :
    i < size ∧ j < size := by
  cases level with
  | serializable => exact hfinal.elim hbounded.present_lt hbounded.present_lt
  | snapshotIsolation =>
    rcases hfinal with hpresent | ⟨m, him, hmj⟩
    · exact hbounded.present_lt hpresent
    · exact ⟨(hbounded.present_lt him).1, (hbounded.present_lt hmj).2⟩

theorem Brings.mono {step : Step} (hsub : ∀ arc ∈ arcs, arc ∈ more) (hbrings : Brings level arcs step) :
    Brings level more step := by
  refine ⟨fun l hl => ?_, fun valuation hholds => (hbrings.edge valuation hholds).mono hsub⟩
  rcases hbrings.literal l hl with ⟨arc, harc, hliteral⟩
  exact ⟨arc, hsub arc harc, hliteral⟩

/-- A dependency is an edge by itself, and for serializability every arc is. -/
theorem brings_one {arc : Arc} (harc : arc ∈ arcs)
    (hlayer : arc.layer = .dependency ∨ level = .serializable) :
    Brings level arcs ⟨arc.source, arc.target, [arc.literal]⟩ := by
  refine ⟨fun l hl => ⟨arc, harc, (List.mem_singleton.mp hl).symm⟩, fun valuation hholds => ?_⟩
  have hpresent : Present arcs valuation arc.layer arc.source arc.target :=
    ⟨arc, harc, ⟨rfl, rfl, rfl⟩, hholds _ (List.mem_singleton_self _)⟩
  cases hsort : arc.layer with
  | dependency =>
    rw [hsort] at hpresent
    cases level with
    | serializable => exact Or.inl hpresent
    | snapshotIsolation => exact Or.inl hpresent
  | antiDependency =>
    rw [hsort] at hpresent hlayer
    rw [hlayer.resolve_left (by decide)]
    exact Or.inr hpresent

/-- A dependency and an anti-dependency that meet are an edge for snapshot isolation. -/
theorem brings_two {a b : Arc} (ha : a ∈ arcs) (hb : b ∈ arcs) (hdependency : a.layer = .dependency)
    (hanti : b.layer = .antiDependency) (hmeet : a.target = b.source) :
    Brings .snapshotIsolation arcs ⟨a.source, b.target, [a.literal, b.literal]⟩ := by
  refine ⟨fun l hl => ?_, fun valuation hholds => ?_⟩
  · rcases List.mem_cons.mp hl with rfl | hl
    · exact ⟨a, ha, rfl⟩
    · exact ⟨b, hb, (List.mem_singleton.mp hl).symm⟩
  · have hfirst := hholds _ List.mem_cons_self
    have hsecond := hholds _ (List.mem_cons_of_mem _ (List.mem_singleton_self _))
    exact Or.inr ⟨a.target, ⟨a, ha, ⟨hdependency, rfl, rfl⟩, hfirst⟩,
      ⟨b, hb, ⟨hanti, hmeet.symm, rfl⟩, hsecond⟩⟩

theorem exists_mem_bundles_iff (l : Literal) :
    (∃ literals, ((i, j), literals) ∈ bundles layer arcs ∧ l ∈ literals) ↔
      ∃ arc ∈ arcs, (arc.layer = layer ∧ arc.source = i ∧ arc.target = j) ∧ arc.literal = l := by
  refine (SortedMap.exists_mem_gather_iff ?_ _ _).trans ?_
  · exact fun x y values => List.mem_append.trans (or_congr_right List.mem_singleton)
  · simp only [List.mem_map, List.mem_filter, decide_eq_true_eq, Prod.mk.injEq, and_assoc]

theorem getD_tabulate (targets : Nat → List (Nat × Literal)) (i : Nat) :
    (Outgoing.tabulate size targets).getD i [] = if i < size then targets i else [] := by
  rw [Outgoing.tabulate, Array.getD_eq_getD_getElem?, List.getElem?_toArray, List.getElem?_map]
  split
  · next hlt => rw [List.getElem?_range hlt, Option.map_some, Option.getD_some]
  · next hge =>
      rw [List.getElem?_eq_none (by rw [List.length_range]; omega), Option.map_none, Option.getD_none]

end Arcs

namespace Arbitration

/-- The arcs of known edges and of the sides of constraints. -/
def arcs (a : Arbitration) : List Arc :=
  a.known ++ a.ballots.flatMap fun b => b.forward ++ b.backward

/-- The bundles of an arbitration hold its arcs, and these lie between its transactions. -/
structure Bundled (a : Arbitration) : Prop where
  bounded : Bounded a.size a.arcs
  dependencies : a.dependencies = bundles .dependency a.arcs
  antiDependencies : a.antiDependencies = bundles .antiDependency a.arcs

section Steps

variable {a : Arbitration} {arcs : List Arc} {valuation : Valuation} {layer : Layer} {i j : Nat}

theorem mem_active_iff {table : List Bundle} {l : Literal} :
    (j, l) ∈ (a.active valuation table).getD i [] ↔ i < a.size ∧
      ∃ literals, ((i, j), literals) ∈ table ∧ literals.find? (Literal.holds valuation) = some l := by
  rw [active, getD_tabulate]
  split
  · next hlt =>
      simp only [List.mem_filterMap, Prod.exists, hlt, true_and]
      constructor
      · rintro ⟨source, target, literals, hmem, hfound⟩
        rw [Option.ite_none_right_eq_some] at hfound
        rcases hfound with ⟨rfl, hfound⟩
        rcases Option.map_eq_some_iff.mp hfound with ⟨l', hfirst, heq⟩
        rw [Prod.mk.injEq] at heq
        rw [← heq.1, ← heq.2]
        exact ⟨literals, hmem, hfirst⟩
      · rintro ⟨literals, hmem, hfound⟩
        exact ⟨i, j, literals, hmem, by rw [if_pos rfl, hfound, Option.map_some]⟩
  · next hge => simp only [List.not_mem_nil, hge, false_and]

theorem exists_arc_of_active {l : Literal}
    (hmem : (j, l) ∈ (a.active valuation (bundles layer arcs)).getD i []) :
    ∃ arc ∈ arcs, (arc.layer = layer ∧ arc.source = i ∧ arc.target = j) ∧ arc.literal = l ∧
      l.holds valuation = true := by
  rcases (mem_active_iff.mp hmem).2 with ⟨literals, hbundle, hfound⟩
  rcases (exists_mem_bundles_iff l).mp ⟨literals, hbundle, List.mem_of_find?_eq_some hfound⟩ with
    ⟨arc, harc, hends, hliteral⟩
  exact ⟨arc, harc, hends, hliteral, List.find?_some hfound⟩

/-- If an arc is there, the first one of its bundle that is there leads to where it does. -/
theorem exists_active (hlt : i < a.size) (hpresent : Present arcs valuation layer i j) :
    ∃ l, (j, l) ∈ (a.active valuation (bundles layer arcs)).getD i [] := by
  rcases hpresent with ⟨arc, harc, hends, hholds⟩
  rcases (exists_mem_bundles_iff arc.literal).mpr ⟨arc, harc, hends, rfl⟩ with
    ⟨literals, hbundle, hmem⟩
  have hsome : (literals.find? (Literal.holds valuation)).isSome = true :=
    List.find?_isSome.mpr ⟨_, hmem, hholds⟩
  rcases Option.isSome_iff_exists.mp hsome with ⟨l, hfound⟩
  exact ⟨l, mem_active_iff.mpr ⟨hlt, literals, hbundle, hfound⟩⟩

variable (ha : a.Bundled)

include ha

theorem brings_of_mem_finalSteps {step : Step} (hstep : step ∈ a.finalSteps valuation) :
    Brings a.level a.arcs step ∧ ∀ l ∈ step.reason, l.holds valuation = true := by
  have hone : ∀ {layer i j l}, (layer = .dependency ∨ a.level = .serializable) →
      (j, l) ∈ (a.active valuation (bundles layer a.arcs)).getD i [] →
      Brings a.level a.arcs ⟨i, j, [l]⟩ ∧ l.holds valuation = true := by
    intro layer i j l hlayer hmem
    rcases exists_arc_of_active hmem with ⟨arc, harc, ⟨rfl, rfl, rfl⟩, rfl, hholds⟩
    exact ⟨brings_one harc hlayer, hholds⟩
  rw [finalSteps, ha.dependencies, ha.antiDependencies] at hstep
  rcases List.mem_append.mp hstep with hstep | hstep
  · rcases List.mem_flatMap.mp hstep with ⟨i, _, hstep⟩
    rcases List.mem_flatMap.mp hstep with ⟨⟨middle, l⟩, hmem, hstep⟩
    rcases hone (Or.inl rfl) hmem with ⟨hbrings, hholds⟩
    rcases List.mem_cons.mp hstep with rfl | hstep
    · exact ⟨hbrings, List.forall_mem_singleton.mpr hholds⟩
    · cases hlevel : a.level with
      | serializable =>
        rw [hlevel] at hstep
        exact absurd hstep List.not_mem_nil
      | snapshotIsolation =>
        rw [hlevel] at hstep
        rcases List.mem_map.mp hstep with ⟨⟨j, l'⟩, hmem', rfl⟩
        rcases exists_arc_of_active hmem with ⟨arc, harc, ⟨hsort, rfl, rfl⟩, rfl, _⟩
        rcases exists_arc_of_active hmem' with ⟨arc', harc', ⟨hsort', hsource, rfl⟩, rfl, hholds'⟩
        exact ⟨brings_two harc harc' hsort hsort' hsource.symm,
          List.forall_mem_cons.mpr ⟨hholds, List.forall_mem_singleton.mpr hholds'⟩⟩
  · cases hlevel : a.level with
    | snapshotIsolation =>
      simp only [hlevel, List.not_mem_nil] at hstep
    | serializable =>
      simp only [hlevel, List.mem_flatMap, List.mem_map, Prod.exists] at hstep
      rcases hstep with ⟨i, _, j, l, hmem, rfl⟩
      rcases hone (Or.inr hlevel) hmem with ⟨hbrings, hholds⟩
      exact ⟨hlevel ▸ hbrings, List.forall_mem_singleton.mpr hholds⟩

theorem exists_mem_finalSteps (hfinal : Final a.level a.arcs valuation i j) :
    ∃ step ∈ a.finalSteps valuation, step.source = i ∧ step.target = j := by
  have hone : Present a.arcs valuation .dependency i j →
      ∃ step ∈ a.finalSteps valuation, step.source = i ∧ step.target = j := by
    intro hpresent
    have hlt := (ha.bounded.present_lt hpresent).1
    rcases exists_active hlt hpresent with ⟨l, hmem⟩
    refine ⟨⟨i, j, [l]⟩, ?_, rfl, rfl⟩
    rw [finalSteps, ha.dependencies, ha.antiDependencies]
    exact List.mem_append_left _ (List.mem_flatMap.mpr ⟨i, List.mem_range.mpr hlt,
      List.mem_flatMap.mpr ⟨(j, l), hmem, List.mem_cons_self⟩⟩)
  cases hlevel : a.level with
  | serializable =>
    rw [hlevel] at hfinal
    refine hfinal.elim hone fun hpresent => ?_
    have hlt := (ha.bounded.present_lt hpresent).1
    rcases exists_active hlt hpresent with ⟨l, hmem⟩
    refine ⟨⟨i, j, [l]⟩, ?_, rfl, rfl⟩
    rw [finalSteps, ha.dependencies, ha.antiDependencies]
    simp only [hlevel]
    exact List.mem_append_right _ (List.mem_flatMap.mpr ⟨i, List.mem_range.mpr hlt,
      List.mem_map.mpr ⟨(j, l), hmem, rfl⟩⟩)
  | snapshotIsolation =>
    rw [hlevel] at hfinal
    refine hfinal.elim hone fun ⟨m, him, hmj⟩ => ?_
    have hlt := (ha.bounded.present_lt him).1
    rcases exists_active hlt him with ⟨l, hmem⟩
    rcases exists_active (ha.bounded.present_lt hmj).1 hmj with ⟨l', hmem'⟩
    refine ⟨⟨i, j, [l, l']⟩, ?_, rfl, rfl⟩
    rw [finalSteps, ha.dependencies, ha.antiDependencies]
    refine List.mem_append_left _ (List.mem_flatMap.mpr ⟨i, List.mem_range.mpr hlt,
      List.mem_flatMap.mpr ⟨(m, l), hmem, List.mem_cons_of_mem _ ?_⟩⟩)
    simp only [hlevel]
    exact List.mem_map.mpr ⟨(j, l'), hmem', rfl⟩

end Steps

section Shortcuts

variable {size : Nat} {known : List Arc} {level : IsolationLevel} {i j : Nat}

theorem mem_outgoing_iff {layer : Layer} {l : Literal} :
    (j, l) ∈ (outgoing size layer known).getD i [] ↔ i < size ∧
      ∃ arc ∈ known, (arc.layer = layer ∧ arc.source = i ∧ arc.target = j) ∧ arc.literal = l := by
  rw [outgoing, getD_tabulate]
  split
  · next hlt =>
      simp only [List.mem_map, List.mem_filter, Bool.and_eq_true, decide_eq_true_eq, Prod.mk.injEq,
        hlt, true_and, and_assoc]
  · next hge => simp only [List.not_mem_nil, hge, false_and]

theorem brings_of_knownReason? {reason : List Literal}
    (hreason : knownReason? level (outgoing size .dependency known) (outgoing size .antiDependency known)
      i j = some reason) : Brings level known ⟨i, j, reason⟩ := by
  have hone : ∀ {layer l}, (layer = .dependency ∨ level = .serializable) →
      ((outgoing size layer known).getD i []).lookup j = some l → Brings level known ⟨i, j, [l]⟩ := by
    intro layer l hlayer hfound
    rcases (mem_outgoing_iff.mp (mem_of_lookup_eq_some hfound)).2 with
      ⟨arc, harc, ⟨rfl, rfl, rfl⟩, rfl⟩
    exact brings_one harc hlayer
  unfold knownReason? at hreason
  split at hreason
  · next l hfound =>
      rw [← Option.some.inj hreason]
      exact hone (Or.inl rfl) hfound
  · split at hreason
    · rcases Option.map_eq_some_iff.mp hreason with ⟨l, hfound, rfl⟩
      exact hone (Or.inr rfl) hfound
    · rcases List.exists_of_findSome?_eq_some hreason with ⟨⟨middle, l⟩, hmem, hfound⟩
      rcases Option.map_eq_some_iff.mp hfound with ⟨l', hlookup, rfl⟩
      rcases (mem_outgoing_iff.mp hmem).2 with ⟨arc, harc, ⟨hsort, rfl, rfl⟩, rfl⟩
      rcases (mem_outgoing_iff.mp (mem_of_lookup_eq_some hlookup)).2 with
        ⟨arc', harc', ⟨hsort', hsource, rfl⟩, rfl⟩
      exact brings_two harc harc' hsort hsort' hsource.symm

theorem exists_knownReason? (hbounded : Bounded size known) {valuation : Valuation}
    (hfinal : Final level known valuation i j) :
    ∃ reason, knownReason? level (outgoing size .dependency known)
      (outgoing size .antiDependency known) i j = some reason := by
  have hlookup : ∀ {layer i j}, Present known valuation layer i j →
      ∃ l, ((outgoing size layer known).getD i []).lookup j = some l := by
    intro layer i j hpresent
    have hlt := (hbounded.present_lt hpresent).1
    rcases hpresent with ⟨arc, harc, hends, _⟩
    refine Option.isSome_iff_exists.mp (List.lookup_isSome_iff.mpr ⟨(j, arc.literal), ?_, ?_⟩)
    · exact mem_outgoing_iff.mpr ⟨hlt, arc, harc, hends, rfl⟩
    · exact beq_self_eq_true j
  unfold knownReason?
  cases hfound : ((outgoing size .dependency known).getD i []).lookup j with
  | some l => exact ⟨[l], rfl⟩
  | none =>
    -- There is no dependency between the two, so the edge comes from elsewhere.
    have hnot : ¬ Present known valuation .dependency i j := by
      intro hpresent
      rcases hlookup hpresent with ⟨l, hl⟩
      rw [hfound] at hl
      cases hl
    cases level with
    | serializable =>
      rcases hlookup (hfinal.resolve_left hnot) with ⟨l, hl⟩
      exact ⟨[l], by simp only [hl, Option.map_some]⟩
    | snapshotIsolation =>
      rcases hfinal.resolve_left hnot with ⟨m, him, hmj⟩
      rcases hlookup hmj with ⟨l', hl'⟩
      rcases hlookup him with ⟨l, hl⟩
      refine Option.isSome_iff_exists.mp (List.findSome?_isSome_iff.mpr
        ⟨(m, l), mem_of_lookup_eq_some hl, ?_⟩)
      simp only [hl', Option.map_some, Option.isSome_some]

variable {thinned : TaggedGraph}

theorem brings_of_mem_shortcutsFor {step : Step}
    (hstep : step ∈ shortcutsFor level size known thinned) :
    Brings level known step ∧ thinned.Edge step.source step.target := by
  rcases List.mem_filterMap.mp hstep with ⟨⟨i, j, tagged⟩, hedge, hsome⟩
  rcases Option.map_eq_some_iff.mp hsome with ⟨reason, hreason, rfl⟩
  exact ⟨brings_of_knownReason? hreason, ((TaggedGraph.mem_edges_iff i j tagged).mp hedge).2.1⟩

theorem exists_mem_shortcutsFor (hbounded : Bounded size known) (hregular : thinned.Regular)
    {valuation : Valuation} (hedge : thinned.Edge i j) (hfinal : Final level known valuation i j) :
    ∃ step ∈ shortcutsFor level size known thinned, step.source = i ∧ step.target = j := by
  rcases exists_knownReason? hbounded hfinal with ⟨reason, hreason⟩
  refine ⟨⟨i, j, reason⟩, List.mem_filterMap.mpr ⟨(i, j, thinned.hasTaggedEdge i j), ?_, ?_⟩, rfl, rfl⟩
  · exact (TaggedGraph.mem_edges_iff i j _).mpr ⟨hregular.target_lt hedge, hedge, rfl⟩
  · simp only [hreason, Option.map_some]

end Shortcuts

end Arbitration

namespace ModelGraph

/-- The edges of a graph are those of a list, each with the reason of one of its entries. -/
structure Lists (m : ModelGraph) (size : Nat) (steps : List Step) : Prop where
  size_eq : m.graph.size = size
  regular : m.graph.Regular
  edge : ∀ s ∈ steps, m.graph.Edge s.source s.target
  reason : ∀ {i j}, m.graph.Edge i j →
    ∃ s ∈ steps, (s.source = i ∧ s.target = j) ∧ m.reason (i, j) = s.reason

variable {m : ModelGraph} {size : Nat} {steps : List Step}

theorem Lists.edge_iff (hm : m.Lists size steps) (i j : Nat) :
    m.graph.Edge i j ↔ ∃ s ∈ steps, s.source = i ∧ s.target = j := by
  constructor
  · intro hedge
    rcases hm.reason hedge with ⟨s, hs, hends, _⟩
    exact ⟨s, hs, hends⟩
  · rintro ⟨s, hs, rfl, rfl⟩
    exact hm.edge s hs

theorem size_ofSteps (size : Nat) (steps : List Step) : (ofSteps size steps).graph.size = size := by
  suffices hrun : ∀ m : ModelGraph, (steps.foldl ModelGraph.add m).graph.size = m.graph.size from
    (hrun (empty size)).trans (TaggedGraph.size_empty size)
  intro m
  induction steps generalizing m with
  | nil => rfl
  | cons s rest ih =>
    rw [List.foldl_cons, ih, ModelGraph.add]
    split
    · rfl
    · exact TaggedGraph.size_insert ..

theorem lists_empty (size : Nat) : (empty size).Lists size [] := by
  refine ⟨TaggedGraph.size_empty size, TaggedGraph.Regular.empty size, ?_, fun hedge => ?_⟩
  · exact fun s hs => absurd hs List.not_mem_nil
  · exact absurd hedge (TaggedGraph.not_edge_empty size _ _)

/-- One more edge, whether it is new or not. -/
theorem Lists.add (hm : m.Lists size steps) {s : Step} (hs : s.source < size ∧ s.target < size) :
    (m.add s).Lists size (steps ++ [s]) := by
  unfold ModelGraph.add
  split
  · next hold =>
      refine ⟨hm.size_eq, hm.regular, ?_, fun hedge => ?_⟩
      · exact List.forall_mem_append.mpr ⟨hm.edge, List.forall_mem_singleton.mpr hold⟩
      · rcases hm.reason hedge with ⟨s', hs', hends⟩
        exact ⟨s', List.mem_append_left _ hs', hends⟩
  · next hnew =>
      rw [← hm.size_eq] at hs
      have hedge := fun i j => TaggedGraph.edge_insert_iff m.graph s.source s.target true i j
      refine ⟨(TaggedGraph.size_insert ..).trans hm.size_eq, hm.regular.insert _ _ hs.2, ?_, ?_⟩
      · refine List.forall_mem_append.mpr ⟨fun s' hs' => ?_, List.forall_mem_singleton.mpr ?_⟩
        · exact (hedge _ _).mpr (Or.inl (hm.edge s' hs'))
        · exact (hedge _ _).mpr (Or.inr ⟨⟨rfl, hs.1⟩, rfl⟩)
      · intro i j hij
        rcases (hedge i j).mp hij with hold | ⟨⟨rfl, _⟩, rfl⟩
        · -- The new reason is listed before the old one, but it is that of another edge.
          rcases hm.reason hold with ⟨s', hs', hends, hreason⟩
          refine ⟨s', List.mem_append_left _ hs', hends, ?_⟩
          have hne : ((i, j) == (s.source, s.target)) = false := by
            rw [beq_eq_false_iff_ne, ne_eq, Prod.mk.injEq]
            rintro ⟨rfl, rfl⟩
            exact hnew hold
          rw [← hreason, ModelGraph.reason, List.lookup_cons, hne]
          rfl
        · refine ⟨s, List.mem_append_right _ (List.mem_singleton_self s), ⟨rfl, rfl⟩, ?_⟩
          rw [ModelGraph.reason, List.lookup_cons, beq_self_eq_true]
          rfl

/-- The graph of a list of edges has these edges. -/
theorem lists_ofSteps (hsteps : ∀ s ∈ steps, s.source < size ∧ s.target < size) :
    (ofSteps size steps).Lists size steps := by
  suffices hrun : ∀ {m done}, m.Lists size done →
      (steps.foldl ModelGraph.add m).Lists size (done ++ steps) from hrun (lists_empty size)
  induction steps with
  | nil =>
    intro m done hm
    rw [List.append_nil]
    exact hm
  | cons s rest ih =>
    intro m done hm
    rw [List.foldl_cons, List.append_cons]
    exact ih (fun s' hs' => hsteps s' (List.mem_cons_of_mem _ hs'))
      (hm.add (hsteps s List.mem_cons_self))

end ModelGraph

namespace Arbitration

variable {a : Arbitration} (ha : a.Bundled) (valuation : Valuation)

include ha

theorem lists_finalGraph : (a.modelGraph valuation false).Lists a.size (a.finalSteps valuation) := by
  refine ModelGraph.lists_ofSteps fun s hs => ?_
  rcases brings_of_mem_finalSteps ha hs with ⟨hbrings, hholds⟩
  exact ha.bounded.final_lt (hbrings.edge valuation hholds)

/-- The final graph is computed from the arcs that are there. -/
theorem edge_finalGraph_iff (i j : Nat) :
    (a.finalGraph valuation).Edge i j ↔ Final a.level a.arcs valuation i j := by
  refine ((lists_finalGraph ha valuation).edge_iff i j).trans ⟨?_, exists_mem_finalSteps ha⟩
  rintro ⟨s, hs, rfl, rfl⟩
  rcases brings_of_mem_finalSteps ha hs with ⟨hbrings, hholds⟩
  exact hbrings.edge valuation hholds

end Arbitration

end Isolation
