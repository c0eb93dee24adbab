import Isolation.Proofs.Graph.Thinning
import Isolation.Proofs.Precedence.OfHistory

/-!
# Known Cycles

A round of pruning begins with the question whether the known graph has a cycle. It does not look at the
known graph for an answer, but at the closure of the thinned one, and there only for tagged loops. This is
exact for the graph of a history to which edges of constraints have been added, for two reasons. The
transactions of a history stand in sessions, and session order is known, so thinning loses no cycle. And
an edge without a tag is session order and nothing else, which leads from one place of a session to the
next, so a cycle uses an edge that says more.

The edge that is reported is then looked up in the known graph itself. It lies on a cycle, and the way
around says more than session order, at that edge or somewhere behind it.

## Main definitions

* `Precedence.Grown`: The graph of a history with edges of constraints.
* `Precedence.SaysMore`: A known edge that is not pure session order.

## Theorems

* `pruneRound_cycle_exact`: What is reported is a cycle.
-/

namespace Isolation

open Relation

/-- What anti-dependencies bring at a level: pairs of their own for serializability, and for snapshot
    isolation the pairs of a dependency followed by one. -/
def Brought {α : Type} (level : IsolationLevel) (depends anti : α → α → Prop) (a b : α) : Prop :=
  match level with
  | .serializable => anti a b
  | .snapshotIsolation => ∃ m, depends a m ∧ anti m b

theorem computed_iff_depends_or_brought {α : Type} {level : IsolationLevel} {D B : α → α → Prop}
    (a b : α) : Computed level D B a b ↔ D a b ∨ Brought level D B a b := by
  cases level with
  | serializable => exact Iff.rfl
  | snapshotIsolation => exact Iff.rfl

namespace TaggedGraph

variable {α : Type} {level : IsolationLevel} {f g : TaggedGraph} {names : List α} {D B : α → α → Prop}

theorem tagged_induced_iff (strategy : Strategy) (hf : f.Regular) (hg : g.Regular)
    (hsize : f.size = g.size) (htagged : ∀ i j, g.Edge i j → g.Tagged i j) (i j : Nat) :
    (f.induced level strategy g).Tagged i j ↔ f.Tagged i j ∨ Brought level f.Edge g.Edge i j := by
  cases level with
  | serializable =>
    rw [induced, tagged_union_iff hsize]
    exact or_congr_right ⟨hg.edge_of_tagged, htagged i j⟩
  | snapshotIsolation =>
    rw [induced, tagged_union_iff (size_compose strategy).symm, tagged_compose_iff strategy hf hg]
    refine or_congr_right ⟨?_, ?_⟩
    · rintro ⟨k, hedges, _⟩
      exact ⟨k, hedges⟩
    · rintro ⟨k, hik, hkj⟩
      exact ⟨k, ⟨hik, hkj⟩, Or.inr (htagged k j hkj)⟩

theorem Names.brought_iff (hD : f.Names names D) (hB : g.Names names B) {i j : Nat} {a b : α}
    (ha : names[i]? = some a) (hb : names[j]? = some b) :
    Brought level f.Edge g.Edge i j ↔ Brought level D B a b := by
  cases level with
  | serializable => exact hB.edge_between_iff ha hb
  | snapshotIsolation =>
    constructor
    · rintro ⟨k, hik, hkj⟩
      rcases (hD.edge_iff i k).mp hik with ⟨_, m, _, hm, _⟩
      exact ⟨m, (hD.edge_between_iff ha hm).mp hik, (hB.edge_between_iff hm hb).mp hkj⟩
    · rintro ⟨m, ham, hmb⟩
      rcases List.mem_iff_getElem?.mp (hD.mem ham).2 with ⟨k, hk⟩
      exact ⟨k, (hD.edge_between_iff ha hk).mpr ham, (hB.edge_between_iff hk hb).mpr hmb⟩

end TaggedGraph

namespace Precedence

variable {κ ν : Type} {a b : TransactionId} {level : IsolationLevel} {i j : Nat}

section Labels

/-- A pair has a label. -/
def Bears (g : Precedence κ) (label : Label κ) (a b : TransactionId) : Prop :=
  HasEdge g.edges (fun e => label ∈ e.labels) a b

variable [DecidableEq κ] (g : Precedence κ) (l : Label κ) (a b : TransactionId)

theorem mem_labels_addLabel (label : Label κ) (e : LabelledEdge κ) :
    l ∈ (e.addLabel label).labels ↔ l ∈ e.labels ∨ l = label := by
  unfold LabelledEdge.addLabel
  split
  · next hmem =>
      rw [List.contains_iff_mem] at hmem
      exact ⟨Or.inl, fun hc => hc.elim id fun heq => heq ▸ hmem⟩
  · rw [List.mem_append, List.mem_singleton]

theorem bears_addEdge_iff (source target : TransactionId) (label : Label κ) :
    (g.addEdge source target label).Bears l a b ↔
      g.Bears l a b ∨ (a = source ∧ b = target) ∧ l = label := by
  refine hasEdge_insertLabel_iff _ label _ (mem_labels_addLabel l label) ?_ source target g.edges a b
  intro s t
  exact List.mem_singleton

theorem bears_foldl_addEdge_iff {γ : Type} (source target : γ → TransactionId) (label : γ → Label κ)
    (xs : List γ) :
    (xs.foldl (fun g x => g.addEdge (source x) (target x) (label x)) g).Bears l a b ↔
      g.Bears l a b ∨ ∃ x ∈ xs, (a = source x ∧ b = target x) ∧ l = label x := by
  induction xs generalizing g with
  | nil => simp only [List.foldl_nil, List.not_mem_nil, false_and, exists_false, or_false]
  | cons x rest ih =>
    rw [List.foldl_cons, ih, bears_addEdge_iff, List.exists_mem_cons_iff, or_assoc]

theorem bears_addSide_iff (edges : List (SideEdge κ)) : (g.addSide edges).Bears l a b ↔
    g.Bears l a b ∨ ∃ e ∈ edges, (a = e.source ∧ b = e.target) ∧ l = e.label :=
  bears_foldl_addEdge_iff g l a b SideEdge.source SideEdge.target SideEdge.label edges

theorem bears_ofHistory_iff [DecidableEq ν] (h : History κ ν) : (ofHistory h).Bears l a b ↔
    (∃ p ∈ h.sessions.flatMap sessionPairs, (a = p.1 ∧ b = p.2) ∧ l = .session) ∨
      ∃ r ∈ h.transactions.flatMap (readsOf h),
        (a = r.writer ∧ b = r.reader) ∧ l = .keyed .writeRead r.key := by
  have hnone : ¬ Bears ⟨h.transactions.map Transaction.id, [],
      h.transactions.flatMap (readsOf h)⟩ l a b := HasEdge.not_nil
  rw [ofHistory, bears_foldl_addEdge_iff _ l a b ReadFrom.writer ReadFrom.reader
    (fun r => .keyed .writeRead r.key), bears_foldl_addEdge_iff _ l a b Prod.fst Prod.snd
    (fun _ => .session), or_iff_right hnone]

end Labels

section Tags

variable {g : Precedence κ} (hnodup : g.nodes.Nodup)

/-- Nothing but session order orders the pair at a level: the dependencies between the two have no other
    label, and no anti-dependency has part in it. -/
def PureSession (g : Precedence κ) (level : IsolationLevel) (a b : TransactionId) : Prop :=
  (∀ e ∈ g.dependencies, e.source = a → e.target = b → ∀ l ∈ e.labels, l.kind = .sessionOrder) ∧
    ¬ Brought level g.Depends g.Anti a b

theorem not_pureSession_iff :
    ¬ g.PureSession level a b ↔ (∃ e ∈ g.dependencies, e.source = a ∧ e.target = b ∧
      e.isTagged = true) ∨ Brought level g.Depends g.Anti a b := by
  rw [PureSession, not_and_or, not_not]
  refine or_congr_left ?_
  simp only [LabelledEdge.isTagged, List.any_eq_true, Label.isTagged, bne_iff_ne]
  push Not
  rfl

include hnodup

theorem tagged_dependencyGraph_iff (ha : g.nodes[i]? = some a) (hb : g.nodes[j]? = some b) :
    g.dependencyGraph.Tagged i j ↔
      ∃ e ∈ g.dependencies, e.source = a ∧ e.target = b ∧ e.isTagged = true := by
  rw [dependencyGraph, TaggedGraph.tagged_ofEdges_iff]
  simp only [mem_indexed_iff hnodup, ha, hb, Option.some.injEq]
  constructor
  · rintro ⟨_, e, he, rfl, rfl, htagged⟩
    exact ⟨e, he, rfl, rfl, htagged⟩
  · rintro ⟨e, he, rfl, rfl, htagged⟩
    exact ⟨(List.getElem?_eq_some_iff.mp ha).1, e, he, rfl, rfl, htagged⟩

theorem tagged_antiDependencyGraph (hedge : g.antiDependencyGraph.Edge i j) :
    g.antiDependencyGraph.Tagged i j := by
  rw [antiDependencyGraph, TaggedGraph.edge_ofEdges_iff] at hedge
  rcases hedge with ⟨hlt, tagged, hmem⟩
  rcases (mem_indexed_iff hnodup _ _ i j tagged).mp hmem with ⟨e, he, hi, hj, _⟩
  rw [antiDependencyGraph, TaggedGraph.tagged_ofEdges_iff]
  exact ⟨hlt, (mem_indexed_iff hnodup _ _ i j true).mpr ⟨e, he, hi, hj, rfl⟩⟩

/-- The tagged edges of the known graph are those that are not pure session order. -/
theorem tagged_knownGraph_iff (level : IsolationLevel) (strategy : Strategy) (ha : g.nodes[i]? = some a)
    (hb : g.nodes[j]? = some b) :
    (g.knownGraph level strategy).Tagged i j ↔ ¬ g.PureSession level a b := by
  rcases dependencyGraph_spec hnodup with ⟨hreg, hnames⟩
  rcases antiDependencyGraph_spec hnodup with ⟨hreg', hnames'⟩
  rw [knownGraph_eq_induced, TaggedGraph.tagged_induced_iff strategy hreg hreg' size_layerGraphs
    (fun _ _ => tagged_antiDependencyGraph hnodup), not_pureSession_iff,
    tagged_dependencyGraph_iff hnodup ha hb, hnames.brought_iff hnames' ha hb]

theorem exists_names_of_edge {strategy : Strategy} (hedge : (g.knownGraph level strategy).Edge i j) :
    ∃ a b, g.nodes[i]? = some a ∧ g.nodes[j]? = some b ∧ Computed level g.Depends g.Anti a b :=
  ((knownGraph_spec hnodup level strategy).2.edge_iff i j).mp hedge

end Tags

section Histories

variable [DecidableEq κ] [DecidableEq ν] {h : History κ ν} {g : Precedence κ}

/-- The graph of a history with edges of constraints, none of which is session order. -/
def Grown (h : History κ ν) (g : Precedence κ) : Prop :=
  ∃ added : List (SideEdge κ), (∀ e ∈ added, e.kind ≠ .sessionOrder) ∧ g = (ofHistory h).addSide added

/-- How far down its session a transaction stands, behind the init transaction. -/
def sessionRank (id : TransactionId) : Nat :=
  if id.isInit then 0 else id.height + 1

omit [DecidableEq κ] [DecidableEq ν] in
theorem sessionRank_lt (hstep : h.SessionStep a b) : sessionRank a < sessionRank b := by
  rcases hstep with ⟨⟨hclient, _⟩, ⟨_, rfl⟩ | ⟨height, hheight, rfl⟩⟩
  · unfold sessionRank
    rw [hclient, if_neg Bool.false_ne_true, if_pos (by decide)]
    omega
  · -- The one before is in the same session, so it is not the init transaction either.
    have hbefore : (⟨b.session, height⟩ : TransactionId).isInit = false := hclient
    unfold sessionRank
    rw [hclient, hbefore, if_neg Bool.false_ne_true, if_neg Bool.false_ne_true]
    simp only
    omega

omit [DecidableEq κ] in
theorem placement_eq {i : Nat} {a : TransactionId} (ha : g.nodes[i]? = some a) :
    g.placement i = (a.session, a.height) := by
  rw [placement, NodeGraph.placement, ha, Option.map_some, Option.getD_some]

/-- A graph over the transactions of a history, with session order among what is known. -/
structure KeepsSessions (h : History κ ν) (g : Precedence κ) : Prop where
  nodes_eq : g.nodes = h.transactions.map Transaction.id
  depends : ∀ a ∈ g.nodes, ∀ b ∈ g.nodes, h.SessionStep a b → g.Depends a b

theorem keepsSessions_ofHistory (hw : h.WellFormed) : KeepsSessions h (ofHistory h) where
  nodes_eq := nodes_ofHistory h
  depends a ha b hb hstep := by
    rw [(ofHistory_spec h a b).2.2.1, hw.mem_sessionPairs_iff]
    exact ⟨⟨ha, hb⟩, Or.inl hstep⟩

namespace KeepsSessions

omit [DecidableEq ν] in
theorem foldl_addEdge (hkeeps : KeepsSessions h g) {γ : Type} (source target : γ → TransactionId)
    (label : γ → Label κ) (xs : List γ) :
    KeepsSessions h (xs.foldl (fun g x => g.addEdge (source x) (target x) (label x)) g) := by
  have hspec := foldl_addEdge_spec g source target label xs
  have hnodes := (hspec .init .init).1
  refine ⟨hnodes.trans hkeeps.nodes_eq, fun a ha b hb hstep => ?_⟩
  rw [hnodes] at ha hb
  exact (hspec a b).2.2.1.mpr (Or.inl (hkeeps.depends a ha b hb hstep))

omit [DecidableEq ν] in
theorem addSide (hkeeps : KeepsSessions h g) (edges : List (SideEdge κ)) :
    KeepsSessions h (g.addSide edges) :=
  hkeeps.foldl_addEdge SideEdge.source SideEdge.target SideEdge.label edges

variable (hw : h.WellFormed) (hkeeps : KeepsSessions h g)

omit [DecidableEq κ] [DecidableEq ν]

include hw hkeeps

theorem nodup : g.nodes.Nodup := by
  rw [hkeeps.nodes_eq]
  exact hw.nodup_ids

theorem isClient_of_mem {id : TransactionId} (hid : id ∈ g.nodes) (hheight : 0 < id.height) :
    h.IsClient id := by
  rw [hkeeps.nodes_eq] at hid
  rcases List.mem_map.mp hid with ⟨t, ht, rfl⟩
  rcases hw.id_eq_init_or_isClient ht with hinit | hclient
  · rw [hinit] at hheight
    exact absurd hheight (Nat.lt_irrefl 0)
  · exact hclient

theorem mem_of_lt {session height top : Nat} (hmem : (⟨session, top⟩ : TransactionId) ∈ g.nodes)
    (hlt : height < top) : (⟨session, height⟩ : TransactionId) ∈ g.nodes := by
  have hclient := hkeeps.isClient_of_mem hw hmem (Nat.zero_lt_of_lt hlt)
  rcases (hclient.of_le (Nat.le_of_lt hlt)).2 with ⟨t, ht⟩
  rw [hkeeps.nodes_eq, hw.mem_ids_iff]
  exact ⟨t, ht⟩

theorem sessionStep_of_next (hb : b ∈ g.nodes) (hsession : b.session = a.session)
    (hheight : b.height = a.height + 1) : h.SessionStep a b := by
  refine ⟨hkeeps.isClient_of_mem hw hb (by omega), Or.inr ⟨a.height, hheight, ?_⟩⟩
  rw [hsession]

/-- The transactions of a history stand in sessions, and the known graph leads down each of them. -/
theorem inSessions_knownGraph (level : IsolationLevel) (strategy : Strategy) :
    (g.knownGraph level strategy).InSessions g.placement := by
  have hnodup := hkeeps.nodup hw
  have hname : ∀ {i}, i < (g.knownGraph level strategy).size → ∃ a, g.nodes[i]? = some a := by
    intro i hi
    rw [size_knownGraph] at hi
    exact ⟨_, List.getElem?_eq_getElem hi⟩
  refine ⟨?_, ?_, ?_⟩
  · -- An identifier is its place, and no identifier is listed twice.
    intro i hi j hj hplace
    rcases hname hi with ⟨a, ha⟩
    rcases hname hj with ⟨b, hb⟩
    rw [placement_eq ha, placement_eq hb, Prod.mk.injEq] at hplace
    have heq : a = b := by
      rcases a with ⟨session, height⟩
      simp only at hplace
      rw [hplace.1, hplace.2]
    rw [← index?_eq_some_iff hnodup] at ha hb
    rw [heq, hb, Option.some.injEq] at ha
    exact ha.symm
  · intro i hi height hlt
    rcases hname hi with ⟨⟨session, top⟩, ha⟩
    rw [placement_eq ha] at hlt ⊢
    have hmem := hkeeps.mem_of_lt hw (List.mem_of_getElem? ha) hlt
    rcases List.mem_iff_getElem?.mp hmem with ⟨j, hj⟩
    rw [size_knownGraph]
    exact ⟨j, (List.getElem?_eq_some_iff.mp hj).1, placement_eq hj⟩
  · intro i hi j hj hnext
    rcases hname hi with ⟨a, ha⟩
    rcases hname hj with ⟨b, hb⟩
    rw [TaggedGraph.isNext_iff, placement_eq ha, placement_eq hb] at hnext
    have hmem := List.mem_of_getElem? hb
    have hdepends := hkeeps.depends a (List.mem_of_getElem? ha) b hmem
      (hkeeps.sessionStep_of_next hw hmem hnext.1 hnext.2)
    exact ((knownGraph_spec hnodup level strategy).2.edge_between_iff ha hb).mpr
      ((computed_iff_depends_or_brought a b).mpr (Or.inl hdepends))

end KeepsSessions

namespace Grown

theorem addSide (hgrown : Grown h g) {edges : List (SideEdge κ)}
    (hedges : ∀ e ∈ edges, e.kind ≠ .sessionOrder) : Grown h (g.addSide edges) := by
  rcases hgrown with ⟨added, hadded, rfl⟩
  refine ⟨added ++ edges, fun e he => ?_, addSide_addSide _ added edges⟩
  exact (List.mem_append.mp he).elim (hadded e) (hedges e)

variable (hw : h.WellFormed) (hgrown : Grown h g)

include hw hgrown

/-- Session order is known whatever else is. -/
theorem keepsSessions : KeepsSessions h g := by
  rcases hgrown with ⟨added, _, rfl⟩
  exact (keepsSessions_ofHistory hw).addSide added

theorem nodup : g.nodes.Nodup :=
  (hgrown.keepsSessions hw).nodup hw

/-- The label of session order stands on session steps only. -/
theorem sessionStep_of_bears {l : Label κ} (hkind : l.kind = .sessionOrder) (hbears : g.Bears l a b) :
    h.SessionStep a b := by
  rcases hgrown with ⟨added, hadded, rfl⟩
  rw [bears_addSide_iff, bears_ofHistory_iff] at hbears
  rcases hbears with (⟨p, hp, ⟨rfl, rfl⟩, _⟩ | ⟨r, _, _, rfl⟩) | ⟨e, he, _, rfl⟩
  · exact (hw.mem_sessionPairs_iff p.1 p.2).mp hp
  · exact absurd hkind (by simp [Label.keyed])
  · exact absurd hkind (hadded e he)

/-- Where nothing but session order orders a pair, the two are neighbours in a session. -/
theorem sessionStep_of_pureSession (hknown : Computed level g.Depends g.Anti a b)
    (hpure : g.PureSession level a b) : h.SessionStep a b := by
  rcases (computed_iff_depends_or_brought a b).mp hknown with ⟨_, e, he, hsource, htarget, hdep⟩ | hc
  · have hlabels := hpure.1 e (List.mem_filter.mpr ⟨he, hdep⟩) hsource htarget
    -- A dependency has some label, and this one can only be session order.
    rw [LabelledEdge.isDependency, List.any_eq_true] at hdep
    rcases hdep with ⟨l, hl, _⟩
    exact hgrown.sessionStep_of_bears hw (hlabels l hl) ⟨e, he, hsource, htarget, hl⟩
  · exact absurd hc hpure.2

theorem acyclic_untagged (level : IsolationLevel) (strategy : Strategy) :
    Acyclic fun i j => (g.knownGraph level strategy).Edge i j ∧
      ¬ (g.knownGraph level strategy).Tagged i j := by
  have hnodup := hgrown.nodup hw
  refine Acyclic.of_rank (fun i => (g.nodes[i]?.map sessionRank).getD 0) ?_
  rintro i j ⟨hedge, huntagged⟩
  rcases exists_names_of_edge hnodup hedge with ⟨a, b, ha, hb, hknown⟩
  rw [tagged_knownGraph_iff hnodup level strategy ha hb, not_not] at huntagged
  simp only [ha, hb, Option.map_some, Option.getD_some]
  exact sessionRank_lt (hgrown.sessionStep_of_pureSession hw hknown huntagged)

theorem inSessions_knownGraph (level : IsolationLevel) (strategy : Strategy) :
    (g.knownGraph level strategy).InSessions g.placement :=
  (hgrown.keepsSessions hw).inSessions_knownGraph hw level strategy

end Grown

theorem pruneRound_eq_error_iff (cs : List (Constraint κ)) (options : AuditOptions)
    (cycle : KnownCycle) : g.pruneRound cs options = .error cycle ↔
      (g.roundClosure options).hasTaggedLoop = true ∧
        g.knownCycle (g.knownGraph options.level options.strategy) (g.roundClosure options) = cycle := by
  rw [pruneRound]
  simp only
  split
  · next hloop =>
      rw [Except.error.injEq]
      exact ⟨fun heq => ⟨hloop, heq⟩, fun hspec => hspec.2⟩
  · next hloop =>
      refine iff_of_false ?_ fun hspec => hloop hspec.1
      simp

/-- A round reports a cycle exactly if there is one. -/
theorem Grown.exists_error_iff (hw : h.WellFormed) (hgrown : Grown h g) (cs : List (Constraint κ))
    (options : AuditOptions) : (∃ cycle, g.pruneRound cs options = .error cycle) ↔
      ¬ Acyclic (g.knownGraph options.level options.strategy).Edge := by
  have hregular := (knownGraph_spec (hgrown.nodup hw) options.level options.strategy).1
  simp only [pruneRound_eq_error_iff, exists_and_left, exists_eq', and_true]
  exact TaggedGraph.hasTaggedLoop_thin_iff hregular
    (hgrown.inSessions_knownGraph hw options.level options.strategy)
    (hgrown.acyclic_untagged hw options.level options.strategy) options.strategy

/-- An edge of the known graph that says more than session order. -/
def SaysMore (g : Precedence κ) (options : AuditOptions) (i j : Nat) : Prop :=
  (g.knownGraph options.level options.strategy).Edge i j ∧ ∃ a b, g.nodes[i]? = some a ∧
    g.nodes[j]? = some b ∧ ¬ g.PureSession options.level a b

omit [DecidableEq κ] in
theorem saysMore_iff_tagged (hnodup : g.nodes.Nodup) (options : AuditOptions) (i j : Nat) :
    g.SaysMore options i j ↔ (g.knownGraph options.level options.strategy).Edge i j ∧
      (g.knownGraph options.level options.strategy).Tagged i j := by
  refine and_congr_right fun hedge => ⟨?_, ?_⟩
  · rintro ⟨a, b, ha, hb, hmore⟩
    exact (tagged_knownGraph_iff hnodup _ _ ha hb).mpr hmore
  · intro htagged
    rcases exists_names_of_edge hnodup hedge with ⟨a, b, ha, hb, _⟩
    exact ⟨a, b, ha, hb, (tagged_knownGraph_iff hnodup _ _ ha hb).mp htagged⟩

omit [DecidableEq κ] in
/-- If an edge is found, the cycle reported is that edge by the names of its ends. -/
theorem knownCycle_eq {known closed : TaggedGraph} (hfound : known.cycleEdge? closed = some (i, j))
    (ha : g.nodes[i]? = some a) (hb : g.nodes[j]? = some b) : g.knownCycle known closed = ⟨a, b⟩ := by
  simp only [knownCycle, hfound, ha, hb, Option.getD_some]

/-- A round of pruning reports a cycle exactly if the known graph of a history and of edges of constraints
    has one, of whatever sort. The edge reported is found in the known graph, a path leads back from its
    end, and the way around says more than session order, at that edge or behind it. -/
theorem pruneRound_cycle_exact (hbuilt : h.Built) (added : List (SideEdge κ))
    (hadded : ∀ e ∈ added, e.kind ≠ .sessionOrder) (cs : List (Constraint κ))
    (options : AuditOptions) :
    let g := (ofHistory h).addSide added
    let known := g.knownGraph options.level options.strategy
    ((∃ cycle, g.pruneRound cs options = .error cycle) ↔ ¬ Acyclic known.Edge) ∧
    ∀ cycle, g.pruneRound cs options = .error cycle → ∃ i j,
      known.cycleEdge? (g.roundClosure options) = some (i, j) ∧
      g.nodes[i]? = some cycle.source ∧ g.nodes[j]? = some cycle.target ∧
      known.Edge i j ∧ ReflTransGen known.Edge j i ∧
      (g.SaysMore options i j ∨
        ∃ x y, ReflTransGen known.Edge j x ∧ g.SaysMore options x y ∧ ReflTransGen known.Edge y i) := by
  intro g known
  have hw := hbuilt.wellFormed
  have hgrown : Grown h g := ⟨added, hadded, rfl⟩
  have hnodup := hgrown.nodup hw
  refine ⟨hgrown.exists_error_iff hw cs options, ?_⟩
  intro cycle hround
  rcases (pruneRound_eq_error_iff cs options cycle).mp hround with ⟨hloop, rfl⟩
  rcases TaggedGraph.exists_cycleEdge? (knownGraph_spec hnodup options.level options.strategy).1
    options.strategy hloop with ⟨i, j, hfound, hedge, hback⟩
  rcases exists_names_of_edge hnodup hedge with ⟨a, b, ha, hb, _⟩
  have hnames : g.knownCycle known (g.roundClosure options) = ⟨a, b⟩ := knownCycle_eq hfound ha hb
  rw [hnames]
  refine ⟨i, j, hfound, ha, hb, hedge, ?_⟩
  rcases hback with ⟨htagged, hback⟩ | ⟨x, y, hjx, ⟨hxy, htagged⟩, hyi⟩
  · exact ⟨hback, Or.inl ((saysMore_iff_tagged hnodup options i j).mpr ⟨hedge, htagged⟩)⟩
  · refine ⟨(hjx.tail hxy).trans hyi, Or.inr ⟨x, y, hjx, ?_, hyi⟩⟩
    exact (saysMore_iff_tagged hnodup options x y).mpr ⟨hxy, htagged⟩

end Histories

end Precedence

namespace History

/-- Two clients write a key, and then each of them reads what the other one wrote. -/
def crossedReads : History Nat Nat where
  init := ⟨.init, [], false⟩
  sessions := [
    ⟨1, [⟨⟨1, 0⟩, [⟨⟨1, 0⟩, .write, 0, 1⟩], true⟩, ⟨⟨1, 1⟩, [⟨⟨1, 1⟩, .read, 0, 2⟩], true⟩]⟩,
    ⟨2, [⟨⟨2, 0⟩, [⟨⟨2, 0⟩, .write, 0, 2⟩], true⟩, ⟨⟨2, 1⟩, [⟨⟨2, 1⟩, .read, 0, 1⟩], true⟩]⟩]

theorem built_crossedReads : crossedReads.Built :=
  Built.load (show load crossedReads.recording = .ok crossedReads from rfl)

end History

open History (crossedReads built_crossedReads)

/-- If the first client is to overwrite what it reads later, the known graph has a cycle. The edge reported
    is mere session order, and the way back says more. Without these edges there is no cycle. -/
theorem Precedence.pruneRound_cycle_exact_crossedReads :
    let added : List (SideEdge Nat) :=
      [⟨⟨2, 0⟩, ⟨1, 0⟩, .writeWrite, 0⟩, ⟨⟨1, 1⟩, ⟨1, 0⟩, .readWrite, 0⟩]
    let g := (ofHistory crossedReads).addSide added
    let options : AuditOptions := { level := .serializable, strategy := .sparse }
    let known := g.knownGraph options.level options.strategy
    (crossedReads.Built ∧ ∀ e ∈ added, e.kind ≠ .sessionOrder) ∧
    (g.pruneRound [] options = .error ⟨⟨1, 0⟩, ⟨1, 1⟩⟩ ∧ ¬ g.SaysMore options 1 2 ∧
      ∃ x y, ReflTransGen known.Edge 2 x ∧ g.SaysMore options x y ∧ ReflTransGen known.Edge y 1) ∧
    Acyclic ((ofHistory crossedReads).knownGraph options.level options.strategy).Edge := by
  intro added g options known
  have hadded : ∀ e ∈ added, e.kind ≠ .sessionOrder := by decide
  have hnone : ∀ e ∈ ([] : List (SideEdge Nat)), e.kind ≠ .sessionOrder := by decide
  have hround : g.pruneRound [] options = .error ⟨⟨1, 0⟩, ⟨1, 1⟩⟩ :=
    (pruneRound_eq_error_iff [] options _).mpr (by decide +kernel)
  have hpure : ¬ g.SaysMore options 1 2 := by
    rw [saysMore_iff_tagged (by decide +kernel)]
    decide +kernel
  refine ⟨⟨built_crossedReads, hadded⟩, ⟨hround, hpure, ?_⟩, ?_⟩
  · rcases (pruneRound_cycle_exact built_crossedReads added hadded [] options).2 _ hround with
      ⟨i, j, hfound, _, _, _, _, hmore⟩
    have hedge : known.cycleEdge? (g.roundClosure options) = some (1, 2) := by decide +kernel
    rw [hedge, Option.some.injEq, Prod.mk.injEq] at hfound
    rcases hfound with ⟨rfl, rfl⟩
    exact hmore.resolve_left hpure
  · by_contra hcyclic
    rcases (pruneRound_cycle_exact built_crossedReads [] hnone [] options).1.mpr hcyclic with
      ⟨cycle, hcycle⟩
    exact absurd ((pruneRound_eq_error_iff [] options cycle).mp hcycle).1 (by decide +kernel)

end Isolation
