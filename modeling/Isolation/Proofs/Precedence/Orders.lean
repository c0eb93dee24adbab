import Isolation.Proofs.Graph.Acyclic
import Isolation.Precedence.Pruning

/-!
# What a Precedence Graph Says

The edges of a precedence graph are kept as a sorted list, with labels, and the known graph is computed
from their numbers. What matters of all this are two relations between transactions: one *depends* on the
other, and they are *linked* in some way. Adding an edge adds a pair to one or both of them, and nothing
else. In particular the relations only grow, whereas an anti-dependency can disappear from the list of
anti-dependencies when its pair becomes a dependency; this is why links and not anti-dependencies are
used.

The order that follows at a level is `Induced` by the two relations. It is not quite the known graph, in
which a dependency is not followed by a dependency, but it has the same cycles.

## Main definitions

* `Precedence.Ordering`: The order that follows from a graph at a level.

## Theorems

* `acyclic_knownGraph_iff`: The known graph has the cycles of the order.
-/

namespace Isolation

open Relation

/-- The order that dependencies and links amount to at a level. Links order transactions only for
    serializability; for snapshot isolation, a dependency followed by a link does. -/
def Induced {α : Type} (level : IsolationLevel) (depends linked : α → α → Prop) (a b : α) : Prop :=
  match level with
  | .serializable => linked a b
  | .snapshotIsolation => depends a b ∨ ∃ m, depends a m ∧ linked m b

theorem Induced.mono {α : Type} {level : IsolationLevel} {D D' K K' : α → α → Prop}
    (hD : ∀ a b, D a b → D' a b) (hK : ∀ a b, K a b → K' a b) {a b : α}
    (hab : Induced level D K a b) : Induced level D' K' a b := by
  cases level with
  | serializable => exact hK a b hab
  | snapshotIsolation =>
    rcases hab with hab | ⟨m, ham, hmb⟩
    · exact Or.inl (hD a b hab)
    · exact Or.inr ⟨m, hD a m ham, hK m b hmb⟩

theorem compare_id_eq_iff (a b : TransactionId) : compare a b = .eq ↔ a = b := by
  rcases a with ⟨session, height⟩
  rcases b with ⟨session', height'⟩
  have hcompare : compare (⟨session, height⟩ : TransactionId) ⟨session', height'⟩ =
      compareLex (compareOn TransactionId.session) (compareOn TransactionId.height)
        ⟨session, height⟩ ⟨session', height'⟩ := rfl
  rw [hcompare, compareLex_eq_eq, compareOn, compareOn, Nat.compare_eq_eq, Nat.compare_eq_eq,
    TransactionId.mk.injEq]

section Graphs

/-- What is computed at a level from the graphs of dependencies and of anti-dependencies. -/
def TaggedGraph.induced (level : IsolationLevel) (strategy : Strategy) (f g : TaggedGraph) :
    TaggedGraph :=
  match level with
  | .snapshotIsolation => f.union (f.compose strategy g)
  | .serializable => f.union g

/-- The pairs that are computed at a level: here nothing follows a dependency but anti-dependencies. -/
def Computed {α : Type} (level : IsolationLevel) (depends anti : α → α → Prop) (a b : α) : Prop :=
  match level with
  | .serializable => depends a b ∨ anti a b
  | .snapshotIsolation => depends a b ∨ ∃ m, depends a m ∧ anti m b

variable {α : Type} {level : IsolationLevel}

theorem Computed.mono {D D' B B' : α → α → Prop} (hD : ∀ a b, D a b → D' a b)
    (hB : ∀ a b, B a b → B' a b) {a b : α} (hab : Computed level D B a b) :
    Computed level D' B' a b := by
  cases level with
  | serializable => exact hab.imp (hD a b) (hB a b)
  | snapshotIsolation => exact hab.imp (hD a b) fun ⟨m, ham, hmb⟩ => ⟨m, hD a m ham, hB m b hmb⟩

/-- The order goes nowhere where what is computed does not lead: a dependency behind a dependency is a
    shortcut. -/
theorem Induced.path_computed {D B K : α → α → Prop} (hK : ∀ a b, K a b ↔ D a b ∨ B a b) {a b : α}
    (hab : Induced level D K a b) : TransGen (Computed level D B) a b := by
  cases level with
  | serializable => exact TransGen.single ((hK a b).mp hab)
  | snapshotIsolation =>
    rcases hab with hab | ⟨m, ham, hmb⟩
    · exact TransGen.single (Or.inl hab)
    · rcases (hK m b).mp hmb with hmb | hmb
      · exact TransGen.head (Or.inl ham) (TransGen.single (Or.inl hmb))
      · exact TransGen.single (Or.inr ⟨m, ham, hmb⟩)

theorem Computed.induced {D B K : α → α → Prop} (hK : ∀ a b, K a b ↔ D a b ∨ B a b) {a b : α}
    (hab : Computed level D B a b) : Induced level D K a b := by
  cases level with
  | serializable => exact (hK a b).mpr hab
  | snapshotIsolation =>
    exact hab.imp_right fun ⟨m, ham, hmb⟩ => ⟨m, ham, (hK m b).mpr (Or.inr hmb)⟩

theorem acyclic_computed_iff {D B K : α → α → Prop} (hK : ∀ a b, K a b ↔ D a b ∨ B a b) :
    Acyclic (Computed level D B) ↔ Acyclic (Induced level D K) :=
  ⟨fun hacyclic => hacyclic.of_paths fun _ _ => Induced.path_computed hK,
    fun hacyclic => hacyclic.mono fun _ _ => Computed.induced hK⟩

variable {f g : TaggedGraph} {names : List α} {D B : α → α → Prop}

theorem TaggedGraph.size_induced (strategy : Strategy) (hsize : f.size = g.size) :
    (f.induced level strategy g).size = f.size := by
  cases level with
  | serializable => exact size_union hsize
  | snapshotIsolation => exact size_union (size_compose strategy).symm

theorem TaggedGraph.Regular.induced (strategy : Strategy) (hf : f.Regular) (hg : g.Regular)
    (hsize : f.size = g.size) : (TaggedGraph.induced level strategy f g).Regular := by
  cases level with
  | serializable => exact hf.union hg hsize
  | snapshotIsolation => exact hf.union (hf.compose strategy hg hsize) (size_compose strategy).symm

theorem Computed.mem (hD : ∀ {a b}, D a b → a ∈ names ∧ b ∈ names)
    (hB : ∀ {a b}, B a b → a ∈ names ∧ b ∈ names) {a b : α} (hab : Computed level D B a b) :
    a ∈ names ∧ b ∈ names := by
  cases level with
  | serializable => exact hab.elim hD hB
  | snapshotIsolation =>
    rcases hab with hab | ⟨m, ham, hmb⟩
    · exact hD hab
    · exact ⟨(hD ham).1, (hB hmb).2⟩

/-- What is computed from the places of names stands for what is computed from the names. -/
theorem Computed.names_iff {P Q : Nat → Nat → Prop} {R S : α → α → Prop}
    (hP : ∀ i j, P i j ↔ ∃ a b, names[i]? = some a ∧ names[j]? = some b ∧ R a b)
    (hQ : ∀ i j, Q i j ↔ ∃ a b, names[i]? = some a ∧ names[j]? = some b ∧ S a b)
    (hmem : ∀ {a b}, R a b → b ∈ names) (i j : Nat) : Computed level P Q i j ↔
      ∃ a b, names[i]? = some a ∧ names[j]? = some b ∧ Computed level R S a b := by
  cases level with
  | serializable =>
    simp only [Computed, hP, hQ]
    constructor
    · rintro (⟨a, b, hi, hj, hab⟩ | ⟨a, b, hi, hj, hab⟩)
      · exact ⟨a, b, hi, hj, Or.inl hab⟩
      · exact ⟨a, b, hi, hj, Or.inr hab⟩
    · rintro ⟨a, b, hi, hj, hab | hab⟩
      · exact Or.inl ⟨a, b, hi, hj, hab⟩
      · exact Or.inr ⟨a, b, hi, hj, hab⟩
  | snapshotIsolation =>
    simp only [Computed, hP, hQ]
    constructor
    · rintro (⟨a, b, hi, hj, hab⟩ | ⟨k, ⟨a, m, hi, hk, ham⟩, m', b, hk', hj, hmb⟩)
      · exact ⟨a, b, hi, hj, Or.inl hab⟩
      · rw [hk, Option.some.injEq] at hk'
        exact ⟨a, b, hi, hj, Or.inr ⟨m, ham, hk' ▸ hmb⟩⟩
    · rintro ⟨a, b, hi, hj, hab | ⟨m, ham, hmb⟩⟩
      · exact Or.inl ⟨a, b, hi, hj, hab⟩
      · -- The middle has a place too.
        rcases List.mem_iff_getElem?.mp (hmem ham) with ⟨k, hk⟩
        exact Or.inr ⟨k, ⟨a, m, hi, hk, ham⟩, m, b, hk, hj, hmb⟩

theorem TaggedGraph.edge_induced_iff (strategy : Strategy) (hf : f.Regular) (hg : g.Regular)
    (hsize : f.size = g.size) (i j : Nat) :
    (f.induced level strategy g).Edge i j ↔ Computed level f.Edge g.Edge i j := by
  cases level with
  | serializable => exact edge_union_iff hsize i j
  | snapshotIsolation =>
    rw [TaggedGraph.induced, edge_union_iff (size_compose strategy).symm, edge_compose_iff strategy hf hg]
    rfl

/-- What is computed from named graphs stands for what is computed from the relations. -/
theorem TaggedGraph.Names.induced (strategy : Strategy) (hf : f.Regular) (hg : g.Regular)
    (hsize : f.size = g.size) (hD : f.Names names D) (hB : g.Names names B) :
    (TaggedGraph.induced level strategy f g).Names names (Computed level D B) := by
  refine ⟨hD.nodup, fun i j => ?_, ?_⟩
  · rw [edge_induced_iff strategy hf hg hsize]
    exact Computed.names_iff hD.edge_iff hB.edge_iff (fun hab => (hD.mem hab).2) i j
  · exact fun hab => hab.mem hD.mem hB.mem

end Graphs

namespace Precedence

variable {κ : Type} {level : IsolationLevel} {a b : TransactionId}

/-- Some edge of the list has these ends and is of this sort. -/
def HasEdge (edges : List (LabelledEdge κ)) (sort : LabelledEdge κ → Prop) (a b : TransactionId) :
    Prop :=
  ∃ e ∈ edges, e.source = a ∧ e.target = b ∧ sort e

/-- One transaction commits before the other starts. -/
def Depends (g : Precedence κ) (a b : TransactionId) : Prop :=
  (a ∈ g.nodes ∧ b ∈ g.nodes) ∧ HasEdge g.edges (fun e => e.isDependency = true) a b

/-- One transaction precedes the other, or merely starts before the other commits. -/
def Linked (g : Precedence κ) (a b : TransactionId) : Prop :=
  (a ∈ g.nodes ∧ b ∈ g.nodes) ∧ HasEdge g.edges (fun _ => True) a b

/-- The order that follows from a graph at a level. -/
def Ordering (g : Precedence κ) (level : IsolationLevel) : TransactionId → TransactionId → Prop :=
  Induced level g.Depends g.Linked

theorem Depends.linked {g : Precedence κ} (hab : g.Depends a b) : g.Linked a b := by
  rcases hab with ⟨hnodes, e, he, hsource, htarget, _⟩
  exact ⟨hnodes, e, he, hsource, htarget, trivial⟩

section AddEdge

variable [DecidableEq κ]

/-- A label makes an edge a dependency unless it is an anti-dependency. -/
theorem isDependency_addLabel (label : Label κ) (e : LabelledEdge κ) :
    (e.addLabel label).isDependency = true ↔ e.isDependency = true ∨ label.isAnti = false := by
  unfold LabelledEdge.addLabel
  split
  · next hmem =>
      refine ⟨Or.inl, fun hc => hc.elim id fun hanti => ?_⟩
      rw [LabelledEdge.isDependency, List.any_eq_true]
      refine ⟨label, ?_, by rw [hanti]; rfl⟩
      rw [List.contains_iff_mem] at hmem
      exact hmem
  · simp only [LabelledEdge.isDependency, List.any_append, List.any_cons, List.any_nil, Bool.or_false,
      Bool.or_eq_true, Bool.not_eq_true']

theorem source_addLabel (label : Label κ) (e : LabelledEdge κ) :
    (e.addLabel label).source = e.source ∧ (e.addLabel label).target = e.target := by
  unfold LabelledEdge.addLabel
  split
  · exact ⟨rfl, rfl⟩
  · exact ⟨rfl, rfl⟩

/-- What one more label does to the edges of a sort, if the sort knows what labels do to it. -/
theorem hasEdge_insertLabel_iff (sort : LabelledEdge κ → Prop) (label : Label κ) (fresh : Prop)
    (hadd : ∀ e, sort (e.addLabel label) ↔ sort e ∨ fresh)
    (hnew : ∀ s t, sort ⟨s, t, [label]⟩ ↔ fresh)
    (source target : TransactionId) (edges : List (LabelledEdge κ)) (a b : TransactionId) :
    HasEdge (insertLabel source target label edges) sort a b ↔
      HasEdge edges sort a b ∨ (a = source ∧ b = target) ∧ fresh := by
  induction edges with
  | nil =>
    simp only [insertLabel, HasEdge, List.mem_singleton, exists_eq_left, hnew, List.not_mem_nil,
      false_and, exists_false, false_or, and_assoc]
    rw [eq_comm, eq_comm (a := target)]
  | cons e rest ih =>
    have hcons : ∀ (x : LabelledEdge κ) (l : List (LabelledEdge κ)), HasEdge (x :: l) sort a b ↔
        (x.source = a ∧ x.target = b ∧ sort x) ∨ HasEdge l sort a b := by
      intro x l
      simp only [HasEdge, List.exists_mem_cons_iff]
    rw [insertLabel]
    cases hcompare : e.comparePair source target with
    | lt =>
      rw [hcons, hnew, or_comm, and_assoc]
      simp only [eq_comm]
    | eq =>
      rw [LabelledEdge.comparePair, Ordering.then_eq_eq, compare_id_eq_iff, compare_id_eq_iff]
        at hcompare
      rcases source_addLabel label e with ⟨hsource, htarget⟩
      rw [hcons, hcons, hadd, hsource, htarget, ← hcompare.1, ← hcompare.2]
      constructor
      · rintro (⟨rfl, rfl, hsort | hfresh⟩ | hrest)
        · exact Or.inl (Or.inl ⟨rfl, rfl, hsort⟩)
        · exact Or.inr ⟨⟨rfl, rfl⟩, hfresh⟩
        · exact Or.inl (Or.inr hrest)
      · rintro ((⟨rfl, rfl, hsort⟩ | hrest) | ⟨⟨rfl, rfl⟩, hfresh⟩)
        · exact Or.inl ⟨rfl, rfl, Or.inl hsort⟩
        · exact Or.inr hrest
        · exact Or.inl ⟨rfl, rfl, Or.inr hfresh⟩
    | gt =>
      simp only [hcons, ih, or_assoc]

theorem hasEdge_dependency_insertLabel_iff (source target : TransactionId) (label : Label κ)
    (edges : List (LabelledEdge κ)) (a b : TransactionId) :
    HasEdge (insertLabel source target label edges) (fun e => e.isDependency = true) a b ↔
      HasEdge edges (fun e => e.isDependency = true) a b ∨
        (a = source ∧ b = target) ∧ label.isAnti = false := by
  refine hasEdge_insertLabel_iff _ label _ (isDependency_addLabel label) ?_ source target edges a b
  intro s t
  simp only [LabelledEdge.isDependency, List.any_cons, List.any_nil, Bool.or_false,
    Bool.not_eq_true']

theorem hasEdge_insertLabel_any_iff (source target : TransactionId) (label : Label κ)
    (edges : List (LabelledEdge κ)) (a b : TransactionId) :
    HasEdge (insertLabel source target label edges) (fun _ => True) a b ↔
      HasEdge edges (fun _ => True) a b ∨ (a = source ∧ b = target) ∧ True :=
  hasEdge_insertLabel_iff _ label True (fun _ => (true_or _).symm.to_iff) (fun _ _ => Iff.rfl) source
    target edges a b

variable (g : Precedence κ)

theorem depends_addEdge_iff (source target : TransactionId) (label : Label κ) (a b : TransactionId) :
    (g.addEdge source target label).Depends a b ↔
      g.Depends a b ∨ (a ∈ g.nodes ∧ b ∈ g.nodes) ∧ (a = source ∧ b = target) ∧
        label.isAnti = false := by
  rw [Depends, Depends, addEdge, hasEdge_dependency_insertLabel_iff, ← and_or_left]

theorem linked_addEdge_iff (source target : TransactionId) (label : Label κ) (a b : TransactionId) :
    (g.addEdge source target label).Linked a b ↔
      g.Linked a b ∨ (a ∈ g.nodes ∧ b ∈ g.nodes) ∧ a = source ∧ b = target := by
  rw [Linked, Linked, addEdge, hasEdge_insertLabel_any_iff, and_true, ← and_or_left]

theorem foldl_addEdge_spec {γ : Type} (source target : γ → TransactionId) (label : γ → Label κ)
    (l : List γ) (a b : TransactionId) :
    let built := l.foldl (fun g x => g.addEdge (source x) (target x) (label x)) g
    built.nodes = g.nodes ∧ built.reads = g.reads ∧
    (built.Depends a b ↔ g.Depends a b ∨ (a ∈ g.nodes ∧ b ∈ g.nodes) ∧
      ∃ x ∈ l, (a = source x ∧ b = target x) ∧ (label x).isAnti = false) ∧
    (built.Linked a b ↔ g.Linked a b ∨ (a ∈ g.nodes ∧ b ∈ g.nodes) ∧
      ∃ x ∈ l, a = source x ∧ b = target x) := by
  induction l generalizing g with
  | nil =>
    simp only [List.foldl_nil, List.not_mem_nil, false_and, exists_false, and_false, or_false,
      and_self]
  | cons x rest ih =>
    rcases ih (g.addEdge (source x) (target x) (label x)) with ⟨hnodes, hreads, hdepends, hlinked⟩
    rw [depends_addEdge_iff] at hdepends
    rw [linked_addEdge_iff] at hlinked
    refine ⟨hnodes, hreads, hdepends.trans ?_, hlinked.trans ?_⟩
    · rw [List.exists_mem_cons_iff, and_or_left, or_assoc]
      rfl
    · rw [List.exists_mem_cons_iff, and_or_left, or_assoc]
      rfl

section AddSide

variable (edges : List (SideEdge κ))

omit [DecidableEq κ] in
theorem isAnti_label (e : SideEdge κ) : e.label.isAnti = false ↔ e.kind ≠ .readWrite := by
  rw [SideEdge.label, Label.keyed, Label.isAnti, beq_eq_false_iff_ne]

theorem nodes_addSide : (g.addSide edges).nodes = g.nodes :=
  (foldl_addEdge_spec g SideEdge.source SideEdge.target SideEdge.label edges .init .init).1

theorem depends_addSide_iff (a b : TransactionId) :
    (g.addSide edges).Depends a b ↔ g.Depends a b ∨ (a ∈ g.nodes ∧ b ∈ g.nodes) ∧
      ∃ e ∈ edges, (a = e.source ∧ b = e.target) ∧ e.kind ≠ .readWrite := by
  have hspec := (foldl_addEdge_spec g SideEdge.source SideEdge.target SideEdge.label edges a b).2.2.1
  simp only [isAnti_label] at hspec
  exact hspec

theorem linked_addSide_iff (a b : TransactionId) :
    (g.addSide edges).Linked a b ↔ g.Linked a b ∨ (a ∈ g.nodes ∧ b ∈ g.nodes) ∧
      ∃ e ∈ edges, a = e.source ∧ b = e.target :=
  (foldl_addEdge_spec g SideEdge.source SideEdge.target SideEdge.label edges a b).2.2.2

theorem addSide_addSide (more : List (SideEdge κ)) :
    (g.addSide edges).addSide more = g.addSide (edges ++ more) := by
  rw [addSide, addSide, addSide, List.foldl_append]

variable {edges}

theorem ordering_addSide_mono {more : List (SideEdge κ)} (hsub : ∀ e ∈ edges, e ∈ more)
    (hab : (g.addSide edges).Ordering level a b) : (g.addSide more).Ordering level a b := by
  refine Induced.mono ?_ ?_ hab
  · intro a b hab
    rw [depends_addSide_iff] at hab ⊢
    exact hab.imp_right fun ⟨hnodes, e, he, hends⟩ => ⟨hnodes, e, hsub e he, hends⟩
  · intro a b hab
    rw [linked_addSide_iff] at hab ⊢
    exact hab.imp_right fun ⟨hnodes, e, he, hends⟩ => ⟨hnodes, e, hsub e he, hends⟩

theorem ordering_addSide (more : List (SideEdge κ)) (hab : g.Ordering level a b) :
    (g.addSide more).Ordering level a b := by
  have hnone : ∀ e ∈ ([] : List (SideEdge κ)), e ∈ more := fun e he => absurd he List.not_mem_nil
  exact ordering_addSide_mono g hnone hab

theorem ordering_addSide_congr {more : List (SideEdge κ)} (hsame : ∀ e, e ∈ edges ↔ e ∈ more)
    (level : IsolationLevel) :
    (g.addSide edges).Ordering level = (g.addSide more).Ordering level := by
  funext a b
  exact propext ⟨ordering_addSide_mono g fun e => (hsame e).mp,
    ordering_addSide_mono g fun e => (hsame e).mpr⟩

end AddSide

end AddEdge

section KnownGraph

variable {g : Precedence κ} (hnodup : g.nodes.Nodup)

/-- The link is no dependency, as far as its edge is concerned. -/
def Anti (g : Precedence κ) (a b : TransactionId) : Prop :=
  (a ∈ g.nodes ∧ b ∈ g.nodes) ∧ HasEdge g.edges (fun e => ¬ e.isDependency = true) a b

theorem linked_iff_depends_or_anti (a b : TransactionId) :
    g.Linked a b ↔ g.Depends a b ∨ g.Anti a b := by
  rw [Depends, Anti, ← and_or_left, Linked]
  refine and_congr_right fun _ => ⟨?_, ?_⟩
  · rintro ⟨e, he, hsource, htarget, _⟩
    by_cases hc : e.isDependency = true
    · exact Or.inl ⟨e, he, hsource, htarget, hc⟩
    · exact Or.inr ⟨e, he, hsource, htarget, hc⟩
  · rintro (⟨e, he, hsource, htarget, _⟩ | ⟨e, he, hsource, htarget, _⟩)
    · exact ⟨e, he, hsource, htarget, trivial⟩
    · exact ⟨e, he, hsource, htarget, trivial⟩

include hnodup

theorem index?_eq_some_iff (id : TransactionId) (i : Nat) :
    g.index? id = some i ↔ g.nodes[i]? = some id := by
  rw [index?, List.idxOf?_eq_some_iff]
  constructor
  · rintro ⟨hlt, heq, _⟩
    rw [List.getElem?_eq_getElem hlt, heq]
  · intro hi
    rcases List.getElem?_eq_some_iff.mp hi with ⟨hlt, heq⟩
    refine ⟨hlt, heq, fun j hj hc => ?_⟩
    have := (List.getElem_inj hnodup).mp (hc.trans heq.symm)
    omega

theorem mem_indexed_iff (tag : LabelledEdge κ → Bool) (edges : List (LabelledEdge κ)) (i j : Nat)
    (tagged : Bool) : (i, j, tagged) ∈ g.indexed tag edges ↔
      ∃ e ∈ edges, g.nodes[i]? = some e.source ∧ g.nodes[j]? = some e.target ∧ tag e = tagged := by
  simp only [indexed, List.mem_filterMap, Option.bind_eq_some_iff, Option.map_eq_some_iff,
    Prod.mk.injEq, index?_eq_some_iff hnodup]
  constructor
  · rintro ⟨e, he, i', hi, j', hj, rfl, rfl, rfl⟩
    exact ⟨e, he, hi, hj, rfl⟩
  · rintro ⟨e, he, hi, hj, rfl⟩
    exact ⟨e, he, i, hi, j, hj, rfl, rfl, rfl⟩

theorem names_ofEdges_indexed (tag : LabelledEdge κ → Bool) (sort : LabelledEdge κ → Bool) :
    let graph := TaggedGraph.ofEdges g.nodes.length (g.indexed tag (g.edges.filter sort))
    graph.Regular ∧ graph.Names g.nodes fun a b =>
      (a ∈ g.nodes ∧ b ∈ g.nodes) ∧ HasEdge g.edges (fun e => sort e = true) a b := by
  refine ⟨TaggedGraph.Regular.ofEdges ?_, hnodup, ?_, fun hab => hab.1⟩
  · intro i j tagged hmem
    rcases (mem_indexed_iff hnodup tag _ i j tagged).mp hmem with ⟨e, _, _, hj, _⟩
    exact (List.getElem?_eq_some_iff.mp hj).1
  · intro i j
    rw [TaggedGraph.edge_ofEdges_iff]
    simp only [mem_indexed_iff hnodup, List.mem_filter, HasEdge]
    constructor
    · rintro ⟨_, _, e, ⟨he, hsort⟩, hi, hj, _⟩
      exact ⟨e.source, e.target, hi, hj, ⟨List.mem_of_getElem? hi, List.mem_of_getElem? hj⟩, e, he,
        rfl, rfl, hsort⟩
    · rintro ⟨a, b, ha, hb, _, e, he, rfl, rfl, hsort⟩
      exact ⟨(List.getElem?_eq_some_iff.mp ha).1, _, e, ⟨he, hsort⟩, ha, hb, rfl⟩

theorem dependencyGraph_spec : g.dependencyGraph.Regular ∧
    g.dependencyGraph.Names g.nodes g.Depends :=
  names_ofEdges_indexed hnodup LabelledEdge.isTagged LabelledEdge.isDependency

theorem antiDependencyGraph_spec : g.antiDependencyGraph.Regular ∧
    g.antiDependencyGraph.Names g.nodes g.Anti := by
  have hspec := names_ofEdges_indexed hnodup (fun _ => true) fun e => !e.isDependency
  simp only [Bool.not_eq_true', ← Bool.not_eq_true] at hspec
  exact hspec

omit hnodup in
theorem size_dependencyGraph : g.dependencyGraph.size = g.nodes.length :=
  TaggedGraph.size_ofEdges _ _

omit hnodup in
theorem size_layerGraphs : g.dependencyGraph.size = g.antiDependencyGraph.size :=
  size_dependencyGraph.trans (TaggedGraph.size_ofEdges _ _).symm

omit hnodup in
theorem knownGraph_eq_induced (level : IsolationLevel) (strategy : Strategy) :
    g.knownGraph level strategy =
      g.dependencyGraph.induced level strategy g.antiDependencyGraph := by
  cases level with
  | serializable => rfl
  | snapshotIsolation => rfl

omit hnodup in
theorem size_knownGraph (level : IsolationLevel) (strategy : Strategy) :
    (g.knownGraph level strategy).size = g.nodes.length := by
  rw [knownGraph_eq_induced, TaggedGraph.size_induced strategy size_layerGraphs,
    size_dependencyGraph]

theorem knownGraph_spec (level : IsolationLevel) (strategy : Strategy) :
    (g.knownGraph level strategy).Regular ∧
      (g.knownGraph level strategy).Names g.nodes (Computed level g.Depends g.Anti) := by
  rcases dependencyGraph_spec hnodup with ⟨hreg, hnames⟩
  rcases antiDependencyGraph_spec hnodup with ⟨hreg', hnames'⟩
  rw [knownGraph_eq_induced]
  exact ⟨hreg.induced strategy hreg' size_layerGraphs,
    hnames.induced strategy hreg hreg' size_layerGraphs hnames'⟩

/-- The known graph has the cycles of the order. -/
theorem acyclic_knownGraph_iff (level : IsolationLevel) (strategy : Strategy) :
    Acyclic (g.knownGraph level strategy).Edge ↔ Acyclic (g.Ordering level) := by
  rw [(knownGraph_spec hnodup level strategy).2.acyclic_iff]
  exact acyclic_computed_iff linked_iff_depends_or_anti

theorem ordering_path_of_knownGraph {strategy : Strategy} {i j : Nat}
    (hpath : ReflTransGen (g.knownGraph level strategy).Edge i j) (ha : g.nodes[i]? = some a)
    (hb : g.nodes[j]? = some b) : ReflTransGen (g.Ordering level) a b := by
  have hnames := (knownGraph_spec hnodup level strategy).2
  rcases reflTransGen_iff_eq_or_transGen.mp hpath with heq | hpath
  · rw [heq, ha, Option.some.injEq] at hb
    rw [hb]
  · rcases (hnames.path_iff i j).mp hpath with ⟨a', b', ha', hb', hab⟩
    rw [ha, Option.some.injEq] at ha'
    rw [hb, Option.some.injEq] at hb'
    rw [ha', hb']
    exact TransGen.to_reflTransGen
      (TransGen.mono (fun x y => Computed.induced linked_iff_depends_or_anti) a' b' hab)

end KnownGraph

end Precedence

end Isolation
