import Isolation.Arbitration.Solve
import Isolation.Proofs.Arbitration.Refine
import Isolation.Proofs.Graph.Sorting
import Isolation.Proofs.Precedence.Schedules
import Isolation.Proofs.Witness.Split

/-!
# Orders Become Witnesses

A list of all transactions in which every edge of the final graph goes forward gives every transaction a
place. For serializability the places themselves are the moments of a schedule. For snapshot isolation
they are the moments of the commits, and a transaction starts right behind the last transaction that it
depends on. Links are respected because the final graph holds every dependency followed by a link: if a
transaction is linked to another one, whatever it depends on is placed before that one as well.

Nothing is used about the list but that edges go forward, and nothing about the valuation but that
everything counts.

## Main definitions

* `Arbitration.place`, `Arbitration.lastPlace`: The places of a transaction and of its last dependency.

## Theorems

* `witnessAlong_explains`: The witness along an order explains the history.
-/

namespace Isolation

open Isolation.Sat

namespace Arbitration

section Listing

variable {dependencies : TaggedGraph} {clients : List Nat} {rank : Nat → Nat} {first : Nat}

/-- The place behind which a transaction starts: that of the last one it depends on. -/
def waitingPlace (dependencies : TaggedGraph) (clients : List Nat) (rank : Nat → Nat) (first i : Nat) :
    Nat :=
  (latest? dependencies clients i).elim first rank

/-- Where a start or a commit belongs: a start stands behind the commit it waits for. -/
def phasePlace (dependencies : TaggedGraph) (clients : List Nat) (rank : Nat → Nat) (first : Nat) :
    Nat × Phase → Nat
  | (i, .start) => 4 * waitingPlace dependencies clients rank first i + 2
  | (i, .commit) => 4 * rank i + 1

/-- A transaction waits for the last client that it depends on, or for the first place of all if there is no
    such client. -/
theorem waitingPlace_cases (dependencies : TaggedGraph)
    (hsorted : clients.Pairwise fun i j => rank i < rank j) (first i : Nat) :
    (∃ j ∈ clients, dependencies.Edge j i ∧ (∀ k ∈ clients, dependencies.Edge k i → rank k ≤ rank j) ∧
      waitingPlace dependencies clients rank first i = rank j) ∨
    (∀ k ∈ clients, ¬ dependencies.Edge k i) ∧
      waitingPlace dependencies clients rank first i = first := by
  unfold waitingPlace
  cases hlast : latest? dependencies clients i with
  | none =>
    rw [latest?, List.getLast?_eq_none_iff, List.filter_eq_nil_iff] at hlast
    exact Or.inr ⟨hlast, rfl⟩
  | some j =>
    rcases List.getLast?_eq_some_iff.mp hlast with ⟨before, hfilter⟩
    have hj : j ∈ clients.filter fun k => dependencies.hasEdge k i := by
      rw [hfilter]
      exact List.mem_append_right _ (List.mem_singleton_self j)
    refine Or.inl ⟨j, (List.mem_filter.mp hj).1, (List.mem_filter.mp hj).2, fun k hk hedge => ?_, rfl⟩
    have hk' : k ∈ before ++ [j] := hfilter ▸ List.mem_filter.mpr ⟨hk, hedge⟩
    have hpairs : (before ++ [j]).Pairwise fun i j => rank i < rank j :=
      hfilter ▸ hsorted.filter _
    rcases List.mem_append.mp hk' with hbefore | hlast
    · exact Nat.le_of_lt
        ((List.pairwise_append.mp hpairs).2.2 k hbefore j (List.mem_singleton_self j))
    · rw [List.mem_singleton.mp hlast]

/-- The starts that wait for the same commit. -/
def startsBehind (dependencies : TaggedGraph) (clients : List Nat) (last : Option Nat) :
    List (Nat × Phase) :=
  ((clients.map fun i => (i, latest? dependencies clients i)).filter fun entry =>
    entry.2 = last).map fun entry => (entry.1, Phase.start)

theorem splitOrder_eq : splitOrder dependencies clients = startsBehind dependencies clients none ++
    clients.flatMap fun i => (i, .commit) :: startsBehind dependencies clients (some i) :=
  rfl

theorem mem_startsBehind_iff {last : Option Nat} {entry : Nat × Phase} :
    entry ∈ startsBehind dependencies clients last ↔
      ∃ i ∈ clients, latest? dependencies clients i = last ∧ entry = (i, .start) := by
  simp only [startsBehind, List.mem_map, List.mem_filter, decide_eq_true_eq]
  constructor
  · rintro ⟨_, ⟨⟨i, hi, rfl⟩, hlast⟩, rfl⟩
    exact ⟨i, hi, hlast, rfl⟩
  · rintro ⟨i, hi, hlast, rfl⟩
    exact ⟨_, ⟨⟨i, hi, rfl⟩, hlast⟩, rfl⟩

/-- Every client is listed with its start and with its commit. -/
theorem mem_splitOrder_iff (i : Nat) (phase : Phase) :
    (i, phase) ∈ splitOrder dependencies clients ↔ i ∈ clients := by
  rw [splitOrder_eq, List.mem_append, List.mem_flatMap, mem_startsBehind_iff]
  simp only [List.mem_cons, mem_startsBehind_iff, Prod.mk.injEq]
  constructor
  · rintro (⟨j, hj, _, rfl, _⟩ | ⟨k, hk, ⟨rfl, _⟩ | ⟨j, hj, _, rfl, _⟩⟩)
    · exact hj
    · exact hk
    · exact hj
  · intro hi
    cases phase with
    | commit => exact Or.inr ⟨i, hi, Or.inl ⟨rfl, rfl⟩⟩
    | start =>
      cases hlast : latest? dependencies clients i with
      | none => exact Or.inl ⟨i, hi, hlast, rfl, rfl⟩
      | some j =>
        have hj : j ∈ clients := (List.mem_filter.mp (List.mem_of_getLast? hlast)).1
        exact Or.inr ⟨j, hj, Or.inr ⟨i, hi, hlast, rfl, rfl⟩⟩

theorem phasePlace_of_mem_startsBehind {last : Option Nat} {entry : Nat × Phase}
    (hentry : entry ∈ startsBehind dependencies clients last) :
    phasePlace dependencies clients rank first entry = 4 * last.elim first rank + 2 := by
  rcases mem_startsBehind_iff.mp hentry with ⟨i, _, hlast, rfl⟩
  rw [phasePlace, waitingPlace, hlast]

variable (hsorted : clients.Pairwise fun i j => rank i < rank j)

include hsorted

theorem pairwise_startsBehind (dependencies : TaggedGraph) (last : Option Nat) :
    (startsBehind dependencies clients last).Pairwise fun x y =>
      phasePlace dependencies clients rank first x ≤ phasePlace dependencies clients rank first y ∧
        x ≠ y := by
  refine List.pairwise_and_iff.mpr ⟨?_, ?_⟩
  · refine List.pairwise_of_forall_mem_list (fun x hx y hy => ?_)
    rw [phasePlace_of_mem_startsBehind hx, phasePlace_of_mem_startsBehind hy]
  · refine List.pairwise_map.mpr (List.Pairwise.filter _ (List.pairwise_map.mpr ?_))
    refine hsorted.imp (fun {i j} hlt hc => ?_)
    have hij : i = j := (Prod.mk.inj hc).1
    rw [hij] at hlt
    exact Nat.lt_irrefl _ hlt

/-- Starts and commits are listed by their places, and none is listed twice. -/
theorem pairwise_splitOrder (dependencies : TaggedGraph) (hfirst : ∀ i ∈ clients, first < rank i) :
    (splitOrder dependencies clients).Pairwise fun x y =>
      phasePlace dependencies clients rank first x ≤ phasePlace dependencies clients rank first y ∧
        x ≠ y := by
  -- What belongs to different commits stands at different places.
  have hlt : ∀ {x y : Nat × Phase}, phasePlace dependencies clients rank first x <
      phasePlace dependencies clients rank first y →
      phasePlace dependencies clients rank first x ≤ phasePlace dependencies clients rank first y ∧
        x ≠ y := by
    intro x y hxy
    refine ⟨Nat.le_of_lt hxy, fun hc => ?_⟩
    rw [hc] at hxy
    exact Nat.lt_irrefl _ hxy
  -- A commit and the starts waiting for it stay below the commit that comes next.
  have hblock : ∀ i, ∀ x ∈ (i, Phase.commit) :: startsBehind dependencies clients (some i),
      4 * rank i + 1 ≤ phasePlace dependencies clients rank first x ∧
        phasePlace dependencies clients rank first x ≤ 4 * rank i + 2 := by
    intro i x hx
    rcases List.mem_cons.mp hx with rfl | hx
    · exact ⟨Nat.le_refl _, Nat.le_succ _⟩
    · rw [phasePlace_of_mem_startsBehind hx]
      exact ⟨Nat.le_succ _, Nat.le_refl _⟩
  rw [splitOrder_eq, List.pairwise_append, List.pairwise_flatMap]
  refine ⟨pairwise_startsBehind hsorted dependencies none, ⟨fun i _ => ?_, ?_⟩, fun x hx y hy => ?_⟩
  · refine List.pairwise_cons.mpr ⟨fun x hx => hlt ?_, pairwise_startsBehind hsorted dependencies (some i)⟩
    rw [phasePlace_of_mem_startsBehind hx]
    exact Nat.lt_succ_self _
  · refine hsorted.imp (fun {i j} hij x hx y hy => hlt ?_)
    have hx := (hblock i x hx).2
    have hy := (hblock j y hy).1
    omega
  · rcases List.mem_flatMap.mp hy with ⟨i, hi, hy⟩
    have hi := hfirst i hi
    have hy := (hblock i y hy).1
    refine hlt ?_
    rw [phasePlace_of_mem_startsBehind hx, Option.elim_none]
    omega

end Listing

end Arbitration

section Moments

variable {κ ν : Type} [DecidableEq κ] {h : History κ ν} {D K : TransactionId → TransactionId → Prop}
  {rank last : TransactionId → Nat}

theorem Resolves.explains_at (hr : Resolves h D K) (hw : h.WellFormed) (hcons : h.Consistent)
    (hinj : ∀ a b, h.IsClient a → h.IsClient b → rank a = rank b → a = b)
    (hsub : ∀ a b, D a b → K a b) (hlt : ∀ a b, K a b → rank a < rank b) :
    (Schedule.mk rank rank).Explains h :=
  hr.explains hw hcons (fun _ _ => Nat.le_refl _) hinj (fun a b hab => hlt a b (hsub a b hab))
    (fun a b hab _ => hlt a b (hsub a b hab)) fun a b hab _ => Nat.lt_asymm (hlt a b hab)

/-- Places that ascend along dependencies, and along a dependency followed by a link, are the moments of
    commits, if starts stand right behind the last dependency. -/
theorem Resolves.explains_behind (hr : Resolves h D K) (hw : h.WellFormed) (hcons : h.Consistent)
    (hinj : ∀ a b, h.IsClient a → h.IsClient b → rank a = rank b → a = b)
    (hlt : ∀ a b, D a b → rank a < rank b) (hbehind : ∀ a m b, D a m → K m b → rank a < rank b)
    (hlast : ∀ b, h.IsClient b → ∃ a, D a b ∧ rank a = last b)
    (hmax : ∀ a b, D a b → h.IsClient b → rank a ≤ last b) :
    (Schedule.mk (fun id => 2 * last id + 1) fun id => 2 * rank id).Explains h := by
  refine hr.explains hw hcons ?_ ?_ ?_ ?_ ?_
  · intro b hb
    rcases hlast b hb with ⟨a, hab, heq⟩
    have := hlt a b hab
    simp only
    omega
  · intro a b ha hb heq
    simp only at heq
    exact hinj a b ha hb (by omega)
  · intro a b hab
    have := hlt a b hab
    simp only
    omega
  · intro a b hab hb
    have := hmax a b hab hb
    simp only
    omega
  · -- A start stands right behind its last dependency `m`, and `b` is committed later than `m`.
    intro a b hab ha
    rcases hlast a ha with ⟨m, hma, heq⟩
    have := hbehind m a b hma hab
    simp only
    omega

theorem Resolves.rank_init_lt (hr : Resolves h D K) (hlt : ∀ a b, D a b → rank a < rank b)
    {id : TransactionId} (hid : h.IsClient id) : rank .init < rank id := by
  rcases id with ⟨session, height⟩
  induction height with
  | zero => exact hlt _ _ (hr.session ⟨hid, Or.inl ⟨rfl, rfl⟩⟩)
  | succ height ih =>
    exact Nat.lt_trans (ih (hid.of_le (Nat.le_succ height)))
      (hlt _ _ (hr.session ⟨hid, Or.inr ⟨height, rfl, rfl⟩⟩))

end Moments

namespace Arbitration

/-- The place of a transaction in a list of numbers. -/
def place {κ : Type} (g : Precedence κ) (order : List Nat) (id : TransactionId) : Nat :=
  order.idxOf (g.nodes.idxOf id)

/-- The place of the last transaction that a client depends on. -/
def lastPlace {κ : Type} (g : Precedence κ) (a : Arbitration) (valuation : Valuation)
    (order : List Nat) (id : TransactionId) : Nat :=
  waitingPlace (a.dependenciesUnder valuation) (order.filter a.isClient) order.idxOf
    (place g order .init) (g.nodes.idxOf id)

/-- The schedule of an order: commits at their places, and starts right behind the last dependency. -/
def scheduleAlong {κ : Type} (g : Precedence κ) (a : Arbitration) (valuation : Valuation)
    (order : List Nat) : Schedule where
  start id := 2 * lastPlace g a valuation order id + 1
  commit id := 2 * place g order id

theorem edge_dependenciesUnder_iff {a : Arbitration} (ha : a.Bundled) (valuation : Valuation) (i j : Nat) :
    (a.dependenciesUnder valuation).Edge i j ↔ Present a.arcs valuation .dependency i j := by
  rw [dependenciesUnder, TaggedGraph.edge_ofEdges_iff, ha.dependencies]
  simp only [List.mem_flatMap, List.mem_range, List.mem_map, Prod.mk.injEq, Prod.exists]
  constructor
  · rintro ⟨_, tagged, _, _, _, l, hmem, rfl, rfl, _⟩
    rcases exists_arc_of_active hmem with ⟨arc, harc, hends, rfl, hholds⟩
    exact ⟨arc, harc, hends, hholds⟩
  · intro hpresent
    have hlt := (ha.bounded.present_lt hpresent).1
    rcases exists_active hlt hpresent with ⟨l, hmem⟩
    exact ⟨hlt, true, i, hlt, j, l, hmem, rfl, rfl, rfl⟩

section Along

variable {κ ν : Type} {h : History κ ν} (hw : h.WellFormed) {g : Precedence κ} {id a b : TransactionId}
  (hnodes : g.nodes = h.transactions.map Transaction.id)
  {cs : List (Constraint κ)} {options : AuditOptions} {valuation : Valuation}
  {order : List Nat} (hordered : ((ofPrecedence g cs options).finalGraph valuation).Ordered order)

include hw hnodes

theorem nodup_nodes : g.nodes.Nodup := by
  rw [hnodes]
  exact hw.nodup_ids

theorem place_of_getElem? {i : Nat} (hi : g.nodes[i]? = some id) :
    place g order id = order.idxOf i := by
  rw [place, idxOf_eq_of_getElem? (nodup_nodes hw hnodes) hi]

/-- The moments of the schedule are the places of starts and commits in the list. -/
theorem moment_scheduleAlong (a : Arbitration) {i : Nat} (hi : g.nodes[i]? = some id) (phase : Phase) :
    (scheduleAlong g a valuation order).moment (id, phase) =
      phasePlace (a.dependenciesUnder valuation) (order.filter a.isClient) order.idxOf
        (place g order .init) (i, phase) := by
  cases phase with
  | start =>
    simp only [Schedule.moment, scheduleAlong, phasePlace, lastPlace,
      idxOf_eq_of_getElem? (nodup_nodes hw hnodes) hi]
    omega
  | commit =>
    simp only [Schedule.moment, scheduleAlong, phasePlace, place_of_getElem? hw hnodes hi]
    omega

theorem mem_nodes_of_isClient (hid : h.IsClient id) : id ∈ g.nodes := by
  rw [hnodes, hw.mem_ids_iff]
  exact hid.2

theorem eq_init_or_isClient (hid : id ∈ g.nodes) : id = .init ∨ h.IsClient id := by
  rw [hnodes] at hid
  rcases List.mem_map.mp hid with ⟨t, ht, rfl⟩
  exact hw.id_eq_init_or_isClient ht

/-- The numbers that are not that of the init transaction are those of clients. -/
theorem isClient_iff {i : Nat} (hi : g.nodes[i]? = some id) :
    (ofPrecedence g cs options).isClient i = true ↔ h.IsClient id := by
  have hmeaning : (ofPrecedence g cs options).isClient i = true ↔ id ≠ .init := by
    rw [isClient, show (ofPrecedence g cs options).nodes = g.nodes from rfl, hi, bne_iff_ne, ne_eq,
      Option.some.injEq]
  rw [hmeaning]
  constructor
  · exact (eq_init_or_isClient hw hnodes (List.mem_of_getElem? hi)).resolve_left
  · rintro ⟨hnot, _⟩ rfl
    exact absurd hnot (by decide)

include hordered

omit hw hnodes in
theorem mem_order_iff (i : Nat) : i ∈ order ↔ i < g.nodes.length := by
  rw [hordered.perm.mem_iff, TaggedGraph.mem_nodes_iff]
  exact Eq.to_iff (congrArg _ (size_finalGraph _ valuation))

omit hw hnodes in
theorem nodup_order : order.Nodup :=
  hordered.perm.nodup_iff.mpr List.nodup_range

theorem place_inj (ha : a ∈ g.nodes) (hb : b ∈ g.nodes) (heq : place g order a = place g order b) :
    a = b := by
  rcases List.mem_iff_getElem?.mp ha with ⟨i, hi⟩
  rcases List.mem_iff_getElem?.mp hb with ⟨j, hj⟩
  rw [place_of_getElem? hw hnodes hi, place_of_getElem? hw hnodes hj] at heq
  have hmem := (mem_order_iff hordered i).mpr (List.getElem?_eq_some_iff.mp hi).1
  rw [(List.idxOf_inj hmem).mp heq, hj, Option.some.injEq] at hi
  exact hi.symm

theorem mem_clients_iff {i : Nat} (hi : g.nodes[i]? = some id) :
    i ∈ order.filter (ofPrecedence g cs options).isClient ↔ h.IsClient id := by
  rw [List.mem_filter, isClient_iff hw hnodes hi, mem_order_iff hordered]
  exact and_iff_right (List.getElem?_eq_some_iff.mp hi).1

omit hw hnodes in
theorem exists_name {i : Nat} (hi : i ∈ order.filter (ofPrecedence g cs options).isClient) :
    ∃ id, g.nodes[i]? = some id :=
  ⟨_, List.getElem?_eq_getElem ((mem_order_iff hordered i).mp (List.mem_filter.mp hi).1)⟩

omit hw hnodes in
theorem pairwise_clients : (order.filter (ofPrecedence g cs options).isClient).Pairwise fun i j =>
    order.idxOf i < order.idxOf j :=
  (pairwise_idxOf_lt (nodup_order hordered)).filter _

theorem pairwise_names : ((ofPrecedence g cs options).names
    (order.filter (ofPrecedence g cs options).isClient)).Pairwise fun a b =>
      place g order a < place g order b := by
  refine List.pairwise_filterMap.mpr ((pairwise_clients hordered).imp ?_)
  intro i j hij a ha b hb
  rw [place_of_getElem? hw hnodes ha, place_of_getElem? hw hnodes hb]
  exact hij

theorem mem_names_iff (id : TransactionId) : id ∈ (ofPrecedence g cs options).names
    (order.filter (ofPrecedence g cs options).isClient) ↔ h.IsClient id := by
  rw [names, List.mem_filterMap]
  constructor
  · rintro ⟨i, hi, hid⟩
    exact (mem_clients_iff hw hnodes hordered hid).mp hi
  · intro hid
    rcases List.mem_iff_getElem?.mp (mem_nodes_of_isClient hw hnodes hid) with ⟨i, hi⟩
    exact ⟨i, (mem_clients_iff hw hnodes hordered hi).mpr hid, hi⟩

variable [DecidableEq κ] (hcs : cs.Nodup) (hcounts : (ofPrecedence g cs options).Counts valuation)

include hcs hcounts

theorem place_lt_place
    (hab : (g.addSide (chosenEdges cs (picks g cs valuation))).Ordering options.level a b) :
    place g order a < place g order b := by
  have hnames := finalGraph_names (nodup_nodes hw hnodes) hcs hcounts
  rw [Precedence.Ordering, depends_eq_inLayer] at hab
  refine Acyclic.rank_lt_of_path (fun x y hxy => ?_)
    (Induced.path_computed (linked_iff_inLayer g _) hab)
  rcases List.mem_iff_getElem?.mp (hnames.mem hxy).1 with ⟨i, hi⟩
  rcases List.mem_iff_getElem?.mp (hnames.mem hxy).2 with ⟨j, hj⟩
  rw [place_of_getElem? hw hnodes hi, place_of_getElem? hw hnodes hj]
  exact hordered.forward ((hnames.edge_iff i j).mpr ⟨x, y, hi, hj, hxy⟩)

omit hordered in
/-- The dependencies that are there are those of the known graph with the sides picked. -/
theorem dependencies_names : ((ofPrecedence g cs options).dependenciesUnder valuation).Names g.nodes
    (g.addSide (chosenEdges cs (picks g cs valuation))).Depends := by
  have hnodup := nodup_nodes hw hnodes
  rw [depends_eq_inLayer, ← inLayerUnder_eq hnodup hcs hcounts]
  refine ⟨hnodup, fun i j => ?_, mem_nodes_of_inLayerUnder cs⟩
  rw [edge_dependenciesUnder_iff (bundled_ofPrecedence hnodup cs options),
    present_arcs_iff hnodup cs options]

omit hordered in
/-- The number of a transaction that is a dependency comes before that of the other. -/
theorem edge_dependencies {i j : Nat} (hi : g.nodes[i]? = some a) (hj : g.nodes[j]? = some b)
    (hab : (g.addSide (chosenEdges cs (picks g cs valuation))).Depends a b) :
    ((ofPrecedence g cs options).dependenciesUnder valuation).Edge i j :=
  ((dependencies_names hw hnodes hcs hcounts).edge_iff i j).mpr ⟨a, b, hi, hj, hab⟩

variable (hcons : h.Consistent) (hr : Resolves h
  (g.addSide (chosenEdges cs (picks g cs valuation))).Depends
  (g.addSide (chosenEdges cs (picks g cs valuation))).Linked)

section Serial

variable [DecidableEq ν] (hlevel : options.level = .serializable)

include hcons hr hlevel

theorem names_explain : (Witness.commitOrder ((ofPrecedence g cs options).names
    (order.filter (ofPrecedence g cs options).isClient))).explains h = true := by
  have hlt : ∀ a b, (g.addSide (chosenEdges cs (picks g cs valuation))).Linked a b →
      place g order a < place g order b := by
    intro a b hab
    refine place_lt_place hw hnodes hordered hcs hcounts ?_
    rw [hlevel]
    exact hab
  have hexplains := hr.explains_at hw hcons
    (fun a b ha hb => place_inj hw hnodes hordered (mem_nodes_of_isClient hw hnodes ha)
      (mem_nodes_of_isClient hw hnodes hb))
    (fun a b hab => hab.linked) hlt
  have hsorted := pairwise_names hw hnodes hordered
  refine commitOrder_explains_of_sorted hw hexplains (fun _ _ => rfl) ?_
    (mem_names_iff hw hnodes hordered) (hsorted.imp Nat.le_of_lt)
  refine hsorted.imp (fun hab hc => ?_)
  rw [hc] at hab
  exact Nat.lt_irrefl _ hab

end Serial

section Split

variable (hlevel : options.level = .snapshotIsolation)

include hlevel

theorem place_lt_of_depends (hab : (g.addSide (chosenEdges cs (picks g cs valuation))).Depends a b) :
    place g order a < place g order b := by
  refine place_lt_place hw hnodes hordered hcs hcounts ?_
  rw [hlevel]
  exact Or.inl hab

include hr

theorem place_le_lastPlace (hab : (g.addSide (chosenEdges cs (picks g cs valuation))).Depends a b) :
    place g order a ≤ lastPlace g (ofPrecedence g cs options) valuation order b := by
  have hmem := hab.1
  rw [Precedence.nodes_addSide] at hmem
  rcases List.mem_iff_getElem?.mp hmem.1 with ⟨j, hj⟩
  rcases List.mem_iff_getElem?.mp hmem.2 with ⟨i, hi⟩
  have hedge := edge_dependencies hw hnodes hcs hcounts hj hi hab
  rw [lastPlace, idxOf_eq_of_getElem? (nodup_nodes hw hnodes) hi]
  -- Only clients are waited for; the init transaction is placed before all of them.
  rcases waitingPlace_cases ((ofPrecedence g cs options).dependenciesUnder valuation)
      (pairwise_clients hordered) (place g order .init) i with
    ⟨k, hk, _, hlast, heq⟩ | ⟨hnone, heq⟩
  · rw [heq]
    rcases eq_init_or_isClient hw hnodes hmem.1 with rfl | hclient
    · rcases exists_name hordered hk with ⟨c, hc⟩
      rw [← place_of_getElem? hw hnodes hc]
      exact Nat.le_of_lt (hr.rank_init_lt
        (fun x y => place_lt_of_depends hw hnodes hordered hcs hcounts hlevel)
        ((mem_clients_iff hw hnodes hordered hc).mp hk))
    · rw [place_of_getElem? hw hnodes hj]
      exact hlast j ((mem_clients_iff hw hnodes hordered hj).mpr hclient) hedge
  · rw [heq]
    rcases eq_init_or_isClient hw hnodes hmem.1 with rfl | hclient
    · exact Nat.le_refl _
    · exact absurd hedge (hnone j ((mem_clients_iff hw hnodes hordered hj).mpr hclient))

omit hlevel in
theorem exists_lastPlace {b : TransactionId} (hb : h.IsClient b) :
    ∃ a, (g.addSide (chosenEdges cs (picks g cs valuation))).Depends a b ∧
      place g order a = lastPlace g (ofPrecedence g cs options) valuation order b := by
  have hnames := dependencies_names hw hnodes hcs hcounts
  rcases List.mem_iff_getElem?.mp (mem_nodes_of_isClient hw hnodes hb) with ⟨i, hi⟩
  rw [lastPlace, idxOf_eq_of_getElem? (nodup_nodes hw hnodes) hi]
  rcases waitingPlace_cases ((ofPrecedence g cs options).dependenciesUnder valuation)
      (pairwise_clients hordered) (place g order .init) i with
    ⟨k, _, hedge, _, heq⟩ | ⟨hnone, heq⟩
  · rcases (hnames.edge_iff k i).mp hedge with ⟨a, b', ha, hb', hab⟩
    rw [hi, Option.some.injEq] at hb'
    exact ⟨a, hb' ▸ hab, (place_of_getElem? hw hnodes ha).trans heq.symm⟩
  · -- Somebody is depended on, and it can only be the init transaction.
    rcases hr.exists_depends hb with ⟨a, hab⟩
    rcases List.mem_iff_getElem?.mp (hnames.mem hab).1 with ⟨j, hj⟩
    have hedge := edge_dependencies hw hnodes hcs hcounts hj hi hab
    refine ⟨a, hab, ?_⟩
    rcases eq_init_or_isClient hw hnodes (hnames.mem hab).1 with rfl | hclient
    · exact heq.symm
    · exact absurd hedge (hnone j ((mem_clients_iff hw hnodes hordered hj).mpr hclient))

include hcons

theorem scheduleAlong_explains :
    (scheduleAlong g (ofPrecedence g cs options) valuation order).Explains h := by
  refine hr.explains_behind hw hcons
    (fun a b ha hb => place_inj hw hnodes hordered (mem_nodes_of_isClient hw hnodes ha)
      (mem_nodes_of_isClient hw hnodes hb))
    (fun a b => place_lt_of_depends hw hnodes hordered hcs hcounts hlevel) ?_
    (fun b => exists_lastPlace hw hnodes hordered hcs hcounts hr)
    (fun a b hab _ => place_le_lastPlace hw hnodes hordered hcs hcounts hr hlevel hab)
  intro a m b ham hmb
  refine place_lt_place hw hnodes hordered hcs hcounts ?_
  rw [hlevel]
  exact Or.inr ⟨m, ham, hmb⟩

theorem splitOrder_explains [DecidableEq ν] : (Witness.splitOrder
    ((splitOrder ((ofPrecedence g cs options).dependenciesUnder valuation)
      (order.filter (ofPrecedence g cs options).isClient)).filterMap fun (i, phase) =>
        (ofPrecedence g cs options).nodes[i]?.map fun id => (id, phase))).explains h = true := by
  have hfirst : ∀ i ∈ order.filter (ofPrecedence g cs options).isClient,
      place g order .init < order.idxOf i := by
    intro i hi
    rcases exists_name hordered hi with ⟨id, hid⟩
    rw [← place_of_getElem? hw hnodes hid]
    exact hr.rank_init_lt (fun x y => place_lt_of_depends hw hnodes hordered hcs hcounts hlevel)
      ((mem_clients_iff hw hnodes hordered hid).mp hi)
  have hsorted := pairwise_splitOrder (pairwise_clients hordered)
    ((ofPrecedence g cs options).dependenciesUnder valuation) hfirst
  refine splitOrder_explains_of_sorted hw
    (scheduleAlong_explains hw hnodes hordered hcs hcounts hcons hr hlevel) ?_ ?_ ?_
  · -- Different nodes have different names, so no name is listed twice.
    refine List.pairwise_filterMap.mpr (hsorted.imp ?_)
    rintro ⟨i, phase⟩ ⟨j, phase'⟩ ⟨_, hne⟩ x hx y hy rfl
    rcases Option.map_eq_some_iff.mp hx with ⟨a, ha, rfl⟩
    rcases Option.map_eq_some_iff.mp hy with ⟨b, hb, hab⟩
    rw [Prod.mk.injEq] at hab
    have hij : i = j := (idxOf_eq_of_getElem? (nodup_nodes hw hnodes) ha).symm.trans
      (idxOf_eq_of_getElem? (nodup_nodes hw hnodes) (hab.1 ▸ hb))
    exact hne (by rw [hij, hab.2])
  · intro id phase
    rw [List.mem_filterMap]
    constructor
    · rintro ⟨⟨i, phase'⟩, hentry, hid⟩
      rcases Option.map_eq_some_iff.mp hid with ⟨id', hi, heq⟩
      rw [← (Prod.mk.inj heq).1]
      exact (mem_clients_iff hw hnodes hordered hi).mp ((mem_splitOrder_iff i phase').mp hentry)
    · intro hid
      rcases List.mem_iff_getElem?.mp (mem_nodes_of_isClient hw hnodes hid) with ⟨i, hi⟩
      have hclient := (mem_clients_iff hw hnodes hordered hi).mpr hid
      exact ⟨(i, phase), (mem_splitOrder_iff i phase).mpr hclient,
        Option.map_eq_some_iff.mpr ⟨id, hi, rfl⟩⟩
  · refine List.pairwise_filterMap.mpr (hsorted.imp ?_)
    rintro ⟨i, phase⟩ ⟨j, phase'⟩ ⟨hle, _⟩ x hx y hy
    rcases Option.map_eq_some_iff.mp hx with ⟨a, ha, rfl⟩
    rcases Option.map_eq_some_iff.mp hy with ⟨b, hb, rfl⟩
    rw [moment_scheduleAlong hw hnodes _ ha, moment_scheduleAlong hw hnodes _ hb]
    exact hle

end Split

include hcons hr

/-- Whatever the valuation and the order, the witness along it explains the history. -/
theorem witnessAlong_explains [DecidableEq ν] :
    ((ofPrecedence g cs options).witnessAlong valuation order).explains h = true := by
  rw [witnessAlong, show (ofPrecedence g cs options).level = options.level from rfl]
  cases hlevel : options.level with
  | serializable => exact names_explain hw hnodes hordered hcs hcounts hcons hr hlevel
  | snapshotIsolation => exact splitOrder_explains hw hnodes hordered hcs hcounts hcons hr hlevel

end Along

end Arbitration

end Isolation
