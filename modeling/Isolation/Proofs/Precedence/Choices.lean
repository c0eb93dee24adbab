import Isolation.Proofs.Graph.Closure
import Isolation.Proofs.Precedence.Orders

/-!
# Choices and Their Pruning

A choice picks a side for every constraint. It is *acyclic* at a level if the graph with the edges of all
sides picked orders the transactions. What an audit looks for is an acyclic choice, and pruning must not
change what it will find.

A side is promoted when a connection of its own making would close a cycle with the other side. So every
acyclic choice picks the promoted side anyway, and to have it among the known edges changes nothing: the
acyclic choices for the pruned constraints are the old ones, with the promoted constraints left out.

## Main definitions

* `Precedence.AcyclicChoice`: The sides picked can be ordered.
* `Promotes`: What some rounds of pruning have done.

## Theorems

* `pruneRound_promotes`, `pruneWithin_promotes`: One round promotes, and so do several.
-/

namespace Isolation

open Relation

variable {κ : Type} {options : AuditOptions} {choice : Constraint κ → Direction}
  {cs : List (Constraint κ)}

/-- The edges of the sides that a choice picks. -/
def chosenEdges (cs : List (Constraint κ)) (choice : Constraint κ → Direction) : List (SideEdge κ) :=
  cs.flatMap fun c => c.edges (choice c)

/-- The edges of sides that have been promoted. -/
def promotedEdges (promoted : List (Constraint κ × Direction)) : List (SideEdge κ) :=
  promoted.flatMap fun p => p.1.edges p.2

theorem mem_chosenEdges_iff : e ∈ chosenEdges cs choice ↔ ∃ c ∈ cs, e ∈ c.edges (choice c) :=
  List.mem_flatMap

theorem mem_promotedEdges_iff {promoted : List (Constraint κ × Direction)} :
    e ∈ promotedEdges promoted ↔ ∃ p ∈ promoted, e ∈ p.1.edges p.2 :=
  List.mem_flatMap

/-- Every constraint of a list is settled by one of its sides or left open. Both lists keep the order. -/
inductive Settles :
    List (Constraint κ) → List (Constraint κ × Direction) → List (Constraint κ) → Prop where
  | nil : Settles [] [] []
  | leave (c : Constraint κ) {cs : List (Constraint κ)} {settled : List (Constraint κ × Direction)}
      {left : List (Constraint κ)} (rest : Settles cs settled left) :
      Settles (c :: cs) settled (c :: left)
  | settle (c : Constraint κ) (direction : Direction) {cs : List (Constraint κ)}
      {settled : List (Constraint κ × Direction)} {left : List (Constraint κ)}
      (rest : Settles cs settled left) :
      Settles (c :: cs) ((c, direction) :: settled) left

theorem Settles.perm {cs left : List (Constraint κ)} {settled : List (Constraint κ × Direction)}
    (hsettles : Settles cs settled left) : (settled.map Prod.fst ++ left).Perm cs := by
  induction hsettles with
  | nil => exact List.Perm.refl _
  | leave c _ ih => exact List.perm_middle.trans (ih.cons c)
  | settle c _ _ ih => exact ih.cons c

/-- The constraints for which there is a decision, each with the decision that stands at its place. -/
def decided (cs : List (Constraint κ)) (decisions : List (Option Direction)) :
    List (Constraint κ × Direction) :=
  (cs.zip decisions).filterMap fun entry => entry.2.map fun direction => (entry.1, direction)

theorem decided_cons (c : Constraint κ) (cs : List (Constraint κ)) (decision : Option Direction)
    (decisions : List (Option Direction)) : decided (c :: cs) (decision :: decisions) =
      (decision.map fun direction => (c, direction)).toList ++ decided cs decisions := by
  rw [decided, List.zip_cons_cons, List.filterMap_cons]
  cases decision <;> rfl

/-- What stays open are the constraints that are not decided, although the decisions are used up one by one
    and not looked up. -/
theorem settles_retainOpen (cs : List (Constraint κ)) (decisions : List (Option Direction)) :
    Settles cs (decided cs decisions) (Precedence.retainOpen decisions cs) := by
  induction cs generalizing decisions with
  | nil => exact Settles.nil
  | cons c rest ih =>
    cases decisions with
    | nil =>
      have hrest := ih []
      rw [decided, List.zip_nil_right] at hrest
      exact Settles.leave c hrest
    | cons decision decisions =>
      rw [decided_cons]
      cases decision with
      | none => exact Settles.leave c (ih decisions)
      | some direction => exact Settles.settle c direction (ih decisions)

variable [DecidableEq κ]

namespace Precedence

/-- The sides picked can be ordered at a level, together with what is known. -/
def AcyclicChoice (g : Precedence κ) (cs : List (Constraint κ)) (level : IsolationLevel)
    (choice : Constraint κ → Direction) : Prop :=
  Acyclic ((g.addSide (chosenEdges cs choice)).Ordering level)

theorem AcyclicChoice.known {g : Precedence κ} {level : IsolationLevel}
    (hacyclic : g.AcyclicChoice cs level choice) : Acyclic (g.Ordering level) :=
  hacyclic.mono fun _ _ => g.ordering_addSide _

variable {g : Precedence κ}

omit [DecidableEq κ] in
/-- The probe of an edge is the pair backwards, or leads to a predecessor if the edge is no more than an
    anti-dependency at snapshot isolation. -/
theorem mem_edgeProbes {level : IsolationLevel} {p q : Nat} (hprobe : (p, q) ∈ g.edgeProbes level e) :
    g.index? e.target = some p ∧
      ∃ source, g.index? e.source = some source ∧
        ((level = .snapshotIsolation → e.kind ≠ .readWrite) ∧ q = source ∨
          level = .snapshotIsolation ∧ ∃ pred ∈ g.predecessors e.source, g.index? pred = some q) := by
  unfold edgeProbes at hprobe
  split at hprobe
  · next source target hsource htarget =>
      cases level with
      | serializable =>
        have heq : (p, q) = (target, source) := by
          cases hkind : e.kind with
          | _ =>
            rw [hkind] at hprobe
            exact List.mem_singleton.mp hprobe
        rw [Prod.mk.injEq] at heq
        exact ⟨heq.1 ▸ htarget, source, hsource, Or.inl ⟨fun hc => absurd hc (by decide), heq.2⟩⟩
      | snapshotIsolation =>
        by_cases hkind : e.kind = .readWrite
        · rw [hkind] at hprobe
          simp only [List.mem_map, List.mem_filterMap, Prod.mk.injEq] at hprobe
          rcases hprobe with ⟨i, ⟨pred, hpred, hi⟩, rfl, rfl⟩
          exact ⟨htarget, source, hsource, Or.inr ⟨rfl, pred, hpred, hi⟩⟩
        · have heq : (p, q) = (target, source) := by
            cases hkind' : e.kind with
            | readWrite => exact absurd hkind' hkind
            | _ =>
              rw [hkind'] at hprobe
              exact List.mem_singleton.mp hprobe
          rw [Prod.mk.injEq] at heq
          exact ⟨heq.1 ▸ htarget, source, hsource, Or.inl ⟨fun _ => hkind, heq.2⟩⟩
  · exact absurd hprobe List.not_mem_nil

omit [DecidableEq κ] in
theorem roundClosure_within (options : AuditOptions) {i j : Nat}
    (hedge : (g.roundClosure options).Edge i j) :
    ReflTransGen (g.knownGraph options.level options.strategy).Edge i j :=
  ReflTransGen.mono (fun _ _ => TaggedGraph.edge_of_thin) _ _
    ((TaggedGraph.closure_within (TaggedGraph.Regular.thin _) options.strategy).edge hedge)

variable (hnodup : g.nodes.Nodup)

include hnodup

theorem cycle_of_edgeProbe {edges : List (SideEdge κ)} (he : e ∈ edges) {p q : Nat}
    (hprobe : (p, q) ∈ g.edgeProbes options.level e) (hconnected : (g.roundClosure options).Edge p q) :
    ¬ Acyclic ((g.addSide edges).Ordering options.level) := by
  intro hacyclic
  rcases mem_edgeProbes hprobe with ⟨htarget, source, hsource, hkind⟩
  rw [index?_eq_some_iff hnodup] at htarget hsource
  have hnodes : e.source ∈ g.nodes ∧ e.target ∈ g.nodes :=
    ⟨List.mem_of_getElem? hsource, List.mem_of_getElem? htarget⟩
  have hlinked : (g.addSide edges).Linked e.source e.target :=
    (linked_addSide_iff g edges _ _).mpr (Or.inr ⟨hnodes, e, he, rfl, rfl⟩)
  -- The probe leads from the target back to some transaction, also in the larger graph.
  have hback : ∀ {b}, g.nodes[q]? = some b →
      ReflTransGen ((g.addSide edges).Ordering options.level) e.target b := by
    intro b hb
    exact ReflTransGen.mono (fun _ _ => g.ordering_addSide edges) _ _
      (ordering_path_of_knownGraph hnodup (roundClosure_within options hconnected) htarget hb)
  rcases hkind with ⟨hkind, rfl⟩ | ⟨hlevel, pred, hpred, hindex⟩
  · have hstep : (g.addSide edges).Ordering options.level e.source e.target := by
      cases hlevel : options.level with
      | serializable => exact hlinked
      | snapshotIsolation =>
        exact Or.inl ((depends_addSide_iff g edges _ _).mpr
          (Or.inr ⟨hnodes, e, he, ⟨rfl, rfl⟩, hkind hlevel⟩))
    exact hacyclic e.source (TransGen.head' hstep (hback hsource))
  · -- A predecessor of the source comes before the target.
    rw [index?_eq_some_iff hnodup] at hindex
    simp only [predecessors, dependencies, List.mem_map, List.mem_filter, decide_eq_true_eq] at hpred
    rcases hpred with ⟨d, ⟨⟨hd, hdep⟩, hdtarget⟩, hdsource⟩
    have hdepends : (g.addSide edges).Depends pred e.source :=
      (depends_addSide_iff g edges _ _).mpr (Or.inl
        ⟨⟨List.mem_of_getElem? hindex, hnodes.1⟩, d, hd, hdsource, hdtarget, hdep⟩)
    have hstep : (g.addSide edges).Ordering options.level pred e.target := by
      rw [hlevel]
      exact Or.inr ⟨e.source, hdepends, hlinked⟩
    exact hacyclic pred (TransGen.head' hstep (hback hindex))

/-- A side with a connected probe closes a cycle, whatever else is added. -/
theorem cycle_of_conflicts {side edges : List (SideEdge κ)} (hsub : ∀ e ∈ side, e ∈ edges)
    (hconflicts : g.conflicts options.level (g.roundClosure options) side = true) :
    ¬ Acyclic ((g.addSide edges).Ordering options.level) := by
  rw [conflicts, List.any_eq_true] at hconflicts
  rcases hconflicts with ⟨⟨p, q⟩, hprobe, hconnected⟩
  rcases List.mem_flatMap.mp hprobe with ⟨e, he, hprobe⟩
  exact cycle_of_edgeProbe hnodup (hsub e he) hprobe hconnected

theorem not_acyclicChoice_of_conflicts {c : Constraint κ} (hc : c ∈ cs) (direction : Direction)
    (hconflicts : g.conflicts options.level (g.roundClosure options) (c.edges direction) = true)
    (hacyclic : g.AcyclicChoice cs options.level choice) :
    choice c ≠ direction := by
  intro hpick
  refine cycle_of_conflicts hnodup (fun e he => ?_) hconflicts hacyclic
  exact mem_chosenEdges_iff.mpr ⟨c, hc, hpick ▸ he⟩

theorem choice_eq_of_forced {c : Constraint κ} (hc : c ∈ cs) {direction : Direction}
    (hforced : g.forced? options.level (g.roundClosure options) c = some direction)
    (hacyclic : g.AcyclicChoice cs options.level choice) : choice c = direction := by
  unfold forced? at hforced
  split at hforced
  · next hconflicts =>
      rw [Option.some.injEq] at hforced
      have hne := not_acyclicChoice_of_conflicts hnodup hc .forward hconflicts hacyclic
      cases hpick : choice c with
      | forward => exact absurd hpick hne
      | backward => exact hforced
  · split at hforced
    · next hconflicts =>
        rw [Option.some.injEq] at hforced
        have hne := not_acyclicChoice_of_conflicts hnodup hc .backward hconflicts hacyclic
        cases hpick : choice c with
        | forward => exact hforced
        | backward => exact absurd hpick hne
    · cases hforced

/-- If a round finds a known cycle, there is no acyclic choice. -/
theorem not_acyclicChoice_of_knownCycle {cycle : KnownCycle}
    (hround : g.pruneRound cs options = .error cycle) (choice : Constraint κ → Direction) :
    ¬ g.AcyclicChoice cs options.level choice := by
  intro hacyclic
  rw [pruneRound] at hround
  split at hround
  · next hloop =>
      rcases TaggedGraph.exists_cycle_of_hasTaggedLoop
        (TaggedGraph.closure_within (TaggedGraph.Regular.thin _) options.strategy) hloop with
        ⟨i, hcycle⟩
      have hknown := (acyclic_knownGraph_iff hnodup options.level options.strategy).mpr hacyclic.known
      exact hknown i (TransGen.mono (fun _ _ => TaggedGraph.edge_of_thin) i i hcycle)
  · cases hround

end Precedence

/-- What some rounds of pruning have done: sides have been added to the graph, their constraints are no
    longer open, and every acyclic choice picks these sides. -/
structure Promotes (level : IsolationLevel) (g : Precedence κ) (cs : List (Constraint κ))
    (promoted : List (Constraint κ × Direction)) (g' : Precedence κ) (cs' : List (Constraint κ)) :
    Prop where
  graph : g' = g.addSide (promotedEdges promoted)
  perm : (promoted.map Prod.fst ++ cs').Perm cs
  forced : ∀ choice, g.AcyclicChoice cs level choice → ∀ p ∈ promoted, choice p.1 = p.2

namespace Promotes

variable {level : IsolationLevel} {g g' g'' : Precedence κ} {cs cs' cs'' : List (Constraint κ)}
  {promoted promoted' : List (Constraint κ × Direction)}

theorem refl (level : IsolationLevel) (g : Precedence κ) (cs : List (Constraint κ)) :
    Promotes level g cs [] g cs :=
  ⟨rfl, List.Perm.refl _, fun _ _ _ hp => absurd hp List.not_mem_nil⟩

theorem nodes (hpromotes : Promotes level g cs promoted g' cs') : g'.nodes = g.nodes := by
  rw [hpromotes.graph, Precedence.nodes_addSide]

theorem mem_iff (hpromotes : Promotes level g cs promoted g' cs') (c : Constraint κ) :
    c ∈ cs ↔ (∃ direction, (c, direction) ∈ promoted) ∨ c ∈ cs' := by
  rw [← hpromotes.perm.mem_iff, List.mem_append, List.mem_map]
  refine or_congr_left ⟨?_, ?_⟩
  · rintro ⟨⟨c, direction⟩, hmem, rfl⟩
    exact ⟨direction, hmem⟩
  · rintro ⟨direction, hmem⟩
    exact ⟨(c, direction), hmem, rfl⟩

/-- A choice that picks the promoted sides orders the same, before and after. -/
theorem ordering_eq (hpromotes : Promotes level g cs promoted g' cs')
    (hpicks : ∀ p ∈ promoted, choice p.1 = p.2) :
    (g.addSide (chosenEdges cs choice)).Ordering level =
      (g'.addSide (chosenEdges cs' choice)).Ordering level := by
  rw [hpromotes.graph, Precedence.addSide_addSide]
  refine g.ordering_addSide_congr (fun e => ?_) level
  simp only [List.mem_append, mem_chosenEdges_iff, mem_promotedEdges_iff, hpromotes.mem_iff]
  constructor
  · rintro ⟨c, ⟨direction, hmem⟩ | hmem, he⟩
    · exact Or.inl ⟨(c, direction), hmem, hpicks _ hmem ▸ he⟩
    · exact Or.inr ⟨c, hmem, he⟩
  · rintro (⟨⟨c, direction⟩, hmem, he⟩ | ⟨c, hmem, he⟩)
    · exact ⟨c, Or.inl ⟨direction, hmem⟩, (hpicks _ hmem).symm ▸ he⟩
    · exact ⟨c, Or.inr hmem, he⟩

/-- Acyclic choices pick the promoted sides and are acyclic on what is left. -/
theorem acyclicChoice_iff (hpromotes : Promotes level g cs promoted g' cs')
    (choice : Constraint κ → Direction) : g.AcyclicChoice cs level choice ↔
      (∀ p ∈ promoted, choice p.1 = p.2) ∧ g'.AcyclicChoice cs' level choice := by
  constructor
  · intro hacyclic
    have hpicks := hpromotes.forced choice hacyclic
    refine ⟨hpicks, ?_⟩
    rw [Precedence.AcyclicChoice, ← hpromotes.ordering_eq hpicks]
    exact hacyclic
  · rintro ⟨hpicks, hacyclic⟩
    rw [Precedence.AcyclicChoice, hpromotes.ordering_eq hpicks]
    exact hacyclic

theorem trans (hfirst : Promotes level g cs promoted g' cs')
    (hsecond : Promotes level g' cs' promoted' g'' cs'') :
    Promotes level g cs (promoted ++ promoted') g'' cs'' := by
  refine ⟨?_, ?_, ?_⟩
  · rw [hsecond.graph, hfirst.graph, Precedence.addSide_addSide, promotedEdges, promotedEdges,
      promotedEdges, List.flatMap_append]
  · rw [List.map_append, List.append_assoc]
    exact (List.Perm.append_left _ hsecond.perm).trans hfirst.perm
  · intro choice hacyclic p hp
    rcases List.mem_append.mp hp with hp | hp
    · exact hfirst.forced choice hacyclic p hp
    · exact hsecond.forced choice ((hfirst.acyclicChoice_iff choice).mp hacyclic).2 p hp

end Promotes

namespace Precedence

/-- What the promotions of a round amount to: sides are added, and as many are counted. -/
theorem foldl_promote_eq (cs : List (Constraint κ)) (decisions : List (Option Direction)) (count : Nat)
    (g : Precedence κ) : (cs.zip decisions).foldl promote (count, g) =
      (count + (decided cs decisions).length, g.addSide (promotedEdges (decided cs decisions))) := by
  induction cs generalizing decisions count g with
  | nil => rfl
  | cons c rest ih =>
    cases decisions with
    | nil => rfl
    | cons decision decisions =>
      rw [List.zip_cons_cons, List.foldl_cons, decided_cons]
      cases decision with
      | none => exact ih decisions count g
      | some direction =>
        rw [promote, ih]
        simp only [Option.map_some, Option.toList_some, List.singleton_append, List.length_cons,
          promotedEdges, List.flatMap_cons, ← addSide_addSide]
        rw [Nat.add_assoc, Nat.add_comm 1]

/-- The sides that a round promotes. -/
def promotions (g : Precedence κ) (options : AuditOptions) (cs : List (Constraint κ)) :
    List (Constraint κ × Direction) :=
  decided cs (g.decisions (g.roundClosure options) options cs)

omit [DecidableEq κ] in
theorem mem_promotions_iff {g : Precedence κ} (p : Constraint κ × Direction) :
    p ∈ g.promotions options cs ↔
      p.1 ∈ cs ∧ g.forced? options.level (g.roundClosure options) p.1 = some p.2 := by
  rw [promotions, decided, decisions, ← List.map_prod_left_eq_zip]
  simp only [List.mem_filterMap, List.mem_map, Option.map_eq_some_iff]
  constructor
  · rintro ⟨_, ⟨c, hc, rfl⟩, d, hforced, rfl⟩
    exact ⟨hc, hforced⟩
  · rintro ⟨hc, hforced⟩
    exact ⟨_, ⟨p.1, hc, rfl⟩, p.2, hforced, rfl⟩

omit [DecidableEq κ] in
theorem forced?_of_mem_retainOpen {g : Precedence κ} {closure : TaggedGraph} {c : Constraint κ}
    (hc : c ∈ retainOpen (g.decisions closure options cs) cs) :
    g.forced? options.level closure c = none := by
  induction cs with
  | nil => exact absurd hc List.not_mem_nil
  | cons first rest ih =>
    rw [decisions, List.map_cons, retainOpen] at hc
    split at hc
    · next hopen =>
        rcases List.mem_cons.mp hc with rfl | hc
        · exact Option.isNone_iff_eq_none.mp hopen
        · exact ih hc
    · exact ih hc

/-- A round that reports no cycle adds the sides that it promotes, counts them, and settles their
    constraints. What it leaves open it cannot decide. -/
theorem pruneRound_spec {g g' : Precedence κ} {cs cs' : List (Constraint κ)} {newly : Nat}
    (hround : g.pruneRound cs options = .ok (newly, g', cs')) :
    newly = (g.promotions options cs).length ∧
      g' = g.addSide (promotedEdges (g.promotions options cs)) ∧
      Settles cs (g.promotions options cs) cs' ∧
      ∀ c ∈ cs', g.forced? options.level (g.roundClosure options) c = none := by
  rw [pruneRound] at hround
  split at hround
  · cases hround
  · simp only [foldl_promote_eq, Nat.zero_add, Except.ok.injEq, Prod.mk.injEq] at hround
    rcases hround with ⟨rfl, rfl, rfl⟩
    exact ⟨rfl, rfl, settles_retainOpen cs _, fun c hc => forced?_of_mem_retainOpen hc⟩

/-- One round promotes. -/
theorem pruneRound_promotes {g : Precedence κ} (hnodup : g.nodes.Nodup) {cs cs' : List (Constraint κ)}
    {newly : Nat} {g' : Precedence κ} (hround : g.pruneRound cs options = .ok (newly, g', cs')) :
    ∃ promoted, Promotes options.level g cs promoted g' cs' := by
  rcases pruneRound_spec hround with ⟨_, hgraph, hsettles, _⟩
  refine ⟨g.promotions options cs, hgraph, hsettles.perm, ?_⟩
  intro choice hacyclic p hp
  rcases (mem_promotions_iff p).mp hp with ⟨hc, hforced⟩
  exact choice_eq_of_forced hnodup hc hforced hacyclic

/-- Rounds one after the other promote, and if they end with a known cycle, there is no acyclic
    choice. -/
theorem pruneWithin_promotes (options : AuditOptions) (budget rounds resolved : Nat)
    {g : Precedence κ} (hnodup : g.nodes.Nodup) (cs : List (Constraint κ)) :
    let pruned := pruneWithin options budget rounds resolved g cs
    (∃ promoted, Promotes options.level g cs promoted pruned.graph pruned.constraints) ∧
      ∀ cycle, pruned.outcome = .error cycle →
        ∀ choice, ¬ g.AcyclicChoice cs options.level choice := by
  induction budget generalizing rounds resolved g cs with
  | zero =>
    refine ⟨⟨[], Promotes.refl _ g cs⟩, ?_⟩
    intro cycle hcycle
    exact absurd hcycle (by simp [pruneWithin])
  | succ budget ih =>
    rw [pruneWithin]
    cases hround : g.pruneRound cs options with
    | error found =>
      exact ⟨⟨[], Promotes.refl _ g cs⟩, fun _ _ =>
        not_acyclicChoice_of_knownCycle hnodup hround⟩
    | ok result =>
      rcases result with ⟨newly, g', cs'⟩
      rcases pruneRound_promotes hnodup hround with ⟨promoted, hpromotes⟩
      simp only
      split
      · refine ⟨⟨promoted, hpromotes⟩, ?_⟩
        intro cycle hcycle
        cases hcycle
      · rcases ih (rounds + 1) (resolved + newly)
          (hpromotes.nodes ▸ hnodup) cs' with ⟨⟨promoted', hpromotes'⟩, herror⟩
        refine ⟨⟨promoted ++ promoted', hpromotes.trans hpromotes'⟩, ?_⟩
        intro cycle hcycle choice hacyclic
        exact herror cycle hcycle choice ((hpromotes.acyclicChoice_iff choice).mp hacyclic).2

end Precedence

end Isolation
