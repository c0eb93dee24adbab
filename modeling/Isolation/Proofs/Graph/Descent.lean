import Isolation.Graph.Descent
import Isolation.Proofs.Graph.Acyclic
import Isolation.Proofs.Lists

/-!
# Depth-First Search Finds a Cycle if There Is One

A vertex is done when the path has gone back by it. At that moment all its successors are done, so the
vertices that are done, the latest first, form a list in which every edge leads to a later entry, and none
of them lies on a cycle. A successor that is neither unmet nor on the path must be done, so nothing is lost
by passing it over.

The table of places lists the path and nothing else, at any time and across all roots. A stale entry would
make the search report a cycle that is none.

## Main definitions

* `IsCycle`: Distinct things, each related to the next and the last to the first.
* `Sound`: What is true of every state of the search.

## Theorems

* `findCycle?_eq_none_iff`, `isCycle_of_findCycle?`: A cycle is found exactly if there is one.
-/

namespace Isolation

open Relation

section Cycles

variable {α : Type} {R S : α → α → Prop} {cycle : List α}

/-- Distinct things, each related to the next and the last to the first. -/
structure IsCycle (R : α → α → Prop) (cycle : List α) : Prop where
  ne_nil : cycle ≠ []
  nodup : cycle.Nodup
  next : ∀ {i a b}, cycle[i]? = some a → cycle[(i + 1) % cycle.length]? = some b → R a b

theorem IsCycle.mono (hcycle : IsCycle R cycle) (hsub : ∀ a b, R a b → S a b) : IsCycle S cycle :=
  ⟨hcycle.ne_nil, hcycle.nodup, fun ha hb => hsub _ _ (hcycle.next ha hb)⟩

theorem IsCycle.not_acyclic (hcycle : IsCycle R cycle) : ¬ Acyclic R := by
  intro hacyclic
  have hlength : 0 < cycle.length := List.length_pos_iff.mpr hcycle.ne_nil
  have hfirst : cycle[0]? = some cycle[0] := List.getElem?_eq_getElem hlength
  -- The walk around the cycle passes every place, and the last place leads back to the first.
  have hwalk : ∀ (i : Nat) (b : α), cycle[i]? = some b → ReflTransGen R cycle[0] b := by
    intro i
    induction i with
    | zero =>
      intro b hb
      rw [hfirst, Option.some.injEq] at hb
      rw [hb]
    | succ i ih =>
      intro b hb
      have hlt : i + 1 < cycle.length := (List.getElem?_eq_some_iff.mp hb).1
      have hbefore : cycle[i]? = some cycle[i] := List.getElem?_eq_getElem (by omega)
      refine (ih _ hbefore).tail (hcycle.next hbefore ?_)
      rw [Nat.mod_eq_of_lt hlt]
      exact hb
  have hlast : cycle[cycle.length - 1]? = some cycle[cycle.length - 1] :=
    List.getElem?_eq_getElem (by omega)
  refine hacyclic cycle[0] (TransGen.tail' (hwalk _ _ hlast) (hcycle.next hlast ?_))
  rw [Nat.sub_add_cancel hlength, Nat.mod_self]
  exact hfirst

end Cycles

namespace Graph

namespace Descent

variable {α : Type} {successors : α → List α} {done : List α}

section Finished

/-- Every edge out of the list leads to a later entry. -/
inductive Finished (successors : α → List α) : List α → Prop where
  | nil : Finished successors []
  | cons {v : α} {done : List α} : (∀ w ∈ successors v, w ∈ done) → Finished successors done →
      Finished successors (v :: done)

theorem Finished.mem_of_path (hdone : Finished successors done) {v w : α} (hv : v ∈ done)
    (hpath : ReflTransGen (fun a b => b ∈ successors a) v w) : w ∈ done := by
  have hnext : ∀ a ∈ done, ∀ b ∈ successors a, b ∈ done := by
    clear hpath hv
    induction hdone with
    | nil => exact fun a ha => absurd ha List.not_mem_nil
    | cons hv _ ih =>
      intro a ha b hb
      rcases List.mem_cons.mp ha with rfl | ha
      · exact List.mem_cons_of_mem _ (hv b hb)
      · exact List.mem_cons_of_mem _ (ih a ha b hb)
  induction hpath with
  | refl => exact hv
  | tail _ hedge ih => exact hnext _ ih _ hedge

theorem Finished.not_cycle (hdone : Finished successors done) {v : α} (hv : v ∈ done) :
    ¬ TransGen (fun a b => b ∈ successors a) v v := by
  induction hdone with
  | nil => exact absurd hv List.not_mem_nil
  | cons hnext hrest ih =>
    intro hcycle
    rcases List.mem_cons.mp hv with rfl | hv
    · -- A way back to the first entry would lead out of the later ones.
      rcases TransGen.head'_iff.mp hcycle with ⟨w, hedge, hback⟩
      exact ih (hrest.mem_of_path (hnext w hedge) hback) hcycle
    · exact ih hv hcycle

end Finished

section Trail

/-- What remains to be looked at on the stack, under a vertex to which the path has gone on: a successor is
    pending, or done, or the next vertex of the path. -/
inductive Trail (successors : α → List α) (done : List α) : Option α → List (α × List α) → Prop where
  | nil (above : Option α) : Trail successors done above []
  | cons {above : Option α} {v : α} {pending : List α} {below : List (α × List α)} :
      (∀ u, above = some u → u ∈ successors v) → (∀ w ∈ pending, w ∈ successors v) →
      (∀ w ∈ successors v, w ∈ pending ∨ w ∈ done ∨ above = some w) →
      Trail successors done (some v) below → Trail successors done above ((v, pending) :: below)

theorem Trail.weaken {above : Option α} {stack : List (α × List α)} {more : List α}
    (htrail : Trail successors done above stack) (hmore : ∀ w ∈ done, w ∈ more) :
    Trail successors more above stack := by
  induction htrail with
  | nil above => exact .nil above
  | cons hlink hpending hsettled _ ih =>
    refine .cons hlink hpending (fun w hw => ?_) ih
    exact (hsettled w hw).imp_right (Or.imp_left (hmore w))

theorem Trail.uncover {v : α} {stack : List (α × List α)}
    (htrail : Trail successors done (some v) stack) : Trail successors (v :: done) none stack := by
  have hmore : ∀ w ∈ done, w ∈ v :: done := fun w hw => List.mem_cons_of_mem _ hw
  cases htrail with
  | nil => exact .nil none
  | cons _ hpending hsettled hbelow =>
    refine .cons (fun u hu => by cases hu) hpending (fun w hw => ?_) (hbelow.weaken hmore)
    rcases hsettled w hw with hw | hw | hw
    · exact Or.inl hw
    · exact Or.inr (Or.inl (hmore w hw))
    · rw [Option.some.injEq] at hw
      exact Or.inr (Or.inl (hw ▸ List.mem_cons_self ..))

theorem Trail.isChain {above : Option α} {stack : List (α × List α)}
    (htrail : Trail successors done above stack) :
    (stack.map Prod.fst).IsChain fun a b => a ∈ successors b := by
  induction htrail with
  | nil above => exact List.isChain_nil
  | cons _ _ _ hbelow ih =>
    cases hbelow with
    | nil => exact List.isChain_singleton _
    | cons hlink _ _ _ => exact List.isChain_cons_cons.mpr ⟨hlink _ rfl, ih⟩

end Trail

variable [DecidableEq α] {vertices : List α} {above : Option α} {s : Descent α}

/-- What is true of every state of the search, under a vertex that is about to be entered. -/
structure Sound (successors : α → List α) (vertices done : List α) (above : Option α)
    (s : Descent α) : Prop where
  finished : Finished successors done
  trail : Trail successors done above s.stack
  /-- The table of places lists the path and nothing else. -/
  place_iff : ∀ w i, s.places.lookup w = some i ↔ s.path[i]? = some w
  met : ∀ v ∈ vertices, v ∈ s.unmet ∨ v ∈ done ∨ v ∈ s.path

namespace Sound

theorem nodup_path (hs : Sound successors vertices done above s) : s.path.Nodup := by
  rw [List.nodup_iff_getElem?_ne_getElem?]
  intro i j hij hj hsame
  have hget : s.path[j]? = some s.path[j] := List.getElem?_eq_getElem hj
  have hi := (hs.place_iff _ i).mpr (hsame.trans hget)
  rw [(hs.place_iff _ j).mpr hget, Option.some.injEq] at hi
  omega

theorem notMem_path (hs : Sound successors vertices done above s) {w : α}
    (hplace : s.places.lookup w = none) : w ∉ s.path := by
  intro hw
  rcases List.mem_iff_getElem?.mp hw with ⟨i, hi⟩
  rw [(hs.place_iff w i).mpr hi] at hplace
  cases hplace

/-- The path goes back by a vertex all of whose successors have been looked at. -/
theorem leave (hs : Sound successors vertices done none s) {v : α} {below : List (α × List α)}
    (hstack : s.stack = (v, []) :: below) :
    Sound successors vertices (v :: done) none (s.leave v below) := by
  have hpath : s.path = (s.leave v below).path ++ [v] := by
    simp only [path, hstack, Descent.leave, List.map_cons, List.reverse_cons]
  have htrail := hs.trail
  rw [hstack] at htrail
  cases htrail with
  | cons _ _ hsettled hbelow =>
    refine ⟨.cons (fun w hw => ?_) hs.finished, hbelow.uncover, fun w i => ?_, fun u hu => ?_⟩
    · simpa using hsettled w hw
    · have hnodup := hs.nodup_path
      rw [hpath, List.nodup_append] at hnodup
      have hplace := hs.place_iff w i
      rw [hpath, getElem?_concat_eq_some_iff] at hplace
      rw [Descent.leave, lookup_filter_ne]
      by_cases hw : w = v
      · rw [if_pos hw]
        refine ⟨nofun, fun hc => ?_⟩
        exact absurd hw (hnodup.2.2 w (List.mem_of_getElem? hc) v (List.mem_singleton_self v))
      · rw [if_neg hw, hplace]
        exact or_iff_left fun hc => hw hc.2.symm
    · rcases hs.met u hu with hu | hu | hu
      · exact Or.inl hu
      · exact Or.inr (Or.inl (List.mem_cons_of_mem _ hu))
      · rw [hpath, List.mem_append, List.mem_singleton] at hu
        rcases hu with hu | rfl
        · exact Or.inr (Or.inr hu)
        · exact Or.inr (Or.inl List.mem_cons_self)

section Looking

variable (hs : Sound successors vertices done none s) {v w : α} {pending : List α}
  {below : List (α × List α)} (hstack : s.stack = (v, w :: pending) :: below)

include hs hstack

/-- The successor that is looked at is taken up: the path is about to go on to it. -/
theorem takeUp :
    Sound successors vertices done (some w) { s with stack := (v, pending) :: below } := by
  have hpath : (Descent.mk s.places s.unmet ((v, pending) :: below)).path = s.path := by
    simp only [path, hstack, List.map_cons]
  have htrail := hs.trail
  rw [hstack] at htrail
  cases htrail with
  | cons _ hpending hsettled hbelow =>
    refine ⟨hs.finished, .cons ?_ ?_ ?_ hbelow, hpath ▸ hs.place_iff, hpath ▸ hs.met⟩
    · intro u hu
      rw [Option.some.injEq] at hu
      exact hu ▸ hpending w List.mem_cons_self
    · exact fun u hu => hpending u (List.mem_cons_of_mem _ hu)
    · intro u hu
      rcases hsettled u hu with hu | hu | hu
      · rcases List.mem_cons.mp hu with rfl | hu
        · exact Or.inr (Or.inr rfl)
        · exact Or.inl hu
      · exact Or.inr (Or.inl hu)
      · cases hu

/-- A successor that has been met and is not on the path is done, and can be passed over. -/
theorem passOver (hvertices : ∀ a, ∀ b ∈ successors a, b ∈ vertices)
    (hplace : s.places.lookup w = none) (hmet : w ∉ s.unmet) :
    Sound successors vertices done none { s with stack := (v, pending) :: below } := by
  have htaken := hs.takeUp hstack
  cases htaken.trail with
  | cons hlink hpending hsettled hbelow =>
    have hdone : w ∈ done :=
      ((hs.met w (hvertices v w (hlink w rfl))).resolve_left hmet).resolve_right (hs.notMem_path hplace)
    refine ⟨hs.finished, .cons (fun u hu => by cases hu) hpending (fun u hu => ?_) hbelow,
      htaken.place_iff, htaken.met⟩
    rcases hsettled u hu with hu | hu | hu
    · exact Or.inl hu
    · exact Or.inr (Or.inl hu)
    · rw [Option.some.injEq] at hu
      exact Or.inr (Or.inl (hu ▸ hdone))

theorem isCycle {place : Nat} (hplace : s.places.lookup w = some place) :
    IsCycle (fun a b => b ∈ successors a) (s.path.drop place) := by
  have hstart : s.path[place]? = some w := (hs.place_iff w place).mp hplace
  have hlt : place < s.path.length := (List.getElem?_eq_some_iff.mp hstart).1
  have hpath : s.path = (below.map Prod.fst).reverse ++ [v] := by
    simp only [path, hstack, List.map_cons, List.reverse_cons]
  have hclosing : w ∈ successors v := by
    have htrail := hs.trail
    rw [hstack] at htrail
    cases htrail with
    | cons _ hpending _ _ => exact hpending w List.mem_cons_self
  have hchain : s.path.IsChain fun a b => b ∈ successors a :=
    List.isChain_reverse.mpr hs.trail.isChain
  refine ⟨?_, hs.nodup_path.sublist (List.drop_sublist ..), fun {i a b} ha hb => ?_⟩
  · rw [ne_eq, List.drop_eq_nil_iff]
    omega
  · rw [List.getElem?_drop] at ha hb
    rw [List.length_drop] at hb
    have hi : place + i < s.path.length := (List.getElem?_eq_some_iff.mp ha).1
    by_cases hnext : i + 1 < s.path.length - place
    · rw [Nat.mod_eq_of_lt hnext] at hb
      rw [List.getElem?_eq_some_iff] at ha hb
      rcases ha with ⟨_, rfl⟩
      rcases hb with ⟨hlt', rfl⟩
      exact List.isChain_iff_getElem.mp hchain (place + i) hlt'
    · -- The last vertex of the path leads back to the place of the successor.
      have hlast : i + 1 = s.path.length - place := by omega
      rw [← hlast, Nat.mod_self, Nat.add_zero, hstart, Option.some.injEq] at hb
      have hend : place + i = (below.map Prod.fst).reverse.length := by
        rw [hpath, List.length_append, List.length_singleton] at hlast
        omega
      rw [hpath, hend, List.getElem?_concat_length, Option.some.injEq] at ha
      rw [← ha, ← hb]
      exact hclosing

end Looking

theorem enter {w : α} (hs : Sound successors vertices done (some w) s)
    (hplace : s.places.lookup w = none) :
    Sound successors vertices done none (s.enter successors w) := by
  have hpath : (s.enter successors w).path = s.path ++ [w] := by
    simp only [path, Descent.enter, List.map_cons, List.reverse_cons]
  have hlength : s.stack.length = s.path.length := by
    rw [path, List.length_reverse, List.length_map]
  refine ⟨hs.finished, .cons (fun u hu => by cases hu) ?_ ?_ hs.trail, fun u i => ?_, fun u hu => ?_⟩
  · exact fun u hu => List.mem_reverse.mp hu
  · exact fun u hu => Or.inl (List.mem_reverse.mpr hu)
  · rw [hpath, getElem?_concat_eq_some_iff, ← hs.place_iff, Descent.enter, List.lookup_cons]
    by_cases hu : u = w
    · simp only [hu, beq_self_eq_true, hplace, hlength, reduceCtorEq, false_or, and_true,
        Option.some.injEq, eq_comm]
    · rw [beq_eq_false_iff_ne.mpr hu]
      exact (or_iff_left fun hc => hu hc.2.symm).symm
  · rw [hpath, List.mem_append, List.mem_singleton]
    by_cases hw : u = w
    · exact Or.inr (Or.inr (Or.inr hw))
    · refine (hs.met u hu).imp (fun hu => ?_) (Or.imp_right Or.inl)
      exact List.mem_filter.mpr ⟨hu, decide_eq_true hw⟩

end Sound

section Runs

/-- A search ends with a cycle, or with an empty path after which only certain vertices are unmet. -/
inductive Ends (successors : α → List α) (vertices : List α) (Unmet : α → Prop) :
    Except (List α) (Descent α) → Prop where
  | cycle {cycle : List α} : IsCycle (fun a b => b ∈ successors a) cycle →
      Ends successors vertices Unmet (.error cycle)
  | through {s : Descent α} {done : List α} : Sound successors vertices done none s → s.stack = [] →
      (∀ v ∈ s.unmet, Unmet v) → Ends successors vertices Unmet (.ok s)

theorem Ends.imp {Unmet Unmet' : α → Prop} {outcome : Except (List α) (Descent α)}
    (hends : Ends successors vertices Unmet outcome) (himp : ∀ v, Unmet v → Unmet' v) :
    Ends successors vertices Unmet' outcome := by
  cases hends with
  | cycle hcycle => exact .cycle hcycle
  | through hs hstack hunmet => exact .through hs hstack fun v hv => himp v (hunmet v hv)

theorem mem_unmet_enter_iff (w v : α) :
    v ∈ (s.enter successors w).unmet ↔ v ∈ s.unmet ∧ v ≠ w := by
  rw [enter, List.mem_filter, decide_eq_true_eq]

variable (hvertices : ∀ a, ∀ b ∈ successors a, b ∈ vertices)

include hvertices

/-- A descent keeps what is true of every state until it ends. -/
theorem ends_search (hs : Sound successors vertices done none s) :
    Ends successors vertices (· ∈ s.unmet) (s.search successors) := by
  fun_induction search successors s generalizing done with
  | case1 s hstack => exact .through hs hstack fun v hv => hv
  | case2 s v below hstack ih => exact ih (hs.leave hstack)
  | case3 s v w pending below hstack place hplace => exact .cycle (hs.isCycle hstack hplace)
  | case4 s v w pending below hstack hplace hunmet ih =>
    refine (ih ((hs.takeUp hstack).enter hplace)).imp fun u hu => ?_
    exact ((mem_unmet_enter_iff w u).mp hu).1
  | case5 s v w pending below hstack hplace hunmet ih =>
    exact ih (hs.passOver hstack hvertices hplace hunmet)

theorem ends_visit (hs : Sound successors vertices done none s) (hstack : s.stack = []) (root : α) :
    Ends successors vertices (fun v => v ∈ s.unmet ∧ v ≠ root) (s.visit successors root) := by
  unfold visit
  split
  · next hroot =>
      have hplace : s.places.lookup root = none := by
        rw [Option.eq_none_iff_forall_ne_some]
        intro i hi
        rw [hs.place_iff, path, hstack] at hi
        cases hi
      have habove : Sound successors vertices done (some root) s :=
        ⟨hs.finished, hstack ▸ Trail.nil (some root), hs.place_iff, hs.met⟩
      exact (ends_search hvertices (habove.enter hplace)).imp fun v hv =>
        (mem_unmet_enter_iff root v).mp hv
  · next hroot =>
      exact .through hs hstack fun v hv => ⟨hv, fun hc => hroot (hc ▸ hv)⟩

/-- The roots are met when the turns of all of them are over. -/
theorem ends_foldlM_visit (hs : Sound successors vertices done none s) (hstack : s.stack = [])
    (roots : List α) :
    Ends successors vertices (fun v => v ∈ s.unmet ∧ v ∉ roots)
      (roots.foldlM (visit successors) s) := by
  induction roots generalizing s done with
  | nil => exact .through hs hstack fun v hv => ⟨hv, List.not_mem_nil⟩
  | cons root roots ih =>
    rw [List.foldlM_cons]
    have hvisit := ends_visit hvertices hs hstack root
    generalize s.visit successors root = outcome at hvisit ⊢
    cases hvisit with
    | cycle hcycle => exact .cycle hcycle
    | through hs' hstack' hunmet =>
      refine (ih hs' hstack').imp fun v hv => ?_
      rw [List.mem_cons, not_or]
      exact ⟨(hunmet v hv.1).1, (hunmet v hv.1).2, hv.2⟩

end Runs

end Descent

section Outcome

open Descent

variable {α : Type} [DecidableEq α] {successors : α → List α} {vertices : List α}
  (hvertices : ∀ a, ∀ b ∈ successors a, b ∈ vertices)

include hvertices

theorem ends_descent (roots : List α) : Ends successors vertices (fun v => v ∈ vertices ∧ v ∉ roots)
    (roots.foldlM (visit successors) (start vertices)) := by
  have hstart : Sound successors vertices [] none (start vertices) :=
    ⟨.nil, .nil none, fun w i => by simp [start, path], fun v hv => Or.inl hv⟩
  exact ends_foldlM_visit hvertices hstart rfl roots

theorem isCycle_of_findCycle? {roots cycle : List α}
    (hfound : findCycle? successors vertices roots = some cycle) :
    IsCycle (fun a b => b ∈ successors a) cycle := by
  have hends := ends_descent hvertices roots
  unfold findCycle? at hfound
  generalize roots.foldlM (visit successors) (start vertices) = outcome at hends hfound
  cases hends with
  | cycle hcycle =>
    cases hfound
    exact hcycle
  | through => cases hfound

/-- A cycle is found if there is one, provided that the search starts from every vertex that has
    successors. -/
theorem findCycle?_eq_none_iff {roots : List α} (hroots : ∀ a, ∀ b ∈ successors a, a ∈ roots)
    (hlisted : ∀ a ∈ roots, a ∈ vertices) :
    findCycle? successors vertices roots = none ↔ Acyclic fun a b => b ∈ successors a := by
  constructor
  · intro hnone a hcycle
    have hends := ends_descent hvertices roots
    unfold findCycle? at hnone
    generalize roots.foldlM (visit successors) (start vertices) = outcome at hends hnone
    cases hends with
    | cycle => cases hnone
    | through hs hstack hunmet =>
      rcases TransGen.head'_iff.mp hcycle with ⟨b, hedge, _⟩
      have ha := hroots a b hedge
      have hdone := (hs.met a (hlisted a ha)).resolve_left fun hc => (hunmet a hc).2 ha
      rw [path, hstack] at hdone
      exact hs.finished.not_cycle (hdone.resolve_right List.not_mem_nil) hcycle
  · intro hacyclic
    cases hfound : findCycle? successors vertices roots with
    | none => rfl
    | some cycle => exact absurd hacyclic (isCycle_of_findCycle? hvertices hfound).not_acyclic

end Outcome

end Graph

end Isolation
