import Isolation.Proofs.Witness.Serial
import Isolation.Proofs.Lists

/-!
# Runs of Split Commit Orders

A split commit order is replayed entry by entry. What the run holds after some entries can be read off
from these entries: what has been installed, who has started and with which snapshot, who has committed.
So whether an entry is admitted depends on the entries before it and on nothing else, and the replay
succeeds exactly if every entry is admitted by those before it.

## Main definitions

* `Admits`: What the entries before it have to be for an entry to be accepted.

## Theorems

* `foldlM_step?_iff`: A run accepts a list exactly if every entry is admitted by those before it.
-/

namespace Isolation

/-- The transactions whose starts are listed, in order. -/
def startsIn (order : List (TransactionId × Phase)) : List TransactionId :=
  (order.filter fun entry => entry.2 = .start).map Prod.fst

section Listed

variable (order : List (TransactionId × Phase))

theorem mem_phase_iff (phase : Phase) (id : TransactionId) :
    id ∈ (order.filter fun entry => entry.2 = phase).map Prod.fst ↔ (id, phase) ∈ order := by
  simp only [List.mem_map, List.mem_filter, decide_eq_true_eq]
  constructor
  · rintro ⟨⟨other, _⟩, ⟨hmem, rfl⟩, rfl⟩
    exact hmem
  · intro hmem
    exact ⟨(id, phase), ⟨hmem, rfl⟩, rfl⟩

theorem mem_committedIn_iff (id : TransactionId) : id ∈ committedIn order ↔ (id, .commit) ∈ order :=
  mem_phase_iff order .commit id

theorem mem_startsIn_iff (id : TransactionId) : id ∈ startsIn order ↔ (id, .start) ∈ order :=
  mem_phase_iff order .start id

theorem committedIn_append (rest : List (TransactionId × Phase)) :
    committedIn (order ++ rest) = committedIn order ++ committedIn rest := by
  rw [committedIn, List.filter_append, List.map_append]
  rfl

theorem startsIn_append (rest : List (TransactionId × Phase)) :
    startsIn (order ++ rest) = startsIn order ++ startsIn rest := by
  rw [startsIn, List.filter_append, List.map_append]
  rfl

variable {order}

theorem pairwise_committedIn {R : TransactionId → TransactionId → Prop}
    (hpair : order.Pairwise fun a b => a.2 = .commit → b.2 = .commit → R a.1 b.1) :
    (committedIn order).Pairwise R := by
  rw [committedIn, List.pairwise_map, List.pairwise_filter]
  simpa only [decide_eq_true_eq] using hpair

theorem nodup_committedIn (hnodup : order.Nodup) : (committedIn order).Nodup := by
  refine pairwise_committedIn (hnodup.imp ?_)
  rintro ⟨a, p⟩ ⟨b, q⟩ hne rfl rfl heq
  exact hne (by rw [show a = b from heq])

theorem nodup_startsIn (hnodup : order.Nodup) : (startsIn order).Nodup := by
  rw [startsIn, List.nodup_iff_pairwise_ne, List.pairwise_map, List.pairwise_filter]
  refine hnodup.imp ?_
  rintro ⟨a, p⟩ ⟨b, q⟩ hne hp hq heq
  rw [decide_eq_true_eq] at hp hq
  simp only at hp hq heq
  exact hne (by rw [heq, hp, hq])

theorem nodup_of_notMem_before {α : Type} {l : List α}
    (hnew : ∀ before x after, l = before ++ x :: after → x ∉ before) : l.Nodup := by
  induction l using List.reverseRecOn with
  | nil => exact List.nodup_nil
  | append_singleton rest x ih =>
    refine List.nodup_append.mpr ⟨ih ?_, List.nodup_singleton x, ?_⟩
    · intro before y after hsplit
      exact hnew before y (after ++ [x]) (by rw [hsplit, List.append_assoc, List.cons_append])
    · rintro a ha b hb rfl
      rw [List.mem_singleton] at hb
      exact hnew rest x [] rfl (hb ▸ ha)

end Listed

section Run

variable {κ ν : Type} [DecidableEq κ] [DecidableEq ν]

/-- What a run holds after the given entries. -/
structure SplitRun.After (h : History κ ν) (before : List (TransactionId × Phase))
    (run : SplitRun κ ν) : Prop where
  installed : run.installed = h.installedBy (.init :: committedIn before)
  committed : run.committed = (committedIn before).reverse
  started : run.started.map Prod.fst = (startsIn before).reverse
  /-- A snapshot holds the commits before the start, and that of the init transaction. -/
  size : ∀ id size, (id, size) ∈ run.started →
    ∃ p q, before = p ++ (id, .start) :: q ∧ size = (committedIn p).length + 1
  known : ∀ id ∈ committedIn before, ∃ t, h.transaction? id = some t

/-- What the entries before it have to be for an entry to be accepted. -/
def Admits (h : History κ ν) (before : List (TransactionId × Phase)) :
    TransactionId × Phase → Prop
  | (id, .start) =>
    (∃ t, h.transaction? id = some t) ∧ (id, .start) ∉ before ∧
      ∀ height, id.height = height + 1 →
        (committedIn before).reverse.find? (fun other => other.session == id.session) =
          some ⟨id.session, height⟩
  | (id, .commit) =>
    (id, .commit) ∉ before ∧ ∃ t p q, h.transaction? id = some t ∧
      before = p ++ (id, .start) :: q ∧
      t.readsMatch (latestValue? (h.installedBy (.init :: committedIn p))) = true ∧
      ∀ u ∈ h.installedBy (committedIn q), ∀ key, t.writesKey key = true → u.writesKey key = false

omit [DecidableEq κ] [DecidableEq ν] in
/-- The predecessor is looked for only if there is one. -/
theorem predecessorCommitted_iff (run : SplitRun κ ν) (id : TransactionId) :
    run.predecessorCommitted id = true ↔ ∀ height, id.height = height + 1 →
      run.committed.find? (fun other => other.session == id.session) =
        some ⟨id.session, height⟩ := by
  unfold SplitRun.predecessorCommitted
  cases hheight : id.height with
  | zero =>
    refine ⟨fun _ height hc => ?_, fun _ => rfl⟩
    exact absurd hc (by omega)
  | succ k =>
    simp only [beq_iff_eq, Nat.add_right_cancel_iff]
    exact ⟨fun hfind height hk => hk ▸ hfind, fun hall => hall k rfl⟩

omit [DecidableEq κ] [DecidableEq ν] in
theorem History.length_installedBy {h : History κ ν} {ids : List TransactionId}
    (hknown : ∀ id ∈ ids, ∃ t, h.transaction? id = some t) :
    (h.installedBy ids).length = ids.length := by
  rw [installedBy, List.length_reverse]
  induction ids with
  | nil => rfl
  | cons id rest ih =>
    rcases hknown id List.mem_cons_self with ⟨t, ht⟩
    rw [List.filterMap_cons, ht, List.length_cons, List.length_cons,
      ih (fun other hother => hknown other (List.mem_cons_of_mem _ hother))]

omit [DecidableEq κ] [DecidableEq ν] in
theorem History.installedBy_append (h : History κ ν) (ids rest : List TransactionId) :
    h.installedBy (ids ++ rest) = h.installedBy rest ++ h.installedBy ids := by
  rw [installedBy, List.filterMap_append, List.reverse_append]
  rfl

variable {h : History κ ν} {before : List (TransactionId × Phase)} {run run' : SplitRun κ ν}

namespace SplitRun.After

omit [DecidableEq κ] [DecidableEq ν] in
theorem length_installed (hafter : run.After h before) :
    run.installed.length = (committedIn before).length + 1 := by
  rw [hafter.installed, History.length_installedBy, List.length_cons]
  intro id hid
  rcases List.mem_cons.mp hid with rfl | hid
  · exact ⟨h.init, rfl⟩
  · exact hafter.known id hid

omit [DecidableEq κ] [DecidableEq ν] in
theorem lookup_isNone_iff (hafter : run.After h before) (id : TransactionId) :
    (run.started.lookup id).isNone = true ↔ (id, .start) ∉ before := by
  rw [← mem_startsIn_iff, ← List.mem_reverse, ← hafter.started, Option.isNone_iff_eq_none,
    List.lookup_eq_none_iff, List.mem_map]
  simp only [bne_iff_ne, ne_eq, not_exists, not_and]
  exact ⟨fun hall entry hentry heq => hall entry hentry heq.symm,
    fun hall entry hentry heq => hall entry hentry heq.symm⟩

omit [DecidableEq κ] [DecidableEq ν] in
/-- A start is accepted if the session predecessor was the last to commit and there was no start
    before. -/
theorem start?_eq_some_iff (hafter : run.After h before) (id : TransactionId) :
    run.start? id = some run' ↔
      ((id, .start) ∉ before ∧ ∀ height, id.height = height + 1 →
        (committedIn before).reverse.find? (fun other => other.session == id.session) =
          some ⟨id.session, height⟩) ∧
      run' = { run with started := (id, run.installed.length) :: run.started } := by
  rw [← hafter.committed, ← predecessorCommitted_iff, ← hafter.lookup_isNone_iff, SplitRun.start?]
  by_cases hc : (run.predecessorCommitted id && (run.started.lookup id).isNone) = true
  · rw [if_pos hc, Option.some.injEq]
    rw [Bool.and_eq_true] at hc
    exact ⟨fun heq => ⟨⟨hc.2, hc.1⟩, heq.symm⟩, fun hall => hall.2.symm⟩
  · rw [if_neg hc]
    rw [Bool.and_eq_true] at hc
    exact ⟨fun heq => absurd heq (by simp),
      fun hall => absurd ⟨hall.1.2, hall.1.1⟩ hc⟩

omit [DecidableEq κ] [DecidableEq ν] in
/-- What was installed since a start lies in front of what the snapshot holds. -/
theorem installed_split (hafter : run.After h before) {p q : List (TransactionId × Phase)}
    {id : TransactionId} (hsplit : before = p ++ (id, .start) :: q) :
    run.installed.take (run.installed.length - ((committedIn p).length + 1)) =
        h.installedBy (committedIn q) ∧
      run.installed.drop (run.installed.length - ((committedIn p).length + 1)) =
        h.installedBy (.init :: committedIn p) := by
  have hcommits : committedIn before = committedIn p ++ committedIn q := by
    rw [hsplit, committedIn_append]
    rfl
  have hinst : run.installed =
      h.installedBy (committedIn q) ++ h.installedBy (.init :: committedIn p) := by
    rw [hafter.installed, hcommits, ← List.cons_append, History.installedBy_append]
  have hlen : (h.installedBy (committedIn q)).length = (committedIn q).length := by
    refine History.length_installedBy (fun other hother => hafter.known other ?_)
    rw [hcommits]
    exact List.mem_append_right _ hother
  have hdiff : run.installed.length - ((committedIn p).length + 1) =
      (h.installedBy (committedIn q)).length := by
    rw [hafter.length_installed, hcommits, List.length_append, hlen]
    omega
  rw [hdiff, hinst]
  exact ⟨List.take_left, List.drop_left⟩

/-- A commit is accepted if it is the first one behind a start, the reads match the snapshot, and nobody
    who committed in between wrote one of the keys. -/
theorem commit?_eq_some_iff (hafter : run.After h before) (hnodup : before.Nodup)
    (id : TransactionId) (t : Transaction κ ν) :
    run.commit? id t = some run' ↔
      ((id, .commit) ∉ before ∧ ∃ p q, before = p ++ (id, .start) :: q ∧
        t.readsMatch (latestValue? (h.installedBy (.init :: committedIn p))) = true ∧
        ∀ u ∈ h.installedBy (committedIn q), ∀ key, t.writesKey key = true →
          u.writesKey key = false) ∧
      run' = { run with installed := t :: run.installed, committed := id :: run.committed } := by
  have hcontains : run.committed.contains id = true ↔ (id, .commit) ∈ before := by
    rw [hafter.committed, List.contains_iff_mem, List.mem_reverse, mem_committedIn_iff]
  have hdisjoint : ∀ meanwhile : List (Transaction κ ν),
      t.writes.all (fun e => !meanwhile.any (Transaction.writesKey e.key)) = true ↔
        ∀ u ∈ meanwhile, ∀ key, t.writesKey key = true → u.writesKey key = false := by
    intro meanwhile
    simp only [List.all_eq_true, Bool.not_eq_true', List.any_eq_false, Bool.not_eq_true,
      Transaction.writes, List.mem_filter]
    constructor
    · intro hall u hu key hkey
      rcases List.any_eq_true.mp hkey with ⟨e, he, hwrites⟩
      rcases (writesKey_iff key e).mp hwrites with ⟨hwrite, rfl⟩
      exact hall e ⟨he, hwrite⟩ u hu
    · rintro hall e ⟨he, hwrite⟩ u hu
      exact hall u hu e.key (List.any_eq_true.mpr ⟨e, he, (writesKey_iff e.key e).mpr ⟨hwrite, rfl⟩⟩)
  unfold SplitRun.commit?
  cases hlook : run.started.lookup id with
  | none =>
    have hnone := (hafter.lookup_isNone_iff id).mp (by rw [hlook]; rfl)
    simp only [Option.bind_eq_bind, Option.bind_none, reduceCtorEq, false_iff]
    rintro ⟨⟨_, p, q, hsplit, _⟩, _⟩
    exact hnone (by rw [hsplit]; exact List.mem_append_right _ List.mem_cons_self)
  | some size =>
    have hstarted : (id, size) ∈ run.started := by
      rcases List.lookup_eq_some_iff.mp hlook with ⟨l, l', heq, _⟩
      rw [heq]
      exact List.mem_append_right _ List.mem_cons_self
    rcases hafter.size id size hstarted with ⟨p, q, hsplit, rfl⟩
    rcases hafter.installed_split hsplit with ⟨htake, hdrop⟩
    -- The entry of the start occurs once, so there is only one way to split.
    have hunique : ∀ p' q', before = p' ++ (id, .start) :: q' → p = p' ∧ q = q' := by
      intro p' q' hsplit'
      rw [hsplit, List.nodup_append, List.nodup_cons] at hnodup
      have hp : (id, Phase.start) ∉ p := fun hc => hnodup.2.2 _ hc _ List.mem_cons_self rfl
      rcases (List.append_cons_inj_of_notMem hp hnodup.2.1.1).mp (hsplit.symm.trans hsplit') with
        ⟨heq, _, heq'⟩
      exact ⟨heq, heq'⟩
    simp only [Option.bind_eq_bind, Option.bind_some, htake, hdrop]
    by_cases hc : (!run.committed.contains id &&
        t.readsMatch (latestValue? (h.installedBy (.init :: committedIn p))) &&
        t.writes.all (fun e => !(h.installedBy (committedIn q)).any
          (Transaction.writesKey e.key))) = true
    · rw [if_pos hc, Option.some.injEq]
      rw [Bool.and_eq_true, Bool.and_eq_true, hdisjoint, Bool.not_eq_true', ← Bool.not_eq_true,
        hcontains] at hc
      exact ⟨fun heq => ⟨⟨hc.1.1, p, q, hsplit, hc.1.2, hc.2⟩, heq.symm⟩, fun hall => hall.2.symm⟩
    · rw [if_neg hc]
      rw [Bool.and_eq_true, Bool.and_eq_true, hdisjoint, Bool.not_eq_true', ← Bool.not_eq_true,
        hcontains] at hc
      refine ⟨fun heq => absurd heq (by simp), ?_⟩
      rintro ⟨⟨hnew, p', q', hsplit', hmatch, hfree⟩, _⟩
      rcases hunique p' q' hsplit' with ⟨rfl, rfl⟩
      exact absurd ⟨⟨hnew, hmatch⟩, hfree⟩ hc

end SplitRun.After

/-- One step accepts exactly the entries that are admitted by those before. -/
theorem step?_isSome_iff (hafter : run.After h before) (hnodup : before.Nodup)
    (entry : TransactionId × Phase) :
    (∃ run', SplitRun.step? h run entry = some run') ↔ Admits h before entry := by
  rcases entry with ⟨id, phase⟩
  rw [SplitRun.step?]
  cases ht : h.transaction? id with
  | none =>
    simp only [Option.bind_none, reduceCtorEq, exists_false, false_iff]
    cases phase with
    | start =>
      rintro ⟨⟨t, ht'⟩, _⟩
      rw [ht] at ht'
      cases ht'
    | commit =>
      rintro ⟨_, t, _, _, ht', _⟩
      rw [ht] at ht'
      cases ht'
  | some t =>
    rw [Option.bind_some]
    cases phase with
    | start =>
      simp only [hafter.start?_eq_some_iff, Admits, exists_and_left, exists_eq, and_true, ht,
        Option.some.injEq, exists_eq', true_and]
    | commit =>
      simp only [hafter.commit?_eq_some_iff hnodup, Admits, exists_and_left, exists_eq, and_true,
        ht, Option.some.injEq, exists_eq_left']

/-- What a step leaves behind. -/
theorem step?_after (hafter : run.After h before) (hnodup : before.Nodup)
    {entry : TransactionId × Phase} (hstep : SplitRun.step? h run entry = some run') :
    run'.After h (before ++ [entry]) := by
  rcases entry with ⟨id, phase⟩
  rw [SplitRun.step?, Option.bind_eq_some_iff] at hstep
  rcases hstep with ⟨t, ht, hstep⟩
  cases phase with
  | start =>
    rcases (hafter.start?_eq_some_iff id).mp hstep with ⟨_, rfl⟩
    have hcommits : committedIn (before ++ [(id, .start)]) = committedIn before := by
      rw [committedIn_append]
      exact List.append_nil _
    refine ⟨by rw [hcommits]; exact hafter.installed, by rw [hcommits]; exact hafter.committed,
      ?_, ?_, by rw [hcommits]; exact hafter.known⟩
    · rw [startsIn_append, List.reverse_append, ← hafter.started]
      rfl
    · intro other size hmem
      rcases List.mem_cons.mp hmem with heq | hmem
      · rw [Prod.mk.injEq] at heq
        exact ⟨before, [], by rw [heq.1], by rw [heq.2, hafter.length_installed]⟩
      · rcases hafter.size other size hmem with ⟨p, q, hsplit, hsize⟩
        exact ⟨p, q ++ [(id, .start)], by rw [hsplit, List.append_assoc, List.cons_append], hsize⟩
  | commit =>
    rcases (hafter.commit?_eq_some_iff hnodup id t).mp hstep with ⟨_, rfl⟩
    have hcommits : committedIn (before ++ [(id, .commit)]) = committedIn before ++ [id] := by
      rw [committedIn_append]
      rfl
    refine ⟨?_, ?_, ?_, ?_, ?_⟩
    · rw [hcommits, ← List.cons_append, History.installedBy_append, ← hafter.installed]
      simp only [History.installedBy, List.filterMap_cons, ht, List.filterMap_nil,
        List.reverse_singleton, List.singleton_append]
    · rw [hcommits, List.reverse_append, ← hafter.committed]
      rfl
    · have hstarts : startsIn (before ++ [(id, .commit)]) = startsIn before := by
        rw [startsIn_append]
        exact List.append_nil _
      rw [hstarts]
      exact hafter.started
    · intro other size hmem
      rcases hafter.size other size hmem with ⟨p, q, hsplit, hsize⟩
      exact ⟨p, q ++ [(id, .commit)], by rw [hsplit, List.append_assoc, List.cons_append], hsize⟩
    · intro other hother
      rw [hcommits] at hother
      rcases List.mem_append.mp hother with hother | hother
      · exact hafter.known other hother
      · rw [List.mem_singleton] at hother
        exact ⟨t, by rw [hother]; exact ht⟩

omit [DecidableEq κ] [DecidableEq ν] in
theorem after_nil : SplitRun.After h [] ⟨[h.init], [], []⟩ := by
  refine ⟨rfl, rfl, rfl, ?_, ?_⟩
  · intro id size hmem
    exact absurd hmem List.not_mem_nil
  · intro id hmem
    exact absurd hmem List.not_mem_nil

theorem Admits.notMem {entry : TransactionId × Phase} (hadmits : Admits h before entry) :
    entry ∉ before := by
  rcases entry with ⟨id, phase⟩
  cases phase with
  | start => exact hadmits.2.1
  | commit => exact hadmits.1

/-- A run accepts a list exactly if every entry is admitted by those before it; and then what the run
    holds is what the list says. -/
theorem foldlM_step?_iff (h : History κ ν) (order : List (TransactionId × Phase)) :
    ((∃ run, order.foldlM (SplitRun.step? h) ⟨[h.init], [], []⟩ = some run) ↔
      ∀ before entry after, order = before ++ entry :: after → Admits h before entry) ∧
    ∀ run, order.foldlM (SplitRun.step? h) ⟨[h.init], [], []⟩ = some run → run.After h order := by
  induction order using List.reverseRecOn with
  | nil =>
    refine ⟨⟨fun _ before entry after hc => ?_, fun _ => ⟨_, rfl⟩⟩, ?_⟩
    · exact absurd hc.symm (by simp)
    · intro run hrun
      simp only [List.foldlM_nil, Option.pure_def, Option.some.injEq] at hrun
      rw [← hrun]
      exact after_nil
  | append_singleton rest entry ih =>
    rcases ih with ⟨ihiff, ihafter⟩
    have hnodup : ∀ run, rest.foldlM (SplitRun.step? h) ⟨[h.init], [], []⟩ = some run →
        rest.Nodup := by
      intro run hrun
      refine nodup_of_notMem_before (fun before x after hsplit => ?_)
      exact (ihiff.mp ⟨run, hrun⟩ before x after hsplit).notMem
    simp only [List.foldlM_append, List.foldlM_cons, List.foldlM_nil, Option.bind_eq_bind,
      Option.pure_def, Option.bind_fun_some, Option.bind_eq_some_iff]
    refine ⟨⟨?_, ?_⟩, ?_⟩
    · rintro ⟨run', run, hrun, hstep⟩ before x after hsplit
      have hstep' := (step?_isSome_iff (ihafter run hrun) (hnodup run hrun) entry).mp ⟨run', hstep⟩
      rcases split_concat_cases hsplit with ⟨rfl, rfl⟩ | ⟨after', hrest⟩
      · exact hstep'
      · exact ihiff.mp ⟨run, hrun⟩ before x after' hrest
    · intro hall
      have hrest : ∃ run, rest.foldlM (SplitRun.step? h) ⟨[h.init], [], []⟩ = some run := by
        refine ihiff.mpr (fun before x after hsplit => ?_)
        exact hall before x (after ++ [entry])
          (by rw [hsplit, List.append_assoc, List.cons_append])
      rcases hrest with ⟨run, hrun⟩
      rcases (step?_isSome_iff (ihafter run hrun) (hnodup run hrun) entry).mpr
        (hall rest entry [] rfl) with ⟨run', hstep⟩
      exact ⟨run', run, hrun, hstep⟩
    · rintro run' ⟨run, hrun, hstep⟩
      exact step?_after (ihafter run hrun) (hnodup run hrun) hstep

end Run

end Isolation
