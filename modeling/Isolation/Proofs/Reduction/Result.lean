import Isolation.Proofs.History.Steps
import Isolation.Proofs.Reduction.Halves

/-!
# The Result of a Reduction

The reduction is carried out by building steps, and a building step can be refused. Here it is shown that
none is: the reduction of a well-formed history always gives a result, and the result is `History.reduced`,
the history in which every transaction is replaced by its halves.

The only step that needs a reason is a write, whose value must be new. The values that a reduction stores are
listed in the order in which they are stored, and the list has no duplicates. Those of the transactions are
new because they were new when the history was built. Those of a conflict key are two, and its number tells
the one transaction whose read half writes the first and the one whose write half writes the second.

## Main definitions

* `History.reduced`: The history of the halves.

## Theorems

* `reduce_eq_ok`, `built_reduced`: The result of a reduction, and that it can be built.
-/

namespace Isolation.History

variable {κ ν : Type}

/-- The values that events store, with their keys. -/
def stored (events : List (HalfEvent κ ν)) : List (ReducedKey κ × ReducedValue ν) :=
  (events.filter fun e => e.kind = .write).map fun e => (e.key, e.value)

section Fresh

theorem stored_append (es fs : List (HalfEvent κ ν)) : stored (es ++ fs) = stored es ++ stored fs := by
  rw [stored, List.filter_append, List.map_append]
  rfl

theorem mem_stored_iff (es : List (HalfEvent κ ν)) (key : ReducedKey κ) (value : ReducedValue ν) :
    (key, value) ∈ stored es ↔ ∃ e ∈ es, e.kind = .write ∧ e.key = key ∧ e.value = value := by
  simp only [stored, List.mem_map, List.mem_filter, decide_eq_true_eq, Prod.mk.injEq, and_assoc]

variable {h : History κ ν} (hw : h.WellFormed)

include hw

variable [DecidableEq κ]

omit hw in
theorem id_eq_of_stamps {a b : TransactionId} {side : Half} {n : Nat} (ha : h.Stamps a side n)
    (hb : h.Stamps b side n) : a = b := by
  cases side with
  | reading =>
    rcases ha with ⟨u, hu⟩
    rcases hb with ⟨v, hv⟩
    rw [hu, Option.some.injEq, Prod.mk.injEq] at hv
    exact hv.1
  | writing =>
    rcases ha with ⟨u, hu⟩
    rcases hb with ⟨v, hv⟩
    rw [hu, Option.some.injEq, Prod.mk.injEq] at hv
    exact hv.2

theorem WellFormed.nodup_stored_plainEvents {t : Transaction κ ν} (ht : t ∈ h.transactions) :
    (stored (plainEvents t)).Nodup := by
  have hwrites : stored (plainEvents t) = (t.events.filter Event.isWrite).map fun e =>
      (.plain e.key, .plain e.value) := by
    have hside : (plainEvents t).filter (fun e => e.kind = .write) =
        (plainEvents t).filter fun e => e.half = .writing := by
      refine List.filter_congr fun e he => ?_
      rcases (mem_plainEvents_iff t e).mp he with ⟨_, _, _, rfl⟩ | ⟨_, _, _, _, _, rfl⟩ <;> rfl
    rw [stored, hside, filter_writing_plainEvents, List.map_map]
    rfl
  rw [hwrites, List.Nodup, List.pairwise_map]
  refine (hw.pairwise_writes ht).imp ?_
  intro e f hne heq
  rw [Prod.mk.injEq, ReducedKey.plain.injEq, ReducedValue.plain.injEq] at heq
  exact hne heq

omit hw in
variable (h) in
theorem nodup_stored_conflictEvents (id : TransactionId) :
    (stored ((slotsOf h.conflictSlots id).flatMap fun pair =>
      (conflictEvents pair.1 pair.2 : List (HalfEvent κ ν)))).Nodup := by
  have hflat : stored ((slotsOf h.conflictSlots id).flatMap fun pair =>
      (conflictEvents pair.1 pair.2 : List (HalfEvent κ ν))) =
      (slotsOf h.conflictSlots id).flatMap fun pair =>
        [(.conflict pair.1, .generated (stamp .reading pair.1)),
          (.conflict pair.2, .generated (stamp .writing pair.2))] := by
    rw [stored, List.filter_flatMap, List.map_flatMap]
    rfl
  rw [hflat, List.nodup_flatMap]
  refine ⟨?_, (h.pairwise_slotsOf id).imp ?_⟩
  · intro pair _
    rw [List.nodup_cons, List.mem_singleton, Prod.mk.injEq, ReducedValue.generated.injEq]
    refine ⟨fun heq => ?_, List.nodup_singleton _⟩
    exact absurd (stamp_inj heq.2).1 (by simp)
  · rintro x y ⟨hfst, hsnd⟩ ⟨key, value⟩ hx hy
    simp only [List.mem_cons, List.not_mem_nil, or_false, Prod.mk.injEq] at hx hy
    rcases hx with ⟨hkx, hvx⟩ | ⟨hkx, hvx⟩ <;> rcases hy with ⟨hky, hvy⟩ | ⟨hky, hvy⟩ <;>
      rw [hvx, ReducedValue.generated.injEq] at hvy
    · exact hfst (stamp_inj hvy).2
    · exact absurd (stamp_inj hvy).1 (by simp)
    · exact absurd (stamp_inj hvy).1 (by simp)
    · exact hsnd (stamp_inj hvy).2

theorem WellFormed.disjoint_stored {t u : Transaction κ ν} (ht : t ∈ h.transactions)
    (hu : u ∈ h.transactions) (hne : t.id ≠ u.id) :
    (stored (halfEvents h.conflictSlots t)).Disjoint (stored (halfEvents h.conflictSlots u)) := by
  rintro ⟨key, value⟩ hx hy
  rcases (mem_stored_iff _ key value).mp hx with ⟨e, he, hwe, rfl, rfl⟩
  rcases (mem_stored_iff _ _ _).mp hy with ⟨f, hf, hwf, hkey, hvalue⟩
  rcases halfEvents_write_cases he hwe with ⟨e', he', hwe', rfl⟩ | ⟨n, hn, heq⟩
  · rcases halfEvents_write_cases hf hwf with ⟨f', hf', hwf', rfl⟩ | ⟨m, _, heq'⟩
    · refine hne (hw.id_eq_of_writes ht hu he' hf' hwe' hwf' ?_ ?_)
      · exact (ReducedKey.plain.inj hkey).symm
      · exact (ReducedValue.plain.inj hvalue).symm
    · rw [heq'] at hkey
      cases hkey
  · rw [heq] at hkey hvalue
    rcases halfEvents_write_cases hf hwf with ⟨f', hf', hwf', rfl⟩ | ⟨m, hm, heq'⟩
    · cases hkey
    · rw [heq', ReducedValue.generated.injEq] at hvalue
      rcases stamp_inj hvalue with ⟨hside, rfl⟩
      rw [hside] at hm
      exact hne (id_eq_of_stamps hn hm)

theorem WellFormed.nodup_stored :
    (h.init.events.map (fun e => ((.plain e.key, .plain e.value) : ReducedKey κ × ReducedValue ν)) ++
      h.clientTransactions.flatMap fun t => stored (halfEvents h.conflictSlots t)).Nodup := by
  have hinit : h.init ∈ h.transactions := List.mem_cons_self ..
  refine List.nodup_append'.mpr ⟨?_, List.nodup_flatMap.mpr ⟨?_, ?_⟩, ?_⟩
  · have hwrites := hw.pairwise_writes hinit
    rw [List.filter_eq_self.mpr hw.init_writes] at hwrites
    rw [List.Nodup, List.pairwise_map]
    refine hwrites.imp ?_
    intro e f hne heq
    rw [Prod.mk.injEq, ReducedKey.plain.injEq, ReducedValue.plain.injEq] at heq
    exact hne heq
  · intro t ht
    rw [halfEvents_eq_append, stored_append, List.nodup_append']
    refine ⟨hw.nodup_stored_plainEvents (mem_transactions_of_client ht),
      nodup_stored_conflictEvents h t.id, ?_⟩
    -- A value of the history is never stored under a conflict key.
    rintro ⟨key, value⟩ hx hy
    rcases (mem_stored_iff _ key value).mp hx with ⟨e, he, _, rfl, rfl⟩
    rcases (mem_stored_iff _ _ _).mp hy with ⟨f, hf, _, hkey, _⟩
    simp only [List.mem_flatMap, conflictEvents, List.mem_cons, List.not_mem_nil, or_false] at hf
    rcases (mem_plainEvents_iff t e).mp he with ⟨_, _, _, rfl⟩ | ⟨_, _, _, _, _, rfl⟩ <;>
      rcases hf with ⟨_, _, rfl | rfl | rfl⟩ <;>
      cases hkey
  · have hids := hw.nodup_clientIds
    rw [List.Nodup, List.pairwise_map] at hids
    exact hids.imp_of_mem fun ht hu hne =>
      hw.disjoint_stored (mem_transactions_of_client ht) (mem_transactions_of_client hu) hne
  · rintro ⟨key, value⟩ hx hy
    rcases List.mem_map.mp hx with ⟨e, he, heq⟩
    rcases List.mem_flatMap.mp hy with ⟨t, ht, hmem⟩
    rw [Prod.mk.injEq] at heq
    rcases heq with ⟨rfl, rfl⟩
    rcases (mem_stored_iff _ _ _).mp hmem with ⟨f, hf, hwf, hkey, hvalue⟩
    rcases halfEvents_write_cases hf hwf with ⟨f', hf', hwf', rfl⟩ | ⟨m, _, heq'⟩
    · have hid := hw.id_eq_of_writes hinit (mem_transactions_of_client ht) he hf'
        (beq_iff_eq.mp (hw.init_writes e he)) hwf' (ReducedKey.plain.inj hkey).symm
        (ReducedValue.plain.inj hvalue).symm
      have hclientId := (hw.isClient_of_mem ht).1
      rw [← hid, hw.init_id] at hclientId
      exact absurd hclientId (by decide)
    · rw [heq'] at hkey
      cases hkey

end Fresh

/-- The halves of transactions, in their order. -/
def halves [DecidableEq κ] (slots : List (TransactionId × TransactionId))
    (ts : List (Transaction κ ν)) : List (Transaction (ReducedKey κ) (ReducedValue ν)) :=
  ts.flatMap fun t => [half slots .reading t, half slots .writing t]

theorem mem_halves_iff [DecidableEq κ] (slots : List (TransactionId × TransactionId))
    (ts : List (Transaction κ ν)) (u : Transaction (ReducedKey κ) (ReducedValue ν)) :
    u ∈ halves slots ts ↔ ∃ t ∈ ts, ∃ side, u = half slots side t := by
  simp only [halves, List.mem_flatMap, List.mem_cons, List.not_mem_nil, or_false]
  constructor
  · rintro ⟨t, ht, hu | hu⟩
    · exact ⟨t, ht, .reading, hu⟩
    · exact ⟨t, ht, .writing, hu⟩
  · rintro ⟨t, ht, side, hu⟩
    cases side with
    | reading => exact ⟨t, ht, Or.inl hu⟩
    | writing => exact ⟨t, ht, Or.inr hu⟩

/-- The session of the halves. -/
def splitSession [DecidableEq κ] (slots : List (TransactionId × TransactionId)) (s : Session κ ν) :
    Session (ReducedKey κ) (ReducedValue ν) :=
  ⟨s.id, halves slots s.transactions⟩

/-- The initial values under their new names. -/
def plainInit (events : List (Event κ ν)) : Transaction (ReducedKey κ) (ReducedValue ν) :=
  ⟨.init, events.map (plainWrite .init), false⟩

/-- The history of the halves. -/
def reduced [DecidableEq κ] (h : History κ ν) : Reduced κ ν :=
  ⟨plainInit h.init.events, h.sessions.map (splitSession h.conflictSlots)⟩

section Loops

/-- The half that some of its events have come to. -/
def part (side : Half) (id : TransactionId) (seen : List (HalfEvent κ ν)) :
    Transaction (ReducedKey κ) (ReducedValue ν) :=
  ⟨id, (seen.filter fun e => e.half = side).map (halfEvent id), false⟩

theorem part_append_self (id : TransactionId) (seen : List (HalfEvent κ ν)) (e : HalfEvent κ ν) :
    part e.half id (seen ++ [e]) =
      { part e.half id seen with
        events := (part e.half id seen).events ++ [⟨id, e.kind, e.key, e.value⟩] } := by
  simp only [part, List.filter_append, List.map_append, List.filter_cons, decide_true, if_true,
    List.filter_nil, List.map_cons, List.map_nil, halfEvent]

theorem part_append_other {side : Half} (id : TransactionId) (seen : List (HalfEvent κ ν))
    {e : HalfEvent κ ν} (hside : e.half ≠ side) : part side id (seen ++ [e]) = part side id seen := by
  simp only [part, List.filter_append, List.filter_cons, hside, decide_false, Bool.false_eq_true,
    if_false, List.filter_nil, List.append_nil]

theorem mem_stored_of_mem_part {side : Half} {id : TransactionId} {seen : List (HalfEvent κ ν)}
    {f : Event (ReducedKey κ) (ReducedValue ν)} (hf : f ∈ (part side id seen).events)
    (hwrite : f.isWrite = true) : (f.key, f.value) ∈ stored seen := by
  rcases List.mem_map.mp hf with ⟨e, he, rfl⟩
  exact (mem_stored_iff _ _ _).mpr
    ⟨e, List.mem_of_mem_filter he, beq_iff_eq.mp hwrite, rfl, rfl⟩

/-- All values stored in a history are listed. -/
def StoredIn (r : Reduced κ ν) (past : List (ReducedKey κ × ReducedValue ν)) : Prop :=
  ∀ u ∈ r.transactions, ∀ e ∈ u.events, e.isWrite = true → (e.key, e.value) ∈ past

variable [DecidableEq κ] [DecidableEq ν] {init : Transaction (ReducedKey κ) (ReducedValue ν)}
  {done : List (Session (ReducedKey κ) (ReducedValue ν))}
  {ts : List (Transaction (ReducedKey κ) (ReducedValue ν))}
  {past : List (ReducedKey κ × ReducedValue ν)}

theorem addEvent_part (hpast : StoredIn (ending init done ts) past) {seen : List (HalfEvent κ ν)}
    {e : HalfEvent κ ν} (hnodup : (past ++ stored (seen ++ [e])).Nodup) :
    ((ending init done (ts ++ [part .reading ⟨done.length + 1, ts.length⟩ seen,
        part .writing ⟨done.length + 1, ts.length + 1⟩ seen])).addEvent
      (if e.half = .reading then ⟨done.length + 1, ts.length⟩ else ⟨done.length + 1, ts.length + 1⟩)
      e.kind e.key e.value).map Prod.snd =
    .ok (ending init done (ts ++ [part .reading ⟨done.length + 1, ts.length⟩ (seen ++ [e]),
        part .writing ⟨done.length + 1, ts.length + 1⟩ (seen ++ [e])])) := by
  generalize hR : part .reading ⟨done.length + 1, ts.length⟩ seen = readHalf
  generalize hW : part .writing ⟨done.length + 1, ts.length + 1⟩ seen = writeHalf
  have hnew : e.kind = .write →
      ∀ u ∈ (ending init done (ts ++ [readHalf, writeHalf])).transactions,
        ∀ f ∈ u.events, f.isWrite = true → (f.key, f.value) ≠ (e.key, e.value) := by
    intro hkind u hu f hf hwrite heq
    have hlisted : (f.key, f.value) ∈ past ++ stored seen := by
      rcases (mem_transactions_ending_iff init done ts _ u).mp hu with hu | hu
      · exact List.mem_append_left _ (hpast u hu f hf hwrite)
      · simp only [List.mem_cons, List.not_mem_nil, or_false] at hu
        rcases hu with rfl | rfl
        · exact List.mem_append_right _ (mem_stored_of_mem_part (hR ▸ hf) hwrite)
        · exact List.mem_append_right _ (mem_stored_of_mem_part (hW ▸ hf) hwrite)
    rw [stored_append, ← List.append_assoc, List.nodup_append'] at hnodup
    exact hnodup.2.2 hlisted (heq ▸ (mem_stored_iff _ _ _).mpr
      ⟨e, List.mem_singleton_self e, hkind, rfl, rfl⟩)
  cases hside : e.half with
  | reading =>
    rw [if_pos rfl, addEvent_eq_ok (transaction?_ending init done ts [writeHalf] readHalf)
      (by rw [← hR]; rfl) (fun hc => absurd hc Bool.false_ne_true) hnew,
      modifyTransaction_ending, ← hR, ← hW, ← hside, part_append_self,
      part_append_other _ _ (by rw [hside]; simp)]
  | writing =>
    rw [if_neg (by simp),
      addEvent_eq_ok (transaction?_ending_second init done ts readHalf writeHalf)
      (by rw [← hW]; rfl) (fun hc => absurd hc Bool.false_ne_true) hnew,
      modifyTransaction_ending_second, ← hR, ← hW, ← hside, part_append_self,
      part_append_other _ _ (by rw [hside]; simp)]

theorem foldlM_addEvent_part (hpast : StoredIn (ending init done ts) past)
    (seen rest : List (HalfEvent κ ν)) (hnodup : (past ++ stored (seen ++ rest)).Nodup) :
    rest.foldlM (fun (r : Reduced κ ν) e =>
      (r.addEvent (if e.half = .reading then ⟨done.length + 1, ts.length⟩
        else ⟨done.length + 1, ts.length + 1⟩) e.kind e.key e.value).map Prod.snd)
      (ending init done (ts ++ [part .reading ⟨done.length + 1, ts.length⟩ seen,
        part .writing ⟨done.length + 1, ts.length + 1⟩ seen])) =
    .ok (ending init done (ts ++ [part .reading ⟨done.length + 1, ts.length⟩ (seen ++ rest),
        part .writing ⟨done.length + 1, ts.length + 1⟩ (seen ++ rest)])) := by
  induction rest generalizing seen with
  | nil =>
    rw [List.append_nil]
    rfl
  | cons e rest ih =>
    rw [List.append_cons seen e rest] at hnodup ⊢
    have hfirst : (past ++ stored (seen ++ [e])).Nodup := by
      rw [stored_append, ← List.append_assoc] at hnodup
      exact hnodup.of_append_left
    rw [List.foldlM_cons, addEvent_part hpast hfirst]
    exact ih (seen ++ [e]) hnodup

theorem reduceTransaction_eq_ok (hpast : StoredIn (ending init done ts) past)
    {slots : List (TransactionId × TransactionId)} {t : Transaction κ ν}
    (hid : t.id.session = done.length + 1) (hheight : 2 * t.id.height = ts.length)
    (hnodup : (past ++ stored (halfEvents slots t)).Nodup) :
    reduceTransaction slots (done.length + 1) (ending init done ts) t =
      .ok (ending init done (ts ++ [half slots .reading t, half slots .writing t])) := by
  have hstart : ending init done (ts ++ [.start ⟨done.length + 1, ts.length⟩] ++
      [.start ⟨done.length + 1, ts.length + 1⟩]) =
      ending init done (ts ++ [part .reading ⟨done.length + 1, ts.length⟩ ([] : List (HalfEvent κ ν)),
        part .writing ⟨done.length + 1, ts.length + 1⟩ []]) := by
    rw [← List.append_cons]
    rfl
  have hreading : (⟨done.length + 1, ts.length⟩ : TransactionId) = halfId .reading t.id := by
    rw [halfId, hid, hheight]
    rfl
  have hwriting : (⟨done.length + 1, ts.length + 1⟩ : TransactionId) = halfId .writing t.id := by
    rw [halfId, hid, hheight]
  have hevents := foldlM_addEvent_part hpast [] (halfEvents slots t) hnodup
  rw [reduceTransaction, addTransaction_ending]
  simp only [bind, Except.bind, addTransaction_ending, List.length_append, List.length_singleton,
    hstart, hevents, List.nil_append]
  have hhalf : ∀ side id, id = halfId side t.id →
      { part side id (halfEvents slots t) with committed := t.committed } = half slots side t := by
    rintro side id rfl
    rfl
  rw [← hhalf .reading _ hreading, ← hhalf .writing _ hwriting]
  cases hcommitted : t.committed with
  | false => rfl
  | true =>
    rw [if_pos rfl, commit_ending init done ts _ rfl]
    exact commit_ending_second init done ts _ rfl

variable {slots : List (TransactionId × TransactionId)}

omit [DecidableEq ν] in
theorem length_halves (seen : List (Transaction κ ν)) :
    (halves slots seen).length = 2 * seen.length := by
  rw [halves, List.length_flatMap]
  simp only [List.length_cons, List.length_nil, List.map_const', List.sum_replicate, smul_eq_mul,
    Nat.mul_comm]

omit [DecidableEq κ] [DecidableEq ν] in
theorem StoredIn.addSession (hpast : StoredIn ⟨init, done⟩ past) :
    StoredIn (ending init done []) past := by
  intro u hu
  refine hpast u ?_
  simpa only [ending, transactions, List.flatMap_nil, List.flatMap_append, List.flatMap_cons,
    List.append_nil] using hu

variable (slots) in
omit [DecidableEq ν] in
theorem StoredIn.halves (hpast : StoredIn (ending init done ts) past)
    (rest : List (Transaction κ ν)) :
    StoredIn (ending init done (ts ++ halves slots rest))
      (past ++ rest.flatMap fun t => stored (halfEvents slots t)) := by
  intro u hu e he hwrite
  rcases (mem_transactions_ending_iff init done ts _ u).mp hu with hu | hu
  · exact List.mem_append_left _ (hpast u hu e he hwrite)
  · rcases (mem_halves_iff slots rest u).mp hu with ⟨t, ht, side, rfl⟩
    exact List.mem_append_right _
      (List.mem_flatMap.mpr ⟨t, ht, mem_stored_of_mem_part he hwrite⟩)

theorem foldlM_reduceTransaction (seen rest : List (Transaction κ ν))
    (hids : ∀ height (t : Transaction κ ν), (seen ++ rest)[height]? = some t →
      t.id = ⟨done.length + 1, height⟩)
    (hpast : StoredIn (ending init done (halves slots seen)) past)
    (hnodup : (past ++ rest.flatMap fun t => stored (halfEvents slots t)).Nodup) :
    rest.foldlM (reduceTransaction slots (done.length + 1)) (ending init done (halves slots seen)) =
      .ok (ending init done (halves slots (seen ++ rest))) := by
  induction rest generalizing seen past with
  | nil =>
    rw [List.append_nil]
    rfl
  | cons t rest ih =>
    have hid : t.id = ⟨done.length + 1, seen.length⟩ :=
      hids seen.length t (getElem?_length_append ..)
    rw [List.flatMap_cons, ← List.append_assoc] at hnodup
    have hnext : halves slots seen ++ [half slots .reading t, half slots .writing t] =
        halves slots (seen ++ [t]) := by
      rw [halves, halves, List.flatMap_append, List.flatMap_singleton]
    rw [List.foldlM_cons, reduceTransaction_eq_ok hpast (by rw [hid])
      (by rw [hid, length_halves]) hnodup.of_append_left, hnext]
    rw [List.append_cons seen t rest] at hids ⊢
    refine ih (seen ++ [t]) hids ?_ hnodup
    have hstored := hpast.halves slots [t]
    rw [List.flatMap_singleton] at hstored
    rw [← hnext]
    exact hstored

theorem reduceSession_eq_ok (hpast : StoredIn ⟨init, done⟩ past) {s : Session κ ν}
    (hsession : s.id = done.length + 1)
    (hids : ∀ height (t : Transaction κ ν), s.transactions[height]? = some t →
      t.id = ⟨done.length + 1, height⟩)
    (hnodup : (past ++ s.transactions.flatMap fun t => stored (halfEvents slots t)).Nodup) :
    reduceSession slots ⟨init, done⟩ s = .ok ⟨init, done ++ [splitSession slots s]⟩ := by
  rw [splitSession, hsession]
  exact foldlM_reduceTransaction [] s.transactions hids hpast.addSession hnodup

theorem foldlM_reduceSession (seen rest : List (Session κ ν))
    (hids : ∀ index (s : Session κ ν), (seen ++ rest)[index]? = some s → s.id = index + 1 ∧
      ∀ height (t : Transaction κ ν), s.transactions[height]? = some t → t.id = ⟨index + 1, height⟩)
    (hpast : StoredIn ⟨init, seen.map (splitSession slots)⟩ past)
    (hnodup : (past ++ rest.flatMap fun s =>
      s.transactions.flatMap fun t => stored (halfEvents slots t)).Nodup) :
    rest.foldlM (reduceSession slots) ⟨init, seen.map (splitSession slots)⟩ =
      .ok ⟨init, (seen ++ rest).map (splitSession slots)⟩ := by
  induction rest generalizing seen past with
  | nil =>
    rw [List.append_nil]
    rfl
  | cons s rest ih =>
    rcases hids seen.length s (getElem?_length_append ..) with ⟨hsession, htransactions⟩
    have hlength : (seen.map (splitSession slots)).length = seen.length := List.length_map ..
    rw [← hlength] at hsession htransactions
    rw [List.flatMap_cons, ← List.append_assoc] at hnodup
    have hnext : seen.map (splitSession slots) ++ [splitSession slots s] =
        (seen ++ [s]).map (splitSession slots) := by
      rw [List.map_append, List.map_singleton]
    rw [List.foldlM_cons, reduceSession_eq_ok hpast hsession htransactions hnodup.of_append_left,
      hnext]
    rw [List.append_cons seen s rest] at hids ⊢
    refine ih (seen ++ [s]) hids ?_ hnodup
    have hstored := hpast.addSession.halves slots s.transactions
    rw [← hnext, splitSession, hsession]
    exact hstored

theorem foldlM_addInitialWrite (seen rest : List (Event κ ν))
    (hnodup : ((seen ++ rest).map fun e =>
      ((.plain e.key, .plain e.value) : ReducedKey κ × ReducedValue ν)).Nodup) :
    rest.foldlM (fun (r : Reduced κ ν) e =>
      (r.addInitialWrite (.plain e.key) (.plain e.value)).map Prod.snd) ⟨plainInit seen, []⟩ =
      .ok ⟨plainInit (seen ++ rest), []⟩ := by
  induction rest generalizing seen with
  | nil =>
    rw [List.append_nil]
    rfl
  | cons e rest ih =>
    rw [List.append_cons seen e rest] at hnodup ⊢
    have hfresh : ∀ u ∈ (⟨plainInit seen, []⟩ : Reduced κ ν).transactions, ∀ f ∈ u.events,
        f.isWrite = true → (f.key, f.value) ≠ (.plain e.key, .plain e.value) := by
      intro u hu f hf _ heq
      simp only [transactions, List.flatMap_nil, List.mem_singleton] at hu
      subst hu
      rcases List.mem_map.mp hf with ⟨g, hg, rfl⟩
      rw [List.append_assoc, List.map_append, List.nodup_append'] at hnodup
      refine hnodup.2.2 (List.mem_map.mpr ⟨g, hg, heq⟩) ?_
      exact List.mem_map.mpr ⟨e, List.mem_append_left _ (List.mem_singleton_self e), rfl⟩
    have hadd : ((⟨plainInit seen, []⟩ : Reduced κ ν).addInitialWrite (.plain e.key)
        (.plain e.value)).map Prod.snd = .ok ⟨plainInit (seen ++ [e]), []⟩ := by
      rw [addInitialWrite, addEvent_eq_ok rfl rfl (fun _ => rfl) fun _ => hfresh]
      simp only [modifyTransaction, TransactionId.init, plainInit, plainWrite, List.map_append,
        List.map_singleton]
    rw [List.foldlM_cons, hadd]
    exact ih (seen ++ [e]) hnodup

/-- The reduction of a well-formed history gives the history of its halves. -/
theorem WellFormed.reduce_eq_ok {h : History κ ν} (hw : h.WellFormed) : h.reduce = .ok h.reduced := by
  have hnodup := hw.nodup_stored
  have hinit : h.init.events.foldlM (fun (r : Reduced κ ν) e =>
      (r.addInitialWrite (.plain e.key) (.plain e.value)).map Prod.snd) empty =
      .ok ⟨plainInit h.init.events, []⟩ :=
    foldlM_addInitialWrite [] h.init.events hnodup.of_append_left
  have hpast : StoredIn ⟨plainInit h.init.events, []⟩ (h.init.events.map fun e =>
      ((.plain e.key, .plain e.value) : ReducedKey κ × ReducedValue ν)) := by
    intro u hu f hf _
    simp only [transactions, List.flatMap_nil, List.mem_singleton] at hu
    subst hu
    rcases List.mem_map.mp hf with ⟨e, he, rfl⟩
    exact List.mem_map.mpr ⟨e, he, rfl⟩
  have hids : ∀ index (s : Session κ ν), h.sessions[index]? = some s → s.id = index + 1 ∧
      ∀ height (t : Transaction κ ν), s.transactions[height]? = some t →
        t.id = ⟨index + 1, height⟩ := fun index s hs =>
    ⟨hw.session_id index s hs, fun height t ht => hw.id_of_mem_session hs ht⟩
  rw [clientTransactions, List.flatMap_assoc] at hnodup
  rw [reduce, hinit]
  exact foldlM_reduceSession [] h.sessions hids hpast hnodup

end Loops

section Building

variable [DecidableEq κ] [DecidableEq ν]

theorem Built.reduceTransaction {slots : List (TransactionId × TransactionId)} {session : Nat}
    {r r' : Reduced κ ν} {t : Transaction κ ν} (hbuilt : r.Built)
    (hreduce : reduceTransaction slots session r t = .ok r') : r'.Built := by
  unfold History.reduceTransaction at hreduce
  simp only [bind, Except.bind, pure, Except.pure] at hreduce
  split at hreduce
  · cases hreduce
  · rename_i first hfirst
    split at hreduce
    · cases hreduce
    · rename_i second hsecond
      have hstart := (hbuilt.addTransaction hfirst).addTransaction hsecond
      split at hreduce
      · cases hreduce
      · rename_i filled hfilled
        have hevents := hstart.foldlM (fun _ _ _ hr hadd => hr.of_addEvent hadd) _ hfilled
        split at hreduce
        · split at hreduce
          · cases hreduce
          · rename_i committed hcommitted
            exact (hevents.commit hcommitted).commit hreduce
        · cases hreduce
          exact hevents

theorem Built.reduceSession {slots : List (TransactionId × TransactionId)} {r r' : Reduced κ ν}
    {s : Session κ ν} (hbuilt : r.Built) (hreduce : reduceSession slots r s = .ok r') : r'.Built :=
  hbuilt.addSession.foldlM (fun _ _ _ hr ht => hr.reduceTransaction ht) _ hreduce

/-- What the reduction gives can be built. -/
theorem WellFormed.built_reduced {h : History κ ν} (hw : h.WellFormed) : h.reduced.Built := by
  have hreduce := hw.reduce_eq_ok
  rw [reduce] at hreduce
  cases hinit : h.init.events.foldlM (fun (r : Reduced κ ν) e =>
      (r.addInitialWrite (.plain e.key) (.plain e.value)).map Prod.snd) empty with
  | error e =>
    rw [hinit] at hreduce
    exact absurd hreduce (by simp [bind, Except.bind])
  | ok start =>
    rw [hinit] at hreduce
    have hstart := Built.empty.foldlM (fun _ _ _ hr hadd => hr.of_addEvent hadd) _ hinit
    exact hstart.foldlM (fun _ _ _ hr hs => hr.reduceSession hs) _ hreduce

end Building

section Lookup

variable [DecidableEq κ]

/-- The half that stands at a height. -/
def sideAt (height : Nat) : Half :=
  if height % 2 = 0 then .reading else .writing

theorem getElem?_halves (slots : List (TransactionId × TransactionId)) (ts : List (Transaction κ ν))
    (height : Nat) :
    (halves slots ts)[height]? = ts[height / 2]?.map (half slots (sideAt height)) := by
  induction ts generalizing height with
  | nil => rfl
  | cons t rest ih =>
    rw [halves, List.flatMap_cons]
    match height with
    | 0 => rfl
    | 1 => rfl
    | k + 2 =>
      have hhalf : (k + 2) / 2 = k / 2 + 1 := by omega
      have hside : sideAt (k + 2) = sideAt k := by rw [sideAt, sideAt, Nat.add_mod_right]
      rw [hhalf, hside, List.getElem?_cons_succ, ← ih k]
      rfl

/-- The halves are found where they should be. -/
theorem transaction?_reduced (h : History κ ν) (index height : Nat) :
    h.reduced.transaction? ⟨index + 1, height⟩ =
      (h.transaction? ⟨index + 1, height / 2⟩).map (half h.conflictSlots (sideAt height)) := by
  rw [transaction?_succ, transaction?_succ, reduced, List.getElem?_map]
  cases h.sessions[index]? with
  | none => rfl
  | some s => exact getElem?_halves h.conflictSlots s.transactions height

theorem mem_clientTransactions_reduced_iff (h : History κ ν)
    (u : Transaction (ReducedKey κ) (ReducedValue ν)) :
    u ∈ h.reduced.clientTransactions ↔
      ∃ t ∈ h.clientTransactions, ∃ side, u = half h.conflictSlots side t := by
  simp only [clientTransactions, reduced, List.mem_flatMap, List.mem_map]
  constructor
  · rintro ⟨_, ⟨s, hs, rfl⟩, hu⟩
    rcases (mem_halves_iff _ _ _).mp hu with ⟨t, ht, hhalf⟩
    exact ⟨t, ⟨s, hs, ht⟩, hhalf⟩
  · rintro ⟨t, ⟨s, hs, ht⟩, hhalf⟩
    exact ⟨_, ⟨s, hs, rfl⟩, (mem_halves_iff _ _ _).mpr ⟨t, ht, hhalf⟩⟩

theorem mem_transactions_reduced_iff (h : History κ ν)
    (u : Transaction (ReducedKey κ) (ReducedValue ν)) :
    u ∈ h.reduced.transactions ↔ u = plainInit h.init.events ∨
      ∃ t ∈ h.clientTransactions, ∃ side, u = half h.conflictSlots side t := by
  rw [← mem_clientTransactions_reduced_iff]
  exact List.mem_cons

/-- The transaction that has a half at this place. -/
def wholeId (id : TransactionId) : TransactionId := ⟨id.session, id.height / 2⟩

@[simp]
theorem wholeId_halfId (side : Half) (id : TransactionId) : wholeId (halfId side id) = id := by
  rcases id with ⟨session, height⟩
  cases side with
  | reading =>
    simp only [wholeId, halfId, TransactionId.mk.injEq, true_and]
    omega
  | writing =>
    simp only [wholeId, halfId, TransactionId.mk.injEq, true_and]
    omega

@[simp]
theorem sideAt_halfId (side : Half) (id : TransactionId) : sideAt (halfId side id).height = side := by
  cases side with
  | reading => exact if_pos (by simp only [halfId]; omega)
  | writing => exact if_neg (by simp only [halfId]; omega)

theorem halfId_wholeId (id : TransactionId) : halfId (sideAt id.height) (wholeId id) = id := by
  rcases id with ⟨session, height⟩
  by_cases heven : height % 2 = 0
  · simp only [sideAt, if_pos heven, halfId, wholeId, TransactionId.mk.injEq, true_and]
    omega
  · simp only [sideAt, if_neg heven, halfId, wholeId, TransactionId.mk.injEq, true_and]
    omega

theorem halfId_inj {side side' : Half} {a b : TransactionId} (heq : halfId side a = halfId side' b) :
    side = side' ∧ a = b := by
  constructor
  · rw [← sideAt_halfId side a, heq, sideAt_halfId]
  · rw [← wholeId_halfId side a, heq, wholeId_halfId]

theorem isClient_reduced_iff (h : History κ ν) (id : TransactionId) :
    h.reduced.IsClient id ↔ h.IsClient (wholeId id) := by
  rcases id with ⟨session, height⟩
  cases session with
  | zero => exact ⟨fun hc => absurd hc.1.symm Bool.false_ne_true,
      fun hc => absurd hc.1.symm Bool.false_ne_true⟩
  | succ index =>
    rw [IsClient, IsClient, transaction?_reduced, wholeId]
    simp only [Option.map_eq_some_iff]
    constructor
    · rintro ⟨_, _, t, ht, _⟩
      exact ⟨rfl, t, ht⟩
    · rintro ⟨_, t, ht⟩
      exact ⟨rfl, _, t, ht, rfl⟩

theorem isClient_halfId_iff (h : History κ ν) (side : Half) (id : TransactionId) :
    h.reduced.IsClient (halfId side id) ↔ h.IsClient id := by
  rw [isClient_reduced_iff, wholeId_halfId]

theorem exists_half_of_isClient {h : History κ ν} {id : TransactionId} (hid : h.reduced.IsClient id) :
    ∃ side whole, id = halfId side whole ∧ h.IsClient whole :=
  ⟨sideAt id.height, wholeId id, (halfId_wholeId id).symm, (h.isClient_reduced_iff id).mp hid⟩

theorem WellFormed.finalValue?_plainInit_plain {h : History κ ν} (hw : h.WellFormed) (key : κ) :
    (plainInit h.init.events).finalValue? (.plain key) = (h.init.finalValue? key).map .plain := by
  rw [finalValue?_eq_getLast?, finalValue?_eq_getLast?]
  exact getLast?_plainWrite hw.init_writes .init key

theorem finalValue?_plainInit_conflict (events : List (Event κ ν)) (n : Nat) :
    (plainInit events).finalValue? (.conflict n) = none := by
  rw [Transaction.finalValue?_eq_none_iff, Transaction.writesKey, List.any_eq_false]
  intro f hf hwrites
  rcases List.mem_map.mp hf with ⟨e, _, rfl⟩
  exact absurd ((writesKey_iff _ _).mp hwrites).2 (by simp [plainWrite])

end Lookup

end Isolation.History
