import Isolation.Proofs.History.Reads
import Isolation.Proofs.History.Steps
import Isolation.Proofs.Text.Reading
import Isolation.Recorded.Load

/-!
# The Result of Loading

Loading replays a recording through building steps, and a step is refused only if it writes a value that is
there already. Values are supplied in two ways: by writes, and by reads that leave their value open, since
such a read sees to it that somebody stores the default value under its key. So a recording can be loaded
exactly if every write is new, that is, if its value has not been supplied before; and the result can be
written down without replaying anything. It has the recorded sessions, numbered, and an init transaction
with the default value under those keys that an open read was the first to call for.

Each state of the replay is itself such a result, namely that of the part of the recording that has been
replayed. This makes the three nested loops alike: each item either leads from the result of a recording to
the result of the longer one, or to an error.

## Main definitions

* `Recorded.FreshWrites`: No write repeats a value that has been supplied.
* `History.loaded`: The history of a recording.

## Theorems

* `load_decides`, `load_eq_ok_iff`: When a recording can be loaded, and what comes of it.
-/

namespace Isolation

section Outcomes

variable {ε α β : Type} {outcome : Except ε α}

/-- The outcome is the value if the condition holds, and an error otherwise. -/
structure Decides (outcome : Except ε α) (good : Prop) (value : α) : Prop where
  ok : good → outcome = .ok value
  error : ¬good → ∃ fault, outcome = .error fault

theorem Decides.of_ok {good : Prop} {value : α} (hok : outcome = .ok value) (hgood : good) :
    Decides outcome good value :=
  ⟨fun _ => hok, fun hnot => absurd hgood hnot⟩

theorem Decides.congr {good good' : Prop} {value value' : α} (hdecides : Decides outcome good value)
    (hgood : good ↔ good') (hvalue : value = value') : Decides outcome good' value' := by
  rw [← hvalue]
  exact ⟨fun h => hdecides.ok (hgood.mpr h), fun h => hdecides.error fun hc => h (hgood.mp hc)⟩

theorem Decides.of_eq_ok {good : Prop} {value value' : α} (hdecides : Decides outcome good value)
    (hok : outcome = .ok value') : good ∧ value' = value := by
  by_cases hgood : good
  · rw [hdecides.ok hgood] at hok
    exact ⟨hgood, (Except.ok.inj hok).symm⟩
  · rcases hdecides.error hgood with ⟨fault, hfault⟩
    rw [hfault] at hok
    cases hok

/-- The first step may only fail if the whole fails. -/
theorem Decides.bind {good good' : Prop} {value : α} {next : α → Except ε β} {value' : β}
    (hfirst : Decides outcome good value) (hgood : good' → good)
    (hnext : good → Decides (next value) good' value') : Decides (outcome.bind next) good' value' := by
  by_cases h : good
  · rw [hfirst.ok h]
    exact hnext h
  · rcases hfirst.error h with ⟨fault, hfault⟩
    refine ⟨fun hc => absurd (hgood hc) h, fun _ => ⟨fault, ?_⟩⟩
    rw [hfault]
    rfl

/-- A loop decides whether all items are good, if each step decides it of one more item. -/
theorem Decides.foldlM {step : β → α → Except ε β} {state : List α → β} {good : List α → Prop}
    (hshrink : ∀ seen later, good (seen ++ later) → good seen)
    (hstep : ∀ seen item, good seen →
      Decides (step (state seen) item) (good (seen ++ [item])) (state (seen ++ [item])))
    (items seen : List α) (hseen : good seen) :
    Decides (items.foldlM step (state seen)) (good (seen ++ items)) (state (seen ++ items)) := by
  induction items generalizing seen with
  | nil =>
    rw [List.append_nil]
    exact .of_ok rfl hseen
  | cons item rest ih =>
    -- The invariant is about what has been seen, so the item moves over to it.
    have hsplit : seen ++ item :: rest = seen ++ [item] ++ rest := List.append_cons ..
    rw [List.foldlM_cons, hsplit]
    exact (hstep seen item hseen).bind (hshrink _ rest) (ih (seen ++ [item]))

end Outcomes

variable {κ ν : Type} {sessions : List (Recorded.Session κ ν)}

namespace Recorded

theorem mem_events_iff (sessions : List (Session κ ν)) (e : Event κ ν) :
    e ∈ events sessions ↔ ∃ session ∈ sessions, ∃ t ∈ session, e ∈ t.events := by
  simp only [events, List.mem_flatMap, List.mem_flatten]
  constructor
  · rintro ⟨t, ⟨session, hsession, ht⟩, he⟩
    exact ⟨session, hsession, t, ht, he⟩
  · rintro ⟨session, hsession, t, ht, he⟩
    exact ⟨t, ⟨session, hsession, ht⟩, he⟩

theorem events_append (sessions later : List (Session κ ν)) :
    events (sessions ++ later) = events sessions ++ events later := by
  simp only [events, List.flatten_append, List.flatMap_append]

theorem events_last_append (sessions : List (Session κ ν)) (session later : Session κ ν) :
    events (sessions ++ [session ++ later]) = events (sessions ++ [session]) ++ events [later] := by
  simp only [events, List.flatten_append, List.flatMap_append, List.flatten_singleton, List.append_assoc]

/-- A recording whose last transaction is still running. -/
def running (sessions : List (Session κ ν)) (session : Session κ ν) (seen : List (Event κ ν)) :
    List (Session κ ν) :=
  sessions ++ [session ++ [⟨seen, false⟩]]

theorem events_running (sessions : List (Session κ ν)) (session : Session κ ν)
    (seen : List (Event κ ν)) :
    events (running sessions session seen) = events (sessions ++ [session]) ++ seen := by
  rw [running, events_last_append]
  simp only [events, List.flatten_singleton, List.flatMap_singleton]

variable [DecidableEq κ] [DecidableEq ν] [Inhabited ν]

/-- The event sees to it that somebody stores this value under this key. -/
def Event.supplies (key : κ) (value : ν) : Event κ ν → Bool
  | .write other stored => other == key && stored == value
  | .read other none => other == key && value == default
  | .read _ (some _) => false

theorem Event.supplies_iff (key : κ) (value : ν) (e : Event κ ν) :
    e.supplies key value = true ↔ e = .write key value ∨ e = .read key none ∧ value = default := by
  cases e with
  | write other stored => simp [supplies]
  | read other seen =>
    cases seen with
    | none => simp [supplies]
    | some seen => simp [supplies]

/-- Every write is new: its value has not been supplied before. -/
def FreshWrites (events : List (Event κ ν)) : Prop :=
  events.Pairwise fun a b => ∀ key value, b = .write key value → a.supplies key value = false

theorem FreshWrites.of_append {events later : List (Event κ ν)} (hfresh : FreshWrites (events ++ later)) :
    FreshWrites events :=
  (List.pairwise_append.mp hfresh).1

theorem freshWrites_concat_iff (events : List (Event κ ν)) (e : Event κ ν) :
    FreshWrites (events ++ [e]) ↔ FreshWrites events ∧
      ∀ key value, e = .write key value → ∀ a ∈ events, a.supplies key value = false := by
  unfold FreshWrites
  rw [List.pairwise_append]
  constructor
  · rintro ⟨hevents, _, hcross⟩
    exact ⟨hevents, fun key value he a ha => hcross a ha e (List.mem_singleton_self e) key value he⟩
  · rintro ⟨hevents, hlast⟩
    refine ⟨hevents, List.pairwise_singleton _ _, fun a ha b hb key value hwrite => ?_⟩
    rw [List.mem_singleton.mp hb] at hwrite
    exact hlast key value hwrite a ha

/-- The key of an open read, if nobody has supplied the default value before. -/
def opened (earlier : List (Event κ ν)) : Event κ ν → List κ
  | .read key none => if earlier.any (Event.supplies key default) then [] else [key]
  | _ => []

/-- The keys that an open read is the first to call for, behind earlier events. -/
def openedAfter (earlier : List (Event κ ν)) : List (Event κ ν) → List κ
  | [] => []
  | e :: rest => opened earlier e ++ openedAfter (earlier ++ [e]) rest

/-- The keys that an open read was the first to call for. -/
def openedKeys (events : List (Event κ ν)) : List κ :=
  openedAfter [] events

theorem openedAfter_concat (earlier events : List (Event κ ν)) (e : Event κ ν) :
    openedAfter earlier (events ++ [e]) = openedAfter earlier events ++ opened (earlier ++ events) e := by
  induction events generalizing earlier with
  | nil => simp [openedAfter]
  | cons first rest ih =>
    have hsplit : earlier ++ first :: rest = earlier ++ [first] ++ rest := List.append_cons ..
    rw [List.cons_append, openedAfter, ih, openedAfter, hsplit, ← List.append_assoc]

theorem openedKeys_concat (events : List (Event κ ν)) (e : Event κ ν) :
    openedKeys (events ++ [e]) = openedKeys events ++ opened events e := by
  unfold openedKeys
  rw [openedAfter_concat, List.nil_append]

theorem mem_opened_iff (earlier : List (Event κ ν)) (e : Event κ ν) (key : κ) :
    key ∈ opened earlier e ↔
      e = .read key none ∧ ∀ a ∈ earlier, a.supplies key default = false := by
  unfold opened
  split
  · next other =>
      by_cases hsupplied : earlier.any (Event.supplies other default) = true
      · rw [if_pos hsupplied]
        rcases List.any_eq_true.mp hsupplied with ⟨a, ha, hsupplies⟩
        refine ⟨fun hc => absurd hc List.not_mem_nil, ?_⟩
        rintro ⟨heq, hnone⟩
        cases heq
        rw [hnone a ha] at hsupplies
        exact absurd hsupplies Bool.false_ne_true
      · rw [if_neg hsupplied, List.mem_singleton]
        rw [Bool.not_eq_true, List.any_eq_false] at hsupplied
        constructor
        · rintro rfl
          exact ⟨rfl, fun a ha => by simpa using hsupplied a ha⟩
        · rintro ⟨heq, _⟩
          cases heq
          rfl
  · next hother =>
      refine ⟨fun hc => absurd hc List.not_mem_nil, ?_⟩
      rintro ⟨rfl, _⟩
      exact absurd rfl (hother key)

theorem mem_of_mem_openedKeys {events : List (Event κ ν)} {key : κ} (hkey : key ∈ openedKeys events) :
    .read key none ∈ events := by
  -- From behind here and below, since the definition looks back.
  induction events using List.reverseRecOn with
  | nil => exact absurd hkey List.not_mem_nil
  | append_singleton events e ih =>
    rw [openedKeys_concat, List.mem_append, mem_opened_iff] at hkey
    rcases hkey with hkey | ⟨rfl, _⟩
    · exact List.mem_append_left _ (ih hkey)
    · exact List.mem_append_right _ (List.mem_singleton_self _)

/-- An open read finds the default value written, or some open read calls for it. -/
theorem mem_openedKeys_of_mem {events : List (Event κ ν)} {key : κ} (hread : .read key none ∈ events) :
    .write key default ∈ events ∨ key ∈ openedKeys events := by
  induction events using List.reverseRecOn with
  | nil => exact absurd hread List.not_mem_nil
  | append_singleton events e ih =>
    rw [openedKeys_concat, List.mem_append, List.mem_append, mem_opened_iff]
    -- What has been supplied before stays so.
    have hearlier : (.read key none ∈ events) → (.write key default ∈ events ∨ .write key default ∈ [e]) ∨
        key ∈ openedKeys events ∨ e = .read key none ∧ ∀ a ∈ events, a.supplies key default = false := by
      intro hmem
      rcases ih hmem with hwrite | hkey
      · exact .inl (.inl hwrite)
      · exact .inr (.inl hkey)
    rcases List.mem_append.mp hread with hmem | hmem
    · exact hearlier hmem
    · by_cases hsupplied : ∃ a ∈ events, a.supplies key default = true
      · rcases hsupplied with ⟨a, ha, hsupplies⟩
        rcases (Event.supplies_iff _ _ a).mp hsupplies with rfl | ⟨rfl, _⟩
        · exact .inl (.inl ha)
        · exact hearlier ha
      · refine .inr (.inr ⟨(List.mem_singleton.mp hmem).symm, fun a ha => ?_⟩)
        rw [← Bool.not_eq_true]
        exact fun hsupplies => hsupplied ⟨a, ha, hsupplies⟩

/-- If every write is new, a key is called for exactly if it has an open read and nobody writes the default
    value, neither before nor behind. -/
theorem mem_openedKeys_iff {events : List (Event κ ν)} (hfresh : FreshWrites events) (key : κ) :
    key ∈ openedKeys events ↔ .read key none ∈ events ∧ .write key default ∉ events := by
  constructor
  · intro hkey
    refine ⟨mem_of_mem_openedKeys hkey, ?_⟩
    induction events using List.reverseRecOn with
    | nil => exact List.not_mem_nil
    | append_singleton events e ih =>
      rcases (freshWrites_concat_iff events e).mp hfresh with ⟨hevents, hlast⟩
      rw [openedKeys_concat, List.mem_append, mem_opened_iff] at hkey
      rw [List.mem_append, List.mem_singleton, not_or]
      rcases hkey with hkey | ⟨rfl, hnone⟩
      · refine ⟨ih hevents hkey, fun hwrite => ?_⟩
        -- A write behind the open read would repeat the value.
        have hsupplies := hlast key default hwrite.symm _ (mem_of_mem_openedKeys hkey)
        rw [(Event.supplies_iff _ _ _).mpr (.inr ⟨rfl, rfl⟩)] at hsupplies
        exact absurd hsupplies.symm Bool.false_ne_true
      · refine ⟨fun hwrite => ?_, by simp only [reduceCtorEq, not_false_eq_true]⟩
        have hsupplies := hnone _ hwrite
        rw [(Event.supplies_iff _ _ _).mpr (.inl rfl)] at hsupplies
        exact absurd hsupplies.symm Bool.false_ne_true
  · rintro ⟨hread, hnot⟩
    exact (mem_openedKeys_of_mem hread).resolve_left hnot

/-- What is supplied is written, or an open read was the first to call for it. -/
theorem exists_supplies_iff (events : List (Event κ ν)) (key : κ) (value : ν) :
    (∃ a ∈ events, a.supplies key value = true) ↔
      .write key value ∈ events ∨ value = default ∧ key ∈ openedKeys events := by
  constructor
  · rintro ⟨a, ha, hsupplies⟩
    rcases (Event.supplies_iff key value a).mp hsupplies with rfl | ⟨rfl, rfl⟩
    · exact .inl ha
    · exact (mem_openedKeys_of_mem ha).imp_right fun hkey => ⟨rfl, hkey⟩
  · rintro (hwrite | ⟨rfl, hkey⟩)
    · exact ⟨_, hwrite, (Event.supplies_iff _ _ _).mpr (.inl rfl)⟩
    · exact ⟨_, mem_of_mem_openedKeys hkey, (Event.supplies_iff _ _ _).mpr (.inr ⟨rfl, rfl⟩)⟩

end Recorded

namespace History

section Stores

/-- Some event stores the value under the key. -/
def Stores (h : History κ ν) (key : κ) (value : ν) : Prop :=
  ∃ t ∈ h.transactions, ∃ e ∈ t.events, e.isWrite = true ∧ e.key = key ∧ e.value = value

variable [DecidableEq κ] [DecidableEq ν]

theorem writerOf?_eq_none_iff_not_stores (h : History κ ν) (key : κ) (value : ν) :
    h.writerOf? key value = none ↔ ¬h.Stores key value := by
  rw [writerOf?_eq_none_iff]
  constructor
  · rintro hnone ⟨t, ht, e, he, hstores⟩
    rcases (h.mem_transactions_iff t).mp ht with ⟨id, hlook⟩
    rcases List.mem_iff_getElem?.mp he with ⟨index, hget⟩
    have hplace := hnone ⟨id, index⟩ e (by rw [event?_mk, hlook]; exact hget)
    rw [(writes_iff key value e).mpr hstores] at hplace
    exact absurd hplace.symm Bool.false_ne_true
  · rintro hnot ⟨id, index⟩ e he
    rw [event?_mk, Option.bind_eq_some_iff] at he
    rcases he with ⟨t, ht, hget⟩
    rw [← Bool.not_eq_true, writes_iff]
    exact fun hstores => hnot ⟨t, h.mem_transactions_of_lookup ht, e, List.mem_of_getElem? hget, hstores⟩

/-- A running transaction refuses a write whose value is stored somewhere, and says where. -/
theorem addEvent_write_of_writerOf? {h : History κ ν} {id : TransactionId} {t : Transaction κ ν}
    (ht : h.transaction? id = some t) (hrun : t.committed = false) {key : κ} {value : ν}
    {place : EventId} (hwriter : h.writerOf? key value = some place) :
    (h.addEvent id .write key value).map Prod.snd =
      .error (.duplicateWrite key value place ⟨id, t.events.length⟩) := by
  have hkind : (EventKind.write == EventKind.read) = false := rfl
  simp only [addEvent, hkind, Bool.and_false, Bool.false_eq_true, if_false, ht, hrun, hwriter,
    Except.map]

/-- A running transaction takes a write exactly if its value is new. -/
theorem addEvent_write_decides {h : History κ ν} {id : TransactionId} {t : Transaction κ ν}
    (ht : h.transaction? id = some t) (hrun : t.committed = false) (key : κ) (value : ν) :
    Decides ((h.addEvent id .write key value).map Prod.snd) (¬h.Stores key value)
      (h.modifyTransaction id fun t => { t with events := t.events ++ [⟨id, .write, key, value⟩] }) := by
  refine ⟨fun hnew => addEvent_eq_ok ht hrun (fun _ => rfl) fun _ u hu e he hwrite heq => ?_, fun hold => ?_⟩
  · rcases Prod.mk.inj heq with ⟨hkey, hvalue⟩
    exact hnew ⟨u, hu, e, he, hwrite, hkey, hvalue⟩
  · rcases hwriter : h.writerOf? key value with _ | place
    · exact absurd ((h.writerOf?_eq_none_iff_not_stores key value).mp hwriter) hold
    · exact ⟨_, addEvent_write_of_writerOf? ht hrun hwriter⟩

end Stores

section Loaded

variable [DecidableEq κ] [DecidableEq ν] [Inhabited ν]

open Recorded (FreshWrites openedKeys running)
open Text (bind_eq_ok_iff)

/-- The init transaction that stores the default value under some keys. -/
def defaultInit (keys : List κ) : Transaction κ ν :=
  ⟨.init, keys.map fun key => ⟨.init, .write, key, default⟩, false⟩

/-- A recorded event as one of a transaction; what was left open is the default value. -/
def loadedEvent (id : TransactionId) : Recorded.Event κ ν → Event κ ν
  | .read key value => ⟨id, .read, key, value.getD default⟩
  | .write key value => ⟨id, .write, key, value⟩

/-- A recorded transaction with its identifier. -/
def loadedTransaction (id : TransactionId) (t : Recorded.Transaction κ ν) : Transaction κ ν :=
  ⟨id, t.events.map (loadedEvent id), t.committed⟩

/-- The transactions of a recorded session with a number. -/
def loadedSession (number : Nat) (session : Recorded.Session κ ν) : Session κ ν :=
  ⟨number, session.mapIdx fun height t => loadedTransaction ⟨number, height⟩ t⟩

/-- The history of a recording: its sessions, numbered, and the default value for the keys that an open
    read was the first to call for. -/
def loaded (sessions : List (Recorded.Session κ ν)) : History κ ν where
  init := defaultInit (openedKeys (Recorded.events sessions))
  sessions := sessions.mapIdx fun index session => loadedSession (index + 1) session

theorem transaction?_loaded (sessions : List (Recorded.Session κ ν)) (index height : Nat) :
    (loaded sessions).transaction? ⟨index + 1, height⟩ =
      (sessions[index]?.bind fun session => session[height]?).map
        (loadedTransaction ⟨index + 1, height⟩) := by
  have hsession : (loaded sessions).sessions[index]? = sessions[index]?.map (loadedSession (index + 1)) :=
    List.getElem?_mapIdx ..
  rw [transaction?_succ, hsession]
  cases sessions[index]? with
  | none => rfl
  | some session => exact List.getElem?_mapIdx ..

theorem exists_recorded_of_mem_loaded {t : Transaction κ ν}
    (ht : t ∈ (loaded sessions).clientTransactions) :
    ∃ session ∈ sessions, ∃ u ∈ session, ∃ id, t = loadedTransaction id u := by
  rcases (mem_clientTransactions_iff _ t).mp ht with ⟨index, height, hlook⟩
  rw [transaction?_loaded, Option.map_eq_some_iff] at hlook
  rcases hlook with ⟨u, hu, rfl⟩
  rcases Option.bind_eq_some_iff.mp hu with ⟨session, hsession, hget⟩
  exact ⟨session, List.mem_of_getElem? hsession, u, List.mem_of_getElem? hget, _, rfl⟩

theorem exists_loaded_mem_of_recorded {session : Recorded.Session κ ν} (hsession : session ∈ sessions)
    {u : Recorded.Transaction κ ν} (hu : u ∈ session) :
    ∃ id, loadedTransaction id u ∈ (loaded sessions).clientTransactions := by
  rcases List.mem_iff_getElem?.mp hsession with ⟨index, hindex⟩
  rcases List.mem_iff_getElem?.mp hu with ⟨height, hheight⟩
  refine ⟨⟨index + 1, height⟩, (mem_clientTransactions_iff _ _).mpr ⟨index, height, ?_⟩⟩
  rw [transaction?_loaded, hindex, Option.bind_some, hheight, Option.map_some]

omit [DecidableEq κ] [DecidableEq ν] in
theorem exists_recorded_read {id : TransactionId} {t : Recorded.Transaction κ ν} {index : Nat}
    {e : Event κ ν} (he : (loadedTransaction id t).events[index]? = some e) (hread : e.isRead = true) :
    ∃ key seen, t.events[index]? = some (.read key seen) ∧ e = loadedEvent id (.read key seen) := by
  rw [loadedTransaction, List.getElem?_map, Option.map_eq_some_iff] at he
  rcases he with ⟨event, hevent, rfl⟩
  cases event with
  | write key value => exact absurd hread Bool.false_ne_true
  | read key seen => exact ⟨key, seen, hevent, rfl⟩

/-- A loaded history stores the values that were supplied. -/
theorem stores_loaded_iff (sessions : List (Recorded.Session κ ν)) (key : κ) (value : ν) :
    (loaded sessions).Stores key value ↔
      ∃ a ∈ Recorded.events sessions, a.supplies key value = true := by
  rw [Recorded.exists_supplies_iff]
  constructor
  · rintro ⟨t, ht, e, he, hwrite, rfl, rfl⟩
    rcases List.mem_cons.mp ht with rfl | ht
    · rcases List.mem_map.mp he with ⟨other, hother, rfl⟩
      exact .inr ⟨rfl, hother⟩
    · rcases exists_recorded_of_mem_loaded ht with ⟨session, hsession, u, hu, id, rfl⟩
      rcases List.mem_map.mp he with ⟨a, ha, rfl⟩
      refine .inl ((Recorded.mem_events_iff sessions _).mpr ⟨session, hsession, u, hu, ?_⟩)
      cases a with
      | read other seen => exact absurd hwrite Bool.false_ne_true
      | write other stored => exact ha
  · rintro (hwrite | ⟨rfl, hkey⟩)
    · rcases (Recorded.mem_events_iff sessions _).mp hwrite with ⟨session, hsession, u, hu, he⟩
      rcases exists_loaded_mem_of_recorded hsession hu with ⟨id, hmem⟩
      exact ⟨loadedTransaction id u, mem_transactions_of_client hmem, loadedEvent id (.write key value),
        List.mem_map_of_mem he, rfl, rfl, rfl⟩
    · exact ⟨(loaded sessions).init, List.mem_cons_self .., _, List.mem_map_of_mem hkey, rfl, rfl, rfl⟩

theorem loaded_concat (sessions : List (Recorded.Session κ ν)) (session : Recorded.Session κ ν) :
    loaded (sessions ++ [session]) =
      ending (defaultInit (openedKeys (Recorded.events (sessions ++ [session])))) (loaded sessions).sessions
        (loadedSession (sessions.length + 1) session).transactions := by
  unfold ending loaded
  simp only [List.mapIdx_append, List.mapIdx_cons, List.mapIdx_nil, List.length_mapIdx, Nat.zero_add]
  rfl

omit [DecidableEq κ] [DecidableEq ν] in
theorem transactions_loadedSession_concat (number : Nat) (session : Recorded.Session κ ν)
    (t : Recorded.Transaction κ ν) : (loadedSession number (session ++ [t])).transactions =
      (loadedSession number session).transactions ++ [loadedTransaction ⟨number, session.length⟩ t] := by
  simp only [loadedSession, List.mapIdx_append, List.mapIdx_cons, List.mapIdx_nil, Nat.zero_add]

section Replay

variable (sessions : List (Recorded.Session κ ν)) (session : Recorded.Session κ ν)
  (seen : List (Recorded.Event κ ν))

theorem addSession_loaded :
    (loaded sessions).addSession = (sessions.length + 1, loaded (sessions ++ [[]])) := by
  have hevents : Recorded.events (sessions ++ [[]]) = Recorded.events sessions := by
    rw [Recorded.events_append]
    exact List.append_nil _
  rw [loaded_concat, hevents]
  simp only [addSession, ending, loaded, loadedSession, List.length_mapIdx, List.mapIdx_nil]

theorem place_eq : (⟨sessions.length + 1, session.length⟩ : TransactionId) =
    ⟨(loaded sessions).sessions.length + 1,
      (loadedSession (sessions.length + 1) session).transactions.length⟩ := by
  simp only [loaded, loadedSession, List.length_mapIdx]

theorem loaded_running : loaded (running sessions session seen) =
    ending (defaultInit (openedKeys (Recorded.events (running sessions session seen))))
      (loaded sessions).sessions ((loadedSession (sessions.length + 1) session).transactions ++
        [loadedTransaction ⟨sessions.length + 1, session.length⟩ ⟨seen, false⟩]) := by
  rw [← transactions_loadedSession_concat]
  exact loaded_concat sessions _

theorem transaction?_loaded_running : (loaded (running sessions session seen)).transaction?
    ⟨sessions.length + 1, session.length⟩ =
      some (loadedTransaction ⟨sessions.length + 1, session.length⟩ ⟨seen, false⟩) := by
  rw [loaded_running, place_eq]
  exact transaction?_ending _ _ _ [] _

theorem addTransaction_loaded :
    (loaded (sessions ++ [session])).addTransaction (sessions.length + 1) =
      .ok (⟨sessions.length + 1, session.length⟩, loaded (running sessions session [])) := by
  have hadd := addTransaction_ending (defaultInit (openedKeys (Recorded.events (sessions ++ [session]))))
    (loaded sessions).sessions (loadedSession (sessions.length + 1) session).transactions
  rw [← place_eq, ← loaded_concat] at hadd
  rw [loaded_running, Recorded.events_running, List.append_nil]
  rw [show (loaded sessions).sessions.length = sessions.length from List.length_mapIdx ..] at hadd
  exact hadd

theorem commit_loaded :
    (loaded (running sessions session seen)).commit ⟨sessions.length + 1, session.length⟩ =
      .ok (loaded (sessions ++ [session ++ [⟨seen, true⟩]])) := by
  have hevents : Recorded.events (sessions ++ [session ++ [⟨seen, true⟩]]) =
      Recorded.events (running sessions session seen) := by
    rw [running, Recorded.events_last_append, Recorded.events_last_append]
    rfl
  rw [loaded_running, loaded_concat, hevents, transactions_loadedSession_concat, place_eq]
  exact commit_ending _ _ _ [] rfl

theorem addEvent_read_running (init : Transaction κ ν) (key : κ) (value : Option ν) :
    ((ending init (loaded sessions).sessions ((loadedSession (sessions.length + 1) session).transactions ++
      [loadedTransaction ⟨sessions.length + 1, session.length⟩ ⟨seen, false⟩])).addEvent
        ⟨sessions.length + 1, session.length⟩ .read key (value.getD default)).map Prod.snd =
    .ok (ending init (loaded sessions).sessions
      ((loadedSession (sessions.length + 1) session).transactions ++
        [loadedTransaction ⟨sessions.length + 1, session.length⟩ ⟨seen ++ [.read key value], false⟩])) := by
  rw [place_eq, addEvent_eq_ok (transaction?_ending _ _ _ [] _) rfl
    (fun hc => absurd hc Bool.false_ne_true) (fun hc => by cases hc), modifyTransaction_ending]
  simp only [loadedTransaction, List.map_append, List.map_cons, List.map_nil, loadedEvent]

theorem ensureInitial_loaded (key : κ) :
    (loaded sessions).ensureInitial key = .ok { loaded sessions with
      init := defaultInit (openedKeys (Recorded.events sessions ++ [.read key none])) } := by
  rw [Recorded.openedKeys_concat]
  unfold ensureInitial
  by_cases hstores : (loaded sessions).Stores key default
  · -- The value is there, so nothing is called for.
    have hnothing : Recorded.opened (Recorded.events sessions) (.read key none) = [] := by
      rcases (stores_loaded_iff sessions key default).mp hstores with ⟨a, ha, hsupplies⟩
      exact if_pos (List.any_eq_true.mpr ⟨a, ha, hsupplies⟩)
    rw [hnothing, List.append_nil]
    rcases hwriter : (loaded sessions).writerOf? key default with _ | place
    · exact absurd ((writerOf?_eq_none_iff_not_stores _ _ _).mp hwriter) (not_not_intro hstores)
    · rfl
  · -- Nobody stores the value, so the init transaction takes it.
    have hcalls : Recorded.opened (Recorded.events sessions) (.read key none) = [key] := by
      refine if_neg fun hany => hstores ?_
      rcases List.any_eq_true.mp hany with ⟨a, ha, hsupplies⟩
      exact (stores_loaded_iff sessions key default).mpr ⟨a, ha, hsupplies⟩
    rw [hcalls, (writerOf?_eq_none_iff_not_stores _ _ _).mpr hstores]
    have hadd := (addEvent_write_decides (transaction?_init (loaded sessions)) rfl key default).ok hstores
    refine hadd.trans ?_
    simp only [modifyTransaction, TransactionId.init, loaded, defaultInit, List.map_append, List.map_cons,
      List.map_nil]

omit [DecidableEq κ] [DecidableEq ν] [Inhabited ν] in
theorem events_running_concat (e : Recorded.Event κ ν) :
    Recorded.events (running sessions session (seen ++ [e])) =
      Recorded.events (running sessions session seen) ++ [e] := by
  rw [Recorded.events_running, Recorded.events_running, List.append_assoc]

theorem loadEvent_write_decides (hfresh : FreshWrites (Recorded.events (running sessions session seen)))
    (key : κ) (value : ν) :
    Decides
      (loadEvent ⟨sessions.length + 1, session.length⟩ (loaded (running sessions session seen))
        (.write key value))
      (FreshWrites (Recorded.events (running sessions session (seen ++ [.write key value]))))
      (loaded (running sessions session (seen ++ [.write key value]))) := by
  refine (addEvent_write_decides (transaction?_loaded_running sessions session seen) rfl key value).congr
    ?_ ?_
  · -- What is stored so far is what has been supplied.
    rw [events_running_concat, Recorded.freshWrites_concat_iff, stores_loaded_iff]
    constructor
    · intro hnot
      refine ⟨hfresh, fun key' value' heq a ha => ?_⟩
      cases heq
      rw [← Bool.not_eq_true]
      exact fun hsupplies => hnot ⟨a, ha, hsupplies⟩
    · rintro ⟨_, hlast⟩ ⟨a, ha, hsupplies⟩
      rw [hlast key value rfl a ha] at hsupplies
      exact absurd hsupplies Bool.false_ne_true
  · rw [loaded_running, loaded_running, events_running_concat, Recorded.openedKeys_concat, Recorded.opened,
      List.append_nil, place_eq, modifyTransaction_ending]
    · simp only [loadedTransaction, List.map_append, List.map_cons, List.map_nil, loadedEvent]
    · exact fun _ hc => by cases hc

theorem loadEvent_read_eq_ok (key : κ) (value : Option ν) :
    loadEvent ⟨sessions.length + 1, session.length⟩ (loaded (running sessions session seen))
        (.read key value) =
      .ok (loaded (running sessions session (seen ++ [.read key value]))) := by
  rw [loaded_running sessions session (seen ++ _), events_running_concat]
  cases value with
  | some value =>
    -- A read of a given value calls for nothing.
    have hsame : openedKeys (Recorded.events (running sessions session seen) ++
        [.read key (some value)]) = openedKeys (Recorded.events (running sessions session seen)) := by
      rw [Recorded.openedKeys_concat]
      exact List.append_nil _
    rw [hsame, loaded_running]
    exact addEvent_read_running sessions session seen _ key (some value)
  | none =>
    rw [loadEvent, ensureInitial_loaded]
    have hview : { loaded (running sessions session seen) with
        init := defaultInit (openedKeys (Recorded.events (running sessions session seen) ++
          [.read key none])) } = ending (defaultInit (openedKeys (Recorded.events
            (running sessions session seen) ++ [.read key none]))) (loaded sessions).sessions
        ((loadedSession (sessions.length + 1) session).transactions ++
          [loadedTransaction ⟨sessions.length + 1, session.length⟩ ⟨seen, false⟩]) := by
      rw [loaded_running]
      rfl
    rw [hview]
    exact addEvent_read_running sessions session seen _ key none

/-- One event leads from the history of a recording to that of the longer one, or it is a write that is not
    new. -/
theorem loadEvent_decides (hfresh : FreshWrites (Recorded.events (running sessions session seen)))
    (e : Recorded.Event κ ν) :
    Decides (loadEvent ⟨sessions.length + 1, session.length⟩ (loaded (running sessions session seen)) e)
      (FreshWrites (Recorded.events (running sessions session (seen ++ [e]))))
      (loaded (running sessions session (seen ++ [e]))) := by
  cases e with
  | write key value => exact loadEvent_write_decides sessions session seen hfresh key value
  | read key value =>
    refine .of_ok (loadEvent_read_eq_ok sessions session seen key value) ?_
    rw [events_running_concat, Recorded.freshWrites_concat_iff]
    exact ⟨hfresh, fun _ _ hc => by cases hc⟩

theorem loadTransaction_decides (hfresh : FreshWrites (Recorded.events (sessions ++ [session])))
    (t : Recorded.Transaction κ ν) :
    Decides (loadTransaction (sessions.length + 1) (loaded (sessions ++ [session])) t)
      (FreshWrites (Recorded.events (sessions ++ [session ++ [t]])))
      (loaded (sessions ++ [session ++ [t]])) := by
  have hevents : Recorded.events (sessions ++ [session ++ [t]]) =
      Recorded.events (running sessions session t.events) := by
    rw [running, Recorded.events_last_append, Recorded.events_last_append]
    simp only [Recorded.events, List.flatten_singleton, List.flatMap_singleton]
  rw [loadTransaction, addTransaction_loaded, hevents]
  -- The loop runs over the events of a transaction that is still running; whether it is committed is
  -- decided behind the loop and changes no event.
  have hstart : FreshWrites (Recorded.events (running sessions session [])) := by
    rw [Recorded.events_running, List.append_nil]
    exact hfresh
  have hloop := Decides.foldlM (fun seen later hgood => by
      rw [Recorded.events_running, ← List.append_assoc, ← Recorded.events_running] at hgood
      exact hgood.of_append)
    (fun seen e hgood => loadEvent_decides sessions session seen hgood e) t.events [] hstart
  refine hloop.bind id fun hgood => .of_ok ?_ hgood
  rw [List.nil_append]
  rcases t with ⟨events, committed⟩
  cases committed with
  | false => rfl
  | true => exact commit_loaded sessions session events

theorem loadSession_decides (hfresh : FreshWrites (Recorded.events sessions))
    (session : Recorded.Session κ ν) :
    Decides (loadSession (loaded sessions) session)
      (FreshWrites (Recorded.events (sessions ++ [session]))) (loaded (sessions ++ [session])) := by
  rw [loadSession, addSession_loaded]
  have hstart : FreshWrites (Recorded.events (sessions ++ [[]])) := by
    rw [Recorded.events_append]
    exact (List.append_nil (Recorded.events sessions)).symm ▸ hfresh
  refine Decides.foldlM (fun seen later hgood => ?_)
    (fun seen t hgood => loadTransaction_decides sessions seen hgood t) session [] hstart
  rw [Recorded.events_last_append] at hgood
  exact hgood.of_append

end Replay

/-- A recording can be loaded exactly if every write is new. -/
theorem load_decides (sessions : List (Recorded.Session κ ν)) :
    Decides (load sessions) (FreshWrites (Recorded.events sessions)) (loaded sessions) := by
  refine Decides.foldlM (fun seen later hgood => ?_)
    (fun seen session hgood => loadSession_decides seen hgood session) sessions [] List.Pairwise.nil
  rw [Recorded.events_append] at hgood
  exact hgood.of_append

theorem load_eq_ok_iff {h : History κ ν} :
    load sessions = .ok h ↔ FreshWrites (Recorded.events sessions) ∧ h = loaded sessions := by
  constructor
  · intro hload
    exact (load_decides sessions).of_eq_ok hload
  · rintro ⟨hfresh, rfl⟩
    exact (load_decides sessions).ok hfresh

theorem built_loaded (hfresh : FreshWrites (Recorded.events sessions)) : (loaded sessions).Built :=
  Built.load ((load_decides sessions).ok hfresh)

omit [DecidableEq ν] in
theorem finalValue?_defaultInit (keys : List κ) (key : κ) (value : ν) :
    (defaultInit keys : Transaction κ ν).finalValue? key = some value ↔
      value = default ∧ key ∈ keys := by
  have hvalue : ∀ value : ν, (defaultInit keys).finalValue? key = some value →
      value = default ∧ key ∈ keys := by
    intro value hfinal
    rcases (Transaction.finalValue?_eq_some_iff _ _ _).mp hfinal with ⟨index, e, he, hwrites, rfl, _⟩
    rcases List.mem_map.mp (List.mem_of_getElem? he) with ⟨other, hother, rfl⟩
    rcases (writesKey_iff _ _).mp hwrites with ⟨_, rfl⟩
    exact ⟨rfl, hother⟩
  refine ⟨hvalue value, ?_⟩
  rintro ⟨rfl, hkey⟩
  -- Some value is left behind under a key that is written, and there is only one.
  have hwrites : (defaultInit keys : Transaction κ ν).writesKey key = true :=
    List.any_eq_true.mpr ⟨_, List.mem_map_of_mem hkey, (writesKey_iff _ _).mpr ⟨rfl, rfl⟩⟩
  rcases (Transaction.writesKey_eq_true_iff _ key).mp hwrites with ⟨value, hfinal⟩
  rw [hfinal, (hvalue value hfinal).1]

end Loaded

end History

end Isolation
