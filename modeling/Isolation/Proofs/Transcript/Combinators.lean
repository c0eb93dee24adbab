import Isolation.Proofs.Text.Reading
import Isolation.Transcript.Combinators

/-!
# What Readers Take and Where They Fail

A *form* relates a text to what it stands for. Of a reader two things are to be known at once: that what
it takes has a form, and that what stands before a fault is not to blame, which means that it can be
completed to a text of the form. A reader of which both are known *fits* the form.

To fit is kept by all combinators. Ordered choice needs one form for both readers, and it does not matter
which of the faults is reported. Behind what the first reader of a sequence has taken, the second one has to
fit what is missing from the form of both. It need not be said that there is something to complete the
first part with: a reader that fits a form shows a text of that form, if only by failing on the empty text.

That a text of the form is taken is a matter of what follows it, and is said for each reader by itself.

## Main definitions

* `Reader.Fits`: What is taken has the form, and what stands before a fault can be completed to it.

## Theorems

* `Reader.Fits.bind`, `Reader.Fits.orElse`: Sequences and choices of readers that fit a form fit it.
-/

namespace Isolation.Transcript

open Text (Stops)

variable {α β : Type} {text rest front : List Char}

/-- With more behind it, the text has the form. -/
def Completable (form : List Char → α → Prop) (text : List Char) : Prop :=
  ∃ more a, form (text ++ more) a

/-- What was taken has the form, and what stands before a fault can be completed to it. -/
def Reply.Fits (form : List Char → α → Prop) (text : List Char) : Reply α → Prop
  | .done a rest => ∃ front, text = front ++ rest ∧ form front a
  | .backtrack fault => ∃ front, text = front ++ fault.rest ∧ Completable form front
  | .cut fault => ∃ front, text = front ++ fault.rest ∧ Completable form front

/-- The replies of the reader fit the form, whatever the text. -/
def Reader.Fits (reader : Reader α) (form : List Char → α → Prop) : Prop :=
  ∀ text, (reader.read text).Fits form text

section Replies

variable {form other : List Char → α → Prop} {whole : List Char → β → Prop} {reply : Reply α}

theorem Completable.mono (himp : ∀ {text a}, form text a → other text a) (htext : Completable form text) :
    Completable other text := by
  rcases htext with ⟨more, a, ha⟩
  exact ⟨more, a, himp ha⟩

theorem Completable.append (hrest : Completable (fun more a => form (front ++ more) a) rest) :
    Completable form (front ++ rest) := by
  rcases hrest with ⟨more, a, ha⟩
  exact ⟨more, a, by rwa [List.append_assoc]⟩

theorem Completable.of_prefix {before : List Char} (hfront : before <+: text)
    (htext : Completable form text) : Completable form before := by
  rcases hfront with ⟨middle, rfl⟩
  rcases htext with ⟨more, a, ha⟩
  exact ⟨middle ++ more, a, by rwa [← List.append_assoc]⟩

theorem Reply.Fits.mono (himp : ∀ {text a}, form text a → other text a) (hreply : reply.Fits form text) :
    reply.Fits other text := by
  cases reply with
  | done a rest =>
    rcases hreply with ⟨front, htext, ha⟩
    exact ⟨front, htext, himp ha⟩
  | backtrack fault =>
    rcases hreply with ⟨front, htext, hform⟩
    exact ⟨front, htext, hform.mono himp⟩
  | cut fault =>
    rcases hreply with ⟨front, htext, hform⟩
    exact ⟨front, htext, hform.mono himp⟩

/-- What fits the missing part of a form fits the form behind the other part. -/
theorem Reply.Fits.append (hreply : reply.Fits (fun more a => form (front ++ more) a) rest) :
    reply.Fits form (front ++ rest) := by
  cases reply with
  | done a left =>
    rcases hreply with ⟨more, rfl, ha⟩
    exact ⟨front ++ more, (List.append_assoc ..).symm, ha⟩
  | backtrack fault =>
    rcases hreply with ⟨more, hrest, hform⟩
    exact ⟨front ++ more, by rw [hrest, List.append_assoc], hform.append⟩
  | cut fault =>
    rcases hreply with ⟨more, hrest, hform⟩
    exact ⟨front ++ more, by rw [hrest, List.append_assoc], hform.append⟩

/-- There is a text of any form that a reply fits, be it the completion of nothing. -/
theorem Reply.Fits.exists_form (hreply : reply.Fits form text) : ∃ text a, form text a := by
  cases reply with
  | done a rest =>
    rcases hreply with ⟨front, _, ha⟩
    exact ⟨front, a, ha⟩
  | backtrack fault =>
    rcases hreply with ⟨front, _, more, a, ha⟩
    exact ⟨front ++ more, a, ha⟩
  | cut fault =>
    rcases hreply with ⟨front, _, more, a, ha⟩
    exact ⟨front ++ more, a, ha⟩

/-- Behind a reply, the rest of a form is to be found. -/
theorem Reply.Fits.andThen {next : α → List Char → Reply β} (hreply : reply.Fits form text)
    (hnext : ∀ {front a}, form front a → ∀ rest,
      (next a rest).Fits (fun more b => whole (front ++ more) b) rest) :
    (reply.andThen next).Fits whole text := by
  -- The first part can be completed, and behind it the second reader shows how to go on.
  have hcomplete : ∀ {front}, Completable form front → Completable whole front := by
    rintro front ⟨more, a, ha⟩
    rcases (hnext ha []).exists_form with ⟨last, b, hb⟩
    exact ⟨more ++ last, b, by rwa [← List.append_assoc]⟩
  cases reply with
  | done a rest =>
    rcases hreply with ⟨front, rfl, ha⟩
    exact (hnext ha rest).append
  | backtrack fault =>
    rcases hreply with ⟨front, htext, hform⟩
    exact ⟨front, htext, hcomplete hform⟩
  | cut fault =>
    rcases hreply with ⟨front, htext, hform⟩
    exact ⟨front, htext, hcomplete hform⟩

/-- A reader may fail where it starts if there is a text of the form at all. -/
theorem fits_backtrack_self {a : α} (hform : form front a) (text : List Char) (remarks : List Remark) :
    (Reply.backtrack ⟨text, remarks⟩ : Reply α).Fits form text :=
  ⟨[], rfl, front, a, hform⟩

end Replies

namespace Reader

variable {form : List Char → α → Prop} {whole : List Char → β → Prop} {first second : Reader α}
  {kind : Char → Bool}

theorem Fits.mono {other : List Char → α → Prop} (hfirst : first.Fits form)
    (himp : ∀ {text a}, form text a → other text a) : first.Fits other :=
  fun text => (hfirst text).mono himp

section Signs

theorem fits_sign (expected : List Char) : (sign expected).Fits fun text _ => text = expected := by
  intro text
  cases hread : (sign expected).read text with
  | done a rest => exact ⟨expected, sign_eq_done_iff.mp hread, rfl⟩
  | backtrack fault =>
    simp only [sign] at hread
    split at hread <;> cases hread
    exact ⟨[], rfl, expected, (), rfl⟩
  | cut fault =>
    simp only [sign] at hread
    split at hread <;> cases hread

theorem sign_append (expected rest : List Char) : (sign expected).read (expected ++ rest) = .done () rest :=
  sign_eq_done_iff.mpr rfl

theorem sign_of_stops {c : Char} (hrest : Stops (· == c) rest) (more : List Char) :
    (sign (c :: more)).read rest = .backtrack ⟨rest, []⟩ := by
  cases rest with
  | nil => rfl
  | cons d rest =>
    have hne : d ≠ c := by simpa using hrest d rfl
    simp [sign, Ne.symm hne]

theorem fits_run (kind : Char → Bool) : (run kind).Fits fun text _ => ∀ c ∈ text, kind c = true :=
  fun text => ⟨text.takeWhile kind, List.takeWhile_append_dropWhile.symm,
    fun _ hc => List.mem_takeWhile_imp hc⟩

theorem fits_someRun {c : Char} (hc : kind c = true) :
    (someRun kind).Fits fun text run => run = text ∧ text ≠ [] ∧ ∀ c ∈ text, kind c = true := by
  intro text
  simp only [someRun]
  split
  · refine fits_backtrack_self (a := [c]) ⟨rfl, List.cons_ne_nil _ _, ?_⟩ text []
    exact List.forall_mem_singleton.mpr hc
  · rename_i d more hrun
    refine ⟨d :: more, ?_, rfl, List.cons_ne_nil _ _, fun e he => ?_⟩
    · rw [← hrun, List.takeWhile_append_dropWhile]
    · rw [← hrun] at he
      exact List.mem_takeWhile_imp he

theorem run_append (kind : Char → Bool) (hrun : ∀ c ∈ front, kind c = true) (hrest : Stops kind rest) :
    (run kind).read (front ++ rest) = .done front rest := by
  simp only [run, Text.takeWhile_append_of_stops hrun hrest, Text.dropWhile_append_of_stops hrun hrest]

theorem someRun_append (kind : Char → Bool) (hne : front ≠ []) (hrun : ∀ c ∈ front, kind c = true)
    (hrest : Stops kind rest) :
    (someRun kind).read (front ++ rest) = .done front rest := by
  rcases List.exists_cons_of_ne_nil hne with ⟨c, more, rfl⟩
  simp only [someRun, Text.takeWhile_append_of_stops hrun hrest, Text.dropWhile_append_of_stops hrun hrest]

theorem someRun_of_stops (kind : Char → Bool) (hrest : Stops kind rest) :
    (someRun kind).read rest = .backtrack ⟨rest, []⟩ := by
  have hrun : rest.takeWhile kind = [] := Text.takeWhile_append_of_stops (List.forall_mem_nil _) hrest
  simp only [someRun, hrun]

end Signs

section Compositions

theorem fits_pure {a : α} (ha : form [] a) : (pure a : Reader α).Fits form :=
  fun _ => ⟨[], rfl, ha⟩

/-- Behind what the first reader takes, the second one fits what is missing from the form of both. -/
theorem Fits.bind {next : α → Reader β} (hfirst : first.Fits form)
    (hnext : ∀ {front a}, form front a → (next a).Fits fun more b => whole (front ++ more) b) :
    (first >>= next).Fits whole :=
  fun text => (hfirst text).andThen fun ha => hnext ha

theorem Fits.map {f : α → β} (hfirst : first.Fits form)
    (himp : ∀ {text a}, form text a → whole text (f a)) : (f <$> first).Fits whole := by
  refine Fits.bind hfirst fun {front a} ha => fits_pure ?_
  rw [List.append_nil]
  exact himp ha

theorem Fits.orElse (hfirst : first.Fits form) (hsecond : second.Fits form) :
    (first.orElse second).Fits form := by
  intro text
  have hreply := hfirst text
  simp only [Reader.orElse]
  split
  · rename_i hread
    rwa [hread] at hreply
  · exact hsecond text
  · rename_i hread
    rwa [hread] at hreply

theorem Fits.optional (form : List Char → Option α → Prop)
    (hfirst : first.Fits fun text a => form text (some a)) (hnone : form [] none) :
    (Reader.optional first).Fits form :=
  (hfirst.map fun ha => ha).orElse (fits_pure hnone)

theorem Fits.committed (hfirst : first.Fits form) : first.committed.Fits form := by
  intro text
  have hreply := hfirst text
  simp only [Reader.committed]
  split
  all_goals
    rename_i hread
    rwa [hread] at hreply

theorem Fits.remarked (hfirst : first.Fits form) (remark : Remark) :
    (first.remarked remark).Fits form := by
  intro text
  have hreply := hfirst text
  simp only [Reader.remarked]
  split
  all_goals
    rename_i hread
    rwa [hread] at hreply

end Compositions

end Reader

end Isolation.Transcript
