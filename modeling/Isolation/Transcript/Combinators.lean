/-!
# Readers and Their Combinators

A reader takes something off the front of a text, or says where it got stuck. It can get stuck in two
ways. A reader that *backtracks* has found that its part does not begin here, and something else may be
tried in its place. A reader that *cuts* has seen enough of its part to be sure of it; then the fault
stands, and nothing else is tried.

An alternative starts again where the first attempt started, and the fault of the last attempt is the
one that counts. A list of items goes on as long as a separator and an item follow; a separator behind
which no item begins is given back. Faults collect remarks on their way out, from the inner parts to
the outer ones.

What a reader leaves is an end of the text, and every reader carries the proof. So a list comes to an
end if its separators take something, which is asked for where a list is read.

## Main definitions

* `Reply`, `Reader`: What comes of reading a text, and the functions that read.
* `Reader.orElse`, `Reader.committed`, `Reader.separated`: Ordered choice, faults that stand, and lists.
-/

namespace Isolation.Transcript

/-- A remark on a fault. -/
inductive Remark where
  | part (name : String)
  | expected (what : String)
deriving DecidableEq

/-- Where a reader got stuck, and what there is to say about it. -/
structure Fault where
  rest : List Char
  remarks : List Remark
deriving DecidableEq

def Fault.remark (remark : Remark) (fault : Fault) : Fault :=
  { fault with remarks := fault.remarks ++ [remark] }

/-- What comes of reading a text. -/
inductive Reply (α : Type) where
  | done (value : α) (rest : List Char)
  | backtrack (fault : Fault)
  /-- Something of this sort is here, but not as it should be. -/
  | cut (fault : Fault)
deriving DecidableEq

def Reply.andThen {α β : Type} (next : α → List Char → Reply β) : Reply α → Reply β
  | .done a rest => next a rest
  | .backtrack fault => .backtrack fault
  | .cut fault => .cut fault

theorem Reply.andThen_eq_done_iff {α β : Type} {next : α → List Char → Reply β} {reply : Reply α} {b : β}
    {rest : List Char} :
    reply.andThen next = .done b rest ↔ ∃ a behind, reply = .done a behind ∧ next a behind = .done b rest := by
  cases reply with
  | done a behind => simp [andThen, and_assoc]
  | backtrack fault => simp [andThen]
  | cut fault => simp [andThen]

/-- A reader leaves an end of the text that it reads. -/
structure Reader (α : Type) where
  read : List Char → Reply α
  suffix : ∀ {text rest : List Char} {a : α}, read text = .done a rest → rest <:+ text

def Reader.Consumes {α : Type} (reader : Reader α) : Prop :=
  ∀ text a rest, reader.read text = .done a rest → rest.length < text.length

namespace Reader

variable {α β : Type}

section Signs

def sign (expected : List Char) : Reader Unit where
  read text :=
    if expected.isPrefixOf text then .done () (text.drop expected.length) else .backtrack ⟨text, []⟩
  suffix h := by
    split at h
    · cases h
      exact List.drop_suffix ..
    · cases h

theorem sign_eq_done_iff {expected text rest : List Char} :
    (sign expected).read text = .done () rest ↔ text = expected ++ rest := by
  constructor
  · intro h
    simp only [sign] at h
    split at h
    · rename_i hfront
      obtain ⟨tail, rfl⟩ := List.isPrefixOf_iff_prefix.mp hfront
      cases h
      rw [List.drop_left]
    · cases h
  · rintro rfl
    simp [sign]

/-- Reads characters of a kind, as many as there are. -/
def run (kind : Char → Bool) : Reader (List Char) where
  read text := .done (text.takeWhile kind) (text.dropWhile kind)
  suffix h := by
    cases h
    exact List.dropWhile_suffix kind

/-- Reads characters of a kind, as many as there are, but at least one. -/
def someRun (kind : Char → Bool) : Reader (List Char) where
  read text :=
    match text.takeWhile kind with
    | [] => .backtrack ⟨text, []⟩
    | c :: more => .done (c :: more) (text.dropWhile kind)
  suffix h := by
    split at h
    · cases h
    · cases h
      exact List.dropWhile_suffix kind

theorem someRun_consumes (kind : Char → Bool) : (someRun kind).Consumes := by
  intro text run rest h
  have hlength := congrArg List.length (List.takeWhile_append_dropWhile (p := kind) (l := text))
  simp only [someRun] at h
  split at h
  · cases h
  · rename_i c more hrun
    cases h
    simp only [hrun, List.length_append, List.length_cons] at hlength
    omega

def endOfText : Reader Unit where
  read text := if text.isEmpty then .done () text else .backtrack ⟨text, []⟩
  suffix h := by
    split at h
    · cases h
      exact List.suffix_rfl
    · cases h

end Signs

section Sequences

protected def pure (a : α) : Reader α where
  read text := .done a text
  suffix h := by
    cases h
    exact List.suffix_rfl

/-- One reader and then another one, which may depend on what the first has read. -/
protected def bind (first : Reader α) (next : α → Reader β) : Reader β where
  read text := (first.read text).andThen fun a => (next a).read
  suffix h := by
    obtain ⟨a, behind, hfirst, hnext⟩ := Reply.andThen_eq_done_iff.mp h
    exact ((next a).suffix hnext).trans (first.suffix hfirst)

instance : Monad Reader where
  pure := Reader.pure
  bind := Reader.bind

theorem read_pure (a : α) (text : List Char) : (pure a : Reader α).read text = .done a text := rfl

theorem read_bind (first : Reader α) (next : α → Reader β) (text : List Char) :
    (first >>= next).read text = (first.read text).andThen fun a => (next a).read := rfl

theorem read_map (f : α → β) (first : Reader α) (text : List Char) :
    (f <$> first).read text = (first.read text).andThen fun a => .done (f a) := rfl

end Sequences

section Choices

/-- Ordered choice: the second reader is tried where the first one backtracks. -/
protected def orElse (first second : Reader α) : Reader α where
  read text :=
    match first.read text with
    | .done a rest => .done a rest
    | .backtrack _ => second.read text
    | .cut fault => .cut fault
  suffix h := by
    split at h
    · rename_i hfirst
      cases h
      exact first.suffix hfirst
    · exact second.suffix h
    · cases h

protected def optional (reader : Reader α) : Reader (Option α) :=
  (some <$> reader).orElse (pure none)

/-- What begins here must not be anything else. -/
def committed (reader : Reader α) : Reader α where
  read text :=
    match reader.read text with
    | .done a rest => .done a rest
    | .backtrack fault => .cut fault
    | .cut fault => .cut fault
  suffix h := by
    split at h
    · rename_i hread
      cases h
      exact reader.suffix hread
    · cases h
    · cases h

def remarked (remark : Remark) (reader : Reader α) : Reader α where
  read text :=
    match reader.read text with
    | .done a rest => .done a rest
    | .backtrack fault => .backtrack (fault.remark remark)
    | .cut fault => .cut (fault.remark remark)
  suffix h := by
    split at h
    · rename_i hread
      cases h
      exact reader.suffix hread
    · cases h
    · cases h

end Choices

section Lists

/-- Reads items with a separator before each, as long as there are any. -/
def readFollowed (separator : Reader β) (hseparator : separator.Consumes) (item : Reader α)
    (text : List Char) : Reply (List α) :=
  match _hread : separator.read text with
  | .cut fault => .cut fault
  | .backtrack _ => .done [] text
  | .done _ behind =>
    match _hitem : item.read behind with
    | .cut fault => .cut fault
    -- The separator is given back.
    | .backtrack _ => .done [] text
    | .done a rest =>
      (readFollowed separator hseparator item rest).andThen fun more => .done (a :: more)
termination_by text.length
decreasing_by
  exact Nat.lt_of_le_of_lt (item.suffix _hitem).length_le (hseparator _ _ _ _hread)

theorem readFollowed_suffix {separator : Reader β} {hseparator : separator.Consumes} {item : Reader α}
    {text rest : List Char} {items : List α}
    (h : readFollowed separator hseparator item text = .done items rest) : rest <:+ text := by
  fun_induction readFollowed separator hseparator item text generalizing items with
  | case1 text fault hread => cases h
  | case2 text fault hread =>
    cases h
    exact List.suffix_rfl
  | case3 text b behind hread fault hitem => cases h
  | case4 text b behind hread fault hitem =>
    cases h
    exact List.suffix_rfl
  | case5 text b behind hread a left hitem ih =>
    obtain ⟨more, after, hmore, hdone⟩ := Reply.andThen_eq_done_iff.mp h
    cases hdone
    exact (ih hmore).trans ((item.suffix hitem).trans (separator.suffix hread))

/-- Items with a separator before each, as many as there are. -/
def followed (separator : Reader β) (hseparator : separator.Consumes) (item : Reader α) :
    Reader (List α) where
  read := readFollowed separator hseparator item
  suffix := readFollowed_suffix

/-- At least one item, with a separator between two of them. -/
def separated (separator : Reader β) (hseparator : separator.Consumes) (item : Reader α) :
    Reader (List α) := do
  let first ← item
  let more ← followed separator hseparator item
  return first :: more

end Lists

end Reader

end Isolation.Transcript
