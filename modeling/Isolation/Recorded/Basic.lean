import Isolation.Text.Quoted

/-!
# Recorded Sessions

What a client wrote down, before anything is numbered or checked: sessions of transactions, each a
list of events and a flag that says whether it committed. A recorded read may leave its value open.
It then saw whatever the key held before the recording started, and it is the loader's business to
say what that was.

## Main definitions

* `Recorded.Event`, `Recorded.Transaction`, `Recorded.Session`: Recorded sessions.
* `Recorded.transcript`: The compact text form.
-/

namespace Isolation.Recorded

/-- A read or write as a client recorded it. -/
inductive Event (κ ν : Type) where
  /-- A read; without a value it saw the key's initial value. -/
  | read (key : κ) (value : Option ν)
  | write (key : κ) (value : ν)
deriving DecidableEq

/-- The events of a transaction and whether it committed. -/
structure Transaction (κ ν : Type) where
  events : List (Event κ ν)
  committed : Bool
deriving DecidableEq

/-- The transactions of one client. -/
abbrev Session (κ ν : Type) : Type := List (Transaction κ ν)

variable {κ ν : Type}

namespace Event

def key : Event κ ν → κ
  | .read key _ => key
  | .write key _ => key

def isWrite : Event κ ν → Bool
  | .read _ _ => false
  | .write _ _ => true

def mapKey {κ' : Type} (rename : κ → κ') : Event κ ν → Event κ' ν
  | .read key value => .read (rename key) value
  | .write key value => .write (rename key) value

def mapValue {ν' : Type} (change : ν → ν') : Event κ ν → Event κ ν'
  | .read key value => .read key (value.map change)
  | .write key value => .write key (change value)

variable [Render κ] [Render ν]

def text : Event κ ν → String
  | .read key (some value) => Render.plain key ++ "==" ++ Render.plain value
  | .read key none => Render.plain key ++ "==?"
  | .write key value => Render.plain key ++ ":=" ++ Render.plain value

def note : Event κ ν → String
  | .read key (some value) => Render.quoted key ++ "=>" ++ Render.quoted value
  | .read key none => Render.quoted key ++ "=>?"
  | .write key value => Render.quoted key ++ "<=" ++ Render.quoted value

end Event

namespace Transaction

/-- The same transaction with every event changed. -/
def mapEvents {κ' ν' : Type} (change : Event κ ν → Event κ' ν') (t : Transaction κ ν) :
    Transaction κ' ν' :=
  ⟨t.events.map change, t.committed⟩

variable [Render κ] [Render ν]

/-- A transaction in a transcript; an exclamation mark says that it has not committed. -/
def text (t : Transaction κ ν) : String :=
  "[" ++ " ".intercalate (t.events.map Event.text) ++ "]" ++ (if t.committed then "" else "!")

def note (t : Transaction κ ν) : String :=
  "[" ++ ", ".intercalate (t.events.map Event.note) ++ "]" ++ (if t.committed then "" else "!")

end Transaction

/-- The transactions of one session, a line each. -/
def sessionText [Render κ] [Render ν] (session : Session κ ν) : String :=
  String.join (session.map fun t => t.text ++ "\n")

/-- Sessions in the compact text form: a line for every transaction, and a line of dashes between two
    sessions. -/
def transcript [Render κ] [Render ν] (sessions : List (Session κ ν)) : String :=
  "---\n".intercalate (sessions.map sessionText)

def events (sessions : List (Session κ ν)) : List (Event κ ν) :=
  sessions.flatten.flatMap Transaction.events

/-- The keys of all events in order, repeats included. -/
def keys (sessions : List (Session κ ν)) : List κ :=
  (events sessions).map Event.key

def mapEvents {κ' ν' : Type} (change : Event κ ν → Event κ' ν') (sessions : List (Session κ ν)) :
    List (Session κ' ν') :=
  sessions.map fun session => session.map (Transaction.mapEvents change)

def mapKeys {κ' : Type} (rename : κ → κ') (sessions : List (Session κ ν)) :
    List (Session κ' ν) :=
  mapEvents (Event.mapKey rename) sessions

end Isolation.Recorded
