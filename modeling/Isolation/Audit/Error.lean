import Isolation.Arbitration.Conflict

/-!
# Rejections

Why an audit does not accept a history. All but the last cause are verdicts about the history; a failure
of the engine says nothing about it.

## Main definitions

* `AuditError`, `AuditError.message`: The causes and their wording.
* `AuditError.describe`: A report with the transactions spelled out.
-/

namespace Isolation

/-- Why an audit does not accept. -/
inductive AuditError (κ ν : Type) where
  | history (error : HistoryError κ ν)
  | malformed (fault : Malformed κ ν)
  /-- The known edges form a cycle, and the given edge lies on it. -/
  | cycle (level : IsolationLevel) (source target : TransactionId)
  | unsatisfiable (level : IsolationLevel) (conflicts : Conflicts κ)
  | oracle (message : String)
deriving DecidableEq

namespace AuditError

variable {κ ν : Type}

def isViolation : AuditError κ ν → Bool
  | .oracle _ => false
  | _ => true

/-- The transactions a rejection points at, sorted. -/
def implicated : AuditError κ ν → List TransactionId
  | .cycle _ source target => SortedList.ofList [source, target]
  | .unsatisfiable _ conflicts => conflicts.transactions
  | _ => []

variable [Render κ] [Render ν]

/-- The wording of a cause. -/
def message : AuditError κ ν → String
  | .history error => "invalid history: " ++ error.message
  | .malformed fault => "malformed history: " ++ fault.message
  | .cycle level source target =>
    "known edges violate " ++ level.text ++ ": cycle through " ++ source.text ++ " -> " ++
      target.text
  | .unsatisfiable level conflicts =>
    "no ordering satisfies " ++ level.text ++ ": " ++ Nat.repr conflicts.edges.length ++
      " edges and " ++ Nat.repr conflicts.constraints.length ++ " constraints conflict"
  | .oracle message => "solver failure: " ++ message

def details : AuditError κ ν → String
  | .unsatisfiable _ conflicts => conflicts.text
  | _ => ""

/-- A report: the cause, the conflict in detail, and the transactions that are involved. -/
def describe (error : AuditError κ ν) (h : History κ ν) : String :=
  let involved := error.implicated
  error.message ++ "\n" ++ error.details ++
    if involved.isEmpty then ""
    else "transactions:\n" ++
      String.join ((involved.filterMap h.transaction?).map fun t => "  " ++ t.text ++ "\n")

end AuditError

instance {κ ν : Type} [JsonCodec κ] [JsonCodec ν] : JsonCodec (AuditError κ ν) where
  encode
    | .history error => .object [("History", JsonCodec.encode error)]
    | .malformed fault => .object [("Malformed", JsonCodec.encode fault)]
    | .cycle level source target =>
      .object [("Cycle", .object [("level", JsonCodec.encode level),
        ("a", JsonCodec.encode source), ("b", JsonCodec.encode target)])]
    | .unsatisfiable level conflicts =>
      .object [("Unsatisfiable", .object [("level", JsonCodec.encode level),
        ("conflicts", JsonCodec.encode conflicts)])]
    | .oracle message => .object [("Oracle", .string message)]
  decode? json := do
    match ← json.case? with
    | ("History", some contents) => return .history (← JsonCodec.decode? contents)
    | ("Malformed", some contents) => return .malformed (← JsonCodec.decode? contents)
    | ("Cycle", some contents) =>
      let [level, source, target] ← contents.named? ["level", "a", "b"] | none
      return .cycle (← level.required?) (← source.required?) (← target.required?)
    | ("Unsatisfiable", some contents) =>
      let [level, conflicts] ← contents.named? ["level", "conflicts"] | none
      return .unsatisfiable (← level.required?) (← conflicts.required?)
    | ("Oracle", some contents) => return .oracle (← JsonCodec.decode? contents)
    | _ => none

end Isolation
