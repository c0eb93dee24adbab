import Isolation.Arbitration.Solve
import Isolation.Audit.Error
import Isolation.History.Consistency
import Isolation.Recorded.Load
import Isolation.Sat.Substitution

/-!
# Auditing a History

An audit first looks for local faults. It then collects what is known about the order of the
transactions, and the constraints that leave it open; prunes the constraints, if the options say so; and
hands what remains to an arbitration. Acceptance comes with a witness.

The engine is a parameter. `History.audit` uses the one that comes with the library.

## Main definitions

* `History.auditWith`, `History.audit`: The audit of a history, with any engine and with the own one.
* `checkWith`, `check`: The audit of recorded sessions.
-/

namespace Isolation

variable {κ ν : Type} [DecidableEq κ] [Ord κ] [DecidableEq ν]

/-- What pruning leaves, or nothing done if the options ask for no pruning. -/
def Precedence.pruneFor (g : Precedence κ) (constraints : List (Constraint κ))
    (options : AuditOptions) : Except KnownCycle (Precedence κ × List (Constraint κ)) :=
  match options.pruning with
  | .preprocessOnly => .ok (g, constraints)
  | .iterative =>
    let pruned := g.prune constraints options
    pruned.outcome.map fun _ => (pruned.graph, pruned.constraints)

/-- Audits a history with the given engine. -/
def History.auditWith (engine : Sat.Engine) (h : History κ ν) (options : AuditOptions) :
    Except (AuditError κ ν) Witness :=
  match h.validate with
  | .error fault => .error (.malformed fault)
  | .ok () =>
    let graph := Precedence.ofHistory h
    match graph.pruneFor (constraints h graph) options with
    | .error cycle => .error (.cycle options.level cycle.source cycle.target)
    | .ok (graph, constraints) =>
      match Arbitration.solve engine graph constraints options with
      | .ordered witness => .ok witness
      | .conflicting conflicts => .error (.unsatisfiable options.level conflicts)
      | .failed message => .error (.oracle message)

/-- Audits a history. -/
def History.audit (h : History κ ν) (options : AuditOptions) :
    Except (AuditError κ ν) Witness :=
  h.auditWith Sat.searchEngine options

/-- Audits recorded sessions at a level with the given engine. -/
def checkWith [Inhabited ν] (engine : Sat.Engine) (sessions : List (Recorded.Session κ ν))
    (level : IsolationLevel) : Except (AuditError κ ν) Witness :=
  match History.load sessions with
  | .error error => .error (.history error)
  | .ok h => h.auditWith engine { level := level }

def check [Inhabited ν] (sessions : List (Recorded.Session κ ν)) (level : IsolationLevel) :
    Except (AuditError κ ν) Witness :=
  checkWith Sat.searchEngine sessions level

end Isolation
