/-
# The optimizer

A plan says how often to simplify a trace and resolve its aliases, and what else to do.  It unfolds
into rounds of passes, and optimizing a trace means applying these passes one after the other, up to
the first that fails.  How a pass is carried out is a parameter of the plan's run, so that passes
can be applied in silence or reported on.

* `Pass.apply` : what one pass makes of a trace;
* `Pass.events` : what is reported about a pass;
* `Trace.optimize` : a trace after all passes of a plan.
-/
import DualTrace.Event
import DualTrace.Trace.Alias
import DualTrace.Trace.Constant
import DualTrace.Trace.DeadCode
import DualTrace.Trace.Simplify

namespace DualTrace

/-! ## Passes -/

/-- A step of optimization. -/
inductive Pass (α : Type) where
  /-- Put their values in place of constant equations. -/
  | foldConstants
  /-- Replace each equation by what the first rule that matches makes of it. -/
  | simplify (rules : List (Rule α))
  /-- Substitute each alias into its readers. -/
  | resolveAliases
  /-- Drop the equations that the return atom does not depend on. -/
  | dropDead
  /-- The end of a round: the trace must be well formed. -/
  | endRound (round : Nat)

namespace Pass

variable {α : Type} [Scalar α]

/-- What a pass makes of a trace. -/
def apply (t : Trace α) : Pass α → Except (Error α) (Trace α)
  | foldConstants => t.foldConstants
  | simplify rules => .ok (t.simplifyWith rules)
  | resolveAliases => t.resolveAliases
  | dropDead => .ok t.dropDead
  | endRound round =>
    match t.check with
    | .ok () => .ok t
    | .error _ => .error (.illFormedRound round)

/-- What is reported when a pass is applied to a trace.  A pass that fails reports nothing, except
that the end of a round is reported before the trace is checked. -/
def events (t : Trace α) : Pass α → List (Event α)
  | foldConstants =>
    match t.foldConstants with
    | .ok _ => [.folded t.constantCount]
    | .error _ => []
  | simplify rules => [.simplified (t.matchCount rules)]
  | resolveAliases =>
    match t.resolveAliases with
    | .ok u => [.aliasesResolved t.equations.length u.equations.length t.aliasCount]
    | .error _ => []
  | dropDead => [.deadDropped t.equations.length t.dropDead.equations.length]
  | endRound round => [.roundEnded round t.equations.length]

end Pass

/-! ## Plans -/

/-- What the optimizer is to do: the number of rounds, whether each begins with folding constants,
and whether dead equations are dropped after the last. -/
structure Plan where
  rounds : Nat := 1
  foldConstants : Bool := false
  dropDead : Bool := false

namespace Plan

variable {α : Type} [Scalar α]

/-- The passes of round `i`. -/
def round (plan : Plan) (i : Nat) : List (Pass α) :=
  (if plan.foldConstants then [.foldConstants] else []) ++
    [.simplify Rule.identities, .resolveAliases, .endRound i]

/-- The passes after the last round. -/
def closing (plan : Plan) : List (Pass α) := if plan.dropDead then [.dropDead] else []

variable {m : Type → Type} [Monad m]

/-- Carry out `count` rounds from round `i` on, each pass by `act`. -/
@[specialize]
def runRounds (act : Trace α → Pass α → m (Trace α)) (plan : Plan) :
    (count i : Nat) → Trace α → m (Trace α)
  | 0, _, t => pure t
  | count + 1, i, t => do
    let t ← (plan.round i).foldlM act t
    runRounds act plan count (i + 1) t

/-- Carry out a plan, each pass by `act`. -/
@[specialize]
def run (act : Trace α → Pass α → m (Trace α)) (plan : Plan) (t : Trace α) : m (Trace α) := do
  let t ← plan.runRounds act plan.rounds 0 t
  plan.closing.foldlM act t

end Plan

/-- A trace after all passes of a plan. -/
def Trace.optimize {α : Type} [Scalar α] (plan : Plan) (t : Trace α) :
    Except (Error α) (Trace α) :=
  plan.run Pass.apply t

end DualTrace
