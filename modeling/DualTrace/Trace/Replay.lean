/-
# Replay

A trace is a computation again: driven with one argument for each parameter, it issues its equations
in order, with every register replaced by the value it is bound to.  Under direct evaluation this
executes the trace, and under a recording it stages it anew.
-/
import DualTrace.Run

namespace DualTrace

variable {σ α : Type}

/-- The value of each register that is bound, the latest first. -/
abbrev Bindings (α : Type) := List (Register × Value α)

/-- The value of an atom. -/
def Bindings.value (env : Bindings α) : Atom α → Except (Error α) (Value α)
  | .lit x => .ok (.num x)
  | .reg r =>
    match env.lookup r with
    | some v => .ok v
    | none => .error (.unboundRead r)

namespace Trace

/-- The parameters bound to arguments.  Of two parameters that are the same register, the later one
counts. -/
def bind (t : Trace α) (args : List (Value α)) : Bindings α := (t.params.zip args).reverse

/-- Issue equations in order, binding each answer. -/
def replayEquations (d : Driver σ α) (env : Bindings α) :
    List (Equation α) → Run σ α (Bindings α)
  | [] => return env
  | e :: es => do
    let i ← Run.ofExcept (e.rhs.mapM env.value)
    let v ← d i
    replayEquations d ((e.binder, v) :: env) es

/-- Refuse a list of arguments that is not as long as the parameter list. -/
def checkArguments (t : Trace α) (args : List (Value α)) : Except (Error α) Unit :=
  if args.length = t.params.length then .ok ()
  else .error (.wrongCount .replayArguments t.params.length args.length)

/-- A trace as a computation of its parameters. -/
def computation (t : Trace α) : Computation α where
  run d args := do
    Run.ofExcept (t.checkArguments args)
    let env ← replayEquations d (t.bind args) t.equations
    Run.ofExcept (env.value t.ret)

/-- A trace whose parameters are bound already, as a computation without arguments. -/
def boundComputation (t : Trace α) (bound : List (Value α)) : Computation α where
  run d args := do
    if args.length ≠ 0 then
      throw (.wrongCount .replayDriverArguments 0 args.length)
    t.computation.run d bound

end Trace

end DualTrace
