/-
# Dead equations

An equation is dead when its result cannot reach the return atom.  Because equations read only what
stands before them, one sweep from the last equation to the first finds every live one.  Parameters
are never dropped.
-/
import DualTrace.Trace.Basic

namespace DualTrace.Trace

variable {α : Type}

/-- One step of the backward sweep.  The state holds the registers that are live behind the
equation and the equations kept so far; a live equation is kept and makes what it reads live. -/
def keepLive (e : Equation α) (state : List Register × List (Equation α)) :
    List Register × List (Equation α) :=
  if e.binder ∈ state.1 then (e.reads ++ state.1, e :: state.2) else state

/-- The live registers and the live equations, when `live` holds what is read after the last
equation. -/
def sweepLive (live : List Register) (es : List (Equation α)) :
    List Register × List (Equation α) :=
  es.foldr keepLive (live, [])

/-- The trace without its dead equations. -/
def dropDead (t : Trace α) : Trace α :=
  { t with equations := (sweepLive t.ret.regs t.equations).2 }

end DualTrace.Trace
