/-
# Recording

Staging a computation drives it on registers and records every instruction as an equation.  The
computation goes on with the register that the equation binds, so what is recorded is the whole of
what it asked for.

* `Recorder` : a recording in progress;
* `Driver.recording` : the driver that records;
* `Computation.stage` : the trace of a computation.

Parameters and results are numbered by one counter, so a trace of one parameter has `x0` and then
`v1`.
-/
import DualTrace.Run

namespace DualTrace

/-- A recording in progress: the space its registers belong to, the number of the next register, and
the equations so far. -/
structure Recorder (α : Type) where
  space : UInt32
  next : UInt32 := 0
  equations : Array (Equation α) := #[]

namespace Recorder

variable {α : Type}

/-- The register with the next number. -/
def fresh (r : Recorder α) (role : Role) : Register := ⟨r.space, r.next, role⟩

/-- The registers of the next `count` parameters, in order. -/
def freshParams (r : Recorder α) (count : Nat) : List Register :=
  (List.range count).map fun i => ⟨r.space, r.next + UInt32.ofNat i, .param⟩

/-- The recording after taking the registers of `count` parameters. -/
def skipParams (r : Recorder α) (count : Nat) : Recorder α :=
  { r with next := r.next + UInt32.ofNat count }

/-- Record an instruction. -/
def record (r : Recorder α) (rhs : Instruction (Atom α)) : Recorder α :=
  { r with next := r.next + 1, equations := r.equations.push ⟨r.fresh .result, rhs⟩ }

end Recorder

variable {σ α : Type}

/-- An instruction over atoms, if every operand is one. -/
def Instruction.toAtoms (i : Instruction (Value α)) : Except (Error α) (Instruction (Atom α)) := do
  i.checkArity
  i.mapM fun v =>
    match v.atom? with
    | some a => Except.ok a
    | none => .error (.notAtom i.op v)

/-- Record every instruction and answer with the register that it is bound to.  An instruction that
is refused leaves the recording as it was. -/
def Driver.recording : Driver (Recorder α) α := fun i => do
  let rhs ← Run.ofExcept i.toAtoms
  let r := (← get).state
  let binder := r.fresh .result
  Run.report (.staged r.equations.size ⟨binder, rhs⟩)
  modify fun m => { m with state := r.record rhs }
  return .reg binder

namespace Computation

/-- Drive a computation on `arity` new parameters and close the recording: the trace has all
equations recorded so far and must be well formed. -/
def finishRecording (c : Computation α) (arity : Nat) : Run (Recorder α) α (Trace α) := do
  let params := (← get).state.freshParams arity
  modify fun m => { m with state := m.state.skipParams arity }
  let result ← c.run Driver.recording (params.map Value.reg)
  match result.atom? with
  | none => throw (.nonAtomResult result)
  | some ret =>
    let t ← Run.ofExcept (Trace.checked ⟨params, (← get).state.equations.toList, ret⟩)
    Run.report (.recorded t.params.length t.equations.length)
    return t

/-- The trace of a computation of `arity` arguments.  Every recording takes a register space, also
one that fails. -/
def stage (c : Computation α) (arity : Nat) : Run σ α (Trace α) := do
  let space ← Run.takeFromSession Session.claimSpace
  let (t, _) ← Run.within { space := space } (c.finishRecording arity)
  return t

end Computation

end DualTrace
