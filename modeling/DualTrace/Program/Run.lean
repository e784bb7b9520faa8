/-
# Running programs

`Program.run` gives each program its meaning as a run under a driver, inside the frames of the text
around it; `Program.computation` makes a computation of it.

Operands are read from left to right, and the first that refers to nothing ends the run.  A name for
a tag is minted when it is first met, before anything inside that operand is read.
-/
import DualTrace.Forward
import DualTrace.Program.Basic
import DualTrace.Recorder
import DualTrace.Trace.Replay

namespace DualTrace

variable {σ α : Type}

/-! ## Frames and operands -/

/-- What a block can refer to: its arguments, and the results of its steps so far. -/
structure Frame (α : Type) where
  args : List (Value α)
  results : List (Value α) := []

/-- A frame after one more step. -/
def Frame.push (f : Frame α) (v : Value α) : Frame α := { f with results := f.results ++ [v] }

/-- The frames around a place in the text, the innermost first. -/
abbrev Frames (α : Type) := List (Frame α)

/-- The text of a reference: a caret for each frame outwards, a letter, and a position. -/
def Operand.reference (letter : String) (up index : Nat) : String :=
  String.ofList (List.replicate up '^') ++ letter ++ toString index

namespace Value

/-- The primal of a dual number. -/
def primal? : Value α → Except (Error α) (Value α)
  | dual _ p _ => .ok p
  | _ => .error (.unbound "primal")

/-- The tangent of a dual number. -/
def tangent? : Value α → Except (Error α) (Value α)
  | dual _ _ d => .ok d
  | _ => .error (.unbound "tangent")

end Value

/-- What is there, or else the error that it refers to nothing. -/
def Run.found (what : String) (v : Option (Value α)) : Run σ α (Value α) :=
  match v with
  | some v => return v
  | none => throw (.unbound what)

variable [Scalar α]

/-- The value of an operand. -/
def Operand.read (env : Frames α) : Operand α → Run σ α (Value α)
  | num x => return .num x
  | arg up index => Run.found (reference "a" up index) (env[up]?.bind (·.args[index]?))
  | result up index => Run.found (reference "r" up index) (env[up]?.bind (·.results[index]?))
  | kept name => do
    Run.found ("$" ++ name) ((← Run.session).values.lookup name)
  | reg r => return .reg r
  | dual name p t => do
    let tag ← Run.takeFromSession (Session.tagNamed name)
    return .dual tag (← p.read env) (← t.read env)
  | constant name p => do
    let tag ← Run.takeFromSession (Session.tagNamed name)
    return .constant tag (← p.read env)
  | lift name v t => do
    let tag ← Run.takeFromSession (Session.tagNamed name)
    return .lift tag (← v.read env) (← t.read env)
  | primal v => do Run.ofExcept (← v.read env).primal?
  | tangent v => do Run.ofExcept (← v.read env).tangent?

/-- The values of operands, from left to right. -/
def Operand.readAll (env : Frames α) : List (Operand α) → Run σ α (List (Value α))
  | [] => return []
  | o :: os => do
    let v ← o.read env
    return v :: (← readAll env os)

/-! ## Combinators -/

omit [Scalar α] in
/-- Replace each argument for which there is a seed by its lifting into the instance `tag`. -/
def Value.liftAll (tag : Tag) : List (Value α) → List (Value α) → List (Value α)
  | v :: vs, seed :: seeds => v.lift tag seed :: liftAll tag vs seeds
  | vs, _ => vs

namespace Computation

/-- Run a computation `count` more times, from turn `turn`, on its last result and the number of the
turn. -/
def iterate (c : Computation α) (d : Driver σ α) :
    (count turn : Nat) → Value α → Run σ α (Value α)
  | 0, _, v => return v
  | count + 1, turn, v => do
    let v ← c.run d [v, .num (turn : α)]
    iterate c d count (turn + 1) v

/-- A drive on dual numbers of a new instance, whose tag is given a name first if there is one.  The
result is the completion value, or its tangent. -/
def forward (c : Computation α) (name : Option String) (seeds : List (Value α)) (whole : Bool) :
    Computation α where
  run d args := do
    let tag ← Run.takeFromSession Session.mintTag
    if let some name := name then
      Run.modifySession (·.nameTag name tag)
    let result ← c.run (Driver.forward tag d) (Value.liftAll tag args seeds)
    if whole then return result else Run.ofExcept (result.tangentOf tag)

omit [Scalar α] in
/-- Stage a computation, run its trace on the arguments, and keep it under a name if there is
one. -/
def stageAndRun (c : Computation α) (name : Option String) : Computation α where
  run d args := do
    let t ← c.stage args.length
    let v ← t.computation.run d args
    if let some name := name then
      Run.modifySession (·.keepTrace name t)
    return v

end Computation

/-! ## Programs -/

mutual

/-- Run a program under a driver, inside the frames around it. -/
def Program.run {σ : Type} (d : Driver σ α) (env : Frames α) (args : List (Value α)) :
    Program α → Run σ α (Value α)
  | .block body ret => do
    let frame ← body.run d env { args := args }
    ret.read (frame :: env)
  | .jvp body seeds => do
    let seeds ← Operand.readAll env seeds
    (Computation.jvp ⟨fun d args => body.run d env args⟩ seeds).run d args
  | .trace name => do
    let t ← Run.traceNamed name
    t.computation.run d args
  | .bound name operands => do
    let t ← Run.traceNamed name
    let bound ← Operand.readAll env operands
    Run.ofExcept (t.checkArguments bound)
    (t.boundComputation bound).run d args
  | .observed body => body.run d.observed env args
  | .forward body tag seeds whole => do
    let seeds ← Operand.readAll env seeds
    (Computation.forward ⟨fun d args => body.run d env args⟩ tag seeds whole).run d args

/-- Run the steps of a block in its frame, and give back the frame with their results. -/
def Block.run {σ : Type} (d : Driver σ α) (env : Frames α) (frame : Frame α) :
    Block α → Run σ α (Frame α)
  | .done => return frame
  | .step first rest => do
    let v ← first.run d (frame :: env)
    rest.run d env (frame.push v)

/-- Run a step; its result is the value that can be referred to. -/
def Step.run {σ : Type} (d : Driver σ α) (env : Frames α) : Step α → Run σ α (Value α)
  | .issue op operands => do
    let args ← Operand.readAll env operands
    d ⟨op, args⟩
  | .unknown name operands => do
    let _ ← Operand.readAll env operands
    throw (.unknownOp name)
  | .call body operands => do
    let args ← Operand.readAll env operands
    body.run d env args
  | .loop count init body => do
    let v ← init.read env
    Computation.iterate ⟨fun d args => body.run d env args⟩ d count 0 v
  | .attempt step fallback =>
    tryCatch (step.run d env) fun _ => fallback.read env
  | .keep value name => do
    let v ← value.read env
    Run.modifySession (·.keepValue name v)
    return v
  | .stage body operands name => do
    let args ← Operand.readAll env operands
    (Computation.stageAndRun ⟨fun d args => body.run d env args⟩ name).run d args

end

/-- A program as a computation, inside the frames around it. -/
def Program.computation (p : Program α) (env : Frames α := []) : Computation α where
  run d args := p.run d env args

end DualTrace
