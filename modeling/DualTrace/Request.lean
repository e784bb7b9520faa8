/-
# Requests

The questions that can be put to a session, and their answers.  A request that fails keeps what it
did on the way, but nothing is kept under the name it gives for its result.

Names of operations and of traces are resolved here, each in its turn, so that of several faults the
first one met is reported.
-/
import DualTrace.Program.Run
import DualTrace.Trace.Plan
import DualTrace.Trace.Serial

namespace DualTrace

variable {σ α : Type}

/-! ## Written forms -/

/-- An instruction with the name of its operation. -/
structure NamedInstruction (β : Type) where
  name : String
  args : List β

/-- The instruction meant, if its operation is known. -/
def NamedInstruction.resolve {β : Type} (i : NamedInstruction β) :
    Except (Error α) (Instruction β) := do
  return ⟨← Op.parse i.name, i.args⟩

/-- A rule with the names of its operations. -/
structure NamedRule (α : Type) where
  source : String
  pattern : List (Pattern α)
  target : String
  template : List (Template α)

/-- The rule meant, if both operations are known. -/
def NamedRule.resolve (r : NamedRule α) : Except (Error α) (Rule α) := do
  return ⟨← Op.parse r.source, r.pattern, ← Op.parse r.target, r.template⟩

/-- A rule that is given by its position among the identities, or in writing. -/
inductive RuleChoice (α : Type) where
  | identity (position : Nat)
  | written (rule : NamedRule α)

/-- The rule meant. -/
def RuleChoice.resolve [Scalar α] : RuleChoice α → Except (Error α) (Rule α)
  | identity position =>
    match Rule.identities[position]? with
    | some rule => .ok rule
    | none => .error (.unbound ("rule " ++ toString position))
  | written rule => rule.resolve

/-- The parts of a trace, its operations by name. -/
structure TraceParts (α : Type) where
  params : List Register
  equations : List (Register × NamedInstruction (Atom α))
  ret : Atom α

/-- The trace with these parts, if every operation is known. -/
def TraceParts.assemble (parts : TraceParts α) : Except (Error α) (Trace α) := do
  let equations ← parts.equations.mapM fun (binder, rhs) => do
    return (⟨binder, ← rhs.resolve⟩ : Equation α)
  return ⟨parts.params, equations, parts.ret⟩

/-! ## Requests and answers -/

/-- What a session can be asked.  `keep` is the name for the result, if it is to have one. -/
inductive Request (α : Type) where
  /-- The operation with a name. -/
  | op (name : String)
  /-- Whether an operation takes so many operands. -/
  | arity (name : String) (count : Nat)
  /-- An operation on numbers. -/
  | apply (name : String) (args : List α)
  /-- Whether a number holds as a condition. -/
  | truthy (x : α)
  /-- An instruction in full. -/
  | instruction (i : NamedInstruction (Operand α))
  /-- The direct evaluation of an instruction. -/
  | interpret (i : NamedInstruction (Operand α))
  /-- A value in full. -/
  | value (v : Operand α) (keep : Option String)
  /-- Whether two values are the same, numbers compared by `==`. -/
  | sameValue (a b : Operand α)
  /-- The number that a program computes. -/
  | evaluate (program : Program α) (args : List α)
  /-- The derivative of a program along tangents. -/
  | differentiate (program : Program α) (args tangents : List α)
  /-- The derivative of a program of one argument. -/
  | derivativeAt (program : Program α) (x : α)
  /-- The completion value of a program under direct evaluation. -/
  | run (program : Program α) (args : List (Operand α)) (keep : Option String)
  /-- The seeds of a derivative. -/
  | seeds (seeds : List (Operand α))
  /-- The trace of a program. -/
  | stage (program : Program α) (arity : Nat) (keep : Option String)
  /-- The trace of a program whose recording begins with some steps in a frame around it. -/
  | stageAfter (before : Block α) (program : Program α) (arity : Nat) (keep : Option String)
  /-- A trace bound to arguments, and its evaluation at further arguments. -/
  | replay (trace : String) (args : List (Operand α)) (driverArgs : List α)
  /-- A trace from its parts; it must be well formed unless it is not to be checked. -/
  | build (parts : TraceParts α) (unchecked : Bool) (keep : Option String)
  /-- Whether a trace is well formed. -/
  | check (trace : String)
  /-- A trace in full. -/
  | inspect (trace : String)
  /-- Whether two traces are the same, numbers compared by `==`. -/
  | sameTrace (a b : String)
  /-- The serial form of a trace. -/
  | toJson (trace : String)
  /-- The trace with a serial form. -/
  | ofJson (j : Json α) (keep : Option String)
  /-- A trace written and read back. -/
  | roundTrip (trace : String) (keep : Option String)
  /-- A trace after one pass. -/
  | pass (trace : String) (pass : Pass α) (keep : Option String)
  /-- A trace simplified with a table of rules. -/
  | simplify (trace : String) (rules : List (RuleChoice α)) (keep : Option String)
  /-- A trace after the passes of a plan. -/
  | optimize (trace : String) (plan : Plan) (keep : Option String)
  /-- What a rule makes of an instruction. -/
  | applyRule (rule : RuleChoice α) (i : NamedInstruction (Atom α))
  /-- The table of identities. -/
  | identities

/-- What a session answers. -/
inductive Answer (α : Type) where
  | op (op : Op)
  | flag (b : Bool)
  | number (x : α)
  | instruction (i : Instruction (Value α))
  /-- A value in full. -/
  | value (v : Value α)
  /-- A value with which a run completed. -/
  | completion (v : Value α)
  | values (vs : List (Value α))
  | trace (t : Trace α)
  /-- Arguments bound to the parameters of a trace, their number, and what its evaluation gave. -/
  | replay (bound : List (Value α)) (params : Nat) (result : Except (Error α) α)
  /-- A trace in full. -/
  | listing (t : Trace α)
  | json (j : Json α)
  /-- What a rule made of an instruction, if it matched. -/
  | replacement (i : Option (Instruction (Atom α)))
  | rules (rules : List (Rule α))

/-! ## Answering -/

namespace Run

/-- Keep a value if it is to have a name. -/
def keepValue (keep : Option String) (v : Value α) : Run σ α Unit :=
  match keep with
  | some name => modifySession (·.keepValue name v)
  | none => pure ()

/-- Keep a trace if it is to have a name, and answer with it. -/
def answerTrace (keep : Option String) (t : Trace α) : Run σ α (Answer α) := do
  if let some name := keep then
    modifySession (·.keepTrace name t)
  return .trace t

/-- What an action gives, be it a result or an error. -/
def outcome {β : Type} (action : Run σ α β) : Run σ α (Except (Error α) β) :=
  tryCatch (do return .ok (← action)) fun e => return .error e

variable [Scalar α]

/-- The instruction meant; its operands are read before its name. -/
def instruction (i : NamedInstruction (Operand α)) : Run σ α (Instruction (Value α)) := do
  let args ← Operand.readAll [] i.args
  ofExcept (NamedInstruction.resolve ⟨i.name, args⟩)

/-- Apply a pass and report on it. -/
def pass (t : Trace α) (p : Pass α) : Run σ α (Trace α) := do
  (p.events t).forM report
  ofExcept (p.apply t)

/-- Apply the passes of a plan and report on each. -/
def optimize (plan : Plan) (t : Trace α) : Run σ α (Trace α) := plan.run pass t

/-- The trace of a program whose recording begins with some steps.  The frame of these steps is
around the program. -/
def stageAfter (before : Block α) (program : Program α) (arity : Nat) : Run σ α (Trace α) := do
  let space ← takeFromSession Session.claimSpace
  let (t, _) ← within { space := space } do
    let frame ← before.run Driver.recording [] { args := [] }
    (program.computation [frame]).finishRecording arity
  return t

end Run

variable [Scalar α] [Numeral α]

/-- Answer a request. -/
def Request.answer : Request α → Run σ α (Answer α)
  | op name => do
    return .op (← Run.ofExcept (Op.parse name))
  | arity name count => do
    let op ← Run.ofExcept (Op.parse name)
    Run.ofExcept (op.checkArity count)
    return .flag true
  | apply name args => do
    let op ← Run.ofExcept (Op.parse name)
    return .number (← Run.ofExcept (op.eval args))
  | truthy x => return .flag (Scalar.truthy x)
  | instruction i => do
    return .instruction (← Run.instruction i)
  | interpret i => do
    let i ← Run.instruction i
    return .completion (← Driver.direct i)
  | value operand keep => do
    let v ← operand.read []
    Run.keepValue keep v
    return .value v
  | sameValue a b => do
    let a ← a.read []
    let b ← b.read []
    return .flag (a == b)
  | evaluate program args => do
    return .number (← program.computation.evaluate args)
  | differentiate program args tangents => do
    return .number (← program.computation.differentiate args tangents)
  | derivativeAt program x => do
    return .number (← program.computation.derivativeAt x)
  | run program operands keep => do
    let args ← Operand.readAll [] operands
    let v ← program.computation.run Driver.direct args
    Run.keepValue keep v
    return .completion v
  | seeds operands => do
    return .values (← Operand.readAll [] operands)
  | stage program params keep => do
    Run.answerTrace keep (← program.computation.stage params)
  | stageAfter before program params keep => do
    Run.answerTrace keep (← Run.stageAfter before program params)
  | replay name operands driverArgs => do
    let t ← Run.traceNamed name
    let bound ← Operand.readAll [] operands
    Run.ofExcept (t.checkArguments bound)
    let result ← Run.outcome ((t.boundComputation bound).evaluate driverArgs)
    return .replay bound t.params.length result
  | build parts unchecked keep => do
    let t ← Run.ofExcept parts.assemble
    Run.answerTrace keep (← if unchecked then pure t else Run.ofExcept t.checked)
  | check name => do
    let t ← Run.traceNamed name
    Run.ofExcept t.check
    return .flag true
  | inspect name => do
    return .listing (← Run.traceNamed name)
  | sameTrace a b => do
    let a ← Run.traceNamed a
    let b ← Run.traceNamed b
    return .flag (a == b)
  | toJson name => do
    return .json (← Run.traceNamed name).toJson
  | ofJson j keep =>
    match Trace.ofJson? j with
    | some t => Run.answerTrace keep t
    | none => throw .malformedJson
  | roundTrip name keep => do
    match Trace.ofJson? (← Run.traceNamed name).toJson with
    | some t => Run.answerTrace keep t
    | none => throw .malformedJson
  | pass name p keep => do
    let t ← Run.traceNamed name
    Run.answerTrace keep (← Run.pass t p)
  | simplify name rules keep => do
    let rules ← Run.ofExcept (rules.mapM RuleChoice.resolve)
    let t ← Run.traceNamed name
    Run.answerTrace keep (← Run.pass t (.simplify rules))
  | optimize name plan keep => do
    let t ← Run.traceNamed name
    Run.answerTrace keep (← Run.optimize plan t)
  | applyRule choice i => do
    let rule ← Run.ofExcept choice.resolve
    let i ← Run.ofExcept i.resolve
    return .replacement (rule.apply i)
  | identities => return .rules Rule.identities

/-- Answer a request in a session with an empty record; the session afterwards holds the record of
this request. -/
def Session.serve (s : Session α) (request : Request α) :
    Except (Error α) (Answer α) × Session α :=
  match request.answer ⟨(), s.clearRecord⟩ with
  | .ok a m => (.ok a, m.session)
  | .error e m => (.error e, m.session)

end DualTrace
