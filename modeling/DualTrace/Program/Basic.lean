/-
# Programs

The language in which computations are written down.  A program is a block of steps, a derivative of
a program, or a trace; a step issues one instruction, runs another program, or does something about
the run itself.

Every block opens a frame that holds its arguments and, one after the other, the results of its
steps.  An operand refers to the frame of the block it stands in or, through `up`, to the frame so
many blocks further out in the text.
-/
import DualTrace.Value
import DualTrace.Op

namespace DualTrace

/-- What a step or a return refers to. -/
inductive Operand (α : Type) where
  | num (x : α)
  /-- An argument of a block. -/
  | arg (up index : Nat)
  /-- The result of an earlier step of a block. -/
  | result (up index : Nat)
  /-- The value kept under a name. -/
  | kept (name : String)
  | reg (r : Register)
  /-- A dual number of the instance with this tag name. -/
  | dual (tag : String) (primal tangent : Operand α)
  /-- A constant of the instance with this tag name. -/
  | constant (tag : String) (primal : Operand α)
  /-- A value lifted into the instance with this tag name. -/
  | lift (tag : String) (value tangent : Operand α)
  /-- The primal of a dual number. -/
  | primal (value : Operand α)
  /-- The tangent of a dual number. -/
  | tangent (value : Operand α)

mutual

/-- A computation in writing. -/
inductive Program (α : Type) where
  /-- Run the steps, then return. -/
  | block (body : Block α) (ret : Operand α)
  /-- The derivative along seeds, which are read where the program stands. -/
  | jvp (body : Program α) (seeds : List (Operand α))
  /-- The trace kept under a name. -/
  | trace (name : String)
  /-- The trace kept under a name, bound to operands that are read where the program stands. -/
  | bound (name : String) (args : List (Operand α))
  /-- The same program, with every instruction observed. -/
  | observed (body : Program α)
  /-- A drive on dual numbers without the check of the argument count: the seeds lift as many
  arguments as there are, and `whole` asks for the completion value itself instead of its tangent.
  While it runs, its tag can be given a name. -/
  | forward (body : Program α) (tag : Option String) (seeds : List (Operand α)) (whole : Bool)

/-- The steps of a program. -/
inductive Block (α : Type) where
  | done
  | step (first : Step α) (rest : Block α)

/-- A step of a program; its result can be referred to by what follows. -/
inductive Step (α : Type) where
  /-- Issue an instruction. -/
  | issue (op : Op) (args : List (Operand α))
  /-- Refuse an instruction whose operation is unknown, after reading its operands. -/
  | unknown (name : String) (args : List (Operand α))
  /-- Run a program. -/
  | call (body : Program α) (args : List (Operand α))
  /-- Run a program `count` times on its last result and the number of the turn. -/
  | loop (count : Nat) (init : Operand α) (body : Program α)
  /-- Take the operand instead if the step fails. -/
  | attempt (step : Step α) (fallback : Operand α)
  /-- Keep a value under a name. -/
  | keep (value : Operand α) (name : String)
  /-- Stage a program and run its trace at once, then keep the trace under a name if there is one. -/
  | stage (body : Program α) (args : List (Operand α)) (name : Option String)

end

/-- The step that issues an instruction by the name of its operation. -/
def Step.ofName {α : Type} (name : String) (args : List (Operand α)) : Step α :=
  match Op.ofName? name with
  | some op => issue op args
  | none => unknown name args

/-- The steps of a list as a block. -/
def Block.ofList {α : Type} : List (Step α) → Block α
  | [] => done
  | s :: ss => step s (ofList ss)

end DualTrace
