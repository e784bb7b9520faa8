/-
# Traces

A trace is a straight-line program over registers: parameters, equations that each bind a register
to the result of one instruction over atoms, and a return atom.

* `Trace.check` : accepts the well-formed traces and names the first fault of any other;
* `Trace.text` : the text of a trace.

A trace is well formed when every register is bound at most once, parameters included, every
equation has as many operands as its operation takes and reads only parameters and the binders of
equations before it, and a register that is returned is bound.  Nothing in the type enforces this:
a trace may be written by hand or read from a file.
-/
import DualTrace.Evaluation

namespace DualTrace

variable {α : Type}

/-! ## Equations -/

/-- A register bound to the result of an instruction. -/
structure Equation (α : Type) where
  binder : Register
  rhs : Instruction (Atom α)
  deriving BEq

namespace Equation

/-- The registers that an equation reads, in the order of its operands. -/
def reads (e : Equation α) : List Register := e.rhs.args.flatMap Atom.regs

/-- The text of an equation. -/
def text [Numeral α] (e : Equation α) : String :=
  e.binder.text ++ " = " ++ e.rhs.text Atom.text

end Equation

/-! ## Traces -/

/-- A straight-line program over registers. -/
structure Trace (α : Type) where
  params : List Register
  equations : List (Equation α)
  ret : Atom α
  deriving BEq

namespace Trace

/-! ## Well-formedness -/

/-- The registers bound by a parameter list on top of `bound`, unless one is bound twice. -/
def checkParams (bound : List Register) : List Register → Except (Error α) (List Register)
  | [] => .ok bound
  | p :: ps => if p ∈ bound then .error (.duplicateParam p) else checkParams (p :: bound) ps

/-- Refuse an equation at position `i` that is at fault where the registers `bound` are bound.  Its
operand count is looked at first, then the registers it reads, then its binder. -/
def checkEquation (i : Nat) (bound : List Register) (e : Equation α) : Except (Error α) Unit := do
  e.rhs.checkArity
  match e.reads.find? (· ∉ bound) with
  | some r => .error (.earlyRead i r)
  | none => if e.binder ∈ bound then .error (.rebinding i e.binder) else .ok ()

/-- The registers bound by equations on top of `bound`, the first of them at position `i`, unless
one of them is at fault. -/
def checkEquations (i : Nat) (bound : List Register) :
    List (Equation α) → Except (Error α) (List Register)
  | [] => .ok bound
  | e :: es => do
    checkEquation i bound e
    checkEquations (i + 1) (e.binder :: bound) es

/-- Refuse an atom that is a register outside `bound`. -/
def checkReturn (bound : List Register) : Atom α → Except (Error α) Unit
  | .reg r => if r ∈ bound then .ok () else .error (.unboundReturn r)
  | .lit _ => .ok ()

/-- Refuse a trace that is not well formed, naming its first fault. -/
def check (t : Trace α) : Except (Error α) Unit := do
  let params ← checkParams [] t.params
  let bound ← checkEquations 0 params t.equations
  checkReturn bound t.ret

/-- The trace with these parts, if it is well formed. -/
def checked (t : Trace α) : Except (Error α) (Trace α) := do
  t.check
  return t

/-! ## Text -/

variable [Numeral α]

/-- A number padded with zeros to five digits. -/
def lineNumber (i : Nat) : String := String.ofList ((toString i).toList.leftpad 5 '0')

/-- The lines of equations, the first of them at position `i`. -/
def equationLines (i : Nat) : List (Equation α) → String
  | [] => ""
  | e :: es => "\t" ++ lineNumber i ++ ": " ++ e.text ++ "\n" ++ equationLines (i + 1) es

/-- The text of the return atom, a bare register or number. -/
def returnText : Atom α → String
  | .lit x => Numeral.text x
  | .reg r => r.text

/-- The text of a trace: a head with the parameters, a numbered line for each equation, and a line
for the return atom. -/
def text (t : Trace α) : String :=
  "(define-function (" ++ String.intercalate ", " (t.params.map Register.text) ++ ")\n" ++
    equationLines 0 t.equations ++ "\treturn " ++ returnText t.ret ++ "\n)"

end Trace

end DualTrace
