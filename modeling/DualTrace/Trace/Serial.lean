/-
# The serial form of a trace

A trace is written as a JSON object with the fields `params`, `equations` and `ret`, and read back
from one.  A literal that is not finite is written as `null`, which is not read back; every other
trace survives.  Reading does not ask whether the trace is well formed.
-/
import DualTrace.Json
import DualTrace.Trace.Basic

namespace DualTrace

variable {α : Type}

/-! ## Writing -/

/-- The case name of a role. -/
def Role.serialName : Role → String
  | param => "Param"
  | result => "Var"

/-- A register as a record of its space, number and role. -/
def Register.toJson (r : Register) : Json α :=
  .obj [("namespace", .nat r.space.toNat), ("index", .nat r.index.toNat),
    ("kind", .str r.role.serialName)]

/-- An atom as a choice between `Lit` and `Reg`. -/
def Atom.toJson [Numeral α] : Atom α → Json α
  | lit x => .obj [("Lit", if Numeral.finite x then .num x else .null)]
  | reg r => .obj [("Reg", r.toJson)]

/-- An instruction as a record of the name of its operation and its operands. -/
def Instruction.toJson [Numeral α] (i : Instruction (Atom α)) : Json α :=
  .obj [("op", .str i.op.name), ("args", .arr (i.args.map Atom.toJson))]

/-- An equation as a record of its binder and its instruction. -/
def Equation.toJson [Numeral α] (e : Equation α) : Json α :=
  .obj [("binder", e.binder.toJson), ("rhs", e.rhs.toJson)]

/-- A trace as a record of its parts. -/
def Trace.toJson [Numeral α] (t : Trace α) : Json α :=
  .obj [("params", .arr (t.params.map Register.toJson)),
    ("equations", .arr (t.equations.map Equation.toJson)), ("ret", t.ret.toJson)]

/-! ## Reading -/

/-- The role with this case name. -/
def Role.ofJson? (j : Json α) : Option Role :=
  match j.bareName? with
  | some "Param" => some param
  | some "Var" => some result
  | _ => none

/-- The register that a record denotes. -/
def Register.ofJson? (j : Json α) : Option Register := do
  match ← j.record? ["namespace", "index", "kind"] with
  | [space, index, role] => return ⟨← space.word?, ← index.word?, ← Role.ofJson? role⟩
  | _ => none

/-- The literal number that a JSON number denotes.  It is finite. -/
def Json.literal? [Scalar α] [Numeral α] (j : Json α) : Option α :=
  let number? : Option α :=
    match j with
    | nat n => some (n : α)
    | num x => some x
    | _ => none
  number?.filter Numeral.finite

/-- The operation that a case name denotes. -/
def Op.ofJson? (j : Json α) : Option Op := j.bareName?.bind Op.ofName?

variable [Scalar α] [Numeral α]

/-- The atom that a choice denotes. -/
def Atom.ofJson? (j : Json α) : Option (Atom α) :=
  match j.variant? with
  | some ("Lit", some content) => content.literal?.map lit
  | some ("Reg", some content) => (Register.ofJson? content).map reg
  | _ => none

/-- The instruction that a record denotes. -/
def Instruction.ofJson? (j : Json α) : Option (Instruction (Atom α)) := do
  match ← j.record? ["op", "args"] with
  | [op, args] => return ⟨← Op.ofJson? op, ← args.items? Atom.ofJson?⟩
  | _ => none

/-- The equation that a record denotes. -/
def Equation.ofJson? (j : Json α) : Option (Equation α) := do
  match ← j.record? ["binder", "rhs"] with
  | [binder, rhs] => return ⟨← Register.ofJson? binder, ← Instruction.ofJson? rhs⟩
  | _ => none

/-- The trace that a record denotes. -/
def Trace.ofJson? (j : Json α) : Option (Trace α) := do
  match ← j.record? ["params", "equations", "ret"] with
  | [params, equations, ret] =>
    return ⟨← params.items? Register.ofJson?, ← equations.items? Equation.ofJson?,
      ← Atom.ofJson? ret⟩
  | _ => none

end DualTrace
