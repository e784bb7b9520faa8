/-
# Registers

A register names a parameter of a trace or the result of one of its equations.  Each recording owns
a space of registers, so registers of different recordings differ even where they are written alike.
-/

namespace DualTrace

/-- What a register names. -/
inductive Role where
  /-- A parameter of a trace. -/
  | param
  /-- The result of an equation. -/
  | result
  deriving DecidableEq

/-- A register: the space it belongs to, its number in that space, and what it names.  Two
registers are the same exactly when all three agree. -/
structure Register where
  space : UInt32
  index : UInt32
  role : Role
  deriving DecidableEq

namespace Register

/-- The short name, `x3` for a parameter and `v3` for a result. -/
def name (r : Register) : String :=
  match r.role with
  | .param => "x" ++ toString r.index.toNat
  | .result => "v" ++ toString r.index.toNat

/-- The text of a register, which does not show its space. -/
def text (r : Register) : String := "VReg(" ++ r.name ++ ")"

end Register

end DualTrace
