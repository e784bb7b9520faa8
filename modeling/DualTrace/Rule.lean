/-
# Simplification rules

A rule replaces an instruction whose operands match a pattern by another one.

* `Rule.apply` : the instruction that a rule makes of another, if it matches;
* `Rule.identities` : the neutral and absorbing elements of the operations.

Literals match by `==`, so a zero of either sign matches zero and a number that differs from itself
matches nothing.
-/
import DualTrace.Instruction
import DualTrace.Value

namespace DualTrace

/-- What a rule asks of one operand. -/
inductive Pattern (α : Type) where
  /-- A literal equal to this number. -/
  | lit (x : α)
  /-- A placeholder: any operand, but the same one wherever the slot occurs. -/
  | bind (slot : Nat)
  /-- Any operand. -/
  | any

/-- One operand of the replacement. -/
inductive Template (α : Type) where
  | lit (x : α)
  /-- The operand at the first occurrence of the slot. -/
  | capture (slot : Nat)

/-- A rule: instructions of `source` that match the pattern become instructions of `target`. -/
structure Rule (α : Type) where
  source : Op
  pattern : List (Pattern α)
  target : Op
  template : List (Template α)

/-! ## Matching -/

/-- The operand captured for each slot. -/
abbrev Captures (α : Type) := List (Nat × Atom α)

variable {α : Type} [Scalar α]

namespace Pattern

/-- The captures after matching one operand. -/
def capture? (captures : Captures α) : Pattern α → Atom α → Option (Captures α)
  | any, _ => some captures
  | lit _, .reg _ => none
  | lit x, .lit y => if y == x then some captures else none
  | bind slot, a =>
    match captures.lookup slot with
    | some b => if b == a then some captures else none
    | none => some ((slot, a) :: captures)

/-- The captures after matching operands one by one; there must be as many as patterns. -/
def captureAll? (captures : Captures α) : List (Pattern α) → List (Atom α) → Option (Captures α)
  | [], [] => some captures
  | p :: ps, a :: as => do
    let captures ← p.capture? captures a
    captureAll? captures ps as
  | _, _ => none

end Pattern

omit [Scalar α] in
/-- The operand that a template stands for; a slot without capture has none. -/
def Template.fill? (captures : Captures α) : Template α → Option (Atom α)
  | .lit x => some (.lit x)
  | .capture slot => captures.lookup slot

namespace Rule

/-- The instruction that a rule makes of another one, `none` if the rule does not match. -/
def apply (rule : Rule α) (i : Instruction (Atom α)) : Option (Instruction (Atom α)) :=
  if i.op = rule.source then do
    let captures ← Pattern.captureAll? [] rule.pattern i.args
    return ⟨rule.target, ← rule.template.mapM (Template.fill? captures)⟩
  else none

/-- The first replacement that one of the rules offers. -/
def applyFirst (rules : List (Rule α)) (i : Instruction (Atom α)) :
    Option (Instruction (Atom α)) :=
  rules.findSome? (·.apply i)

/-- The identities of the operations, in order of precedence. -/
def identities : List (Rule α) :=
  let zero := Scalar.zero
  let one := Scalar.one
  [ -- a sum with zero
    ⟨.add, [.bind 0, .lit zero], .id, [.capture 0]⟩,
    ⟨.add, [.lit zero, .bind 0], .id, [.capture 0]⟩,
    -- a product with one
    ⟨.mul, [.bind 0, .lit one], .id, [.capture 0]⟩,
    ⟨.mul, [.lit one, .bind 0], .id, [.capture 0]⟩,
    -- a product with zero
    ⟨.mul, [.any, .lit zero], .id, [.lit zero]⟩,
    ⟨.mul, [.lit zero, .any], .id, [.lit zero]⟩,
    -- a choice on one or on zero
    ⟨.iif, [.lit one, .bind 0, .bind 1], .id, [.capture 0]⟩,
    ⟨.iif, [.lit zero, .bind 0, .bind 1], .id, [.capture 1]⟩ ]

end Rule

end DualTrace
