/-
# Atoms and values

* `Atom` : an operand of a trace, a literal number or a register;
* `Value` : anything a running program can hold, an atom or a dual number;
* `Tag` : the instance of differentiation that owns a dual number.

A dual number pairs a primal with a tangent.  Both are values again: under nested differentiation
they are dual numbers of the enclosing instances, and while a program is being staged they are
registers.
-/
import DualTrace.Numeral
import DualTrace.Register
import DualTrace.Scalar

namespace DualTrace

/-! ## Atoms -/

/-- An operand of a trace. -/
inductive Atom (α : Type) where
  | lit (x : α)
  | reg (r : Register)
  deriving BEq

namespace Atom

variable {α : Type}

/-- The number of a literal. -/
def lit? : Atom α → Option α
  | lit x => some x
  | reg _ => none

/-- The register of an atom, as a list of at most one. -/
def regs : Atom α → List Register
  | lit _ => []
  | reg r => [r]

/-- The text of an atom. -/
def text [Numeral α] : Atom α → String
  | lit x => "Atom(" ++ Numeral.text x ++ ")"
  | reg r => "Atom(" ++ r.text ++ ")"

end Atom

/-! ## Dual numbers -/

/-- The identity of one instance of differentiation.  Tags are numbered in the order in which their
instances start. -/
structure Tag where
  id : Nat
  deriving DecidableEq

/-- The text of a tag. -/
def Tag.text (t : Tag) : String := "#" ++ toString t.id

/-- What a program can hold. -/
inductive Value (α : Type) where
  | num (x : α)
  | reg (r : Register)
  /-- A dual number owned by the instance `tag`. -/
  | dual (tag : Tag) (primal tangent : Value α)
  deriving BEq

namespace Value

variable {α : Type}

/-- The number that a value is. -/
def num? : Value α → Option α
  | num x => some x
  | _ => none

/-- The atom that a value is; a dual number is none. -/
def atom? : Value α → Option (Atom α)
  | num x => some (.lit x)
  | reg r => some (.reg r)
  | dual _ _ _ => none

/-- An atom as a value. -/
def ofAtom : Atom α → Value α
  | .lit x => num x
  | .reg r => reg r

/-- An atom survives being made a value. -/
theorem atom?_ofAtom (a : Atom α) : (ofAtom a).atom? = some a := by
  cases a <;> rfl

/-- A value is an atom exactly when it comes from one. -/
theorem atom?_eq_some_iff {v : Value α} {a : Atom α} : v.atom? = some a ↔ v = ofAtom a := by
  constructor
  · intro h
    cases v <;> simp [atom?] at h <;> subst h <;> rfl
  · intro h
    rw [h, atom?_ofAtom]

/-- The text of a value. -/
def text [Numeral α] : Value α → String
  | num x => Numeral.text x
  | reg r => r.text
  | dual t p d => "Dual" ++ t.text ++ "(" ++ p.text ++ " + " ++ d.text ++ "ε)"

/-! ## A value as the instance `tag` sees it

An instance looks only into the dual numbers it owns.  Every other value, a dual number of another
instance included, is a constant to it: its own primal, with tangent zero. -/

/-- The primal of a value for the instance `tag`. -/
def primalFor (tag : Tag) : Value α → Value α
  | dual t p d => if t = tag then p else dual t p d
  | v => v

/-- A value as a dual number of the instance `tag`: one that it owns already is left alone, and any
other becomes the primal of a new one with the given tangent. -/
def lift (tag : Tag) (v tangent : Value α) : Value α :=
  match v with
  | dual t p d => if t = tag then dual t p d else dual tag (dual t p d) tangent
  | v => dual tag v tangent

/-- Lifting does not change the primal. -/
theorem primalFor_lift (tag : Tag) (v tangent : Value α) :
    (v.lift tag tangent).primalFor tag = v.primalFor tag := by
  cases v with
  | num x => simp [lift, primalFor]
  | reg r => simp [lift, primalFor]
  | dual t p d => by_cases h : t = tag <;> simp [lift, primalFor, h]

variable [Scalar α]

/-- The tangent of a value for the instance `tag`. -/
def tangentFor (tag : Tag) : Value α → Value α
  | dual t _ d => if t = tag then d else num Scalar.zero
  | _ => num Scalar.zero

/-- Lifting with tangent zero does not change the tangent. -/
theorem tangentFor_lift (tag : Tag) (v : Value α) :
    (v.lift tag (num Scalar.zero)).tangentFor tag = v.tangentFor tag := by
  cases v with
  | num x => simp [lift, tangentFor]
  | reg r => simp [lift, tangentFor]
  | dual t p d => by_cases h : t = tag <;> simp [lift, tangentFor, h]

/-- A constant of the instance `tag`. -/
def constant (tag : Tag) (primal : Value α) : Value α := dual tag primal (num Scalar.zero)

end Value

end DualTrace
