/-
# Arithmetics

A program has a value in every domain in which its numbers and its operations have a meaning.  Its
derivatives need no tags there: a derivative runs its body on pairs over the domain around it, where
what comes from outside is a constant, and takes the second part of the result.

* `Arithmetic α B` : the numbers and the operations of a domain `B`;
* `Arithmetic.numbers` : the domain of the numbers themselves;
* `Arithmetic.dual` : the pairs over a domain, by the rules of differentiation;
* `Program.denote` : the value of a closed program in a domain.
-/
import DualTrace.Proofs.Closed

namespace DualTrace

variable {α B : Type}

/-! ## Domains -/

/-- The numbers and the operations of a domain.  The operation `id` is the identity everywhere. -/
structure Arithmetic (α B : Type) where
  num : α → B
  add : B → B → B
  mul : B → B → B
  iif : B → B → B → B

namespace Arithmetic

/-- The result of an operation in a domain, `none` unless the count of operands is its arity. -/
def eval? (D : Arithmetic α B) : Op → List B → Option B
  | .add, [x, y] => some (D.add x y)
  | .mul, [x, y] => some (D.mul x y)
  | .iif, [c, x, y] => some (D.iif c x y)
  | .id, [x] => some x
  | _, _ => none

variable [Scalar α]

/-- The numbers as a domain of their own. -/
def numbers : Arithmetic α α where
  num x := x
  add x y := x + y
  mul x y := x * y
  iif c x y := if Scalar.truthy c then x else y

theorem eval?_numbers (op : Op) (xs : List α) : numbers.eval? op xs = op.eval? xs := by
  cases op <;> rcases xs with _ | ⟨x, _ | ⟨y, _ | ⟨z, _ | ⟨w, xs⟩⟩⟩⟩ <;> rfl

/-- A constant of a derivative: what has the tangent zero. -/
def constant (D : Arithmetic α B) (b : B) : B × B := (b, D.num Scalar.zero)

/-- The pairs over a domain, each a primal with its tangent.  A choice chooses between the tangents
by the tangent of its condition. -/
def dual (D : Arithmetic α B) : Arithmetic α (B × B) where
  num x := D.constant (D.num x)
  add x y := (D.add x.1 y.1, D.add x.2 y.2)
  mul x y := (D.mul x.1 y.1, D.add (D.mul x.1 y.2) (D.mul y.1 x.2))
  iif c x y := (D.iif c.1 x.1 y.1, D.iif c.2 x.2 y.2)

end Arithmetic

/-! ## Scopes -/

/-- What a block can refer to in a domain: its arguments, and the results of its steps so far. -/
structure Scope (B : Type) where
  args : List B
  results : List B := []

namespace Scope

/-- A scope after one more step. -/
def push (s : Scope B) (b : B) : Scope B := { s with results := s.results ++ [b] }

/-- A scope carried over to another domain. -/
def map {C : Type} (f : B → C) (s : Scope B) : Scope C where
  args := s.args.map f
  results := s.results.map f

end Scope

/-- The value of a plain operand inside scopes, the innermost first. -/
def Operand.denote (num : α → B) (scopes : List (Scope B)) : Operand α → Option B
  | .num x => some (num x)
  | .arg up index => scopes[up]?.bind (·.args[index]?)
  | .result up index => scopes[up]?.bind (·.results[index]?)
  | _ => none

/-- The value of a loop, from turn `turn` on; each turn has the last value and its own number as
arguments. -/
def turns (number : Nat → B) (f : List B → Option B) : (count turn : Nat) → B → Option B
  | 0, _, b => some b
  | count + 1, turn, b => (f [b, number turn]).bind (turns number f count (turn + 1))

/-! ## Programs -/

variable [Scalar α]

mutual

/-- The value of a closed program in a domain, inside the scopes around it. -/
def Program.denote {B : Type} (D : Arithmetic α B) (scopes : List (Scope B)) (args : List B) :
    Program α → Option B
  | .block body ret =>
    (body.denote D scopes { args := args }).bind fun scope => ret.denote D.num (scope :: scopes)
  | .jvp body seeds =>
    (seeds.mapM (Operand.denote D.num scopes)).bind fun seeds =>
      if args.length = seeds.length then
        (body.denote D.dual (scopes.map (Scope.map D.constant)) (args.zip seeds)).map Prod.snd
      else none
  | _ => none

/-- The scope in which the steps of a closed program end. -/
def Block.denote {B : Type} (D : Arithmetic α B) (scopes : List (Scope B)) (scope : Scope B) :
    Block α → Option (Scope B)
  | .done => some scope
  | .step first rest =>
    (first.denote D (scope :: scopes)).bind fun b => rest.denote D scopes (scope.push b)

/-- The value of a step of a closed program. -/
def Step.denote {B : Type} (D : Arithmetic α B) (scopes : List (Scope B)) :
    Step α → Option B
  | .issue op operands => (operands.mapM (Operand.denote D.num scopes)).bind (D.eval? op)
  | .call body operands =>
    (operands.mapM (Operand.denote D.num scopes)).bind fun args => body.denote D scopes args
  | .loop count init body =>
    (init.denote D.num scopes).bind
      (turns (fun turn => D.num (turn : α)) (fun args => body.denote D scopes args) count 0)
  | _ => none

end

end DualTrace
