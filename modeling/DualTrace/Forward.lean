/-
# Forward differentiation

A directional derivative is a computation that runs another one on dual numbers of its own and
completes with the tangent.  Its driver computes nothing itself: it answers each instruction by
issuing the instructions for the primal and the tangent of the result to the next driver.  So the
same rules serve evaluation, staging and, under another derivative, higher derivatives.

* `Driver.forward` : the rules of differentiation;
* `Value.tangentOf` : the tangent of a completion value;
* `Computation.jvp` : the derivative of a computation along seed tangents.
-/
import DualTrace.Run

namespace DualTrace

variable {σ α : Type}

/-! ## The rules -/

/-- Answer an instruction on behalf of the instance `tag`.

* A sum has the sum of the tangents.
* A product `x * y` has the tangent `x * y' + y * x'`.
* A choice chooses between the tangents by the tangent of its condition.
* The identity issues nothing. -/
def Driver.forward [Scalar α] (tag : Tag) (next : Driver σ α) : Driver σ α := fun i => do
  Run.ofExcept i.checkArity
  match i.op, i.args with
  | .add, [x, y] =>
    let primal ← next ⟨.add, [x.primalFor tag, y.primalFor tag]⟩
    let tangent ← next ⟨.add, [x.tangentFor tag, y.tangentFor tag]⟩
    return .dual tag primal tangent
  | .mul, [x, y] =>
    let primal ← next ⟨.mul, [x.primalFor tag, y.primalFor tag]⟩
    let left ← next ⟨.mul, [x.primalFor tag, y.tangentFor tag]⟩
    let right ← next ⟨.mul, [y.primalFor tag, x.tangentFor tag]⟩
    let tangent ← next ⟨.add, [left, right]⟩
    return .dual tag primal tangent
  | .iif, [c, x, y] =>
    let primal ← next ⟨.iif, [c.primalFor tag, x.primalFor tag, y.primalFor tag]⟩
    let tangent ← next ⟨.iif, [c.tangentFor tag, x.tangentFor tag, y.tangentFor tag]⟩
    return .dual tag primal tangent
  | .id, [x] => return x.lift tag (.num Scalar.zero)
  | op, args => throw (.wrongCount (.operands op) op.arity args.length)

/-! ## Directional derivatives -/

/-- The tangent of a value with which a drive of the instance `tag` completes.  It must be a dual
number that the instance owns. -/
def Value.tangentOf (tag : Tag) : Value α → Except (Error α) (Value α)
  | .dual owner _ tangent =>
    if owner = tag then .ok tangent else .error (.foreignResult tag owner)
  | v => .error (.plainResult tag v)

namespace Computation

variable [Scalar α]

/-- The derivative of a computation in the direction of the seeds.  There must be one seed for each
argument; only then is an instance started. -/
def jvp (c : Computation α) (seeds : List (Value α)) : Computation α where
  run d primals := do
    if primals.length ≠ seeds.length then
      throw (.wrongCount .primals seeds.length primals.length)
    let tag ← Run.takeFromSession Session.mintTag
    let result ← c.run (Driver.forward tag d) (List.zipWith (Value.lift tag) primals seeds)
    Run.ofExcept (result.tangentOf tag)

/-- The derivative of a computation at numbers, along numbers. -/
def differentiate (c : Computation α) (primals tangents : List α) : Run σ α α := do
  if primals.length ≠ tangents.length then
    throw (.wrongCount .tangents primals.length tangents.length)
  (c.jvp (tangents.map Value.num)).evaluate primals

/-- The derivative of a computation of one argument. -/
def derivativeAt (c : Computation α) (x : α) : Run σ α α := c.differentiate [x] [Scalar.one]

end Computation

end DualTrace
