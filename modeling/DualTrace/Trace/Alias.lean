/-
# Aliases

An equation whose operation is `id` makes its binder an alias of its operand.  The pass
`Trace.resolveAliases` substitutes aliases into their readers and drops those that nobody reads any
more.

* Substitution goes one hop: a reader of `b`, where `b` is an alias of `a`, reads `a` afterwards,
  even if `a` is an alias itself.
* The operands of aliases are not substituted.  An alias that is still read after the substitution,
  the middle of a chain, stays for the next pass, so that a well-formed trace stays well formed.
* A return register that is an alias of a literal is refused.
-/
import DualTrace.Trace.Basic

namespace DualTrace

variable {α : Type}

/-- Whether an equation makes an alias. -/
def Equation.isAlias (e : Equation α) : Bool := e.rhs.op == .id

/-- What each alias stands for, the latest first. -/
abbrev Aliases (α : Type) := List (Register × Atom α)

/-- An atom after one hop of substitution. -/
def Aliases.redirect (aliases : Aliases α) : Atom α → Atom α
  | .lit x => .lit x
  | .reg r => (aliases.lookup r).getD (.reg r)

/-- An equation with each operand redirected. -/
def Equation.redirect (aliases : Aliases α) (e : Equation α) : Equation α :=
  { e with rhs := ⟨e.rhs.op, e.rhs.args.map aliases.redirect⟩ }

namespace Trace

/-- The aliases at the end of a list of equations, and the equations with every operand redirected
through the aliases made before them.  Aliases themselves are left as they are; one without exactly
one operand is refused. -/
def redirectAll (aliases : Aliases α) :
    List (Equation α) → Except (Error α) (Aliases α × List (Equation α))
  | [] => .ok (aliases, [])
  | e :: es =>
    if e.isAlias then
      match e.rhs.args with
      | [target] => do
        let (final, rest) ← redirectAll ((e.binder, target) :: aliases) es
        return (final, e :: rest)
      | args => .error (.wrongCount (.operands .id) 1 args.length)
    else do
      let (final, rest) ← redirectAll aliases es
      return (final, e.redirect aliases :: rest)

/-- The return atom after one hop, unless that leads to a literal. -/
def redirectReturn (aliases : Aliases α) : Atom α → Except (Error α) (Atom α)
  | .lit x => .ok (.lit x)
  | .reg r =>
    match aliases.lookup r with
    | none => .ok (.reg r)
    | some (.reg target) => .ok (.reg target)
    | some (.lit x) => .error (.literalReturn r x)

/-- One step of the backward sweep.  An alias is kept only if it is read behind it, and then what it
reads is read too; every other equation is kept. -/
def keepRead (e : Equation α) (state : List Register × List (Equation α)) :
    List Register × List (Equation α) :=
  if e.isAlias then
    if e.binder ∈ state.1 then (e.reads ++ state.1, e :: state.2) else state
  else (state.1, e :: state.2)

/-- The equations without the aliases that nobody reads, when `ret` is the return atom. -/
def dropUnreadAliases (ret : Atom α) (es : List (Equation α)) : List (Equation α) :=
  let read := ret.regs ++ (es.filter fun e => !e.isAlias).flatMap Equation.reads
  (es.foldr keepRead (read, [])).2

/-- Substitute each alias into its readers, one hop, and drop the aliases that nobody reads. -/
def resolveAliases (t : Trace α) : Except (Error α) (Trace α) := do
  let (aliases, equations) ← redirectAll [] t.equations
  let ret ← redirectReturn aliases t.ret
  return { t with equations := dropUnreadAliases ret equations, ret := ret }

/-- The number of registers that are aliases. -/
def aliasCount (t : Trace α) : Nat :=
  ((t.equations.filter Equation.isAlias).map Equation.binder).eraseDups.length

end Trace

end DualTrace
