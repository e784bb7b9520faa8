/-
# Events

What staging and the passes over traces report while they work.
-/
import DualTrace.Trace.Basic

namespace DualTrace

/-- A report on a step that was carried out. -/
inductive Event (α : Type) where
  /-- An equation was recorded at this position. -/
  | staged (position : Nat) (equation : Equation α)
  /-- A recording was completed. -/
  | recorded (params equations : Nat)
  /-- Some equations were replaced by what a rule makes of them. -/
  | simplified (count : Nat)
  /-- Aliases were resolved; so many equations there were before, so many after. -/
  | aliasesResolved (before after aliases : Nat)
  /-- Some constant equations were computed. -/
  | folded (count : Nat)
  /-- Dead equations were dropped; so many equations there were before, so many after. -/
  | deadDropped (before after : Nat)
  /-- A round of the optimizer came to its end. -/
  | roundEnded (round equations : Nat)

/-- The line that reports an event: its level, what happened, and the figures by name. -/
def Event.text {α : Type} [Numeral α] : Event α → String
  | staged position equation =>
    "TRACE staged index=" ++ toString position ++ " equation=" ++ equation.text
  | recorded params equations =>
    "DEBUG trace recorded params=" ++ toString params ++ " equations=" ++ toString equations
  | simplified count => "DEBUG simplify rewritten=" ++ toString count
  | aliasesResolved before after aliases =>
    "DEBUG alias elimination before=" ++ toString before ++ " after=" ++ toString after ++
      " aliases=" ++ toString aliases
  | folded count => "DEBUG constant folding folded=" ++ toString count
  | deadDropped before after =>
    "DEBUG dead code elimination before=" ++ toString before ++ " after=" ++ toString after
  | roundEnded round equations =>
    "DEBUG optimizer round round=" ++ toString round ++ " equations=" ++ toString equations

end DualTrace
