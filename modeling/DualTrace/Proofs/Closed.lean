/-
# Closed programs

A closed program computes with numbers, its arguments and the results of its own steps.  It looks at
nothing that a session keeps under a name, and catches no error.

* `Operand.Plain` : a number, or a reference to a frame;
* `Program.Closed` : a program of plain operands, made of instructions, calls, loops and
  derivatives;
* `Operand.lookup` : the value of a plain operand, which the frames alone determine.
-/
import DualTrace.Program.Run
import Mathlib.Data.List.Forall2

namespace DualTrace

variable {σ α : Type}

/-! ## Closed programs -/

/-- An operand that is a number or refers to a frame. -/
def Operand.Plain : Operand α → Prop
  | num _ | arg _ _ | result _ _ => True
  | _ => False

mutual

/-- A program whose operands are plain and whose steps are instructions with the operations `ops`,
calls, loops and derivatives of such programs. -/
def Program.Closed (ops : Op → Prop) : Program α → Prop
  | .block body ret => body.Closed ops ∧ ret.Plain
  | .jvp body seeds => body.Closed ops ∧ ∀ o ∈ seeds, o.Plain
  | _ => False

/-- The steps of a closed program. -/
def Block.Closed (ops : Op → Prop) : Block α → Prop
  | .done => True
  | .step first rest => first.Closed ops ∧ rest.Closed ops

/-- A step of a closed program. -/
def Step.Closed (ops : Op → Prop) : Step α → Prop
  | .issue op operands => ops op ∧ ∀ o ∈ operands, o.Plain
  | .call body operands => body.Closed ops ∧ ∀ o ∈ operands, o.Plain
  | .loop _ init body => init.Plain ∧ body.Closed ops
  | _ => False

end

/-! ## Plain operands -/

/-- What is there, or else the error that the reference refers to nothing. -/
def Operand.found (what : String) : Option (Value α) → Except (Error α) (Value α)
  | some v => .ok v
  | none => .error (.unbound what)

/-- The value of a plain operand inside frames; any other operand refers to nothing here. -/
def Operand.lookup (env : Frames α) : Operand α → Except (Error α) (Value α)
  | num x => .ok (.num x)
  | arg up index => found (reference "a" up index) (env[up]?.bind (·.args[index]?))
  | result up index => found (reference "r" up index) (env[up]?.bind (·.results[index]?))
  | _ => .error (.unbound "operand")

/-- The values of plain operands, from left to right. -/
def Operand.lookupAll (env : Frames α) : List (Operand α) → Except (Error α) (List (Value α))
  | [] => .ok []
  | o :: os =>
    match o.lookup env, lookupAll env os with
    | .ok v, .ok vs => .ok (v :: vs)
    | .ok _, .error e => .error e
    | .error e, _ => .error e

theorem Operand.found_eq_ok {what : String} {o : Option (Value α)} {v : Value α} :
    found what o = .ok v ↔ o = some v := by
  cases o <;> simp [found]

/-- Plain operands have values when each of them has one. -/
theorem Operand.lookupAll_eq_ok {env : Frames α} {os : List (Operand α)} {vs : List (Value α)} :
    lookupAll env os = .ok vs ↔ List.Forall₂ (fun o v => o.lookup env = .ok v) os vs := by
  induction os generalizing vs with
  | nil =>
    rw [List.forall₂_nil_left_iff, lookupAll]
    constructor
    · intro h; cases h; rfl
    · rintro rfl; rfl
  | cons o os ih =>
    rw [List.forall₂_cons_left_iff, lookupAll]
    constructor
    · intro h
      cases ho : o.lookup env with
      | error e => simp [ho] at h
      | ok v =>
        cases hos : lookupAll env os with
        | error e => simp [ho, hos] at h
        | ok rest =>
          simp only [ho, hos, Except.ok.injEq] at h
          exact ⟨v, rest, rfl, ih.mp hos, h.symm⟩
    · rintro ⟨v, rest, hv, hrest, rfl⟩
      rw [hv, ih.mpr hrest]

variable [Scalar α]

omit [Scalar α] in
theorem Run.found_eq_ofExcept (what : String) (v : Option (Value α)) :
    (Run.found what v : Run σ α (Value α)) = Run.ofExcept (Operand.found what v) := by
  cases v <;> rfl

/-- To read a plain operand is to look it up in the frames. -/
theorem Operand.read_eq_lookup (env : Frames α) {o : Operand α} (ho : o.Plain) :
    (o.read env : Run σ α (Value α)) = Run.ofExcept (o.lookup env) := by
  cases o with
  | num x => rfl
  | arg up index => exact Run.found_eq_ofExcept _ _
  | result up index => exact Run.found_eq_ofExcept _ _
  | _ => exact ho.elim

/-- To read plain operands is to look them up one after the other. -/
theorem Operand.readAll_eq_lookupAll (env : Frames α) {os : List (Operand α)}
    (ho : ∀ o ∈ os, o.Plain) :
    (Operand.readAll env os : Run σ α (List (Value α))) = Run.ofExcept (lookupAll env os) := by
  induction os with
  | nil => rfl
  | cons o os ih =>
    have hhead : o.Plain := ho o List.mem_cons_self
    have htail : ∀ o' ∈ os, o'.Plain := fun o' h => ho o' (List.mem_cons_of_mem _ h)
    rw [readAll, read_eq_lookup env hhead, ih htail, lookupAll]
    cases o.lookup env with
    | error e => rfl
    | ok v => cases lookupAll env os <;> rfl

end DualTrace
