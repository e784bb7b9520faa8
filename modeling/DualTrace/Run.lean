/-
# Runs, drivers and computations

A computation works by issuing instructions, one after the other, to a driver, and goes on with the
values it gets back.  The same computation runs under any driver: one that evaluates, one that
records, or one that passes the instructions of a derivative on to yet another driver.

* `Run` : an action that may fail, on the state of a driver and a session;
* `Driver` : what answers instructions;
* `Computation` : what issues them.

A failure keeps the state that was reached, so that a caller who catches it goes on from there.
-/
import DualTrace.Session

namespace DualTrace

/-! ## Runs -/

/-- The state of a driver, and the session it works in. -/
structure Machine (σ α : Type) where
  state : σ
  session : Session α

/-- An action on a machine that may fail. -/
abbrev Run (σ α : Type) := EStateM (Error α) (Machine σ α)

namespace Run

variable {σ τ α β : Type}

/-- The result of a check that needs no machine. -/
def ofExcept (x : Except (Error α) β) : Run σ α β :=
  match x with
  | .ok b => pure b
  | .error e => throw e

/-- Running one action and then another. -/
theorem bind_apply {γ : Type} (x : Run σ α β) (f : β → Run σ α γ) (m : Machine σ α) :
    (x >>= f) m =
      match x m with
      | .ok b m => f b m
      | .error e m => .error e m := by
  show EStateM.bind x f m = _
  cases h : x m <;> simp [EStateM.bind, h]

/-- A check that succeeds leaves the machine alone. -/
theorem ofExcept_ok (b : β) : (ofExcept (.ok b) : Run σ α β) = pure b := rfl

/-- A check that fails ends the run. -/
theorem ofExcept_error (e : Error α) : (ofExcept (.error e) : Run σ α β) = throw e := rfl

/-- Look at the session. -/
def session : Run σ α (Session α) := fun m => .ok m.session m

/-- Change the session. -/
def modifySession (f : Session α → Session α) : Run σ α Unit :=
  fun m => .ok () { m with session := f m.session }

/-- Take something from the session. -/
def takeFromSession (f : Session α → β × Session α) : Run σ α β :=
  fun m =>
    let (b, s) := f m.session
    .ok b { m with session := s }

/-- Record an event. -/
def report (e : Event α) : Run σ α Unit := modifySession (·.report e)

/-- The trace kept under a name. -/
def traceNamed (name : String) : Run σ α (Trace α) := do
  match (← session).traces.lookup name with
  | some t => return t
  | none => throw (.unbound name)

/-- Run an action on a driver state of its own, which starts as `init`, in the same session. -/
def within (init : τ) (action : Run τ α β) : Run σ α (β × τ) :=
  fun m =>
    match action ⟨init, m.session⟩ with
    | .ok b inner => .ok (b, inner.state) { m with session := inner.session }
    | .error e inner => .error e { m with session := inner.session }

end Run

/-! ## Drivers -/

/-- What answers the instructions of a computation. -/
abbrev Driver (σ α : Type) := Instruction (Value α) → Run σ α (Value α)

namespace Driver

variable {σ α : Type}

/-- The driver that answers by a transition of its own state and leaves the session alone. -/
def ofTransition (step : Instruction (Value α) → σ → Except (Error α) (Value α) × σ) :
    Driver σ α :=
  fun i m =>
    match step i m.state with
    | (.ok v, s) => .ok v { m with state := s }
    | (.error e, s) => .error e { m with state := s }

/-- The driver whose answer depends on the instruction alone. -/
def ofAnswer (answer : Instruction (Value α) → Except (Error α) (Value α)) : Driver σ α :=
  fun i => Run.ofExcept (answer i)

/-- Direct evaluation: every instruction is carried out on numbers at once. -/
def direct [Scalar α] : Driver σ α := ofAnswer Instruction.evaluate

/-- Pass every instruction on, and record it with its answer once it has been carried out. -/
def observed (d : Driver σ α) : Driver σ α :=
  fun i m =>
    match d i m with
    | .ok v m => .ok v { m with session := m.session.observe ⟨i, some v⟩ }
    | .error e m => .error e { m with session := m.session.observe ⟨i, none⟩ }

end Driver

/-! ## Computations -/

/-- What issues instructions: given a driver and arguments, it runs to a completion value. -/
structure Computation (α : Type) where
  run : {σ : Type} → Driver σ α → List (Value α) → Run σ α (Value α)

namespace Computation

variable {σ α : Type}

/-- The same computation with every instruction recorded. -/
def observed (c : Computation α) : Computation α where
  run d args := c.run d.observed args

/-- The value of a computation at numbers, by direct evaluation. -/
def evaluate [Scalar α] (c : Computation α) (args : List α) : Run σ α α := do
  let result ← c.run Driver.direct (args.map Value.num)
  match result with
  | .num x => return x
  | v => throw (.nonNumericResult v)

end Computation

end DualTrace
