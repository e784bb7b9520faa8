/-
# Invariants of the driver

A program does not touch the state of its driver.  What holds of the state after every answer and
every refusal of the driver therefore holds after every run, whatever the program is and however the
run ends.

* `Run.Keeps`, `Driver.Keeps` : runs and drivers that keep a property of the state;
* `Program.run_keeps` : programs under a driver that keeps a property.

Staging a program inside another one gives it a recording of its own, so that it does not touch the
state around it at all.
-/
import DualTrace.Program.Run
import DualTrace.Proofs.Run

namespace DualTrace

variable {σ τ α β γ : Type} {I : σ → Prop}

/-! ## Runs -/

/-- A run that keeps a property of the driver state, however it ends. -/
def Run.Keeps (I : σ → Prop) (x : Run σ α β) : Prop :=
  ∀ m : Machine σ α, I m.state → I (Run.final x m).state

namespace Run.Keeps

/-- A run that leaves the driver state alone. -/
theorem of_state_eq {x : Run σ α β} (h : ∀ m, (Run.final x m).state = m.state) :
    Run.Keeps I x := by
  intro m hm
  rw [h]
  exact hm

theorem pure (b : β) : Run.Keeps I (Pure.pure b : Run σ α β) := of_state_eq fun _ => rfl

theorem throw (e : Error α) : Run.Keeps I (MonadExcept.throw e : Run σ α β) :=
  of_state_eq fun _ => rfl

theorem ofExcept (x : Except (Error α) β) : Run.Keeps I (Run.ofExcept x : Run σ α β) :=
  of_state_eq fun m => by rw [Run.final_ofExcept]

theorem session : Run.Keeps I (Run.session : Run σ α (Session α)) := of_state_eq fun _ => rfl

theorem modifySession (f : Session α → Session α) :
    Run.Keeps I (Run.modifySession f : Run σ α Unit) := of_state_eq fun _ => rfl

theorem takeFromSession (f : Session α → β × Session α) :
    Run.Keeps I (Run.takeFromSession f : Run σ α β) := of_state_eq fun _ => rfl

/-- A sequence of two runs that keep a property keeps it. -/
theorem bind {x : Run σ α β} {f : β → Run σ α γ} (hx : Run.Keeps I x)
    (hf : ∀ b, Run.Keeps I (f b)) : Run.Keeps I (x >>= f) := by
  intro m hm
  have hxm := hx m hm
  unfold Run.final at hxm ⊢
  rw [Run.bind_apply]
  cases h : x m with
  | ok b m' =>
    rw [h] at hxm
    exact hf b m' hxm
  | error e m' =>
    rw [h] at hxm
    exact hxm

/-- What a failed run leaves behind is kept by the run that is taken instead. -/
theorem tryCatch {x : Run σ α β} {f : Error α → Run σ α β} (hx : Run.Keeps I x)
    (hf : ∀ e, Run.Keeps I (f e)) : Run.Keeps I (MonadExcept.tryCatch x f) := by
  intro m hm
  have hxm := hx m hm
  have hcatch : (MonadExcept.tryCatch x f : Run σ α β) m = EStateM.tryCatch x f m := rfl
  unfold Run.final at hxm ⊢
  rw [hcatch]
  unfold EStateM.tryCatch
  cases h : x m with
  | ok b m' =>
    rw [h] at hxm
    exact hxm
  | error e m' =>
    rw [h] at hxm
    exact hf e m' hxm

/-- A run on a state of its own leaves the state around it alone. -/
theorem within (init : τ) (x : Run τ α β) :
    Run.Keeps I (Run.within init x : Run σ α (β × τ)) := of_state_eq fun m => by
  unfold Run.final Run.within
  cases x ⟨init, m.session⟩ <;> rfl

/-- What is found keeps every property. -/
theorem found (what : String) (v : Option (Value α)) :
    Run.Keeps I (Run.found what v : Run σ α (Value α)) := by
  cases v with
  | some v => exact pure v
  | none => exact throw _

theorem traceNamed (name : String) : Run.Keeps I (Run.traceNamed name : Run σ α (Trace α)) := by
  refine session.bind fun s => ?_
  cases s.traces.lookup name with
  | some t => exact pure t
  | none => exact throw _

end Run.Keeps

/-! ## Drivers -/

/-- A driver that keeps a property of its state in every answer and every refusal. -/
def Driver.Keeps (I : σ → Prop) (d : Driver σ α) : Prop := ∀ i, Run.Keeps I (d i)

namespace Driver.Keeps

variable {d : Driver σ α} (hd : d.Keeps I)

include hd

theorem observed : d.observed.Keeps I := by
  intro i m hm
  have hdm := hd i m hm
  unfold Run.final Driver.observed at *
  cases h : d i m with
  | ok v m' =>
    rw [h] at hdm
    exact hdm
  | error e m' =>
    rw [h] at hdm
    exact hdm

/-- An instance of differentiation has no state besides that of the next driver. -/
theorem forward [Scalar α] (tag : Tag) : (Driver.forward tag d).Keeps I := by
  intro i
  unfold Driver.forward
  refine .bind (.ofExcept _) fun _ => ?_
  split
  · exact .bind (hd _) fun _ => .bind (hd _) fun _ => .pure _
  · exact .bind (hd _) fun _ => .bind (hd _) fun _ => .bind (hd _) fun _ =>
      .bind (hd _) fun _ => .pure _
  · exact .bind (hd _) fun _ => .bind (hd _) fun _ => .pure _
  · exact .pure _
  · exact .throw _

/-! ## Replay -/

theorem replayEquations (env : Bindings α) (es : List (Equation α)) :
    Run.Keeps I (Trace.replayEquations d env es) := by
  induction es generalizing env with
  | nil => exact .pure env
  | cons e es ih => exact .bind (.ofExcept _) fun i => .bind (hd i) fun v => ih _

theorem computation (t : Trace α) (args : List (Value α)) :
    Run.Keeps I (t.computation.run d args) :=
  .bind (.ofExcept _) fun _ => .bind (hd.replayEquations _ _) fun _ => .ofExcept _

theorem boundComputation (t : Trace α) (bound args : List (Value α)) :
    Run.Keeps I ((t.boundComputation bound).run d args) := by
  unfold Trace.boundComputation
  by_cases hlen : args.length = 0
  · simp only [hlen, ne_eq, not_true_eq_false, if_false]
    exact hd.computation t bound
  · simp only [hlen, ne_eq, not_false_eq_true, if_true, Run.throw_bind]
    exact .throw _

end Driver.Keeps

/-! ## Operands -/

section Operands

variable [Scalar α]

theorem Operand.read_keeps (env : Frames α) (o : Operand α) :
    Run.Keeps I (o.read env : Run σ α (Value α)) := by
  induction o with
  | num x => exact .pure _
  | arg up index => exact .found _ _
  | result up index => exact .found _ _
  | kept name => exact Run.Keeps.session.bind fun s => .found _ _
  | reg r => exact .pure _
  | dual name p t ihp iht =>
    exact .bind (.takeFromSession _) fun _ => ihp.bind fun _ => iht.bind fun _ => .pure _
  | constant name p ihp =>
    exact .bind (.takeFromSession _) fun _ => ihp.bind fun _ => .pure _
  | lift name v t ihv iht =>
    exact .bind (.takeFromSession _) fun _ => ihv.bind fun _ => iht.bind fun _ => .pure _
  | primal v ihv => exact ihv.bind fun _ => .ofExcept _
  | tangent v ihv => exact ihv.bind fun _ => .ofExcept _

theorem Operand.readAll_keeps (env : Frames α) (os : List (Operand α)) :
    Run.Keeps I (Operand.readAll env os : Run σ α (List (Value α))) := by
  induction os with
  | nil => exact .pure _
  | cons o os ih => exact (o.read_keeps env).bind fun _ => ih.bind fun _ => .pure _

end Operands

/-! ## Computations -/

namespace Computation

variable {c : Computation α} {d : Driver σ α}

/-- Staging leaves the state around it alone. -/
theorem stage_keeps (n : Nat) : Run.Keeps I (c.stage n : Run σ α (Trace α)) :=
  .bind (.takeFromSession _) fun _ => .bind (.within _ _) fun _ => .pure _

theorem stageAndRun_keeps (hd : d.Keeps I) (name : Option String) (args : List (Value α)) :
    Run.Keeps I ((c.stageAndRun name).run d args) := by
  refine (stage_keeps _).bind fun t => (hd.computation t args).bind fun v => ?_
  cases name with
  | none => exact .pure v
  | some name => exact .bind (.modifySession _) fun _ => .pure v

variable [Scalar α]

theorem iterate_keeps (hc : ∀ args, Run.Keeps I (c.run d args)) (count turn : Nat) (v : Value α) :
    Run.Keeps I (iterate c d count turn v) := by
  induction count generalizing turn v with
  | zero => exact .pure v
  | succ count ih => exact (hc _).bind fun w => ih (turn + 1) w

theorem jvp_keeps (hc : ∀ tag args, Run.Keeps I (c.run (d.forward tag) args))
    (seeds args : List (Value α)) : Run.Keeps I ((c.jvp seeds).run d args) := by
  unfold jvp
  by_cases hlen : args.length = seeds.length
  · simp only [hlen, ne_eq, not_true_eq_false, if_false]
    exact .bind (.takeFromSession _) fun tag => (hc tag _).bind fun _ => .ofExcept _
  · simp only [hlen, ne_eq, not_false_eq_true, if_true, Run.throw_bind]
    exact .throw _

theorem forward_keeps (hc : ∀ tag args, Run.Keeps I (c.run (d.forward tag) args))
    (name : Option String) (seeds args : List (Value α)) (whole : Bool) :
    Run.Keeps I ((c.forward name seeds whole).run d args) := by
  have hrest : ∀ tag, Run.Keeps I (c.run (d.forward tag) (Value.liftAll tag args seeds) >>= fun v =>
      if whole then pure v else Run.ofExcept (v.tangentOf tag)) := by
    refine fun tag => (hc tag _).bind fun v => ?_
    cases whole with
    | true => exact .pure v
    | false => exact .ofExcept _
  refine .bind (.takeFromSession _) fun tag => ?_
  cases name with
  | none => exact hrest tag
  | some name => exact .bind (.modifySession _) fun _ => hrest tag

end Computation

/-! ## Programs -/

variable [Scalar α]

mutual

/-- **A program keeps what its driver keeps.** -/
theorem Program.run_keeps {d : Driver σ α} (hd : d.Keeps I) (env : Frames α)
    (args : List (Value α)) : ∀ p : Program α, Run.Keeps I (p.run d env args)
  | .block body ret =>
    (Block.run_keeps hd env _ body).bind fun frame => ret.read_keeps (frame :: env)
  | .jvp body seeds =>
    (Operand.readAll_keeps env seeds).bind fun seeds =>
      Computation.jvp_keeps (fun tag args => Program.run_keeps (hd.forward tag) env args body)
        seeds args
  | .trace name => (Run.Keeps.traceNamed name).bind fun t => hd.computation t args
  | .bound name operands =>
    (Run.Keeps.traceNamed name).bind fun t => (Operand.readAll_keeps env operands).bind fun bound =>
      .bind (.ofExcept _) fun _ => hd.boundComputation t bound args
  | .observed body => Program.run_keeps hd.observed env args body
  | .forward body tag seeds whole =>
    (Operand.readAll_keeps env seeds).bind fun seeds =>
      Computation.forward_keeps (fun tag args => Program.run_keeps (hd.forward tag) env args body)
        tag seeds args whole

/-- The steps of a program keep what the driver keeps. -/
theorem Block.run_keeps {d : Driver σ α} (hd : d.Keeps I) (env : Frames α) (frame : Frame α) :
    ∀ b : Block α, Run.Keeps I (b.run d env frame)
  | .done => .pure frame
  | .step first rest =>
    (Step.run_keeps hd (frame :: env) first).bind fun _ => Block.run_keeps hd env _ rest

/-- A step of a program keeps what the driver keeps. -/
theorem Step.run_keeps {d : Driver σ α} (hd : d.Keeps I) (env : Frames α) :
    ∀ s : Step α, Run.Keeps I (s.run d env)
  | .issue op operands => (Operand.readAll_keeps env operands).bind fun args => hd ⟨op, args⟩
  | .unknown _ operands => (Operand.readAll_keeps env operands).bind fun _ => .throw _
  | .call body operands =>
    (Operand.readAll_keeps env operands).bind fun args => Program.run_keeps hd env args body
  | .loop count init body =>
    (init.read_keeps env).bind fun v =>
      Computation.iterate_keeps (fun args => Program.run_keeps hd env args body) count 0 v
  | .attempt step fallback =>
    (Step.run_keeps hd env step).tryCatch fun _ => fallback.read_keeps env
  | .keep value _ =>
    (value.read_keeps env).bind fun v => .bind (.modifySession _) fun _ => .pure v
  | .stage _ operands name =>
    (Operand.readAll_keeps env operands).bind fun args =>
      Computation.stageAndRun_keeps hd name args

end

end DualTrace
