/-
# Negotiations

A computation that catches errors hears it when its driver refuses an instruction, and goes on from
there.  Its negotiation is the tree of all conversations in which an answer can be a refusal too.

* `Negotiation` : the trees;
* `Negotiation.run` : the negotiation with one driver;
* `Negotiation.forward` : what the next driver sees of a negotiation when an instance of
  differentiation stands between;
* `Computation.Follows` : a computation that negotiates and does nothing else;
* `Trace.negotiation`, `Program.negotiation` : the negotiations of a trace that is replayed and of a
  self-contained program.

An instance of differentiation issues several instructions on behalf of one.  If a later one of them
is refused, the computation hears of one refusal, and what was done for the earlier ones stays done
(`Negotiation.run_forward`).
-/
import DualTrace.Proofs.Dialogue
import DualTrace.Proofs.Invariant

namespace DualTrace

variable {σ α β γ : Type}

/-! ## Runs whose errors are caught -/

/-- A run whose error is caught: it is part of what the run gives. -/
def Run.attempt (x : Run σ α β) : Run σ α (Except (Error α) β) :=
  fun m =>
    match x m with
    | .ok b m => .ok (.ok b) m
    | .error e m => .ok (.error e) m

/-- To take something else in case of an error is to catch the error first. -/
theorem Run.tryCatch_eq_attempt (x : Run σ α β) (f : Error α → Run σ α β) :
    tryCatch x f = x.attempt >>= fun
      | .ok b => pure b
      | .error e => f e := by
  funext m
  rw [bind_apply, attempt]
  show EStateM.tryCatch x f m = _
  unfold EStateM.tryCatch
  cases x m <;> rfl

theorem Run.Keeps.attempt {I : σ → Prop} {x : Run σ α β} (h : Run.Keeps I x) :
    Run.Keeps I x.attempt := by
  intro m hm
  have hx := h m hm
  unfold Run.final Run.attempt at *
  cases hrun : x m with
  | ok b m' => rw [hrun] at hx; exact hx
  | error e m' => rw [hrun] at hx; exact hx

/-! ## The trees -/

/-- What a computation asks of its driver, if it goes on after a refusal. -/
inductive Negotiation (α β : Type) where
  | done (b : β)
  | fail (e : Error α)
  /-- Ask for an instruction and go on with the answer or the reason of the refusal. -/
  | ask (i : Instruction (Value α)) (next : Except (Error α) (Value α) → Negotiation α β)
  /-- Take a tag and go on with it. -/
  | mint (next : Tag → Negotiation α β)

namespace Negotiation

/-- One negotiation after another. -/
def bind : Negotiation α β → (β → Negotiation α γ) → Negotiation α γ
  | done b, f => f b
  | fail e, _ => fail e
  | ask i next, f => ask i fun answer => (next answer).bind f
  | mint next, f => mint fun tag => (next tag).bind f

/-- A negotiation whose error is caught. -/
def attempt : Negotiation α β → Negotiation α (Except (Error α) β)
  | done b => done (.ok b)
  | fail e => done (.error e)
  | ask i next => ask i fun answer => (next answer).attempt
  | mint next => mint fun tag => (next tag).attempt

/-- A check, which asks for nothing. -/
def ofExcept : Except (Error α) β → Negotiation α β
  | .ok b => done b
  | .error e => fail e

/-- A dialogue, which ends with the first refusal. -/
def ofDialogue : Dialogue α β → Negotiation α β
  | .done b => done b
  | .fail e => fail e
  | .ask i next => ask i fun
    | .ok v => ofDialogue (next v)
    | .error e => fail e
  | .mint next => mint fun tag => ofDialogue (next tag)

/-- A negotiation with something else to take in case of an error. -/
def orElse (x : Negotiation α β) (y : Negotiation α β) : Negotiation α β :=
  x.attempt.bind fun
    | .ok b => done b
    | .error _ => y

/-- A negotiation for each turn of a loop, from turn `turn` on. -/
def iterate [NatCast α] (body : List (Value α) → Negotiation α (Value α)) :
    (count turn : Nat) → Value α → Negotiation α (Value α)
  | 0, _, v => done v
  | count + 1, turn, v =>
    (body [v, .num (turn : α)]).bind fun v => iterate body count (turn + 1) v

/-- A negotiation as the next driver sees it behind an instance of differentiation. -/
def forward [Scalar α] (tag : Tag) : Negotiation α β → Negotiation α β
  | done b => done b
  | fail e => fail e
  | ask i next => (ofDialogue (.derive tag i)).attempt.bind fun answer => (next answer).forward tag
  | mint next => mint fun new => (next new).forward tag

/-! ## Negotiations with a driver -/

/-- The negotiation with a driver. -/
def run (d : Driver σ α) : Negotiation α β → Run σ α β
  | done b => pure b
  | fail e => throw e
  | ask i next => (d i).attempt >>= fun answer => (next answer).run d
  | mint next => Run.takeFromSession Session.mintTag >>= fun tag => (next tag).run d

variable (d : Driver σ α)

/-- Asking for an instruction and going on with the answer or the refusal. -/
theorem run_ask (i : Instruction (Value α)) (next : Except (Error α) (Value α) → Negotiation α β)
    (m : Machine σ α) :
    (ask i next).run d m =
      match d i m with
      | .ok v m' => (next (.ok v)).run d m'
      | .error e m' => (next (.error e)).run d m' := by
  rw [run, Run.bind_apply, Run.attempt]
  cases d i m <;> rfl

/-- What asking for an instruction leaves behind. -/
theorem final_run_ask (i : Instruction (Value α))
    (next : Except (Error α) (Value α) → Negotiation α β) (m : Machine σ α) :
    Run.final ((ask i next).run d) m =
      match d i m with
      | .ok v m' => Run.final ((next (.ok v)).run d) m'
      | .error e m' => Run.final ((next (.error e)).run d) m' := by
  unfold Run.final
  rw [run_ask]
  cases d i m <;> rfl

/-- Taking a tag and going on. -/
theorem run_mint (next : Tag → Negotiation α β) (m : Machine σ α) :
    (mint next).run d m =
      (next ⟨m.session.nextTag⟩).run d (m.withTags (m.session.nextTag + 1)) := rfl

/-- Two negotiations follow one another. -/
theorem run_bind (x : Negotiation α β) (f : β → Negotiation α γ) :
    (x.bind f).run d = x.run d >>= fun b => (f b).run d := by
  induction x with
  | done b => simp only [bind, run, pure_bind]
  | fail e => rfl
  | ask i next ih => simp only [bind, run, bind_assoc, ih]
  | mint next ih => simp only [bind, run, bind_assoc, ih]

/-- A negotiation whose error is caught is a run whose error is caught. -/
theorem run_attempt (x : Negotiation α β) : x.attempt.run d = (x.run d).attempt := by
  funext m
  induction x generalizing m with
  | done b => rfl
  | fail e => rfl
  | ask i next ih =>
    rw [attempt, run_ask, Run.attempt, run_ask]
    cases d i m with
    | ok v m' => exact ih (.ok v) m'
    | error e m' => exact ih (.error e) m'
  | mint next ih =>
    rw [attempt, run_mint, Run.attempt, run_mint]
    exact ih _ _

theorem run_ofExcept (x : Except (Error α) β) : (ofExcept x).run d = Run.ofExcept x := by
  cases x <;> rfl

/-- A dialogue is a negotiation in which nothing is caught. -/
theorem run_ofDialogue (x : Dialogue α β) : (ofDialogue x).run d = x.run d := by
  funext m
  induction x generalizing m with
  | done b => rfl
  | fail e => rfl
  | ask i next ih =>
    rw [ofDialogue, run_ask, Dialogue.run, Run.bind_apply]
    cases d i m with
    | ok v m' => exact ih v m'
    | error e m' => rfl
  | mint next ih => exact ih _ _

/-- Something else is taken in case of an error. -/
theorem run_orElse (x y : Negotiation α β) :
    (x.orElse y).run d = tryCatch (x.run d) fun _ => y.run d := by
  rw [orElse, run_bind, run_attempt, Run.tryCatch_eq_attempt]
  congr 1
  funext outcome
  cases outcome <;> rfl

/-- The negotiation of a loop. -/
theorem run_iterate [Scalar α] {c : Computation α}
    {body : List (Value α) → Negotiation α (Value α)}
    (hbody : ∀ args, c.run d args = (body args).run d) (count turn : Nat) (v : Value α) :
    (iterate body count turn v).run d = c.iterate d count turn v := by
  induction count generalizing turn v with
  | zero => rfl
  | succ count ih =>
    rw [iterate, run_bind, Computation.iterate, hbody]
    congr 1
    funext w
    exact ih (turn + 1) w

/-- **A negotiation with an instance of differentiation is one with the driver behind it.**  Where
the instance refuses an instruction because the driver behind it has refused one, what was done
before stays done. -/
theorem run_forward [Scalar α] (tag : Tag) (x : Negotiation α β) :
    (x.forward tag).run d = x.run (Driver.forward tag d) := by
  induction x with
  | done b => rfl
  | fail e => rfl
  | ask i next ih =>
    rw [forward, run_bind, run_attempt, run_ofDialogue, Dialogue.run_derive, run]
    congr 1
    funext answer
    exact ih answer
  | mint next ih =>
    rw [forward, run, run]
    congr 1
    funext new
    exact ih new

/-- A negotiation keeps what its driver keeps. -/
theorem run_keeps {I : σ → Prop} {d : Driver σ α} (hd : d.Keeps I) (x : Negotiation α β) :
    Run.Keeps I (x.run d) := by
  induction x with
  | done b => exact .pure b
  | fail e => exact .throw e
  | ask i next ih => exact .bind (hd i).attempt ih
  | mint next ih => exact .bind (.takeFromSession _) ih

end Negotiation

/-! ## Computations that negotiate -/

/-- A computation that negotiates with its driver, as `body` says, and does nothing else. -/
def Computation.Follows (c : Computation α) (body : List (Value α) → Negotiation α (Value α)) :
    Prop :=
  ∀ {σ : Type} (d : Driver σ α) (args : List (Value α)), c.run d args = (body args).run d

section Derivatives

variable [Scalar α]

namespace Negotiation

/-- The negotiation of a drive on dual numbers: `lifted` are the arguments of a new instance, and
`close` is what becomes of the completion value. -/
def drive (body : List (Value α) → Negotiation α (Value α)) (lifted : Tag → List (Value α))
    (close : Tag → Value α → Except (Error α) (Value α)) : Negotiation α (Value α) :=
  mint fun tag => ((body (lifted tag)).forward tag).bind fun v => ofExcept (close tag v)

/-- The negotiation of a derivative. -/
def jvp (body : List (Value α) → Negotiation α (Value α)) (seeds args : List (Value α)) :
    Negotiation α (Value α) :=
  if args.length = seeds.length then
    drive body (fun tag => Value.liftAll tag args seeds) Value.tangentOf
  else fail (.wrongCount .primals seeds.length args.length)

end Negotiation

omit [Scalar α] in
/-- With one seed for each argument, to lift the arguments is to lift them in pairs. -/
theorem Value.liftAll_eq_zipWith (tag : Tag) :
    ∀ {args seeds : List (Value α)}, args.length = seeds.length →
      liftAll tag args seeds = List.zipWith (lift tag) args seeds
  | [], [], _ => rfl
  | v :: vs, seed :: seeds, h => by
    rw [liftAll, List.zipWith_cons_cons, liftAll_eq_zipWith tag (Nat.succ.inj h)]

variable {c : Computation α} {body : List (Value α) → Negotiation α (Value α)}

/-- A drive on dual numbers negotiates with the driver behind it. -/
theorem Computation.Follows.run_drive (h : c.Follows body) (d : Driver σ α)
    (lifted : Tag → List (Value α)) (close : Tag → Value α → Except (Error α) (Value α)) :
    (Negotiation.drive body lifted close).run d =
      Run.takeFromSession Session.mintTag >>= fun tag =>
        c.run (Driver.forward tag d) (lifted tag) >>= fun v => Run.ofExcept (close tag v) := by
  rw [Negotiation.drive, Negotiation.run]
  congr 1
  funext tag
  rw [Negotiation.run_bind, Negotiation.run_forward, h]
  congr 1
  funext v
  exact Negotiation.run_ofExcept d _

/-- **The derivatives of a computation that negotiates negotiate as well.** -/
theorem Computation.Follows.jvp (h : c.Follows body) (seeds : List (Value α)) :
    (c.jvp seeds).Follows (Negotiation.jvp body seeds) := by
  intro σ d args
  unfold Negotiation.jvp
  by_cases hlen : args.length = seeds.length
  · rw [if_pos hlen, h.run_drive]
    unfold Computation.jvp
    simp only [hlen, ne_eq, not_true_eq_false, if_false, Value.liftAll_eq_zipWith _ hlen]
  · rw [if_neg hlen, Computation.jvp_of_ne c hlen]
    rfl

/-- A drive on dual numbers of an instance without a name negotiates. -/
theorem Computation.Follows.forward (h : c.Follows body) (seeds : List (Value α))
    (whole : Bool) :
    (c.forward none seeds whole).Follows fun args =>
      Negotiation.drive body (fun tag => Value.liftAll tag args seeds)
        fun tag v => if whole then .ok v else v.tangentOf tag := by
  intro σ d args
  rw [h.run_drive]
  show Run.takeFromSession Session.mintTag >>= _ = Run.takeFromSession Session.mintTag >>= _
  congr 1
  funext tag
  show c.run (Driver.forward tag d) _ >>= _ = c.run (Driver.forward tag d) _ >>= _
  congr 1
  funext v
  cases whole <;> rfl

end Derivatives

/-! ## Traces that negotiate -/

namespace Trace

/-- The negotiation of equations that are replayed. -/
def replayNegotiation (env : Bindings α) : List (Equation α) → Negotiation α (Bindings α)
  | [] => .done env
  | e :: es =>
    (Negotiation.ofExcept (e.rhs.mapM env.value)).bind fun i => .ask i fun
      | .ok v => replayNegotiation ((e.binder, v) :: env) es
      | .error error => .fail error

/-- The negotiation of a trace that is replayed. -/
def negotiation (t : Trace α) (args : List (Value α)) : Negotiation α (Value α) :=
  (Negotiation.ofExcept (t.checkArguments args)).bind fun _ =>
    (replayNegotiation (t.bind args) t.equations).bind fun env => .ofExcept (env.value t.ret)

theorem run_replayNegotiation (d : Driver σ α) (env : Bindings α) (es : List (Equation α)) :
    (replayNegotiation env es).run d = replayEquations d env es := by
  induction es generalizing env with
  | nil => rfl
  | cons e es ih =>
    rw [replayNegotiation, Negotiation.run_bind, Negotiation.run_ofExcept, replayEquations]
    congr 1
    funext i
    funext m
    rw [Negotiation.run_ask, Run.bind_apply]
    cases d i m with
    | ok v m' => exact congrFun (ih _) m'
    | error e m' => rfl

/-- **A trace that is replayed negotiates with its driver.** -/
theorem follows_negotiation (t : Trace α) : t.computation.Follows t.negotiation := by
  intro σ d args
  rw [negotiation, Negotiation.run_bind, Negotiation.run_ofExcept]
  show Run.ofExcept (t.checkArguments args) >>= _ = Run.ofExcept (t.checkArguments args) >>= _
  congr 1
  funext _
  rw [Negotiation.run_bind, run_replayNegotiation]
  congr 1
  funext env
  exact (Negotiation.run_ofExcept d _).symm

end Trace

/-! ## Programs that negotiate -/

mutual

/-- A program that computes with numbers, its arguments and the results of its own steps.  It looks
at nothing that a session keeps under a name and keeps nothing there, but it may catch errors and
let dual numbers out. -/
def Program.SelfContained : Program α → Prop
  | .block body ret => body.SelfContained ∧ ret.Plain
  | .jvp body seeds => body.SelfContained ∧ ∀ o ∈ seeds, o.Plain
  | .forward body tag seeds _ => body.SelfContained ∧ tag = none ∧ ∀ o ∈ seeds, o.Plain
  | _ => False

/-- The steps of a self-contained program. -/
def Block.SelfContained : Block α → Prop
  | .done => True
  | .step first rest => first.SelfContained ∧ rest.SelfContained

/-- A step of a self-contained program. -/
def Step.SelfContained : Step α → Prop
  | .issue _ operands | .unknown _ operands => ∀ o ∈ operands, o.Plain
  | .call body operands => body.SelfContained ∧ ∀ o ∈ operands, o.Plain
  | .loop _ init body => init.Plain ∧ body.SelfContained
  | .attempt step fallback => step.SelfContained ∧ fallback.Plain
  | _ => False

end

variable [Scalar α]

/-- A negotiation that goes on with the values of operands. -/
def Operand.negotiate (env : Frames α) (operands : List (Operand α))
    (next : List (Value α) → Negotiation α β) : Negotiation α β :=
  (Negotiation.ofExcept (lookupAll env operands)).bind next

/-- Self-contained programs read their operands in the frames around them. -/
theorem Operand.run_negotiate (d : Driver σ α) (env : Frames α) {operands : List (Operand α)}
    (h : ∀ o ∈ operands, o.Plain) (next : List (Value α) → Negotiation α β) :
    (negotiate env operands next).run d = readAll env operands >>= fun vs => (next vs).run d := by
  rw [negotiate, Negotiation.run_bind, Negotiation.run_ofExcept, readAll_eq_lookupAll env h]

mutual

/-- The negotiation of a self-contained program inside the frames around it. -/
def Program.negotiation (env : Frames α) (args : List (Value α)) :
    Program α → Negotiation α (Value α)
  | .block body ret =>
    (body.negotiation env { args := args }).bind fun frame => .ofExcept (ret.lookup (frame :: env))
  | .jvp body seeds =>
    Operand.negotiate env seeds fun seeds =>
      .jvp (fun args => body.negotiation env args) seeds args
  | .forward body _ seeds whole =>
    Operand.negotiate env seeds fun seeds =>
      .drive (fun args => body.negotiation env args) (fun tag => Value.liftAll tag args seeds)
        fun tag v => if whole then .ok v else v.tangentOf tag
  | _ => .fail (.unbound "program")

/-- The negotiation of the steps of a self-contained program. -/
def Block.negotiation (env : Frames α) (frame : Frame α) : Block α → Negotiation α (Frame α)
  | .done => .done frame
  | .step first rest =>
    (first.negotiation (frame :: env)).bind fun v => rest.negotiation env (frame.push v)

/-- The negotiation of a step of a self-contained program. -/
def Step.negotiation (env : Frames α) : Step α → Negotiation α (Value α)
  | .issue op operands => Operand.negotiate env operands fun args => .ask ⟨op, args⟩ .ofExcept
  | .unknown name operands => Operand.negotiate env operands fun _ => .fail (.unknownOp name)
  | .call body operands => Operand.negotiate env operands fun args => body.negotiation env args
  | .loop count init body =>
    (Negotiation.ofExcept (init.lookup env)).bind fun v =>
      .iterate (fun args => body.negotiation env args) count 0 v
  | .attempt step fallback =>
    (step.negotiation env).orElse (.ofExcept (fallback.lookup env))
  | _ => .fail (.unbound "step")

end

mutual

/-- **A self-contained program negotiates with its driver.** -/
theorem Program.run_eq_negotiation {σ : Type} (d : Driver σ α) (env : Frames α)
    (args : List (Value α)) :
    ∀ {p : Program α}, p.SelfContained → p.run d env args = (p.negotiation env args).run d
  | .block body ret, h => by
    rw [Program.run, Program.negotiation, Negotiation.run_bind,
      Block.run_eq_negotiation d env _ h.1]
    congr 1
    funext frame
    rw [Operand.read_eq_lookup _ h.2, Negotiation.run_ofExcept]
  | .jvp body seeds, h => by
    have hbody : Computation.Follows ⟨fun d args => body.run d env args⟩
        fun args => body.negotiation env args :=
      fun d args => Program.run_eq_negotiation d env args h.1
    rw [Program.run, Program.negotiation, Operand.run_negotiate d env h.2]
    congr 1
    funext vs
    exact hbody.jvp vs d args
  | .forward body tag seeds whole, h => by
    obtain ⟨hclosed, rfl, hseeds⟩ := h
    have hbody : Computation.Follows ⟨fun d args => body.run d env args⟩
        fun args => body.negotiation env args :=
      fun d args => Program.run_eq_negotiation d env args hclosed
    rw [Program.run, Program.negotiation, Operand.run_negotiate d env hseeds]
    congr 1
    funext vs
    exact hbody.forward vs whole d args

/-- The steps of a self-contained program negotiate with its driver. -/
theorem Block.run_eq_negotiation {σ : Type} (d : Driver σ α) (env : Frames α) (frame : Frame α) :
    ∀ {b : Block α}, b.SelfContained → b.run d env frame = (b.negotiation env frame).run d
  | .done, _ => rfl
  | .step first rest, h => by
    rw [Block.run, Block.negotiation, Negotiation.run_bind, Step.run_eq_negotiation d _ h.1]
    congr 1
    funext v
    exact Block.run_eq_negotiation d env _ h.2

/-- A step of a self-contained program negotiates with its driver. -/
theorem Step.run_eq_negotiation {σ : Type} (d : Driver σ α) (env : Frames α) :
    ∀ {s : Step α}, s.SelfContained → s.run d env = (s.negotiation env).run d
  | .issue op operands, h => by
    rw [Step.run, Step.negotiation, Operand.run_negotiate d env h]
    congr 1
    funext args
    funext m
    rw [Negotiation.run_ask]
    cases d ⟨op, args⟩ m <;> rfl
  | .unknown name operands, h => by
    rw [Step.run, Step.negotiation, Operand.run_negotiate d env h]
    rfl
  | .call body operands, h => by
    rw [Step.run, Step.negotiation, Operand.run_negotiate d env h.2]
    congr 1
    funext args
    exact Program.run_eq_negotiation d env args h.1
  | .loop count init body, h => by
    rw [Step.run, Step.negotiation, Negotiation.run_bind, Operand.read_eq_lookup env h.1,
      Negotiation.run_ofExcept]
    congr 1
    funext v
    have hbody : Computation.Follows ⟨fun d args => body.run d env args⟩
        fun args => body.negotiation env args :=
      fun d args => Program.run_eq_negotiation d env args h.2
    exact (Negotiation.run_iterate d (hbody d) count 0 v).symm
  | .attempt step fallback, h => by
    rw [Step.run, Step.negotiation, Negotiation.run_orElse, Step.run_eq_negotiation d env h.1,
      Operand.read_eq_lookup env h.2, Negotiation.run_ofExcept]

end

end DualTrace
