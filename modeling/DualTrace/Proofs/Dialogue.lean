/-
# Dialogues

A closed program talks to its driver: it asks for one instruction after the other, takes a tag when
it starts a derivative, and ends with a value or an error.  Its dialogue is the tree of all these
conversations, one branch for each answer, and does not depend on any driver.

* `Dialogue` : the trees;
* `Dialogue.run` : the conversation with one driver;
* `Dialogue.forward` : the conversation that the next driver sees when an instance of
  differentiation stands between;
* `Program.dialogue` : the dialogue of a closed program.

`Dialogue.run_forward` and `Program.run_eq_dialogue` say that nothing is lost: a closed program runs
under a driver as its dialogue does, also when the driver is a derivative of another one.
-/
import DualTrace.Proofs.Closed
import DualTrace.Proofs.Run

namespace DualTrace

variable {σ α β γ : Type}

/-! ## The trees -/

/-- What a computation asks of its driver. -/
inductive Dialogue (α β : Type) where
  | done (b : β)
  | fail (e : Error α)
  /-- Ask for an instruction and go on with the answer. -/
  | ask (i : Instruction (Value α)) (next : Value α → Dialogue α β)
  /-- Take a tag and go on with it. -/
  | mint (next : Tag → Dialogue α β)

namespace Dialogue

/-- One dialogue after another. -/
def bind : Dialogue α β → (β → Dialogue α γ) → Dialogue α γ
  | done b, f => f b
  | fail e, _ => fail e
  | ask i next, f => ask i fun v => (next v).bind f
  | mint next, f => mint fun tag => (next tag).bind f

/-- A check, which asks for nothing. -/
def ofExcept : Except (Error α) β → Dialogue α β
  | .ok b => done b
  | .error e => fail e

/-- A dialogue for each turn of a loop, from turn `turn` on; each has the last result and the number
of its turn as arguments. -/
def iterate [NatCast α] (c : List (Value α) → Dialogue α (Value α)) :
    (count turn : Nat) → Value α → Dialogue α (Value α)
  | 0, _, v => done v
  | count + 1, turn, v => (c [v, .num (turn : α)]).bind fun v => iterate c count (turn + 1) v

/-! ## Conversations -/

/-- The conversation with a driver. -/
def run (d : Driver σ α) : Dialogue α β → Run σ α β
  | done b => pure b
  | fail e => throw e
  | ask i next => d i >>= fun v => (next v).run d
  | mint next => Run.takeFromSession Session.mintTag >>= fun tag => (next tag).run d

/-- The conversations of two dialogues follow one another. -/
theorem run_bind (d : Driver σ α) (x : Dialogue α β) (f : β → Dialogue α γ) :
    (x.bind f).run d = x.run d >>= fun b => (f b).run d := by
  induction x with
  | done b => simp only [bind, run, pure_bind]
  | fail e => rfl
  | ask i next ih => simp only [bind, run, bind_assoc, ih]
  | mint next ih => simp only [bind, run, bind_assoc, ih]

theorem run_ofExcept (d : Driver σ α) (x : Except (Error α) β) :
    (ofExcept x).run d = Run.ofExcept x := by
  cases x <;> rfl

/-- The conversation of a loop. -/
theorem run_iterate [Scalar α] (d : Driver σ α) (c : Computation α)
    (body : List (Value α) → Dialogue α (Value α))
    (hbody : ∀ args, c.run d args = (body args).run d) (count turn : Nat) (v : Value α) :
    (iterate body count turn v).run d = Computation.iterate c d count turn v := by
  induction count generalizing turn v with
  | zero => rfl
  | succ count ih =>
    rw [iterate, run_bind, Computation.iterate, hbody]
    congr 1
    funext w
    exact ih (turn + 1) w

/-! ## Derivatives -/

variable [Scalar α]

/-- What an instance of differentiation asks the next driver on behalf of an instruction. -/
def derive (tag : Tag) (i : Instruction (Value α)) : Dialogue α (Value α) :=
  (ofExcept i.checkArity).bind fun _ =>
    match i.op, i.args with
    | .add, [x, y] =>
      ask ⟨.add, [x.primalFor tag, y.primalFor tag]⟩ fun primal =>
      ask ⟨.add, [x.tangentFor tag, y.tangentFor tag]⟩ fun tangent =>
      done (.dual tag primal tangent)
    | .mul, [x, y] =>
      ask ⟨.mul, [x.primalFor tag, y.primalFor tag]⟩ fun primal =>
      ask ⟨.mul, [x.primalFor tag, y.tangentFor tag]⟩ fun left =>
      ask ⟨.mul, [y.primalFor tag, x.tangentFor tag]⟩ fun right =>
      ask ⟨.add, [left, right]⟩ fun tangent =>
      done (.dual tag primal tangent)
    | .iif, [c, x, y] =>
      ask ⟨.iif, [c.primalFor tag, x.primalFor tag, y.primalFor tag]⟩ fun primal =>
      ask ⟨.iif, [c.tangentFor tag, x.tangentFor tag, y.tangentFor tag]⟩ fun tangent =>
      done (.dual tag primal tangent)
    | .id, [x] => done (x.lift tag (.num Scalar.zero))
    | op, args => fail (.wrongCount (.operands op) op.arity args.length)

/-- The rules of differentiation are what an instance asks for. -/
theorem run_derive (d : Driver σ α) (tag : Tag) (i : Instruction (Value α)) :
    (derive tag i).run d = Driver.forward tag d i := by
  obtain ⟨op, args⟩ := i
  unfold derive Driver.forward
  rw [run_bind, run_ofExcept]
  congr 1
  funext _
  -- the rules look at no more than the first three operands and whether there are others
  cases op <;> rcases args with _ | ⟨x, _ | ⟨y, _ | ⟨z, _ | ⟨w, args⟩⟩⟩⟩ <;> rfl

/-- A dialogue as the next driver sees it behind an instance of differentiation. -/
def forward (tag : Tag) : Dialogue α β → Dialogue α β
  | done b => done b
  | fail e => fail e
  | ask i next => (derive tag i).bind fun v => (next v).forward tag
  | mint next => mint fun new => (next new).forward tag

/-- **A conversation with an instance of differentiation is one with the driver behind it.** -/
theorem run_forward (d : Driver σ α) (tag : Tag) (x : Dialogue α β) :
    (x.forward tag).run d = x.run (Driver.forward tag d) := by
  induction x with
  | done b => rfl
  | fail e => rfl
  | ask i next ih => simp only [forward, run, run_bind, run_derive, ih]
  | mint next ih => simp only [forward, run, ih]

end Dialogue

/-! ## Closed programs -/

variable [Scalar α]

mutual

/-- The dialogue of a closed program inside the frames around it. -/
def Program.dialogue (env : Frames α) (args : List (Value α)) :
    Program α → Dialogue α (Value α)
  | .block body ret =>
    (body.dialogue env { args := args }).bind fun frame =>
      .ofExcept (ret.lookup (frame :: env))
  | .jvp body seeds =>
    (Dialogue.ofExcept (Operand.lookupAll env seeds)).bind fun seeds =>
      if args.length = seeds.length then
        .mint fun tag =>
          ((body.dialogue env (List.zipWith (Value.lift tag) args seeds)).forward tag).bind
            fun result => .ofExcept (result.tangentOf tag)
      else .fail (.wrongCount .primals seeds.length args.length)
  | _ => .fail (.unbound "program")

/-- The dialogue of the steps of a closed program. -/
def Block.dialogue (env : Frames α) (frame : Frame α) : Block α → Dialogue α (Frame α)
  | .done => .done frame
  | .step first rest =>
    (first.dialogue (frame :: env)).bind fun v => rest.dialogue env (frame.push v)

/-- The dialogue of a step of a closed program. -/
def Step.dialogue (env : Frames α) : Step α → Dialogue α (Value α)
  | .issue op operands =>
    (Dialogue.ofExcept (Operand.lookupAll env operands)).bind fun args =>
      .ask ⟨op, args⟩ .done
  | .call body operands =>
    (Dialogue.ofExcept (Operand.lookupAll env operands)).bind fun args =>
      body.dialogue env args
  | .loop count init body =>
    (Dialogue.ofExcept (init.lookup env)).bind fun v =>
      Dialogue.iterate (fun args => body.dialogue env args) count 0 v
  | _ => .fail (.unbound "step")

end

mutual

/-- **A closed program runs under a driver as its dialogue does.** -/
theorem Program.run_eq_dialogue {ops : Op → Prop} (d : Driver σ α) (env : Frames α)
    (args : List (Value α)) :
    ∀ {p : Program α}, p.Closed ops → p.run d env args = (p.dialogue env args).run d
  | .block body ret, h => by
    rw [Program.run, Program.dialogue, Dialogue.run_bind, Block.run_eq_dialogue d env _ h.1]
    congr 1
    funext frame
    rw [Operand.read_eq_lookup _ h.2, Dialogue.run_ofExcept]
  | .jvp body seeds, h => by
    rw [Program.run, Program.dialogue, Dialogue.run_bind, Operand.readAll_eq_lookupAll env h.2,
      Dialogue.run_ofExcept]
    congr 1
    funext vs
    unfold Computation.jvp
    by_cases hlen : args.length = vs.length
    · simp only [hlen, ne_eq, not_true_eq_false, if_false, if_true, Dialogue.run]
      congr 1
      funext tag
      rw [Program.run_eq_dialogue (Driver.forward tag d) env _ h.1, Dialogue.run_bind,
        Dialogue.run_forward]
      congr 1
      funext result
      rw [Dialogue.run_ofExcept]
    · simp only [hlen, ne_eq, not_false_eq_true, if_true, if_false, Run.throw_bind, Dialogue.run]

/-- The steps of a closed program run under a driver as their dialogue does. -/
theorem Block.run_eq_dialogue {ops : Op → Prop} (d : Driver σ α) (env : Frames α)
    (frame : Frame α) :
    ∀ {b : Block α}, b.Closed ops → b.run d env frame = (b.dialogue env frame).run d
  | .done, _ => rfl
  | .step first rest, h => by
    rw [Block.run, Block.dialogue, Dialogue.run_bind, Step.run_eq_dialogue d _ h.1]
    congr 1
    funext v
    exact Block.run_eq_dialogue d env _ h.2

/-- A step of a closed program runs under a driver as its dialogue does. -/
theorem Step.run_eq_dialogue {ops : Op → Prop} (d : Driver σ α) (env : Frames α) :
    ∀ {s : Step α}, s.Closed ops → s.run d env = (s.dialogue env).run d
  | .issue op operands, h => by
    rw [Step.run, Step.dialogue, Dialogue.run_bind, Operand.readAll_eq_lookupAll env h.2,
      Dialogue.run_ofExcept]
    congr 1
    funext args
    simp only [Dialogue.run, bind_pure]
  | .call body operands, h => by
    rw [Step.run, Step.dialogue, Dialogue.run_bind, Operand.readAll_eq_lookupAll env h.2,
      Dialogue.run_ofExcept]
    congr 1
    funext args
    exact Program.run_eq_dialogue d env args h.1
  | .loop count init body, h => by
    rw [Step.run, Step.dialogue, Dialogue.run_bind, Operand.read_eq_lookup env h.1,
      Dialogue.run_ofExcept]
    congr 1
    funext v
    rw [Dialogue.run_iterate d ⟨fun d args => body.run d env args⟩]
    intro args
    exact Program.run_eq_dialogue d env args h.2

end

end DualTrace
