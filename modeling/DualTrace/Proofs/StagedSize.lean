/-
# The size of a staged derivative

A recording grows by one equation with each instruction.  An instance of differentiation issues
several instructions on behalf of one, and how many depends on the operation alone: two sums for a
sum, two choices for a choice, three products and a sum for a product, nothing for an identity.
So it is known beforehand how long the trace of a nest of derivatives is, whatever the operands are.

* `Run.Records`, `Driver.Records` : runs and drivers that add so many equations to a recording;
* `Op.behind` : what the operations add behind one more instance;
* `Computation.Records` : computations, according to what the operations add under their driver;
* `Computation.length_stage_nest` : the length of a staged nest around straight-line steps.

The induction on the nest leaves the driver free: a derivative adds under a driver what its body
adds behind one instance of it.
-/
import DualTrace.Proofs.Invariant
import DualTrace.Proofs.Recording
import DualTrace.Proofs.StraightLine
import Mathlib.Tactic.Ring

namespace DualTrace

variable {σ α β γ : Type}

/-! ## Runs -/

/-- A run that leaves `count` more equations on record, if it succeeds. -/
def Run.Records (count : Nat) (x : Run (Recorder α) α β) : Prop :=
  ∀ (m : Machine (Recorder α) α) (b : β) (m' : Machine (Recorder α) α), x m = .ok b m' →
    m'.state.equations.size = m.state.equations.size + count

namespace Run.Records

variable {k l : Nat}

/-- A run that keeps every property of a recording records nothing. -/
theorem of_keeps {x : Run (Recorder α) α β} (h : ∀ I, Run.Keeps I x) : Run.Records 0 x := by
  intro m b m' hrun
  have hsize := h (fun r => r.equations.size = m.state.equations.size) m rfl
  unfold Run.final at hsize
  rw [hrun] at hsize
  exact hsize

theorem pure (b : β) : Run.Records 0 (Pure.pure b : Run (Recorder α) α β) :=
  of_keeps fun _ => .pure b

theorem ofExcept (x : Except (Error α) β) :
    Run.Records 0 (Run.ofExcept x : Run (Recorder α) α β) := of_keeps fun _ => .ofExcept x

/-- A run that fails may be said to record anything. -/
theorem throw (e : Error α) : Run.Records k (MonadExcept.throw e : Run (Recorder α) α β) :=
  fun _ _ _ h => nomatch h

/-- A sequence of two runs records what both of them do. -/
theorem bind {x : Run (Recorder α) α β} {f : β → Run (Recorder α) α γ} (hx : Run.Records k x)
    (hf : ∀ b, Run.Records l (f b)) : Run.Records (k + l) (x >>= f) := by
  intro m c m' h
  obtain ⟨b, m₁, hb, hc⟩ := Run.bind_eq_ok.mp h
  rw [hf b m₁ c m' hc, hx m b m₁ hb, Nat.add_assoc]

/-- A run after one that records nothing. -/
theorem after {x : Run (Recorder α) α β} {f : β → Run (Recorder α) α γ} (hx : Run.Records 0 x)
    (hf : ∀ b, Run.Records k (f b)) : Run.Records k (x >>= f) := Nat.zero_add k ▸ hx.bind hf

/-- A run that a return follows. -/
theorem map {x : Run (Recorder α) α β} (hx : Run.Records k x) (f : β → γ) :
    Run.Records k (x >>= fun b => Pure.pure (f b)) := hx.bind fun b => .pure (f b)

end Run.Records

/-! ## Drivers -/

/-- A driver that adds `cost op` equations to a recording when it answers an instruction with the
operation `op`. -/
def Driver.Records (cost : Op → Nat) (d : Driver (Recorder α) α) : Prop :=
  ∀ i : Instruction (Value α), Run.Records (cost i.op) (d i)

/-- What the operations add behind an instance of differentiation. -/
def Op.behind (cost : Op → Nat) : Op → Nat
  | add => cost add + cost add
  | mul => cost mul + (cost mul + (cost mul + cost add))
  | iif => cost iif + cost iif
  | id => 0

namespace Driver

/-- A recording adds one equation for each instruction. -/
theorem recording_records : (recording : Driver (Recorder α) α).Records fun _ => 1 := by
  intro i m v m' h
  obtain ⟨rhs, -, -, hrecord, -⟩ := recording_eq_ok h
  rw [← Array.length_toList, hrecord, List.length_append]
  rfl

/-- **What an instance adds depends on the operation alone**, if this is so for the driver behind
it. -/
theorem Records.forward [Scalar α] {cost : Op → Nat} {d : Driver (Recorder α) α}
    (hd : d.Records cost) (tag : Tag) : (d.forward tag).Records (Op.behind cost) := by
  rintro ⟨op, args⟩
  unfold Driver.forward
  refine .after (.ofExcept _) fun _ => ?_
  dsimp only
  split
  · exact (hd ⟨.add, _⟩).bind fun _ => (hd ⟨.add, _⟩).map _
  · exact (hd ⟨.mul, _⟩).bind fun _ => (hd ⟨.mul, _⟩).bind fun _ => (hd ⟨.mul, _⟩).bind fun _ =>
      (hd ⟨.add, _⟩).map _
  · exact (hd ⟨.iif, _⟩).bind fun _ => (hd ⟨.iif, _⟩).map _
  · exact .pure _
  · exact .throw _

end Driver

/-- What an operation of the body adds to the recording of a nest of `depth` derivatives. -/
def Op.recorded (depth : Nat) : Op → Nat
  | add | iif => 2 ^ depth
  | mul => 2 * 3 ^ depth - 2 ^ depth
  | id => 0

/-- Behind one instance after the other, sums and choices double.  Products triple and gain the
sums. -/
theorem Op.iterate_behind (depth : Nat) :
    behind^[depth + 1] (fun _ => 1) = recorded (depth + 1) := by
  induction depth with
  | zero => funext op; cases op <;> rfl
  | succ depth ih =>
    have hle : 2 ^ (depth + 1) ≤ 3 ^ (depth + 1) := Nat.pow_le_pow_left (by decide) _
    rw [Function.iterate_succ_apply', ih]
    funext op
    cases op <;> simp only [behind, recorded, Nat.pow_succ _ (depth + 1)] <;> omega

/-! ## Computations -/

/-- A computation that adds `total cost` equations to a recording under any driver that adds
`cost op` of them for each operation `op`. -/
def Computation.Records (total : (Op → Nat) → Nat) (c : Computation α) : Prop :=
  ∀ (d : Driver (Recorder α) α) (cost : Op → Nat), d.Records cost →
    ∀ args, Run.Records (total cost) (c.run d args)

namespace Computation.Records

variable [Scalar α] {total : (Op → Nat) → Nat} {c : Computation α}

/-- A derivative adds what its body adds behind one more instance. -/
theorem jvp (h : c.Records total) (seeds : List (Value α)) :
    (c.jvp seeds).Records fun cost => total (Op.behind cost) := by
  intro d cost hd args
  unfold Computation.jvp
  by_cases hlen : args.length = seeds.length
  · simp only [hlen, ne_eq, not_true_eq_false, if_false]
    refine .after (.of_keeps fun _ => .takeFromSession _) fun tag => ?_
    exact (h _ _ (hd.forward tag) _).bind fun _ => .ofExcept _
  · simp only [hlen, ne_eq, not_false_eq_true, if_true, Run.throw_bind]
    exact .throw _

/-- A nest of derivatives adds what its body adds behind as many instances. -/
theorem nest (seeds : List (List α)) : ∀ {total : (Op → Nat) → Nat} {c : Computation α},
    c.Records total → (c.nest seeds).Records fun cost => total (Op.behind^[seeds.length] cost) := by
  induction seeds with
  | nil => exact fun h => h
  | cons ts seeds ih =>
    intro total c h
    simp only [List.length_cons, Function.iterate_succ_apply']
    exact ih (h.jvp (ts.map Value.num))

end Computation.Records

/-! ## Straight-line steps -/

section Steps

variable [Scalar α]

/-- Steps add what their operations add. -/
theorem Block.records_ofList {d : Driver (Recorder α) α} {cost : Op → Nat} (hd : d.Records cost)
    (env : Frames α) (steps : List (Instruction (Operand α))) :
    ∀ frame, Run.Records (steps.map fun i => cost i.op).sum
      ((Block.ofList (steps.map Instruction.step)).run d env frame) := by
  induction steps with
  | nil => exact fun frame => .pure frame
  | cons i steps ih =>
    intro frame
    rw [List.map_cons, List.map_cons, List.sum_cons, Block.ofList, Block.run]
    refine Run.Records.bind ?_ fun v => ih (frame.push v)
    rw [Instruction.step, Step.run]
    exact .after (.of_keeps fun _ => Operand.readAll_keeps _ _) fun args => hd ⟨i.op, args⟩

/-- A program of straight-line steps adds what the operations of its steps add. -/
theorem Program.records_straightLine (steps : List (Instruction (Operand α))) (ret : Operand α) :
    (Program.block (.ofList (steps.map Instruction.step)) ret).computation.Records
      fun cost => (steps.map fun i => cost i.op).sum := by
  intro d cost hd args
  show Run.Records _ (Program.run d [] args (.block _ ret))
  rw [Program.run]
  exact (Block.records_ofList hd [] steps _).bind fun frame =>
    .of_keeps fun _ => ret.read_keeps [frame]

omit [Scalar α] in
/-- What the operations of straight-line steps add to the recording of a nest around them. -/
theorem Op.sum_recorded (depth : Nat) (steps : List (Instruction (Operand α))) :
    (steps.map fun i => recorded depth i.op).sum =
      (steps.countP (·.op = .add) + steps.countP (·.op = .iif)) * 2 ^ depth +
        steps.countP (·.op = .mul) * (2 * 3 ^ depth - 2 ^ depth) := by
  induction steps with
  | nil => simp
  | cons i steps ih =>
    rw [List.map_cons, List.sum_cons, ih]
    cases hop : i.op <;> simp [recorded, hop] <;> ring

end Steps

/-- **The size of a staged derivative.**  Take a program that issues instructions one after the
other, and a nest of derivatives around it along any numbers.  If staging the nest succeeds, then
the trace has `2 ^ k` equations for each sum and each choice of the program, where `k` is the depth
of the nest, and `2 * 3 ^ k - 2 ^ k` for each product.  Identities leave nothing behind, and what
the operands are makes no difference. -/
theorem Computation.length_stage_nest [Scalar α] {steps : List (Instruction (Operand α))}
    {ret : Operand α} {seeds : List (List α)} (hdepth : 1 ≤ seeds.length) {n : Nat}
    {m : Machine σ α} {t : Trace α}
    (h : Run.result (((Program.block (.ofList (steps.map Instruction.step)) ret).computation.nest
      seeds).stage n) m = .ok t) :
    t.equations.length =
      (steps.countP (·.op = .add) + steps.countP (·.op = .iif)) * 2 ^ seeds.length +
        steps.countP (·.op = .mul) * (2 * 3 ^ seeds.length - 2 ^ seeds.length) := by
  obtain ⟨v, M, atom, hrun, rfl⟩ := exists_run_of_stage h
  have hrecords : M.state.equations.size =
      0 + (steps.map fun i => Op.behind^[seeds.length] (fun _ => 1) i.op).sum :=
    (Program.records_straightLine steps ret).nest seeds Driver.recording _
      Driver.recording_records (m.stagingArgs n) _ v M hrun
  obtain ⟨depth, hlen⟩ := Nat.exists_eq_add_of_le' hdepth
  rw [hlen, Op.iterate_behind, Op.sum_recorded, ← hlen, Nat.zero_add] at hrecords
  rw [← hrecords]
  exact Array.length_toList

/-- The steps of `(x * x, or x where y does not hold) + 2 * y`, with one identity among them. -/
def steepSteps : List (Instruction (Operand Int)) :=
  [⟨.mul, [.arg 0 0, .arg 0 0]⟩, ⟨.iif, [.arg 0 1, .result 0 0, .arg 0 0]⟩, ⟨.id, [.result 0 1]⟩,
    ⟨.mul, [.num 2, .arg 0 1]⟩, ⟨.add, [.result 0 2, .result 0 3]⟩]

/-- Two products, a choice and a sum make thirty-six equations in a second derivative. -/
theorem Computation.length_stage_nest_steepSteps :
    ∃ t : Trace Int,
      Run.result (((Program.block (.ofList (steepSteps.map Instruction.step))
        (.result 0 4)).computation.nest [[1, 0], [1, 1]]).stage 2)
        (⟨(), {}⟩ : Machine Unit Int) = .ok t ∧
      t.equations.length = 36 := by
  have hok : (Run.result (((Program.block (.ofList (steepSteps.map Instruction.step))
      (.result 0 4)).computation.nest [[1, 0], [1, 1]]).stage 2)
      (⟨(), {}⟩ : Machine Unit Int)).isOk = true := by decide +kernel
  cases h : Run.result (((Program.block (.ofList (steepSteps.map Instruction.step))
      (.result 0 4)).computation.nest [[1, 0], [1, 1]]).stage 2) (⟨(), {}⟩ : Machine Unit Int) with
  | error e => rw [h] at hok; cases hok
  | ok t => exact ⟨t, rfl, Computation.length_stage_nest (by decide) h⟩

end DualTrace
