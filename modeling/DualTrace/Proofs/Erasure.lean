/-
# Primals

An instance of differentiation computes tangents next to the values of a program and leaves the
values alone.  Without its tangents, a program on dual numbers of the instance comes to what the
program on the numbers comes to, step by step and down to its failures, whatever the seeds are.

* `Value.erase` : a value with every dual number of an instance replaced by its primal;
* `Value.Renamed` : values that are the same but for the tags of the instances that two runs start;
* `Comparison.erasing` : the comparison of a run under an instance with a run without it;
* `Program.primal_undisturbed` : a closed program on lifted numbers has the primals of the program
  on numbers.

An inner instance has dual numbers of the outer one inside its own, as primals and as tangents, so
its values are not erased where the outer rules are applied.  All the comparison asks of the outer
instance is therefore a driver that answers as direct evaluation does up to tangents, and this is
shown for operands that are numbers or dual numbers of numbers, the only ones that get there.
-/
import DualTrace.Proofs.Exact
import DualTrace.Proofs.Outcomes
import DualTrace.Proofs.Valuation
import Mathlib.Algebra.Ring.Int.Defs

namespace DualTrace

variable {σ τ α : Type}

/-! ## Erasing an instance -/

namespace Value

/-- A value with every dual number of the instance `tag` replaced by its primal. -/
def erase (tag : Tag) : Value α → Value α
  | dual t p d => if t = tag then p.erase tag else dual t (p.erase tag) (d.erase tag)
  | v => v

variable {tag : Tag}

@[simp] theorem erase_num (x : α) : (num x).erase tag = num x := rfl

@[simp] theorem erase_dual_self (p d : Value α) : (dual tag p d).erase tag = p.erase tag :=
  if_pos rfl

theorem erase_dual_of_ne {t : Tag} (h : t ≠ tag) (p d : Value α) :
    (dual t p d).erase tag = dual t (p.erase tag) (d.erase tag) :=
  if_neg h

/-! ## Renaming instances -/

/-- Values that are the same but for tags: the `i`-th tag from `left` on stands in the first where
the `i`-th tag from `right` on stands in the second. -/
inductive Renamed (left right : Nat) : Value α → Value α → Prop
  | num (x : α) : Renamed left right (.num x) (.num x)
  | reg (r : Register) : Renamed left right (.reg r) (.reg r)
  | dual (i : Nat) {p q d e : Value α} (hp : Renamed left right p q) (hd : Renamed left right d e) :
      Renamed left right (.dual ⟨left + i⟩ p d) (.dual ⟨right + i⟩ q e)

/-- Tags that are counted from the same place are the same tags. -/
theorem Renamed.eq {start : Nat} {v w : Value α} (h : Renamed start start v w) : v = w := by
  induction h with
  | num x => rfl
  | reg r => rfl
  | dual i _ _ ihp ihd => rw [ihp, ihd]

end Value

/-- A run with an instance around it compared with a run without it: the values of the first are
looked at without the instance, whose tag is older than those that the run takes. -/
def Comparison.erasing (tag : Tag) (left right : Nat) (h : tag.id < left) : Comparison σ τ α where
  left := left
  right := right
  states _ _ := True
  values v w := (v.erase tag).Renamed left right w
  dual i {p q d e} hp hd := by
    have hne : (⟨left + i⟩ : Tag) ≠ tag := by
      rintro rfl
      exact absurd h (Nat.not_lt.mpr (Nat.le_add_right left i))
    rw [Value.erase_dual_of_ne hne]
    exact .dual i hp hd

/-! ## Numbers under an instance -/

/-- A number, and what it can be under the instance `tag`: itself, or the primal of a dual number
whose tangent is a number. -/
inductive Value.Carries (tag : Tag) : Value α → α → Prop
  | num (x : α) : Carries tag (.num x) x
  | dual (x t : α) : Carries tag (.dual tag (.num x) (.num t)) x

namespace Value.Carries

variable {tag : Tag} {v : Value α} {x : α}

theorem erase (h : v.Carries tag x) : v.erase tag = .num x := by
  cases h with
  | num => rfl
  | dual => rw [erase_dual_self, erase_num]

theorem primalFor (h : v.Carries tag x) : v.primalFor tag = .num x := by
  cases h with
  | num => rfl
  | dual => exact primalFor_dual_self ..

theorem tangentFor [Scalar α] (h : v.Carries tag x) : ∃ t, v.tangentFor tag = .num t := by
  cases h with
  | num => exact ⟨_, rfl⟩
  | dual _ t => exact ⟨t, tangentFor_dual_self ..⟩

theorem lift (h : v.Carries tag x) (t : α) : (v.lift tag (.num t)).Carries tag x := by
  cases h with
  | num => exact .dual x t
  | dual _ t => rw [lift_dual_self]; exact .dual x t

theorem not_ownedBy (h : v.Carries tag x) {t : Tag} (hne : tag ≠ t) : ¬ v.OwnedBy t := by
  cases h with
  | num => exact id
  | dual => exact hne

end Value.Carries

/-- Numbers as the arguments of an instance, lifted along numbers as far as there are seeds. -/
abbrev Value.liftNums (tag : Tag) (xs seeds : List α) : List (Value α) :=
  Value.liftAll tag (xs.map Value.num) (seeds.map Value.num)

/-- Numbers that are not lifted carry themselves. -/
theorem Value.Carries.map_num {tag : Tag} (xs : List α) :
    List.Forall₂ (Value.Carries tag) (xs.map Value.num) xs :=
  List.forall₂_map_left_iff.mpr (List.forall₂_same.mpr fun x _ => .num x)

/-- Lifted numbers carry the numbers. -/
theorem Value.liftNums_carries (tag : Tag) (xs seeds : List α) :
    List.Forall₂ (Value.Carries tag) (Value.liftNums tag xs seeds) xs := by
  induction xs generalizing seeds with
  | nil => exact .nil
  | cons x xs ih =>
    cases seeds with
    | nil => exact .cons (.num x) (Carries.map_num xs)
    | cons t seeds => exact .cons ((Carries.num x).lift t) (ih seeds)

section Rules

variable [Scalar α] {tag : Tag}

/-- Direct evaluation answers at once, and leaves the machine alone. -/
theorem Driver.direct_eq_pure {op : Op} {xs : List α} {y : α} (h : op.eval? xs = some y) :
    (direct ⟨op, xs.map Value.num⟩ : Run σ α (Value α)) = pure (.num y) :=
  funext fun m => direct_num h m

/-- Direct evaluation refuses a wrong count of operands. -/
theorem Driver.direct_of_ne {op : Op} {vs : List (Value α)} (h : vs.length ≠ op.arity) :
    (direct ⟨op, vs⟩ : Run σ α (Value α)) =
      throw (.wrongCount (.operands op) op.arity vs.length) := by
  have hcheck : (Instruction.checkArity ⟨op, vs⟩ : Except (Error α) Unit) =
      .error (.wrongCount (.operands op) op.arity vs.length) := if_neg h
  unfold direct ofAnswer Instruction.evaluate
  rw [hcheck]
  rfl

/-- An instance refuses a wrong count of operands before it issues anything. -/
theorem Driver.forward_of_ne (d : Driver σ α) {op : Op} {vs : List (Value α)}
    (h : vs.length ≠ op.arity) :
    forward tag d ⟨op, vs⟩ = throw (.wrongCount (.operands op) op.arity vs.length) := by
  have hcheck : (Instruction.checkArity ⟨op, vs⟩ : Except (Error α) Unit) =
      .error (.wrongCount (.operands op) op.arity vs.length) := if_neg h
  unfold forward
  rw [hcheck]
  rfl

/-- **The rules of differentiation have the primals of evaluation.**  In front of direct evaluation,
an instance answers an instruction on operands that carry numbers with a value that carries the
result. -/
theorem Driver.forward_direct {op : Op} {vs : List (Value α)} {xs : List α} {y : α}
    (h : List.Forall₂ (Value.Carries tag) vs xs) (hy : op.eval? xs = some y) :
    ∃ v : Value α, v.Carries tag y ∧
      (forward tag direct ⟨op, vs⟩ : Run σ α (Value α)) = pure v := by
  have harity : (Instruction.checkArity ⟨op, vs⟩ : Except (Error α) Unit) = .ok () := by
    rw [Instruction.checkArity_eq_ok, h.length_eq, ← Op.isSome_eval?, hy, Option.isSome_some]
  have direct_add (x y : α) : (direct ⟨.add, [.num x, .num y]⟩ : Run σ α (Value α)) =
      pure (.num (x + y)) :=
    direct_eq_pure (show Op.add.eval? [x, y] = some (x + y) from rfl)
  have direct_mul (x y : α) : (direct ⟨.mul, [.num x, .num y]⟩ : Run σ α (Value α)) =
      pure (.num (x * y)) :=
    direct_eq_pure (show Op.mul.eval? [x, y] = some (x * y) from rfl)
  have direct_iif (c x y : α) :
      (direct ⟨.iif, [.num c, .num x, .num y]⟩ : Run σ α (Value α)) =
        pure (.num (if Scalar.truthy c then x else y)) :=
    direct_eq_pure (show Op.iif.eval? [c, x, y] = some (if Scalar.truthy c then x else y) from rfl)
  unfold forward
  rw [harity, Run.ofExcept_ok, pure_bind]
  -- one case for each rule, as no other count of operands has a result
  rcases h with _ | ⟨hu, _ | ⟨hv, _ | ⟨hw, _ | ⟨_, _⟩⟩⟩⟩ <;> cases op <;> cases hy
  case cons.nil.id.refl => exact ⟨_, hu.lift _, rfl⟩
  case cons.cons.nil.add.refl =>
    obtain ⟨s, hs⟩ := hu.tangentFor
    obtain ⟨t, ht⟩ := hv.tangentFor
    refine ⟨_, .dual _ (s + t), ?_⟩
    simp only [hu.primalFor, hv.primalFor, hs, ht, direct_add, pure_bind]
  case cons.cons.nil.mul.refl x _ y =>
    obtain ⟨s, hs⟩ := hu.tangentFor
    obtain ⟨t, ht⟩ := hv.tangentFor
    refine ⟨_, .dual _ (x * t + y * s), ?_⟩
    simp only [hu.primalFor, hv.primalFor, hs, ht, direct_mul, direct_add, pure_bind]
  case cons.cons.cons.nil.iif.refl =>
    obtain ⟨r, hr⟩ := hu.tangentFor
    obtain ⟨s, hs⟩ := hv.tangentFor
    obtain ⟨t, ht⟩ := hw.tangentFor
    refine ⟨_, .dual _ (if Scalar.truthy r then s else t), ?_⟩
    simp only [hu.primalFor, hv.primalFor, hw.primalFor, hr, hs, ht, direct_iif, pure_bind]

/-! ## The comparison -/

/-- Values under the instance `tag` next to the numbers that they carry. -/
def Value.Under (tag : Tag) (v w : Value α) : Prop := ∃ x, v.Carries tag x ∧ w = .num x

omit [Scalar α] in
/-- Values next to the numbers that they carry, in lists. -/
theorem Value.forall₂_under {vs ws : List (Value α)} (h : List.Forall₂ (Value.Under tag) vs ws) :
    ∃ xs, List.Forall₂ (Value.Carries tag) vs xs ∧ ws = xs.map Value.num := by
  induction h with
  | nil => exact ⟨[], .nil, rfl⟩
  | cons hvw _ ih =>
    obtain ⟨x, hv, rfl⟩ := hvw
    obtain ⟨xs, hvs, rfl⟩ := ih
    exact ⟨x :: xs, .cons hv hvs, rfl⟩

omit [Scalar α] in
/-- No instance that is started later owns anything there. -/
theorem Comparison.erasing_level {left right : Nat} (h : tag.id < left) :
    (erasing tag left right h : Comparison σ τ α).Level 0 (Value.Under tag) where
  num x := ⟨x, .num x, rfl⟩
  left := by
    rintro v _ ⟨x, hv, rfl⟩ i -
    refine hv.not_ownedBy fun howner => ?_
    have hid : tag.id = left + i := congrArg Tag.id howner
    omega
  right := by
    rintro v _ ⟨x, -, rfl⟩ i -
    exact id
  values := by
    rintro v _ ⟨x, hv, rfl⟩
    show (v.erase tag).Renamed left right (.num x)
    rw [hv.erase]
    exact .num x

/-- The rules of an instance in front of direct evaluation answer as direct evaluation does, an
instruction with a wrong count of operands included. -/
theorem Comparison.erasing_drivers {left right : Nat} (h : tag.id < left) :
    (erasing tag left right h : Comparison σ τ α).Drivers 0 (Value.Under tag)
      (Driver.forward tag Driver.direct) Driver.direct := by
  intro op vs ws hvw
  obtain ⟨xs, hvs, rfl⟩ := Value.forall₂_under hvw
  by_cases harity : vs.length = op.arity
  · have hxs : xs.length = op.arity := hvs.length_eq ▸ harity
    obtain ⟨y, hy⟩ := Option.isSome_iff_exists.mp ((Op.isSome_eval? op xs).mpr hxs)
    obtain ⟨v, hv, hforward⟩ := Driver.forward_direct hvs hy
    rw [hforward, Driver.direct_eq_pure hy]
    exact .pure ⟨y, hv, rfl⟩
  · have hws : (xs.map Value.num).length ≠ op.arity := by
      rwa [List.length_map, ← hvs.length_eq]
    rw [Driver.forward_of_ne Driver.direct harity, Driver.direct_of_ne hws]
    exact .throw rfl

end Rules

/-! ## Primals -/

section Primals

variable [Scalar α] {ops : Op → Prop} {tag : Tag} {m : Machine σ α}

/-- A closed program under an instance next to the program without it. -/
theorem Program.runsAlike_erase {p : Program α} (hp : p.Closed ops)
    (htag : tag.id < m.session.nextTag) (xs seeds : List α) (m' : Machine τ α) :
    p.RunsAlike (fun v w => (v.erase tag).Renamed m.session.nextTag m'.session.nextTag w)
      (Driver.forward tag Driver.direct) (Value.liftNums tag xs seeds) m
      Driver.direct (xs.map Value.num) m' := by
  have hargs : List.Forall₂ (Value.Under tag) (Value.liftNums tag xs seeds) (xs.map Value.num) :=
    List.forall₂_map_right_iff.mpr
      ((Value.liftNums_carries tag xs seeds).imp fun v x hv => ⟨x, hv, rfl⟩)
  exact .of_drivers (Comparison.erasing_level htag) (Comparison.erasing_drivers htag) hargs hp
    ⟨True.intro, rfl, rfl⟩

/-- **Differentiation does not disturb the primal computation.**  Let an instance have been started,
with tag `tag`, and run a closed program on numbers lifted into it along any seeds, under its rules
in front of direct evaluation.

* Wherever direct evaluation of the program on the numbers comes to a value, on the way or in the
  end, this run comes to a value that is the same once the dual numbers of the instance are replaced
  by their primals, up to the tags of the inner instances; wherever direct evaluation fails, this
  run fails with an error of the same kind, and the other way round.
* Two such runs, along different seeds, have the same primals throughout. -/
theorem Program.primal_undisturbed {p : Program α} (hp : p.Closed ops)
    (htag : tag.id < m.session.nextTag) (xs seeds : List α) :
    (∀ {τ : Type} (m' : Machine τ α),
      p.RunsAlike (fun v w => (v.erase tag).Renamed m.session.nextTag m'.session.nextTag w)
        (Driver.forward tag Driver.direct) (Value.liftNums tag xs seeds) m
        Driver.direct (xs.map Value.num) m') ∧
      ∀ seeds' : List α,
        p.RunsAlike (fun v w => v.erase tag = w.erase tag)
          (Driver.forward tag Driver.direct) (Value.liftNums tag xs seeds) m
          (Driver.forward tag Driver.direct) (Value.liftNums tag xs seeds') m := by
  refine ⟨fun m' => runsAlike_erase hp htag xs seeds m', fun seeds' => ?_⟩
  -- both runs are like the one on numbers that starts in the same session
  have hseeds := runsAlike_erase hp htag xs seeds m
  have hseeds' := runsAlike_erase hp htag xs seeds' m
  refine (hseeds.common hseeds').imp ?_
  rintro v w ⟨u, hv, hw⟩
  rw [hv.eq, hw.eq]

end Primals

/-- The program that squares its argument `x`, takes the derivative by `y` of `y * x` at `x` along
the square, and chooses between the square and `x` by it. -/
def choiceBySlope : Program Int :=
  .block
    (.step (.issue .mul [.arg 0 0, .arg 0 0])
      (.step (.call (.jvp
          (.block (.step (.issue .mul [.arg 0 0, .arg 1 0]) .done) (.result 0 0)) [.result 0 0])
        [.arg 0 0])
      (.step (.issue .iif [.result 0 1, .result 0 0, .arg 0 0]) .done)))
    (.result 0 2)

/-- Under the instance `#0`, along `1`, the values of `choiceBySlope` at `3` are dual numbers of
that instance, and those of the inner instance have such dual numbers inside.  Along `5` the primals
are the same, and they are what direct evaluation comes to. -/
theorem Program.primal_undisturbed_choiceBySlope :
    choiceBySlope.Closed (fun _ => True) ∧
      choiceBySlope.outcomes (Driver.forward ⟨0⟩ Driver.direct) [] (Value.liftNums ⟨0⟩ [3] [1])
          (⟨(), { nextTag := 1 }⟩ : Machine Unit Int) =
        [.ok (.dual ⟨0⟩ (.num 9) (.num 6)),
          .ok (.dual ⟨1⟩ (.dual ⟨0⟩ (.num 9) (.num 6)) (.dual ⟨0⟩ (.num 27) (.num 27))),
          .ok (.dual ⟨1⟩ (.dual ⟨0⟩ (.num 9) (.num 6)) (.dual ⟨0⟩ (.num 27) (.num 27))),
          .ok (.dual ⟨0⟩ (.num 27) (.num 27)), .ok (.dual ⟨0⟩ (.num 27) (.num 27)),
          .ok (.dual ⟨0⟩ (.num 9) (.num 6)), .ok (.dual ⟨0⟩ (.num 9) (.num 6))] ∧
      choiceBySlope.outcomes Driver.direct [] [.num 3] (⟨(), {}⟩ : Machine Unit Int) =
        [.ok (.num 9), .ok (.dual ⟨0⟩ (.num 9) (.num 27)), .ok (.dual ⟨0⟩ (.num 9) (.num 27)),
          .ok (.num 27), .ok (.num 27), .ok (.num 9), .ok (.num 9)] ∧
      choiceBySlope.RunsAlike (fun v w => (v.erase ⟨0⟩).Renamed 1 0 w)
        (Driver.forward ⟨0⟩ Driver.direct) (Value.liftNums ⟨0⟩ [3] [1]) ⟨(), { nextTag := 1 }⟩
        Driver.direct [.num 3] (⟨(), {}⟩ : Machine Unit Int) ∧
      choiceBySlope.RunsAlike (fun v w => v.erase ⟨0⟩ = w.erase ⟨0⟩)
        (Driver.forward ⟨0⟩ Driver.direct) (Value.liftNums ⟨0⟩ [3] [1])
        (⟨(), { nextTag := 1 }⟩ : Machine Unit Int)
        (Driver.forward ⟨0⟩ Driver.direct) (Value.liftNums ⟨0⟩ [3] [5]) ⟨(), { nextTag := 1 }⟩ := by
  have hclosed : choiceBySlope.Closed (fun _ => True) := by
    simp [choiceBySlope, Program.Closed, Block.Closed, Step.Closed, Operand.Plain]
  have hstart : (⟨0⟩ : Tag).id < (⟨(), { nextTag := 1 }⟩ : Machine Unit Int).session.nextTag :=
    Nat.one_pos
  obtain ⟨hdirect, hseeds⟩ := Program.primal_undisturbed hclosed hstart [3] [1]
  exact ⟨hclosed, rfl, rfl, hdirect ⟨(), {}⟩, hseeds [5]⟩

end DualTrace
