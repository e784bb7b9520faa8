/-
# Traces do not go wrong

A trace that passes the check runs to its end under any driver that answers every instruction with
the right count of operands.  The same holds of nested derivatives of the trace, up to the moment at
which one of them looks at what its body completed with: a number has no tangent.

* `Driver.Answers` : a driver that answers within a class of values;
* `Value.Within` : what an instance of differentiation meets while it runs;
* `Computation.Progresses` : a computation that is refused only for want of a tangent;
* `Trace.progress` : evaluations and nested derivatives of a trace that passes the check.

The class of values grows from the outside in.  Direct evaluation answers numbers with numbers.  An
instance meets numbers and dual numbers of its own, whose parts are in the class of the driver
around it, and it answers with such dual numbers (`Driver.Answers.forward`).
-/
import DualTrace.Proofs.Derivative
import DualTrace.Proofs.Safety
import DualTrace.Proofs.Tower
import Mathlib.Data.Set.List

namespace DualTrace

variable {σ α : Type}

/-! ## Answers within a class -/

/-- A driver that answers every instruction with the right count of operands from the class `P`,
and answers with a value from the class. -/
def Driver.Answers (d : Driver σ α) (P : Value α → Prop) : Prop :=
  ∀ i : Instruction (Value α), i.args.length = i.op.arity → (∀ v ∈ i.args, P v) →
    ∀ m, ∃ v m', d i m = .ok v m' ∧ P v

/-- The domain with one element, in which only the counts of operands matter. -/
def Arithmetic.single : Arithmetic α Unit where
  num _ := ()
  add _ _ := ()
  mul _ _ := ()
  iif _ _ _ := ()

/-- An operation on as many operands as it takes has the one element as its result. -/
theorem Arithmetic.eval?_single {op : Op} {us : List Unit} :
    (single : Arithmetic α Unit).eval? op us = some () ↔ us.length = op.arity := by
  rw [← isSome_eval? single, Option.isSome_iff_exists]
  exact ⟨fun h => ⟨(), h⟩, fun ⟨(), h⟩ => h⟩

namespace Meaning

open Classical in
/-- The values of a class all stand for the same. -/
noncomputable def members (P : Value α → Prop) : Meaning α Unit :=
  fun v => if P v then some () else none

variable {P : Value α → Prop}

theorem members_eq_some {v : Value α} {u : Unit} : members P v = some u ↔ P v := by
  unfold members
  by_cases h : P v <;> simp [h]

theorem all_members {vs : List (Value α)} {us : List Unit} :
    (members P).All vs us ↔ vs.length = us.length ∧ ∀ v ∈ vs, P v := by
  constructor
  · intro h
    refine ⟨h.length_eq, fun v hv => ?_⟩
    obtain ⟨i, hi, rfl⟩ := List.getElem_of_mem hv
    exact members_eq_some.mp (h.get hi (h.length_eq ▸ hi))
  · rintro ⟨hlen, hvs⟩
    refine List.forall₂_iff_get.mpr ⟨hlen, fun i hi _ => ?_⟩
    exact members_eq_some.mpr (hvs _ (List.getElem_mem hi))

end Meaning

/-- To answer within a class is to carry it over to the domain with one element. -/
theorem Driver.answers_iff_carries {d : Driver σ α} {P : Value α → Prop} :
    d.Answers P ↔ d.Carries (Meaning.members P) .single := by
  constructor
  · rintro h i us ⟨⟩ hus harity m
    obtain ⟨hlen, hargs⟩ := Meaning.all_members.mp hus
    obtain ⟨v, m', hv, hP⟩ := h i (hlen.trans (Arithmetic.eval?_single.mp harity)) hargs m
    exact ⟨v, m', hv, Meaning.members_eq_some.mpr hP⟩
  · intro h i harity hargs m
    have hus : (i.args.map fun _ => ()).length = i.args.length := List.length_map _
    obtain ⟨v, m', hv, hP⟩ := h i _ () (Meaning.all_members.mpr ⟨hus.symm, hargs⟩)
      (Arithmetic.eval?_single.mpr (hus.trans harity)) m
    exact ⟨v, m', hv, Meaning.members_eq_some.mp hP⟩

/-- **A well-formed trace runs to its end.**  Under a driver that answers within a class, and on as
many arguments from the class as there are parameters, it completes with a value from the class. -/
theorem Trace.WellFormed.run_answered {t : Trace α} (h : t.WellFormed) {d : Driver σ α}
    {P : Value α → Prop} (hnum : ∀ x, P (.num x)) (hd : d.Answers P) {args : List (Value α)}
    (hlen : args.length = t.params.length) (hargs : ∀ v ∈ args, P v) (m : Machine σ α) :
    ∃ v m', t.computation.run d args m = .ok v m' ∧ P v := by
  have hall : (Meaning.members P).All args (args.map fun _ => ()) :=
    Meaning.all_members.mpr ⟨(List.length_map _).symm, hargs⟩
  have hsolved : ∀ e ∈ t.equations, e.SolvedBy .single fun _ => () := fun e he =>
    Arithmetic.eval?_single.mpr ((List.length_map _).trans (h.ordered.arity he))
  obtain ⟨v, m', hv, hP⟩ := h.run_carried hlen (fun x => Meaning.members_eq_some.mpr (hnum x))
    (Driver.answers_iff_carries.mp hd) (h.standFor_bind hlen hall fun _ _ => rfl) hsolved m
  exact ⟨v, m', hv, Meaning.members_eq_some.mp hP⟩

/-! ## Instances -/

/-- What an instance meets where the values around it are from the class `V`: numbers, and dual
numbers of its own with both parts from the class. -/
inductive Value.Within (tag : Tag) (V : Value α → Prop) : Value α → Prop
  | num (x : α) : Within tag V (.num x)
  | dual {p d : Value α} (hp : V p) (hd : V d) : Within tag V (.dual tag p d)

/-- A dual number of the instance, with its primal from the class `P` and its tangent from the
class `T`. -/
inductive Value.Paired (tag : Tag) (P T : Value α → Prop) : Value α → Prop
  | dual {p t : Value α} (hp : P p) (ht : T t) : Paired tag P T (.dual tag p t)

theorem Value.Paired.within {tag : Tag} {P T V : Value α → Prop} {v : Value α}
    (h : v.Paired tag P T) (hP : ∀ v, P v → V v) (hT : ∀ v, T v → V v) : v.Within tag V := by
  cases h with
  | dual hp ht => exact .dual (hP _ hp) (hT _ ht)

namespace Level

variable {V : Value α → Prop} {n : Nat} {tag : Tag}

/-- Every number is of the class. -/
theorem of_isNum (hV : Level V n) (v : Value α) (hv : v.IsNum) : V v := by
  obtain ⟨x, rfl⟩ := hv.exists_num
  exact hV.num x

/-- What an instance meets mentions no instance that starts later. -/
theorem within (hV : Level V n) (htag : n ≤ tag.id) : Level (Value.Within tag V) (tag.id + 1) where
  num := .num
  older v hv := by
    refine (hV.extend htag).older v ?_
    cases hv with
    | num x => exact Or.inl (hV.num x)
    | dual hp hd => exact Or.inr ⟨_, _, rfl, hp, hd⟩

/-- An instance that starts makes of each argument a dual number of its own, with a seed as
tangent. -/
theorem paired_zipWith (hV : Level V n) (htag : n ≤ tag.id) {args : List (Value α)}
    (hargs : ∀ v ∈ args, V v) (ts : List α) :
    ∀ v ∈ List.zipWith (Value.lift tag) args (ts.map Value.num), v.Paired tag V Value.IsNum := by
  intro v hv
  rw [← List.map_uncurry_zip_eq_zipWith] at hv
  obtain ⟨⟨arg, seed⟩, hmem, rfl⟩ := List.mem_map.mp hv
  obtain ⟨harg, hseed⟩ := List.of_mem_zip hmem
  have hforeign := hV.not_ownedBy htag (hargs arg harg)
  rw [Function.uncurry_apply_pair, Value.lift_of_not_ownedBy hforeign]
  exact .dual (hargs arg harg) (Value.isNum_of_mem_map seed hseed)

/-- An instance that starts meets its arguments lifted along numbers. -/
theorem within_zipWith (hV : Level V n) (htag : n ≤ tag.id) {args : List (Value α)}
    (hargs : ∀ v ∈ args, V v) (ts : List α) :
    ∀ v ∈ List.zipWith (Value.lift tag) args (ts.map Value.num), v.Within tag V :=
  fun v hv => (hV.paired_zipWith htag hargs ts v hv).within (fun _ hp => hp) hV.of_isNum

end Level

section Drivers

variable [Scalar α] {V : Value α → Prop}

namespace Value.Within

variable {tag : Tag} {v : Value α}

omit [Scalar α] in
/-- The primal that an instance sees of what it meets is from the class around it. -/
theorem primalFor (h : v.Within tag V) (hnum : ∀ x, V (.num x)) : V (v.primalFor tag) := by
  cases h with
  | num x => exact hnum x
  | dual hp _ =>
    rw [primalFor_dual_self]
    exact hp

/-- The tangent that an instance sees of what it meets is from the class around it. -/
theorem tangentFor (h : v.Within tag V) (hnum : ∀ x, V (.num x)) : V (v.tangentFor tag) := by
  cases h with
  | num x => exact hnum _
  | dual _ hd =>
    rw [tangentFor_dual_self]
    exact hd

theorem members_dual (h : v.Within tag V) (hnum : ∀ x, V (.num x)) :
    (Meaning.members V).dual tag v = some ((), ()) :=
  Meaning.dual_eq_some.mpr ⟨Meaning.members_eq_some.mpr (h.primalFor hnum),
    Meaning.members_eq_some.mpr (h.tangentFor hnum)⟩

end Value.Within

/-- Direct evaluation answers numbers with numbers. -/
theorem Driver.answers_direct : (Driver.direct : Driver σ α).Answers Value.IsNum := by
  rintro ⟨op, vs⟩ harity hvs m
  have hrange : vs ∈ Set.range (List.map Value.num) := by
    rw [Set.range_list_map]
    intro v hv
    obtain ⟨x, rfl⟩ := (hvs v hv).exists_num
    exact ⟨x, rfl⟩
  obtain ⟨xs, rfl⟩ := hrange
  have hsome := (Op.isSome_eval? op xs).mpr ((List.length_map _).symm.trans harity)
  obtain ⟨y, hy⟩ := Option.isSome_iff_exists.mp hsome
  exact ⟨.num y, m, direct_num hy m, True.intro⟩

/-- **An instance answers what it meets with what it can meet.** -/
theorem Driver.Answers.forward {d : Driver σ α} (h : d.Answers V) (hnum : ∀ x, V (.num x))
    (tag : Tag) : (d.forward tag).Answers (Value.Within tag V) := by
  intro i harity hargs m
  have hall : ((Meaning.members V).dual tag).All i.args (i.args.map fun _ => ((), ())) := by
    rw [Meaning.All, List.forall₂_map_right_iff, List.forall₂_same]
    exact fun v hv => (hargs v hv).members_dual hnum
  have hsome := (Arithmetic.isSome_eval? (Arithmetic.single (α := α)).dual i.op
    (i.args.map fun _ => ((), ()))).mpr ((List.length_map _).trans harity)
  obtain ⟨b, hb⟩ := Option.isSome_iff_exists.mp hsome
  obtain ⟨v, m', hv, hpair⟩ := (answers_iff_carries.mp h).forward tag i _ b hall hb m
  -- the answer is a dual number of the instance
  obtain ⟨p, t, rfl⟩ := Value.ownedBy_iff_exists.mp (forward_gives d tag i m v m' hv)
  rw [Meaning.dual_eq_some, Value.primalFor_dual_self, Value.tangentFor_dual_self] at hpair
  exact ⟨_, m', hv, .dual (Meaning.members_eq_some.mp hpair.1)
    (Meaning.members_eq_some.mp hpair.2)⟩

end Drivers

/-! ## Nested derivatives -/

/-- A computation that is refused only because one of the `depth` instances that it starts completes
with a number. -/
def Computation.Progresses (c : Computation α) (arity depth : Nat) : Prop :=
  ∀ (σ : Type) (d : Driver σ α) (V : Value α → Prop) (n : Nat), Level V n → d.Answers V →
    ∀ args : List (Value α), args.length = arity → (∀ v ∈ args, V v) →
      ∀ m : Machine σ α, n ≤ m.session.nextTag →
        (∃ v m', c.run d args m = .ok v m' ∧ V v) ∨
          ∃ i < depth, ∃ x m', c.run d args m =
            .error (.plainResult ⟨m.session.nextTag + i⟩ (.num x)) m'

/-- A well-formed trace starts no instance. -/
theorem Trace.WellFormed.progresses {t : Trace α} (h : t.WellFormed) :
    t.computation.Progresses t.params.length 0 := fun _ _ _ _ hV hd _ hlen hargs m _ =>
  Or.inl (h.run_answered hV.num hd hlen hargs m)

namespace Computation.Progresses

variable [Scalar α] {c : Computation α} {arity depth : Nat}

/-- A derivative starts one instance more. -/
theorem jvp (h : c.Progresses arity depth) {ts : List α} (hts : ts.length = arity) :
    (c.jvp (ts.map Value.num)).Progresses arity (depth + 1) := by
  intro σ d V n hV hd args hlen hargs m hn
  have hseeds : args.length = (ts.map Value.num).length := by rw [List.length_map, hts, hlen]
  have hlifted : ∀ v ∈ List.zipWith (Value.lift ⟨m.session.nextTag⟩) args (ts.map Value.num),
      v.Within ⟨m.session.nextTag⟩ V := hV.within_zipWith hn hargs ts
  rw [jvp_apply c hseeds, Run.bind_apply]
  have hlen' := (Value.length_zipWith_lift ⟨m.session.nextTag⟩ hseeds).trans hlen
  have hbody := h σ _ _ _ (hV.within hn) (hd.forward hV.num ⟨m.session.nextTag⟩) _ hlen' hlifted
    { m with session := m.session.mintTag.2 } (Nat.le_refl _)
  rcases hbody with ⟨v, m', hv, hwithin⟩ | ⟨i, hi, x, m', herror⟩
  · rw [hv]
    cases hwithin with
    | num x => exact Or.inr ⟨0, Nat.succ_pos _, x, m', rfl⟩
    | @dual p t _ ht => exact Or.inl ⟨t, m', by simp only [Value.tangentOf, if_pos]; rfl, ht⟩
  · rw [herror]
    refine Or.inr ⟨i + 1, Nat.succ_lt_succ hi, x, m', ?_⟩
    rw [Nat.add_comm i 1, ← Nat.add_assoc]
    rfl

/-- **A nest of derivatives is refused only because a derivative in it completes with a number.** -/
theorem nest {seeds : List (List α)} :
    ∀ {c : Computation α} {depth : Nat}, c.Progresses arity depth →
      (∀ ts ∈ seeds, ts.length = arity) → (c.nest seeds).Progresses arity (depth + seeds.length) := by
  induction seeds with
  | nil => intro c depth h _; exact h
  | cons ts seeds ih =>
    intro c depth h hseeds
    have hnest := ih (h.jvp (hseeds ts List.mem_cons_self))
      fun ts' hts' => hseeds ts' (List.mem_cons_of_mem _ hts')
    rw [List.length_cons, Nat.add_comm seeds.length 1, ← Nat.add_assoc]
    exact hnest

/-- Evaluated at numbers, it gives a number, or it is refused for want of a tangent. -/
theorem evaluate (h : c.Progresses arity depth) {xs : List α} (hxs : xs.length = arity)
    (m : Machine σ α) :
    (∃ y, Run.result (c.evaluate xs) m = .ok y) ∨
      ∃ i < depth, ∃ x, Run.result (c.evaluate xs) m =
        .error (.plainResult ⟨m.session.nextTag + i⟩ (.num x)) := by
  have hlen : (xs.map Value.num).length = arity := (List.length_map _).trans hxs
  have hrun := h σ _ _ 0 Value.level_isNum Driver.answers_direct _ hlen
    Value.isNum_of_mem_map m (Nat.zero_le _)
  unfold Computation.evaluate
  rw [Run.result_bind]
  rcases hrun with ⟨v, m', hv, hnum⟩ | ⟨i, hi, x, m', herror⟩
  · rw [hv]
    obtain ⟨y, rfl⟩ := hnum.exists_num
    exact Or.inl ⟨y, rfl⟩
  · rw [herror]
    exact Or.inr ⟨i, hi, x, rfl⟩

end Computation.Progresses

/-- **A trace that passes the check does not go wrong.**  At as many numbers as it has parameters it
evaluates to a number.  So does every nest of derivatives along as many seeds each, unless one of
its instances completes with a number instead of a dual number.  A single derivative does so exactly
if the trace returns a literal, and it completes with this literal. -/
theorem Trace.progress [Scalar α] {t : Trace α} (hcheck : t.check = .ok ()) {xs : List α}
    (hxs : xs.length = t.params.length) (m : Machine σ α) :
    (∃ y, Run.result (t.computation.evaluate xs) m = .ok y) ∧
    (∀ seeds : List (List α), (∀ ts ∈ seeds, ts.length = t.params.length) →
      (∃ y, Run.result ((t.computation.nest seeds).evaluate xs) m = .ok y) ∨
        ∃ i < seeds.length, ∃ x, Run.result ((t.computation.nest seeds).evaluate xs) m =
          .error (.plainResult ⟨m.session.nextTag + i⟩ (.num x))) ∧
    ∀ ts : List α, ts.length = t.params.length → ∀ x,
      Run.result ((t.computation.nest [ts]).evaluate xs) m =
        .error (.plainResult ⟨m.session.nextTag⟩ (.num x)) ↔ t.ret = .lit x := by
  have hwf := check_eq_ok_iff.mp hcheck
  refine ⟨?_, fun seeds hseeds => ?_, fun ts hts x => ?_⟩
  · exact ⟨_, Run.result_eq_ok.mpr ⟨m, hwf.evaluate_eq hxs m⟩⟩
  · have hnest := (hwf.progresses.nest hseeds).evaluate hxs m
    rw [Nat.zero_add] at hnest
    exact hnest
  · have hsolved := hwf.solvedBy_solution (D := Arithmetic.numbers.dual) (xs.zip ts)
    have heq := hwf.differentiate_eq hxs hts hsolved (fun p hp => hwf.solution_param hp) m
    rw [Computation.differentiate_eq _ (hxs.trans hts.symm)] at heq
    rw [Computation.nest, Computation.nest, heq]
    cases t.ret with
    | lit y => simp
    | reg r => simp

/-- The trace that squares its parameter and returns the parameter all the same. -/
def idleSquare : Trace Int :=
  let x : Register := ⟨0, 0, .param⟩
  { params := [x], equations := [⟨⟨0, 1, .result⟩, .mul, [.reg x, .reg x]⟩], ret := .reg x }

/-- The derivative of `idleSquare` is its seed.  A derivative of this one is refused, because a seed
is a number. -/
theorem Trace.progress_idleSquare :
    idleSquare.check = .ok () ∧
      Run.result (idleSquare.computation.evaluate [3]) (⟨(), {}⟩ : Machine Unit Int) = .ok 3 ∧
      Run.result ((idleSquare.computation.nest [[2]]).evaluate [3])
        (⟨(), {}⟩ : Machine Unit Int) = .ok 2 ∧
      Run.result ((idleSquare.computation.nest [[2], [5]]).evaluate [3])
        (⟨(), {}⟩ : Machine Unit Int) = .error (.plainResult ⟨0⟩ (.num 2)) ∧
      ∀ seeds : List (List Int), (∀ ts ∈ seeds, ts.length = 1) →
        (∃ y, Run.result ((idleSquare.computation.nest seeds).evaluate [3])
          (⟨(), {}⟩ : Machine Unit Int) = .ok y) ∨
        ∃ i < seeds.length, ∃ x, Run.result ((idleSquare.computation.nest seeds).evaluate [3])
          (⟨(), {}⟩ : Machine Unit Int) = .error (.plainResult ⟨0 + i⟩ (.num x)) :=
  ⟨rfl, rfl, rfl, rfl, (Trace.progress (t := idleSquare) rfl rfl (⟨(), {}⟩ : Machine Unit Int)).2.1⟩

end DualTrace
