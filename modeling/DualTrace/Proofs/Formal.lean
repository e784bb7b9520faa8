/-
# Formal derivatives

Over a commutative ring, a program without choices computes polynomials, and a derivative in it has
a meaning of its own: differentiate the polynomial that the body computes in its own arguments, in
the direction of the seeds, while everything from outside is a coefficient.

* `directional` : the derivative of a polynomial at a point, in a direction;
* `Program.formal` : the value of a closed program, in which each derivative is a formal one;
* `Program.nest` : the derivative along one, over and over.

`Program.evaluate_eq_formal` says that the two agree: forward differentiation computes true
derivatives at every depth, and no instance takes the perturbation of another for its own.  By
`Program.denote_of_evaluate` it is enough to compare the formal value with the one in pairs.  They
are compared along a map from the ring to the domain of the pairs (`Arithmetic.IsHom`): a derivative
starts with polynomials on one side and pairs on the other, and the value of a polynomial together
with its derivative is such a map again (`Arithmetic.IsHom.withDirection`).
-/
import DualTrace.Proofs.Exact
import DualTrace.Proofs.Meaning
import Mathlib.Algebra.MvPolynomial.PDeriv
import Mathlib.Algebra.Polynomial.Derivative

namespace DualTrace

open Polynomial (derivative derivative_C derivative_X derivative_add derivative_mul)
open scoped Polynomial

variable {σ α A B : Type} [CommRing A]

/-! ## Directional derivatives -/

/-- The derivative of a polynomial at the point `x` in the direction `s`. -/
noncomputable def directional {n : ℕ} (x s : Fin n → A) (P : MvPolynomial (Fin n) A) : A :=
  ∑ i, MvPolynomial.eval x (MvPolynomial.pderiv i P) * s i

section Directional

variable {n : ℕ} (x s : Fin n → A) (P Q : MvPolynomial (Fin n) A)

theorem directional_C (a : A) : directional x s (MvPolynomial.C a) = 0 := by
  simp [directional]

/-- A variable changes as the direction says. -/
theorem directional_X (i : Fin n) : directional x s (MvPolynomial.X i) = s i := by
  unfold directional
  rw [Finset.sum_eq_single i]
  · rw [MvPolynomial.pderiv_X_self, map_one, one_mul]
  · intro j _ hj
    rw [MvPolynomial.pderiv_X_of_ne (Ne.symm hj), map_zero, zero_mul]
  · intro hi
    exact absurd (Finset.mem_univ i) hi

theorem directional_add :
    directional x s (P + Q) = directional x s P + directional x s Q := by
  simp only [directional, map_add, add_mul, Finset.sum_add_distrib]

/-- The rule for products. -/
theorem directional_mul :
    directional x s (P * Q) =
      MvPolynomial.eval x P * directional x s Q + MvPolynomial.eval x Q * directional x s P := by
  simp only [directional, MvPolynomial.pderiv_mul, map_add, map_mul, Finset.mul_sum,
    ← Finset.sum_add_distrib]
  refine Finset.sum_congr rfl fun i _ => ?_
  ring

end Directional

/-! ## Formal values -/

/-- The result of an operation in a ring; a choice has none. -/
def Op.formal? : Op → List A → Option A
  | .add, [x, y] => some (x + y)
  | .mul, [x, y] => some (x * y)
  | .id, [x] => some x
  | _, _ => none

section Formal

variable [CommRing α]

mutual

/-- The value of a closed program in a ring that contains its numbers, inside the scopes around it.
The body of a derivative computes a polynomial in as many variables as it has arguments, over the
ring around it; the values of the scopes around are coefficients there. -/
noncomputable def Program.formal {A : Type} [CommRing A] (ι : α →+* A) (scopes : List (Scope A))
    (args : List A) : Program α → Option A
  | .block body ret =>
    (body.formal ι scopes { args := args }).bind fun scope => ret.denote ι (scope :: scopes)
  | .jvp body seeds =>
    (seeds.mapM (Operand.denote ι scopes)).bind fun seeds =>
      if h : args.length = seeds.length then
        (body.formal (MvPolynomial.C.comp ι) (scopes.map (Scope.map MvPolynomial.C))
          (List.ofFn MvPolynomial.X)).map
            (directional args.get fun i => seeds.get (i.cast h))
      else none
  | _ => none

/-- The scope in which the steps of a closed program end. -/
noncomputable def Block.formal {A : Type} [CommRing A] (ι : α →+* A) (scopes : List (Scope A))
    (scope : Scope A) : Block α → Option (Scope A)
  | .done => some scope
  | .step first rest =>
    (first.formal ι (scope :: scopes)).bind fun a => rest.formal ι scopes (scope.push a)

/-- The value of a step of a closed program. -/
noncomputable def Step.formal {A : Type} [CommRing A] (ι : α →+* A) (scopes : List (Scope A)) :
    Step α → Option A
  | .issue op operands => (operands.mapM (Operand.denote ι scopes)).bind op.formal?
  | .call body operands =>
    (operands.mapM (Operand.denote ι scopes)).bind fun args => body.formal ι scopes args
  | .loop count init body =>
    (init.denote ι scopes).bind
      (turns (fun turn => ι (turn : α)) (fun args => body.formal ι scopes args) count 0)
  | _ => none

end

end Formal

/-! ## Homomorphisms -/

/-- A map from a ring with the numbers `ι` into a domain that respects numbers, sums and
products. -/
structure Arithmetic.IsHom [CommRing α] (D : Arithmetic α B) (ι : α →+* A) (φ : A → B) : Prop where
  num : ∀ x, φ (ι x) = D.num x
  add : ∀ a b, φ (a + b) = D.add (φ a) (φ b)
  mul : ∀ a b, φ (a * b) = D.mul (φ a) (φ b)

namespace Arithmetic.IsHom

variable [CommRing α] {D : Arithmetic α B} {ι : α →+* A} {φ : A → B} (h : D.IsHom ι φ)

include h

theorem eval?_map {op : Op} (hop : op ≠ .iif) (as : List A) :
    D.eval? op (as.map φ) = (op.formal? as).map φ := by
  cases op with
  | add =>
    rcases as with _ | ⟨a, _ | ⟨b, _ | ⟨c, as⟩⟩⟩
    · rfl
    · rfl
    · exact congrArg some (h.add a b).symm
    · rfl
  | mul =>
    rcases as with _ | ⟨a, _ | ⟨b, _ | ⟨c, as⟩⟩⟩
    · rfl
    · rfl
    · exact congrArg some (h.mul a b).symm
    · rfl
  | iif => exact absurd rfl hop
  | id => rcases as with _ | ⟨a, _ | ⟨b, as⟩⟩ <;> rfl

variable [DecidableEq α]

/-- **A value and its derivative form a pair.**  Let `d` be a derivation along `ε` that takes the
numbers for constants.  Then `ε` and `d` together respect the arithmetic of pairs. -/
theorem pair {E : Type} [CommRing E] {κ : α →+* E} (ε : E →+* A) (d : E → A)
    (hε : ∀ x, ε (κ x) = ι x) (hconst : ∀ x, d (κ x) = 0) (hadd : ∀ P Q, d (P + Q) = d P + d Q)
    (hmul : ∀ P Q, d (P * Q) = ε P * d Q + ε Q * d P) :
    D.dual.IsHom κ fun P => (φ (ε P), φ (d P)) where
  num x := by
    have hzero : φ 0 = D.num Scalar.zero := by rw [← h.num, Scalar.zero_eq, map_zero]
    rw [hε, h.num, hconst, hzero]
    rfl
  add P Q := by
    rw [map_add, hadd, h.add, h.add]
    rfl
  mul P Q := by
    rw [map_mul, hmul, h.mul, h.add, h.mul, h.mul]
    rfl

/-- A polynomial at a point, with its derivative in a direction. -/
theorem withDirection {n : ℕ} (x s : Fin n → A) :
    D.dual.IsHom (MvPolynomial.C.comp ι) fun P =>
      (φ (MvPolynomial.eval x P), φ (directional x s P)) :=
  h.pair (MvPolynomial.eval x) _ (fun _ => MvPolynomial.eval_C _) (fun _ => directional_C x s _)
    (directional_add x s) (directional_mul x s)

end Arithmetic.IsHom

section Transport

variable [CommRing α] {num : α → B} {ι : α →+* A} {φ : A → B}

/-- Operands have corresponding values in corresponding scopes. -/
theorem Operand.denote_map (h : ∀ x, φ (ι x) = num x) (scopes : List (Scope A)) (o : Operand α) :
    o.denote num (scopes.map (Scope.map φ)) = (o.denote ι scopes).map φ := by
  cases o with
  | num x => exact congrArg some (h x).symm
  | arg up index =>
    simp only [denote, List.getElem?_map, Option.bind_map, Option.map_bind]
    congr 1
    funext s
    exact List.getElem?_map
  | result up index =>
    simp only [denote, List.getElem?_map, Option.bind_map, Option.map_bind]
    congr 1
    funext s
    exact List.getElem?_map
  | _ => rfl

theorem Operand.mapM_denote_map (h : ∀ x, φ (ι x) = num x) (scopes : List (Scope A))
    (os : List (Operand α)) :
    os.mapM (denote num (scopes.map (Scope.map φ))) =
      (os.mapM (denote ι scopes)).map (List.map φ) := by
  induction os with
  | nil => rfl
  | cons o os ih =>
    rw [List.mapM_cons, List.mapM_cons, denote_map h, ih]
    cases denote ι scopes o with
    | none => rfl
    | some a => cases os.mapM (denote ι scopes) <;> rfl

omit [CommRing A] [CommRing α] in
/-- Loops whose turns correspond have corresponding values. -/
theorem turns_map {number : Nat → A} {number' : Nat → B} (hnumber : ∀ k, φ (number k) = number' k)
    {f : List A → Option A} {g : List B → Option B} (hf : ∀ as, g (as.map φ) = (f as).map φ)
    (count turn : Nat) (a : A) :
    turns number' g count turn (φ a) = (turns number f count turn a).map φ := by
  induction count generalizing turn a with
  | zero => rfl
  | succ count ih =>
    have hturn : g [φ a, number' turn] = (f [a, number turn]).map φ := by
      rw [← hf, List.map_cons, List.map_cons, List.map_nil, hnumber]
    rw [turns, turns, hturn, Option.bind_map, Option.map_bind]
    congr 1
    funext b
    exact ih (turn + 1) b

end Transport

/-! ## Values in pairs and formal values -/

/-- The variables stand for the arguments of a derivative, each with its seed. -/
theorem map_variables (φ : A → B) {as ts : List A} (hlen : as.length = ts.length) :
    (List.ofFn MvPolynomial.X).map (fun P => (φ (MvPolynomial.eval as.get P),
        φ (directional as.get (fun i => ts.get (i.cast hlen)) P))) =
      (as.map φ).zip (ts.map φ) := by
  refine List.ext_getElem (by simp [hlen]) fun i hi _ => ?_
  simp [directional_X]

/-- The coefficients stand for the constants of a derivative. -/
theorem Arithmetic.IsHom.map_coefficients [CommRing α] [DecidableEq α] {D : Arithmetic α B}
    {ι : α →+* A} {φ : A → B} (h : D.IsHom ι φ) {n : ℕ} (x s : Fin n → A)
    (scopes : List (Scope A)) :
    (scopes.map (Scope.map MvPolynomial.C)).map (Scope.map fun P =>
        (φ (MvPolynomial.eval x P), φ (directional x s P))) =
      (scopes.map (Scope.map φ)).map (Scope.map D.constant) := by
  have hconst : ∀ a : A, (φ (MvPolynomial.eval x (MvPolynomial.C a)),
      φ (directional x s (MvPolynomial.C a))) = D.constant (φ a) := by
    intro a
    rw [MvPolynomial.eval_C, directional_C, ← map_zero ι, h.num, ← Scalar.zero_eq]
    rfl
  simp only [List.map_map]
  refine List.map_congr_left fun scope _ => ?_
  simp only [Function.comp_apply, Scope.map, List.map_map]
  congr 1 <;> exact List.map_congr_left fun a _ => hconst a

section Closed

variable [CommRing α] [DecidableEq α]

mutual

/-- **The value of a program in a domain is the image of its formal value.** -/
theorem Program.denote_map {A B : Type} [CommRing A] {D : Arithmetic α B} {ι : α →+* A}
    {φ : A → B} (h : D.IsHom ι φ) (scopes : List (Scope A)) (args : List A) :
    ∀ {p : Program α}, p.Closed (· ≠ .iif) →
      p.denote D (scopes.map (Scope.map φ)) (args.map φ) = (p.formal ι scopes args).map φ
  | .block body ret, hp => by
    rw [Program.denote, Program.formal, Option.map_bind]
    have hbody := Block.denote_map h scopes { args := args } hp.1
    have hscope : Scope.map φ { args := args } = { args := args.map φ } := rfl
    rw [hscope] at hbody
    rw [hbody, Option.bind_map]
    congr 1
    funext scope
    exact Operand.denote_map h.num (scope :: scopes) ret
  | .jvp body seeds, hp => by
    rw [Program.denote, Program.formal, Operand.mapM_denote_map h.num, Option.bind_map,
      Option.map_bind]
    congr 1
    funext ts
    rw [Function.comp_apply, Function.comp_apply, List.length_map, List.length_map]
    by_cases hlen : args.length = ts.length
    · -- the body runs on pairs on one side and on variables on the other
      have hbody := Program.denote_map
        (h.withDirection args.get fun i => ts.get (i.cast hlen))
        (scopes.map (Scope.map MvPolynomial.C)) (List.ofFn MvPolynomial.X) hp.1
      rw [map_variables φ hlen, h.map_coefficients] at hbody
      rw [if_pos hlen, dif_pos hlen, hbody, Option.map_map, Option.map_map]
      rfl
    · rw [if_neg hlen, dif_neg hlen]
      rfl
  | .trace _, hp => hp.elim
  | .bound _ _, hp => hp.elim
  | .observed _, hp => hp.elim
  | .forward _ _ _ _, hp => hp.elim

/-- The scope in which steps end in a domain is the image of the formal one. -/
theorem Block.denote_map {A B : Type} [CommRing A] {D : Arithmetic α B} {ι : α →+* A}
    {φ : A → B} (h : D.IsHom ι φ) (scopes : List (Scope A)) (scope : Scope A) :
    ∀ {b : Block α}, b.Closed (· ≠ .iif) →
      b.denote D (scopes.map (Scope.map φ)) (scope.map φ) =
        (b.formal ι scopes scope).map (Scope.map φ)
  | .done, _ => rfl
  | .step first rest, hb => by
    rw [Block.denote, Block.formal, Option.map_bind]
    have hfirst := Step.denote_map h (scope :: scopes) hb.1
    rw [List.map_cons] at hfirst
    rw [hfirst, Option.bind_map]
    congr 1
    funext a
    have hpush : (scope.map φ).push (φ a) = (scope.push a).map φ := by
      simp [Scope.map, Scope.push]
    rw [Function.comp_apply, hpush]
    exact Block.denote_map h scopes (scope.push a) hb.2

/-- The value of a step in a domain is the image of its formal value. -/
theorem Step.denote_map {A B : Type} [CommRing A] {D : Arithmetic α B} {ι : α →+* A}
    {φ : A → B} (h : D.IsHom ι φ) (scopes : List (Scope A)) :
    ∀ {s : Step α}, s.Closed (· ≠ .iif) →
      s.denote D (scopes.map (Scope.map φ)) = (s.formal ι scopes).map φ
  | .issue op operands, hs => by
    rw [Step.denote, Step.formal, Operand.mapM_denote_map h.num, Option.bind_map, Option.map_bind]
    congr 1
    funext as
    exact h.eval?_map hs.1 as
  | .call body operands, hs => by
    rw [Step.denote, Step.formal, Operand.mapM_denote_map h.num, Option.bind_map, Option.map_bind]
    congr 1
    funext as
    exact Program.denote_map h scopes as hs.1
  | .loop count init body, hs => by
    rw [Step.denote, Step.formal, Operand.denote_map h.num, Option.bind_map, Option.map_bind]
    congr 1
    funext a
    exact turns_map (fun k => h.num (k : α)) (fun as => Program.denote_map h scopes as hs.2)
      count 0 a
  | .unknown _ _, hs => hs.elim
  | .attempt _ _, hs => hs.elim
  | .keep _ _, hs => hs.elim
  | .stage _ _ _, hs => hs.elim

end

/-! ## Derivatives over and over -/

/-- The derivative along one, taken `k` times. -/
def Program.nest (p : Program α) : Nat → Program α
  | 0 => p
  | k + 1 => .jvp (p.nest k) [.num Scalar.one]

/-- A nest of derivatives is closed. -/
theorem Program.Closed.nest {ops : Op → Prop} {p : Program α} (hp : p.Closed ops) (k : Nat) :
    (p.nest k).Closed ops := by
  induction k with
  | zero => exact hp
  | succ k ih =>
    refine ⟨ih, fun o ho => ?_⟩
    rw [List.mem_singleton.mp ho]
    exact True.intro

/-- A polynomial with its derivative. -/
theorem Arithmetic.IsHom.withDerivative {D : Arithmetic α B} {φ : α[X] → B}
    (h : D.IsHom Polynomial.C φ) : D.dual.IsHom Polynomial.C fun P => (φ P, φ (derivative P)) :=
  h.pair (RingHom.id α[X]) derivative (fun _ => rfl) (fun _ => derivative_C)
    (fun _ _ => derivative_add) fun P Q => by
      rw [derivative_mul, RingHom.id_apply, RingHom.id_apply]
      ring

/-- **A nest over a polynomial denotes its derivatives.** -/
theorem Program.denote_nest {D : Arithmetic α B} {φ : α[X] → B} (h : D.IsHom Polynomial.C φ)
    {p : Program α} (hp : p.Closed (· ≠ .iif)) (k : Nat) :
    (p.nest k).denote D [] [φ Polynomial.X] =
      (p.formal Polynomial.C [] [Polynomial.X]).map fun P => φ (derivative^[k] P) := by
  induction k generalizing B with
  | zero => exact Program.denote_map h [] [Polynomial.X] hp
  | succ k ih =>
    -- the seed one is what the derivative of the variable stands for
    have hseed : (φ Polynomial.X, D.num Scalar.one) =
        (φ Polynomial.X, φ (derivative Polynomial.X)) := by
      rw [derivative_X, ← h.num, Scalar.one_eq, map_one]
    have hnest : (p.nest (k + 1)).denote D [] [φ Polynomial.X] =
        ((p.nest k).denote D.dual [] [(φ Polynomial.X, D.num Scalar.one)]).map Prod.snd := rfl
    rw [hnest, hseed, ih h.withDerivative, Option.map_map]
    congr 1
    funext P
    rw [Function.comp_apply, Function.iterate_succ_apply']

/-! ## Evaluation -/

/-- A homomorphism back to the numbers that leaves the numbers as they are. -/
theorem Arithmetic.isHom_numbers {ι : α →+* A} (f : A →+* α) (hf : ∀ x, f (ι x) = x) :
    (numbers : Arithmetic α α).IsHom ι f where
  num := hf
  add := map_add f
  mul := map_mul f

/-- **Forward differentiation computes true derivatives.**  Over a commutative ring, what a closed
program without choices evaluates to is its formal value, whatever derivatives it takes of bodies
that use values of the scopes around them.  A nest of `k` derivatives of a program of one argument
evaluates to the `k`-th derivative of the polynomial that the program computes. -/
theorem Program.evaluate_eq_formal {p : Program α} (hp : p.Closed (· ≠ .iif)) :
    (∀ {σ : Type} (xs : List α) (m : Machine σ α) (y : α),
        Run.result (p.computation.evaluate xs) m = .ok y →
        p.formal (RingHom.id α) [] xs = some y) ∧
      ∀ {σ : Type} (k : Nat) (x : α) (m : Machine σ α) (y : α),
        Run.result ((p.nest k).computation.evaluate [x]) m = .ok y →
        ∃ P : α[X], p.formal Polynomial.C [] [Polynomial.X] = some P ∧
          y = (derivative^[k] P).eval x := by
  refine ⟨?_, ?_⟩
  · intro σ xs m y hy
    have hdenote := Program.denote_of_evaluate hp hy
    have hhom : Arithmetic.numbers.IsHom (RingHom.id α) (RingHom.id α) :=
      Arithmetic.isHom_numbers (RingHom.id α) fun _ => rfl
    have hid := Program.denote_map hhom [] xs hp
    rw [RingHom.coe_id, List.map_id, Option.map_id, List.map_nil, hdenote] at hid
    exact hid.symm
  · intro σ k x m y hy
    have hdenote := Program.denote_of_evaluate (hp.nest k) hy
    have hhom : Arithmetic.numbers.IsHom Polynomial.C (Polynomial.evalRingHom x) :=
      Arithmetic.isHom_numbers (Polynomial.evalRingHom x) fun _ => Polynomial.eval_C
    have hnest := Program.denote_nest hhom hp k
    rw [Polynomial.coe_evalRingHom, Polynomial.eval_X, hdenote] at hnest
    obtain ⟨P, hP, hy⟩ := Option.map_eq_some_iff.mp hnest.symm
    exact ⟨P, hP, hy.symm⟩

end Closed

/-- The program that multiplies its argument `x` by the derivative of `x + y` by `y`, taken where
`y` is one. -/
def crossedSlope : Program Int :=
  .block (.step (.call (.jvp
      (.block (.step (.issue .add [.arg 1 0, .arg 0 0]) .done) (.result 0 0)) [.num 1]) [.num 1])
    (.step (.issue .mul [.arg 0 0, .result 0 0]) .done)) (.result 0 1)

theorem crossedSlope_closed : crossedSlope.Closed (· ≠ .iif) := by
  simp [crossedSlope, Program.Closed, Block.Closed, Step.Closed, Operand.Plain]

/-- The slope of `x + y` by `y` is one, so `crossedSlope` is the identity and its derivative one.
It would be two if the inner derivative took the perturbation of the outer one for its own. -/
theorem Program.evaluate_eq_formal_crossedSlope :
    crossedSlope.formal (RingHom.id Int) [] [3] = some 3 ∧
      ∃ P : Int[X], crossedSlope.formal Polynomial.C [] [Polynomial.X] = some P ∧
        1 = (derivative^[1] P).eval 3 := by
  have h := Program.evaluate_eq_formal crossedSlope_closed
  exact ⟨h.1 [3] (⟨(), {}⟩ : Machine Unit Int) 3 rfl, h.2 1 3 (⟨(), {}⟩ : Machine Unit Int) 1 rfl⟩

end DualTrace
