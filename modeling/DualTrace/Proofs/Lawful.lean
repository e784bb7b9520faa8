/-
# Lawful arithmetic

Rewriting a trace changes how its numbers come about, and with it the sign of a zero, so its value
can be kept only up to the test `==`.  This file says what is asked of the numbers for that.

* `Scalar.LawfulOn` : numbers on which `==` is an equivalence that the operations respect, and zero
  and one are neutral and absorbing up to `==`;
* `Op.eval?_congr` : an operation has equal results on equal operands;
* `Scalar.lawfulOn_of_commRing` : exact arithmetic is lawful on all numbers.

Among the floating-point numbers the finite ones are lawful.
-/
import DualTrace.Op
import DualTrace.Proofs.Exact
import Mathlib.Data.List.Forall2

namespace DualTrace

/-- Arithmetic that is lawful on the numbers `S`.  A number that equals one of `S` belongs to `S`
itself, so a zero of either sign does or none. -/
structure Scalar.LawfulOn {α : Type} [Scalar α] (S : α → Prop) : Prop where
  closed {x y : α} : (x == y) = true → (S x ↔ S y)
  refl {x : α} : S x → (x == x) = true
  symm {x y : α} : S x → (x == y) = true → (y == x) = true
  trans {x y z : α} : S x → (x == y) = true → (y == z) = true → (x == z) = true
  add {x x' y y' : α} : S x → S y → (x == x') = true → (y == y') = true →
    (x + y == x' + y') = true
  mul {x x' y y' : α} : S x → S y → (x == x') = true → (y == y') = true →
    (x * y == x' * y') = true
  add_zero {x : α} : S x → (x + zero == x) = true
  zero_add {x : α} : S x → (zero + x == x) = true
  mul_one {x : α} : S x → (x * one == x) = true
  one_mul {x : α} : S x → (one * x == x) = true
  mul_zero {x : α} : S x → (x * zero == zero) = true
  zero_mul {x : α} : S x → (zero * x == zero) = true

namespace Scalar.LawfulOn

variable {α : Type} [Scalar α] {S : α → Prop} (h : LawfulOn S) {x y : α}

include h

/-- Equal numbers belong to `S` together. -/
theorem mem_of_eq (hx : S x) (hxy : (x == y) = true) : S y := (h.closed hxy).mp hx

/-- Whether a number equals zero does not change among equal numbers. -/
theorem beq_zero_congr (hx : S x) (hxy : (x == y) = true) :
    (x == (zero : α)) = (y == (zero : α)) := by
  have hyx := h.symm hx hxy
  have hy := h.mem_of_eq hx hxy
  rw [Bool.eq_iff_iff]
  exact ⟨h.trans hy hyx, h.trans hx hxy⟩

/-- Equal numbers hold as conditions together. -/
theorem truthy_congr (hx : S x) (hxy : (x == y) = true) : truthy x = truthy y := by
  unfold truthy
  rw [h.beq_zero_congr hx hxy, h.refl hx, h.refl (h.mem_of_eq hx hxy)]

omit h in
/-- A number that equals zero does not hold as a condition. -/
theorem truthy_of_eq_zero (hx : (x == (zero : α)) = true) : truthy x = false := by
  rw [truthy, hx]
  rfl

/-- A number that equals one holds as a condition, or else all numbers of `S` are equal. -/
theorem truthy_of_eq_one (hx : S x) (hone : (x == (one : α)) = true) :
    truthy x = true ∨ ∀ y z, S y → S z → (y == z) = true := by
  by_cases hzero : (x == (zero : α)) = true
  · right
    have h1 : S (one : α) := h.mem_of_eq hx hone
    have h10 : ((one : α) == zero) = true := h.trans h1 (h.symm hx hone) hzero
    -- every number is its product with one, which is its product with zero
    have hall : ∀ y, S y → (y == (zero : α)) = true := by
      intro y hy
      have hy1 : S (y * one) := (h.closed (h.mul_one hy)).mpr hy
      have hyy1 : (y == y * one) = true := h.symm hy1 (h.mul_one hy)
      exact h.trans hy hyy1 (h.trans hy1 (h.mul hy h1 (h.refl hy) h10) (h.mul_zero hy))
    intro y z hy hz
    exact h.trans hy (hall y hy) (h.symm hz (hall z hz))
  · left
    rw [truthy, Bool.eq_false_iff.mpr hzero, h.refl hx]
    rfl

/-- Lists of equal numbers can be compared the other way round. -/
theorem forall₂_symm {xs ys : List α} (heq : List.Forall₂ (fun x y => (x == y) = true) xs ys)
    (hys : ∀ y ∈ ys, S y) : List.Forall₂ (fun y x => (y == x) = true) ys xs := by
  induction heq with
  | nil => exact .nil
  | @cons x y xs ys hxy _ ih =>
    have hx : S x := (h.closed hxy).mpr (hys y List.mem_cons_self)
    exact .cons (h.symm hx hxy) (ih fun z hz => hys z (List.mem_cons_of_mem _ hz))

end Scalar.LawfulOn

namespace Op

variable {α : Type} [Scalar α] {S : α → Prop}

/-- Operations have equal results on equal operands. -/
theorem eval?_congr (h : Scalar.LawfulOn S) (op : Op) {xs ys : List α} {x : α}
    (hxs : ∀ x ∈ xs, S x) (heq : List.Forall₂ (fun x y => (x == y) = true) xs ys)
    (hx : op.eval? xs = some x) : ∃ y, op.eval? ys = some y ∧ (x == y) = true := by
  cases op with
  | add =>
    rcases heq with _ | ⟨ha, _ | ⟨hb, _ | ⟨_, _⟩⟩⟩ <;> simp [eval?] at hx
    subst hx
    exact ⟨_, rfl, h.add (hxs _ (by simp)) (hxs _ (by simp)) ha hb⟩
  | mul =>
    rcases heq with _ | ⟨ha, _ | ⟨hb, _ | ⟨_, _⟩⟩⟩ <;> simp [eval?] at hx
    subst hx
    exact ⟨_, rfl, h.mul (hxs _ (by simp)) (hxs _ (by simp)) ha hb⟩
  | iif =>
    rcases heq with _ | ⟨hc, _ | ⟨ha, _ | ⟨hb, _ | ⟨_, _⟩⟩⟩⟩ <;> simp [eval?] at hx
    subst hx
    refine ⟨_, rfl, ?_⟩
    rw [← h.truthy_congr (hxs _ (by simp)) hc]
    split
    · exact ha
    · exact hb
  | id =>
    rcases heq with _ | ⟨ha, _ | ⟨_, _⟩⟩ <;> simp [eval?] at hx
    subst hx
    exact ⟨_, rfl, ha⟩

end Op

/-- Exact arithmetic is lawful on all numbers. -/
theorem Scalar.lawfulOn_of_commRing {α : Type} [CommRing α] [DecidableEq α] :
    LawfulOn (fun _ : α => True) := by
  constructor <;> simp +contextual

end DualTrace
