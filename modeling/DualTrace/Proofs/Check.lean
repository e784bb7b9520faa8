/-
# Checks that succeed

A check ends with a result or an error and touches nothing else.  Sequences and traversals of checks
succeed exactly when every check in them does, and an instruction is carried out exactly on as many
numbers as it needs (`Instruction.evaluate_eq_ok`).
-/
import DualTrace.Evaluation
import Mathlib.Data.List.Forall2

namespace DualTrace

/-! ## Sequences and traversals -/

namespace Check

variable {ε β γ : Type}

/-- A sequence of two checks succeeds when both do. -/
theorem bind_eq_ok {x : Except ε β} {f : β → Except ε γ} {c : γ} :
    (x >>= f) = .ok c ↔ ∃ b, x = .ok b ∧ f b = .ok c := by
  cases x with
  | error e => simp [bind, Except.bind]
  | ok b =>
    constructor
    · intro h
      exact ⟨b, rfl, h⟩
    · rintro ⟨b', hb, h⟩
      cases hb
      exact h

/-- A sequence of two checks fails when one of them does. -/
theorem bind_eq_error {x : Except ε β} {f : β → Except ε γ} {e : ε} :
    (x >>= f) = .error e ↔ x = .error e ∨ ∃ b, x = .ok b ∧ f b = .error e := by
  cases x <;> simp [bind, Except.bind]

/-- Two checks agree up to a function of their results when they fail with the same error or succeed
with results that agree. -/
theorem map_eq_map {f : β → γ} {x y : Except ε β} :
    x.map f = y.map f ↔ (∃ e, x = .error e ∧ y = .error e) ∨
      ∃ b c, x = .ok b ∧ y = .ok c ∧ f b = f c := by
  cases x <;> cases y <;> simp [Except.map, eq_comm]

/-- A traversal succeeds when the check of each item does. -/
theorem mapM_eq_ok {f : β → Except ε γ} {xs : List β} :
    ∀ {ys : List γ}, xs.mapM f = .ok ys ↔ List.Forall₂ (fun x y => f x = .ok y) xs ys := by
  induction xs with
  | nil =>
    intro ys
    rw [List.mapM_nil, List.forall₂_nil_left_iff]
    constructor
    · intro h; cases h; rfl
    · rintro rfl; rfl
  | cons x xs ih =>
    intro ys
    rw [List.mapM_cons, bind_eq_ok, List.forall₂_cons_left_iff]
    constructor
    · rintro ⟨y, hy, h⟩
      obtain ⟨rest, hrest, h⟩ := bind_eq_ok.mp h
      cases h
      exact ⟨y, rest, hy, ih.mp hrest, rfl⟩
    · rintro ⟨y, rest, hy, hrest, rfl⟩
      exact ⟨y, hy, bind_eq_ok.mpr ⟨rest, ih.mpr hrest, rfl⟩⟩

/-- Two traversals are the same if the check of each item is. -/
theorem mapM_congr {f g : β → Except ε γ} {xs : List β} (h : ∀ x ∈ xs, f x = g x) :
    xs.mapM f = xs.mapM g := by
  induction xs with
  | nil => rfl
  | cons x xs ih =>
    rw [List.mapM_cons, List.mapM_cons, h x List.mem_cons_self,
      ih fun x' hx' => h x' (List.mem_cons_of_mem _ hx')]

/-- A traversal of items whose checks all succeed succeeds. -/
theorem exists_mapM_eq_ok {f : β → Except ε γ} {xs : List β} (h : ∀ x ∈ xs, ∃ y, f x = .ok y) :
    ∃ ys, xs.mapM f = .ok ys := by
  induction xs with
  | nil => exact ⟨[], rfl⟩
  | cons x xs ih =>
    obtain ⟨y, hy⟩ := h x List.mem_cons_self
    obtain ⟨ys, hys⟩ := ih fun x' hx' => h x' (List.mem_cons_of_mem _ hx')
    exact ⟨y :: ys, mapM_eq_ok.mpr (.cons hy (mapM_eq_ok.mp hys))⟩

/-- A traversal fails at an item. -/
theorem exists_of_mapM_eq_error {f : β → Except ε γ} {xs : List β} {e : ε}
    (h : xs.mapM f = .error e) : ∃ x ∈ xs, f x = .error e := by
  induction xs with
  | nil => cases h
  | cons x xs ih =>
    rw [List.mapM_cons] at h
    rcases bind_eq_error.mp h with h | ⟨y, -, h⟩
    · exact ⟨x, List.mem_cons_self, h⟩
    rcases bind_eq_error.mp h with h | ⟨ys, -, h⟩
    · obtain ⟨x', hx', h⟩ := ih h
      exact ⟨x', List.mem_cons_of_mem _ hx', h⟩
    · cases h

/-- Every result of a traversal comes from an item. -/
theorem exists_of_mapM_eq_ok {f : β → Except ε γ} {xs : List β} {ys : List γ}
    (h : xs.mapM f = .ok ys) {y : γ} (hy : y ∈ ys) : ∃ x ∈ xs, f x = .ok y := by
  rw [mapM_eq_ok] at h
  induction h with
  | nil => cases hy
  | cons hxy _ ih =>
    rcases List.mem_cons.mp hy with rfl | hy
    · exact ⟨_, List.mem_cons_self, hxy⟩
    · obtain ⟨x, hx, hxy'⟩ := ih hy
      exact ⟨x, List.mem_cons_of_mem _ hx, hxy'⟩

end Check

/-! ## Instructions -/

/-- An operation is carried out when it has a result. -/
theorem Op.eval_eq_ok {α : Type} [Scalar α] {op : Op} {xs : List α} {y : α} :
    (op.eval xs : Except (Error α) α) = .ok y ↔ op.eval? xs = some y := by
  unfold Op.eval
  cases op.eval? xs <;> simp

namespace Instruction

variable {α β : Type}

/-- An operand count passes when it is the arity. -/
theorem checkArity_eq_ok {i : Instruction β} :
    (i.checkArity : Except (Error α) Unit) = .ok () ↔ i.args.length = i.op.arity := by
  unfold checkArity Op.checkArity
  by_cases h : i.args.length = i.op.arity <;> simp [h]

variable [Scalar α]

/-- An instruction on numbers has the result of its operation. -/
theorem evaluate_num {op : Op} {xs : List α} {y : α} (h : op.eval? xs = some y) :
    evaluate ⟨op, xs.map Value.num⟩ = .ok (.num y) := by
  have harity : (xs.map Value.num).length = op.arity := by
    rw [List.length_map, ← Op.isSome_eval?, h, Option.isSome_some]
  unfold evaluate
  refine Check.bind_eq_ok.mpr ⟨(), checkArity_eq_ok.mpr harity, ?_⟩
  refine Check.bind_eq_ok.mpr ⟨xs, ?_, ?_⟩
  · rw [Check.mapM_eq_ok, List.forall₂_map_left_iff]
    exact List.forall₂_same.mpr fun x _ => rfl
  · rw [Op.eval_eq_ok.mpr h]
    rfl

/-- An instruction is carried out when its operands are numbers, as many as the operation takes. -/
theorem evaluate_eq_ok {i : Instruction (Value α)} {v : Value α} :
    i.evaluate = .ok v ↔
      ∃ xs y, i.args = xs.map Value.num ∧ i.op.eval? xs = some y ∧ v = .num y := by
  constructor
  · intro h
    obtain ⟨_, -, h⟩ := Check.bind_eq_ok.mp h
    obtain ⟨xs, hxs, h⟩ := Check.bind_eq_ok.mp h
    obtain ⟨y, hy, h⟩ := Check.bind_eq_ok.mp h
    cases h
    refine ⟨xs, y, ?_, ?_, rfl⟩
    · rw [Check.mapM_eq_ok] at hxs
      rw [← List.forall₂_eq_eq_eq, List.forall₂_map_right_iff]
      refine hxs.imp fun w x hwx => ?_
      cases w with
      | num z => cases hwx; rfl
      | reg r => cases hwx
      | dual tag p d => cases hwx
    · exact Op.eval_eq_ok.mp hy
  · obtain ⟨op, args⟩ := i
    rintro ⟨xs, y, rfl, hy, rfl⟩
    exact evaluate_num hy

end Instruction

end DualTrace
