/-
# The identities

What the simplification rules match and what they make of it, said without patterns and templates.

* `Instruction.Reduces` : an instruction that an identity replaces by an alias;
* `Rule.exists_apply_iff` : the identities match exactly these instructions;
* `Equation.simplify_cases` : an equation is replaced by an alias, or no identity matches it.
-/
import DualTrace.Trace.Simplify
import Mathlib.Tactic.Simproc.ExistsAndEq

namespace DualTrace

variable {α : Type} [Scalar α]

/-- An instruction that some identity replaces by an alias of an atom. -/
inductive Instruction.Reduces : Instruction (Atom α) → Atom α → Prop
  | add_zero (a : Atom α) {x : α} (hx : (x == Scalar.zero) = true) : Reduces ⟨.add, [a, .lit x]⟩ a
  | zero_add (a : Atom α) {x : α} (hx : (x == Scalar.zero) = true) : Reduces ⟨.add, [.lit x, a]⟩ a
  | mul_one (a : Atom α) {x : α} (hx : (x == Scalar.one) = true) : Reduces ⟨.mul, [a, .lit x]⟩ a
  | one_mul (a : Atom α) {x : α} (hx : (x == Scalar.one) = true) : Reduces ⟨.mul, [.lit x, a]⟩ a
  | mul_zero (a : Atom α) {x : α} (hx : (x == Scalar.zero) = true) :
      Reduces ⟨.mul, [a, .lit x]⟩ (.lit Scalar.zero)
  | zero_mul (a : Atom α) {x : α} (hx : (x == Scalar.zero) = true) :
      Reduces ⟨.mul, [.lit x, a]⟩ (.lit Scalar.zero)
  | iif_one (a b : Atom α) {x : α} (hx : (x == Scalar.one) = true) :
      Reduces ⟨.iif, [.lit x, a, b]⟩ a
  | iif_zero (a b : Atom α) {x : α} (hx : (x == Scalar.zero) = true) :
      Reduces ⟨.iif, [.lit x, a, b]⟩ b

/-- What an instruction reduces to is one of its operands or a literal. -/
theorem Instruction.Reduces.mem_or_lit {i : Instruction (Atom α)} {a : Atom α} (h : i.Reduces a) :
    a ∈ i.args ∨ ∃ x, a = .lit x := by
  cases h with
  | mul_zero _ _ => exact Or.inr ⟨_, rfl⟩
  | zero_mul _ _ => exact Or.inr ⟨_, rfl⟩
  | _ => exact Or.inl (by simp)

/-- An alias does not reduce. -/
theorem Instruction.Reduces.op_ne_id {i : Instruction (Atom α)} {a : Atom α} (h : i.Reduces a) :
    i.op ≠ .id := by
  cases h <;> exact Op.noConfusion

namespace Rule

/-! ## Matching -/

variable {op : Op} {x : α} {i i' : Instruction (Atom α)}

theorem capture?_lit_reg (captures : Captures α) (r : Register) :
    (Pattern.lit x).capture? captures (.reg r) = none := rfl

theorem capture?_lit_lit (captures : Captures α) (y : α) :
    (Pattern.lit x).capture? captures (.lit y) = if y == x then some captures else none := rfl

section Binary

variable {p : Pattern α} {q : Template α} {pick : Atom α → Atom α}

/-- A rule for any operand on the left of a literal.  The replacement depends on this operand. -/
theorem apply_left_iff
    (hpick : ∀ a, ∃ captures, p.capture? [] a = some captures ∧ q.fill? captures = some (pick a)) :
    apply ⟨op, [p, .lit x], .id, [q]⟩ i = some i' ↔
      ∃ a y, i = ⟨op, [a, .lit y]⟩ ∧ (y == x) = true ∧ ⟨.id, [pick a]⟩ = i' := by
  obtain ⟨op', args⟩ := i
  by_cases hop : op' = op
  · subst hop
    rcases args with _ | ⟨a, args⟩
    · simp [apply, Pattern.captureAll?]
    obtain ⟨captures, hcapture, hfill⟩ := hpick a
    rcases args with _ | ⟨b | b, _ | ⟨c, args⟩⟩ <;>
      simp [apply, Pattern.captureAll?, hcapture, capture?_lit_reg, capture?_lit_lit]
    by_cases h : (b == x) = true <;> simp [h, hfill]
  · simp [apply, hop]

/-- A rule for any operand on the right of a literal. -/
theorem apply_right_iff
    (hpick : ∀ a, ∃ captures, p.capture? [] a = some captures ∧ q.fill? captures = some (pick a)) :
    apply ⟨op, [.lit x, p], .id, [q]⟩ i = some i' ↔
      ∃ a y, i = ⟨op, [.lit y, a]⟩ ∧ (y == x) = true ∧ ⟨.id, [pick a]⟩ = i' := by
  obtain ⟨op', args⟩ := i
  by_cases hop : op' = op
  · subst hop
    rcases args with _ | ⟨b, _ | ⟨a, args⟩⟩
    · simp [apply, Pattern.captureAll?]
    · cases b <;> simp [apply, Pattern.captureAll?, capture?_lit_reg, capture?_lit_lit]
    obtain ⟨captures, hcapture, hfill⟩ := hpick a
    rcases b with b | b <;> rcases args with _ | ⟨c, args⟩ <;>
      simp [apply, Pattern.captureAll?, capture?_lit_reg, capture?_lit_lit]
    by_cases h : (b == x) = true <;> simp [h, hcapture, hfill]
  · simp [apply, hop]

end Binary

/-- A rule for a choice on a literal, with one of the alternatives as replacement. -/
theorem apply_choice_iff {slot : Nat} {pick : Atom α → Atom α → Atom α}
    (hpick : ∀ a b, Template.fill? [(1, b), (0, a)] (.capture slot) = some (pick a b)) :
    apply ⟨op, [.lit x, .bind 0, .bind 1], .id, [.capture slot]⟩ i = some i' ↔
      ∃ a b y, i = ⟨op, [.lit y, a, b]⟩ ∧ (y == x) = true ∧ ⟨.id, [pick a b]⟩ = i' := by
  obtain ⟨op', args⟩ := i
  by_cases hop : op' = op
  · subst hop
    rcases args with _ | ⟨c | c, _ | ⟨a, _ | ⟨b, _ | ⟨d, args⟩⟩⟩⟩ <;>
      simp [apply, Pattern.captureAll?, Pattern.capture?]
    by_cases h : (c == x) = true <;> simp [h, hpick, List.lookup_cons]
  · simp [apply, hop]

/-- **The identities match the instructions that reduce, and make aliases of them.** -/
theorem exists_apply_iff :
    (∃ rule ∈ identities, rule.apply i = some i') ↔ ∃ a, i.Reduces a ∧ ⟨.id, [a]⟩ = i' := by
  have hoperand : ∀ a : Atom α, ∃ captures, (Pattern.bind 0).capture? [] a = some captures ∧
      Template.fill? captures (.capture 0) = some a := fun _ => ⟨_, rfl, rfl⟩
  have hzero : ∀ a : Atom α, ∃ captures, Pattern.any.capture? [] a = some captures ∧
      Template.fill? captures (.lit Scalar.zero) = some (.lit Scalar.zero) :=
    fun _ => ⟨_, rfl, rfl⟩
  have hfirst : ∀ a b : Atom α, Template.fill? [(1, b), (0, a)] (.capture 0) = some a :=
    fun _ _ => rfl
  have hsecond : ∀ a b : Atom α, Template.fill? [(1, b), (0, a)] (.capture 1) = some b :=
    fun _ _ => rfl
  simp only [identities, List.mem_cons, List.not_mem_nil, or_false, exists_eq_or_imp,
    exists_eq_left, apply_left_iff hoperand, apply_right_iff hoperand, apply_left_iff hzero,
    apply_right_iff hzero, apply_choice_iff hfirst, apply_choice_iff hsecond]
  constructor
  · rintro (⟨a, y, rfl, hy, rfl⟩ | ⟨a, y, rfl, hy, rfl⟩ | ⟨a, y, rfl, hy, rfl⟩ |
      ⟨a, y, rfl, hy, rfl⟩ | ⟨a, y, rfl, hy, rfl⟩ | ⟨a, y, rfl, hy, rfl⟩ |
      ⟨a, b, y, rfl, hy, rfl⟩ | ⟨a, b, y, rfl, hy, rfl⟩)
    · exact ⟨a, .add_zero a hy, rfl⟩
    · exact ⟨a, .zero_add a hy, rfl⟩
    · exact ⟨a, .mul_one a hy, rfl⟩
    · exact ⟨a, .one_mul a hy, rfl⟩
    · exact ⟨_, .mul_zero a hy, rfl⟩
    · exact ⟨_, .zero_mul a hy, rfl⟩
    · exact ⟨a, .iif_one a b hy, rfl⟩
    · exact ⟨b, .iif_zero a b hy, rfl⟩
  · rintro ⟨a, hred, rfl⟩
    cases hred with
    | add_zero a hy => exact Or.inl ⟨a, _, rfl, hy, rfl⟩
    | zero_add a hy => exact Or.inr (Or.inl ⟨a, _, rfl, hy, rfl⟩)
    | mul_one a hy => exact Or.inr (Or.inr (Or.inl ⟨a, _, rfl, hy, rfl⟩))
    | one_mul a hy => exact Or.inr (Or.inr (Or.inr (Or.inl ⟨a, _, rfl, hy, rfl⟩)))
    | mul_zero a hy => exact Or.inr (Or.inr (Or.inr (Or.inr (Or.inl ⟨a, _, rfl, hy, rfl⟩))))
    | zero_mul a hy =>
      exact Or.inr (Or.inr (Or.inr (Or.inr (Or.inr (Or.inl ⟨a, _, rfl, hy, rfl⟩)))))
    | iif_one a b hy =>
      exact Or.inr (Or.inr (Or.inr (Or.inr (Or.inr (Or.inr (Or.inl ⟨a, b, _, rfl, hy, rfl⟩))))))
    | iif_zero b _ hy =>
      exact Or.inr (Or.inr (Or.inr (Or.inr (Or.inr (Or.inr (Or.inr ⟨b, a, _, rfl, hy, rfl⟩))))))

/-- No identity matches an instruction that does not reduce. -/
theorem apply_eq_none_iff :
    (∀ rule ∈ identities, rule.apply i = none) ↔ ∀ a, ¬ i.Reduces a := by
  constructor
  · intro h a hred
    obtain ⟨rule, hrule, happly⟩ := exists_apply_iff.mpr ⟨a, hred, rfl⟩
    rw [h rule hrule] at happly
    cases happly
  · intro h rule hrule
    cases happly : rule.apply i with
    | none => rfl
    | some i' =>
      obtain ⟨a, hred, -⟩ := exists_apply_iff.mp ⟨rule, hrule, happly⟩
      exact absurd hred (h a)

end Rule

/-! ## Simplified equations -/

/-- **What simplification does to an equation.**  It becomes an alias of what it reduces to, or it
stays and nothing matches it. -/
theorem Equation.simplify_cases (e : Equation α) :
    (∃ a, e.rhs.Reduces a ∧ e.simplifyWith Rule.identities = ⟨e.binder, .id, [a]⟩) ∨
    (e.simplifyWith Rule.identities = e ∧ ∀ a, ¬ e.rhs.Reduces a) := by
  unfold simplifyWith Rule.applyFirst
  cases hfirst : Rule.identities.findSome? (·.apply e.rhs) with
  | some rhs =>
    obtain ⟨rule, hrule, happly⟩ := List.exists_of_findSome?_eq_some hfirst
    obtain ⟨a, hred, rfl⟩ := Rule.exists_apply_iff.mp ⟨rule, hrule, happly⟩
    exact Or.inl ⟨a, hred, rfl⟩
  | none =>
    exact Or.inr ⟨rfl, Rule.apply_eq_none_iff.mp (List.findSome?_eq_none_iff.mp hfirst)⟩

end DualTrace
