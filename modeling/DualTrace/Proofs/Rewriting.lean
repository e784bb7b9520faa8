/-
# Sound tables of rules

A table of rules may be anyone's: its patterns may overlap and ask for one operand twice, and what a
rule makes of an instruction may have another operation.  All that a simplification needs is that
each rule by itself is sound.

* `Rule.Sound` : a rule that keeps the number that an instruction computes, whatever the registers
  stand for;
* `Rule.mem_args_of_apply` : what a rule puts in place reads no other registers;
* `Trace.simplifyWith_sound` : simplifying a trace with sound rules keeps it well formed and keeps
  its value.
-/
import DualTrace.Proofs.Exact
import DualTrace.Proofs.Valuation
import DualTrace.Trace.Simplify
import Mathlib.Algebra.Ring.Int.Defs

namespace DualTrace

variable {σ α : Type} [Scalar α]

/-! ## What a rule puts in place -/

/-- A captured operand was captured before or is the operand that is matched. -/
theorem Pattern.capture?_eq_some {captures captures' : Captures α} {p : Pattern α} {a : Atom α}
    (h : p.capture? captures a = some captures') :
    ∀ c ∈ captures', c ∈ captures ∨ c.2 = a := by
  have hsame : some captures = some captures' → ∀ c ∈ captures', c ∈ captures ∨ c.2 = a := by
    intro heq c hc
    rw [Option.some.injEq] at heq
    exact Or.inl (heq ▸ hc)
  cases p with
  | any => exact hsame h
  | lit x =>
    cases a with
    | reg r => cases h
    | lit y =>
      by_cases hy : (y == x) = true
      · exact hsame (by simpa [capture?, hy] using h)
      · simp [capture?, hy] at h
  | bind slot =>
    rw [capture?] at h
    cases hslot : captures.lookup slot with
    | some b =>
      by_cases hb : (b == a) = true
      · exact hsame (by simpa [hslot, hb] using h)
      · simp [hslot, hb] at h
    | none =>
      rw [hslot] at h
      cases h
      intro c hc
      rcases List.mem_cons.mp hc with rfl | hc
      · exact Or.inr rfl
      · exact Or.inl hc

/-- A captured operand was captured before or is one of the operands that are matched. -/
theorem Pattern.captureAll?_eq_some {captures' : Captures α} {ps : List (Pattern α)} :
    ∀ {captures : Captures α} {as : List (Atom α)}, captureAll? captures ps as = some captures' →
      ∀ c ∈ captures', c ∈ captures ∨ c.2 ∈ as := by
  induction ps with
  | nil =>
    intro captures as h c hc
    cases as with
    | nil => cases h; exact Or.inl hc
    | cons a as => cases h
  | cons p ps ih =>
    intro captures as h c hc
    cases as with
    | nil => cases h
    | cons a as =>
      obtain ⟨captures₁, hfirst, hrest⟩ := Option.bind_eq_some_iff.mp h
      rcases ih hrest c hc with hc | hc
      · refine (capture?_eq_some hfirst c hc).imp_right fun heq => ?_
        rw [heq]
        exact List.mem_cons_self
      · exact Or.inr (List.mem_cons_of_mem _ hc)

omit [Scalar α] in
/-- Templates are filled in one by one. -/
theorem Template.mapM_fill?_eq_some {captures : Captures α} {ts : List (Template α)} :
    ∀ {as : List (Atom α)}, ts.mapM (Template.fill? captures) = some as ↔
      List.Forall₂ (fun t a => t.fill? captures = some a) ts as := by
  induction ts with
  | nil =>
    intro as
    rw [List.mapM_nil, List.forall₂_nil_left_iff]
    exact Option.some_inj.trans eq_comm
  | cons t ts ih =>
    intro as
    simp only [List.mapM_cons, Option.bind_eq_bind, Option.bind_eq_some_iff, Option.pure_def,
      Option.some.injEq, List.forall₂_cons_left_iff, ← ih, @eq_comm _ _ as, exists_and_left]

omit [Scalar α] in
/-- What is filled in for a list of templates is filled in for one of them. -/
theorem Template.exists_of_mapM_fill? {captures : Captures α} {ts : List (Template α)}
    {as : List (Atom α)} (h : ts.mapM (Template.fill? captures) = some as) :
    ∀ a ∈ as, ∃ t ∈ ts, t.fill? captures = some a := by
  have hfilled := mapM_fill?_eq_some.mp h
  intro a ha
  obtain ⟨k, hk, rfl⟩ := List.getElem_of_mem ha
  exact ⟨ts.get ⟨k, hfilled.length_eq ▸ hk⟩, List.get_mem _ _, hfilled.get _ hk⟩

namespace Rule

variable {rule : Rule α} {i i' : Instruction (Atom α)}

/-- What it takes for a rule to apply. -/
theorem apply_eq_some : rule.apply i = some i' ↔
    i.op = rule.source ∧ i'.op = rule.target ∧
      ∃ captures, Pattern.captureAll? [] rule.pattern i.args = some captures ∧
        rule.template.mapM (Template.fill? captures) = some i'.args := by
  obtain ⟨op', args'⟩ := i'
  unfold apply
  by_cases hop : i.op = rule.source
  · simp only [hop, if_true, Option.bind_eq_bind, Option.bind_eq_some_iff, Option.pure_def,
      Option.some.injEq, Instruction.mk.injEq, true_and]
    constructor
    · rintro ⟨captures, hcaptures, args, hargs, rfl, rfl⟩
      exact ⟨rfl, captures, hcaptures, hargs⟩
    · rintro ⟨rfl, captures, hcaptures, hargs⟩
      exact ⟨captures, hcaptures, _, hargs, rfl, rfl⟩
  · simp [hop]

/-- **A rule introduces no register.**  What it puts in place has literals and operands of the
instruction that it matches. -/
theorem mem_args_of_apply (h : rule.apply i = some i') :
    ∀ a ∈ i'.args, (∃ x, a = .lit x) ∨ a ∈ i.args := by
  obtain ⟨-, -, captures, hcaptures, hargs⟩ := apply_eq_some.mp h
  intro a ha
  obtain ⟨t, -, hfill⟩ := Template.exists_of_mapM_fill? hargs a ha
  cases t with
  | lit x => cases hfill; exact Or.inl ⟨x, rfl⟩
  | capture slot =>
    obtain ⟨pre, post, heq, -⟩ := List.lookup_eq_some_iff.mp hfill
    have hmem : (slot, a) ∈ captures := heq ▸ List.mem_append_right _ List.mem_cons_self
    rcases Pattern.captureAll?_eq_some hcaptures _ hmem with hmem | hmem
    · cases hmem
    · exact Or.inr hmem

/-- A rule is sound if it keeps the number that an instruction computes.  Whatever numbers the
registers stand for, what it makes of an instruction with as many operands as the operation takes
has a result, and it is the result of the instruction. -/
def Sound (rule : Rule α) : Prop :=
  ∀ i i' : Instruction (Atom α), i.args.length = i.op.arity → rule.apply i = some i' →
    ∀ ρ : Valuation α, ∃ x, i'.op.eval? (i'.args.map ρ.value) = some x ∧
      i.op.eval? (i.args.map ρ.value) = some x

/-- The first replacement that a table offers comes from one of its rules. -/
theorem exists_of_applyFirst {rules : List (Rule α)} (h : applyFirst rules i = some i') :
    ∃ rule ∈ rules, rule.apply i = some i' := List.exists_of_findSome?_eq_some h

end Rule

/-! ## Equations -/

section Sound

variable {rules : List (Rule α)} (hrules : ∀ rule ∈ rules, rule.Sound)

include hrules

/-- An equation that is simplified with sound rules fits in its place. -/
theorem Equation.standsInFor_simplifyWith (e : Equation α) :
    (e.simplifyWith rules).StandsInFor e := by
  unfold simplifyWith
  cases hfirst : Rule.applyFirst rules e.rhs with
  | none => exact .refl e
  | some rhs =>
    obtain ⟨rule, hrule, happly⟩ := Rule.exists_of_applyFirst hfirst
    refine ⟨rfl, fun bound hplaced => hplaced.of_reads rfl ?_ fun r hr => ?_⟩
    · obtain ⟨x, hx, -⟩ := hrules rule hrule e.rhs rhs hplaced.arity happly fun _ => Scalar.zero
      have hcount := (Op.isSome_eval? _ _).mp (Option.isSome_of_eq_some hx)
      rwa [List.length_map] at hcount
    · rcases Rule.mem_args_of_apply happly _ (Equation.mem_reads.mp hr) with ⟨x, hx⟩ | hmem
      · cases hx
      · exact hplaced.reads r (Equation.mem_reads.mpr hmem)

/-- An equation that holds still does when it is simplified with sound rules. -/
theorem Equation.Holds.simplifyWith {ρ : Valuation α} {e : Equation α}
    (harity : e.rhs.args.length = e.rhs.op.arity) (h : e.Holds ρ) :
    (e.simplifyWith rules).Holds ρ := by
  unfold Equation.simplifyWith
  cases hfirst : Rule.applyFirst rules e.rhs with
  | none => exact h
  | some rhs =>
    obtain ⟨rule, hrule, happly⟩ := Rule.exists_of_applyFirst hfirst
    obtain ⟨x, hnew, hold⟩ := hrules rule hrule e.rhs rhs harity happly ρ
    unfold Equation.Holds at h ⊢
    rw [hold] at h
    exact hnew.trans h

/-! ## Traces -/

namespace Trace

/-- Simplification with sound rules binds the same registers. -/
theorem binders_simplifyWith (t : Trace α) :
    binders (t.simplifyWith rules).equations = binders t.equations := by
  refine binders_of_forall₂ (List.forall₂_map_right_iff.mpr (List.forall₂_same.mpr ?_))
  exact fun e _ => e.standsInFor_simplifyWith hrules

/-- A well-formed trace stays well formed when it is simplified with sound rules. -/
theorem WellFormed.simplifyWith {t : Trace α} (h : t.WellFormed) :
    (t.simplifyWith rules).WellFormed where
  params := h.params
  ordered := by
    refine h.ordered.of_forall₂ (List.forall₂_map_right_iff.mpr (List.forall₂_same.mpr ?_))
    exact fun e _ => e.standsInFor_simplifyWith hrules
  ret := by
    rw [binders_simplifyWith hrules]
    exact h.ret

/-- A well-formed trace keeps its value when it is simplified with sound rules: the valuation that
it computes still solves all equations. -/
theorem WellFormed.evaluate_simplifyWith {t : Trace α} (h : t.WellFormed) {args : List α}
    (hlen : args.length = t.params.length) (m : Machine σ α) :
    (t.simplifyWith rules).computation.evaluate args m =
      .ok ((t.valuation args).value t.ret) m := by
  have hes : ∀ e ∈ (t.simplifyWith rules).equations,
      e.Follows Eq (t.valuation args) ∧ ∀ x, .lit x ∈ e.rhs.args → x = x := by
    intro e' he'
    obtain ⟨e, he, rfl⟩ := List.mem_map.mp he'
    exact ⟨((h.holds args e he).simplifyWith hrules (h.ordered.arity he)).follows, fun _ _ => rfl⟩
  obtain ⟨x, hx, rfl⟩ := (h.simplifyWith hrules).evaluate_near hlen (h.near_params hlen) hes
    (fun _ _ => rfl) m
  exact hx

/-- **Sound rules make a sound simplification, whatever the table.**  Simplified with sound rules, a
trace that passes the check passes it again, with the same parameters, the same binders in the same
order and the same return atom, and it evaluates to the same number at all arguments. -/
theorem simplifyWith_sound {t : Trace α} (hcheck : t.check = .ok ()) :
    (t.simplifyWith rules).check = .ok () ∧
      (t.simplifyWith rules).params = t.params ∧
      binders (t.simplifyWith rules).equations = binders t.equations ∧
      (t.simplifyWith rules).ret = t.ret ∧
      ∀ {σ : Type} (args : List α) (m : Machine σ α), args.length = t.params.length →
        ∃ x, Run.result ((t.simplifyWith rules).computation.evaluate args) m = .ok x ∧
          Run.result (t.computation.evaluate args) m = .ok x := by
  have hwf := check_eq_ok_iff.mp hcheck
  refine ⟨check_eq_ok_iff.mpr (hwf.simplifyWith hrules), rfl, binders_simplifyWith hrules t, rfl,
    fun args m hlen => ⟨(t.valuation args).value t.ret, ?_, ?_⟩⟩
  · exact Run.result_eq_ok.mpr ⟨m, hwf.evaluate_simplifyWith hrules hlen m⟩
  · exact Run.result_eq_ok.mpr ⟨m, hwf.evaluate_eq hlen m⟩

end Trace

end Sound

/-- Three rules for whole numbers.  One asks for an operand twice and makes an instruction of
another operation, and two overlap. -/
def tidyRules : List (Rule Int) :=
  [ -- a sum of equal operands is a product with two
    ⟨.add, [.bind 3, .bind 3], .mul, [.capture 3, .lit 2]⟩,
    -- a product with zero
    ⟨.mul, [.any, .lit 0], .id, [.lit 0]⟩,
    -- the factors of a product in the other order
    ⟨.mul, [.bind 0, .bind 1], .mul, [.capture 1, .capture 0]⟩ ]

omit [Scalar α] in
/-- Operands that are equal by `==` are the same, if numbers are. -/
theorem Atom.eq_of_beq [BEq α] [LawfulBEq α] {a b : Atom α} (h : (a == b) = true) : a = b := by
  cases a with
  | lit x =>
    cases b with
    | lit y =>
      have hxy : (x == y) = true := h
      rw [LawfulBEq.eq_of_beq hxy]
    | reg s => cases h
  | reg r =>
    cases b with
    | lit y => cases h
    | reg s =>
      have hrs : (r == s) = true := h
      rw [LawfulBEq.eq_of_beq hrs]

/-- Each rule of `tidyRules` is sound. -/
theorem tidyRules_sound : ∀ rule ∈ tidyRules, rule.Sound := by
  intro rule hrule
  rintro ⟨op, args⟩ ⟨op', args'⟩ harity happly ρ
  obtain ⟨hop, hop', captures, hcaptures, hargs⟩ := Rule.apply_eq_some.mp happly
  simp only [tidyRules, List.mem_cons, List.not_mem_nil, or_false] at hrule
  rcases hrule with rfl | rfl | rfl <;> subst hop hop' <;>
    obtain ⟨a, b, rfl⟩ := List.length_eq_two.mp harity
  · -- the rule for a sum matches only if both operands are the same
    by_cases hab : (a == b) = true
    · simp only [Pattern.captureAll?, Pattern.capture?, List.lookup_nil, Option.bind_eq_bind,
        Option.bind_some, List.lookup_cons_self, hab, if_true, Option.some.injEq] at hcaptures
      subst hcaptures
      cases hargs
      refine ⟨ρ.value a * 2, rfl, ?_⟩
      rw [← Atom.eq_of_beq hab]
      exact congrArg some (mul_two _).symm
    · simp [Pattern.captureAll?, Pattern.capture?, hab] at hcaptures
  · cases b with
    | reg r => cases hcaptures
    | lit y =>
      by_cases hy : (y == 0) = true
      · cases hargs
        refine ⟨0, rfl, ?_⟩
        rw [LawfulBEq.eq_of_beq hy]
        exact congrArg some (mul_zero _)
      · simp [Pattern.captureAll?, Pattern.capture?, hy] at hcaptures
  · cases hcaptures
    cases hargs
    exact ⟨ρ.value b * ρ.value a, rfl, congrArg some (mul_comm _ _)⟩

/-- The trace of `(x + x) * y + y * 0`. -/
def untidyTrace : Trace Int :=
  let x (i : UInt32) : Register := ⟨0, i, .param⟩
  let v (i : UInt32) : Register := ⟨0, i, .result⟩
  { params := [x 0, x 1]
    equations := [⟨v 2, .add, [.reg (x 0), .reg (x 0)]⟩, ⟨v 3, .mul, [.reg (x 1), .lit 0]⟩,
      ⟨v 4, .mul, [.reg (v 2), .reg (x 1)]⟩, ⟨v 5, .add, [.reg (v 4), .reg (v 3)]⟩]
    ret := .reg (v 5) }

/-- All but the last equation of `untidyTrace` are replaced, and its value at five and seven is
seventy. -/
theorem Trace.simplifyWith_sound_untidyTrace :
    untidyTrace.matchCount tidyRules = 3 ∧
      ((untidyTrace.simplifyWith tidyRules).check : Except (Error Int) Unit) = .ok () ∧
      ∃ x, Run.result ((untidyTrace.simplifyWith tidyRules).computation.evaluate [5, 7])
          (⟨(), {}⟩ : Machine Unit Int) = .ok x ∧
        Run.result (untidyTrace.computation.evaluate [5, 7])
          (⟨(), {}⟩ : Machine Unit Int) = .ok x ∧ x = 70 := by
  obtain ⟨hcheck, -, -, -, hvalue⟩ :=
    Trace.simplifyWith_sound tidyRules_sound (t := untidyTrace) rfl
  obtain ⟨x, hnew, hold⟩ := hvalue [5, 7] (⟨(), {}⟩ : Machine Unit Int) rfl
  have hseventy : Run.result (untidyTrace.computation.evaluate [5, 7])
      (⟨(), {}⟩ : Machine Unit Int) = .ok 70 := rfl
  refine ⟨rfl, hcheck, x, hnew, hold, ?_⟩
  rw [hseventy] at hold
  exact (Except.ok.inj hold).symm

end DualTrace
