/-
# What the optimizer refuses

A round of a well-formed trace fails in one case only: after folding and simplification the return
register is an alias of a literal.  All rounds before it have kept the trace sound, so the literal
is the value of the trace at all arguments.

* `Plan.round_eq_error` : when a round fails;
* `Trace.Sound.literalReturn` : a round that fails of a trace that is sound for some value names
  this value;
* `Plan.runRounds_eq_error_of_le` : rounds that follow a failure change nothing;
* `Trace.optimize_refuses_constants` : only constant traces are refused.
-/
import DualTrace.Proofs.Passes
import DualTrace.Proofs.Preservation

namespace DualTrace

variable {α : Type} [Scalar α] {S : α → Prop} {ρ : Valuation α} {plan : Plan} {i : Nat}
variable {t : Trace α} {err : Error α}

/-! ## Rounds that fail -/

/-- **When a round fails.**  Of a well-formed trace it does so if and only if folding and
simplification leave the return register as an alias of a literal. -/
theorem Plan.round_eq_error (h : t.WellFormed) :
    (plan.round i).foldlM Pass.apply t = .error err ↔
      ∃ r x, err = .literalReturn r x ∧ t.ret = .reg r ∧
        ⟨r, .id, [.lit x]⟩ ∈ (t.rewrite plan.foldConstants).equations := by
  have hwf : (t.rewrite plan.foldConstants).WellFormed := h.trimOf_rewrite.wellFormed
  rw [Plan.foldlM_round_eq h, Trace.resolveAliases_eq_error hwf.ordered]
  exact Iff.rfl

/-- If folding and simplification leave the return register as an alias of a literal, this literal
is equal to the value for which the trace is sound. -/
theorem Trace.Sound.literalReturn {params : List Register} {folding : Bool} {r : Register}
    {x y : α} (h : Scalar.LawfulOn S) (hwf : t.WellFormed) (ht : t.Sound S ρ params y)
    (hret : t.ret = .reg r) (halias : ⟨r, .id, [.lit x]⟩ ∈ (t.rewrite folding).equations) :
    (y == x) = true := by
  have hrewrite : (t.rewrite folding).Sound S ρ params y := ht.rewrite h hwf.ordered
  obtain ⟨hx, -, hxr⟩ := Equation.sound_alias_iff.mp (hrewrite.equations _ halias)
  have hry : (ρ r == y) = true := by
    have hy := ht.ret
    rw [hret] at hy
    exact hy
  exact h.symm hx (h.trans hx hxr hry)

/-- Rounds that fail do so too when more of them are planned. -/
theorem Plan.runRounds_eq_error_of_le {count count' : Nat} (hle : count ≤ count')
    (h : plan.runRounds Pass.apply count i t = .error err) :
    plan.runRounds Pass.apply count' i t = .error err := by
  obtain ⟨more, rfl⟩ := Nat.exists_eq_add_of_le hle
  rw [runRounds_add, h]
  rfl

/-! ## The optimizer -/

/-- **The optimizer refuses only constant traces.**  Let a trace pass the check and let the
optimizer fail.  Then it has found that the return register is an alias of a literal, and wherever
arithmetic is lawful on the numbers that occur when the trace is evaluated, its value is equal to
this literal.  Planning more rounds leads to the same failure. -/
theorem Trace.optimize_refuses_constants (hcheck : t.check = .ok ())
    (hopt : Trace.optimize plan t = .error err) :
    ∃ r x, err = .literalReturn r x ∧
      (∀ (σ : Type) (S : α → Prop) (args : List α) (m : Machine σ α),
        args.length = t.params.length → (∀ y, t.Occurs args y → S y) → Scalar.LawfulOn S →
        ∃ y, Run.result (t.computation.evaluate args) m = .ok y ∧ (y == x) = true) ∧
      ∀ rounds, plan.rounds ≤ rounds →
        Trace.optimize { plan with rounds := rounds } t = .error err := by
  have hwf := Trace.check_eq_ok_iff.mp hcheck
  have hrounds := Trace.optimize_eq_error.mp hopt
  obtain ⟨k, u, hu, hround⟩ := Plan.exists_round_eq_error hrounds
  have hwfu : u.WellFormed := by
    have htrims : t.Trims (plan.runRounds Pass.apply k 0 t) := Plan.trims_runRounds hwf k 0
    rw [hu] at htrims
    exact htrims.trimOf.wellFormed
  obtain ⟨r, x, rfl, hret, halias⟩ := (Plan.round_eq_error hwfu).mp hround
  refine ⟨r, x, rfl, fun σ S args m hlen hoccurs h => ?_, fun rounds hle => ?_⟩
  · -- the rounds before the failure have kept the trace sound for its own valuation
    have hsound : u.Sound S (t.valuation args) t.params ((t.valuation args).value t.ret) :=
      Plan.runRounds_induct (k := 0)
        (P := fun _ u => u.Sound S (t.valuation args) t.params ((t.valuation args).value t.ret))
        (fun _ _ _ hP hround => hround.sound h hP) (hwf.sound h hlen hoccurs) hu
    refine ⟨(t.valuation args).value t.ret, ?_, hsound.literalReturn h hwfu hret halias⟩
    unfold Run.result
    rw [hwf.evaluate_eq hlen]
  · refine Trace.optimize_eq_error.mpr ?_
    have hsame : Plan.runRounds Pass.apply { plan with rounds := rounds } rounds 0 t =
        plan.runRounds Pass.apply rounds 0 t := Plan.runRounds_congr rfl
    rw [hsame]
    exact Plan.runRounds_eq_error_of_le hle hrounds

/-- The trace of `0 * x + 5`, whose value does not depend on `x`. -/
def constantTrace : Trace Int :=
  let x : Register := ⟨0, 0, .param⟩
  let v (i : UInt32) : Register := ⟨0, i, .result⟩
  { params := [x]
    equations := [⟨v 1, .mul, [.lit 0, .reg x]⟩, ⟨v 2, .add, [.reg (v 1), .lit 5]⟩]
    ret := .reg (v 2) }

/-- One round on `constantTrace` succeeds and the second one fails: by then the product is a
literal, so the sum is folded.  The trace has the refused value at seven, and with five rounds it is
refused as well. -/
theorem Trace.optimize_refuses_constants_constantTrace :
    (∃ t', Trace.optimize ⟨1, true, false⟩ constantTrace = .ok t') ∧
    Trace.optimize ⟨2, true, false⟩ constantTrace = .error (.literalReturn ⟨0, 2, .result⟩ 5) ∧
    (∃ y, Run.result (constantTrace.computation.evaluate [7]) (⟨(), {}⟩ : Machine Unit Int) =
      .ok y ∧ (y == 5) = true) ∧
    Trace.optimize ⟨5, true, false⟩ constantTrace = .error (.literalReturn ⟨0, 2, .result⟩ 5) := by
  have hopt : Trace.optimize ⟨2, true, false⟩ constantTrace =
      .error (.literalReturn ⟨0, 2, .result⟩ 5) := rfl
  obtain ⟨r, x, herr, hvalue, hmore⟩ := Trace.optimize_refuses_constants rfl hopt
  cases herr
  refine ⟨⟨_, rfl⟩, hopt, ?_, hmore 5 (by decide)⟩
  exact hvalue Unit (fun _ => True) [7] ⟨(), {}⟩ rfl (fun _ _ => trivial)
    Scalar.lawfulOn_of_commRing

end DualTrace
