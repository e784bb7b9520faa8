/-
# Derivatives of optimized traces

A trace is differentiated by replaying it on pairs of primals and tangents.  The identities of the
optimizer hold for pairs as they do for numbers, with one exception: a choice on the literal one is
its first alternative, but its tangent is chosen by the tangent of the literal, which is zero, and
so it is the tangent of the second.

* `Arithmetic.Exact` : the laws that numbers share with pairs;
* `Trace.Solved` : what the passes of the optimizer keep in a domain with these laws;
* `Trace.Solved.runRounds` : rounds keep the live part of a trace solved, whatever they make of dead
  equations;
* `Trace.WellFormed.optimize_solution` : the return atom stands for the same after optimization;
* `Trace.WellFormed.differentiate_eq` : the derivative of a trace in terms of its solution in pairs;
* `Trace.optimize_differentiate` : the optimizer keeps derivatives, as long as it meets live choices
  on one only between alternatives with the same tangent;
* `Trace.optimize_changes_derivative` : a trace on which it does not.
-/
import DualTrace.Proofs.LivePart
import DualTrace.Proofs.Solution
import Mathlib.Algebra.GroupWithZero.Basic

namespace DualTrace

variable {σ τ α B : Type}

/-! ## Laws -/

/-- A domain in which numbers compute as numbers, zero and one are neutral, zero is absorbing, and a
choice on zero is its second alternative. -/
structure Arithmetic.Exact [Scalar α] (D : Arithmetic α B) : Prop where
  num_congr : ∀ {x y : α}, (x == y) = true → D.num x = D.num y
  num_add : ∀ x y, D.add (D.num x) (D.num y) = D.num (x + y)
  num_mul : ∀ x y, D.mul (D.num x) (D.num y) = D.num (x * y)
  num_iif : ∀ c x y, D.iif (D.num c) (D.num x) (D.num y) =
    D.num (if Scalar.truthy c then x else y)
  add_zero : ∀ b, D.add b (D.num Scalar.zero) = b
  zero_add : ∀ b, D.add (D.num Scalar.zero) b = b
  mul_one : ∀ b, D.mul b (D.num Scalar.one) = b
  one_mul : ∀ b, D.mul (D.num Scalar.one) b = b
  mul_zero : ∀ b, D.mul b (D.num Scalar.zero) = D.num Scalar.zero
  zero_mul : ∀ b, D.mul (D.num Scalar.zero) b = D.num Scalar.zero
  iif_zero : ∀ b c, D.iif (D.num Scalar.zero) b c = c

namespace Arithmetic

/-- The numbers of a commutative ring are exact. -/
theorem exact_numbers [CommRing α] [DecidableEq α] : (numbers : Arithmetic α α).Exact where
  num_congr h := eq_of_beq h
  num_add _ _ := rfl
  num_mul _ _ := rfl
  num_iif _ _ _ := rfl
  add_zero b := by simp [numbers]
  zero_add b := by simp [numbers]
  mul_one b := by simp [numbers]
  one_mul b := by simp [numbers]
  mul_zero b := by simp [numbers]
  zero_mul b := by simp [numbers]
  iif_zero b c := by simp [numbers, Scalar.truthy]

variable [Scalar α] {D : Arithmetic α B}

/-- **Pairs over an exact domain are exact.** -/
theorem Exact.dual (h : D.Exact) : D.dual.Exact where
  num_congr hxy := by
    show D.constant _ = D.constant _
    rw [h.num_congr hxy]
  num_add x y := Prod.ext (h.num_add x y) (h.add_zero _)
  num_mul x y := by
    refine Prod.ext (h.num_mul x y) ?_
    show D.add (D.mul (D.num x) (D.num Scalar.zero)) (D.mul (D.num y) (D.num Scalar.zero)) = _
    rw [h.mul_zero, h.mul_zero, h.add_zero]
    rfl
  num_iif c x y := Prod.ext (h.num_iif c x y) (h.iif_zero _ _)
  add_zero b := by simp [Arithmetic.dual, constant, h.add_zero]
  zero_add b := by simp [Arithmetic.dual, constant, h.zero_add]
  mul_one b := by simp [Arithmetic.dual, constant, h.mul_one, h.mul_zero, h.one_mul, h.zero_add]
  one_mul b := by simp [Arithmetic.dual, constant, h.one_mul, h.mul_zero, h.add_zero]
  mul_zero b := by simp [Arithmetic.dual, constant, h.mul_zero, h.zero_mul, h.add_zero]
  zero_mul b := by simp [Arithmetic.dual, constant, h.mul_zero, h.zero_mul, h.add_zero]
  iif_zero b c := by simp [Arithmetic.dual, constant, h.iif_zero]

/-- Operations on numbers have numbers as results. -/
theorem Exact.eval?_num (h : D.Exact) {op : Op} {xs : List α} {y : α} (hy : op.eval? xs = some y) :
    D.eval? op (xs.map D.num) = some (D.num y) := by
  cases op <;> rcases xs with _ | ⟨a, _ | ⟨b, _ | ⟨c, _ | ⟨d, xs⟩⟩⟩⟩ <;> cases hy
  · exact congrArg some (h.num_add a b)
  · exact congrArg some (h.num_mul a b)
  · exact congrArg some (h.num_iif a b c)
  · rfl

end Arithmetic

/-! ## Equations -/

section Equations

variable {D : Arithmetic α B} {ρ : Register → B}

/-- An atom stands for the same after one hop, if each alias stands for the same as its register. -/
theorem Arithmetic.atom_redirect {aliases : Aliases α}
    (hal : ∀ r a, aliases.lookup r = some a → D.atom ρ a = ρ r) (a : Atom α) :
    D.atom ρ (aliases.redirect a) = D.atom ρ a := by
  rcases aliases.redirect_cases a with ⟨r, rfl, hr⟩ | ⟨heq, -⟩
  · exact hal r _ hr
  · rw [heq]

/-- Substitution keeps an equation solved. -/
theorem Equation.SolvedBy.resolve {e : Equation α} {aliases : Aliases α}
    (hal : ∀ r a, aliases.lookup r = some a → D.atom ρ a = ρ r) (he : e.SolvedBy D ρ) :
    (e.resolve aliases).SolvedBy D ρ := by
  cases halias : e.isAlias with
  | true =>
    rw [Equation.resolve_of_alias halias]
    exact he
  | false =>
    have hargs : (e.redirect aliases).rhs.args.map (D.atom ρ) = e.rhs.args.map (D.atom ρ) := by
      unfold Equation.redirect
      rw [List.map_map]
      exact List.map_congr_left fun a _ => Arithmetic.atom_redirect hal a
    rw [Equation.resolve_of_not_alias halias, Equation.SolvedBy, hargs]
    exact he

variable [Scalar α]

/-- Folding keeps an equation solved. -/
theorem Equation.SolvedBy.fold {e e' : Equation α} (h : D.Exact) (he : e.SolvedBy D ρ)
    (hfold : e.fold = .ok e') : e'.SolvedBy D ρ := by
  rcases Equation.fold_cases hfold with ⟨xs, x, hconst, hx, rfl⟩ | ⟨-, rfl⟩
  · have hargs : e.rhs.args.map (D.atom ρ) = xs.map D.num := by
      rw [(Equation.constants?_eq_some_iff.mp hconst).2, List.map_map]
      rfl
    rw [Equation.SolvedBy, hargs, h.eval?_num hx] at he
    exact Equation.solvedBy_alias_iff.mpr (Option.some.inj he)
  · exact he

/-- A choice on the literal one stands for its first alternative, if the equation makes one. -/
def Equation.ChoosesFirst (D : Arithmetic α B) (ρ : Register → B) (e : Equation α) : Prop :=
  ∀ x a b, e.rhs = ⟨.iif, [.lit x, a, b]⟩ → (x == Scalar.one) = true →
    D.iif (D.num Scalar.one) (D.atom ρ a) (D.atom ρ b) = D.atom ρ a

/-- What the right-hand side of an equation reduces to stands for the same as its binder. -/
theorem Equation.SolvedBy.atom_of_reduces {e : Equation α} (h : D.Exact) (he : e.SolvedBy D ρ)
    (hfirst : e.ChoosesFirst D ρ) {a : Atom α} (hred : e.rhs.Reduces a) :
    D.atom ρ a = ρ e.binder := by
  obtain ⟨r, op, args⟩ := e
  -- each identity is a law of the domain, except the one for choices on one
  have hnum : ∀ {x y : α}, (x == y) = true → D.atom ρ (.lit x) = D.num y := h.num_congr
  cases hred with
  | @add_zero a x hx =>
    have hr : D.add (D.atom ρ a) (D.atom ρ (.lit x)) = ρ r := Option.some.inj he
    rw [← hr, hnum hx, h.add_zero]
  | @zero_add a x hx =>
    have hr : D.add (D.atom ρ (.lit x)) (D.atom ρ a) = ρ r := Option.some.inj he
    rw [← hr, hnum hx, h.zero_add]
  | @mul_one a x hx =>
    have hr : D.mul (D.atom ρ a) (D.atom ρ (.lit x)) = ρ r := Option.some.inj he
    rw [← hr, hnum hx, h.mul_one]
  | @one_mul a x hx =>
    have hr : D.mul (D.atom ρ (.lit x)) (D.atom ρ a) = ρ r := Option.some.inj he
    rw [← hr, hnum hx, h.one_mul]
  | @mul_zero a x hx =>
    have hr : D.mul (D.atom ρ a) (D.atom ρ (.lit x)) = ρ r := Option.some.inj he
    rw [← hr, hnum hx, h.mul_zero]
    rfl
  | @zero_mul a x hx =>
    have hr : D.mul (D.atom ρ (.lit x)) (D.atom ρ a) = ρ r := Option.some.inj he
    rw [← hr, hnum hx, h.zero_mul]
    rfl
  | @iif_one a b x hx =>
    have hr : D.iif (D.atom ρ (.lit x)) (D.atom ρ a) (D.atom ρ b) = ρ r := Option.some.inj he
    rw [← hr, hnum hx, hfirst x a b rfl hx]
  | @iif_zero b _ x hx =>
    have hr : D.iif (D.atom ρ (.lit x)) (D.atom ρ b) (D.atom ρ a) = ρ r := Option.some.inj he
    rw [← hr, hnum hx, h.iif_zero]

/-- Simplification keeps an equation solved. -/
theorem Equation.SolvedBy.simplify {e : Equation α} (h : D.Exact) (he : e.SolvedBy D ρ)
    (hfirst : e.ChoosesFirst D ρ) : (e.simplifyWith Rule.identities).SolvedBy D ρ := by
  rcases e.simplify_cases with ⟨a, hred, heq⟩ | ⟨heq, -⟩
  · rw [heq, Equation.solvedBy_alias_iff]
    exact he.atom_of_reduces h hfirst hred
  · rw [heq]
    exact he

end Equations

/-! ## Traces -/

/-- A trace whose equations are solved, and whose return atom is as good as the atom `a`: it stands
for the same, and it is a literal only if `a` is this literal. -/
structure Trace.Solved (D : Arithmetic α B) (ρ : Register → B) (a : Atom α) (t : Trace α) :
    Prop where
  equations : ∀ e ∈ t.equations, e.SolvedBy D ρ
  ret : D.atom ρ t.ret = D.atom ρ a
  lit : t.ret.lit? = a.lit?

namespace Trace.Solved

variable {D : Arithmetic α B} {ρ : Register → B} {a : Atom α} {t t' : Trace α}

theorem resolveAliases (ht : t.Solved D ρ a) (hwf : t.WellFormed)
    (hrun : t.resolveAliases = .ok t') : t'.Solved D ρ a := by
  obtain ⟨aliases, hlookup, hret, hes⟩ := resolveAliases_eq_ok hwf.ordered hrun
  have hal : ∀ r b, aliases.lookup r = some b → D.atom ρ b = ρ r := fun r b hr =>
    Equation.solvedBy_alias_iff.mp (ht.equations _ ((hlookup r b).mp hr))
  refine ⟨fun e' he' => ?_, ?_, (lit?_of_redirectReturn hret).trans ht.lit⟩
  · rw [hes] at he'
    obtain ⟨e, he, rfl⟩ := List.mem_map.mp ((dropUnreadAliases_sublist _ _).subset he')
    exact (ht.equations e he).resolve hal
  · rw [eq_of_redirectReturn hret, Arithmetic.atom_redirect hal]
    exact ht.ret

theorem dropDead (ht : t.Solved D ρ a) : t.dropDead.Solved D ρ a :=
  ⟨fun e he => ht.equations e (sweepLive_sublist.subset he), ht.ret, ht.lit⟩

variable [Scalar α]

theorem foldConstants (h : D.Exact) (ht : t.Solved D ρ a) (hrun : t.foldConstants = .ok t') :
    t'.Solved D ρ a := by
  obtain ⟨es, hes, hrun⟩ := Check.bind_eq_ok.mp hrun
  cases hrun
  refine ⟨fun e' he' => ?_, ht.ret, ht.lit⟩
  obtain ⟨e, he, hfold⟩ := Check.exists_of_mapM_eq_ok hes he'
  exact (ht.equations e he).fold h hfold

theorem simplify (h : D.Exact) (ht : t.Solved D ρ a)
    (hfirst : ∀ e ∈ t.equations, e.ChoosesFirst D ρ) : t.simplify.Solved D ρ a := by
  refine ⟨fun e' he' => ?_, ht.ret, ht.lit⟩
  obtain ⟨e, he, rfl⟩ := List.mem_map.mp he'
  exact (ht.equations e he).simplify h (hfirst e he)

theorem folded {plan : Plan} (h : D.Exact) (ht : t.Solved D ρ a)
    (hfold : plan.folded t = .ok t') : t'.Solved D ρ a := by
  unfold Plan.folded at hfold
  split at hfold
  · exact ht.foldConstants h hfold
  · cases hfold
    exact ht

/-- A round keeps a trace solved. -/
theorem round {plan : Plan} (h : D.Exact) (ht : t.Solved D ρ a) (hwf : t.WellFormed)
    (hround : plan.Round t t')
    (hfirst : ∀ u, plan.folded t = .ok u → ∀ e ∈ u.equations, e.ChoosesFirst D ρ) :
    t'.Solved D ρ a := by
  obtain ⟨u, hfold, hresolve, -⟩ := hround
  have hu : u.WellFormed := (hfold ▸ Plan.trims_folded hwf).trimOf.wellFormed
  exact ((ht.folded h hfold).simplify h (hfirst u hfold)).resolveAliases hu.simplify.wellFormed
    hresolve

/-- A round keeps the live part of a trace solved, if the live choices on one make their first
alternatives.  What the round makes of dead equations does not matter. -/
theorem round_dropDead {plan : Plan} (h : D.Exact) (ht : t.dropDead.Solved D ρ a)
    (hwf : t.WellFormed) (hround : plan.Round t t')
    (hfirst : ∀ u, plan.folded t = .ok u → ∀ e ∈ u.dropDead.equations, e.ChoosesFirst D ρ) :
    t'.dropDead.Solved D ρ a := by
  have ⟨u, hfold, _⟩ := hround
  obtain ⟨s, hs, hlive⟩ := hround.exists_dropDead hwf
  -- the round on the live part begins with the live part of the folded trace
  have hsolved : s.Solved D ρ a := by
    refine ht.round h hwf.dropDead hs fun v hv => ?_
    cases hv.symm.trans (Plan.folded_dropDead hfold)
    exact hfirst u hfold
  exact hlive ▸ hsolved.dropDead

end Trace.Solved

/-! ## The optimizer -/

/-- A trace that some round of a plan simplifies. -/
def Plan.Simplifies [Scalar α] (plan : Plan) (t u : Trace α) : Prop :=
  ∃ i < plan.rounds, ∃ s, plan.runRounds Pass.apply i 0 t = .ok s ∧ plan.folded s = .ok u

section Optimize

variable [Scalar α] {D : Arithmetic α B} {ρ : Register → B} {a : Atom α} {plan : Plan}
  {t t' : Trace α}

/-- **Rounds keep the live part of a trace solved.** -/
theorem Trace.Solved.runRounds (h : D.Exact) (ht : t.dropDead.Solved D ρ a) (hwf : t.WellFormed)
    (hfirst : ∀ u, plan.Simplifies t u → ∀ e ∈ u.dropDead.equations, e.ChoosesFirst D ρ)
    {count : Nat} (hcount : count ≤ plan.rounds) {u : Trace α}
    (hrun : plan.runRounds Pass.apply count 0 t = .ok u) : u.dropDead.Solved D ρ a := by
  induction count generalizing u with
  | zero =>
    cases hrun
    exact ht
  | succ count ih =>
    obtain ⟨s, hs, hlast⟩ := Plan.runRounds_add_eq_ok.mp hrun
    obtain ⟨u', hround, hu'⟩ := Plan.runRounds_succ_eq_ok.mp hlast
    cases hu'
    have hswf : s.WellFormed := (hs ▸ Plan.trims_runRounds hwf count 0).trimOf.wellFormed
    exact (ih (Nat.le_of_succ_le hcount) hs).round_dropDead h hswf hround
      fun v hv => hfirst v ⟨count, hcount, s, hs, hv⟩

/-- **The optimizer keeps the live part of a trace solved.** -/
theorem Trace.Solved.optimize (h : D.Exact) (ht : t.dropDead.Solved D ρ a) (hwf : t.WellFormed)
    (hfirst : ∀ u, plan.Simplifies t u → ∀ e ∈ u.dropDead.equations, e.ChoosesFirst D ρ)
    (hopt : Trace.optimize plan t = .ok t') : t'.dropDead.Solved D ρ a := by
  obtain ⟨u, hrun, rfl⟩ := Trace.optimize_eq_ok.mp hopt
  have hu := ht.runRounds h hwf hfirst (Nat.le_refl _) hrun
  split
  · rw [Trace.dropDead_dropDead]
    exact hu
  · exact hu

/-- **The return atom stands for the same after optimization.**  Dead equations may have other
solutions than before, but live ones have not. -/
theorem Trace.WellFormed.optimize_solution (h : D.Exact) (hwf : t.WellFormed) {bs : List B}
    (hfirst : ∀ u, plan.Simplifies t u → ∀ e ∈ u.dropDead.equations,
      e.ChoosesFirst D (t.solution D bs))
    (hopt : Trace.optimize plan t = .ok t') :
    D.atom (t'.solution D bs) t'.ret = D.atom (t.solution D bs) t.ret ∧
      t'.ret.lit? = t.ret.lit? := by
  have htrim : t'.TrimOf t := (hopt ▸ Plan.trims_optimize hwf).trimOf
  have hwf' := htrim.wellFormed
  have hsolved : t.Solved D (t.solution D bs) t.ret := ⟨hwf.solvedBy_solution bs, rfl, rfl⟩
  have hlive : t'.dropDead.Solved D (t.solution D bs) t.ret :=
    hsolved.dropDead.optimize h hwf hfirst hopt
  have hlive' : ∀ e ∈ t'.dropDead.equations, e.SolvedBy D (t'.solution D bs) :=
    fun e he => hwf'.solvedBy_solution bs e (sweepLive_sublist.subset he)
  have hparams : ∀ r ∈ t'.params, t'.solution D bs r = t.solution D bs r := by
    intro r hr
    have hr' : r ∈ t.params := htrim.params ▸ hr
    rw [hwf'.solution_of_mem_params hr, hwf.solution_of_mem_params hr', htrim.params]
  have hret := hwf'.dropDead.atom_ret_eq hlive' hlive.equations hparams
  exact ⟨hret.trans hlive.ret, hlive.lit⟩

end Optimize

/-! ## Differentiation -/

section Differentiate

variable [Scalar α]

/-- The derivative at numbers is the number that the derivative evaluates to. -/
theorem Computation.differentiate_eq (c : Computation α) {xs ts : List α}
    (hlen : xs.length = ts.length) :
    (c.differentiate xs ts : Run σ α α) = (c.jvp (ts.map Value.num)).evaluate xs := by
  unfold differentiate
  rw [if_neg (by simp [hlen])]

/-- **The derivative of a trace is the tangent of its return atom.**  If the return atom is a
literal, the derivative is refused, because the drive completes with a number. -/
theorem Trace.WellFormed.differentiate_eq {t : Trace α} (h : t.WellFormed) {xs ts : List α}
    (hxs : xs.length = t.params.length) (hts : ts.length = t.params.length)
    {ρ : Register → α × α} (hes : ∀ e ∈ t.equations, e.SolvedBy Arithmetic.numbers.dual ρ)
    (hparams : ∀ p ∈ t.params.zip (xs.zip ts), ρ p.1 = p.2) (m : Machine σ α) :
    Run.result (t.computation.differentiate xs ts) m =
      match t.ret with
      | .reg r => .ok (ρ r).2
      | .lit x => .error (.plainResult ⟨m.session.nextTag⟩ (.num x)) := by
  let tag : Tag := ⟨m.session.nextTag⟩
  let args := List.zipWith (Value.lift tag) (xs.map Value.num) (ts.map Value.num)
  let m₁ : Machine σ α := { m with session := m.session.mintTag.2 }
  have hsound := Meaning.sound_numbers (α := α) m.session.nextTag
  -- the drive runs the trace on pairs, each an argument with its seed
  have hargs : (Meaning.numbers.dual tag).All args (xs.zip ts) :=
    hsound.all_lift (Nat.le_refl _) (Meaning.all_numbers.mpr rfl) (Meaning.all_numbers.mpr rfl)
  have hlen : args.length = t.params.length := by simp [args, hxs, hts]
  obtain ⟨v, m', hv, hpair⟩ := h.run_carried hlen (hsound.dual (Nat.le_refl _)).num
    (Driver.carries_direct.forward tag) (h.standFor_bind hlen hargs hparams) hes m₁
  have howned : ∀ w ∈ args, w.OwnedBy tag := by
    intro w hw
    rw [show args = _ from List.map_uncurry_zip_eq_zipWith.symm] at hw
    obtain ⟨p, -, rfl⟩ := List.mem_map.mp hw
    exact Value.ownedBy_lift tag p.1 p.2
  have hcompletes := Trace.computation_gives (Driver.forward_gives Driver.direct tag) howned m₁ v m'
    hv
  have hjvp : (t.computation.jvp (ts.map Value.num)).run Driver.direct (xs.map Value.num) m =
      Run.ofExcept (v.tangentOf tag) m' := by
    rw [Computation.jvp_apply _ (by simp [hxs, hts]), Run.bind_apply, hv]
  rw [Computation.differentiate_eq _ (hxs.trans hts.symm)]
  unfold Run.result Computation.evaluate
  rw [Run.bind_apply, hjvp]
  rcases hcompletes with ⟨x, hret, rfl⟩ | ⟨r, hret, hv⟩
  · rw [hret]
    rfl
  · obtain ⟨p, d, rfl⟩ := Value.ownedBy_iff_exists.mp hv
    rw [hret] at hpair ⊢
    have htangent : (Value.dual tag p d).tangentOf tag = .ok d := if_pos rfl
    have hd := Meaning.numbers_eq_some.mp (Meaning.of_tangentOf hpair htangent)
    rw [htangent, hd]
    rfl

/-- The tangent of an atom of a trace at the numbers `xs` along the numbers `ts`. -/
def Trace.tangent (t : Trace α) (xs ts : List α) (a : Atom α) : α :=
  (Arithmetic.numbers.dual.atom (t.solution Arithmetic.numbers.dual (xs.zip ts)) a).2

end Differentiate

/-- Two outcomes that are the same number, or of which each is a broken rule of structure. -/
def SameOutcome (x y : Except (Error α) α) : Prop :=
  (∃ z, x = .ok z ∧ y = .ok z) ∨
    ∃ e e', x = .error e ∧ y = .error e' ∧ e.kind = .invariant ∧ e'.kind = .invariant

section Exact

variable [CommRing α] [DecidableEq α]

/-- A choice between alternatives with the same tangent is the first alternative, on the literal
one. -/
theorem Arithmetic.iif_one_eq {x y : α × α} (h : x.2 = y.2) :
    (numbers.dual : Arithmetic α (α × α)).iif (numbers.dual.num Scalar.one) x y = x := by
  refine Prod.ext ?_ ?_
  · -- one differs from zero, unless all numbers are the same
    by_cases hone : (1 : α) = 0
    · exact eq_of_zero_eq_one hone.symm _ _
    · simp [dual, constant, numbers, Scalar.truthy, hone]
  · simp [dual, constant, numbers, Scalar.truthy, h]

/-- **The optimizer keeps derivatives.**  Take a trace that passes the check, a plan that leads to
another trace, numbers for the parameters and a seed for each.  Wherever a round simplifies a choice
on the literal one that the return atom depends on, let both alternatives have the same tangent.
Then both traces have the same derivative, or both return a literal and are refused. -/
theorem Trace.optimize_differentiate {t t' : Trace α} {plan : Plan} (hcheck : t.check = .ok ())
    (hopt : Trace.optimize plan t = .ok t') {xs ts : List α} (hxs : xs.length = t.params.length)
    (hts : ts.length = t.params.length)
    (hchoice : ∀ u, plan.Simplifies t u → ∀ e ∈ u.dropDead.equations, ∀ a b,
      e.rhs = ⟨.iif, [.lit 1, a, b]⟩ → t.tangent xs ts a = t.tangent xs ts b)
    (m : Machine σ α) (m' : Machine τ α) :
    SameOutcome (Run.result (t'.computation.differentiate xs ts) m')
      (Run.result (t.computation.differentiate xs ts) m) := by
  have hwf := check_eq_ok_iff.mp hcheck
  have htrim : t'.TrimOf t := (hopt ▸ Plan.trims_optimize hwf).trimOf
  have hwf' := htrim.wellFormed
  let ρ := t.solution Arithmetic.numbers.dual (xs.zip ts)
  let ρ' := t'.solution Arithmetic.numbers.dual (xs.zip ts)
  have hfirst : ∀ u, plan.Simplifies t u → ∀ e ∈ u.dropDead.equations,
      e.ChoosesFirst Arithmetic.numbers.dual ρ := by
    intro u hu e he x a b hrhs hx
    rw [eq_of_beq hx, Scalar.one_eq] at hrhs
    exact Arithmetic.iif_one_eq (hchoice u hu e he a b hrhs)
  obtain ⟨hret, hlit⟩ := hwf.optimize_solution Arithmetic.exact_numbers.dual hfirst hopt
  have heq := hwf.differentiate_eq hxs hts (hwf.solvedBy_solution _)
    (fun p hp => hwf.solution_param hp) m
  have heq' := hwf'.differentiate_eq (by rw [htrim.params, hxs]) (by rw [htrim.params, hts])
    (hwf'.solvedBy_solution _) (fun p hp => hwf'.solution_param hp) m'
  rw [heq, heq']
  cases ht : t.ret with
  | lit x =>
    cases ht' : t'.ret with
    | lit x' => exact Or.inr ⟨_, _, rfl, rfl, rfl, rfl⟩
    | reg r' => rw [ht, ht'] at hlit; cases hlit
  | reg r =>
    cases ht' : t'.ret with
    | lit x' => rw [ht, ht'] at hlit; cases hlit
    | reg r' =>
      rw [ht, ht'] at hret
      have hr : ρ' r' = ρ r := hret
      exact Or.inl ⟨(ρ r).2, congrArg (fun z : α × α => Except.ok z.2) hr, rfl⟩

end Exact

/-- The trace of a choice on one between `x * x` and `x * x + 5`.  Behind it stands another choice
on one, between `x` and `x * x`, which nobody needs. -/
def shiftedChoice : Trace Int :=
  let x : Register := ⟨0, 0, .param⟩
  let v (i : UInt32) : Register := ⟨0, i, .result⟩
  { params := [x]
    equations := [⟨v 1, .mul, [.reg x, .reg x]⟩, ⟨v 2, .add, [.reg (v 1), .lit 5]⟩,
      ⟨v 3, .iif, [.lit 1, .reg (v 1), .reg (v 2)]⟩, ⟨v 4, .iif, [.lit 1, .reg x, .reg (v 1)]⟩]
    ret := .reg (v 3) }

/-- At three the alternatives of the choice that `shiftedChoice` returns both have the tangent six,
and those of the dead choice have the tangents one and six.  The round that puts the first
alternatives in the place of the choices keeps the derivative. -/
theorem Trace.optimize_differentiate_shiftedChoice :
    shiftedChoice.check = .ok () ∧ ∃ t', Trace.optimize {} shiftedChoice = .ok t' ∧
      t'.ret = .reg ⟨0, 1, .result⟩ ∧
      shiftedChoice.tangent [3] [1] (.reg ⟨0, 0, .param⟩) = 1 ∧
      shiftedChoice.tangent [3] [1] (.reg ⟨0, 1, .result⟩) = 6 ∧
      Run.result (shiftedChoice.computation.differentiate [3] [1])
        (⟨(), {}⟩ : Machine Unit Int) = .ok 6 ∧
      SameOutcome
        (Run.result (t'.computation.differentiate [3] [1]) (⟨(), {}⟩ : Machine Unit Int))
        (Run.result (shiftedChoice.computation.differentiate [3] [1])
          (⟨(), {}⟩ : Machine Unit Int)) := by
  have hopt : Trace.optimize {} shiftedChoice =
      .ok ⟨shiftedChoice.params, shiftedChoice.equations.take 2, .reg ⟨0, 1, .result⟩⟩ := rfl
  refine ⟨rfl, _, hopt, rfl, rfl, rfl, rfl, ?_⟩
  refine Trace.optimize_differentiate rfl hopt rfl rfl ?_ _ _
  -- the only round begins with the trace itself
  rintro u ⟨i, hi, s, hs, hu⟩ e he a b hrhs
  obtain rfl : i = 0 := Nat.lt_one_iff.mp hi
  cases hs
  cases hu
  have hlive : e ∈ shiftedChoice.equations.take 3 := he
  simp only [shiftedChoice, List.take_succ_cons, List.take_zero, List.mem_cons,
    List.not_mem_nil, or_false] at hlive
  rcases hlive with rfl | rfl | rfl
  · cases hrhs
  · cases hrhs
  · cases hrhs
    rfl

/-- The trace of a choice on one between `x * x` and `x`. -/
def squareChoice : Trace Int :=
  let x : Register := ⟨0, 0, .param⟩
  let v (i : UInt32) : Register := ⟨0, i, .result⟩
  { params := [x]
    equations := [⟨v 1, .mul, [.reg x, .reg x]⟩, ⟨v 2, .iif, [.lit 1, .reg (v 1), .reg x]⟩]
    ret := .reg (v 2) }

/-- **The optimizer does not keep every derivative.**  The choice of `squareChoice` is `x * x`, but
the tangent of its condition is zero, so its derivative is that of `x`.  A round puts `x * x` in its
place, whose derivative at three is six. -/
theorem Trace.optimize_changes_derivative :
    squareChoice.check = .ok () ∧ ∃ t', Trace.optimize {} squareChoice = .ok t' ∧
      Run.result (squareChoice.computation.differentiate [3] [1])
        (⟨(), {}⟩ : Machine Unit Int) = .ok 1 ∧
      Run.result (t'.computation.differentiate [3] [1])
        (⟨(), {}⟩ : Machine Unit Int) = .ok 6 :=
  ⟨rfl, _, rfl, rfl, rfl⟩

end DualTrace
