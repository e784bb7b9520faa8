/-
# Folding is invisible to evaluation

A constant equation computes the same number whenever it is reached, so that an alias of the number
can stand in its place.  This takes no check: the trace may read what nothing binds, bind a register
twice, or have equations with a wrong number of operands, and evaluation meets the same error at the
same place.

* `Equation.compute` : what evaluation makes of an equation;
* `Equation.compute_of_fold` : a folded equation computes the same, and one that cannot be folded
  computes nothing;
* `Equation.Miscounted` : the equations that cannot be folded;
* `Trace.foldConstants_invisible` : a folded trace evaluates as the trace does, error for error.
-/
import DualTrace.Proofs.Exact
import DualTrace.Proofs.Rounds
import DualTrace.Proofs.Valuation
import Mathlib.Algebra.Ring.Int.Defs

namespace DualTrace

variable {σ α : Type} [Scalar α]

/-! ## Single equations -/

/-- An operation on numbers fails only when their count is wrong. -/
theorem Op.eval_eq_error_iff {op : Op} {xs : List α} {error : Error α} :
    op.eval xs = .error error ↔
      xs.length ≠ op.arity ∧ error = .wrongCount (.operands op) op.arity xs.length := by
  rw [Ne, ← Op.isSome_eval?]
  unfold Op.eval
  cases op.eval? xs <;> simp [eq_comm]

/-- The value that an equation computes from bindings, or the reason why there is none. -/
def Equation.compute (env : Bindings α) (e : Equation α) : Except (Error α) (Value α) :=
  e.rhs.mapM env.value >>= Instruction.evaluate

/-- An equation over literals computes what its operation makes of the numbers. -/
theorem Equation.compute_literals {e : Equation α} {xs : List α}
    (h : e.rhs.args = xs.map Atom.lit) (env : Bindings α) :
    e.compute env = (e.rhs.op.eval xs).map Value.num := by
  obtain ⟨r, op, args⟩ := e
  obtain rfl : args = xs.map Atom.lit := h
  have hargs : (xs.map Atom.lit).mapM env.value = .ok (xs.map Value.num) := by
    rw [Check.mapM_eq_ok, List.forall₂_map_left_iff, List.forall₂_map_right_iff]
    exact List.forall₂_same.mpr fun x _ => rfl
  have hrhs : (⟨op, xs.map Atom.lit⟩ : Instruction (Atom α)).mapM env.value =
      .ok ⟨op, xs.map Value.num⟩ := Check.bind_eq_ok.mpr ⟨_, hargs, rfl⟩
  unfold compute
  rw [hrhs]
  show Instruction.evaluate ⟨op, xs.map Value.num⟩ = (op.eval xs).map Value.num
  cases heval : (op.eval xs : Except (Error α) α) with
  | ok y => exact Instruction.evaluate_num (Op.eval_eq_ok.mp heval)
  | error error =>
    -- the count is wrong, and it is looked at first
    obtain ⟨hcount, rfl⟩ := Op.eval_eq_error_iff.mp heval
    have hcheck : (⟨op, xs.map Value.num⟩ : Instruction (Value α)).checkArity =
        (.error (.wrongCount (.operands op) op.arity xs.length) : Except (Error α) Unit) := by
      simp [Instruction.checkArity, Op.checkArity, hcount]
    exact Check.bind_eq_error.mpr (Or.inl hcheck)

/-- An equation cannot be folded if it is a constant one and its operation has no result. -/
theorem Equation.fold_eq_error_iff {e : Equation α} {error : Error α} :
    e.fold = .error error ↔
      ∃ xs, e.constants? = some xs ∧ e.rhs.op.eval xs = .error error := by
  unfold fold
  cases hconst : e.constants? with
  | none => exact ⟨nofun, nofun⟩
  | some xs =>
    constructor
    · intro h
      rcases Check.bind_eq_error.mp h with heval | ⟨x, -, h⟩
      · exact ⟨xs, rfl, heval⟩
      · cases h
    · rintro ⟨_, hxs, heval⟩
      cases hxs
      exact Check.bind_eq_error.mpr (Or.inl heval)

/-- **A folded equation computes the same from all bindings**, and an equation that cannot be folded
fails with the same error from all bindings. -/
theorem Equation.compute_of_fold (e : Equation α) (env : Bindings α) :
    (∀ e', e.fold = .ok e' → e'.binder = e.binder ∧ e'.compute env = e.compute env) ∧
      ∀ error, e.fold = .error error → e.compute env = .error error := by
  constructor
  · intro e' h
    rcases fold_cases h with ⟨xs, x, hconst, hx, rfl⟩ | ⟨-, rfl⟩
    · refine ⟨rfl, ?_⟩
      rw [compute_literals (constants?_eq_some_iff.mp hconst).2, Op.eval_eq_ok.mpr hx]
      have halias : (⟨e.binder, .id, [.lit x]⟩ : Equation α).rhs.args = [x].map Atom.lit := rfl
      exact compute_literals halias env
    · exact ⟨rfl, rfl⟩
  · intro error h
    obtain ⟨xs, hconst, heval⟩ := fold_eq_error_iff.mp h
    rw [compute_literals (constants?_eq_some_iff.mp hconst).2, heval]
    rfl

/-- An equation other than an alias whose operands are all literals, but not as many as its
operation takes. -/
def Equation.Miscounted (e : Equation α) : Prop :=
  e.rhs.op ≠ .id ∧ (∀ a ∈ e.rhs.args, ∃ x, a = .lit x) ∧ e.rhs.args.length ≠ e.rhs.op.arity

/-- The equations that cannot be folded are those with a wrong number of literals. -/
theorem Equation.exists_fold_eq_error_iff {e : Equation α} :
    (∃ error, e.fold = .error error) ↔ e.Miscounted := by
  constructor
  · rintro ⟨error, h⟩
    obtain ⟨xs, hconst, heval⟩ := fold_eq_error_iff.mp h
    obtain ⟨hop, hargs⟩ := constants?_eq_some_iff.mp hconst
    refine ⟨hop, fun a ha => ?_, ?_⟩
    · rw [hargs] at ha
      obtain ⟨x, -, rfl⟩ := List.mem_map.mp ha
      exact ⟨x, rfl⟩
    · rw [hargs, List.length_map]
      exact (Op.eval_eq_error_iff.mp heval).1
  · rintro ⟨hop, hlits, hcount⟩
    have hregs : ∀ r, Atom.reg r ∉ e.rhs.args := fun r hr => by
      obtain ⟨x, hx⟩ := hlits _ hr
      cases hx
    obtain ⟨xs, hargs⟩ := Atom.exists_lits hregs
    rw [hargs, List.length_map] at hcount
    exact ⟨_, fold_eq_error_iff.mpr
      ⟨xs, constants?_eq_some_iff.mpr ⟨hop, hargs⟩, Op.eval_eq_error_iff.mpr ⟨hcount, rfl⟩⟩⟩

/-- Folding leaves no constant equation. -/
theorem Equation.constants?_of_fold {e e' : Equation α} (h : e.fold = .ok e') :
    e'.constants? = none := by
  rcases fold_cases h with ⟨_, _, -, -, rfl⟩ | ⟨hconst, rfl⟩
  · rfl
  · exact hconst

/-! ## Traces -/

namespace Trace

variable {es es' : List (Equation α)}

/-- Evaluation computes one equation after the other. -/
theorem replayEquations_direct_cons (env : Bindings α) (e : Equation α) (es : List (Equation α)) :
    (replayEquations Driver.direct env (e :: es) : Run σ α (Bindings α)) =
      Run.ofExcept (e.compute env) >>= fun v =>
        replayEquations Driver.direct ((e.binder, v) :: env) es := by
  rw [replayEquations, Equation.compute]
  cases e.rhs.mapM env.value with
  | error error => rfl
  | ok i => rfl

/-- Folded equations are evaluated as the equations are. -/
theorem replayEquations_fold (h : List.Forall₂ (fun e e' => e.fold = .ok e') es es') :
    ∀ env : Bindings α, (replayEquations Driver.direct env es' : Run σ α (Bindings α)) =
      replayEquations Driver.direct env es := by
  induction h with
  | nil => exact fun _ => rfl
  | @cons e e' es es' he _ ih =>
    intro env
    obtain ⟨hbinder, hcompute⟩ := (e.compute_of_fold env).1 e' he
    rw [replayEquations_direct_cons, replayEquations_direct_cons, hcompute, hbinder]
    congr 1
    funext v
    exact ih _

/-- Folding keeps binders. -/
theorem binders_fold (h : List.Forall₂ (fun e e' => e.fold = .ok e') es es') :
    binders es' = binders es := by
  induction h with
  | nil => rfl
  | @cons e e' es es' he _ ih =>
    exact congrArg₂ List.cons ((e.compute_of_fold []).1 e' he).1 ih

/-- A trace is folded equation by equation. -/
theorem foldConstants_eq_ok {t t' : Trace α} : t.foldConstants = .ok t' ↔
    t'.params = t.params ∧ t'.ret = t.ret ∧
      List.Forall₂ (fun e e' => e.fold = .ok e') t.equations t'.equations := by
  obtain ⟨params', es', ret'⟩ := t'
  unfold foldConstants
  rw [Check.bind_eq_ok]
  constructor
  · rintro ⟨es, hes, h⟩
    cases h
    exact ⟨rfl, rfl, Check.mapM_eq_ok.mp hes⟩
  · rintro ⟨rfl, rfl, hes⟩
    exact ⟨es', Check.mapM_eq_ok.mpr hes, rfl⟩

/-- Folding fails where one of the equations cannot be folded. -/
theorem exists_foldConstants_eq_error_iff {t : Trace α} :
    (∃ error, t.foldConstants = .error error) ↔ ∃ e ∈ t.equations, e.Miscounted := by
  constructor
  · rintro ⟨error, h⟩
    rcases Check.bind_eq_error.mp h with h | ⟨_, -, h⟩
    · obtain ⟨e, he, h⟩ := Check.exists_of_mapM_eq_error h
      exact ⟨e, he, Equation.exists_fold_eq_error_iff.mp ⟨error, h⟩⟩
    · cases h
  · rintro ⟨e, he, hcount⟩
    obtain ⟨error, herror⟩ := Equation.exists_fold_eq_error_iff.mpr hcount
    cases hfold : t.foldConstants with
    | error error' => exact ⟨error', rfl⟩
    | ok t' =>
      obtain ⟨-, -, hes⟩ := foldConstants_eq_ok.mp hfold
      obtain ⟨i, hi, rfl⟩ := List.getElem_of_mem he
      have hok := hes.get hi (hes.length_eq ▸ hi)
      rw [List.get_eq_getElem] at hok
      rw [herror] at hok
      cases hok

/-- The equations before and after an equation that computes nothing do not help: evaluation
fails. -/
theorem exists_replayEquations_eq_error {e : Equation α} (he : e ∈ es)
    (h : ∀ env, ∃ error, e.compute env = .error error) :
    ∀ (env : Bindings α) (m : Machine σ α), ∃ error m',
      replayEquations Driver.direct env es m = .error error m' := by
  induction es with
  | nil => cases he
  | cons first es ih =>
    intro env m
    rw [replayEquations_direct_cons]
    cases hfirst : first.compute env with
    | error error => exact ⟨error, m, rfl⟩
    | ok v =>
      rcases List.mem_cons.mp he with rfl | he
      · obtain ⟨error, herror⟩ := h env
        rw [hfirst] at herror
        cases herror
      · exact ih he _ m

/-- A trace with an equation that cannot be folded has no value. -/
theorem exists_evaluate_eq_error {t : Trace α} {e : Equation α} (he : e ∈ t.equations)
    (hcount : e.Miscounted) (args : List α) (m : Machine σ α) :
    ∃ error, Run.result (t.computation.evaluate args) m = .error error := by
  obtain ⟨error, herror⟩ := Equation.exists_fold_eq_error_iff.mpr hcount
  have hcompute : ∀ env, ∃ error, e.compute env = .error error :=
    fun env => ⟨error, (e.compute_of_fold env).2 error herror⟩
  have hrun : ∃ error m', t.computation.run Driver.direct (args.map Value.num) m =
      .error error m' := by
    by_cases hlen : (args.map Value.num).length = t.params.length
    · obtain ⟨error, m', hfail⟩ := exists_replayEquations_eq_error he hcompute (t.bind _) m
      exact ⟨error, m', by rw [computation_apply hlen, hfail]⟩
    · have hcheck : (t.checkArguments (args.map Value.num) : Except (Error α) Unit) =
          .error (.wrongCount .replayArguments t.params.length (args.map Value.num).length) :=
        if_neg hlen
      exact ⟨_, m, Run.bind_eq_error.mpr (Or.inl (by rw [hcheck]; rfl))⟩
  obtain ⟨error', m', hfail⟩ := hrun
  exact ⟨error', Run.result_eq_error.mpr ⟨m', Run.bind_eq_error.mpr (Or.inl hfail)⟩⟩

/-- **Folding is invisible to evaluation, error for error.**  Take any trace, well formed or not.

* If it can be folded, the folded trace has the same parameters, binders and return atom, and no
  constant equation is left in it; at all arguments it evaluates as the trace does, to the same
  number or with the same error.
* It cannot be folded exactly if some equation other than an alias has nothing but literals as
  operands, or none at all, and their number is wrong; and then the trace evaluates at no
  arguments. -/
theorem foldConstants_invisible (t : Trace α) :
    (∀ t', t.foldConstants = .ok t' →
      (∀ {σ : Type} (args : List α),
        (t'.computation.evaluate args : Run σ α α) = t.computation.evaluate args) ∧
      t'.params = t.params ∧ binders t'.equations = binders t.equations ∧ t'.ret = t.ret ∧
      t'.constantCount = 0) ∧
    ((∃ error, t.foldConstants = .error error) ↔
      ∃ e ∈ t.equations, e.rhs.op ≠ .id ∧ (∀ a ∈ e.rhs.args, ∃ x, a = .lit x) ∧
        e.rhs.args.length ≠ e.rhs.op.arity) ∧
    ((∃ error, t.foldConstants = .error error) →
      ∀ {σ : Type} (args : List α) (m : Machine σ α),
        ∃ error, Run.result (t.computation.evaluate args) m = .error error) := by
  refine ⟨fun t' h => ?_, exists_foldConstants_eq_error_iff, fun h σ args m => ?_⟩
  · obtain ⟨params', es', ret'⟩ := t'
    obtain ⟨hparams, hret, hes⟩ := foldConstants_eq_ok.mp h
    obtain rfl : params' = t.params := hparams
    obtain rfl : ret' = t.ret := hret
    refine ⟨@fun σ args => ?_, rfl, binders_fold hes, rfl, ?_⟩
    · have hreplay : ∀ env : Bindings α, (replayEquations Driver.direct env es' :
          Run σ α (Bindings α)) = replayEquations Driver.direct env t.equations :=
        replayEquations_fold hes
      unfold Computation.evaluate computation
      simp only [hreplay]
      rfl
    · refine List.countP_eq_zero.mpr fun e' he' => ?_
      obtain ⟨i, hi, rfl⟩ := List.getElem_of_mem he'
      have hok := hes.get (hes.length_eq ▸ hi) hi
      rw [List.get_eq_getElem, List.get_eq_getElem] at hok
      rw [Equation.constants?_of_fold hok]
      exact Bool.false_ne_true
  · obtain ⟨e, he, hcount⟩ := exists_foldConstants_eq_error_iff.mp h
    exact exists_evaluate_eq_error he hcount args m

/-- A trace that binds its parameter a second time and reads what nothing binds. -/
def unrulyTrace : Trace Int :=
  let x : Register := ⟨0, 0, .param⟩
  let v (i : UInt32) : Register := ⟨0, i, .result⟩
  { params := [x]
    equations := [⟨v 1, .mul, [.lit 2, .lit 3]⟩, ⟨x, .add, [.reg x, .reg (v 1)]⟩,
      ⟨v 1, .mul, [.reg x, .reg (v 4)]⟩]
    ret := .reg x }

/-- The trace `unrulyTrace` with a product of one literal at its end. -/
def miscountedTrace : Trace Int :=
  { unrulyTrace with
    equations := unrulyTrace.equations ++ [⟨⟨0, 2, .result⟩, .mul, [.lit 7]⟩] }

/-- The first equation of `unrulyTrace` is folded, and the error of its last one stays as it is.
A product of one literal cannot be folded, and it has no value either. -/
theorem foldConstants_invisible_unrulyTrace :
    unrulyTrace.constantCount = 1 ∧
      (∃ t', unrulyTrace.foldConstants = .ok t' ∧ t'.constantCount = 0 ∧
        Run.result (t'.computation.evaluate [5]) (⟨(), {}⟩ : Machine Unit Int) =
          .error (.unboundRead ⟨0, 4, .result⟩)) ∧
      (∃ error, miscountedTrace.foldConstants = .error error) ∧
      ∃ error, Run.result (miscountedTrace.computation.evaluate [5])
        (⟨(), {}⟩ : Machine Unit Int) = .error error := by
  obtain ⟨t', hfold⟩ : ∃ t', unrulyTrace.foldConstants = .ok t' := ⟨_, rfl⟩
  obtain ⟨hsame, -, -, -, hnone⟩ := (foldConstants_invisible unrulyTrace).1 t' hfold
  obtain ⟨hfails, hvalueless⟩ := (foldConstants_invisible miscountedTrace).2
  have hmiscounted : ∃ error, miscountedTrace.foldConstants = .error error :=
    hfails.mpr ⟨_, List.mem_append_right _ (List.mem_singleton_self _), nofun,
      fun a ha => ⟨7, List.mem_singleton.mp ha⟩, by decide⟩
  refine ⟨rfl, ⟨t', hfold, hnone, ?_⟩, hmiscounted, hvalueless hmiscounted [5] _⟩
  rw [hsame]
  rfl

end Trace

end DualTrace
