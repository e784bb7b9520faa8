/-
# Dropping dead equations keeps results

A trace need not be well formed to be replayed: it may bind a register several times, parameters
included.  The sweep never takes a register off its list of live ones, so it may keep equations that
are overwritten later, but it drops none that is needed.

* `Run.Stateless`, `Driver.Functional` : what a run gives, and what a driver answers, whatever the
  machine;
* `Driver.functional_tower` : direct evaluation, also behind instances of differentiation;
* `Bindings.Agree` : bindings with the same values for some registers;
* `Trace.dropDead_result` : what a trace returns it returns without its dead equations.

The induction is on the equations, from first to last, although the sweep goes from last to first:
at each equation the bindings of both runs agree on the registers that are live there.
-/
import DualTrace.Proofs.DeadCode
import DualTrace.Proofs.Exact
import DualTrace.Proofs.Valuation
import Mathlib.Algebra.Ring.Int.Defs

namespace DualTrace

variable {σ α β γ : Type}

/-! ## Answers that depend on the instruction alone -/

/-- A run that gives the same on every machine. -/
def Run.Stateless (x : Run σ α β) : Prop := ∀ m m', Run.result x m = Run.result x m'

/-- A driver whose answer to an instruction depends on the instruction alone. -/
def Driver.Functional (d : Driver σ α) : Prop := ∀ i, Run.Stateless (d i)

/-- What a sequence of two runs gives when both succeed. -/
theorem Run.result_bind_eq_ok {x : Run σ α β} {f : β → Run σ α γ} {m : Machine σ α} {c : γ} :
    result (x >>= f) m = .ok c ↔ ∃ b m', x m = .ok b m' ∧ result (f b) m' = .ok c := by
  rw [result_bind]
  cases x m with
  | ok b m' =>
    constructor
    · intro h
      exact ⟨b, m', rfl, h⟩
    · rintro ⟨b', m'', hb, h⟩
      cases hb
      exact h
  | error e m' => simp

namespace Run.Stateless

theorem pure (b : β) : Run.Stateless (Pure.pure b : Run σ α β) := fun _ _ => rfl

theorem throw (e : Error α) : Run.Stateless (MonadExcept.throw e : Run σ α β) := fun _ _ => rfl

theorem ofExcept (x : Except (Error α) β) : Run.Stateless (Run.ofExcept x : Run σ α β) := by
  cases x with
  | ok b => exact pure b
  | error e => exact throw e

/-- A sequence of stateless runs is stateless. -/
theorem bind {x : Run σ α β} {f : β → Run σ α γ} (hx : Run.Stateless x)
    (hf : ∀ b, Run.Stateless (f b)) : Run.Stateless (x >>= f) := by
  intro m m'
  rw [Run.result_bind, Run.result_bind]
  have hsame := hx m m'
  unfold Run.result at hsame
  cases hm : x m <;> cases hm' : x m' <;> rw [hm, hm'] at hsame <;> cases hsame
  · exact hf _ _ _
  · rfl

end Run.Stateless

namespace Driver

theorem functional_ofAnswer (answer : Instruction (Value α) → Except (Error α) (Value α)) :
    (ofAnswer answer : Driver σ α).Functional := fun i => .ofExcept (answer i)

variable [Scalar α]

/-- An instance of differentiation answers by the rules, and its next driver does the rest. -/
theorem Functional.forward {d : Driver σ α} (hd : d.Functional) (tag : Tag) :
    (Driver.forward tag d).Functional := by
  intro i
  unfold Driver.forward
  refine .bind (.ofExcept _) fun _ => ?_
  split
  · exact .bind (hd _) fun _ => .bind (hd _) fun _ => .pure _
  · exact .bind (hd _) fun _ => .bind (hd _) fun _ => .bind (hd _) fun _ =>
      .bind (hd _) fun _ => .pure _
  · exact .bind (hd _) fun _ => .bind (hd _) fun _ => .pure _
  · exact .pure _
  · exact .throw _

/-- Direct evaluation behind any number of instances, the innermost first. -/
def tower (tags : List Tag) : Driver σ α := tags.foldr forward direct

/-- **Direct evaluation is functional, and so is every tower of instances over it.** -/
theorem functional_tower (tags : List Tag) : (tower tags : Driver σ α).Functional := by
  induction tags with
  | nil => exact functional_ofAnswer Instruction.evaluate
  | cons tag tags ih => exact ih.forward tag

end Driver

/-! ## Bindings that agree -/

/-- Bindings that have the same values for the registers `live`, or none for both. -/
def Bindings.Agree (live : List Register) (env env' : Bindings α) : Prop :=
  ∀ r ∈ live, env'.lookup r = env.lookup r

namespace Bindings.Agree

variable {live : List Register} {env env' : Bindings α} {r : Register} {v : Value α}

theorem mono {live' : List Register} (h : env.Agree live env') (hsub : live' ⊆ live) :
    env.Agree live' env' := fun r hr => h r (hsub hr)

/-- An atom has the same value. -/
theorem value (h : env.Agree live env') {a : Atom α} (ha : a.regs ⊆ live) :
    env'.value a = env.value a := by
  cases a with
  | lit x => rfl
  | reg r => rw [Bindings.value, Bindings.value, h r (ha (List.mem_singleton_self r))]

/-- So does the right-hand side of an equation that reads live registers only. -/
theorem mapM_value (h : env.Agree live env') {e : Equation α} (he : e.reads ⊆ live) :
    e.rhs.mapM env'.value = e.rhs.mapM env.value := by
  have hargs : e.rhs.args.mapM env'.value = e.rhs.args.mapM env.value :=
    Check.mapM_congr fun a ha =>
      h.value fun r hr => he (List.mem_flatMap.mpr ⟨a, ha, hr⟩)
  rw [Instruction.mapM, Instruction.mapM, hargs]

/-- Both bind a register to the same value. -/
theorem cons (h : env.Agree live env') (r : Register) (v : Value α) :
    Bindings.Agree live ((r, v) :: env) ((r, v) :: env') := by
  intro s hs
  rw [List.lookup_cons, List.lookup_cons, h s hs]

/-- One of them binds a register that is not live. -/
theorem cons_dead (h : env.Agree live env') (hr : r ∉ live) :
    Bindings.Agree live ((r, v) :: env) env' := by
  intro s hs
  have hne : s ≠ r := fun heq => hr (heq ▸ hs)
  rw [List.lookup_cons, beq_eq_false_iff_ne.mpr hne]
  exact h s hs

end Bindings.Agree

/-! ## Replay without dead equations -/

namespace Trace

variable {d : Driver σ α}

/-- A replay of equations succeeds when the first one is answered and the rest succeeds. -/
theorem result_replayEquations_cons {env out : Bindings α} {e : Equation α}
    {es : List (Equation α)} {m : Machine σ α} :
    Run.result (replayEquations d env (e :: es)) m = .ok out ↔
      ∃ i v m', e.rhs.mapM env.value = .ok i ∧ d i m = .ok v m' ∧
        Run.result (replayEquations d ((e.binder, v) :: env) es) m' = .ok out := by
  rw [replayEquations, Run.result_bind_eq_ok]
  constructor
  · rintro ⟨i, m₁, hi, h⟩
    obtain ⟨v, m', hv, hrest⟩ := Run.result_bind_eq_ok.mp h
    obtain ⟨hi', rfl⟩ := Run.ofExcept_eq_ok.mp hi
    exact ⟨i, v, m', hi', hv, hrest⟩
  · rintro ⟨i, v, m', hi, hv, hrest⟩
    exact ⟨i, m, Run.ofExcept_eq_ok.mpr ⟨hi, rfl⟩, Run.result_bind_eq_ok.mpr ⟨v, m', hv, hrest⟩⟩

/-- A trace returns a value when its equations are replayed and its return atom has this value. -/
theorem result_computation {t : Trace α} {args : List (Value α)} {v : Value α}
    {m : Machine σ α} :
    Run.result (t.computation.run d args) m = .ok v ↔
      args.length = t.params.length ∧
        ∃ env, Run.result (replayEquations d (t.bind args) t.equations) m = .ok env ∧
          env.value t.ret = .ok v := by
  have hcheck : (t.checkArguments args : Except (Error α) Unit) = .ok () ↔
      args.length = t.params.length := by
    unfold checkArguments
    by_cases h : args.length = t.params.length <;> simp [h]
  constructor
  · intro h
    obtain ⟨u, m₁, hargs, h⟩ := Run.result_bind_eq_ok.mp h
    obtain ⟨env, m₂, henv, hret⟩ := Run.result_bind_eq_ok.mp h
    obtain ⟨hargs', rfl⟩ := Run.ofExcept_eq_ok.mp hargs
    obtain ⟨m₃, hret'⟩ := Run.result_eq_ok.mp hret
    exact ⟨hcheck.mp hargs', env, Run.result_eq_ok.mpr ⟨m₂, henv⟩,
      (Run.ofExcept_eq_ok.mp hret').1⟩
  · rintro ⟨hlen, env, henv, hret⟩
    obtain ⟨m₂, henv⟩ := Run.result_eq_ok.mp henv
    refine Run.result_bind_eq_ok.mpr ⟨(), m, Run.ofExcept_eq_ok.mpr ⟨hcheck.mpr hlen, rfl⟩, ?_⟩
    refine Run.result_bind_eq_ok.mpr ⟨env, m₂, henv, Run.result_eq_ok.mpr ⟨m₂, ?_⟩⟩
    exact Run.ofExcept_eq_ok.mpr ⟨hret, rfl⟩

/-- **The equations that the sweep keeps give the registers that are live at the end the same
values.**  The replay may start from other bindings and on another machine, as long as the bindings
agree on what is live at the start. -/
theorem replayEquations_sweepLive (hd : d.Functional) {live : List Register}
    {es : List (Equation α)} :
    ∀ (m m' : Machine σ α) {env env' out : Bindings α}, env.Agree (sweepLive live es).1 env' →
      Run.result (replayEquations d env es) m = .ok out →
        ∃ out', Run.result (replayEquations d env' (sweepLive live es).2) m' = .ok out' ∧
          out.Agree live out' := by
  induction es with
  | nil =>
    intro m m' env env' out hagree h
    cases h
    exact ⟨env', rfl, hagree⟩
  | cons e es ih =>
    intro m m' env env' out hagree h
    obtain ⟨i, v, m₁, hi, hv, hrest⟩ := result_replayEquations_cons.mp h
    by_cases hlive : e.binder ∈ (sweepLive live es).1
    · -- a live equation is replayed on the same operands and gets the same answer
      rw [sweepLive_of_mem hlive] at hagree ⊢
      have hi' : e.rhs.mapM env'.value = .ok i :=
        (hagree.mapM_value (List.subset_append_left _ _)).trans hi
      have hsame : Run.result (d i) m' = .ok v :=
        (hd i m' m).trans (Run.result_eq_ok.mpr ⟨m₁, hv⟩)
      obtain ⟨m₂, hv'⟩ := Run.result_eq_ok.mp hsame
      have hagree' := (hagree.mono (List.subset_append_right _ _)).cons e.binder v
      obtain ⟨out', hout, hend⟩ := ih m₁ m₂ hagree' hrest
      exact ⟨out', result_replayEquations_cons.mpr ⟨i, v, m₂, hi', hv', hout⟩, hend⟩
    · rw [sweepLive_of_not_mem hlive] at hagree ⊢
      exact ih m₁ m' (hagree.cons_dead hlive) hrest

/-- What a trace returns it returns without its dead equations, under a functional driver. -/
theorem run_dropDead (hd : d.Functional) {t : Trace α} {args : List (Value α)} {v : Value α}
    {m : Machine σ α} (h : Run.result (t.computation.run d args) m = .ok v) (m' : Machine σ α) :
    Run.result (t.dropDead.computation.run d args) m' = .ok v := by
  obtain ⟨hlen, env, henv, hret⟩ := result_computation.mp h
  have hstart : (t.bind args).Agree (sweepLive t.ret.regs t.equations).1 (t.bind args) :=
    fun _ _ => rfl
  obtain ⟨env', henv', hagree⟩ := replayEquations_sweepLive hd m m' hstart henv
  have hret' : env'.value t.ret = .ok v := (hagree.value (List.Subset.refl _)).trans hret
  exact result_computation.mpr ⟨hlen, env', henv', hret'⟩

/-- **Dropping dead equations keeps results, also those of ill-formed traces.**  Take any trace, any
arguments, and a driver whose answer to an instruction depends on the instruction alone, such as
direct evaluation or a tower of instances over it.  If the trace returns a value, then it returns
the same value without its dead equations, whatever the machine it is run on. -/
theorem dropDead_result [Scalar α] (t : Trace α) (args : List (Value α)) (m m' : Machine σ α) :
    (∀ d : Driver σ α, d.Functional → ∀ v, Run.result (t.computation.run d args) m = .ok v →
      Run.result (t.dropDead.computation.run d args) m' = .ok v) ∧
    ∀ tags : List Tag, (Driver.tower tags : Driver σ α).Functional :=
  ⟨fun _ hd _ h => run_dropDead hd h m', Driver.functional_tower⟩

/-- A trace that has one parameter twice, binds the parameter again, and binds one register three
times.  Its last equation is dead. -/
def reboundTrace : Trace Int :=
  let x : Register := ⟨0, 0, .param⟩
  let v (i : UInt32) : Register := ⟨0, i, .result⟩
  { params := [x, x]
    equations := [⟨v 1, .add, [.reg x, .lit 1]⟩, ⟨x, .mul, [.reg x, .reg (v 1)]⟩,
      ⟨v 1, .id, [.lit 9]⟩, ⟨v 1, .add, [.reg x, .reg x]⟩, ⟨v 2, .mul, [.reg (v 1), .reg x]⟩]
    ret := .reg (v 1) }

/-- The second argument counts, and `reboundTrace` returns `(x * (x + 1)) * 2` with its tangent,
also without the dead equation.  The third equation is overwritten at once, but it stays. -/
theorem dropDead_result_reboundTrace :
    (reboundTrace.check : Except (Error Int) Unit) = .error (.duplicateParam ⟨0, 0, .param⟩) ∧
      reboundTrace.dropDead.equations = reboundTrace.equations.take 4 ∧
      Run.result (reboundTrace.dropDead.computation.run (Driver.tower [⟨0⟩])
        [.dual ⟨0⟩ (.num 3) (.num 1), .dual ⟨0⟩ (.num 5) (.num 2)])
        (⟨(), {}⟩ : Machine Unit Int) = .ok (.dual ⟨0⟩ (.num 60) (.num 44)) := by
  let args : List (Value Int) :=
    [.dual ⟨0⟩ (.num 3) (.num 1), .dual ⟨0⟩ (.num 5) (.num 2)]
  let m : Machine Unit Int := ⟨(), {}⟩
  obtain ⟨hkeeps, htower⟩ := dropDead_result reboundTrace args m m
  exact ⟨rfl, rfl, hkeeps (Driver.tower [⟨0⟩]) (htower [⟨0⟩]) _ rfl⟩

end Trace

end DualTrace
