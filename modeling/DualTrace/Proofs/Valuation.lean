/-
# What a trace computes

Evaluated directly, a well-formed trace binds each register to a number, once and for all.  These
numbers solve its equations, and whatever happens to the trace later can be compared with them.

* `Valuation` : a number for each register;
* `Equation.Holds` : an equation that a valuation solves;
* `Trace.valuation` : the valuation that a trace computes at given numbers;
* `Trace.evaluate_near` : equations that hold only up to a relation between numbers still determine
  the value up to this relation;
* `Trace.Occurs` : the numbers that occur when a trace is evaluated.
-/
import DualTrace.Proofs.Run
import DualTrace.Proofs.WellFormed
import DualTrace.Trace.Replay

namespace DualTrace

variable {σ α : Type}

/-! ## Bindings -/

/-- Each parameter is bound to its argument, and nothing else is bound. -/
theorem Trace.lookup_bind {t : Trace α} (hparams : t.params.Nodup) {args : List (Value α)}
    (hlen : t.params.length = args.length) {r : Register} {v : Value α} :
    (t.bind args).lookup r = some v ↔ (r, v) ∈ t.params.zip args := by
  rw [← List.mem_reverse]
  constructor
  · intro h
    obtain ⟨pre, post, heq, -⟩ := List.lookup_eq_some_iff.mp h
    rw [bind] at heq
    rw [heq]
    exact List.mem_append_right _ List.mem_cons_self
  · intro h
    obtain ⟨pre, post, heq⟩ := List.append_of_mem h
    refine List.lookup_eq_some_iff.mpr ⟨pre, post, heq, ?_⟩
    have hkeys : ((t.params.zip args).reverse.map Prod.fst).Nodup := by
      rw [List.map_reverse, List.nodup_reverse, List.map_fst_zip (Nat.le_of_eq hlen)]
      exact hparams
    rw [heq, List.map_append, List.map_cons, List.nodup_middle, List.nodup_cons] at hkeys
    intro p hp
    have hne : r ≠ p.1 := by
      rintro rfl
      exact hkeys.1 (List.mem_append_left _ (List.mem_map.mpr ⟨p, hp, rfl⟩))
    simpa using hne

/-- A trace on as many arguments as parameters replays its equations and looks up what it
returns. -/
theorem Trace.computation_apply {t : Trace α} {args : List (Value α)}
    (hlen : args.length = t.params.length) (d : Driver σ α) (m : Machine σ α) :
    t.computation.run d args m =
      match replayEquations d (t.bind args) t.equations m with
      | .ok env m' => Run.ofExcept (env.value t.ret) m'
      | .error e m' => .error e m' := by
  have hcheck : (t.checkArguments args : Except (Error α) Unit) = .ok () := if_pos hlen
  show (Run.ofExcept (t.checkArguments args) >>= fun _ =>
    replayEquations d (t.bind args) t.equations >>= fun env => Run.ofExcept (env.value t.ret)) m = _
  rw [hcheck, Run.ofExcept_ok, pure_bind, Run.bind_apply]
  cases replayEquations d (t.bind args) t.equations m <;> rfl

/-- Replaying an equation asks for its instruction on the values of its operands. -/
theorem Trace.replayEquations_cons {d : Driver σ α} {env : Bindings α} {e : Equation α}
    {es : List (Equation α)} {ws : List (Value α)} (h : e.rhs.args.mapM env.value = .ok ws)
    (m : Machine σ α) :
    replayEquations d env (e :: es) m =
      match d ⟨e.rhs.op, ws⟩ m with
      | .ok v m' => replayEquations d ((e.binder, v) :: env) es m'
      | .error err m' => .error err m' := by
  have hrhs : e.rhs.mapM env.value = .ok ⟨e.rhs.op, ws⟩ := Check.bind_eq_ok.mpr ⟨ws, h, rfl⟩
  rw [replayEquations, hrhs, Run.ofExcept_ok, pure_bind, Run.bind_apply]
  cases d ⟨e.rhs.op, ws⟩ m <;> rfl

/-! ## Valuations -/

/-- A number for each register. -/
abbrev Valuation (α : Type) := Register → α

/-- The number of an atom. -/
def Valuation.value (ρ : Valuation α) : Atom α → α
  | .lit x => x
  | .reg r => ρ r

variable [Scalar α]

/-- An equation holds when its binder has the number that it computes from its operands. -/
def Equation.Holds (ρ : Valuation α) (e : Equation α) : Prop :=
  e.rhs.op.eval? (e.rhs.args.map ρ.value) = some (ρ e.binder)

/-- The valuation after equations are computed one after the other. -/
def Valuation.extend (ρ : Valuation α) : List (Equation α) → Valuation α
  | [] => ρ
  | e :: es =>
    Valuation.extend (Function.update ρ e.binder
      ((e.rhs.op.eval? (e.rhs.args.map ρ.value)).getD Scalar.zero)) es

/-- A register that no equation binds keeps its number. -/
theorem Valuation.extend_of_not_mem {es : List (Equation α)} {r : Register} :
    ∀ {ρ : Valuation α}, r ∉ Trace.binders es → ρ.extend es r = ρ r := by
  induction es with
  | nil => intro ρ _; rfl
  | cons e es ih =>
    intro ρ hr
    rw [Trace.binders, List.map_cons, List.mem_cons, not_or] at hr
    rw [extend, ih hr.2, Function.update_of_ne hr.1]

/-- Equations in order hold once they are computed. -/
theorem Valuation.holds_extend {es : List (Equation α)} :
    ∀ {ρ : Valuation α} {bound : List Register}, Trace.Ordered bound es →
      ∀ e ∈ es, e.Holds (ρ.extend es) := by
  induction es with
  | nil => intro _ _ _ e he; cases he
  | cons e es ih =>
    intro ρ bound h e' he'
    rw [extend]
    rcases List.mem_cons.mp he' with rfl | he'
    · have hord : Trace.Ordered bound (e' :: es) := h
      -- neither the operands nor the binder are bound again
      have hargs : ∀ a ∈ e'.rhs.args,
          (Valuation.extend (Function.update ρ e'.binder
            ((e'.rhs.op.eval? (e'.rhs.args.map ρ.value)).getD Scalar.zero)) es).value a =
          ρ.value a := by
        intro a ha
        cases a with
        | lit x => rfl
        | reg r =>
          have hr := hord.not_mem_binders (h.1.reads r (Equation.mem_reads.mpr ha))
          rw [Trace.binders, List.map_cons, List.mem_cons, not_or] at hr
          rw [value, value, extend_of_not_mem hr.2, Function.update_of_ne hr.1]
      have hbinder : e'.binder ∉ Trace.binders es := hord.2.not_mem_binders List.mem_cons_self
      have hsome : (e'.rhs.op.eval? (e'.rhs.args.map ρ.value)).isSome := by
        rw [Op.isSome_eval?, List.length_map]
        exact h.1.arity
      unfold Equation.Holds
      rw [List.map_congr_left hargs, extend_of_not_mem hbinder, Function.update_self]
      obtain ⟨y, hy⟩ := Option.isSome_iff_exists.mp hsome
      rw [hy]
      rfl
    · exact ih h.2 e' he'

/-- The valuation that a trace computes at numbers. -/
def Trace.valuation (t : Trace α) (args : List α) : Valuation α :=
  Valuation.extend
    (fun r => (((t.bind (args.map Value.num)).lookup r).bind Value.num?).getD Scalar.zero)
    t.equations

/-- The equations of a well-formed trace hold. -/
theorem Trace.WellFormed.holds {t : Trace α} (h : t.WellFormed) (args : List α) :
    ∀ e ∈ t.equations, e.Holds (t.valuation args) :=
  Valuation.holds_extend h.ordered

/-- Each parameter has its argument as number. -/
theorem Trace.WellFormed.lookup_param {t : Trace α} (h : t.WellFormed) {args : List α}
    (hlen : args.length = t.params.length) :
    ∀ r ∈ t.params, (t.bind (args.map Value.num)).lookup r = some (.num (t.valuation args r)) := by
  intro r hr
  have hlen' : t.params.length = (args.map Value.num).length := by
    rw [List.length_map, hlen]
  obtain ⟨i, hi, rfl⟩ := List.getElem_of_mem hr
  have hmem : (t.params[i], Value.num args[i]) ∈ t.params.zip (args.map Value.num) := by
    rw [List.mem_iff_getElem]
    refine ⟨i, by rw [List.length_zip, ← hlen', Nat.min_self]; exact hi, ?_⟩
    rw [List.getElem_zip, List.getElem_map]
  have hlookup := (Trace.lookup_bind h.params hlen').mpr hmem
  have hnot : t.params[i] ∉ Trace.binders t.equations :=
    h.ordered.not_mem_binders (List.getElem_mem hi)
  rw [Trace.valuation, Valuation.extend_of_not_mem hnot, hlookup]
  rfl

/-! ## Evaluation -/

section Near

variable {R : α → α → Prop} {ρ : Valuation α} {bound : List Register} {env : Bindings α}

omit [Scalar α] in
/-- Bindings whose numbers are related to those of a valuation. -/
def Bindings.Near (R : α → α → Prop) (ρ : Valuation α) (bound : List Register)
    (env : Bindings α) : Prop :=
  ∀ r ∈ bound, ∃ x, env.lookup r = some (.num x) ∧ R x (ρ r)

/-- An equation that computes, from numbers related to those of its operands, a number related to
that of its binder. -/
def Equation.Follows (R : α → α → Prop) (ρ : Valuation α) (e : Equation α) : Prop :=
  ∀ xs, List.Forall₂ (fun x a => R x (ρ.value a)) xs e.rhs.args →
    ∃ y, e.rhs.op.eval? xs = some y ∧ R y (ρ e.binder)

omit [Scalar α] in
/-- An operand has a number that is related to that of the valuation. -/
theorem Bindings.Near.value (h : env.Near R ρ bound) {a : Atom α} (hlit : ∀ x, a = .lit x → R x x)
    (hreg : ∀ r, a = .reg r → r ∈ bound) :
    ∃ x, Bindings.value env a = .ok (.num x) ∧ R x (ρ.value a) := by
  cases a with
  | lit x => exact ⟨x, rfl, hlit x rfl⟩
  | reg r =>
    obtain ⟨x, hx, hR⟩ := h r (hreg r rfl)
    exact ⟨x, by rw [Bindings.value, hx], hR⟩

omit [Scalar α] in
/-- Operands have numbers that are related to those of the valuation. -/
theorem Bindings.Near.mapM_value (h : env.Near R ρ bound) {as : List (Atom α)}
    (hlit : ∀ x, .lit x ∈ as → R x x) (hreg : ∀ r, .reg r ∈ as → r ∈ bound) :
    ∃ xs, as.mapM env.value = .ok (xs.map Value.num) ∧
      List.Forall₂ (fun x a => R x (ρ.value a)) xs as := by
  induction as with
  | nil => exact ⟨[], rfl, .nil⟩
  | cons a as ih =>
    obtain ⟨xs, hxs, hR⟩ := ih (fun x hx => hlit x (List.mem_cons_of_mem _ hx))
      (fun r hr => hreg r (List.mem_cons_of_mem _ hr))
    obtain ⟨x, hx, hRx⟩ := h.value (a := a) (fun x hx => hlit x (hx ▸ List.mem_cons_self))
      (fun r hr => hreg r (hr ▸ List.mem_cons_self))
    refine ⟨x :: xs, ?_, .cons hRx hR⟩
    rw [Check.mapM_eq_ok] at hxs ⊢
    exact .cons hx hxs

omit [Scalar α] in
/-- Bindings stay related to a valuation when a register is bound to a related number. -/
theorem Bindings.Near.cons (h : env.Near R ρ bound) {r : Register} {x : α} (hx : R x (ρ r)) :
    Bindings.Near R ρ (r :: bound) ((r, .num x) :: env) := by
  intro s hs
  by_cases hsr : s = r
  · subst hsr
    exact ⟨x, List.lookup_cons_self, hx⟩
  · obtain ⟨y, hy, hR⟩ := h s ((List.mem_cons.mp hs).resolve_left hsr)
    have hne : (s == r) = false := by simpa using hsr
    refine ⟨y, ?_, hR⟩
    rw [List.lookup_cons, hne]
    exact hy

/-- Direct evaluation answers an instruction on numbers with the number that it computes. -/
theorem Driver.direct_num {op : Op} {xs : List α} {y : α} (h : op.eval? xs = some y)
    (m : Machine σ α) : direct ⟨op, xs.map Value.num⟩ m = .ok (.num y) m := by
  rw [direct, ofAnswer, Instruction.evaluate_num h]
  rfl

/-- Whatever holds of the numbers holds of the answers of direct evaluation. -/
theorem Driver.direct_gives {P : Value α → Prop} (hnum : ∀ x, P (.num x))
    (i : Instruction (Value α)) : Run.Gives P (Driver.direct i : Run σ α (Value α)) := by
  intro m v m' h
  obtain ⟨_, x, -, -, rfl⟩ := Instruction.evaluate_eq_ok.mp (Run.ofExcept_eq_ok.mp h).1
  exact hnum x

/-- Replayed under direct evaluation, equations that follow a valuation bind each register to a
number related to the one that it has there. -/
theorem Trace.replayEquations_direct {es : List (Equation α)} :
    ∀ {bound : List Register} {env : Bindings α}, Ordered bound es → env.Near R ρ bound →
      (∀ e ∈ es, e.Follows R ρ ∧ ∀ x, .lit x ∈ e.rhs.args → R x x) → ∀ m : Machine σ α,
      ∃ env' : Bindings α, replayEquations Driver.direct env es m = .ok env' m ∧
        env'.Near R ρ ((binders es).reverse ++ bound) := by
  induction es with
  | nil => intro bound env _ henv _ m; exact ⟨env, rfl, henv⟩
  | cons e es ih =>
    intro bound env hord henv hes m
    obtain ⟨hfollows, hlit⟩ := hes e List.mem_cons_self
    obtain ⟨xs, hxs, hR⟩ := henv.mapM_value hlit
      fun r hr => hord.1.reads r (Equation.mem_reads.mpr hr)
    obtain ⟨y, hy, hRy⟩ := hfollows xs hR
    obtain ⟨env', hrun, henv'⟩ := ih hord.2 (henv.cons hRy)
      (fun e' he' => hes e' (List.mem_cons_of_mem _ he')) m
    refine ⟨env', ?_, ?_⟩
    · rw [replayEquations_cons hxs, Driver.direct_num hy]
      exact hrun
    · rw [binders, List.map_cons, List.reverse_cons, List.append_assoc]
      exact henv'

/-- **Equations that follow a valuation determine the value of their trace.**  A well-formed trace
whose equations and parameters follow a valuation evaluates to a number related to the one that its
return atom has there. -/
theorem Trace.WellFormed.evaluate_near {t : Trace α} (h : t.WellFormed) {args : List α}
    (hlen : args.length = t.params.length)
    (hparams : (t.bind (args.map Value.num)).Near R ρ t.params)
    (hes : ∀ e ∈ t.equations, e.Follows R ρ ∧ ∀ x, .lit x ∈ e.rhs.args → R x x)
    (hret : ∀ x, t.ret = .lit x → R x x) (m : Machine σ α) :
    ∃ x, t.computation.evaluate args m = .ok x m ∧ R x (ρ.value t.ret) := by
  obtain ⟨env, hrun, henv⟩ := Trace.replayEquations_direct h.ordered hparams hes m
  obtain ⟨x, hx, hR⟩ := henv.value hret fun r hr => by
    rcases h.ret r (by rw [hr]; exact List.mem_singleton.mpr rfl) with hp | hb
    · exact List.mem_append_right _ hp
    · exact List.mem_append_left _ (List.mem_reverse.mpr hb)
  refine ⟨x, ?_, hR⟩
  have hlen' : (args.map Value.num).length = t.params.length := by rw [List.length_map, hlen]
  unfold Computation.evaluate
  rw [Run.bind_apply, Trace.computation_apply hlen', hrun]
  simp only [hx]
  rfl

end Near

/-! ## Exact values -/

section Exact

variable {ρ : Valuation α}

/-- An equation that holds follows the valuation exactly. -/
theorem Equation.Holds.follows {e : Equation α} (h : e.Holds ρ) : e.Follows Eq ρ := by
  intro xs hxs
  have hmap : xs = e.rhs.args.map ρ.value := by
    rw [← List.forall₂_eq_eq_eq, List.forall₂_map_right_iff]
    exact hxs
  exact ⟨_, by rw [hmap, h], rfl⟩

/-- Parameters are bound to their numbers in the valuation of the trace. -/
theorem Trace.WellFormed.near_params {t : Trace α} (h : t.WellFormed) {args : List α}
    (hlen : args.length = t.params.length) :
    (t.bind (args.map Value.num)).Near Eq (t.valuation args) t.params :=
  fun r hr => ⟨_, h.lookup_param hlen r hr, rfl⟩

/-- **A trace evaluates to the number that its return atom has in its valuation.** -/
theorem Trace.WellFormed.evaluate_eq {t : Trace α} (h : t.WellFormed) {args : List α}
    (hlen : args.length = t.params.length) (m : Machine σ α) :
    t.computation.evaluate args m = .ok ((t.valuation args).value t.ret) m := by
  obtain ⟨x, hx, rfl⟩ := h.evaluate_near hlen (h.near_params hlen)
    (fun e he => ⟨(h.holds args e he).follows, fun _ _ => rfl⟩) (fun _ _ => rfl) m
  exact hx

/-- What is exchanged for an equation under direct evaluation. -/
def Equation.exchange (ρ : Valuation α) (e : Equation α) : Observation α :=
  ⟨⟨e.rhs.op, (e.rhs.args.map ρ.value).map Value.num⟩, some (.num (ρ e.binder))⟩

/-- Replayed under observed evaluation, equations that hold go on record with their numbers. -/
theorem Trace.replayEquations_observed {es : List (Equation α)} :
    ∀ {bound : List Register} {env : Bindings α}, Ordered bound es → env.Near Eq ρ bound →
      (∀ e ∈ es, e.Holds ρ) → ∀ m : Machine σ α,
      ∃ env' : Bindings α, replayEquations (Driver.observed Driver.direct) env es m =
        .ok env' (m.mapSession (Session.observeAll (es.map (Equation.exchange ρ)))) ∧
        env'.Near Eq ρ ((binders es).reverse ++ bound) := by
  induction es with
  | nil => intro bound env _ henv _ m; exact ⟨env, rfl, henv⟩
  | cons e es ih =>
    intro bound env hord henv hes m
    obtain ⟨xs, hxs, hR⟩ := henv.mapM_value
      (fun x (_ : .lit x ∈ e.rhs.args) => rfl)
      fun r hr => hord.1.reads r (Equation.mem_reads.mpr hr)
    obtain rfl : xs = e.rhs.args.map ρ.value := by
      rw [← List.forall₂_eq_eq_eq, List.forall₂_map_right_iff]
      exact hR
    have hy := hes e List.mem_cons_self
    obtain ⟨env', hrun, henv'⟩ := ih hord.2 (henv.cons rfl)
      (fun e' he' => hes e' (List.mem_cons_of_mem _ he'))
      (m.mapSession (Session.observe (e.exchange ρ)))
    refine ⟨env', ?_, ?_⟩
    · rw [replayEquations_cons hxs, Driver.observed, Driver.direct_num hy]
      refine hrun.trans ?_
      rw [List.map_cons, ← Session.observeAll_observe]
      rfl
    · rw [binders, List.map_cons, List.reverse_cons, List.append_assoc]
      exact henv'

/-- On record of an evaluation is one exchange for each equation. -/
theorem Trace.WellFormed.transcript_eq {t : Trace α} (h : t.WellFormed) {args : List α}
    (hlen : args.length = t.params.length) (m : Machine σ α) :
    t.computation.transcript Driver.direct (args.map Value.num) m =
      t.equations.map (Equation.exchange (t.valuation args)) := by
  obtain ⟨env, hrun, -⟩ := Trace.replayEquations_observed h.ordered (h.near_params hlen)
    (h.holds args) (m.mapSession Session.clearRecord)
  have hlen' : (args.map Value.num).length = t.params.length := by rw [List.length_map, hlen]
  have hfinal : Run.final (t.computation.run (Driver.observed Driver.direct) (args.map Value.num))
      (m.mapSession Session.clearRecord) = (m.mapSession Session.clearRecord).mapSession
        (Session.observeAll (t.equations.map (Equation.exchange (t.valuation args)))) := by
    unfold Run.final
    rw [Trace.computation_apply hlen', hrun]
    exact Run.final_ofExcept (env.value t.ret) _
  unfold Computation.transcript
  rw [hfinal]
  show ((t.equations.map (Equation.exchange (t.valuation args))).reverse ++ []).reverse = _
  rw [List.append_nil, List.reverse_reverse]

/-- A number occurs when a trace is evaluated if it is an operand or the answer of an instruction
that the evaluation issues, or its result. -/
def Trace.Occurs (t : Trace α) (args : List α) (x : α) : Prop :=
  (∃ o ∈ t.computation.transcript Driver.direct (args.map Value.num) (⟨(), {}⟩ : Machine Unit α),
    .num x ∈ o.instruction.args ∨ o.answer = some (.num x)) ∨
  Run.result (t.computation.evaluate args) (⟨(), {}⟩ : Machine Unit α) = .ok x

section Occurs

variable {t : Trace α} (h : t.WellFormed) {args : List α} (hlen : args.length = t.params.length)

include h hlen

/-- The numbers of operands occur. -/
theorem Trace.WellFormed.occurs_operand {e : Equation α} (he : e ∈ t.equations) {a : Atom α}
    (ha : a ∈ e.rhs.args) : t.Occurs args ((t.valuation args).value a) := by
  refine Or.inl ⟨e.exchange (t.valuation args), ?_, Or.inl ?_⟩
  · rw [h.transcript_eq hlen]
    exact List.mem_map_of_mem he
  · exact List.mem_map_of_mem (List.mem_map_of_mem ha)

/-- The numbers of binders occur. -/
theorem Trace.WellFormed.occurs_binder {e : Equation α} (he : e ∈ t.equations) :
    t.Occurs args (t.valuation args e.binder) := by
  refine Or.inl ⟨e.exchange (t.valuation args), ?_, Or.inr rfl⟩
  rw [h.transcript_eq hlen]
  exact List.mem_map_of_mem he

/-- The number of the return atom occurs. -/
theorem Trace.WellFormed.occurs_ret : t.Occurs args ((t.valuation args).value t.ret) := by
  refine Or.inr ?_
  unfold Run.result
  rw [h.evaluate_eq hlen]

end Occurs

end Exact

end DualTrace
