/-
# Solutions

In every domain the equations of a trace say, one after the other, which element each register
stands for.  Replayed under a driver that computes in the domain, a trace finds these elements.

* `Equation.SolvedBy` : an equation that a choice of elements for the registers solves;
* `Trace.solution` : the elements that the registers of a trace stand for, given those of its
  parameters;
* `Arithmetic.solvedBy_solve`, `Trace.Ordered.solutions_agree` : equations in order have a solution,
  and only one;
* `Driver.Carries` : a driver that answers with values that stand for the results in a domain, as
  direct evaluation does for numbers, and an instance of differentiation for pairs;
* `Trace.WellFormed.run_carried` : a trace under such a driver completes with a value that stands
  for its return atom.
-/
import DualTrace.Proofs.Meaning
import DualTrace.Proofs.Valuation

namespace DualTrace

variable {σ α B : Type}

/-! ## Equations in a domain -/

/-- The element that an atom stands for, given those of the registers. -/
def Arithmetic.atom (D : Arithmetic α B) (ρ : Register → B) : Atom α → B
  | .lit x => D.num x
  | .reg r => ρ r

/-- An operation has a result in a domain exactly on as many elements as its arity. -/
theorem Arithmetic.isSome_eval? (D : Arithmetic α B) (op : Op) (bs : List B) :
    (D.eval? op bs).isSome ↔ bs.length = op.arity := by
  cases op <;> rcases bs with _ | ⟨x, _ | ⟨y, _ | ⟨z, _ | ⟨w, bs⟩⟩⟩⟩ <;> simp [eval?, Op.arity]

/-- An equation is solved when its binder stands for the result of its operation on what its
operands stand for. -/
def Equation.SolvedBy (D : Arithmetic α B) (ρ : Register → B) (e : Equation α) : Prop :=
  D.eval? e.rhs.op (e.rhs.args.map (D.atom ρ)) = some (ρ e.binder)

/-- An alias is solved when its binder stands for the same as its operand. -/
theorem Equation.solvedBy_alias_iff {D : Arithmetic α B} {ρ : Register → B} {r : Register}
    {a : Atom α} : Equation.SolvedBy D ρ ⟨r, .id, [a]⟩ ↔ D.atom ρ a = ρ r := by
  show some (D.atom ρ a) = some (ρ r) ↔ _
  rw [Option.some.injEq]

/-- The elements that registers stand for after equations are computed one after the other. -/
def Arithmetic.solve (D : Arithmetic α B) (ρ : Register → B) : List (Equation α) → Register → B
  | [] => ρ
  | e :: es =>
    D.solve (Function.update ρ e.binder
      ((D.eval? e.rhs.op (e.rhs.args.map (D.atom ρ))).getD (ρ e.binder))) es

/-- A register that no equation binds keeps its element. -/
theorem Arithmetic.solve_of_not_mem {D : Arithmetic α B} {es : List (Equation α)} {r : Register} :
    ∀ {ρ : Register → B}, r ∉ Trace.binders es → D.solve ρ es r = ρ r := by
  induction es with
  | nil => intro ρ _; rfl
  | cons e es ih =>
    intro ρ hr
    rw [Trace.binders, List.map_cons, List.mem_cons, not_or] at hr
    rw [solve, ih hr.2, Function.update_of_ne hr.1]

/-- **Equations in order have a solution.** -/
theorem Arithmetic.solvedBy_solve {D : Arithmetic α B} {es : List (Equation α)} :
    ∀ {ρ : Register → B} {bound : List Register}, Trace.Ordered bound es →
      ∀ e ∈ es, e.SolvedBy D (D.solve ρ es) := by
  induction es with
  | nil => intro _ _ _ e he; cases he
  | cons e es ih =>
    intro ρ bound h e' he'
    rcases List.mem_cons.mp he' with rfl | he'
    · have hord : Trace.Ordered bound (e' :: es) := h
      have hsome := (D.isSome_eval? e'.rhs.op (e'.rhs.args.map (D.atom ρ))).mpr
        ((List.length_map _).trans hord.1.arity)
      obtain ⟨b, hb⟩ := Option.isSome_iff_exists.mp hsome
      -- neither the operands nor the binder are bound again
      have hbinder : D.solve ρ (e' :: es) e'.binder = b := by
        rw [solve, solve_of_not_mem (hord.2.not_mem_binders List.mem_cons_self),
          Function.update_self, hb, Option.getD_some]
      have hargs : e'.rhs.args.map (D.atom (D.solve ρ (e' :: es))) =
          e'.rhs.args.map (D.atom ρ) := by
        refine List.map_congr_left fun a ha => ?_
        cases a with
        | lit x => rfl
        | reg r =>
          have hr := hord.1.reads r (Equation.mem_reads.mpr ha)
          exact solve_of_not_mem (hord.not_mem_binders hr)
      rw [Equation.SolvedBy, hargs, hbinder, hb]
    · exact ih h.2 e' he'

/-- **Equations in order have one solution.**  Two solutions that agree on the registers bound
before them agree on all that they bind. -/
theorem Trace.Ordered.solutions_agree {D : Arithmetic α B} {ρ ρ' : Register → B}
    {es : List (Equation α)} :
    ∀ {bound : List Register}, Trace.Ordered bound es → (∀ e ∈ es, e.SolvedBy D ρ) →
      (∀ e ∈ es, e.SolvedBy D ρ') → (∀ r ∈ bound, ρ r = ρ' r) →
        ∀ r ∈ Trace.binders es, ρ r = ρ' r := by
  induction es with
  | nil => intro _ _ _ _ _ r hr; cases hr
  | cons e es ih =>
    intro bound hord hes hes' hbound
    have hargs : e.rhs.args.map (D.atom ρ) = e.rhs.args.map (D.atom ρ') := by
      refine List.map_congr_left fun a ha => ?_
      cases a with
      | lit x => rfl
      | reg r => exact hbound r (hord.1.reads r (Equation.mem_reads.mpr ha))
    have hbinder : ρ e.binder = ρ' e.binder := by
      have he : D.eval? e.rhs.op (e.rhs.args.map (D.atom ρ)) = some (ρ e.binder) :=
        hes e List.mem_cons_self
      have he' : D.eval? e.rhs.op (e.rhs.args.map (D.atom ρ')) = some (ρ' e.binder) :=
        hes' e List.mem_cons_self
      rw [hargs, he'] at he
      exact (Option.some.inj he).symm
    have hbound' : ∀ r ∈ e.binder :: bound, ρ r = ρ' r := by
      intro r hr
      rcases List.mem_cons.mp hr with rfl | hr
      · exact hbinder
      · exact hbound r hr
    intro r hr
    rcases List.mem_cons.mp hr with rfl | hr
    · exact hbinder
    · exact ih hord.2 (fun e' he' => hes e' (List.mem_cons_of_mem _ he'))
        (fun e' he' => hes' e' (List.mem_cons_of_mem _ he')) hbound' r hr

/-! ## Traces in a domain -/

/-- Looking a register up among registers that all differ, each next to its element. -/
theorem lookup_zip {ps : List Register} (hps : ps.Nodup) {bs : List B} {r : Register} {b : B}
    (h : (r, b) ∈ ps.zip bs) : (ps.zip bs).lookup r = some b := by
  induction ps generalizing bs with
  | nil => cases h
  | cons p ps ih =>
    cases bs with
    | nil => cases h
    | cons b' bs =>
      rw [List.zip_cons_cons] at h ⊢
      rcases List.mem_cons.mp h with heq | hmem
      · cases heq
        exact List.lookup_cons_self
      · have hne : r ≠ p := by
          rintro rfl
          exact (List.nodup_cons.mp hps).1 (List.of_mem_zip hmem).1
        rw [List.lookup_cons, beq_eq_false_iff_ne.mpr hne]
        exact ih (List.nodup_cons.mp hps).2 hmem

namespace Trace

variable [Scalar α] {D : Arithmetic α B} {t : Trace α} {bs : List B}

/-- The elements that the registers of a trace stand for, given those of its parameters. -/
def solution (D : Arithmetic α B) (t : Trace α) (bs : List B) : Register → B :=
  D.solve (fun r => ((t.params.zip bs).lookup r).getD (D.num Scalar.zero)) t.equations

/-- The equations of a well-formed trace are solved. -/
theorem WellFormed.solvedBy_solution (h : t.WellFormed) (bs : List B) :
    ∀ e ∈ t.equations, e.SolvedBy D (t.solution D bs) := Arithmetic.solvedBy_solve h.ordered

omit [Scalar α] in
/-- What the return atom of a well-formed trace stands for is the same in two solutions that agree
on the parameters. -/
theorem WellFormed.atom_ret_eq (h : t.WellFormed) {ρ ρ' : Register → B}
    (hes : ∀ e ∈ t.equations, e.SolvedBy D ρ) (hes' : ∀ e ∈ t.equations, e.SolvedBy D ρ')
    (hparams : ∀ r ∈ t.params, ρ r = ρ' r) : D.atom ρ t.ret = D.atom ρ' t.ret := by
  have hret := h.ret
  cases hatom : t.ret with
  | lit x => rfl
  | reg r =>
    rw [hatom] at hret
    rcases hret r (List.mem_singleton_self r) with hp | hb
    · exact hparams r hp
    · exact h.ordered.solutions_agree hes hes' hparams r hb

/-- What a parameter stands for is found among the parameters. -/
theorem WellFormed.solution_of_mem_params (h : t.WellFormed) {r : Register} (hr : r ∈ t.params) :
    t.solution D bs r = ((t.params.zip bs).lookup r).getD (D.num Scalar.zero) :=
  Arithmetic.solve_of_not_mem (h.ordered.not_mem_binders hr)

/-- Each parameter stands for the element that is given for it. -/
theorem WellFormed.solution_param (h : t.WellFormed) {r : Register} {b : B}
    (hmem : (r, b) ∈ t.params.zip bs) : t.solution D bs r = b := by
  rw [h.solution_of_mem_params (List.of_mem_zip hmem).1, lookup_zip h.params hmem,
    Option.getD_some]

end Trace

/-! ## Replay -/

/-- Bindings of the registers `bound` to values that stand for their elements. -/
def Bindings.StandFor (δ : Meaning α B) (ρ : Register → B) (bound : List Register)
    (env : Bindings α) : Prop :=
  ∀ r ∈ bound, ∃ v, env.lookup r = some v ∧ δ v = some (ρ r)

/-- A driver that answers an instruction with a value that stands for the result of the operation
on what its operands stand for. -/
def Driver.Carries (d : Driver σ α) (δ : Meaning α B) (D : Arithmetic α B) : Prop :=
  ∀ i bs b, δ.All i.args bs → D.eval? i.op bs = some b →
    ∀ m, ∃ v m', d i m = .ok v m' ∧ δ v = some b

namespace Bindings.StandFor

variable {D : Arithmetic α B} {δ : Meaning α B} {ρ : Register → B} {bound : List Register}
  {env : Bindings α}

/-- An operand has a value that stands for its element. -/
theorem value (h : env.StandFor δ ρ bound) (hnum : ∀ x, δ (.num x) = some (D.num x)) {a : Atom α}
    (ha : ∀ r ∈ a.regs, r ∈ bound) : ∃ v, env.value a = .ok v ∧ δ v = some (D.atom ρ a) := by
  cases a with
  | lit x => exact ⟨.num x, rfl, hnum x⟩
  | reg r =>
    obtain ⟨v, hv, hb⟩ := h r (ha r (List.mem_singleton_self r))
    exact ⟨v, by rw [Bindings.value, hv], hb⟩

/-- Operands have values that stand for their elements. -/
theorem mapM_value (h : env.StandFor δ ρ bound) (hnum : ∀ x, δ (.num x) = some (D.num x))
    {as : List (Atom α)} (has : ∀ r, .reg r ∈ as → r ∈ bound) :
    ∃ vs, as.mapM env.value = .ok vs ∧ δ.All vs (as.map (D.atom ρ)) := by
  induction as with
  | nil => exact ⟨[], rfl, .nil⟩
  | cons a as ih =>
    obtain ⟨vs, hvs, hbs⟩ := ih fun r hr => has r (List.mem_cons_of_mem _ hr)
    obtain ⟨v, hv, hb⟩ := h.value hnum (a := a) fun r hr => has r <| by
      cases a with
      | lit x => cases hr
      | reg s => rw [List.mem_singleton.mp hr]; exact List.mem_cons_self
    exact ⟨v :: vs, Check.mapM_eq_ok.mpr (.cons hv (Check.mapM_eq_ok.mp hvs)), .cons hb hbs⟩

/-- One more register is bound to a value that stands for its element. -/
theorem cons (h : env.StandFor δ ρ bound) {r : Register} {v : Value α} (hv : δ v = some (ρ r)) :
    Bindings.StandFor δ ρ (r :: bound) ((r, v) :: env) := by
  intro s hs
  by_cases hsr : s = r
  · subst hsr
    exact ⟨v, List.lookup_cons_self, hv⟩
  · obtain ⟨w, hw, hb⟩ := h s ((List.mem_cons.mp hs).resolve_left hsr)
    refine ⟨w, ?_, hb⟩
    rw [List.lookup_cons, beq_eq_false_iff_ne.mpr hsr]
    exact hw

end Bindings.StandFor

namespace Trace

variable {D : Arithmetic α B} {δ : Meaning α B} {ρ : Register → B} {d : Driver σ α}

/-- Equations that are replayed bind each register to a value that stands for its element. -/
theorem replayEquations_carried (hnum : ∀ x, δ (.num x) = some (D.num x)) (hd : d.Carries δ D)
    {es : List (Equation α)} :
    ∀ {bound : List Register} {env : Bindings α}, Ordered bound es → env.StandFor δ ρ bound →
      (∀ e ∈ es, e.SolvedBy D ρ) → ∀ m, ∃ (env' : Bindings α) (m' : Machine σ α),
        replayEquations d env es m = .ok env' m' ∧
          env'.StandFor δ ρ ((binders es).reverse ++ bound) := by
  induction es with
  | nil => intro bound env _ henv _ m; exact ⟨env, m, rfl, henv⟩
  | cons e es ih =>
    intro bound env hord henv hes m
    obtain ⟨vs, hvs, hbs⟩ := henv.mapM_value hnum
      fun r hr => hord.1.reads r (Equation.mem_reads.mpr hr)
    obtain ⟨v, m₁, hv, hb⟩ := hd ⟨e.rhs.op, vs⟩ _ _ hbs (hes e List.mem_cons_self) m
    obtain ⟨env', m', hrun, henv'⟩ := ih hord.2 (henv.cons hb)
      (fun e' he' => hes e' (List.mem_cons_of_mem _ he')) m₁
    refine ⟨env', m', ?_, ?_⟩
    · rw [replayEquations_cons hvs, hv]
      exact hrun
    · rw [binders, List.map_cons, List.reverse_cons, List.append_assoc]
      exact henv'

/-- **A trace completes with a value that stands for its return atom.**  Its parameters are bound to
values that stand for their elements, and these elements solve its equations. -/
theorem WellFormed.run_carried {t : Trace α} (h : t.WellFormed) {args : List (Value α)}
    (hlen : args.length = t.params.length) (hnum : ∀ x, δ (.num x) = some (D.num x))
    (hd : d.Carries δ D) (hparams : (t.bind args).StandFor δ ρ t.params)
    (hes : ∀ e ∈ t.equations, e.SolvedBy D ρ) (m : Machine σ α) :
    ∃ v m', t.computation.run d args m = .ok v m' ∧ δ v = some (D.atom ρ t.ret) := by
  obtain ⟨env, m', hrun, henv⟩ := replayEquations_carried hnum hd h.ordered hparams hes m
  obtain ⟨v, hv, hb⟩ := henv.value hnum (a := t.ret) fun r hr => by
    rcases h.ret r hr with hp | hbinder
    · exact List.mem_append_right _ hp
    · exact List.mem_append_left _ (List.mem_reverse.mpr hbinder)
  refine ⟨v, m', ?_, hb⟩
  rw [computation_apply hlen, hrun]
  simp only [hv]
  rfl

/-- Parameters are bound to their arguments, which stand for their elements. -/
theorem WellFormed.standFor_bind {t : Trace α} (h : t.WellFormed) {args : List (Value α)}
    (hlen : args.length = t.params.length) {bs : List B} (hargs : δ.All args bs)
    (hρ : ∀ p ∈ t.params.zip bs, ρ p.1 = p.2) : (t.bind args).StandFor δ ρ t.params := by
  intro r hr
  obtain ⟨i, hi, rfl⟩ := List.getElem_of_mem hr
  have hargs_i : i < args.length := by omega
  have hbs_i : i < bs.length := by rw [← hargs.length_eq]; exact hargs_i
  have hmem : (t.params[i], args[i]) ∈ t.params.zip args :=
    List.mem_iff_getElem.mpr ⟨i, by simp; omega, List.getElem_zip⟩
  have hmem' : (t.params[i], bs[i]) ∈ t.params.zip bs :=
    List.mem_iff_getElem.mpr ⟨i, by simp; omega, List.getElem_zip⟩
  refine ⟨args[i], (lookup_bind h.params hlen.symm).mpr hmem, ?_⟩
  rw [hρ _ hmem']
  exact hargs.get hargs_i hbs_i

/-- Whatever holds of all arguments and answers holds of all values that registers are bound to. -/
theorem replayEquations_gives {P : Value α → Prop} (hd : ∀ i, Run.Gives P (d i))
    {es : List (Equation α)} :
    ∀ {env : Bindings α}, (∀ p ∈ env, P p.2) →
      Run.Gives (fun env => ∀ p ∈ env, P p.2) (replayEquations d env es) := by
  induction es with
  | nil => intro env henv; exact .pure henv
  | cons e es ih =>
    intro env henv
    refine .bind (.trivial _) fun i _ => .bind (hd i) fun v hv => ih fun p hp => ?_
    rcases List.mem_cons.mp hp with rfl | hp
    · exact hv
    · exact henv p hp

/-- A trace returns its literal, or else a value of which everything holds that holds of all
arguments and answers. -/
theorem computation_gives {P : Value α → Prop} (hd : ∀ i, Run.Gives P (d i)) {t : Trace α}
    {args : List (Value α)} (hargs : ∀ v ∈ args, P v) :
    Run.Gives (fun v => (∃ x, t.ret = .lit x ∧ v = .num x) ∨ ∃ r, t.ret = .reg r ∧ P v)
      (t.computation.run d args) := by
  have hbind : ∀ p ∈ t.bind args, P p.2 := fun p hp =>
    hargs p.2 (List.of_mem_zip (List.mem_reverse.mp hp)).2
  refine .bind (.trivial _) fun _ _ => .bind (replayEquations_gives hd hbind) fun env henv => ?_
  intro m v m' hv
  obtain ⟨hv, -⟩ := Run.ofExcept_eq_ok.mp hv
  cases hret : t.ret with
  | lit x =>
    rw [hret] at hv
    cases hv
    exact Or.inl ⟨x, rfl, rfl⟩
  | reg r =>
    rw [hret, Bindings.value] at hv
    cases hlookup : env.lookup r with
    | none =>
      rw [hlookup] at hv
      cases hv
    | some w =>
      rw [hlookup] at hv
      cases hv
      obtain ⟨pre, post, rfl, -⟩ := List.lookup_eq_some_iff.mp hlookup
      exact Or.inr ⟨r, rfl, henv (r, v) (List.mem_append_right _ List.mem_cons_self)⟩

end Trace

/-! ## Drivers -/

section Drivers

variable [Scalar α]

/-- Direct evaluation carries the numbers. -/
theorem Driver.carries_direct :
    (Driver.direct : Driver σ α).Carries Meaning.numbers Arithmetic.numbers := by
  intro i xs y hxs hy m
  obtain ⟨op, vs⟩ := i
  rw [Meaning.all_numbers] at hxs
  cases hxs
  rw [Arithmetic.eval?_numbers] at hy
  exact ⟨.num y, m, Driver.direct_num hy m, rfl⟩

/-- **An instance of differentiation carries the pairs over what its next driver carries.** -/
theorem Driver.Carries.forward {d : Driver σ α} {δ : Meaning α B} {D : Arithmetic α B}
    (h : d.Carries δ D) (tag : Tag) : (d.forward tag).Carries (δ.dual tag) D.dual := by
  intro i bs b hbs hb m
  obtain ⟨op, vs⟩ := i
  rcases hbs with _ | ⟨hx, _ | ⟨hy, _ | ⟨hz, _ | ⟨_, _⟩⟩⟩⟩ <;> cases op <;> cases hb
  case cons.nil.id.refl =>
    exact ⟨_, m, rfl, Meaning.dual_lift_zero.trans hx⟩
  case cons.cons.nil.add.refl =>
    obtain ⟨hx₁, hx₂⟩ := Meaning.dual_eq_some.mp hx
    obtain ⟨hy₁, hy₂⟩ := Meaning.dual_eq_some.mp hy
    obtain ⟨p, m₁, hp, hδp⟩ := h ⟨.add, _⟩ _ _ (.cons hx₁ (.cons hy₁ .nil)) rfl m
    obtain ⟨q, m₂, hq, hδq⟩ := h ⟨.add, _⟩ _ _ (.cons hx₂ (.cons hy₂ .nil)) rfl m₁
    refine ⟨.dual tag p q, m₂, ?_, Meaning.dual_dual hδp hδq⟩
    refine Run.bind_eq_ok.mpr ⟨(), m, rfl, ?_⟩
    exact Run.bind_eq_ok.mpr ⟨p, m₁, hp, Run.bind_eq_ok.mpr ⟨q, m₂, hq, rfl⟩⟩
  case cons.cons.nil.mul.refl =>
    obtain ⟨hx₁, hx₂⟩ := Meaning.dual_eq_some.mp hx
    obtain ⟨hy₁, hy₂⟩ := Meaning.dual_eq_some.mp hy
    obtain ⟨p, m₁, hp, hδp⟩ := h ⟨.mul, _⟩ _ _ (.cons hx₁ (.cons hy₁ .nil)) rfl m
    obtain ⟨l, m₂, hl, hδl⟩ := h ⟨.mul, _⟩ _ _ (.cons hx₁ (.cons hy₂ .nil)) rfl m₁
    obtain ⟨r, m₃, hr, hδr⟩ := h ⟨.mul, _⟩ _ _ (.cons hy₁ (.cons hx₂ .nil)) rfl m₂
    obtain ⟨q, m₄, hq, hδq⟩ := h ⟨.add, _⟩ _ _ (.cons hδl (.cons hδr .nil)) rfl m₃
    refine ⟨.dual tag p q, m₄, ?_, Meaning.dual_dual hδp hδq⟩
    refine Run.bind_eq_ok.mpr ⟨(), m, rfl, ?_⟩
    refine Run.bind_eq_ok.mpr ⟨p, m₁, hp, Run.bind_eq_ok.mpr ⟨l, m₂, hl, ?_⟩⟩
    exact Run.bind_eq_ok.mpr ⟨r, m₃, hr, Run.bind_eq_ok.mpr ⟨q, m₄, hq, rfl⟩⟩
  case cons.cons.cons.nil.iif.refl =>
    obtain ⟨hx₁, hx₂⟩ := Meaning.dual_eq_some.mp hx
    obtain ⟨hy₁, hy₂⟩ := Meaning.dual_eq_some.mp hy
    obtain ⟨hz₁, hz₂⟩ := Meaning.dual_eq_some.mp hz
    obtain ⟨p, m₁, hp, hδp⟩ := h ⟨.iif, _⟩ _ _ (.cons hx₁ (.cons hy₁ (.cons hz₁ .nil))) rfl m
    obtain ⟨q, m₂, hq, hδq⟩ := h ⟨.iif, _⟩ _ _ (.cons hx₂ (.cons hy₂ (.cons hz₂ .nil))) rfl m₁
    refine ⟨.dual tag p q, m₂, ?_, Meaning.dual_dual hδp hδq⟩
    refine Run.bind_eq_ok.mpr ⟨(), m, rfl, ?_⟩
    exact Run.bind_eq_ok.mpr ⟨p, m₁, hp, Run.bind_eq_ok.mpr ⟨q, m₂, hq, rfl⟩⟩

/-- A trace whose equations are solved evaluates to the number of its return atom. -/
theorem Trace.WellFormed.evaluate_solved {t : Trace α} (h : t.WellFormed) {xs : List α}
    (hxs : xs.length = t.params.length) {ρ : Register → α}
    (hes : ∀ e ∈ t.equations, e.SolvedBy Arithmetic.numbers ρ)
    (hparams : ∀ p ∈ t.params.zip xs, ρ p.1 = p.2) (m : Machine σ α) :
    Run.result (t.computation.evaluate xs) m = .ok (Arithmetic.numbers.atom ρ t.ret) := by
  have hlen : (xs.map Value.num).length = t.params.length := (List.length_map _).trans hxs
  have hstand := h.standFor_bind hlen (Meaning.all_numbers.mpr rfl) hparams
  obtain ⟨v, m', hv, hnum⟩ := h.run_carried hlen (fun _ => rfl) Driver.carries_direct hstand hes m
  rw [Meaning.numbers_eq_some] at hnum
  unfold Computation.evaluate
  rw [Run.result_bind, hv, hnum]
  rfl

end Drivers

end DualTrace
