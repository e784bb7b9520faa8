/-
# Rounds of the optimizer

A round succeeds when its passes do and the trace that they leave is well formed.

* `Plan.Round` : one trace leads to another in a round;
* `Plan.runRounds_induct` : what a round preserves, any number of rounds preserves;
* `Trace.optimize_eq_ok`, `Trace.optimize_eq_error` : an optimized trace comes from rounds and the
  closing pass, and a refused one from a round that fails;
* `Equation.Rewritten` : what folding and simplification do to one equation of a round;
* `Trace.Resolved`, `Plan.Round.exists_resolved` : a round in terms of single equations.
-/
import DualTrace.Proofs.Alias
import DualTrace.Proofs.Identity
import DualTrace.Trace.Plan

namespace DualTrace

variable {α : Type} [Scalar α] {plan : Plan} {i count : Nat} {t t' : Trace α}

/-! ## Rounds -/

namespace Plan

/-- The trace after the first pass of a round, which is left out without folding. -/
def folded (plan : Plan) (t : Trace α) : Except (Error α) (Trace α) :=
  if plan.foldConstants then t.foldConstants else .ok t

/-- A round leads from one trace to another. -/
def Round (plan : Plan) (t t' : Trace α) : Prop :=
  ∃ u, plan.folded t = .ok u ∧ u.simplify.resolveAliases = .ok t' ∧ t'.WellFormed

/-- A round leaves a well-formed trace. -/
theorem Round.wellFormed (h : plan.Round t t') : t'.WellFormed := by
  obtain ⟨_, -, -, hwf⟩ := h
  exact hwf

/-- The end of a round lets well-formed traces pass. -/
theorem endRound_eq_ok : Pass.apply t (.endRound i) = .ok t' ↔ t.WellFormed ∧ t' = t := by
  unfold Pass.apply
  cases hcheck : t.check with
  | error e =>
    constructor
    · intro h
      cases h
    · rintro ⟨hwf, -⟩
      rw [Trace.check_eq_ok_iff.mpr hwf] at hcheck
      cases hcheck
  | ok _ =>
    constructor
    · intro h
      cases h
      exact ⟨Trace.check_eq_ok_iff.mp hcheck, rfl⟩
    · rintro ⟨-, rfl⟩
      rfl

/-- The passes of a round, one after the other. -/
theorem foldlM_round : (plan.round i).foldlM Pass.apply t =
    plan.folded t >>= fun u => u.simplify.resolveAliases >>= fun w => Pass.apply w (.endRound i) := by
  have htail : ∀ u : Trace α,
      [Pass.simplify Rule.identities, .resolveAliases, .endRound i].foldlM Pass.apply u =
        u.simplify.resolveAliases >>= fun w => Pass.apply w (.endRound i) := by
    intro u
    simp only [List.foldlM_cons, List.foldlM_nil, bind_pure]
    rfl
  unfold round folded
  by_cases hfold : plan.foldConstants
  · rw [if_pos hfold, if_pos hfold, List.singleton_append, List.foldlM_cons]
    simp only [htail]
    rfl
  · rw [if_neg hfold, if_neg hfold, List.nil_append, htail]
    rfl

/-- The passes of a round succeed when it leads from one trace to the other. -/
theorem round_eq_ok : (plan.round i).foldlM Pass.apply t = .ok t' ↔ plan.Round t t' := by
  rw [foldlM_round]
  constructor
  · intro h
    obtain ⟨u, hu, h⟩ := Check.bind_eq_ok.mp h
    obtain ⟨w, hw, h⟩ := Check.bind_eq_ok.mp h
    obtain ⟨hwf, rfl⟩ := endRound_eq_ok.mp h
    exact ⟨u, hu, hw, hwf⟩
  · rintro ⟨u, hu, ht', hwf⟩
    refine Check.bind_eq_ok.mpr ⟨u, hu, Check.bind_eq_ok.mpr ⟨t', ht', ?_⟩⟩
    exact endRound_eq_ok.mpr ⟨hwf, rfl⟩

/-- Rounds succeed one after the other. -/
theorem runRounds_succ_eq_ok :
    plan.runRounds Pass.apply (count + 1) i t = .ok t' ↔
      ∃ u, plan.Round t u ∧ plan.runRounds Pass.apply count (i + 1) u = .ok t' := by
  rw [runRounds, Check.bind_eq_ok]
  simp only [round_eq_ok]

/-- Rounds followed by more rounds. -/
theorem runRounds_add (more : Nat) :
    plan.runRounds Pass.apply (count + more) i t =
      plan.runRounds Pass.apply count i t >>= plan.runRounds Pass.apply more (i + count) := by
  induction count generalizing i t with
  | zero =>
    rw [Nat.zero_add]
    rfl
  | succ count ih =>
    rw [Nat.add_right_comm, runRounds, runRounds, bind_assoc]
    congr 1
    funext u
    have hu := ih (i := i + 1) (t := u)
    rw [Nat.add_assoc, Nat.add_comm 1] at hu
    exact hu

/-- More rounds succeed when they do so after the first ones. -/
theorem runRounds_add_eq_ok {more : Nat} :
    plan.runRounds Pass.apply (count + more) i t = .ok t' ↔
      ∃ u, plan.runRounds Pass.apply count i t = .ok u ∧
        plan.runRounds Pass.apply more (i + count) u = .ok t' := by
  rw [runRounds_add, Check.bind_eq_ok]

/-- Rounds fail in one of them. -/
theorem exists_round_eq_error {e : Error α} (h : plan.runRounds Pass.apply count i t = .error e) :
    ∃ k u, plan.runRounds Pass.apply k i t = .ok u ∧
      (plan.round (i + k)).foldlM Pass.apply u = .error e := by
  induction count generalizing i t with
  | zero => cases h
  | succ count ih =>
    rcases Check.bind_eq_error.mp h with h | ⟨u, hu, h⟩
    · exact ⟨0, t, rfl, h⟩
    · obtain ⟨k, w, hw, h⟩ := ih h
      refine ⟨k + 1, w, runRounds_succ_eq_ok.mpr ⟨u, round_eq_ok.mp hu, hw⟩, ?_⟩
      rw [Nat.add_comm k, ← Nat.add_assoc]
      exact h

/-- What rounds do depends on the plan only by whether it folds constants. -/
theorem runRounds_congr {plan' : Plan} (h : plan.foldConstants = plan'.foldConstants) :
    plan.runRounds Pass.apply count i t = plan'.runRounds Pass.apply count i t := by
  have hround : ∀ i, plan.round i = (plan'.round i : List (Pass α)) := by
    intro i
    unfold round
    rw [h]
  induction count generalizing i t with
  | zero => rfl
  | succ count ih =>
    rw [runRounds, runRounds, hround]
    congr 1
    funext u
    exact ih

/-- **What holds at first and is passed on by each round holds at the end.** -/
theorem runRounds_induct {P : Nat → Trace α → Prop} {k : Nat}
    (hstep : ∀ k u u', P k u → plan.Round u u' → P (k + 1) u') (h : P k t)
    (hrun : plan.runRounds Pass.apply count i t = .ok t') : P (k + count) t' := by
  induction count generalizing k i t with
  | zero =>
    cases hrun
    exact h
  | succ count ih =>
    obtain ⟨u, hu, hrun⟩ := runRounds_succ_eq_ok.mp hrun
    have hfinal := ih (hstep k t u h hu) hrun
    rw [Nat.add_assoc, Nat.add_comm 1] at hfinal
    exact hfinal

end Plan

/-- The closing pass never fails. -/
theorem Plan.foldlM_closing (plan : Plan) (u : Trace α) :
    plan.closing.foldlM Pass.apply u =
      (.ok (if plan.dropDead then u.dropDead else u) : Except (Error α) (Trace α)) := by
  unfold closing
  by_cases hdead : plan.dropDead
  · rw [if_pos hdead, if_pos hdead]
    rfl
  · rw [if_neg hdead, if_neg hdead]
    rfl

/-- A trace is optimized by rounds and the closing pass. -/
theorem Trace.optimize_eq_ok : Trace.optimize plan t = .ok t' ↔
    ∃ u, plan.runRounds Pass.apply plan.rounds 0 t = .ok u ∧
      t' = if plan.dropDead then u.dropDead else u := by
  unfold Trace.optimize Plan.run
  rw [Check.bind_eq_ok]
  simp only [Plan.foldlM_closing, Except.ok.injEq, eq_comm (b := t')]

/-- A trace is refused in one of the rounds. -/
theorem Trace.optimize_eq_error {e : Error α} : Trace.optimize plan t = .error e ↔
    plan.runRounds Pass.apply plan.rounds 0 t = .error e := by
  unfold Trace.optimize Plan.run
  rw [Check.bind_eq_error]
  simp [Plan.foldlM_closing]

/-! ## Folding -/

omit [Scalar α] in
/-- Atoms are all literals when they are the literals of some numbers. -/
theorem Atom.mapM_lit?_eq_some_iff {as : List (Atom α)} :
    ∀ {xs : List α}, as.mapM Atom.lit? = some xs ↔ as = xs.map Atom.lit := by
  induction as with
  | nil =>
    intro xs
    cases xs <;> simp
  | cons a as ih =>
    intro xs
    cases a with
    | lit x =>
      cases xs <;> simp [List.mapM_cons, lit?, Option.bind_eq_some_iff, ih, and_comm]
    | reg r =>
      cases xs <;> simp [List.mapM_cons, lit?]

omit [Scalar α] in
/-- The constant equations are those that apply another operation than the identity to literals. -/
theorem Equation.constants?_eq_some_iff {e : Equation α} {xs : List α} :
    e.constants? = some xs ↔ e.rhs.op ≠ .id ∧ e.rhs.args = xs.map Atom.lit := by
  unfold constants?
  by_cases hop : e.rhs.op = .id
  · simp [hop]
  · rw [if_neg hop, Atom.mapM_lit?_eq_some_iff]
    exact (and_iff_right hop).symm

omit [Scalar α] in
/-- Atoms without a register among them are the literals of some numbers. -/
theorem Atom.exists_lits {as : List (Atom α)} (h : ∀ r, .reg r ∉ as) :
    ∃ xs : List α, as = xs.map Atom.lit := by
  induction as with
  | nil => exact ⟨[], rfl⟩
  | cons a as ih =>
    obtain ⟨xs, hxs⟩ := ih fun r hr => h r (List.mem_cons_of_mem _ hr)
    cases a with
    | lit x => exact ⟨x :: xs, by rw [hxs, List.map_cons]⟩
    | reg r => exact absurd List.mem_cons_self (h r)

/-- Folding succeeds on an equation with as many operands as its operation takes. -/
theorem Equation.exists_fold_eq_ok {e : Equation α} (h : e.rhs.args.length = e.rhs.op.arity) :
    ∃ e', e.fold = .ok e' := by
  unfold fold
  cases hconst : e.constants? with
  | none => exact ⟨e, rfl⟩
  | some xs =>
    have hlen : xs.length = e.rhs.op.arity := by
      rw [← h, (constants?_eq_some_iff.mp hconst).2, List.length_map]
    obtain ⟨x, hx⟩ := Option.isSome_iff_exists.mp ((e.rhs.op.isSome_eval? xs).mpr hlen)
    exact ⟨_, Check.bind_eq_ok.mpr ⟨x, Op.eval_eq_ok.mpr hx, rfl⟩⟩

/-- An equation after folding, which leaves it as it is where it fails. -/
def Equation.folded (e : Equation α) : Equation α := e.fold.toOption.getD e

/-- Where folding succeeds it gives the folded equation. -/
theorem Equation.fold_eq_ok {e : Equation α} (h : e.rhs.args.length = e.rhs.op.arity) :
    e.fold = .ok e.folded := by
  obtain ⟨e', he'⟩ := exists_fold_eq_ok h
  unfold folded
  rw [he']
  rfl

/-- A constant equation becomes an alias of its value, and every other one stays. -/
theorem Equation.fold_cases {e e' : Equation α} (h : e.fold = .ok e') :
    (∃ xs x, e.constants? = some xs ∧ e.rhs.op.eval? xs = some x ∧
      e' = ⟨e.binder, .id, [.lit x]⟩) ∨
    (e.constants? = none ∧ e' = e) := by
  unfold fold at h
  cases hconst : e.constants? with
  | none =>
    rw [hconst] at h
    cases h
    exact Or.inr ⟨rfl, rfl⟩
  | some xs =>
    rw [hconst] at h
    obtain ⟨x, hx, h⟩ := Check.bind_eq_ok.mp h
    cases h
    exact Or.inl ⟨xs, x, rfl, Op.eval_eq_ok.mp hx, rfl⟩

/-! ## One equation -/

/-- An equation that a round leaves alone, apart from redirecting it: it does not reduce and, if
constants are folded, it reads a register. -/
structure Equation.Stable (folding : Bool) (e : Equation α) : Prop where
  irreducible : ∀ a, ¬ e.rhs.Reduces a
  register : folding = true → ∃ r, .reg r ∈ e.rhs.args

/-- What folding and simplification make of an equation: aliases and stable equations stay, and any
other becomes an alias of an operand or a literal. -/
inductive Equation.Rewritten (folding : Bool) : Equation α → Equation α → Prop
  | kept {e : Equation α} (halias : e.isAlias = true) : Rewritten folding e e
  | stable {e : Equation α} (halias : e.isAlias = false) (h : e.Stable folding) :
      Rewritten folding e e
  | reduced {e : Equation α} {a : Atom α} (halias : e.isAlias = false) (h : ¬ e.Stable folding)
      (ha : a ∈ e.rhs.args ∨ ∃ x, a = .lit x) : Rewritten folding e ⟨e.binder, .id, [a]⟩

namespace Equation.Rewritten

variable {folding : Bool} {e e' : Equation α}

theorem binder_eq (h : Rewritten folding e e') : e'.binder = e.binder := by
  cases h <;> rfl

/-- Simplification alone, where folding has nothing to do. -/
theorem of_simplify (h : folding = true → e.constants? = none) :
    Rewritten folding e (e.simplifyWith Rule.identities) := by
  rcases e.simplify_cases with ⟨a, hred, heq⟩ | ⟨heq, hirred⟩
  · rw [heq]
    refine .reduced ?_ (fun hstable => hstable.irreducible a hred) hred.mem_or_lit
    exact isAlias_eq_false_iff.mpr hred.op_ne_id
  · rw [heq]
    cases halias : e.isAlias with
    | true => exact .kept halias
    | false =>
      refine .stable halias ⟨hirred, fun hfold => ?_⟩
      by_contra hno
      obtain ⟨xs, hxs⟩ := Atom.exists_lits fun r hr => hno ⟨r, hr⟩
      have hsome := constants?_eq_some_iff.mpr ⟨isAlias_eq_false_iff.mp halias, hxs⟩
      rw [h hfold] at hsome
      cases hsome

/-- Folding and then simplification. -/
theorem of_fold {e₁ : Equation α} (h : e.fold = .ok e₁) :
    Rewritten true e (e₁.simplifyWith Rule.identities) := by
  rcases fold_cases h with ⟨xs, x, hconst, -, rfl⟩ | ⟨hconst, rfl⟩
  · obtain ⟨hop, hargs⟩ := constants?_eq_some_iff.mp hconst
    have hstays : simplifyWith Rule.identities ⟨e.binder, .id, [.lit x]⟩ =
        ⟨e.binder, .id, [.lit x]⟩ := by
      rcases simplify_cases ⟨e.binder, .id, [.lit x]⟩ with ⟨a, hred, -⟩ | ⟨heq, -⟩
      · exact absurd rfl hred.op_ne_id
      · exact heq
    rw [hstays]
    refine .reduced ?_ (fun hstable => ?_) (Or.inr ⟨x, rfl⟩)
    · exact isAlias_eq_false_iff.mpr hop
    · obtain ⟨r, hr⟩ := hstable.register rfl
      rw [hargs] at hr
      simp at hr
  · exact of_simplify fun _ => hconst

/-- A rewritten equation stands in for the old one. -/
theorem standsInFor (h : Rewritten folding e e') : e'.StandsInFor e where
  binder_eq := h.binder_eq
  placed bound he := by
    cases h with
    | kept _ => exact he
    | stable _ _ => exact he
    | @reduced a _ _ ha =>
      refine he.of_reads rfl rfl fun r hr => ?_
      rw [mem_reads, List.mem_singleton] at hr
      rcases ha with ha | ⟨x, rfl⟩
      · exact he.reads r (mem_reads.mpr (hr ▸ ha))
      · cases hr

end Equation.Rewritten

/-- What folding and simplification make of an equation. -/
def Equation.rewrite (folding : Bool) (e : Equation α) : Equation α :=
  (if folding then e.folded else e).simplifyWith Rule.identities

/-- An equation with as many operands as its operation takes is rewritten. -/
theorem Equation.rewritten {folding : Bool} {e : Equation α}
    (h : e.rhs.args.length = e.rhs.op.arity) : e.Rewritten folding (e.rewrite folding) := by
  unfold rewrite
  cases folding with
  | true =>
    rw [if_pos rfl]
    exact .of_fold (fold_eq_ok h)
  | false =>
    rw [if_neg Bool.false_ne_true]
    exact .of_simplify fun hfold => by cases hfold

/-! ## One round -/

/-- A trace after folding and simplification. -/
def Trace.rewrite (folding : Bool) (t : Trace α) : Trace α :=
  { t with equations := t.equations.map (Equation.rewrite folding) }

/-- The first passes of a round succeed on equations in order. -/
theorem Plan.exists_folded (plan : Plan) {bound : List Register}
    (h : Trace.Ordered bound t.equations) :
    ∃ u, plan.folded t = .ok u ∧ u.simplify = t.rewrite plan.foldConstants := by
  unfold folded Trace.rewrite Equation.rewrite
  cases plan.foldConstants with
  | true =>
    have hes : t.equations.mapM Equation.fold = .ok (t.equations.map Equation.folded) := by
      rw [Check.mapM_eq_ok, List.forall₂_map_right_iff, List.forall₂_same]
      exact fun e he => Equation.fold_eq_ok (h.arity he)
    refine ⟨{ t with equations := t.equations.map Equation.folded }, ?_, ?_⟩
    · exact Check.bind_eq_ok.mpr ⟨_, hes, rfl⟩
    · unfold Trace.simplify Trace.simplifyWith
      rw [List.map_map]
      rfl
  | false => exact ⟨t, rfl, rfl⟩

/-- Folding and simplification rewrite each equation on its own. -/
theorem Trace.rewritten {folding : Bool} {bound : List Register}
    (h : Trace.Ordered bound t.equations) :
    List.Forall₂ (Equation.Rewritten folding) t.equations (t.rewrite folding).equations := by
  unfold rewrite
  rw [List.forall₂_map_right_iff, List.forall₂_same]
  exact fun e he => Equation.rewritten (h.arity he)

/-- One trace leads to another when its equations are rewritten as `es`, aliases are substituted
into their readers, and aliases that are not read any more are dropped. -/
structure Trace.Resolved (folding : Bool) (t : Trace α) (es : List (Equation α))
    (aliases : Aliases α) (t' : Trace α) : Prop where
  rewritten : List.Forall₂ (Equation.Rewritten folding) t.equations es
  lookup : ∀ r a, aliases.lookup r = some a ↔ ⟨r, .id, [a]⟩ ∈ es
  ret : t'.ret = aliases.redirect t.ret
  equations : t'.equations = Trace.dropUnreadAliases t'.ret (es.map (Equation.resolve aliases))

/-- A rewritten equation comes from an equation. -/
theorem Trace.Resolved.exists_rewritten {folding : Bool} {es : List (Equation α)}
    {aliases : Aliases α} (h : t.Resolved folding es aliases t') {e' : Equation α} (he' : e' ∈ es) :
    ∃ e ∈ t.equations, e.Rewritten folding e' := by
  obtain ⟨i, hi, rfl⟩ := List.getElem_of_mem he'
  have hlen := h.rewritten.length_eq
  exact ⟨_, List.getElem_mem (hlen ▸ hi), h.rewritten.get (hlen ▸ hi) hi⟩

/-- **A round in terms of single equations.** -/
theorem Plan.Round.exists_resolved (hround : plan.Round t t') (hwf : t.WellFormed) :
    ∃ (es : List (Equation α)) (aliases : Aliases α),
      t.Resolved plan.foldConstants es aliases t' := by
  obtain ⟨u, hfold, hresolve, -⟩ := hround
  obtain ⟨u', hu', hsimplify⟩ := exists_folded plan hwf.ordered
  cases hfold.symm.trans hu'
  rw [hsimplify] at hresolve
  have hrewritten : List.Forall₂ (Equation.Rewritten plan.foldConstants) t.equations
      (t.rewrite plan.foldConstants).equations := Trace.rewritten hwf.ordered
  have hord : Trace.Ordered t.params (t.rewrite plan.foldConstants).equations :=
    hwf.ordered.of_forall₂ (hrewritten.imp fun _ _ he => he.standsInFor)
  obtain ⟨aliases, hlookup, hredirect, hes⟩ := Trace.resolveAliases_eq_ok hord hresolve
  exact ⟨_, aliases, hrewritten, hlookup, Trace.eq_of_redirectReturn hredirect, hes⟩

end DualTrace
