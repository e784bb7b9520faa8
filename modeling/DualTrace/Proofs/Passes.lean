/-
# Passes keep traces well formed

Whatever passes are applied to a well-formed trace, and however often, what comes out is well formed
again, with the same parameters, and binds registers that the trace binds, in the same order.  The
one way to fail is a return register that has become an alias of a literal.

* `Trace.Ordered.resolve`, `Trace.Ordered.dropUnreadAliases` : substitution leaves every operand
  bound before it is read, and so does dropping what nobody reads;
* `Trace.TrimOf` : a trace that may come out of passes over another one;
* `Pass.trims` : what a single pass does;
* `Trace.passes_trim` : what any sequence of passes, and the optimizer, does.

Resolving aliases is the only delicate pass.  It moves readers one hop along a chain of aliases, so
the middle of a chain may be read anew while its end is dropped.  The backward sweep has to keep
whatever is read by equations that it has kept already, which is what its invariant says.
-/
import DualTrace.Proofs.Alias
import DualTrace.Proofs.DeadCode
import DualTrace.Proofs.Exact
import DualTrace.Proofs.Identity
import DualTrace.Proofs.Rounds
import Mathlib.Algebra.Ring.Int.Defs

namespace DualTrace

variable {α : Type}

namespace Trace

variable {bound : List Register} {es : List (Equation α)}

/-! ## Substitution -/

/-- A register that an alias is made of is bound before the alias. -/
theorem Ordered.alias_target_bound (h : Ordered bound es) {r : Register} {a : Atom α}
    (hmem : ⟨r, .id, [a]⟩ ∈ es) {s : Register} (hs : s ∈ a.regs) :
    s ∈ bound ∨ s ∈ binders es := by
  obtain ⟨pre, post, rfl⟩ := List.append_of_mem hmem
  have hread : s ∈ (⟨r, .id, [a]⟩ : Equation α).reads := by
    simpa [Equation.reads] using hs
  rcases List.mem_append.mp (h.placed.reads s hread) with hpre | hbound
  · refine Or.inr ?_
    rw [binders, List.map_append]
    exact List.mem_append_left _ (List.mem_reverse.mp hpre)
  · exact Or.inl hbound

/-- **Substitution keeps every operand bound before it is read.**  Each alias stands for an atom
that is bound before it, if it is an alias of these equations, or else before all of them. -/
theorem Ordered.resolve {aliases : Aliases α} (h : Ordered bound es)
    (hold : ∀ r a, aliases.lookup r = some a → r ∈ bound → ∀ s ∈ a.regs, s ∈ bound)
    (hnew : ∀ r a, aliases.lookup r = some a → r ∈ binders es → ⟨r, .id, [a]⟩ ∈ es) :
    Ordered bound (es.map (Equation.resolve aliases)) := by
  induction es generalizing bound with
  | nil => trivial
  | cons e es ih =>
    refine ⟨?_, ?_⟩
    · cases halias : e.isAlias with
      | true =>
        rw [Equation.resolve_of_alias halias]
        exact h.1
      | false =>
        rw [Equation.resolve_of_not_alias halias]
        refine h.1.of_reads rfl ?_ fun s hs => ?_
        · exact (List.length_map _).trans h.1.arity
        · obtain ⟨a, ha, hredirect⟩ := List.mem_map.mp (Equation.mem_reads.mp hs)
          rcases aliases.redirect_cases a with ⟨r, rfl, hr⟩ | ⟨heq, -⟩
          · rw [hredirect] at hr
            exact hold r _ hr (h.1.reads r (Equation.mem_reads.mpr ha)) s
              (List.mem_singleton_self s)
          · rw [heq] at hredirect
            exact h.1.reads s (Equation.mem_reads.mpr (hredirect ▸ ha))
    · rw [e.binder_resolve]
      refine ih h.2 (fun r a hr hmem s hs => ?_) fun r a hr hmem => ?_
      · rcases List.mem_cons.mp hmem with rfl | hmem
        · -- the equation itself makes this alias, of what it reads
          have he := hnew _ a hr List.mem_cons_self
          rcases List.mem_cons.mp he with heq | he
          · refine List.mem_cons_of_mem _ (h.1.reads s ?_)
            rw [← heq]
            simpa [Equation.reads] using hs
          · exact absurd List.mem_cons_self (h.2.binder_not_mem (e := ⟨e.binder, .id, [a]⟩) he)
        · exact List.mem_cons_of_mem _ (hold r a hr hmem s hs)
      · refine (List.mem_cons.mp (hnew r a hr (List.mem_cons_of_mem _ hmem))).resolve_left ?_
        rintro rfl
        exact h.2.not_mem_binders List.mem_cons_self hmem

/-- All aliases of equations in order can be substituted into them at once. -/
theorem Ordered.resolve_aliases {aliases : Aliases α} (h : Ordered bound es)
    (hlookup : ∀ r a, aliases.lookup r = some a ↔ ⟨r, .id, [a]⟩ ∈ es) :
    Ordered bound (es.map (Equation.resolve aliases)) := by
  refine h.resolve (fun r a hr hbound => ?_) fun r a hr _ => (hlookup r a).mp hr
  exact absurd hbound (h.binder_not_mem ((hlookup r a).mp hr))

/-! ## Dropping aliases -/

/-- What is read by equations that the sweep has kept is on its list, if it begins with what all
other equations than aliases read. -/
theorem reads_subset_keepRead {read : List Register}
    (hread : ∀ e ∈ es, e.isAlias = false → ∀ r ∈ e.reads, r ∈ read) :
    ∀ e ∈ (es.foldr keepRead (read, [])).2, ∀ r ∈ e.reads,
      r ∈ (es.foldr keepRead (read, [])).1 := by
  induction es with
  | nil => intro e he; cases he
  | cons e es ih =>
    have ih := ih fun e' he' => hread e' (List.mem_cons_of_mem _ he')
    rw [List.foldr_cons, keepRead]
    cases halias : e.isAlias with
    | true =>
      rw [if_pos rfl]
      split
      · intro e' he' r hr
        rcases List.mem_cons.mp he' with rfl | he'
        · exact List.mem_append_left _ hr
        · exact List.mem_append_right _ (ih e' he' r hr)
      · exact ih
    | false =>
      rw [if_neg Bool.false_ne_true]
      intro e' he' r hr
      rcases List.mem_cons.mp he' with rfl | he'
      · exact subset_keepRead read es (hread _ List.mem_cons_self halias r hr)
      · exact ih e' he' r hr

/-- **Dropping unread aliases keeps every operand bound before it is read.** -/
theorem Ordered.keepRead {read : List Register} (h : Ordered bound es)
    (hread : ∀ e ∈ es, e.isAlias = false → ∀ r ∈ e.reads, r ∈ read) :
    Ordered bound (es.foldr keepRead (read, [])).2 := by
  induction es generalizing bound with
  | nil => trivial
  | cons e es ih =>
    have hrest : ∀ e' ∈ es, e'.isAlias = false → ∀ r ∈ e'.reads, r ∈ read :=
      fun e' he' => hread e' (List.mem_cons_of_mem _ he')
    rw [List.foldr_cons, Trace.keepRead]
    split
    · split
      · exact ⟨h.1, ih h.2 hrest⟩
      · -- nothing that is kept reads the binder, so it need not be bound
        rename_i hunread
        refine (ih h.2 hrest).of_not_read fun e' he' hr => hunread ?_
        exact reads_subset_keepRead hrest e' he' _ hr
    · exact ⟨h.1, ih h.2 hrest⟩

/-- A register that is read at the end is still bound if it was. -/
theorem mem_binders_keepRead {read : List Register} {r : Register} (hr : r ∈ read)
    (hb : r ∈ binders es) : r ∈ binders (es.foldr keepRead (read, [])).2 := by
  obtain ⟨e, he, rfl⟩ := List.mem_map.mp hb
  exact List.mem_map_of_mem (mem_keepRead he fun _ => hr)

end Trace

/-! ## Single passes -/

/-- A trace that may come out of passes over the trace `t`: it passes the check, and it has the same
parameters and some of the same binders, in the same order. -/
structure Trace.TrimOf (t' t : Trace α) : Prop where
  check : t'.check = .ok ()
  params : t'.params = t.params
  binders : (binders t'.equations).Sublist (binders t.equations)

namespace Trace.TrimOf

variable {t t' t'' : Trace α}

theorem wellFormed (h : t'.TrimOf t) : t'.WellFormed := check_eq_ok_iff.mp h.check

theorem refl (h : t.WellFormed) : t.TrimOf t := ⟨check_eq_ok_iff.mpr h, rfl, List.Sublist.refl _⟩

theorem trans (h' : t''.TrimOf t') (h : t'.TrimOf t) : t''.TrimOf t :=
  ⟨h'.check, h'.params.trans h.params, h'.binders.trans h.binders⟩

/-- A trim has no more equations. -/
theorem length_le (h : t'.TrimOf t) : t'.equations.length ≤ t.equations.length := by
  have hle := h.binders.length_le
  rw [Trace.binders, Trace.binders, List.length_map, List.length_map] at hle
  exact hle

end Trace.TrimOf

/-- What passes over the trace `t` may end with: a trim of the trace, or the error that its return
register aliases a literal. -/
def Trace.Trims (t : Trace α) (x : Except (Error α) (Trace α)) : Prop :=
  (∃ r lit, x = .error (.literalReturn r lit)) ∨ ∃ t', x = .ok t' ∧ t'.TrimOf t

/-- Passes that come to an end have made a trim. -/
theorem Trace.Trims.trimOf {t t' : Trace α} (h : t.Trims (.ok t')) : t'.TrimOf t := by
  rcases h with ⟨r, lit, herr⟩ | ⟨u, hok, hu⟩
  · cases herr
  · cases hok
    exact hu

/-- Passes that follow one another. -/
theorem Trace.Trims.bind {t : Trace α} {x : Except (Error α) (Trace α)}
    {f : Trace α → Except (Error α) (Trace α)} (hx : t.Trims x)
    (hf : ∀ t' : Trace α, t'.WellFormed → t'.Trims (f t')) : t.Trims (x >>= f) := by
  rcases hx with ⟨r, lit, rfl⟩ | ⟨t', rfl, ht'⟩
  · exact Or.inl ⟨r, lit, rfl⟩
  · rcases hf t' ht'.wellFormed with ⟨r, lit, herr⟩ | ⟨t'', hok, ht''⟩
    · exact Or.inl ⟨r, lit, herr⟩
    · exact Or.inr ⟨t'', hok, ht''.trans ht'⟩

namespace Trace.WellFormed

variable {t : Trace α}

/-- Equations that are replaced one by one, each by one that stands in for it, make a trim. -/
theorem trimOf_of_forall₂ (h : t.WellFormed) {es : List (Equation α)}
    (hes : List.Forall₂ (fun e e' => e'.StandsInFor e) t.equations es) :
    ({ t with equations := es } : Trace α).TrimOf t := by
  have hbinders := binders_of_forall₂ hes
  refine ⟨check_eq_ok_iff.mpr ⟨h.params, h.ordered.of_forall₂ hes, ?_⟩, rfl, ?_⟩
  · rw [hbinders]
    exact h.ret
  · rw [hbinders]

/-- Resolving aliases trims a well-formed trace, unless its return register aliases a literal. -/
theorem resolveAliases (h : t.WellFormed) : t.Trims t.resolveAliases := by
  obtain ⟨aliases, hlookup, heq⟩ := resolveAliases_eq h.ordered
  rw [heq]
  rcases redirectReturn_eq_ok_or aliases t.ret with hret | ⟨r, x, hret⟩
  · rw [hret]
    refine Or.inr ⟨_, rfl, ?_⟩
    have hord : Ordered t.params (t.equations.map (Equation.resolve aliases)) :=
      h.ordered.resolve_aliases hlookup
    have hbound : ∀ s ∈ (aliases.redirect t.ret).regs, s ∈ t.params ∨ s ∈ binders t.equations := by
      rcases aliases.redirect_cases t.ret with ⟨r, -, hr⟩ | ⟨hstays, -⟩
      · exact fun s hs => h.ordered.alias_target_bound ((hlookup r _).mp hr) hs
      · rw [hstays]
        exact h.ret
    refine ⟨check_eq_ok_iff.mpr ⟨h.params, ?_, fun s hs => ?_⟩, rfl, ?_⟩
    · refine hord.keepRead fun e he halias s hs => List.mem_append_right _ ?_
      exact List.mem_flatMap.mpr ⟨e, List.mem_filter.mpr ⟨he, by simp [halias]⟩, hs⟩
    · refine (hbound s hs).imp_right fun hs' => ?_
      refine mem_binders_keepRead (List.mem_append_left _ hs) ?_
      rw [binders_map_resolve]
      exact hs'
    · rw [← binders_map_resolve aliases t.equations]
      exact (dropUnreadAliases_sublist _ _).map Equation.binder
  · rw [hret]
    exact Or.inl ⟨r, x, rfl⟩

/-- Folding constants trims a well-formed trace. -/
theorem foldConstants [Scalar α] (h : t.WellFormed) : t.Trims t.foldConstants := by
  obtain ⟨es, hes⟩ := Check.exists_mapM_eq_ok fun e he =>
    Equation.exists_fold_eq_ok (h.ordered.arity he)
  refine Or.inr ⟨_, Check.bind_eq_ok.mpr ⟨es, hes, rfl⟩, h.trimOf_of_forall₂ ?_⟩
  refine (Check.mapM_eq_ok.mp hes).imp fun e e' he => ?_
  rcases Equation.fold_cases he with ⟨_, x, -, -, rfl⟩ | ⟨-, rfl⟩
  · exact ⟨rfl, fun _ hplaced => hplaced.of_reads rfl rfl fun r hr => by cases hr⟩
  · exact .refl _

/-- Simplification trims a well-formed trace. -/
theorem simplify [Scalar α] (h : t.WellFormed) : t.simplify.TrimOf t := by
  refine h.trimOf_of_forall₂ ?_
  rw [List.forall₂_map_right_iff, List.forall₂_same]
  intro e _
  have hrewritten : e.Rewritten false (e.simplifyWith Rule.identities) :=
    .of_simplify fun hfold => by cases hfold
  exact hrewritten.standsInFor

/-- Folding and simplification trim a well-formed trace. -/
theorem trimOf_rewrite [Scalar α] {folding : Bool} (h : t.WellFormed) :
    (t.rewrite folding).TrimOf t :=
  h.trimOf_of_forall₂ ((Trace.rewritten h.ordered).imp fun _ _ he => he.standsInFor)

/-- Dropping dead equations trims a well-formed trace. -/
theorem trimOf_dropDead (h : t.WellFormed) : t.dropDead.TrimOf t :=
  ⟨check_eq_ok_iff.mpr h.dropDead, rfl, sweepLive_sublist.map Equation.binder⟩

end Trace.WellFormed

/-! ## Sequences of passes -/

namespace Pass

variable [Scalar α]

/-- The passes that rewrite a trace, each as the optimizer runs it. -/
def rewriting : List (Pass α) :=
  [.foldConstants, .simplify Rule.identities, .resolveAliases, .dropDead]

/-- **What a single pass does to a well-formed trace.**  The end of a round lets it pass. -/
theorem trims {t : Trace α} (h : t.WellFormed) {p : Pass α}
    (hp : p ∈ rewriting ∨ ∃ i, p = .endRound i) : t.Trims (p.apply t) := by
  rcases hp with hp | ⟨i, rfl⟩
  · simp only [rewriting, List.mem_cons, List.not_mem_nil, or_false] at hp
    rcases hp with rfl | rfl | rfl | rfl
    · exact h.foldConstants
    · exact Or.inr ⟨t.simplify, rfl, h.simplify⟩
    · exact h.resolveAliases
    · exact Or.inr ⟨t.dropDead, rfl, h.trimOf_dropDead⟩
  · exact Or.inr ⟨t, Plan.endRound_eq_ok.mpr ⟨h, rfl⟩, .refl h⟩

/-- What any sequence of passes does to a well-formed trace. -/
theorem trims_foldlM {t : Trace α} (h : t.WellFormed) {ps : List (Pass α)}
    (hps : ∀ p ∈ ps, p ∈ rewriting ∨ ∃ i, p = .endRound i) : t.Trims (ps.foldlM apply t) := by
  induction ps generalizing t with
  | nil => exact Or.inr ⟨t, rfl, .refl h⟩
  | cons p ps ih =>
    rw [List.foldlM_cons]
    refine (trims h (hps p List.mem_cons_self)).bind fun t' ht' => ?_
    exact ih ht' fun p' hp' => hps p' (List.mem_cons_of_mem _ hp')

end Pass

namespace Plan

variable [Scalar α] {plan : Plan}

/-- A round is made of rewriting passes and its end. -/
theorem mem_round {i : Nat} {p : Pass α} (hp : p ∈ plan.round i) :
    p ∈ Pass.rewriting ∨ ∃ i, p = .endRound i := by
  unfold round at hp
  rcases List.mem_append.mp hp with hp | hp
  · split at hp
    · rw [List.mem_singleton] at hp
      exact Or.inl (hp ▸ List.mem_cons_self)
    · cases hp
  · simp only [List.mem_cons, List.not_mem_nil, or_false] at hp
    rcases hp with rfl | rfl | rfl
    · exact Or.inl (by simp [Pass.rewriting])
    · exact Or.inl (by simp [Pass.rewriting])
    · exact Or.inr ⟨i, rfl⟩

/-- What the first pass of a round does to a well-formed trace. -/
theorem trims_folded {t : Trace α} (h : t.WellFormed) : t.Trims (plan.folded t) := by
  unfold folded
  split
  · exact h.foldConstants
  · exact Or.inr ⟨t, rfl, .refl h⟩

/-- **A round of a well-formed trace.**  Folding does not fail, and nothing is wrong with the trace
at the end of the round, so all depends on whether aliases can be resolved. -/
theorem foldlM_round_eq {i : Nat} {t : Trace α} (h : t.WellFormed) :
    (plan.round i).foldlM Pass.apply t = (t.rewrite plan.foldConstants).resolveAliases := by
  obtain ⟨u, hu, hsimplify⟩ := exists_folded plan h.ordered
  rw [foldlM_round, hu]
  show (u.simplify.resolveAliases >>= _) = _
  rw [hsimplify]
  cases hresolve : (t.rewrite plan.foldConstants).resolveAliases with
  | error e => rfl
  | ok t' =>
    have hwf : (t.rewrite plan.foldConstants).WellFormed := h.trimOf_rewrite.wellFormed
    have htrims := hwf.resolveAliases
    rw [hresolve] at htrims
    exact endRound_eq_ok.mpr ⟨htrims.trimOf.wellFormed, rfl⟩

/-- What rounds do to a well-formed trace. -/
theorem trims_runRounds {t : Trace α} (h : t.WellFormed) (count i : Nat) :
    t.Trims (plan.runRounds Pass.apply count i t) := by
  induction count generalizing i t with
  | zero => exact Or.inr ⟨t, rfl, .refl h⟩
  | succ count ih =>
    rw [runRounds]
    exact (Pass.trims_foldlM h fun p hp => mem_round hp).bind fun t' ht' => ih ht' (i + 1)

/-- What the optimizer does to a well-formed trace. -/
theorem trims_optimize {t : Trace α} (h : t.WellFormed) : t.Trims (t.optimize plan) := by
  refine (trims_runRounds h _ _).bind fun t' ht' => Pass.trims_foldlM ht' fun p hp => ?_
  unfold closing at hp
  split at hp
  · exact Or.inl (by simp_all [Pass.rewriting])
  · cases hp

end Plan

/-- **Passes keep a trace well formed.**  Take a trace that passes the check.  The optimizer, and
any sequence of rewriting passes, either makes a trim of it, or finds that its return register
aliases a literal; there is no other failure.  So no round makes a trace longer. -/
theorem Trace.passes_trim [Scalar α] {t : Trace α} (hcheck : t.check = .ok ()) :
    (∀ plan : Plan, t.Trims (t.optimize plan)) ∧
    (∀ ps : List (Pass α), (∀ p ∈ ps, p ∈ Pass.rewriting) → t.Trims (ps.foldlM Pass.apply t)) ∧
    ∀ (plan : Plan) (i : Nat) (u u' : Trace α), plan.runRounds Pass.apply i 0 t = .ok u →
      plan.runRounds Pass.apply (i + 1) 0 t = .ok u' →
        u'.equations.length ≤ u.equations.length := by
  have hwf := check_eq_ok_iff.mp hcheck
  refine ⟨fun plan => Plan.trims_optimize hwf, fun ps hps => ?_, fun plan i u u' hu hu' => ?_⟩
  · exact Pass.trims_foldlM hwf fun p hp => Or.inl (hps p hp)
  · obtain ⟨w, hw, hlast⟩ := Plan.runRounds_add_eq_ok.mp hu'
    rw [hu] at hw
    cases hw
    have htrims : t.Trims (.ok u) := hu ▸ Plan.trims_runRounds hwf i 0
    have hround : u.Trims (.ok u') :=
      hlast ▸ Plan.trims_runRounds htrims.trimOf.wellFormed 1 (0 + i)
    exact hround.trimOf.length_le

/-- The trace of `x + x` with `x` behind a chain of two aliases. -/
def chainTrace : Trace Int :=
  let x : Register := ⟨0, 0, .param⟩
  let v (i : UInt32) : Register := ⟨0, i, .result⟩
  { params := [x]
    equations := [⟨v 1, .id, [.reg x]⟩, ⟨v 2, .id, [.reg (v 1)]⟩,
      ⟨v 3, .add, [.reg (v 2), .reg (v 2)]⟩]
    ret := .reg (v 3) }

/-- A round on `chainTrace` drops the end of the chain and keeps the middle, which is read now. -/
theorem Trace.passes_trim_chainTrace :
    chainTrace.check = .ok () ∧ ∃ t', Trace.optimize {} chainTrace = .ok t' ∧
      binders t'.equations = [⟨0, 1, .result⟩, ⟨0, 3, .result⟩] ∧ t'.TrimOf chainTrace := by
  have hopt : Trace.optimize {} chainTrace =
      .ok ⟨chainTrace.params, [⟨⟨0, 1, .result⟩, .id, [.reg ⟨0, 0, .param⟩]⟩,
        ⟨⟨0, 3, .result⟩, .add, [.reg ⟨0, 1, .result⟩, .reg ⟨0, 1, .result⟩]⟩],
        .reg ⟨0, 3, .result⟩⟩ := rfl
  have htrims := (Trace.passes_trim (t := chainTrace) rfl).1 {}
  rw [hopt] at htrims
  exact ⟨rfl, _, hopt, rfl, htrims.trimOf⟩

end DualTrace
