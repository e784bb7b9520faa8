/-
# Dead equations do not matter

The optimizer makes the same of the live part of a trace whether the dead equations are there or
not, although dead equations may keep aliases alive for as long as they read them.

* `Trace.live` : the registers that the return atom depends on;
* `Trace.WellFormed.sweepLive_map` : a pass over single equations by which what is live reads
  nothing but what was live;
* `Trace.foldConstants_dropDead` : folding leaves the same equations live;
* `Trace.WellFormed.dropDead_rewrite`, `Trace.WellFormed.map_dropDead_resolveAliases` : the steps of
  a round on a trace and on its live part;
* `Plan.map_dropDead_runRounds` : rounds on two traces that have the same live part;
* `Trace.optimize_ignores_dead` : the optimizer on a trace and on its live part.
-/
import DualTrace.Proofs.DeadCode
import DualTrace.Proofs.Passes

namespace DualTrace

variable {α : Type} {t : Trace α}

/-! ## Live registers -/

namespace Trace

/-- The registers that the return atom of a trace depends on. -/
def live (t : Trace α) : List Register := (sweepLive t.ret.regs t.equations).1

/-- What the return atom reads is live. -/
theorem regs_ret_subset_live : t.ret.regs ⊆ t.live :=
  fun _ hr => mem_live_iff.mpr (Or.inl hr)

/-- What a live equation reads is live. -/
theorem reads_subset_live {e : Equation α} (he : e ∈ t.dropDead.equations) : e.reads ⊆ t.live :=
  fun _ hr => mem_live_iff.mpr (Or.inr ⟨e, he, hr⟩)

namespace WellFormed

/-- The live equations are those with a live binder. -/
theorem mem_dropDead (h : t.WellFormed) {e : Equation α} (he : e ∈ t.equations)
    (hlive : e.binder ∈ t.live) : e ∈ t.dropDead.equations := mem_sweepLive h.ordered he hlive

/-- **The live part under a pass over single equations.**  If what was live reads only what was live
afterwards, and so does the new return atom, then it makes no difference whether dead equations are
dropped first. -/
theorem sweepLive_map (h : t.WellFormed) {f : Equation α → Equation α} {ret : Atom α}
    (hbinder : ∀ e ∈ t.equations, (f e).binder = e.binder) (hret : ret.regs ⊆ t.live)
    (hreads : ∀ e ∈ t.dropDead.equations, (f e).reads ⊆ t.live) :
    sweepLive ret.regs (t.dropDead.equations.map f) = sweepLive ret.regs (t.equations.map f) := by
  have hnd : (t.equations.map f).Nodup := by
    have hbinders : (t.equations.map f).map Equation.binder = binders t.equations := by
      rw [List.map_map]
      exact List.map_congr_left hbinder
    exact List.Nodup.of_map Equation.binder (hbinders ▸ h.ordered.binders_nodup)
  have hlive : ∀ r ∈ (sweepLive ret.regs (t.equations.map f)).1, r ∈ t.live := by
    refine live_induct hret fun e' he' hb r hr => ?_
    obtain ⟨e, he, rfl⟩ := List.mem_map.mp he'
    rw [hbinder e he] at hb
    exact hreads e (h.mem_dropDead he hb) hr
  refine sweepLive_of_sublist (sweepLive_sublist.map f) hnd fun e' he' hb => ?_
  obtain ⟨e, he, rfl⟩ := List.mem_map.mp he'
  have hb := hlive _ hb
  rw [hbinder e he] at hb
  exact List.mem_map_of_mem (h.mem_dropDead he hb)

end WellFormed

end Trace

/-! ## Folding and simplification -/

section Rewrite

variable [Scalar α] {folding : Bool}

/-- A folded equation binds and reads the same, for an equation that is computed reads nothing. -/
theorem Equation.binder_reads_of_fold {e e' : Equation α} (h : e.fold = .ok e') :
    e'.binder = e.binder ∧ e'.reads = e.reads := by
  rcases fold_cases h with ⟨xs, x, hconst, -, rfl⟩ | ⟨-, rfl⟩
  · refine ⟨rfl, ?_⟩
    have hnone : xs.flatMap (fun y => (Atom.lit y).regs) = [] :=
      List.flatMap_eq_nil_iff.mpr fun _ _ => rfl
    unfold reads
    rw [(constants?_eq_some_iff.mp hconst).2, List.flatMap_map, hnone]
    rfl
  · exact ⟨rfl, rfl⟩

/-- **Folding leaves the same equations live**, so the live part of the folded trace is the folded
live part. -/
theorem Trace.foldConstants_dropDead {u : Trace α} (h : t.foldConstants = .ok u) :
    t.dropDead.foldConstants = .ok u.dropDead := by
  obtain ⟨es, hes, hu⟩ := Check.bind_eq_ok.mp h
  cases hu
  have hkept : List.Forall₂ (fun e e' => e.fold = .ok e') (sweepLive t.ret.regs t.equations).2
      (sweepLive t.ret.regs es).2 :=
    (sweepLive_forall₂ Equation.binder_reads_of_fold (Check.mapM_eq_ok.mp hes)).2
  exact Check.bind_eq_ok.mpr ⟨_, Check.mapM_eq_ok.mpr hkept, rfl⟩

/-- The first pass of a round leaves the same equations live, whether it folds or not. -/
theorem Plan.folded_dropDead {plan : Plan} {u : Trace α} (h : plan.folded t = .ok u) :
    plan.folded t.dropDead = .ok u.dropDead := by
  unfold folded at h ⊢
  by_cases hfold : plan.foldConstants
  · rw [if_pos hfold] at h ⊢
    exact Trace.foldConstants_dropDead h
  · rw [if_neg hfold] at h ⊢
    cases h
    rfl

/-- A rewritten equation reads nothing new. -/
theorem Equation.Rewritten.reads_subset {e e' : Equation α} (h : e.Rewritten folding e') :
    e'.reads ⊆ e.reads := by
  cases h with
  | kept _ => exact List.Subset.refl _
  | stable _ _ => exact List.Subset.refl _
  | @reduced a _ _ ha =>
    intro r hr
    rw [Equation.mem_reads, List.mem_singleton] at hr
    rcases ha with ha | ⟨x, rfl⟩
    · exact Equation.mem_reads.mpr (hr ▸ ha)
    · cases hr

/-- Folding and simplification make the same of the live part of a trace. -/
theorem Trace.WellFormed.dropDead_rewrite (h : t.WellFormed) :
    (t.dropDead.rewrite folding).dropDead = (t.rewrite folding).dropDead := by
  have hbinder : ∀ e ∈ t.equations, (e.rewrite folding).binder = e.binder :=
    fun e he => (Equation.rewritten (h.ordered.arity he)).binder_eq
  have hreads : ∀ e ∈ t.dropDead.equations, (e.rewrite folding).reads ⊆ t.live := by
    intro e he
    have hrewritten : e.Rewritten folding (e.rewrite folding) :=
      Equation.rewritten (h.dropDead.ordered.arity he)
    exact List.Subset.trans hrewritten.reads_subset (Trace.reads_subset_live he)
  have hsweep := h.sweepLive_map hbinder Trace.regs_ret_subset_live hreads
  exact congrArg (fun state => { t with equations := state.2 }) hsweep

end Rewrite

/-! ## Aliases -/

namespace Trace

/-- Aliases that are not kept are dead. -/
theorem Ordered.sweepLive_dropUnreadAliases {bound : List Register} {es : List (Equation α)}
    (h : Ordered bound es) (ret : Atom α) :
    Trace.sweepLive ret.regs (dropUnreadAliases ret es) = Trace.sweepLive ret.regs es := by
  let read := ret.regs ++ (es.filter fun e => !e.isAlias).flatMap Equation.reads
  have hread : ∀ e ∈ es, e.isAlias = false → ∀ r ∈ e.reads, r ∈ read := by
    intro e he halias r hr
    refine List.mem_append_right _ (List.mem_flatMap.mpr ⟨e, List.mem_filter.mpr ⟨he, ?_⟩, hr⟩)
    rw [halias]
    rfl
  -- whatever is live is on the list of the other sweep in the end
  have hlive : ∀ r ∈ (Trace.sweepLive ret.regs es).1,
      r ∈ (es.foldr Trace.keepRead (read, [])).1 := by
    refine live_induct (fun r hr => ?_) fun e he hb => ?_
    · exact subset_keepRead read es (List.mem_append_left _ hr)
    · exact reads_subset_keepRead hread e (mem_keepRead_of_mem h he fun _ => hb)
  refine sweepLive_of_sublist (dropUnreadAliases_sublist ret es) ?_ fun e he hb => ?_
  · exact List.Nodup.of_map Equation.binder h.binders_nodup
  · exact mem_keepRead_of_mem h he fun _ => hlive _ hb

namespace WellFormed

/-- A live register is the same alias in the live part of a trace. -/
theorem lookup_dropDead (h : t.WellFormed) {aliases kept : Aliases α}
    (hlookup : ∀ r a, aliases.lookup r = some a ↔ ⟨r, .id, [a]⟩ ∈ t.equations)
    (hkept : ∀ r a, kept.lookup r = some a ↔ ⟨r, .id, [a]⟩ ∈ t.dropDead.equations) :
    ∀ r ∈ t.live, kept.lookup r = aliases.lookup r := by
  intro r hr
  refine Option.ext fun a => ?_
  rw [hlookup, hkept]
  exact ⟨fun he => sweepLive_sublist.subset he, fun he => h.mem_dropDead he hr⟩

/-- What a live atom is an alias of is live. -/
theorem regs_redirect_subset_live (h : t.WellFormed) {aliases : Aliases α}
    (hlookup : ∀ r a, aliases.lookup r = some a ↔ ⟨r, .id, [a]⟩ ∈ t.equations) {a : Atom α}
    (ha : a.regs ⊆ t.live) : (aliases.redirect a).regs ⊆ t.live := by
  rcases aliases.redirect_cases a with ⟨r, rfl, hr⟩ | ⟨hstays, -⟩
  · have hlive : r ∈ t.live := ha (List.mem_singleton_self r)
    have halias := h.mem_dropDead ((hlookup r _).mp hr) hlive
    intro s hs
    refine reads_subset_live halias ?_
    simpa [Equation.reads] using hs
  · rw [hstays]
    exact ha

/-- What a live equation reads after substitution was live before. -/
theorem reads_resolve_subset_live (h : t.WellFormed) {aliases : Aliases α}
    (hlookup : ∀ r a, aliases.lookup r = some a ↔ ⟨r, .id, [a]⟩ ∈ t.equations) {e : Equation α}
    (he : e ∈ t.dropDead.equations) : (e.resolve aliases).reads ⊆ t.live := by
  unfold Equation.resolve
  split
  · exact reads_subset_live he
  · intro s hs
    obtain ⟨a, ha, hredirect⟩ := List.mem_map.mp (Equation.mem_reads.mp hs)
    have hregs : a.regs ⊆ t.live := by
      cases a with
      | lit x => exact List.nil_subset _
      | reg r =>
        intro r' hr'
        rw [List.mem_singleton.mp hr']
        exact reads_subset_live he (Equation.mem_reads.mpr ha)
    refine h.regs_redirect_subset_live hlookup hregs ?_
    rw [hredirect]
    exact List.mem_singleton_self s

/-- **Substitution makes the same of the live part of a trace.** -/
theorem map_dropDead_resolveAliases (h : t.WellFormed) :
    t.dropDead.resolveAliases.map Trace.dropDead = t.resolveAliases.map Trace.dropDead := by
  obtain ⟨aliases, hlookup, heq⟩ := resolveAliases_eq h.ordered
  obtain ⟨kept, hkept, heq'⟩ := resolveAliases_eq h.dropDead.ordered
  have hsame := h.lookup_dropDead hlookup hkept
  have hret : redirectReturn kept t.ret = redirectReturn aliases t.ret := by
    cases hatom : t.ret with
    | lit x => rfl
    | reg r =>
      have hr : r ∈ t.live := by
        refine regs_ret_subset_live ?_
        rw [hatom]
        exact List.mem_singleton_self r
      rw [redirectReturn, redirectReturn, hsame r hr]
  have hes : t.dropDead.equations.map (Equation.resolve kept) =
      t.dropDead.equations.map (Equation.resolve aliases) := by
    refine List.map_congr_left fun e he => ?_
    unfold Equation.resolve
    rw [Equation.redirect_congr fun r hr => hsame r (reads_subset_live he hr)]
  rw [heq, heq', hes]
  show ((redirectReturn kept t.ret).map _).map _ = _
  rw [hret]
  cases hredirect : redirectReturn aliases t.ret with
  | error e => rfl
  | ok ret =>
    obtain rfl := eq_of_redirectReturn hredirect
    have hsweep := h.sweepLive_map (f := Equation.resolve aliases)
      (fun e _ => e.binder_resolve aliases)
      (h.regs_redirect_subset_live hlookup regs_ret_subset_live)
      fun e he => h.reads_resolve_subset_live hlookup he
    have hord := h.ordered.resolve_aliases hlookup
    have hord' := h.dropDead.ordered.resolve_aliases hkept
    rw [hes] at hord'
    have hfinal := (hord'.sweepLive_dropUnreadAliases _).trans
      (hsweep.trans (hord.sweepLive_dropUnreadAliases _).symm)
    exact congrArg (fun state => Except.ok { t with
      equations := state.2, ret := aliases.redirect t.ret }) hfinal

end WellFormed

end Trace

/-! ## Rounds -/

section Rounds

variable [Scalar α] {plan : Plan}

/-- A round makes the same of the live part of a trace. -/
theorem Plan.map_dropDead_round {i : Nat} (h : t.WellFormed) :
    ((plan.round i).foldlM Pass.apply t.dropDead).map Trace.dropDead =
      ((plan.round i).foldlM Pass.apply t).map Trace.dropDead := by
  have hwf : (t.rewrite plan.foldConstants).WellFormed := h.trimOf_rewrite.wellFormed
  have hwf' : (t.dropDead.rewrite plan.foldConstants).WellFormed :=
    h.dropDead.trimOf_rewrite.wellFormed
  rw [foldlM_round_eq h, foldlM_round_eq h.dropDead]
  calc (t.dropDead.rewrite plan.foldConstants).resolveAliases.map Trace.dropDead
      = (t.dropDead.rewrite plan.foldConstants).dropDead.resolveAliases.map Trace.dropDead :=
        hwf'.map_dropDead_resolveAliases.symm
    _ = (t.rewrite plan.foldConstants).dropDead.resolveAliases.map Trace.dropDead := by
        rw [h.dropDead_rewrite]
    _ = (t.rewrite plan.foldConstants).resolveAliases.map Trace.dropDead :=
        hwf.map_dropDead_resolveAliases

/-- A round from a trace to another one is also a round on the live part, to a trace that has the
same live part. -/
theorem Plan.Round.exists_dropDead {t' : Trace α} (hround : plan.Round t t') (h : t.WellFormed) :
    ∃ s, plan.Round t.dropDead s ∧ s.dropDead = t'.dropDead := by
  have hlive : ((plan.round 0).foldlM Pass.apply t.dropDead).map Trace.dropDead =
      ((plan.round 0).foldlM Pass.apply t).map Trace.dropDead := map_dropDead_round h
  rw [round_eq_ok.mpr hround] at hlive
  rcases Check.map_eq_map.mp hlive with ⟨e, -, herr⟩ | ⟨s, u, hs, hu, heq⟩
  · cases herr
  · cases hu
    exact ⟨s, round_eq_ok.mp hs, heq⟩

/-- **Rounds on two traces that have the same live part.**  They fail with the same error, or the
traces that they lead to have the same live part again. -/
theorem Plan.map_dropDead_runRounds {count i : Nat} {s : Trace α} (ht : t.WellFormed)
    (hs : s.WellFormed) (hlive : s.dropDead = t.dropDead) :
    (plan.runRounds Pass.apply count i s).map Trace.dropDead =
      (plan.runRounds Pass.apply count i t).map Trace.dropDead := by
  induction count generalizing i t s with
  | zero => exact congrArg Except.ok hlive
  | succ count ih =>
    have hround : ((plan.round i).foldlM Pass.apply s).map Trace.dropDead =
        ((plan.round i).foldlM Pass.apply t).map Trace.dropDead := by
      rw [← map_dropDead_round hs, hlive, map_dropDead_round ht]
    rw [runRounds, runRounds]
    rcases Check.map_eq_map.mp hround with ⟨e, hs', ht'⟩ | ⟨s', t', hs', ht', hlive'⟩
    · rw [hs', ht']
    · rw [hs', ht']
      exact ih (round_eq_ok.mp ht').wellFormed (round_eq_ok.mp hs').wellFormed hlive'

/-- **Dead code never influences how live code is optimized.**  Let a trace pass the check, and let
the optimizer go through any number of rounds, with or without folding constants, on the trace and
on the trace without its dead equations.  Either it fails on both with the same error, or it
succeeds on both, and the results are the same without their dead equations. -/
theorem Trace.optimize_ignores_dead (hcheck : t.check = .ok ()) (rounds : Nat) (folding : Bool) :
    (∃ e, Trace.optimize ⟨rounds, folding, false⟩ t = .error e ∧
      Trace.optimize ⟨rounds, folding, false⟩ t.dropDead = .error e) ∨
    ∃ u v, Trace.optimize ⟨rounds, folding, false⟩ t = .ok u ∧
      Trace.optimize ⟨rounds, folding, false⟩ t.dropDead = .ok v ∧ u.dropDead = v.dropDead := by
  have hwf := check_eq_ok_iff.mp hcheck
  have hoptimize : ∀ u : Trace α, Trace.optimize ⟨rounds, folding, false⟩ u =
      Plan.runRounds Pass.apply ⟨rounds, folding, false⟩ rounds 0 u := fun u => bind_pure _
  rw [hoptimize, hoptimize]
  exact Check.map_eq_map.mp
    (Plan.map_dropDead_runRounds hwf.dropDead hwf (dropDead_dropDead t).symm)

/-- The trace of `x + x` with one operand behind an alias.  The product, which nobody needs, reads
an alias of the alias. -/
def watchedTrace : Trace Int :=
  let x : Register := ⟨0, 0, .param⟩
  let v (i : UInt32) : Register := ⟨0, i, .result⟩
  { params := [x]
    equations := [⟨v 1, .mul, [.reg x, .lit 1]⟩, ⟨v 2, .add, [.reg (v 1), .lit 0]⟩,
      ⟨v 3, .mul, [.reg (v 2), .reg (v 2)]⟩, ⟨v 4, .add, [.reg (v 1), .reg x]⟩]
    ret := .reg (v 4) }

/-- After a round on `watchedTrace` the product still keeps an alias, and without the product none
is left; the live part is the same. -/
theorem Trace.optimize_ignores_dead_watchedTrace :
    ∃ u v, Trace.optimize ⟨1, false, false⟩ watchedTrace = .ok u ∧
      Trace.optimize ⟨1, false, false⟩ watchedTrace.dropDead = .ok v ∧
      binders u.equations = [⟨0, 1, .result⟩, ⟨0, 3, .result⟩, ⟨0, 4, .result⟩] ∧
      binders v.equations = [⟨0, 4, .result⟩] ∧ u.dropDead = v.dropDead := by
  have hopt : Trace.optimize ⟨1, false, false⟩ watchedTrace =
      .ok ⟨watchedTrace.params, [⟨⟨0, 1, .result⟩, .id, [.reg ⟨0, 0, .param⟩]⟩,
        ⟨⟨0, 3, .result⟩, .mul, [.reg ⟨0, 1, .result⟩, .reg ⟨0, 1, .result⟩]⟩,
        ⟨⟨0, 4, .result⟩, .add, [.reg ⟨0, 0, .param⟩, .reg ⟨0, 0, .param⟩]⟩],
        .reg ⟨0, 4, .result⟩⟩ := rfl
  have hopt' : Trace.optimize ⟨1, false, false⟩ watchedTrace.dropDead =
      .ok ⟨watchedTrace.params, [⟨⟨0, 4, .result⟩, .add,
        [.reg ⟨0, 0, .param⟩, .reg ⟨0, 0, .param⟩]⟩], .reg ⟨0, 4, .result⟩⟩ := rfl
  rcases Trace.optimize_ignores_dead (t := watchedTrace) rfl 1 false with
    ⟨e, herr, -⟩ | ⟨u, v, hu, hv, hlive⟩
  · rw [hopt] at herr
    cases herr
  · rw [hopt] at hu
    rw [hopt'] at hv
    cases hu
    cases hv
    exact ⟨_, _, hopt, hopt', rfl, rfl, hlive⟩

end Rounds

end DualTrace
