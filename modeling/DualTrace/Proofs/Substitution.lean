/-
# Substituting aliases keeps results

A reader of an alias sees what the identity has answered, and after the substitution it sees the
operand of the identity.  Under direct evaluation both are the same number.  Under an instance of
differentiation they need not be the same value, because the identity lifts what it is given, but no
rule tells a value from its lifting.

* `Value.adopt` : what an instance makes of a value that it is given;
* `Driver.forward_congr` : an instance does not tell a value from what it makes of it;
* `Trace.replayTo_resolve`, `Trace.replayTo_keepRead` : a run under an instance when readers are
  redirected, and when aliases that nobody reads are dropped;
* `Trace.WellFormed.jvp_resolveAliases` : the derivatives are the same computation;
* `Trace.resolveAliases_exact` : evaluations and nests of derivatives, from any two machines.

Nothing is assumed of the numbers, for no operation is carried out on other operands than before.
-/
import DualTrace.Proofs.Counters
import DualTrace.Proofs.Derivative
import DualTrace.Proofs.Elimination
import DualTrace.Proofs.Erasure

namespace DualTrace

variable {σ τ α : Type}

/-! ## Replay up to an atom -/

/-- Runs that go on alike after every answer that can come are the same. -/
theorem Run.bind_congr_gives {β γ : Type} {P : β → Prop} {x : Run σ α β} {f g : β → Run σ α γ}
    (hx : Run.Gives P x) (h : ∀ b, P b → f b = g b) : (x >>= f) = (x >>= g) := by
  funext m
  rw [Run.bind_apply, Run.bind_apply]
  cases hm : x m with
  | ok b m' => exact congrFun (h b (hx m b m' hm)) m'
  | error e m' => rfl

namespace Bindings

variable {bound : List Register} {env : Bindings α} {r : Register} {a : Atom α} {v : Value α}

/-- What an atom stands for stays when a register is bound that is not bound yet. -/
theorem value_cons (hr : env.lookup r = none) (w : Value α) (ha : env.value a = .ok v) :
    Bindings.value ((r, w) :: env) a = .ok v := by
  cases a with
  | lit x => exact ha
  | reg s =>
    have hne : s ≠ r := by
      rintro rfl
      rw [Bindings.value, hr] at ha
      cases ha
    rw [Bindings.value, List.lookup_cons, beq_eq_false_iff_ne.mpr hne]
    exact ha

/-- Bindings for all registers of a list. -/
def Covers (bound : List Register) (env : Bindings α) : Prop :=
  ∀ r ∈ bound, ∃ v, env.lookup r = some v

theorem Covers.cons (h : env.Covers bound) (r : Register) (v : Value α) :
    Bindings.Covers (r :: bound) ((r, v) :: env) := by
  intro s hs
  by_cases hsr : s = r
  · rw [hsr]
    exact ⟨v, List.lookup_cons_self⟩
  · obtain ⟨w, hw⟩ := h s ((List.mem_cons.mp hs).resolve_left hsr)
    exact ⟨w, by rw [List.lookup_cons, beq_eq_false_iff_ne.mpr hsr]; exact hw⟩

theorem Covers.value (h : env.Covers bound) (ha : ∀ r ∈ a.regs, r ∈ bound) :
    ∃ v, env.value a = .ok v := by
  cases a with
  | lit x => exact ⟨_, rfl⟩
  | reg r =>
    obtain ⟨v, hv⟩ := h r (ha r (List.mem_singleton_self r))
    exact ⟨v, by rw [Bindings.value, hv]⟩

end Bindings

namespace Trace

/-- Replay equations and look up an atom afterwards. -/
def replayTo (d : Driver σ α) (env : Bindings α) (es : List (Equation α)) (ret : Atom α) :
    Run σ α (Value α) := do
  let env ← replayEquations d env es
  Run.ofExcept (env.value ret)

variable {d : Driver σ α} {env : Bindings α} {e : Equation α} {es : List (Equation α)}
  {ret : Atom α}

theorem replayTo_nil : replayTo d env [] ret = Run.ofExcept (env.value ret) := pure_bind _ _

/-- The first equation is issued, and the rest is replayed where its binder is bound. -/
theorem replayTo_cons : replayTo d env (e :: es) ret =
    Run.ofExcept (e.rhs.mapM env.value) >>= fun i =>
      d i >>= fun v => replayTo d ((e.binder, v) :: env) es ret := by
  unfold replayTo
  rw [replayEquations, bind_assoc]
  exact congrArg _ (funext fun i => bind_assoc _ _ _)

/-- If the operands have values, the first equation issues an instruction on these. -/
theorem replayTo_cons_of_ok {vs : List (Value α)} (h : e.rhs.args.mapM env.value = .ok vs) :
    replayTo d env (e :: es) ret =
      d ⟨e.rhs.op, vs⟩ >>= fun v => replayTo d ((e.binder, v) :: env) es ret := by
  have hrhs : e.rhs.mapM env.value = .ok ⟨e.rhs.op, vs⟩ := Check.bind_eq_ok.mpr ⟨vs, h, rfl⟩
  rw [replayTo_cons, hrhs, Run.ofExcept_ok, pure_bind]

end Trace

variable [Scalar α] {tag : Tag}

/-! ## What an instance cannot tell -/

namespace Value

/-- What the instance `tag` makes of a value that it is given: a dual number of its own. -/
def adopt (tag : Tag) (v : Value α) : Value α := v.lift tag (.num Scalar.zero)

variable {v w : Value α}

/-- An instance leaves its own dual numbers as they are. -/
theorem adopt_of_ownedBy (h : v.OwnedBy tag) : v.adopt tag = v := by
  obtain ⟨p, d, rfl⟩ := ownedBy_iff_exists.mp h
  exact lift_dual_self tag p d _

/-- Values of which an instance makes the same have the same primal for it. -/
theorem primalFor_of_adopt (h : v.adopt tag = w.adopt tag) :
    v.primalFor tag = w.primalFor tag := by
  rw [← primalFor_lift tag v (.num Scalar.zero), ← primalFor_lift tag w (.num Scalar.zero)]
  exact congrArg (primalFor tag) h

/-- And they have the same tangent. -/
theorem tangentFor_of_adopt (h : v.adopt tag = w.adopt tag) :
    v.tangentFor tag = w.tangentFor tag := by
  rw [← tangentFor_lift tag v, ← tangentFor_lift tag w]
  exact congrArg (tangentFor tag) h

/-- Lists of values of which the instance `tag` makes the same. -/
def SameFor (tag : Tag) (vs ws : List (Value α)) : Prop :=
  List.Forall₂ (fun v w => v.adopt tag = w.adopt tag) vs ws

end Value

namespace Driver

/-- The identity answers with what the instance makes of its operand, and issues nothing. -/
theorem forward_id (d : Driver σ α) (v : Value α) :
    d.forward tag ⟨.id, [v]⟩ = pure (v.adopt tag) := rfl

/-- **No rule tells a value from what the instance makes of it.** -/
theorem forward_congr (d : Driver σ α) (op : Op) {vs ws : List (Value α)}
    (h : Value.SameFor tag vs ws) : d.forward tag ⟨op, vs⟩ = d.forward tag ⟨op, ws⟩ := by
  have hlen : vs.length = ws.length := h.length_eq
  by_cases harity : vs.length = op.arity
  · rcases h with _ | ⟨hx, _ | ⟨hy, _ | ⟨hz, _ | ⟨_, _⟩⟩⟩⟩ <;> cases op <;> cases harity
    case pos.cons.nil.id.refl => exact congrArg (Pure.pure : Value α → Run σ α (Value α)) hx
    case pos.cons.cons.nil.add.refl =>
      simp only [forward, Value.primalFor_of_adopt hx, Value.primalFor_of_adopt hy,
        Value.tangentFor_of_adopt hx, Value.tangentFor_of_adopt hy]
      rfl
    case pos.cons.cons.nil.mul.refl =>
      simp only [forward, Value.primalFor_of_adopt hx, Value.primalFor_of_adopt hy,
        Value.tangentFor_of_adopt hx, Value.tangentFor_of_adopt hy]
      rfl
    case pos.cons.cons.cons.nil.iif.refl =>
      simp only [forward, Value.primalFor_of_adopt hx, Value.primalFor_of_adopt hy,
        Value.primalFor_of_adopt hz, Value.tangentFor_of_adopt hx, Value.tangentFor_of_adopt hy,
        Value.tangentFor_of_adopt hz]
      rfl
  · rw [forward_of_ne d harity, forward_of_ne d (hlen ▸ harity), hlen]

end Driver

/-! ## Bindings under an instance -/

/-- Bindings under the instance `tag` of exactly the registers `bound`, in which each alias has what
the instance makes of the value of its target. -/
structure Bindings.Follows (tag : Tag) (aliases : Aliases α) (bound : List Register)
    (env : Bindings α) : Prop where
  covers : env.Covers bound
  keys : KeysIn bound env
  owned : ∀ r v, env.lookup r = some v → v.OwnedBy tag
  target : ∀ r a v, aliases.lookup r = some a → env.lookup r = some v →
    ∃ w, env.value a = .ok w ∧ w.adopt tag = v

namespace Bindings.Follows

variable {bound : List Register} {env : Bindings α} {aliases : Aliases α} {r : Register}
  {a : Atom α} {v : Value α} (h : env.Follows tag aliases bound)

include h

/-- One more register is bound, to what its target demands if it is an alias. -/
theorem cons (hr : r ∉ bound) (hv : v.OwnedBy tag)
    (htarget : ∀ a, aliases.lookup r = some a → ∃ w, env.value a = .ok w ∧ w.adopt tag = v) :
    Bindings.Follows tag aliases (r :: bound) ((r, v) :: env) := by
  have hnone := h.keys.lookup_eq_none hr
  refine ⟨h.covers.cons r v, h.keys.cons r v, fun s u hs => ?_, fun s a u hsa hs => ?_⟩
  · by_cases hsr : s = r
    · rw [hsr, List.lookup_cons_self] at hs
      cases hs
      exact hv
    · rw [List.lookup_cons, beq_eq_false_iff_ne.mpr hsr] at hs
      exact h.owned s u hs
  · by_cases hsr : s = r
    · rw [hsr, List.lookup_cons_self] at hs
      cases hs
      obtain ⟨w, hw, hadopt⟩ := htarget a (hsr ▸ hsa)
      exact ⟨w, value_cons hnone v hw, hadopt⟩
    · rw [List.lookup_cons, beq_eq_false_iff_ne.mpr hsr] at hs
      obtain ⟨w, hw, hadopt⟩ := h.target s a u hsa hs
      exact ⟨w, value_cons hnone v hw, hadopt⟩

/-- The instance makes the same of an atom and of what the atom is redirected to. -/
theorem value_redirect (ha : ∀ r ∈ a.regs, r ∈ bound) :
    ∃ v w, env.value a = .ok v ∧ env.value (aliases.redirect a) = .ok w ∧
      w.adopt tag = v.adopt tag := by
  obtain ⟨v, hv⟩ := h.covers.value ha
  refine ⟨v, ?_⟩
  rcases aliases.redirect_cases a with ⟨r, rfl, hr⟩ | ⟨hstays, -⟩
  · obtain ⟨u, hu⟩ := h.covers r (ha r (List.mem_singleton_self r))
    obtain ⟨w, hw, hadopt⟩ := h.target r _ u hr hu
    rw [Bindings.value, hu] at hv
    cases hv
    refine ⟨w, by rw [Bindings.value, hu], hw, ?_⟩
    rw [hadopt, Value.adopt_of_ownedBy (h.owned r v hu)]
  · rw [hstays]
    exact ⟨v, hv, hv, rfl⟩

/-- And so it does of operands. -/
theorem mapM_value_redirect {as : List (Atom α)} (has : ∀ a ∈ as, ∀ r ∈ a.regs, r ∈ bound) :
    ∃ vs ws, as.mapM env.value = .ok vs ∧
      (as.map aliases.redirect).mapM env.value = .ok ws ∧ Value.SameFor tag ws vs := by
  induction as with
  | nil => exact ⟨[], [], rfl, rfl, .nil⟩
  | cons a as ih =>
    obtain ⟨v, w, hv, hw, hsame⟩ := h.value_redirect (has a List.mem_cons_self)
    obtain ⟨vs, ws, hvs, hws, hrest⟩ := ih fun b hb => has b (List.mem_cons_of_mem _ hb)
    rw [Check.mapM_eq_ok] at hvs hws
    exact ⟨v :: vs, w :: ws, Check.mapM_eq_ok.mpr (.cons hv hvs),
      Check.mapM_eq_ok.mpr (.cons hw hws), .cons hsame hrest⟩

/-- A register that is bound has a value of which the instance makes nothing else. -/
theorem adopt_value (ha : a.lit? = none) (hv : env.value a = .ok v) : v.adopt tag = v := by
  cases a with
  | lit x => cases ha
  | reg r =>
    cases hr : env.lookup r with
    | none =>
      rw [Bindings.value, hr] at hv
      cases hv
    | some u =>
      rw [Bindings.value, hr] at hv
      cases hv
      exact Value.adopt_of_ownedBy (h.owned r v hr)

/-- A return atom that is not refused has the value that it had before. -/
theorem value_redirectReturn {b : Atom α} (ha : ∀ r ∈ a.regs, r ∈ bound)
    (hret : Trace.redirectReturn aliases a = .ok b) : env.value b = env.value a := by
  obtain ⟨v, w, hv, hw, hsame⟩ := h.value_redirect ha
  have hlit := Trace.lit?_of_redirectReturn hret
  obtain rfl := Trace.eq_of_redirectReturn hret
  cases hreg : a.lit? with
  | some x =>
    cases a with
    | lit y => rfl
    | reg r => cases hreg
  | none =>
    -- both are registers, because an alias of a literal is refused
    rw [h.adopt_value hreg hv, h.adopt_value (hlit.trans hreg) hw] at hsame
    rw [hv, hw, hsame]

end Bindings.Follows

/-! ## Replay under an instance -/

namespace Trace

variable {d : Driver σ α} {env env' : Bindings α} {e : Equation α} {es : List (Equation α)}
  {ret : Atom α} {bound : List Register}

/-- An alias of an atom with a value is bound to what the instance makes of it. -/
theorem replayTo_alias {r : Register} {a : Atom α} {v : Value α} (h : env.value a = .ok v) :
    replayTo (d.forward tag) env (⟨r, .id, [a]⟩ :: es) ret =
      replayTo (d.forward tag) ((r, v.adopt tag) :: env) es ret := by
  have hargs : [a].mapM env.value = .ok [v] := Check.mapM_eq_ok.mpr (.cons h .nil)
  rw [replayTo_cons_of_ok hargs, Driver.forward_id, pure_bind]

/-- **Readers may be redirected.**  Under an instance, equations whose operands go one hop past the
aliases run as they did before, and so does the look-up of a return atom that is not refused. -/
theorem replayTo_resolve {aliases : Aliases α} {ret' : Atom α}
    (hret : redirectReturn aliases ret = .ok ret') (hord : Ordered bound es)
    (haliases : ∀ e ∈ es, ∀ a, aliases.lookup e.binder = some a → e.rhs = ⟨.id, [a]⟩)
    (hbound : ∀ r ∈ ret.regs, r ∈ bound ∨ r ∈ binders es) (henv : env.Follows tag aliases bound) :
    replayTo (d.forward tag) env (es.map (Equation.resolve aliases)) ret' =
      replayTo (d.forward tag) env es ret := by
  induction es generalizing bound env with
  | nil =>
    have hregs : ∀ r ∈ ret.regs, r ∈ bound := fun r hr =>
      (hbound r hr).resolve_right List.not_mem_nil
    rw [List.map_nil, replayTo_nil, replayTo_nil, henv.value_redirectReturn hregs hret]
  | cons e es ih =>
    have hrest : ∀ {v : Value α}, v.OwnedBy tag →
        (∀ a, aliases.lookup e.binder = some a → ∃ w, env.value a = .ok w ∧ w.adopt tag = v) →
        replayTo (d.forward tag) ((e.binder, v) :: env) (es.map (Equation.resolve aliases)) ret' =
          replayTo (d.forward tag) ((e.binder, v) :: env) es ret := by
      intro v hv htarget
      refine ih hord.2 (fun e' he' => haliases e' (List.mem_cons_of_mem _ he')) (fun r hr => ?_)
        (henv.cons hord.1.fresh hv htarget)
      rcases hbound r hr with hr | hr
      · exact Or.inl (List.mem_cons_of_mem _ hr)
      · rcases List.mem_cons.mp hr with rfl | hr
        · exact Or.inl List.mem_cons_self
        · exact Or.inr hr
    have hreads : ∀ a ∈ e.rhs.args, ∀ r ∈ a.regs, r ∈ bound := fun a ha r hr =>
      hord.1.reads r (List.mem_flatMap.mpr ⟨a, ha, hr⟩)
    rw [List.map_cons]
    cases halias : e.isAlias with
    | true =>
      -- an alias reads what it did, and is bound to what its target demands
      rw [Equation.resolve_of_alias halias]
      obtain ⟨a, he⟩ := Equation.eq_alias hord.1.arity halias
      obtain ⟨v, hv⟩ := henv.covers.value (hreads a (by rw [he]; exact List.mem_singleton_self a))
      rw [he, replayTo_alias hv, replayTo_alias hv]
      refine hrest (Value.ownedBy_lift tag v _) fun b hb => ?_
      have hrhs := haliases e List.mem_cons_self b hb
      rw [he] at hrhs
      cases hrhs
      exact ⟨v, hv, rfl⟩
    | false =>
      -- any other equation issues an instruction that the instance cannot tell from the old one
      obtain ⟨vs, ws, hvs, hws, hsame⟩ := henv.mapM_value_redirect hreads
      have hredirected : replayTo (d.forward tag) env
          (e.redirect aliases :: es.map (Equation.resolve aliases)) ret' =
            d.forward tag ⟨e.rhs.op, ws⟩ >>= fun v => replayTo (d.forward tag)
              ((e.binder, v) :: env) (es.map (Equation.resolve aliases)) ret' :=
        replayTo_cons_of_ok hws
      rw [Equation.resolve_of_not_alias halias, hredirected, replayTo_cons_of_ok hvs,
        Driver.forward_congr d e.rhs.op hsame]
      refine Run.bind_congr_gives (Driver.forward_gives d tag _) fun v hv => hrest hv fun a ha => ?_
      exact absurd (haliases e List.mem_cons_self a ha) (Equation.rhs_ne_alias halias)

/-- **Aliases that nobody reads may be dropped.**  Under an instance the equations that are left run
as all of them do, if the bindings agree on what is read. -/
theorem replayTo_keepRead {read : List Register} (hord : Ordered bound es)
    (hread : ∀ e ∈ es, e.isAlias = false → e.reads ⊆ read) (hret : ret.regs ⊆ read)
    (hcovers : env.Covers bound) (hagree : env.Agree (es.foldr keepRead (read, [])).1 env') :
    replayTo (d.forward tag) env' (es.foldr keepRead (read, [])).2 ret =
      replayTo (d.forward tag) env es ret := by
  induction es generalizing bound env env' with
  | nil => rw [List.foldr_nil, replayTo_nil, replayTo_nil, hagree.value hret]
  | cons e es ih =>
    have hread' : ∀ e' ∈ es, e'.isAlias = false → e'.reads ⊆ read :=
      fun e' he' => hread e' (List.mem_cons_of_mem _ he')
    -- an equation that is kept issues the same instruction on both sides
    have hkept : env.Agree (es.foldr keepRead (read, [])).1 env' →
        e.rhs.mapM env'.value = e.rhs.mapM env.value →
        replayTo (d.forward tag) env' (e :: (es.foldr keepRead (read, [])).2) ret =
          replayTo (d.forward tag) env (e :: es) ret := by
      intro hagree hrhs
      rw [replayTo_cons, replayTo_cons, hrhs]
      refine congrArg _ (funext fun i => congrArg _ (funext fun v => ?_))
      exact ih hord.2 hread' (hcovers.cons e.binder v) (hagree.cons e.binder v)
    rw [List.foldr_cons, keepRead] at hagree ⊢
    cases halias : e.isAlias with
    | false =>
      rw [halias, if_neg Bool.false_ne_true] at hagree
      rw [if_neg Bool.false_ne_true]
      refine hkept hagree (hagree.mapM_value fun r hr => ?_)
      exact subset_keepRead read es (hread e List.mem_cons_self halias hr)
    | true =>
      rw [halias, if_pos rfl] at hagree
      rw [if_pos rfl]
      split at hagree
      · rename_i hmem
        rw [if_pos hmem]
        exact hkept (hagree.mono (List.subset_append_right _ _))
          (hagree.mapM_value (List.subset_append_left _ _))
      · rename_i hunread
        rw [if_neg hunread]
        obtain ⟨a, he⟩ := Equation.eq_alias hord.1.arity halias
        obtain ⟨v, hv⟩ := hcovers.value (a := a) fun r hr => hord.1.reads r (by
          rw [he]
          simpa [Equation.reads] using hr)
        rw [he, replayTo_alias hv]
        exact ih hord.2 hread' (hcovers.cons e.binder _) (hagree.cons_dead hunread)

/-! ## Derivatives of a trace without its aliases -/

namespace WellFormed

variable {t t' : Trace α} {aliases : Aliases α} {args : List (Value α)}

omit [Scalar α] in
/-- The equation that binds an alias makes the alias. -/
theorem rhs_of_lookup (h : t.WellFormed)
    (hlookup : ∀ r a, aliases.lookup r = some a ↔ ⟨r, .id, [a]⟩ ∈ t.equations) :
    ∀ e ∈ t.equations, ∀ a, aliases.lookup e.binder = some a → e.rhs = ⟨.id, [a]⟩ := by
  intro e he a ha
  have hsame : e = ⟨e.binder, .id, [a]⟩ :=
    List.inj_on_of_nodup_map h.ordered.binders_nodup he ((hlookup e.binder a).mp ha) rfl
  rw [hsame]

/-- Parameters are bound to dual numbers of the instance, and none of them is an alias. -/
theorem follows_bind (h : t.WellFormed)
    (hlookup : ∀ r a, aliases.lookup r = some a ↔ ⟨r, .id, [a]⟩ ∈ t.equations)
    (hlen : args.length = t.params.length) (hargs : ∀ v ∈ args, v.OwnedBy tag) :
    (t.bind args).Follows tag aliases t.params := by
  have hzip : ∀ {r v}, (t.bind args).lookup r = some v → r ∈ t.params ∧ v ∈ args :=
    fun hr => List.of_mem_zip ((lookup_bind h.params hlen.symm).mp hr)
  refine ⟨fun r hr => ?_, fun r v hr => (hzip hr).1, fun r v hr => hargs v (hzip hr).2, ?_⟩
  · obtain ⟨i, hi, rfl⟩ := List.getElem_of_mem hr
    have hi' : i < args.length := hlen ▸ hi
    have hmem : (t.params[i], args[i]) ∈ t.params.zip args :=
      List.mem_iff_getElem.mpr ⟨i, by simp; omega, List.getElem_zip⟩
    exact ⟨_, (lookup_bind h.params hlen.symm).mpr hmem⟩
  · intro r a v hra hr
    exact absurd (hzip hr).1 (h.ordered.binder_not_mem ((hlookup r a).mp hra))

/-- Under an instance a well-formed trace runs as it does once its aliases are substituted. -/
theorem run_resolveAliases (h : t.WellFormed) (hresolve : t.resolveAliases = .ok t')
    (d : Driver σ α) (hargs : ∀ v ∈ args, v.OwnedBy tag) :
    t'.computation.run (d.forward tag) args = t.computation.run (d.forward tag) args := by
  have hparams : t'.params = t.params := (hresolve ▸ h.resolveAliases).trimOf.params
  have hrun : ∀ u : Trace α, u.params = t.params →
      u.computation.run (d.forward tag) args = Run.ofExcept (t.checkArguments args) >>= fun _ =>
        replayTo (d.forward tag) (t.bind args) u.equations u.ret := by
    rintro ⟨params, es, ret⟩ rfl
    rfl
  rw [hrun t' hparams, hrun t rfl]
  by_cases hlen : args.length = t.params.length
  · obtain ⟨aliases, hlookup, hret, hes⟩ := resolveAliases_eq_ok h.ordered hresolve
    have hfollows := h.follows_bind hlookup hlen hargs
    have hresolved := replayTo_resolve (d := d) hret h.ordered (h.rhs_of_lookup hlookup) h.ret
      hfollows
    rw [← hresolved, hes]
    refine congrArg _ (funext fun _ => ?_)
    refine replayTo_keepRead (h.ordered.resolve_aliases hlookup) (fun e he halias r hr => ?_)
      (List.subset_append_left _ _) hfollows.covers fun _ _ => rfl
    refine List.mem_append_right _ (List.mem_flatMap.mpr ⟨e, ?_, hr⟩)
    exact List.mem_filter.mpr ⟨he, by rw [halias]; rfl⟩
  · have hcheck : (t.checkArguments args : Except (Error α) Unit) =
        .error (.wrongCount .replayArguments t.params.length args.length) := if_neg hlen
    rw [hcheck, Run.ofExcept_error, Run.throw_bind, Run.throw_bind]

/-- **A derivative does not see aliases.**  Along any seeds the derivative of a well-formed trace is
the same computation once its aliases are substituted. -/
theorem jvp_resolveAliases (h : t.WellFormed) (hresolve : t.resolveAliases = .ok t')
    (seeds : List (Value α)) : t'.computation.jvp seeds = t.computation.jvp seeds := by
  have hrun : ∀ {σ : Type} (d : Driver σ α) (args : List (Value α)),
      (t'.computation.jvp seeds).run d args = (t.computation.jvp seeds).run d args := by
    intro σ d args
    by_cases hlen : args.length = seeds.length
    · funext m
      have howned : ∀ v ∈ List.zipWith (Value.lift ⟨m.session.nextTag⟩) args seeds,
          v.OwnedBy ⟨m.session.nextTag⟩ := by
        intro v hv
        rw [← List.map_uncurry_zip_eq_zipWith] at hv
        obtain ⟨p, -, rfl⟩ := List.mem_map.mp hv
        exact Value.ownedBy_lift _ p.1 p.2
      rw [Computation.jvp_apply _ hlen, Computation.jvp_apply _ hlen,
        h.run_resolveAliases hresolve d howned]
    · rw [Computation.jvp_of_ne _ hlen, Computation.jvp_of_ne _ hlen]
  unfold Computation.jvp at hrun ⊢
  congr 1
  funext σ d args
  exact hrun d args

end WellFormed

/-- **Substituting aliases keeps results exactly.**  Take a trace that passes the check and whose
aliases can be resolved, and as many numbers as it has parameters.

* Both traces evaluate, to the same number.
* Along any seeds they have the same derivative, as computations, whatever driver answers them.
* So every nest of derivatives along numbers evaluates to the same number for both, or fails for the
  same kind of reason, even if it is run from other machines, where other tags are taken. -/
theorem resolveAliases_exact {t t' : Trace α} (hcheck : t.check = .ok ())
    (hresolve : t.resolveAliases = .ok t') {xs : List α} (hxs : xs.length = t.params.length)
    (m : Machine σ α) (m' : Machine τ α) :
    (∃ y, Run.result (t'.computation.evaluate xs) m' = .ok y ∧
      Run.result (t.computation.evaluate xs) m = .ok y) ∧
    (∀ seeds : List (Value α), t'.computation.jvp seeds = t.computation.jvp seeds) ∧
    ∀ seeds : List (List α), Check.Alike Eq
      (Run.result ((t'.computation.nest seeds).evaluate xs) m')
      (Run.result ((t.computation.nest seeds).evaluate xs) m) := by
  have hwf := check_eq_ok_iff.mp hcheck
  have htrim : t'.TrimOf t := (hresolve ▸ hwf.resolveAliases).trimOf
  have hparams : ∀ p ∈ t.params.zip xs, t.solution Arithmetic.numbers xs p.1 = p.2 :=
    fun p hp => hwf.solution_param hp
  -- both traces are solved by the same numbers
  have hsolved : t.Solved Arithmetic.numbers (t.solution Arithmetic.numbers xs) t.ret :=
    ⟨hwf.solvedBy_solution xs, rfl, rfl⟩
  have hsolved' := hsolved.resolveAliases hwf hresolve
  have heq := hwf.evaluate_solved hxs hsolved.equations hparams m
  have heq' := htrim.wellFormed.evaluate_solved (htrim.params ▸ hxs) hsolved'.equations
    (htrim.params ▸ hparams) m'
  rw [hsolved'.ret] at heq'
  refine ⟨⟨_, heq', heq⟩, hwf.jvp_resolveAliases hresolve, fun seeds => ?_⟩
  cases seeds with
  | nil =>
    rw [Computation.nest, Computation.nest, heq, heq']
    exact .ok rfl
  | cons ts seeds =>
    rw [Computation.nest, Computation.nest, hwf.jvp_resolveAliases hresolve]
    exact ((t.uniform.jvp ts).nest seeds).evaluate_alike xs m' m

/-- The trace of `x * 5 + x`, with the literal, one factor and the sum behind aliases. -/
def relayedSum : Trace Int :=
  let x : Register := ⟨0, 0, .param⟩
  let v (i : UInt32) : Register := ⟨0, i, .result⟩
  { params := [x]
    equations := [⟨v 1, .id, [.lit 5]⟩, ⟨v 2, .id, [.reg x]⟩, ⟨v 3, .id, [.reg (v 2)]⟩,
      ⟨v 4, .mul, [.reg (v 3), .reg (v 1)]⟩, ⟨v 5, .add, [.reg (v 4), .reg (v 2)]⟩,
      ⟨v 6, .id, [.reg (v 5)]⟩]
    ret := .reg (v 6) }

/-- Of the four aliases of `relayedSum` the one in the middle of a chain is left.  Under an instance
the factor that was an alias of `5` is a dual number, and without the alias it is a number, but the
first derivative stays six and the second zero, also where other tags are taken. -/
theorem resolveAliases_exact_relayedSum :
    relayedSum.check = .ok () ∧ ∃ t', relayedSum.resolveAliases = .ok t' ∧
      binders t'.equations = [⟨0, 2, .result⟩, ⟨0, 4, .result⟩, ⟨0, 5, .result⟩] ∧
      Run.result (t'.computation.evaluate [3]) (⟨(), { nextTag := 7 }⟩ : Machine Unit Int) =
        .ok 18 ∧
      Run.result ((t'.computation.nest [[1]]).evaluate [3])
        (⟨(), { nextTag := 7 }⟩ : Machine Unit Int) = .ok 6 ∧
      Run.result ((t'.computation.nest [[1], [2]]).evaluate [3])
        (⟨(), { nextTag := 7 }⟩ : Machine Unit Int) = .ok 0 := by
  let m : Machine Unit Int := ⟨(), {}⟩
  let m' : Machine Unit Int := ⟨(), { nextTag := 7 }⟩
  have hresolve : relayedSum.resolveAliases = .ok
      ⟨relayedSum.params, [⟨⟨0, 2, .result⟩, .id, [.reg ⟨0, 0, .param⟩]⟩,
        ⟨⟨0, 4, .result⟩, .mul, [.reg ⟨0, 2, .result⟩, .lit 5]⟩,
        ⟨⟨0, 5, .result⟩, .add, [.reg ⟨0, 4, .result⟩, .reg ⟨0, 0, .param⟩]⟩],
        .reg ⟨0, 5, .result⟩⟩ := rfl
  have hx : [(3 : Int)].length = relayedSum.params.length := rfl
  obtain ⟨⟨y, hy, hy'⟩, -, hnest⟩ := resolveAliases_exact rfl hresolve hx m m'
  obtain ⟨p, p', hp, hp', rfl⟩ := (hnest [[1]]).exists_ok rfl
  obtain ⟨q, q', hq, hq', rfl⟩ := (hnest [[1], [2]]).exists_ok rfl
  cases hy'
  cases hp'
  cases hq'
  exact ⟨rfl, _, hresolve, rfl, hy, hp, hq⟩

end Trace

end DualTrace
