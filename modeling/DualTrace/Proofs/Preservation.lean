/-
# The optimizer preserves meaning

The valuation that a trace computes is fixed before the optimizer starts.  Every pass keeps the
equations sound for it: each computes, from the numbers of its operands, the number of its binder up
to `==`.  The optimized trace therefore has the value of the first one, up to `==`.

* `Equation.Sound`, `Trace.Sound` : soundness for a valuation, on lawful numbers;
* `Trace.Sound.foldConstants`, `Trace.Sound.simplify`, `Trace.Sound.resolveAliases`,
  `Trace.Sound.dropDead` : what each pass keeps;
* `Trace.optimize_preserves` : an optimized trace evaluates like the trace.
-/
import DualTrace.Proofs.Alias
import DualTrace.Proofs.DeadCode
import DualTrace.Proofs.Identity
import DualTrace.Proofs.Lawful
import DualTrace.Proofs.Rounds
import DualTrace.Proofs.Valuation
import Mathlib.Algebra.Ring.Int.Defs

namespace DualTrace

variable {σ α : Type} [Scalar α] {S : α → Prop} {ρ : Valuation α}

/-! ## Sound equations -/

/-- An equation whose numbers are lawful and that computes the number of its binder up to `==`. -/
structure Equation.Sound (S : α → Prop) (ρ : Valuation α) (e : Equation α) : Prop where
  operands : ∀ a ∈ e.rhs.args, S (ρ.value a)
  binder : S (ρ e.binder)
  result : ∃ y, e.rhs.op.eval? (e.rhs.args.map ρ.value) = some y ∧ (y == ρ e.binder) = true

namespace Equation

variable {e e' : Equation α}

/-- An alias is sound when its operand has the number of its binder. -/
theorem sound_alias_iff {r : Register} {a : Atom α} :
    Equation.Sound S ρ ⟨r, .id, [a]⟩ ↔
      S (ρ.value a) ∧ S (ρ r) ∧ (ρ.value a == ρ r) = true := by
  constructor
  · intro h
    obtain ⟨y, hy, heq⟩ := h.result
    cases hy
    exact ⟨h.operands a List.mem_cons_self, h.binder, heq⟩
  · rintro ⟨ha, hr, heq⟩
    refine ⟨fun b hb => ?_, hr, _, rfl, heq⟩
    rw [List.mem_singleton.mp hb]
    exact ha

/-- A sound equation computes a number equal to that of its binder from numbers equal to those of
its operands. -/
theorem Sound.eval?_congr (h : Scalar.LawfulOn S) (he : e.Sound S ρ) {xs : List α}
    (hxs : List.Forall₂ (fun x a => (x == ρ.value a) = true) xs e.rhs.args) :
    ∃ y, e.rhs.op.eval? xs = some y ∧ (y == ρ e.binder) = true := by
  obtain ⟨y, hy, heq⟩ := he.result
  have hargs : ∀ x ∈ e.rhs.args.map ρ.value, S x := by
    intro x hx
    obtain ⟨a, ha, rfl⟩ := List.mem_map.mp hx
    exact he.operands a ha
  have hequal : List.Forall₂ (fun y x => (y == x) = true) (e.rhs.args.map ρ.value) xs :=
    h.forall₂_symm (List.forall₂_map_right_iff.mpr hxs) hargs
  obtain ⟨z, hz, hyz⟩ := Op.eval?_congr h e.rhs.op hargs hequal hy
  have hSy : S y := (h.closed heq).mpr he.binder
  have hSz : S z := h.mem_of_eq hSy hyz
  exact ⟨z, hz, h.trans hSz (h.symm hSy hyz) heq⟩

/-- A sound equation follows its valuation up to `==`, as far as numbers are lawful. -/
theorem Sound.follows (h : Scalar.LawfulOn S) (he : e.Sound S ρ) :
    e.Follows (fun x y => S y → (x == y) = true) ρ := by
  intro xs hxs
  have hequal : List.Forall₂ (fun x a => (x == ρ.value a) = true) xs e.rhs.args := by
    rw [List.forall₂_iff_zip] at hxs ⊢
    exact ⟨hxs.1, fun hmem => hxs.2 hmem (he.operands _ (List.of_mem_zip hmem).2)⟩
  obtain ⟨y, hy, heq⟩ := he.eval?_congr h hequal
  exact ⟨y, hy, fun _ => heq⟩

end Equation

/-! ## Folding -/

/-- An equation stays sound when it is folded. -/
theorem Equation.Sound.fold {e e' : Equation α} (h : Scalar.LawfulOn S) (he : e.Sound S ρ)
    (hfold : e.fold = .ok e') : e'.Sound S ρ := by
  rcases fold_cases hfold with ⟨xs, x, hconst, hx, rfl⟩ | ⟨-, rfl⟩
  · obtain ⟨y, hy, heq⟩ := he.result
    -- the operands are the literals `xs`, so `x` is what the equation computes
    have hargs : e.rhs.args.map ρ.value = xs := by
      rw [(constants?_eq_some_iff.mp hconst).2, List.map_map]
      exact List.map_id xs
    rw [hargs, hx] at hy
    cases hy
    exact sound_alias_iff.mpr ⟨(h.closed heq).mpr he.binder, he.binder, heq⟩
  · exact he

/-! ## Simplification -/

/-- What an instruction reduces to has the number that it computes. -/
theorem Instruction.Reduces.sound (h : Scalar.LawfulOn S) {i : Instruction (Atom α)} {a : Atom α}
    (hred : i.Reduces a) (hargs : ∀ b ∈ i.args, S (ρ.value b)) {x : α}
    (hx : i.op.eval? (i.args.map ρ.value) = some x) (hS : S x) :
    S (ρ.value a) ∧ (ρ.value a == x) = true := by
  -- it is enough to compare the other way round
  have hflip : ∀ {y}, S x → (x == y) = true → S y ∧ (y == x) = true :=
    fun hx hxy => ⟨h.mem_of_eq hx hxy, h.symm hx hxy⟩
  cases hred with
  | add_zero a hy =>
    cases hx
    have ha := hargs a (by simp)
    exact hflip hS (h.trans hS (h.add ha (hargs _ (by simp)) (h.refl ha) hy) (h.add_zero ha))
  | zero_add a hy =>
    cases hx
    have ha := hargs a (by simp)
    exact hflip hS (h.trans hS (h.add (hargs _ (by simp)) ha hy (h.refl ha)) (h.zero_add ha))
  | mul_one a hy =>
    cases hx
    have ha := hargs a (by simp)
    exact hflip hS (h.trans hS (h.mul ha (hargs _ (by simp)) (h.refl ha) hy) (h.mul_one ha))
  | one_mul a hy =>
    cases hx
    have ha := hargs a (by simp)
    exact hflip hS (h.trans hS (h.mul (hargs _ (by simp)) ha hy (h.refl ha)) (h.one_mul ha))
  | mul_zero a hy =>
    cases hx
    have ha := hargs a (by simp)
    exact hflip hS (h.trans hS (h.mul ha (hargs _ (by simp)) (h.refl ha) hy) (h.mul_zero ha))
  | zero_mul a hy =>
    cases hx
    have ha := hargs a (by simp)
    exact hflip hS (h.trans hS (h.mul (hargs _ (by simp)) ha hy (h.refl ha)) (h.zero_mul ha))
  | @iif_one a b c hy =>
    have hchoice : (if Scalar.truthy c then ρ.value a else ρ.value b) = x := Option.some.inj hx
    have hc : S c := hargs (.lit c) (by simp)
    have ha := hargs a (by simp)
    rcases h.truthy_of_eq_one hc hy with htrue | hall
    · rw [if_pos htrue] at hchoice
      rw [← hchoice]
      exact ⟨ha, h.refl ha⟩
    · exact ⟨ha, hall _ _ ha hS⟩
  | @iif_zero b a c hy =>
    have hchoice : (if Scalar.truthy c then ρ.value b else ρ.value a) = x := Option.some.inj hx
    have ha := hargs a (by simp)
    rw [Scalar.LawfulOn.truthy_of_eq_zero hy] at hchoice
    rw [← hchoice]
    exact ⟨ha, h.refl ha⟩

/-- An equation stays sound when it is simplified. -/
theorem Equation.Sound.simplify {e : Equation α} (h : Scalar.LawfulOn S) (he : e.Sound S ρ) :
    (e.simplifyWith Rule.identities).Sound S ρ := by
  rcases e.simplify_cases with ⟨a, hred, heq⟩ | ⟨heq, -⟩
  · rw [heq, sound_alias_iff]
    obtain ⟨y, hy, hyr⟩ := he.result
    have hSy : S y := (h.closed hyr).mpr he.binder
    obtain ⟨hSa, hay⟩ := hred.sound h he.operands hy hSy
    exact ⟨hSa, he.binder, h.trans hSa hay hyr⟩
  · rw [heq]
    exact he

/-! ## Aliases -/

/-- Aliases that stand for lawful numbers equal to those of their registers. -/
def Aliases.Sound (S : α → Prop) (ρ : Valuation α) (aliases : Aliases α) : Prop :=
  ∀ p ∈ aliases, S (ρ.value p.2) ∧ (ρ.value p.2 == ρ p.1) = true

/-- An atom has an equal number after one hop. -/
theorem Aliases.Sound.redirect {aliases : Aliases α} (h : Scalar.LawfulOn S)
    (hal : aliases.Sound S ρ) {a : Atom α} (ha : S (ρ.value a)) :
    S (ρ.value (aliases.redirect a)) ∧ (ρ.value (aliases.redirect a) == ρ.value a) = true := by
  rcases aliases.redirect_cases a with ⟨r, rfl, hr⟩ | ⟨heq, -⟩
  · generalize aliases.redirect (.reg r) = b at hr ⊢
    obtain ⟨pre, post, rfl, -⟩ := List.lookup_eq_some_iff.mp hr
    exact hal (r, b) (List.mem_append_right _ List.mem_cons_self)
  · rw [heq]
    exact ⟨ha, h.refl ha⟩

/-- An equation stays sound when its operands are redirected. -/
theorem Equation.Sound.redirect {aliases : Aliases α} {e : Equation α} (h : Scalar.LawfulOn S)
    (hal : aliases.Sound S ρ) (he : e.Sound S ρ) : (e.redirect aliases).Sound S ρ := by
  have hnear : List.Forall₂ (fun x a => (x == ρ.value a) = true)
      ((e.redirect aliases).rhs.args.map ρ.value) e.rhs.args := by
    unfold Equation.redirect
    rw [List.map_map, List.forall₂_map_left_iff, List.forall₂_same]
    exact fun a ha => (hal.redirect h (he.operands a ha)).2
  obtain ⟨y, hy, heq⟩ := he.eval?_congr h hnear
  refine ⟨fun b hb => ?_, he.binder, y, hy, heq⟩
  obtain ⟨a, ha, rfl⟩ := List.mem_map.mp hb
  exact (hal.redirect h (he.operands a ha)).1

/-- Redirection keeps equations sound and collects sound aliases. -/
theorem Trace.redirectAll_sound (h : Scalar.LawfulOn S) {es : List (Equation α)} :
    ∀ {aliases final : Aliases α} {es' : List (Equation α)}, aliases.Sound S ρ →
      (∀ e ∈ es, e.Sound S ρ) → redirectAll aliases es = .ok (final, es') →
      final.Sound S ρ ∧ ∀ e ∈ es', e.Sound S ρ := by
  induction es with
  | nil =>
    intro aliases final es' hal _ hrun
    cases hrun
    exact ⟨hal, by simp⟩
  | cons e es ih =>
    intro aliases final es' hal hes hrun
    have he := hes e List.mem_cons_self
    have hrest : ∀ e' ∈ es, e'.Sound S ρ := fun e' he' => hes e' (List.mem_cons_of_mem _ he')
    obtain ⟨r, op, args⟩ := e
    rw [redirectAll] at hrun
    by_cases halias : Equation.isAlias ⟨r, op, args⟩
    · rw [if_pos halias] at hrun
      obtain rfl : op = .id := by simpa [Equation.isAlias] using halias
      rcases args with _ | ⟨a, _ | ⟨b, args⟩⟩
      · cases hrun
      · obtain ⟨⟨_, rest⟩, htail, hrun⟩ := Check.bind_eq_ok.mp hrun
        cases hrun
        obtain ⟨hSa, -, heq⟩ := Equation.sound_alias_iff.mp he
        obtain ⟨hfinal, hsound⟩ := ih (List.forall_mem_cons.mpr ⟨⟨hSa, heq⟩, hal⟩) hrest htail
        exact ⟨hfinal, List.forall_mem_cons.mpr ⟨he, hsound⟩⟩
      · cases hrun
    · rw [if_neg halias] at hrun
      obtain ⟨⟨_, rest⟩, htail, hrun⟩ := Check.bind_eq_ok.mp hrun
      cases hrun
      obtain ⟨hfinal, hsound⟩ := ih hal hrest htail
      exact ⟨hfinal, List.forall_mem_cons.mpr ⟨he.redirect h hal, hsound⟩⟩

/-! ## Sound traces -/

/-- A trace with these parameters whose equations are sound and whose return atom has the number
`x`, up to `==`. -/
structure Trace.Sound (S : α → Prop) (ρ : Valuation α) (params : List Register) (x : α)
    (t : Trace α) : Prop where
  params : t.params = params
  equations : ∀ e ∈ t.equations, e.Sound S ρ
  ret_mem : S (ρ.value t.ret)
  ret : (ρ.value t.ret == x) = true

namespace Trace.Sound

variable {t t' : Trace α} {params : List Register} {x : α}

theorem foldConstants (h : Scalar.LawfulOn S) (ht : t.Sound S ρ params x)
    (hrun : t.foldConstants = .ok t') : t'.Sound S ρ params x := by
  obtain ⟨es, hes, hrun⟩ := Check.bind_eq_ok.mp hrun
  cases hrun
  refine ⟨ht.params, fun e' he' => ?_, ht.ret_mem, ht.ret⟩
  obtain ⟨e, he, hfold⟩ := Check.exists_of_mapM_eq_ok hes he'
  exact (ht.equations e he).fold h hfold

theorem simplify (h : Scalar.LawfulOn S) (ht : t.Sound S ρ params x) :
    t.simplify.Sound S ρ params x := by
  refine ⟨ht.params, fun e' he' => ?_, ht.ret_mem, ht.ret⟩
  obtain ⟨e, he, rfl⟩ := List.mem_map.mp he'
  exact (ht.equations e he).simplify h

/-- Folding and simplification keep a trace sound. -/
theorem rewrite {folding : Bool} {bound : List Register} (h : Scalar.LawfulOn S)
    (hord : Trace.Ordered bound t.equations) (ht : t.Sound S ρ params x) :
    (t.rewrite folding).Sound S ρ params x := by
  refine ⟨ht.params, fun e' he' => ?_, ht.ret_mem, ht.ret⟩
  obtain ⟨e, he, rfl⟩ := List.mem_map.mp he'
  have hsound := ht.equations e he
  unfold Equation.rewrite
  split
  · exact (hsound.fold h (Equation.fold_eq_ok (hord.arity he))).simplify h
  · exact hsound.simplify h

theorem resolveAliases (h : Scalar.LawfulOn S) (ht : t.Sound S ρ params x)
    (hrun : t.resolveAliases = .ok t') : t'.Sound S ρ params x := by
  obtain ⟨⟨aliases, es⟩, hes, hrun⟩ := Check.bind_eq_ok.mp hrun
  obtain ⟨ret, hret, hrun⟩ := Check.bind_eq_ok.mp hrun
  cases hrun
  obtain ⟨hal, hsound⟩ := Trace.redirectAll_sound h (by simp [Aliases.Sound]) ht.equations hes
  obtain ⟨hS, heq⟩ := hal.redirect h ht.ret_mem
  rw [Trace.eq_of_redirectReturn hret]
  exact ⟨ht.params, fun e he => hsound e ((Trace.dropUnreadAliases_sublist _ _).subset he), hS,
    h.trans hS heq ht.ret⟩

theorem dropDead (ht : t.Sound S ρ params x) : t.dropDead.Sound S ρ params x :=
  ⟨ht.params, fun e he => ht.equations e (Trace.sweepLive_sublist.subset he), ht.ret_mem, ht.ret⟩

end Trace.Sound

/-! ## Rounds -/

/-- A round keeps a trace sound. -/
theorem Plan.Round.sound {plan : Plan} {t t' : Trace α} {params : List Register} {x : α}
    (h : Scalar.LawfulOn S) (hround : plan.Round t t') (ht : t.Sound S ρ params x) :
    t'.Sound S ρ params x := by
  obtain ⟨u, hfold, hresolve, -⟩ := hround
  have hu : u.Sound S ρ params x := by
    unfold Plan.folded at hfold
    by_cases hplan : plan.foldConstants
    · rw [if_pos hplan] at hfold
      exact ht.foldConstants h hfold
    · rw [if_neg hplan] at hfold
      cases hfold
      exact ht
  exact (hu.simplify h).resolveAliases h hresolve

/-- A well-formed trace is sound for the valuation that it computes, if the numbers that occur are
lawful. -/
theorem Trace.WellFormed.sound {t : Trace α} (hwf : t.WellFormed) (h : Scalar.LawfulOn S)
    {args : List α} (hlen : args.length = t.params.length)
    (hoccurs : ∀ x, t.Occurs args x → S x) :
    t.Sound S (t.valuation args) t.params ((t.valuation args).value t.ret) := by
  have hret := hoccurs _ (hwf.occurs_ret hlen)
  refine ⟨rfl, fun e he => ?_, hret, h.refl hret⟩
  have hbinder := hoccurs _ (hwf.occurs_binder hlen he)
  refine ⟨fun a ha => hoccurs _ (hwf.occurs_operand hlen he ha), hbinder, ?_⟩
  exact ⟨_, hwf.holds args e he, h.refl hbinder⟩

/-- A trace that is sound for the valuation of another one evaluates, and its number is equal to the
expected one. -/
theorem Trace.Sound.evaluate {t t' : Trace α} {args : List α} {x : α} (h : Scalar.LawfulOn S)
    (hwf : t.WellFormed) (hlen : args.length = t.params.length)
    (ht' : t'.Sound S (t.valuation args) t.params x) (hwf' : t'.WellFormed) (m : Machine σ α) :
    ∃ y, t'.computation.evaluate args m = .ok y m ∧ (y == x) = true := by
  -- lawful numbers of the valuation are equal to themselves, and nothing is said of the others
  have hparams : (t'.bind (args.map Value.num)).Near (fun x y => S y → (x == y) = true)
      (t.valuation args) t'.params := by
    intro r hr
    rw [ht'.params] at hr
    refine ⟨_, ?_, h.refl⟩
    rw [Trace.bind, ht'.params]
    exact hwf.lookup_param hlen r hr
  obtain ⟨y, hy, heq⟩ := hwf'.evaluate_near (by rw [ht'.params, hlen]) hparams
    (fun e he => ⟨(ht'.equations e he).follows h, fun _ _ => h.refl⟩) (fun _ _ => h.refl) m
  have hyret := heq ht'.ret_mem
  have hSy : S y := (h.closed hyret).mpr ht'.ret_mem
  exact ⟨y, hy, h.trans hSy hyret ht'.ret⟩

/-- **The optimizer preserves meaning.**  Let a trace pass the check and let arithmetic be lawful on
the numbers that occur when the trace is evaluated.  Whatever the plan, if it leads to another
trace, then both evaluate, and their numbers are equal. -/
theorem Trace.optimize_preserves {t t' : Trace α} {plan : Plan} (hcheck : t.check = .ok ())
    {args : List α} (hlen : args.length = t.params.length) (hoccurs : ∀ x, t.Occurs args x → S x)
    (h : Scalar.LawfulOn S) (hopt : Trace.optimize plan t = .ok t') (m : Machine σ α) :
    ∃ x y, Run.result (t'.computation.evaluate args) m = .ok x ∧
      Run.result (t.computation.evaluate args) m = .ok y ∧ (x == y) = true := by
  have hwf := Trace.check_eq_ok_iff.mp hcheck
  obtain ⟨u, hrounds, rfl⟩ := Trace.optimize_eq_ok.mp hopt
  let x := (t.valuation args).value t.ret
  have hsound := hwf.sound h hlen hoccurs
  have hu : u.WellFormed ∧ u.Sound S (t.valuation args) t.params x :=
    Plan.runRounds_induct (k := 0)
      (P := fun _ u => u.WellFormed ∧ u.Sound S (t.valuation args) t.params x)
      (fun _ _ _ hP hround => ⟨hround.wellFormed, hround.sound h hP.2⟩) ⟨hwf, hsound⟩ hrounds
  obtain ⟨hwf', hsound'⟩ :
      (if plan.dropDead then u.dropDead else u).WellFormed ∧
        (if plan.dropDead then u.dropDead else u).Sound S (t.valuation args) t.params x := by
    split
    · exact ⟨hu.1.dropDead, hu.2.dropDead⟩
    · exact hu
  obtain ⟨y, hy, hyx⟩ := hsound'.evaluate h hwf hlen hwf' m
  refine ⟨y, x, ?_, ?_, hyx⟩
  · unfold Run.result
    rw [hy]
  · unfold Run.result
    rw [hwf.evaluate_eq hlen]

/-- The trace of `x * 1 + 0`, with an equation that nobody needs. -/
def neutralTrace : Trace Int :=
  let x : Register := ⟨0, 0, .param⟩
  let v (i : UInt32) : Register := ⟨0, i, .result⟩
  { params := [x]
    equations := [⟨v 1, .mul, [.reg x, .lit 1]⟩, ⟨v 2, .mul, [.lit 2, .lit 3]⟩,
      ⟨v 3, .add, [.reg (v 1), .lit 0]⟩]
    ret := .reg (v 3) }

/-- Two rounds on `neutralTrace` leave no equation, and its value at five. -/
theorem Trace.optimize_preserves_neutralTrace :
    ∃ t' : Trace Int, Trace.optimize ⟨2, true, true⟩ neutralTrace = .ok t' ∧
      t'.equations.length = 0 ∧
      ∃ x y, Run.result (t'.computation.evaluate [5]) (⟨(), {}⟩ : Machine Unit Int) = .ok x ∧
        Run.result (neutralTrace.computation.evaluate [5]) (⟨(), {}⟩ : Machine Unit Int) = .ok y ∧
        (x == y) = true := by
  have hopt : Trace.optimize ⟨2, true, true⟩ neutralTrace =
      .ok ⟨neutralTrace.params, [], .reg ⟨0, 0, .param⟩⟩ := rfl
  refine ⟨_, hopt, rfl, ?_⟩
  exact Trace.optimize_preserves (S := fun _ : Int => True) rfl rfl (fun _ _ => trivial)
    Scalar.lawfulOn_of_commRing hopt ⟨(), {}⟩

end DualTrace
