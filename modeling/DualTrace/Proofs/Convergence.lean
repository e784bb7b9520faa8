/-
# The optimizer converges

The optimizer needs no more rounds than a trace has equations.  The time that an equation needs is
its position: once so many rounds are over, its operands have walked down their chains of aliases
and no rule will match it any more.

* `Trace.Settles` : an atom that reaches the end of its chain within a number of rounds;
* `Trace.Timed` : the timing after `k` rounds, which every round keeps (`Trace.Timed.round`);
* `Trace.Settled` : a trace that no round changes (`Trace.Settled.round_iff`);
* `Trace.optimize_converges` : how long it takes, and what it leads to.

Substitution goes one hop a round while new aliases come up, and an alias keeps the operand that it
had when it came up.  An operand is therefore not timed by its own chain alone: an equation at
position `i` may still turn into an alias until round `i`, and then its reader goes on from there.
-/
import DualTrace.Proofs.DeadCode
import DualTrace.Proofs.Exact
import DualTrace.Proofs.Rounds
import Mathlib.Algebra.Ring.Int.Defs

namespace DualTrace

variable {α : Type} [Scalar α]

/-! ## Chains of aliases -/

omit [Scalar α] in
/-- When `k` rounds are over, an atom settles in `d` more if it is a literal, if nothing binds it,
if it is bound by another equation than an alias with a position that is reached by then, or by an
alias of an atom that settles one round sooner. -/
def Trace.Settles (pos : Register → Nat) (k : Nat) (u : Trace α) : Nat → Atom α → Prop
  | _, .lit _ => True
  | 0, .reg r => ∀ e ∈ u.equations, e.binder = r → e.isAlias = false ∧ pos r ≤ k
  | d + 1, .reg r => ∀ e ∈ u.equations, e.binder = r →
      (e.isAlias = false ∧ pos r ≤ k + (d + 1)) ∨
        ∃ a, e.rhs = ⟨.id, [a]⟩ ∧ Settles pos k u d a

namespace Trace

variable {folding : Bool} {pos : Register → Nat} {k d n : Nat} {u : Trace α}

omit [Scalar α] in
theorem settles_lit (x : α) : u.Settles pos k d (.lit x) := by
  cases d <;> trivial

omit [Scalar α] in
theorem settles_reg_iff {r : Register} : u.Settles pos k d (.reg r) ↔
    ∀ e ∈ u.equations, e.binder = r → (e.isAlias = false ∧ pos r ≤ k + d) ∨
      ∃ d' a, d = d' + 1 ∧ e.rhs = ⟨.id, [a]⟩ ∧ u.Settles pos k d' a := by
  cases d with
  | zero => simp [Settles]
  | succ d => simp [Settles]

omit [Scalar α] in
/-- An atom that settles in time settles in more time. -/
theorem Settles.mono {a : Atom α} (h : u.Settles pos k d a) {d' : Nat} (hd : d ≤ d') :
    u.Settles pos k d' a := by
  induction d generalizing a d' with
  | zero =>
    cases a with
    | lit x => exact settles_lit x
    | reg r =>
      rw [settles_reg_iff] at h ⊢
      intro e he hr
      rcases h e he hr with ⟨hop, hpos⟩ | ⟨_, _, hzero, -⟩
      · exact Or.inl ⟨hop, by omega⟩
      · omega
  | succ d ih =>
    cases a with
    | lit x => exact settles_lit x
    | reg r =>
      rw [settles_reg_iff] at h ⊢
      intro e he hr
      rcases h e he hr with ⟨hop, hpos⟩ | ⟨d₁, a, hsucc, hrhs, ha⟩
      · exact Or.inl ⟨hop, by omega⟩
      · obtain rfl : d = d₁ := by omega
        obtain ⟨d₂, rfl⟩ : ∃ d₂, d' = d₂ + 1 := ⟨d' - 1, by omega⟩
        exact Or.inr ⟨d₂, a, rfl, hrhs, ih ha (by omega)⟩

end Trace

/-! ## The timing of a trace -/

/-- The timing of a trace after `k` of `n` rounds, where `pos` gives the position of each
equation. -/
structure Trace.Timed (folding : Bool) (n : Nat) (pos : Register → Nat) (k : Nat) (u : Trace α) :
    Prop where
  wellFormed : u.WellFormed
  pos_le : ∀ e ∈ u.equations, pos e.binder ≤ n
  /-- Operands settle before the position of their reader. -/
  operands : ∀ e ∈ u.equations, e.isAlias = false → ∀ a ∈ e.rhs.args,
    u.Settles pos k (pos e.binder - 1 - k) a
  /-- An equation is stable once its position is reached. -/
  stable : ∀ e ∈ u.equations, e.isAlias = false → pos e.binder ≤ k → e.Stable folding
  ret : u.Settles pos k (n - k) u.ret
  /-- After a round no alias is left unless one is read by the return atom or another equation. -/
  unread : 0 < k → (∀ e ∈ u.equations, e.isAlias = true → u.ret ≠ .reg e.binder ∧
    ∀ e' ∈ u.equations, e'.isAlias = false → .reg e.binder ∉ e'.rhs.args) →
      ∀ e ∈ u.equations, e.isAlias = false

/-- An equation that is not stable has a position that is still ahead, and what it may become an
alias of settles before that. -/
theorem Trace.Timed.settles_of_not_stable {folding : Bool} {pos : Register → Nat} {k n : Nat}
    {t : Trace α} (ht : t.Timed folding n pos k) {e : Equation α} (he : e ∈ t.equations)
    (halias : e.isAlias = false) (hstable : ¬ e.Stable folding) {a : Atom α}
    (ha : a ∈ e.rhs.args ∨ ∃ x, a = .lit x) :
    k < pos e.binder ∧ t.Settles pos k (pos e.binder - 1 - k) a := by
  constructor
  · by_contra hle
    exact hstable (ht.stable e he halias (Nat.le_of_not_lt hle))
  · rcases ha with ha | ⟨x, rfl⟩
    · exact ht.operands e he halias a ha
    · exact Trace.settles_lit x

/-! ## One round -/

namespace Trace.Resolved

variable {folding : Bool} {pos : Register → Nat} {k d n : Nat} {t t' : Trace α}
  {es : List (Equation α)} {aliases : Aliases α}

/-- Where an equation after a round comes from: an alias stays, a stable equation is redirected, and
any other has become an alias. -/
theorem origin (h : t.Resolved folding es aliases t') {e' : Equation α} (he' : e' ∈ t'.equations) :
    ∃ e ∈ t.equations, e.binder = e'.binder ∧
      ((e.isAlias = true ∧ e' = e) ∨
       (e.isAlias = false ∧ e.Stable folding ∧ e' = e.redirect aliases) ∨
       (e.isAlias = false ∧ ¬ e.Stable folding ∧ ∃ a, e'.rhs = ⟨.id, [a]⟩ ∧
          (a ∈ e.rhs.args ∨ ∃ x, a = .lit x))) := by
  rw [h.equations] at he'
  obtain ⟨e₁, he₁, rfl⟩ := List.mem_map.mp ((dropUnreadAliases_sublist _ _).subset he')
  obtain ⟨e, he, hrew⟩ := h.exists_rewritten he₁
  refine ⟨e, he, ?_⟩
  cases hrew with
  | kept halias =>
    rw [Equation.resolve_of_alias halias]
    exact ⟨rfl, Or.inl ⟨halias, rfl⟩⟩
  | stable halias hstable =>
    rw [Equation.resolve_of_not_alias halias]
    exact ⟨rfl, Or.inr (Or.inl ⟨halias, hstable, rfl⟩)⟩
  | reduced halias hstable ha =>
    rw [Equation.resolve_of_alias rfl]
    exact ⟨rfl, Or.inr (Or.inr ⟨halias, hstable, _, rfl, ha⟩)⟩

/-- What an alias stands for comes from an alias or from an equation that has become one. -/
theorem lookup_origin (h : t.Resolved folding es aliases t') {r : Register} {b : Atom α}
    (hr : aliases.lookup r = some b) :
    ∃ e ∈ t.equations, e.binder = r ∧
      (e.rhs = ⟨.id, [b]⟩ ∨
       (e.isAlias = false ∧ ¬ e.Stable folding ∧ (b ∈ e.rhs.args ∨ ∃ x, b = .lit x))) := by
  obtain ⟨e, he, hrew⟩ := h.exists_rewritten ((h.lookup r b).mp hr)
  refine ⟨e, he, hrew.binder_eq.symm, ?_⟩
  cases hrew with
  | kept halias => exact Or.inl rfl
  | stable halias hstable => exact Or.inl rfl
  | reduced halias hstable ha => exact Or.inr ⟨halias, hstable, ha⟩

/-- An alias that is left after a round was made in it or before, and its readers were
redirected. -/
theorem lookup_of_alias (h : t.Resolved folding es aliases t') (hwf : t'.WellFormed)
    {e' : Equation α} (he' : e' ∈ t'.equations) (halias : e'.isAlias = true) :
    ∃ b, aliases.lookup e'.binder = some b := by
  obtain ⟨b, hb⟩ := Equation.eq_alias (hwf.ordered.arity he') halias
  refine ⟨b, (h.lookup _ _).mpr ?_⟩
  rw [h.equations] at he'
  obtain ⟨e₁, he₁, heq⟩ := List.mem_map.mp ((dropUnreadAliases_sublist _ _).subset he')
  cases halias₁ : e₁.isAlias with
  | true =>
    rw [Equation.resolve_of_alias halias₁] at heq
    rw [← hb, ← heq]
    exact he₁
  | false =>
    rw [Equation.resolve_of_not_alias halias₁] at heq
    have hop : e'.isAlias = e₁.isAlias := by rw [← heq]; rfl
    rw [halias, halias₁] at hop
    cases hop

section Timed

variable (h : t.Resolved folding es aliases t') (ht : t.Timed folding n pos k)

include h ht

/-- An atom settles in the same time after a round. -/
theorem settles_round {a : Atom α} (ha : t.Settles pos k d a) : t'.Settles pos (k + 1) d a := by
  induction d using Nat.strongRecOn generalizing a with
  | ind d ih =>
    cases a with
    | lit x => exact Trace.settles_lit x
    | reg r =>
      rw [Trace.settles_reg_iff] at ha ⊢
      intro e' he' hr'
      obtain ⟨e, he, hbinder, horigin⟩ := h.origin he'
      have hr := hbinder.trans hr'
      rcases horigin with ⟨halias, rfl⟩ | ⟨halias, -, rfl⟩ | ⟨halias, hstable, b, hrhs, hb⟩
      · rcases ha e' he hr with ⟨hop, -⟩ | ⟨d₁, b, rfl, hrhs, hb⟩
        · rw [halias] at hop
          cases hop
        · exact Or.inr ⟨d₁, b, rfl, hrhs, ih d₁ (by omega) hb⟩
      · rcases ha e he hr with ⟨-, hpos⟩ | ⟨d₁, b, rfl, hrhs, -⟩
        · exact Or.inl ⟨halias, by omega⟩
        · exact absurd hrhs (Equation.rhs_ne_alias halias)
      · -- the equation has become an alias, so its position is still ahead
        obtain ⟨hlt, hsettles⟩ := ht.settles_of_not_stable he halias hstable hb
        rw [hr] at hlt hsettles
        rcases ha e he hr with ⟨-, hpos⟩ | ⟨d₁, c, rfl, hrhs', -⟩
        · obtain ⟨d₁, rfl⟩ : ∃ d₁, d = d₁ + 1 := ⟨d - 1, by omega⟩
          exact Or.inr ⟨d₁, b, rfl, hrhs, ih d₁ (by omega) (hsettles.mono (by omega))⟩
        · exact absurd hrhs' (Equation.rhs_ne_alias halias)

/-- A redirected atom settles one round sooner. -/
theorem settles_redirect (hwf : t'.WellFormed) {a : Atom α} (ha : t.Settles pos k d a) :
    t'.Settles pos (k + 1) (d - 1) (aliases.redirect a) := by
  rcases aliases.redirect_cases a with ⟨r, rfl, hr⟩ | ⟨heq, hnone⟩
  · -- the reader goes on to what the alias stands for
    obtain ⟨e, he, rfl, horigin⟩ := h.lookup_origin hr
    rw [Trace.settles_reg_iff] at ha
    rcases horigin with hrhs | ⟨halias, hstable, hb⟩
    · rcases ha e he rfl with ⟨hop, -⟩ | ⟨d₁, b, rfl, hrhs', hb⟩
      · exact absurd hrhs (Equation.rhs_ne_alias hop)
      · rw [hrhs] at hrhs'
        injection hrhs' with _ hargs
        rw [List.singleton_inj.mp hargs]
        exact h.settles_round ht hb
    · obtain ⟨hlt, hsettles⟩ := ht.settles_of_not_stable he halias hstable hb
      rcases ha e he rfl with ⟨-, hpos⟩ | ⟨d₁, c, rfl, hrhs, -⟩
      · exact h.settles_round ht (hsettles.mono (by omega))
      · exact absurd hrhs (Equation.rhs_ne_alias halias)
  · rw [heq]
    cases a with
    | lit x => exact Trace.settles_lit x
    | reg r =>
      rw [Trace.settles_reg_iff] at ha ⊢
      intro e' he' hr'
      -- nothing that binds the register is an alias, or its readers had been redirected
      have halias' : e'.isAlias = false := by
        rw [Bool.eq_false_iff]
        intro halias'
        obtain ⟨b, hb⟩ := h.lookup_of_alias hwf he' halias'
        rw [hr', hnone r rfl] at hb
        cases hb
      obtain ⟨e, he, hbinder, horigin⟩ := h.origin he'
      have hr := hbinder.trans hr'
      refine Or.inl ⟨halias', ?_⟩
      rcases ha e he hr with ⟨-, hpos⟩ | ⟨d₁, c, rfl, hrhs, -⟩
      · omega
      · have halias : e.isAlias = true := Equation.isAlias_iff.mpr (by rw [hrhs])
        rcases horigin with ⟨-, rfl⟩ | ⟨hnot, -⟩ | ⟨hnot, -⟩
        · rw [halias] at halias'
          cases halias'
        · rw [halias] at hnot
          cases hnot
        · rw [halias] at hnot
          cases hnot

omit h in
/-- A settled atom is not an alias, and does not become one. -/
theorem redirect_of_settles_zero (h : t.Resolved folding es aliases t') {a : Atom α}
    (ha : t.Settles pos k 0 a) : aliases.redirect a = a := by
  rcases aliases.redirect_cases a with ⟨r, rfl, hr⟩ | ⟨heq, -⟩
  · obtain ⟨e, he, rfl, horigin⟩ := h.lookup_origin hr
    rw [Trace.settles_reg_iff] at ha
    rcases ha e he rfl with ⟨hop, hpos⟩ | ⟨_, _, hzero, -⟩
    · rcases horigin with hrhs | ⟨halias, hstable, hb⟩
      · exact absurd hrhs (Equation.rhs_ne_alias hop)
      · have hlt := (ht.settles_of_not_stable he halias hstable hb).1
        omega
    · omega
  · exact heq

/-- **A round keeps the timing.** -/
theorem timed (hwf : t'.WellFormed) : t'.Timed folding n pos (k + 1) where
  wellFormed := hwf
  pos_le e' he' := by
    obtain ⟨e, he, hbinder, -⟩ := h.origin he'
    rw [← hbinder]
    exact ht.pos_le e he
  operands e' he' halias' b hb := by
    obtain ⟨e, he, hbinder, ⟨halias, rfl⟩ | ⟨halias, -, rfl⟩ | ⟨-, -, a, hrhs, -⟩⟩ := h.origin he'
    · rw [halias] at halias'
      cases halias'
    · obtain ⟨a, ha, rfl⟩ := List.mem_map.mp hb
      have hsettles := h.settles_redirect ht hwf (ht.operands e he halias a ha)
      exact hsettles.mono (by rw [← hbinder]; omega)
    · exact absurd hrhs (Equation.rhs_ne_alias halias')
  stable e' he' halias' hpos := by
    obtain ⟨e, he, hbinder, ⟨halias, rfl⟩ | ⟨halias, hstable, rfl⟩ | ⟨-, -, a, hrhs, -⟩⟩ :=
      h.origin he'
    · rw [halias] at halias'
      cases halias'
    · -- all operands have settled, so they are not redirected any more
      have hargs : e.rhs.args.map aliases.redirect = e.rhs.args := by
        refine (List.map_congr_left fun a ha => ?_).trans (List.map_id _)
        have hsettles := ht.operands e he halias a ha
        rw [show pos e.binder - 1 - k = 0 by rw [hbinder]; omega] at hsettles
        exact h.redirect_of_settles_zero ht hsettles
      have hsame : e.redirect aliases = e := by
        unfold Equation.redirect
        rw [hargs]
      rw [hsame]
      exact hstable
    · exact absurd hrhs (Equation.rhs_ne_alias halias')
  ret := by
    rw [h.ret]
    exact (h.settles_redirect ht hwf ht.ret).mono (by omega)
  unread _ hunread := by
    rw [h.equations] at hunread ⊢
    exact Trace.not_isAlias_of_unread hunread

end Timed

end Trace.Resolved

/-! ## The first timing -/

section Initial

variable {t : Trace α}

/-- The position of each equation, counted from one. -/
def Trace.position (t : Trace α) (r : Register) : Nat := (binders t.equations).idxOf r + 1

omit [Scalar α] in
/-- What an equation reads stands before it. -/
theorem Trace.WellFormed.position_lt (h : t.WellFormed) {e : Equation α} (he : e ∈ t.equations)
    {r : Register} (hr : .reg r ∈ e.rhs.args) (hb : r ∈ binders t.equations) :
    t.position r < t.position e.binder := by
  unfold position
  obtain ⟨e₀, he₀, rfl⟩ := List.mem_map.mp hb
  have hord := h.ordered
  obtain ⟨pre, post, heqs⟩ := List.append_of_mem he
  rw [heqs] at hord
  have hplaced := hord.placed
  have hpre : e₀.binder ∈ binders pre := by
    rcases List.mem_append.mp (hplaced.reads _ (Equation.mem_reads.mpr hr)) with hpre | hparam
    · exact List.mem_reverse.mp hpre
    · exact absurd hparam (h.ordered.binder_not_mem he₀)
  have hnot : e.binder ∉ binders pre := fun hmem =>
    hplaced.fresh (List.mem_append_left _ (List.mem_reverse.mpr hmem))
  have hsplit : binders t.equations = binders pre ++ e.binder :: binders post := by
    rw [heqs, binders, List.map_append, List.map_cons]
    rfl
  rw [hsplit, List.idxOf_append_of_mem hpre, List.idxOf_append_of_notMem hnot,
    List.idxOf_cons_self]
  have hlt := List.idxOf_lt_length_of_mem hpre
  omega

omit [Scalar α] in
/-- Before the first round an atom settles in as many rounds as the position of its register, or of
any equation behind. -/
theorem Trace.WellFormed.settles (h : t.WellFormed) {p : Nat} {a : Atom α}
    (ha : ∀ r, a = .reg r → r ∈ binders t.equations → t.position r ≤ p) :
    t.Settles t.position 0 p a := by
  induction p generalizing a with
  | zero =>
    cases a with
    | lit x => exact settles_lit x
    | reg r =>
      rw [settles_reg_iff]
      intro e he hr
      have hzero := ha r rfl (hr ▸ List.mem_map_of_mem he)
      exact absurd hzero (Nat.not_succ_le_zero _)
  | succ p ih =>
    cases a with
    | lit x => exact settles_lit x
    | reg r =>
      -- an alias reads something that stands before it, which settles one round sooner
      rw [settles_reg_iff]
      intro e he hr
      have hpos := ha r rfl (hr ▸ List.mem_map_of_mem he)
      cases halias : e.isAlias with
      | false => exact Or.inl ⟨rfl, by omega⟩
      | true =>
        obtain ⟨b, hb⟩ := Equation.eq_alias (h.ordered.arity he) halias
        have hrhs : e.rhs = ⟨.id, [b]⟩ := congrArg Equation.rhs hb
        refine Or.inr ⟨p, b, rfl, hrhs, ih fun s hs hmem => ?_⟩
        have hread : .reg s ∈ e.rhs.args := by
          rw [hrhs, hs]
          exact List.mem_singleton_self _
        have hlt := h.position_lt he hread hmem
        rw [hr] at hlt
        omega

/-- The timing before the first round. -/
theorem Trace.WellFormed.timed (h : t.WellFormed) (folding : Bool) :
    t.Timed folding t.equations.length t.position 0 := by
  have hle : ∀ r ∈ binders t.equations, t.position r ≤ t.equations.length := by
    intro r hr
    have hlt := List.idxOf_lt_length_of_mem hr
    rw [binders, List.length_map] at hlt
    exact hlt
  refine ⟨h, fun e he => hle _ (List.mem_map_of_mem he), fun e he _ a ha => ?_, ?_, ?_, ?_⟩
  · refine h.settles fun r hr hmem => ?_
    have hlt := h.position_lt he (hr ▸ ha) hmem
    omega
  · intro e _ _ hpos
    exact absurd hpos (Nat.not_succ_le_zero _)
  · exact h.settles fun r _ hmem => hle r hmem
  · intro hpos
    exact absurd hpos (Nat.lt_irrefl 0)

end Initial

/-! ## Settled traces -/

/-- A trace that no round changes: it has no alias, and all its equations are stable. -/
structure Trace.Settled (folding : Bool) (u : Trace α) : Prop where
  wellFormed : u.WellFormed
  not_isAlias : ∀ e ∈ u.equations, e.isAlias = false
  stable : ∀ e ∈ u.equations, e.Stable folding

namespace Trace.Settled

variable {folding : Bool} {plan : Plan} {u : Trace α}

/-- Stable equations are not folded. -/
theorem fold_eq (h : u.Settled true) : ∀ e ∈ u.equations, e.fold = .ok e := by
  intro e he
  have hconst : e.constants? = none := by
    cases hconst : e.constants? with
    | none => rfl
    | some xs =>
      obtain ⟨r, hr⟩ := (h.stable e he).register rfl
      rw [(Equation.constants?_eq_some_iff.mp hconst).2] at hr
      simp at hr
  unfold Equation.fold
  rw [hconst]
  rfl

/-- The first pass of a round does not change a settled trace. -/
theorem folded_eq (h : u.Settled plan.foldConstants) : plan.folded u = .ok u := by
  unfold Plan.folded
  cases hfold : plan.foldConstants with
  | false => rfl
  | true =>
    rw [hfold] at h
    have hes : u.equations.mapM Equation.fold = .ok u.equations :=
      Check.mapM_eq_ok.mpr (List.forall₂_same.mpr h.fold_eq)
    exact Check.bind_eq_ok.mpr ⟨_, hes, rfl⟩

/-- Simplification does not change a settled trace. -/
theorem simplify_eq (h : u.Settled folding) : u.simplify = u := by
  have hes : u.equations.map (Equation.simplifyWith Rule.identities) = u.equations := by
    refine (List.map_congr_left fun e he => ?_).trans (List.map_id _)
    rcases e.simplify_cases with ⟨a, hred, -⟩ | ⟨heq, -⟩
    · exact absurd hred ((h.stable e he).irreducible a)
    · exact heq
  unfold Trace.simplify Trace.simplifyWith
  rw [hes]

/-- In a settled trace there is nothing to substitute. -/
theorem resolveAliases_eq (h : u.Settled folding) : u.resolveAliases = .ok u :=
  resolveAliases_of_not_isAlias h.wellFormed.ordered h.not_isAlias

/-- **A settled trace is left as it is by any number of rounds.** -/
theorem runRounds_eq (h : u.Settled plan.foldConstants) (count i : Nat) :
    plan.runRounds Pass.apply count i u = .ok u := by
  induction count generalizing i with
  | zero => rfl
  | succ count ih =>
    refine Plan.runRounds_succ_eq_ok.mpr ⟨u, ⟨u, h.folded_eq, ?_, h.wellFormed⟩, ih (i + 1)⟩
    rw [h.simplify_eq]
    exact h.resolveAliases_eq

/-- A settled trace stays settled without its dead equations. -/
theorem dropDead (h : u.Settled folding) : u.dropDead.Settled folding where
  wellFormed := h.wellFormed.dropDead
  not_isAlias e he := h.not_isAlias e (sweepLive_sublist.subset he)
  stable e he := h.stable e (sweepLive_sublist.subset he)

end Trace.Settled

/-- **When the last position is reached, a trace has settled.** -/
theorem Trace.Timed.settled {folding : Bool} {pos : Register → Nat} {n : Nat} {u : Trace α}
    (h : u.Timed folding n pos n) (hn : u.equations = [] ∨ 0 < n) : u.Settled folding := by
  have halias : ∀ e ∈ u.equations, e.isAlias = false := by
    rcases hn with hnil | hn
    · simp [hnil]
    · refine h.unread hn fun e he halias => ⟨fun hret => ?_, fun e' he' halias' hread => ?_⟩
      · have hsettles := h.ret
        rw [hret, Nat.sub_self] at hsettles
        have hfalse := (hsettles e he rfl).1
        rw [halias] at hfalse
        cases hfalse
      · have hsettles := h.operands e' he' halias' _ hread
        have hle := h.pos_le e' he'
        rw [show pos e'.binder - 1 - n = 0 by omega] at hsettles
        have hfalse := (hsettles e he rfl).1
        rw [halias] at hfalse
        cases hfalse
  exact ⟨h.wellFormed, halias, fun e he => h.stable e he (halias e he) (h.pos_le e he)⟩

/-- After as many rounds as there are equations a trace has settled. -/
theorem Trace.WellFormed.settled_of_runRounds {t o : Trace α} {plan : Plan} (h : t.WellFormed)
    (hrun : plan.runRounds Pass.apply t.equations.length 0 t = .ok o) :
    o.Settled plan.foldConstants := by
  have htimed : o.Timed plan.foldConstants t.equations.length t.position
      (0 + t.equations.length) := by
    refine Plan.runRounds_induct (k := 0)
      (P := fun k u => u.Timed plan.foldConstants t.equations.length t.position k)
      (fun k u u' hu hround => ?_) (h.timed plan.foldConstants) hrun
    obtain ⟨es, aliases, hresolved⟩ := hround.exists_resolved hu.wellFormed
    exact hresolved.timed hu hround.wellFormed
  rw [Nat.zero_add] at htimed
  refine htimed.settled ?_
  cases hes : t.equations with
  | nil =>
    rw [hes] at hrun
    cases hrun
    exact Or.inl hes
  | cons e es => exact Or.inr (Nat.succ_pos _)

/-- **The optimizer converges within as many rounds as there are equations.**  Let a trace pass the
check and be optimized with as many rounds as it has equations, with or without folding.

* More rounds lead to the same trace.
* It has no alias, no identity matches any of its equations, and with folding each of them reads a
  register.
* Without its dead equations it is left as it is by any number of rounds. -/
theorem Trace.optimize_converges {t o : Trace α} {folding : Bool} (hcheck : t.check = .ok ())
    (hopt : Trace.optimize ⟨t.equations.length, folding, false⟩ t = .ok o) :
    (∀ m, t.equations.length ≤ m → Trace.optimize ⟨m, folding, false⟩ t = .ok o) ∧
      (∀ e ∈ o.equations, e.rhs.op ≠ .id) ∧
      (∀ rule ∈ Rule.identities, ∀ e ∈ o.equations, rule.apply e.rhs = none) ∧
      (folding = true → ∀ e ∈ o.equations, ∃ r, .reg r ∈ e.rhs.args) ∧
      ∀ m, Trace.optimize ⟨m, folding, false⟩ o.dropDead = .ok o.dropDead := by
  obtain ⟨u, hrun, ho⟩ := Trace.optimize_eq_ok.mp hopt
  obtain rfl : o = u := ho
  have hsettled : o.Settled folding :=
    (Trace.check_eq_ok_iff.mp hcheck).settled_of_runRounds hrun
  refine ⟨fun m hm => ?_, fun e he hid => ?_, fun rule hrule e he => ?_, fun hfold e he => ?_,
    fun m => ?_⟩
  · obtain ⟨more, rfl⟩ := Nat.exists_eq_add_of_le hm
    refine Trace.optimize_eq_ok.mpr ⟨o, ?_, rfl⟩
    refine Plan.runRounds_add_eq_ok.mpr ⟨o, ?_, hsettled.runRounds_eq _ _⟩
    rw [← hrun]
    exact Plan.runRounds_congr rfl
  · exact Equation.isAlias_eq_false_iff.mp (hsettled.not_isAlias e he) hid
  · exact Rule.apply_eq_none_iff.mpr (hsettled.stable e he).irreducible rule hrule
  · exact (hsettled.stable e he).register hfold
  · exact Trace.optimize_eq_ok.mpr ⟨_, hsettled.dropDead.runRounds_eq _ _, rfl⟩

/-- The trace of `(2 * 3 + 0) * x`. -/
def sixfoldTrace : Trace Int :=
  let x : Register := ⟨0, 0, .param⟩
  let v (i : UInt32) : Register := ⟨0, i, .result⟩
  { params := [x]
    equations := [⟨v 1, .mul, [.lit 2, .lit 3]⟩, ⟨v 2, .add, [.reg (v 1), .lit 0]⟩,
      ⟨v 3, .mul, [.reg (v 2), .reg x]⟩]
    ret := .reg (v 3) }

/-- Three rounds and any more of them make `6 * x` of `sixfoldTrace`. -/
theorem Trace.optimize_converges_sixfoldTrace :
    sixfoldTrace.check = .ok () ∧ ∃ o, Trace.optimize ⟨3, true, false⟩ sixfoldTrace = .ok o ∧
      o.equations = [⟨⟨0, 3, .result⟩, .mul, [.lit 6, .reg ⟨0, 0, .param⟩]⟩] ∧
      ∀ m, 3 ≤ m → Trace.optimize ⟨m, true, false⟩ sixfoldTrace = .ok o := by
  have hopt : Trace.optimize ⟨3, true, false⟩ sixfoldTrace =
      .ok ⟨[⟨0, 0, .param⟩], [⟨⟨0, 3, .result⟩, .mul, [.lit 6, .reg ⟨0, 0, .param⟩]⟩],
        .reg ⟨0, 3, .result⟩⟩ := rfl
  exact ⟨rfl, _, hopt, rfl, (Trace.optimize_converges (t := sixfoldTrace) rfl hopt).1⟩

end DualTrace
