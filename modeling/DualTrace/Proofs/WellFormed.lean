/-
# Well-formed traces

What makes a trace well formed, said without the checker:

* `Equation.Placed` : an equation that may stand behind the registers bound so far;
* `Trace.Ordered` : equations that each stand in such a place;
* `Trace.WellFormed` : a trace all of whose parts fit together.

`Trace.check_eq_ok_iff` says that the checker accepts exactly the well-formed traces.  The rest of
the file draws out what the order of the equations gives: no register is bound twice, and an operand
is bound before the equation that reads it.
-/
import DualTrace.Proofs.Check
import DualTrace.Trace.Basic
import Mathlib.Data.List.Nodup

namespace DualTrace

variable {α : Type}

/-! ## Operands -/

/-- A register is read where it stands as an operand. -/
theorem Equation.mem_reads {e : Equation α} {r : Register} :
    r ∈ e.reads ↔ Atom.reg r ∈ e.rhs.args := by
  unfold Equation.reads
  rw [List.mem_flatMap]
  constructor
  · rintro ⟨a, ha, hr⟩
    cases a with
    | lit x => simp [Atom.regs] at hr
    | reg s =>
      rw [Atom.regs, List.mem_singleton] at hr
      rw [hr]
      exact ha
  · intro h
    exact ⟨.reg r, h, List.mem_singleton.mpr rfl⟩

/-! ## Association lists -/

/-- An association list whose keys are among the registers `bound`. -/
def KeysIn {β : Type} (bound : List Register) (l : List (Register × β)) : Prop :=
  ∀ r b, l.lookup r = some b → r ∈ bound

namespace KeysIn

variable {β : Type} {bound : List Register} {l : List (Register × β)} {r : Register}

theorem nil : KeysIn bound ([] : List (Register × β)) := by
  intro r b h
  cases h

/-- A register that is not bound has no entry. -/
theorem lookup_eq_none (h : KeysIn bound l) (hr : r ∉ bound) : l.lookup r = none := by
  cases hb : l.lookup r with
  | none => rfl
  | some b => exact absurd (h r b hb) hr

theorem mono {bound' : List Register} (h : KeysIn bound l) (hsub : bound ⊆ bound') :
    KeysIn bound' l := fun s b hs => hsub (h s b hs)

/-- One more entry makes one more register bound. -/
theorem cons (h : KeysIn bound l) (r : Register) (b : β) :
    KeysIn (r :: bound) ((r, b) :: l) := by
  intro s c hs
  by_cases hsr : s = r
  · rw [hsr]
    exact List.mem_cons_self
  · rw [List.lookup_cons, beq_eq_false_iff_ne.mpr hsr] at hs
    exact List.mem_cons_of_mem _ (h s c hs)

end KeysIn

/-! ## Places -/

/-- An equation that may stand behind the registers `bound`: it has as many operands as its
operation takes, reads bound registers only, and binds a new one. -/
structure Equation.Placed (bound : List Register) (e : Equation α) : Prop where
  arity : e.rhs.args.length = e.rhs.op.arity
  reads : ∀ r ∈ e.reads, r ∈ bound
  fresh : e.binder ∉ bound

/-- Only membership of the bound registers matters for a place. -/
theorem Equation.Placed.congr {bound bound' : List Register} (hb : ∀ r, r ∈ bound ↔ r ∈ bound')
    {e : Equation α} (h : e.Placed bound) : e.Placed bound' where
  arity := h.arity
  reads r hr := (hb r).mp (h.reads r hr)
  fresh hr := h.fresh ((hb _).mpr hr)

/-- An equation that binds the same register and reads bound registers only fits in the same
place. -/
theorem Equation.Placed.of_reads {bound : List Register} {e e' : Equation α} (h : e.Placed bound)
    (hbinder : e'.binder = e.binder) (harity : e'.rhs.args.length = e'.rhs.op.arity)
    (hreads : ∀ r ∈ e'.reads, r ∈ bound) : e'.Placed bound where
  arity := harity
  reads := hreads
  fresh := hbinder ▸ h.fresh

/-- An equation that stands in for another one: it binds the same register, and it fits in every
place of the other. -/
structure Equation.StandsInFor (e' e : Equation α) : Prop where
  binder_eq : e'.binder = e.binder
  placed : ∀ bound, e.Placed bound → e'.Placed bound

theorem Equation.StandsInFor.refl (e : Equation α) : e.StandsInFor e := ⟨rfl, fun _ h => h⟩

namespace Trace

/-- The registers that equations bind, in order. -/
def binders (es : List (Equation α)) : List Register := es.map Equation.binder

/-- Equations in order: each may stand behind the registers `bound` and the binders before it. -/
def Ordered (bound : List Register) : List (Equation α) → Prop
  | [] => True
  | e :: es => e.Placed bound ∧ Ordered (e.binder :: bound) es

/-- A trace whose parts fit together: no parameter occurs twice, every equation is in place, and a
register that is returned is bound. -/
structure WellFormed (t : Trace α) : Prop where
  params : t.params.Nodup
  ordered : Ordered t.params t.equations
  ret : ∀ r ∈ t.ret.regs, r ∈ t.params ∨ r ∈ binders t.equations

/-- Only membership of the bound registers matters for the order of equations. -/
theorem Ordered.congr {es : List (Equation α)} :
    ∀ {bound bound' : List Register}, (∀ r, r ∈ bound ↔ r ∈ bound') →
      Ordered bound es → Ordered bound' es := by
  induction es with
  | nil => intros; trivial
  | cons e es ih =>
    intro bound bound' hb h
    refine ⟨h.1.congr hb, ih ?_ h.2⟩
    intro r
    rw [List.mem_cons, List.mem_cons, hb r]

/-- The order of two lists of equations, one behind the other. -/
theorem ordered_append {xs ys : List (Equation α)} :
    ∀ {bound : List Register}, Ordered bound (xs ++ ys) ↔
      Ordered bound xs ∧ Ordered ((binders xs).reverse ++ bound) ys := by
  induction xs with
  | nil => intro bound; simp [Ordered, binders]
  | cons x xs ih =>
    intro bound
    rw [List.cons_append, Ordered, Ordered, ih, and_assoc]
    simp [binders]

/-- Equations that are replaced one by one stay in order. -/
theorem Ordered.of_forall₂ {es es' : List (Equation α)}
    (h : List.Forall₂ (fun e e' => e'.StandsInFor e) es es') :
    ∀ {bound : List Register}, Ordered bound es → Ordered bound es' := by
  induction h with
  | nil => exact id
  | cons he _ ih =>
    intro bound hord
    refine ⟨he.placed bound hord.1, ?_⟩
    rw [he.binder_eq]
    exact ih hord.2

/-- Equations that are replaced one by one bind the same registers. -/
theorem binders_of_forall₂ {es es' : List (Equation α)}
    (h : List.Forall₂ (fun e e' => e'.StandsInFor e) es es') : binders es' = binders es := by
  induction h with
  | nil => rfl
  | cons he _ ih => exact congrArg₂ List.cons he.binder_eq ih

/-! ## The checker -/

/-- The parameters pass when none of them is bound before. -/
theorem checkParams_eq_ok_iff {ps : List Register} :
    ∀ {bound bound' : List Register},
      (checkParams bound ps : Except (Error α) (List Register)) = .ok bound' ↔
        (ps.Nodup ∧ ∀ p ∈ ps, p ∉ bound) ∧ bound' = ps.reverse ++ bound := by
  induction ps with
  | nil =>
    intro bound bound'
    simp [checkParams, eq_comm]
  | cons p ps ih =>
    intro bound bound'
    rw [checkParams]
    by_cases hp : p ∈ bound
    · simp [hp]
    · rw [if_neg hp, ih]
      simp only [List.nodup_cons, List.mem_cons, List.reverse_cons, List.append_assoc,
        List.singleton_append, not_or]
      constructor
      · rintro ⟨⟨hnd, hps⟩, rfl⟩
        refine ⟨⟨⟨fun h => (hps p h).1 rfl, hnd⟩, ?_⟩, rfl⟩
        rintro q (rfl | hq)
        · exact hp
        · exact (hps q hq).2
      · rintro ⟨⟨⟨hpps, hnd⟩, hps⟩, rfl⟩
        refine ⟨⟨hnd, fun q hq => ⟨?_, hps q (Or.inr hq)⟩⟩, rfl⟩
        rintro rfl
        exact hpps hq

/-- An equation passes when it is in its place. -/
theorem checkEquation_eq_ok_iff {i : Nat} {bound : List Register} {e : Equation α} :
    checkEquation i bound e = .ok () ↔ e.Placed bound := by
  unfold checkEquation
  rw [Check.bind_eq_ok]
  constructor
  · rintro ⟨_, harity, h⟩
    cases hr : e.reads.find? (· ∉ bound) with
    | some r =>
      rw [hr] at h
      cases h
    | none =>
      rw [hr] at h
      by_cases hb : e.binder ∈ bound
      · simp [hb] at h
      · exact ⟨Instruction.checkArity_eq_ok.mp harity, by simpa using List.find?_eq_none.mp hr, hb⟩
  · intro h
    refine ⟨(), Instruction.checkArity_eq_ok.mpr h.arity, ?_⟩
    have hr : e.reads.find? (· ∉ bound) = none := List.find?_eq_none.mpr (by simpa using h.reads)
    rw [hr]
    exact if_neg h.fresh

/-- Equations pass when they are in order. -/
theorem checkEquations_eq_ok_iff {es : List (Equation α)} :
    ∀ {i : Nat} {bound bound' : List Register}, checkEquations i bound es = .ok bound' ↔
      Ordered bound es ∧ bound' = (binders es).reverse ++ bound := by
  induction es with
  | nil =>
    intro i bound bound'
    simp [checkEquations, Ordered, binders, eq_comm]
  | cons e es ih =>
    intro i bound bound'
    rw [checkEquations, Check.bind_eq_ok, Ordered, and_assoc]
    constructor
    · rintro ⟨_, he, h⟩
      refine ⟨checkEquation_eq_ok_iff.mp he, ?_⟩
      simpa [binders] using ih.mp h
    · rintro ⟨he, h⟩
      refine ⟨(), checkEquation_eq_ok_iff.mpr he, ih.mpr ?_⟩
      simpa [binders] using h

/-- A return atom passes when it is a literal or bound. -/
theorem checkReturn_eq_ok_iff {bound : List Register} {a : Atom α} :
    checkReturn bound a = .ok () ↔ ∀ r ∈ a.regs, r ∈ bound := by
  cases a with
  | lit x => simp [checkReturn, Atom.regs]
  | reg r => by_cases h : r ∈ bound <;> simp [checkReturn, Atom.regs, h]

/-- **The checker accepts exactly the well-formed traces.** -/
theorem check_eq_ok_iff {t : Trace α} : t.check = .ok () ↔ t.WellFormed := by
  have hrev : ∀ r, r ∈ t.params.reverse ++ [] ↔ r ∈ t.params := by simp
  have hmem : ∀ r, r ∈ (binders t.equations).reverse ++ (t.params.reverse ++ []) ↔
      (r ∈ t.params ∨ r ∈ binders t.equations) := by simp [or_comm]
  unfold check
  rw [Check.bind_eq_ok]
  constructor
  · rintro ⟨bound, hparams, h⟩
    obtain ⟨⟨hnd, -⟩, rfl⟩ := checkParams_eq_ok_iff.mp hparams
    obtain ⟨bound, hes, hret⟩ := Check.bind_eq_ok.mp h
    obtain ⟨hord, rfl⟩ := checkEquations_eq_ok_iff.mp hes
    refine ⟨hnd, hord.congr hrev, fun r hr => (hmem r).mp ?_⟩
    exact checkReturn_eq_ok_iff.mp hret r hr
  · intro h
    refine ⟨_, checkParams_eq_ok_iff.mpr ⟨⟨h.params, by simp⟩, rfl⟩, ?_⟩
    refine Check.bind_eq_ok.mpr ⟨_, checkEquations_eq_ok_iff.mpr
      ⟨h.ordered.congr fun r => (hrev r).symm, rfl⟩, ?_⟩
    exact checkReturn_eq_ok_iff.mpr fun r hr => (hmem r).mpr (h.ret r hr)

/-- A trace that passes the check is returned as it is. -/
theorem checked_eq_ok_iff {t u : Trace α} : t.checked = .ok u ↔ t.WellFormed ∧ u = t := by
  unfold checked
  rw [Check.bind_eq_ok]
  constructor
  · rintro ⟨_, hcheck, h⟩
    exact ⟨check_eq_ok_iff.mp hcheck, (Except.ok.inj h).symm⟩
  · rintro ⟨h, rfl⟩
    exact ⟨(), check_eq_ok_iff.mpr h, rfl⟩

/-! ## What the order gives -/

section Ordered

variable {bound : List Register} {es : List (Equation α)}

/-- An equation is in its place behind the binders of the equations before it. -/
theorem Ordered.placed {pre post : List (Equation α)} {e : Equation α}
    (h : Ordered bound (pre ++ e :: post)) : e.Placed ((binders pre).reverse ++ bound) :=
  (ordered_append.mp h).2.1

/-- No equation reads what is bound behind it. -/
theorem Ordered.not_read_before {pre post : List (Equation α)} {e e' : Equation α}
    (h : Ordered bound (pre ++ e :: post)) (he' : e' ∈ pre) : e.binder ∉ e'.reads := by
  obtain ⟨pre', mid, rfl⟩ := List.append_of_mem he'
  intro hread
  refine h.placed.fresh ?_
  rw [List.append_assoc] at h
  rcases List.mem_append.mp (h.placed.reads _ hread) with hpre | hbound
  · refine List.mem_append_left _ (List.mem_reverse.mpr ?_)
    rw [binders, List.map_append]
    exact List.mem_append_left _ (List.mem_reverse.mp hpre)
  · exact List.mem_append_right _ hbound

/-- Every operation has as many operands as it takes. -/
theorem Ordered.arity (h : Ordered bound es) {e : Equation α} (he : e ∈ es) :
    e.rhs.args.length = e.rhs.op.arity := by
  obtain ⟨pre, post, rfl⟩ := List.append_of_mem he
  exact h.placed.arity

/-- No equation binds a register that is bound before all of them. -/
theorem Ordered.binder_not_mem (h : Ordered bound es) {e : Equation α} (he : e ∈ es) :
    e.binder ∉ bound := by
  obtain ⟨pre, post, rfl⟩ := List.append_of_mem he
  intro hb
  exact h.placed.fresh (List.mem_append_right _ hb)

/-- A register that is bound before all equations is bound by none of them. -/
theorem Ordered.not_mem_binders (h : Ordered bound es) {r : Register} (hr : r ∈ bound) :
    r ∉ binders es := by
  intro hmem
  obtain ⟨e, he, hbinder⟩ := List.mem_map.mp hmem
  exact h.binder_not_mem he (hbinder ▸ hr)

/-- No register is bound by two equations. -/
theorem Ordered.binders_nodup (h : Ordered bound es) : (binders es).Nodup := by
  induction es generalizing bound with
  | nil => exact List.nodup_nil
  | cons e es ih =>
    exact List.nodup_cons.mpr ⟨h.2.not_mem_binders List.mem_cons_self, ih h.2⟩

end Ordered

end Trace

end DualTrace
