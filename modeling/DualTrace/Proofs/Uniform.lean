/-
# Computations that run alike

A computation knows a driver only by its answers, and a tag only by comparing it with others.  So it
runs alike under any two drivers that answer alike, whatever else there is about the two runs.

* `Computation.Uniform` : a computation that runs alike, whatever is compared;
* `Program.uniform`, `Trace.uniform` : closed programs and traces do;
* `Computation.Uniform.jvp`, `Computation.Uniform.nest` : so do their derivatives along numbers.
-/
import DualTrace.Proofs.Comparison
import DualTrace.Proofs.Tower

namespace DualTrace

variable {σ τ α : Type}

/-- A computation that runs alike under drivers that answer alike, whatever is compared. -/
def Computation.Uniform (c : Computation α) : Prop :=
  ∀ ⦃σ τ : Type⦄ ⦃C : Comparison σ τ α⦄ ⦃k : Nat⦄ ⦃S : Value α → Value α → Prop⦄, C.Level k S →
    ∀ ⦃d : Driver σ α⦄ ⦃d' : Driver τ α⦄, C.Drivers k S d d' →
      ∀ ⦃vs ws : List (Value α)⦄, List.Forall₂ S vs ws → C.Alike k S (c.run d vs) (c.run d' ws)

/-! ## Bindings -/

/-- Bindings of the same registers to related values. -/
def Bindings.Alike (S : Value α → Value α → Prop) (env env' : Bindings α) : Prop :=
  List.Forall₂ (fun p q => p.1 = q.1 ∧ S p.2 q.2) env env'

namespace Bindings.Alike

variable {S : Value α → Value α → Prop} {env env' : Bindings α}

/-- A register has related values, or none in both. -/
theorem lookup (h : env.Alike S env') (r : Register) :
    Option.Rel S (env.lookup r) (env'.lookup r) := by
  induction h with
  | nil => exact .none
  | @cons p q _ _ hpq _ ih =>
    obtain ⟨s, v⟩ := p
    obtain ⟨s', w⟩ := q
    obtain ⟨hs, hvw⟩ := hpq
    cases hs
    rw [List.lookup_cons, List.lookup_cons]
    cases r == s with
    | true => exact .some hvw
    | false => exact ih

/-- An atom has related values, or none in both. -/
theorem value (h : env.Alike S env') (hnum : ∀ x, S (.num x) (.num x)) (a : Atom α) :
    Check.Alike S (env.value a) (env'.value a) := by
  cases a with
  | lit x => exact .ok (hnum x)
  | reg r =>
    have hr := h.lookup r
    simp only [Bindings.value]
    generalize env.lookup r = x at hr ⊢
    generalize env'.lookup r = y at hr ⊢
    cases hr with
    | none => exact .error rfl
    | some hvw => exact .ok hvw

/-- Operands have related values, or one of them has none in both. -/
theorem mapM_value (h : env.Alike S env') (hnum : ∀ x, S (.num x) (.num x)) (as : List (Atom α)) :
    Check.Alike (List.Forall₂ S) (as.mapM env.value) (as.mapM env'.value) := by
  induction as with
  | nil => exact .ok .nil
  | cons a as ih =>
    rw [List.mapM_cons, List.mapM_cons]
    exact (h.value hnum a).bind fun v w hvw => ih.bind fun vs ws hvws => .ok (.cons hvw hvws)

/-- Registers that are bound one by one to related values. -/
theorem zip (rs : List Register) {vs ws : List (Value α)} (h : List.Forall₂ S vs ws) :
    Bindings.Alike S (rs.zip vs) (rs.zip ws) := by
  induction h generalizing rs with
  | nil => simp [Bindings.Alike]
  | cons hvw _ ih =>
    cases rs with
    | nil => exact .nil
    | cons r rs => exact .cons ⟨rfl, hvw⟩ (ih rs)

end Bindings.Alike

/-! ## Traces -/

namespace Trace

variable {C : Comparison σ τ α} {k : Nat} {S : Value α → Value α → Prop} {d : Driver σ α}
  {d' : Driver τ α}

/-- Equations are replayed alike. -/
theorem replayEquations_alike (hnum : ∀ x, S (.num x) (.num x)) (hd : C.Drivers k S d d')
    (es : List (Equation α)) :
    ∀ {env env' : Bindings α}, env.Alike S env' →
      C.Alike k (Bindings.Alike S) (replayEquations d env es) (replayEquations d' env' es) := by
  induction es with
  | nil => exact fun henv => .pure henv
  | cons e es ih =>
    intro env env' henv
    have hrhs : Check.Alike (fun i j => i.op = j.op ∧ List.Forall₂ S i.args j.args)
        (e.rhs.mapM env.value) (e.rhs.mapM env'.value) :=
      (henv.mapM_value hnum e.rhs.args).bind fun vs ws hvws => .ok ⟨rfl, hvws⟩
    refine .bind (.ofExcept hrhs) ?_
    rintro ⟨op, vs⟩ ⟨_, ws⟩ ⟨rfl, hvws⟩
    exact .bind (hd op hvws) fun v w hvw => ih (.cons ⟨rfl, hvw⟩ henv)

/-- **A trace runs alike under drivers that answer alike.** -/
theorem uniform (t : Trace α) : t.computation.Uniform := by
  intro σ τ C k S hS d d' hd vs ws hvws
  have hcheck : Check.Alike (fun _ _ : Unit => True) (t.checkArguments vs)
      (t.checkArguments ws) := by
    unfold checkArguments
    rw [hvws.length_eq]
    split
    · exact .ok trivial
    · exact .error rfl
  have hbind : (t.bind vs).Alike S (t.bind ws) :=
    List.forall₂_reverse_iff.mpr (Bindings.Alike.zip t.params hvws)
  refine .bind (.ofExcept hcheck) fun _ _ _ => ?_
  refine .bind (replayEquations_alike hS.num hd t.equations hbind) fun env env' henv => ?_
  exact .ofExcept (henv.value hS.num t.ret)

end Trace

/-! ## Programs and derivatives -/

section Derivatives

variable [Scalar α] {c : Computation α}

/-- A closed program runs alike under drivers that answer alike. -/
theorem Program.uniform {ops : Op → Prop} {p : Program α} (hp : p.Closed ops) :
    p.computation.Uniform :=
  fun _ _ _ _ _ hS _ _ hd _ _ hvws => Program.run_alike hS hd .nil hvws hp

namespace Computation.Uniform

/-- So does a derivative along numbers. -/
theorem jvp (hc : c.Uniform) (ts : List α) : (c.jvp (ts.map Value.num)).Uniform := by
  intro σ τ C k S hS d d' hd vs ws hvws
  have hseeds : List.Forall₂ S (ts.map Value.num) (ts.map Value.num) :=
    List.forall₂_same.mpr fun v hv => by
      obtain ⟨x, -, rfl⟩ := List.mem_map.mp hv
      exact hS.num x
  exact .jvp hS (fun i hi _ _ h => hc (hS.inside hi) (hd.forward hS hi) h) hseeds hvws

/-- And so does a nest of them. -/
theorem nest (hc : c.Uniform) (seeds : List (List α)) : (c.nest seeds).Uniform := by
  induction seeds generalizing c with
  | nil => exact hc
  | cons ts seeds ih => exact ih (hc.jvp ts)

end Computation.Uniform

end Derivatives

end DualTrace
