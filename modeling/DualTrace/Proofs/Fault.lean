/-
# Faults

The checker goes through a trace once and keeps a list of the registers bound so far.  Here is what
it looks for, said of all equations and all pairs of them, and which fault it names.

* `Trace.BoundBefore` : a register that is bound before a position;
* `Trace.Coherent` : a trace without faults;
* `Equation.AtFault`, `Equation.Fault` : an equation with a fault, and the error that names it;
* `Trace.check_exact` : the checker accepts exactly the coherent traces, and of several equations at
  fault it names the first.
-/
import DualTrace.Proofs.Renaming
import Mathlib.Data.Nat.Find

namespace DualTrace

variable {α : Type}

/-! ## Registers bound before a position -/

/-- A register is bound before position `i` if it is a parameter or the binder of an equation that
stands further up. -/
def Trace.BoundBefore (t : Trace α) (i : Nat) (r : Register) : Prop :=
  r ∈ t.params ∨ ∃ j f, j < i ∧ t.equations[j]? = some f ∧ f.binder = r

/-- An equation at position `i` splits the list of equations there. -/
theorem Trace.eq_take_append {es : List (Equation α)} {i : Nat} {e : Equation α}
    (h : es[i]? = some e) : es = es.take i ++ e :: es.drop (i + 1) ∧ (es.take i).length = i := by
  obtain ⟨hi, rfl⟩ := List.getElem?_eq_some_iff.mp h
  refine ⟨?_, by rw [List.length_take]; omega⟩
  rw [← List.drop_eq_getElem_cons hi, List.take_append_drop]

/-- Before an equation are bound the parameters and the binders of the equations in front of it. -/
theorem Trace.boundBefore_iff {t : Trace α} {i : Nat} {r : Register} :
    t.BoundBefore i r ↔ r ∈ (binders (t.equations.take i)).reverse ++ t.params := by
  rw [BoundBefore, List.mem_append, List.mem_reverse, or_comm]
  refine or_congr_left ?_
  rw [binders, List.mem_map]
  constructor
  · rintro ⟨j, f, hj, hf, rfl⟩
    exact ⟨f, List.mem_of_getElem? (List.getElem?_take_of_lt hj ▸ hf), rfl⟩
  · rintro ⟨f, hf, rfl⟩
    obtain ⟨j, hj⟩ := List.mem_iff_getElem?.mp hf
    obtain ⟨hlt, -⟩ := List.getElem?_eq_some_iff.mp hj
    have hji : j < i := by
      rw [List.length_take] at hlt
      omega
    exact ⟨j, f, hji, List.getElem?_take_of_lt hji ▸ hj, rfl⟩

/-! ## Coherent traces -/

/-- A trace without faults: no register is bound twice, every equation has as many operands as its
operation takes and reads only what is bound before it, and a register that is returned is bound. -/
structure Trace.Coherent (t : Trace α) : Prop where
  distinct : (t.params ++ binders t.equations).Nodup
  arity : ∀ e ∈ t.equations, e.rhs.args.length = e.rhs.op.arity
  reads : ∀ i e, t.equations[i]? = some e → ∀ r, .reg r ∈ e.rhs.args → t.BoundBefore i r
  ret : ∀ r, t.ret = .reg r → r ∈ t.params ∨ ∃ e ∈ t.equations, e.binder = r

/-- Equations are in order when each stands in its place. -/
theorem Trace.ordered_iff_placed {bound : List Register} {es : List (Equation α)} :
    Ordered bound es ↔
      ∀ (i : Nat) (e : Equation α), es[i]? = some e →
        e.Placed ((binders (es.take i)).reverse ++ bound) := by
  constructor
  · intro h i e hi
    obtain ⟨hsplit, -⟩ := eq_take_append hi
    rw [hsplit] at h
    exact h.placed
  · intro h
    induction es generalizing bound with
    | nil => trivial
    | cons e es ih =>
      refine ⟨h 0 e rfl, ih fun i f hi => ?_⟩
      have hplaced := h (i + 1) f hi
      simpa [binders] using hplaced

/-- The well-formed traces are the coherent ones. -/
theorem Trace.wellFormed_iff_coherent {t : Trace α} : t.WellFormed ↔ t.Coherent := by
  constructor
  · intro h
    refine ⟨h.nodup_registers, fun e he => h.ordered.arity he, fun i e hi r hr => ?_,
      fun r hr => ?_⟩
    · exact boundBefore_iff.mpr
        ((ordered_iff_placed.mp h.ordered i e hi).reads r (Equation.mem_reads.mpr hr))
    · refine (h.ret r (by rw [hr]; exact List.mem_singleton_self r)).imp_right fun hb => ?_
      exact List.mem_map.mp hb
  · intro h
    obtain ⟨hparams, -, hdisjoint⟩ := List.nodup_append.mp h.distinct
    refine ⟨hparams, ordered_iff_placed.mpr fun i e hi =>
      ⟨?_, fun r hr => ?_, fun hbound => ?_⟩, ?_⟩
    · exact h.arity e (List.mem_of_getElem? hi)
    · exact boundBefore_iff.mp (h.reads i e hi r (Equation.mem_reads.mp hr))
    · -- the binder would stand twice among the registers of the trace
      have hdistinct := h.distinct
      obtain ⟨hsplit, -⟩ := eq_take_append hi
      rw [hsplit, binders, List.map_append, List.map_cons, ← List.append_assoc,
        List.nodup_middle, List.nodup_cons] at hdistinct
      refine hdistinct.1 (List.mem_append_left _ ?_)
      rw [List.mem_append, List.mem_reverse, or_comm, ← List.mem_append] at hbound
      exact hbound
    · intro r hr
      refine (h.ret r ?_).imp_right fun hb => List.mem_map.mpr hb
      cases hret : t.ret with
      | lit x => rw [hret] at hr; cases hr
      | reg s => rw [hret] at hr; rw [List.mem_singleton.mp hr]

/-! ## Equations at fault -/

namespace Equation

variable {B : Register → Prop} {i : Nat} {e : Equation α} {error : Error α}

/-- An equation is at fault where the registers `B` are bound if it has a wrong number of operands,
reads a register that is not bound, or binds one that is. -/
def AtFault (B : Register → Prop) (e : Equation α) : Prop :=
  e.rhs.args.length ≠ e.rhs.op.arity ∨ (∃ r, .reg r ∈ e.rhs.args ∧ ¬ B r) ∨ B e.binder

/-- The error that names the fault of an equation at position `i`.  A wrong number of operands comes
before an operand that is not bound, and the first such operand before a binder that is bound
already. -/
inductive Fault (i : Nat) (B : Register → Prop) (e : Equation α) : Error α → Prop
  | count (h : e.rhs.args.length ≠ e.rhs.op.arity) :
      Fault i B e (.wrongCount (.operands e.rhs.op) e.rhs.op.arity e.rhs.args.length)
  | early {pre post : List (Atom α)} {r : Register} (harity : e.rhs.args.length = e.rhs.op.arity)
      (hargs : e.rhs.args = pre ++ .reg r :: post) (hpre : ∀ s, .reg s ∈ pre → B s) (hr : ¬ B r) :
      Fault i B e (.earlyRead i r)
  | rebinding (harity : e.rhs.args.length = e.rhs.op.arity)
      (hreads : ∀ r, .reg r ∈ e.rhs.args → B r) (hbinder : B e.binder) :
      Fault i B e (.rebinding i e.binder)

/-- An equation is at fault exactly where it has no place. -/
theorem atFault_iff_not_placed {bound : List Register} (hB : ∀ r, r ∈ bound ↔ B r) :
    e.AtFault B ↔ ¬ e.Placed bound := by
  constructor
  · rintro (h | ⟨r, hr, hunbound⟩ | h) hplaced
    · exact h hplaced.arity
    · exact hunbound ((hB r).mp (hplaced.reads r (mem_reads.mpr hr)))
    · exact hplaced.fresh ((hB _).mpr h)
  · intro h
    by_contra hfault
    simp only [AtFault, not_or, not_exists, not_and, not_not] at hfault
    obtain ⟨harity, hreads, hfresh⟩ := hfault
    exact h ⟨harity, fun r hr => (hB r).mpr (hreads r (mem_reads.mp hr)),
      fun hb => hfresh ((hB _).mp hb)⟩

/-- The first register that an equation reads without its being bound. -/
theorem exists_first_unbound {bound : List Register} {r : Register} {as : List (Atom α)}
    (h : (as.flatMap Atom.regs).find? (· ∉ bound) = some r) :
    ∃ pre post, as = pre ++ .reg r :: post ∧ (∀ s, .reg s ∈ pre → s ∈ bound) ∧ r ∉ bound := by
  induction as with
  | nil => cases h
  | cons a as ih =>
    rw [List.flatMap_cons, List.find?_append] at h
    -- the first operand is a literal, or bound, or the one that is looked for
    have hskip : (a.regs.find? (· ∉ bound)) = none → (∀ s, a = .reg s → s ∈ bound) →
        ∃ pre post, a :: as = pre ++ .reg r :: post ∧ (∀ s, .reg s ∈ pre → s ∈ bound) ∧
          r ∉ bound := by
      intro hnone hbound
      rw [hnone, Option.none_or] at h
      obtain ⟨pre, post, rfl, hpre, hr⟩ := ih h
      refine ⟨a :: pre, post, rfl, fun s hs => ?_, hr⟩
      rcases List.mem_cons.mp hs with hs | hs
      · exact hbound s hs.symm
      · exact hpre s hs
    cases a with
    | lit x => exact hskip rfl fun s hs => by cases hs
    | reg s =>
      by_cases hs : s ∈ bound
      · exact hskip (by simp [Atom.regs, hs]) fun s' hs' => by cases hs'; exact hs
      · have hfound : (Atom.regs (.reg s : Atom α)).find? (· ∉ bound) = some s := by
          simp [Atom.regs, hs]
        rw [hfound, Option.some_or, Option.some.injEq] at h
        subst h
        exact ⟨[], as, rfl, fun _ h => by simp at h, hs⟩

end Equation

namespace Trace

/-- What the checker reports about an equation is its fault. -/
theorem fault_of_checkEquation {B : Register → Prop} {bound : List Register}
    (hB : ∀ r, r ∈ bound ↔ B r) {i : Nat} {e : Equation α} {error : Error α}
    (h : checkEquation i bound e = .error error) : e.Fault i B error := by
  rcases Check.bind_eq_error.mp h with h | ⟨_, hcount, h⟩
  · unfold Instruction.checkArity Op.checkArity at h
    split at h
    · cases h
    · rename_i hcount
      cases h
      exact .count hcount
  · have harity := Instruction.checkArity_eq_ok.mp hcount
    cases hfind : e.reads.find? (· ∉ bound) with
    | some r =>
      rw [hfind] at h
      cases h
      obtain ⟨pre, post, hargs, hpre, hr⟩ := Equation.exists_first_unbound hfind
      exact .early harity hargs (fun s hs => (hB s).mp (hpre s hs)) fun hbound =>
        hr ((hB r).mpr hbound)
    | none =>
      rw [hfind] at h
      by_cases hbinder : e.binder ∈ bound
      · simp only [hbinder, if_true, Except.error.injEq] at h
        subst h
        have hreads : ∀ r ∈ e.reads, r ∈ bound := by simpa using List.find?_eq_none.mp hfind
        exact .rebinding harity (fun r hr => (hB r).mp (hreads r (Equation.mem_reads.mpr hr)))
          ((hB _).mp hbinder)
      · simp [hbinder] at h

/-- Equations are checked one after the other. -/
theorem checkEquations_append {pre post : List (Equation α)} :
    ∀ {i : Nat} {bound : List Register}, checkEquations i bound (pre ++ post) =
      checkEquations i bound pre >>= fun bound' => checkEquations (i + pre.length) bound' post := by
  induction pre with
  | nil => intro i bound; rfl
  | cons e pre ih =>
    intro i bound
    rw [List.cons_append, checkEquations, checkEquations, bind_assoc]
    congr 1
    funext _
    rw [ih, List.length_cons, Nat.add_right_comm, Nat.add_assoc]

/-- The equation at position `i` is at fault. -/
def FaultAt (t : Trace α) (i : Nat) : Prop :=
  ∃ e, t.equations[i]? = some e ∧ e.AtFault (t.BoundBefore i)

/-- Equations are in order up to the first that is at fault. -/
theorem ordered_take {t : Trace α} {i : Nat} (h : ∀ j < i, ¬ t.FaultAt j) :
    Ordered t.params (t.equations.take i) := by
  refine ordered_iff_placed.mpr fun j f hj => ?_
  have hji : j < i := by
    obtain ⟨hlt, -⟩ := List.getElem?_eq_some_iff.mp hj
    rw [List.length_take] at hlt
    omega
  rw [List.getElem?_take_of_lt hji] at hj
  rw [List.take_take, Nat.min_eq_left (Nat.le_of_lt hji)]
  by_contra hplaced
  refine h j hji ⟨f, hj, (Equation.atFault_iff_not_placed ?_).mpr hplaced⟩
  exact fun r => boundBefore_iff.symm

/-- **The checker names the fault of the first equation that is at fault**, if no parameter occurs
twice. -/
theorem check_eq_error_of_first {t : Trace α} (hparams : t.params.Nodup) {i : Nat}
    (hi : t.FaultAt i) (hfirst : ∀ j < i, ¬ t.FaultAt j) :
    ∃ e error, t.equations[i]? = some e ∧ e.Fault i (t.BoundBefore i) error ∧
      t.check = .error error := by
  obtain ⟨e, he, hfault⟩ := hi
  obtain ⟨hsplit, hlen⟩ := eq_take_append he
  let bound := (binders (t.equations.take i)).reverse ++ (t.params.reverse ++ [])
  have hB : ∀ r, r ∈ bound ↔ t.BoundBefore i r := by
    intro r
    rw [boundBefore_iff]
    simp [bound]
  -- the equations in front of it are in order, so that the checker gets to it
  have hpre : Ordered (t.params.reverse ++ []) (t.equations.take i) :=
    (ordered_take hfirst).congr fun r => by simp
  have hrefused : ∃ error, checkEquation i bound e = .error error := by
    cases hcheck : checkEquation i bound e with
    | error error => exact ⟨error, rfl⟩
    | ok _ =>
      exact absurd (checkEquation_eq_ok_iff.mp hcheck)
        ((Equation.atFault_iff_not_placed hB).mp hfault)
  obtain ⟨error, herror⟩ := hrefused
  refine ⟨e, error, he, fault_of_checkEquation hB herror, ?_⟩
  have hequations : checkEquations 0 (t.params.reverse ++ []) t.equations = .error error := by
    rw [hsplit, checkEquations_append, checkEquations_eq_ok_iff.mpr ⟨hpre, rfl⟩, hlen, Nat.zero_add]
    exact Check.bind_eq_error.mpr (Or.inr ⟨_, rfl, Check.bind_eq_error.mpr (Or.inl herror)⟩)
  refine Check.bind_eq_error.mpr (Or.inr ⟨_, ?_, Check.bind_eq_error.mpr (Or.inl hequations)⟩)
  exact checkParams_eq_ok_iff.mpr ⟨⟨hparams, by simp⟩, rfl⟩

/-- **What the checker accepts, and what it reports.**  It accepts a trace exactly if no register is
bound twice, each equation has as many operands as its operation takes and reads only what is bound
before it, and a register that is returned is bound.  If no parameter occurs twice and some equation
is at fault, then it names the fault of the first such equation. -/
theorem check_exact (t : Trace α) :
    (t.check = .ok () ↔ t.Coherent) ∧
      (t.params.Nodup → (∃ i, t.FaultAt i) →
        ∃ i e error, t.FaultAt i ∧ (∀ j < i, ¬ t.FaultAt j) ∧ t.equations[i]? = some e ∧
          e.Fault i (t.BoundBefore i) error ∧ t.check = .error error) := by
  refine ⟨check_eq_ok_iff.trans wellFormed_iff_coherent, fun hparams hfault => ?_⟩
  classical
  have hi := Nat.find_spec hfault
  have hfirst : ∀ j < Nat.find hfault, ¬ t.FaultAt j := fun j hj => Nat.find_min hfault hj
  obtain ⟨e, error, he, hnamed, hcheck⟩ := check_eq_error_of_first hparams hi hfirst
  exact ⟨_, e, error, hi, hfirst, he, hnamed, hcheck⟩

/-- A trace with parameters and results that are numbered alike.  Its second equation reads what the
third one binds and binds what the first one has bound; its third one has too few operands; and
nothing binds what it returns. -/
def misreadTrace : Trace Int :=
  let x (space : UInt32) : Register := ⟨space, 0, .param⟩
  let v (i : UInt32) : Register := ⟨0, i, .result⟩
  { params := [x 0, x 1]
    equations := [⟨v 0, .add, [.reg (x 0), .reg (x 1)]⟩, ⟨v 0, .mul, [.reg (v 0), .reg (v 1)]⟩,
      ⟨v 1, .iif, [.reg (v 0)]⟩]
    ret := .reg (v 2) }

/-- Of all these faults, the one that is named is what the second equation reads. -/
theorem check_exact_misreadTrace :
    misreadTrace.params.Nodup ∧ ¬ misreadTrace.Coherent ∧
      ∃ e, misreadTrace.equations[1]? = some e ∧ (∀ j < 1, ¬ misreadTrace.FaultAt j) ∧
        e.Fault 1 (misreadTrace.BoundBefore 1) (.earlyRead 1 ⟨0, 1, .result⟩) := by
  have hparams : misreadTrace.params.Nodup := by decide
  have hcheck : misreadTrace.check = .error (.earlyRead 1 ⟨0, 1, .result⟩) := rfl
  obtain ⟨haccepts, hnames⟩ := check_exact misreadTrace
  refine ⟨hparams, fun h => ?_, ?_⟩
  · rw [haccepts.mpr h] at hcheck
    cases hcheck
  · obtain ⟨i, e, error, -, hfirst, he, hnamed, herror⟩ :=
      hnames hparams ⟨2, _, rfl, Or.inl (by decide)⟩
    rw [hcheck, Except.error.injEq] at herror
    subst herror
    cases hnamed with
    | early harity hargs hpre hr => exact ⟨e, he, hfirst, .early harity hargs hpre hr⟩

end Trace

end DualTrace
