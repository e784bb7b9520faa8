/-
# Counters do not show

A run takes tags from one counter and a staging takes its register space from another, and both
counters have been moved by whatever ran before.  A closed program cannot tell: started from other
values of the counters it evaluates to the same numbers, and it is staged to the same trace but for
the spaces of its registers, which no text shows and no pass of the optimizer looks at.

* `Computation.Uniform.evaluate_alike` : two evaluations;
* `Program.stage_alike` : two recordings of a program;
* `Program.counters_hidden` : numbers, traces, texts and optimized traces.

Both are comparisons of two runs.  The drivers of two evaluations are related by nothing at all and
the values by being the same number.  Two recordings have come equally far in their spaces, and a
value of one is the value of the other with the two spaces exchanged.
-/
import DualTrace.Proofs.Equivariance
import DualTrace.Proofs.Restaging
import DualTrace.Proofs.Uniform

namespace DualTrace

variable {σ τ α : Type} {ops : Op → Prop}

/-! ## Evaluations -/

/-- Two values that are the same number. -/
def Value.SameNumber (v w : Value α) : Prop := ∃ x, v = .num x ∧ w = .num x

namespace Comparison

/-- Two evaluations, whose tags start at `left` and at `right`. -/
def evaluations (left right : Nat) : Comparison σ τ α where
  left := left
  right := right
  states _ _ := True
  values _ _ := True
  dual _ _ _ _ _ _ _ := trivial

variable {left right : Nat}

/-- Numbers belong to no instance. -/
theorem evaluations_level :
    (evaluations left right : Comparison σ τ α).Level 0 Value.SameNumber where
  num x := ⟨x, rfl, rfl⟩
  left := by
    rintro v w ⟨x, rfl, rfl⟩ i _
    exact id
  right := by
    rintro v w ⟨x, rfl, rfl⟩ i _
    exact id
  values _ := trivial

/-- Direct evaluation answers the same operands with the same number. -/
theorem evaluations_drivers [Scalar α] :
    (evaluations left right : Comparison σ τ α).Drivers 0 Value.SameNumber Driver.direct
      Driver.direct := by
  intro op vs ws hargs
  have hsame : vs = ws := by
    rw [← List.forall₂_eq_eq_eq]
    exact hargs.imp fun v w ⟨x, hv, hw⟩ => hv.trans hw.symm
  subst hsame
  refine .ofExcept ?_
  cases h : Instruction.evaluate ⟨op, vs⟩ with
  | error e => exact .error rfl
  | ok v =>
    obtain ⟨_, y, -, -, rfl⟩ := Instruction.evaluate_eq_ok.mp h
    exact .ok ⟨y, rfl, rfl⟩

end Comparison

/-- **A computation that runs alike evaluates to the same number from any two machines**, or fails
for the same kind of reason. -/
theorem Computation.Uniform.evaluate_alike [Scalar α] {c : Computation α} (hc : c.Uniform)
    (xs : List α) (m : Machine σ α) (m' : Machine τ α) :
    Check.Alike Eq (Run.result (c.evaluate xs) m) (Run.result (c.evaluate xs) m') := by
  let C : Comparison σ τ α := .evaluations m.session.nextTag m'.session.nextTag
  have hm : C.Abreast 0 m m' := ⟨trivial, rfl, rfl⟩
  have hargs : List.Forall₂ Value.SameNumber (xs.map Value.num) (xs.map Value.num) :=
    List.forall₂_same.mpr fun v hv => by
      obtain ⟨x, -, rfl⟩ := List.mem_map.mp hv
      exact ⟨x, rfl, rfl⟩
  have hrun := hc (C := C) Comparison.evaluations_level Comparison.evaluations_drivers hargs
  have hevaluate : C.Alike 0 Eq (c.evaluate xs) (c.evaluate xs) :=
    hrun.bind fun v w ⟨x, hv, hw⟩ => by
      subst hv hw
      exact .pure rfl
  exact (hevaluate 0 (Nat.le_refl 0) m m' hm).result

/-! ## Exchanging two spaces -/

/-- A register moved from the space `s` to `s'`, or from `s'` to `s`. -/
def Register.exchange (s s' : UInt32) (r : Register) : Register :=
  { r with space := Equiv.swap s s' r.space }

namespace Register

theorem exchange_injective (s s' : UInt32) : Function.Injective (exchange s s') := by
  rintro ⟨a, i, role⟩ ⟨b, j, role'⟩ h
  obtain ⟨hspace, rfl, rfl⟩ : Equiv.swap s s' a = Equiv.swap s s' b ∧ i = j ∧ role = role' := by
    simpa [exchange] using h
  rw [(Equiv.swap s s').injective hspace]

/-- A register of the first space is moved to the second. -/
theorem exchange_mk (s s' index : UInt32) (role : Role) :
    exchange s s' ⟨s, index, role⟩ = ⟨s', index, role⟩ := by
  rw [exchange, Equiv.swap_apply_left]

end Register

/-- The parameters of a recording in one space are those of another. -/
theorem Trace.map_exchange_paramRegisters (s s' : UInt32) (n : Nat) :
    (paramRegisters s n).map (Register.exchange s s') = paramRegisters s' n := by
  unfold paramRegisters
  rw [List.map_map]
  exact List.map_congr_left fun i _ => Register.exchange_mk s s' _ _

/-- An atom as a value, and the atom under new names as a value. -/
def Value.SameAtom (ren : Register → Register) (v w : Value α) : Prop :=
  ∃ a : Atom α, v = .ofAtom a ∧ w = .ofAtom (a.rename ren)

/-- Related lists of values are the same list of atoms under two sets of names. -/
theorem Value.SameAtom.exists_atoms {ren : Register → Register} {vs ws : List (Value α)}
    (h : List.Forall₂ (Value.SameAtom ren) vs ws) :
    ∃ as : List (Atom α), vs = as.map Value.ofAtom ∧
      ws = (as.map (Atom.rename ren)).map Value.ofAtom := by
  induction h with
  | nil => exact ⟨[], rfl, rfl⟩
  | cons hvw _ ih =>
    obtain ⟨a, rfl, rfl⟩ := hvw
    obtain ⟨as, rfl, rfl⟩ := ih
    exact ⟨a :: as, rfl, rfl⟩

/-- An instruction over atoms can be recorded if it can be under new names. -/
theorem Instruction.toAtoms_rename (ren : Register → Register) (op : Op) (as : List (Atom α)) :
    Check.Alike (fun i j => j = i.rename ren) (toAtoms ⟨op, as.map Value.ofAtom⟩)
      (toAtoms ⟨op, (as.map (Atom.rename ren)).map Value.ofAtom⟩) := by
  by_cases h : as.length = op.arity
  · rw [toAtoms_ofAtom h, toAtoms_ofAtom ((List.length_map _).trans h)]
    exact .ok rfl
  · unfold toAtoms checkArity Op.checkArity
    simp only [List.length_map, if_neg h]
    exact .error rfl

/-! ## Recordings -/

/-- Two recordings, in the spaces `s` and `s'`, that have come equally far. -/
structure Recorder.Abreast (s s' : UInt32) (r r' : Recorder α) : Prop where
  left : r.space = s
  right : r'.space = s'
  next : r'.next = r.next
  equations : r'.equations.toList =
    r.equations.toList.map (Equation.rename (Register.exchange s s'))

namespace Recorder.Abreast

variable {s s' : UInt32} {r r' : Recorder α} (h : r.Abreast s s' r')

include h

theorem fresh (role : Role) : r'.fresh role = (r.fresh role).exchange s s' := by
  unfold Recorder.fresh
  rw [h.left, h.right, h.next, Register.exchange_mk]

/-- Recordings of the same instruction under the two sets of names. -/
theorem record (i : Instruction (Atom α)) :
    (r.record i).Abreast s s' (r'.record (i.rename (Register.exchange s s'))) where
  left := h.left
  right := h.right
  next := congrArg (· + 1) h.next
  equations := by
    unfold Recorder.record
    rw [Array.toList_push, Array.toList_push, List.map_append, h.equations, h.fresh]
    rfl

/-- Two recordings are closed with traces that differ only in their spaces, if at all. -/
theorem checked (n : Nat) (ret : Atom α) :
    Check.Alike Trace.SameButSpaces
      (Trace.checked ⟨Trace.paramRegisters s n, r.equations.toList, ret⟩)
      (Trace.checked ⟨Trace.paramRegisters s' n, r'.equations.toList,
        ret.rename (Register.exchange s s')⟩) := by
  rw [h.equations, ← Trace.map_exchange_paramRegisters s s']
  have hinj := Register.exchange_injective s s'
  exact (Trace.checked_rename hinj _).imp fun t u htu => ⟨_, hinj, fun r => ⟨rfl, rfl⟩, htu⟩

end Recorder.Abreast

namespace Comparison

/-- Two recordings, whose spaces are `s` and `s'` and whose tags start at `left` and at `right`. -/
def recordings (s s' : UInt32) (left right : Nat) : Comparison (Recorder α) (Recorder α) α where
  left := left
  right := right
  states := Recorder.Abreast s s'
  values _ _ := True
  dual _ _ _ _ _ _ _ := trivial

variable {s s' : UInt32} {left right : Nat}

/-- Atoms belong to no instance. -/
theorem recordings_level : (recordings s s' left right : Comparison _ _ α).Level 0
    (Value.SameAtom (Register.exchange s s')) where
  num x := ⟨.lit x, rfl, rfl⟩
  left := by
    rintro v w ⟨a, rfl, rfl⟩ i _
    cases a <;> exact id
  right := by
    rintro v w ⟨a, rfl, rfl⟩ i _
    cases a <;> exact id
  values _ := trivial

/-- Recordings answer with registers that have the same number. -/
theorem recordings_drivers : (recordings s s' left right : Comparison _ _ α).Drivers 0
    (Value.SameAtom (Register.exchange s s')) Driver.recording Driver.recording := by
  intro op vs ws hargs i _ m m' hm
  obtain ⟨as, rfl, rfl⟩ := Value.SameAtom.exists_atoms hargs
  have hatoms := Instruction.toAtoms_rename (Register.exchange s s') op as
  have hstates : Recorder.Abreast s s' m.state m'.state := hm.states
  rw [Driver.recording_apply, Driver.recording_apply]
  generalize Instruction.toAtoms ⟨op, as.map Value.ofAtom⟩ = x at hatoms ⊢
  generalize Instruction.toAtoms _ = y at hatoms ⊢
  cases hatoms with
  | error hkind => exact .error (Nat.le_refl i) hkind hm
  | ok hrhs =>
    subst hrhs
    refine .ok (Nat.le_refl i) ⟨.reg (m.state.fresh .result), rfl, ?_⟩
      ⟨hstates.record _, hm.left, hm.right⟩
    rw [hstates.fresh]
    rfl

end Comparison

/-- A closed program records the same under two sets of names. -/
theorem Program.recording_alike [Scalar α] {p : Program α} (hp : p.Closed ops) (n : Nat)
    (s s' : UInt32) (session session' : Session α) :
    (Comparison.recordings s s' session.nextTag session'.nextTag).Ends
      (Value.SameAtom (Register.exchange s s')) 0
      (p.computation.run Driver.recording ((Trace.paramRegisters s n).map Value.reg)
        ⟨Recorder.behindParams s n, session⟩)
      (p.computation.run Driver.recording ((Trace.paramRegisters s' n).map Value.reg)
        ⟨Recorder.behindParams s' n, session'⟩) := by
  have hargs : List.Forall₂ (Value.SameAtom (α := α) (Register.exchange s s'))
      ((Trace.paramRegisters s n).map Value.reg) ((Trace.paramRegisters s' n).map Value.reg) := by
    rw [← Trace.map_exchange_paramRegisters s s', List.map_map, List.forall₂_map_left_iff,
      List.forall₂_map_right_iff]
    exact List.forall₂_same.mpr fun r _ => ⟨.reg r, rfl, rfl⟩
  exact Program.run_alike Comparison.recordings_level Comparison.recordings_drivers .nil hargs hp 0
    (Nat.le_refl 0) _ _ ⟨⟨rfl, rfl, rfl, rfl⟩, rfl, rfl⟩

/-- **A closed program is staged from any two machines to traces that differ only in their
spaces**, or fails for the same kind of reason. -/
theorem Program.stage_alike [Scalar α] {p : Program α} (hp : p.Closed ops) (n : Nat)
    (m : Machine σ α) (m' : Machine τ α) :
    Check.Alike Trace.SameButSpaces (Run.result (p.computation.stage n) m)
      (Run.result (p.computation.stage n) m') := by
  have hends := Program.recording_alike hp n m.session.nextSpace m'.session.nextSpace
    m.session.claimSpace.2 m'.session.claimSpace.2
  rw [Computation.result_stage, Computation.result_stage]
  -- from here on only the ends of the two runs matter
  generalize p.computation.run Driver.recording
    ((Trace.paramRegisters m.session.nextSpace n).map Value.reg) _ = x at hends ⊢
  generalize p.computation.run Driver.recording
    ((Trace.paramRegisters m'.session.nextSpace n).map Value.reg) _ = y at hends ⊢
  cases hends with
  | error _ hkind => exact .error hkind
  | ok _ hatom hm =>
    obtain ⟨a, rfl, rfl⟩ := hatom
    simp only [Value.atom?_ofAtom]
    exact Recorder.Abreast.checked hm.states n a

/-! ## What does not show -/

/-- Two traces that differ only in the spaces of their registers, and in nothing that is written. -/
def Trace.SameWriting [Numeral α] (t u : Trace α) : Prop := t.SameButSpaces u ∧ t.text = u.text

/-- **The counters do not show.**  Let a closed program be run from any two machines, whatever tags
and register spaces have been taken in their sessions.

* Evaluated at the same numbers it gives the same number, or fails for the same kind of reason.
* Staged it gives traces that differ only in the spaces of their registers and have the same text,
  or fails for the same kind of reason.
* After any passes of the optimizer, and after all passes of any plan, the two traces still differ
  in spaces only and have the same text, or the passes fail for the same kind of reason. -/
theorem Program.counters_hidden [Scalar α] [Numeral α] {p : Program α} (hp : p.Closed ops)
    (m : Machine σ α) (m' : Machine τ α) :
    (∀ xs : List α, Check.Alike Eq (Run.result (p.computation.evaluate xs) m)
      (Run.result (p.computation.evaluate xs) m')) ∧
    ∀ n : Nat, Check.Alike
      (fun t u => t.SameWriting u ∧
        (∀ passes : List (Pass α), Check.Alike Trace.SameWriting (passes.foldlM Pass.apply t)
          (passes.foldlM Pass.apply u)) ∧
        ∀ plan : Plan, Check.Alike Trace.SameWriting (Trace.optimize plan t)
          (Trace.optimize plan u))
      (Run.result (p.computation.stage n) m) (Run.result (p.computation.stage n) m') := by
  have hsame : ∀ t u : Trace α, t.SameButSpaces u → t.SameWriting u := fun t u h => ⟨h, h.text_eq⟩
  refine ⟨fun xs => (Program.uniform hp).evaluate_alike xs m m', fun n => ?_⟩
  refine (Program.stage_alike hp n m m').imp fun t u h => ⟨hsame t u h, ?_, ?_⟩
  · exact fun passes => (h.foldlM_apply passes).imp hsame
  · exact fun plan => (h.optimize plan).imp hsame

/-- The derivative by `x` of `x` times the derivative of `x * y` by `y`, taken where `y` is `x`. -/
def nestedSlope : Program Float :=
  .jvp (.block
    (.step (.call (.jvp (.block (.step (.issue .mul [.arg 1 0, .arg 0 0]) .done) (.result 0 0))
      [.num 1]) [.arg 0 0])
    (.step (.issue .mul [.arg 0 0, .result 0 0]) .done)) (.result 0 1)) [.num 1]

theorem nestedSlope_closed : nestedSlope.Closed fun _ => True := by
  simp [nestedSlope, Program.Closed, Block.Closed, Step.Closed, Operand.Plain]

/-- Behind five tags and nine register spaces `nestedSlope` is still six at three, and its trace,
though it stands in another space, has the same text before and after it is optimized. -/
theorem Program.counters_hidden_nestedSlope :
    Run.result (nestedSlope.computation.evaluate [3])
        (⟨(), { nextTag := 5, nextSpace := 9 }⟩ : Machine Unit Float) = .ok 6 ∧
      ∃ t u t' u', Run.result (nestedSlope.computation.stage 1) (⟨(), {}⟩ : Machine Unit Float) =
          .ok t ∧
        Run.result (nestedSlope.computation.stage 1)
          (⟨(), { nextTag := 5, nextSpace := 9 }⟩ : Machine Unit Float) = .ok u ∧
        t.params = [⟨0, 0, .param⟩] ∧ u.params = [⟨9, 0, .param⟩] ∧ t.text = u.text ∧
        Trace.optimize { foldConstants := true, dropDead := true } t = .ok t' ∧
        Trace.optimize { foldConstants := true, dropDead := true } u = .ok u' ∧
        t'.text = u'.text := by
  let first : Machine Unit Float := ⟨(), {}⟩
  let later : Machine Unit Float := ⟨(), { nextTag := 5, nextSpace := 9 }⟩
  let plan : Plan := { foldConstants := true, dropDead := true }
  obtain ⟨hevaluate, hstage⟩ := Program.counters_hidden nestedSlope_closed first later
  have hvalue : (Run.result (nestedSlope.computation.evaluate [3]) first).toOption = some 6 := by
    decide +kernel
  have hfirst : (Run.result (nestedSlope.computation.stage 1) first).toOption.map Trace.params =
      some [⟨0, 0, .param⟩] := by decide +kernel
  have hlater : (Run.result (nestedSlope.computation.stage 1) later).toOption.map Trace.params =
      some [⟨9, 0, .param⟩] := by decide +kernel
  have hoptimize : ((Run.result (nestedSlope.computation.stage 1) first).bind
      (Trace.optimize plan)).isOk := by decide +kernel
  obtain ⟨x, y, hx, hy, rfl⟩ := (hevaluate [3]).exists_ok (by decide +kernel)
  obtain ⟨t, u, ht, hu, hsame, -, hplan⟩ := (hstage 1).exists_ok (by decide +kernel)
  rw [hx] at hvalue
  rw [ht] at hfirst hoptimize
  rw [hu] at hlater
  obtain ⟨t', u', ht', hu', hsame'⟩ := (hplan plan).exists_ok hoptimize
  cases hvalue
  exact ⟨hy, t, u, t', u', ht, hu, Option.some.inj hfirst, Option.some.inj hlater, hsame.2, ht',
    hu', hsame'.2⟩

end DualTrace
