/-
# Staging a trace again

A trace is a computation, so it can be staged.  The recording is the trace again, with its registers
renamed to the ones that the recording hands out.

* `Computation.result_stage` : what staging comes to, in terms of one run under a recording;
* `Trace.replayEquations_recording` : what a recording makes of equations that are replayed;
* `Trace.WellFormed.result_stage` : a staged trace is the trace renamed;
* `Program.numbered_of_stage` : what a program is staged to is numbered by one counter;
* `Trace.restage_reproduces` : staging a trace reproduces it.
-/
import DualTrace.Proofs.Invariant
import DualTrace.Proofs.Renaming
import DualTrace.Proofs.Replay

namespace DualTrace

variable {σ τ α : Type} {ren : Register → Register}

/-! ## Staging -/

/-- A recording in a register space, behind the registers of `n` parameters. -/
def Recorder.behindParams (space : UInt32) (n : Nat) : Recorder α :=
  { space := space, next := UInt32.ofNat n }

/-- The first parameters of a recording. -/
theorem Recorder.freshParams_init (space : UInt32) (n : Nat) :
    ({ space := space } : Recorder α).freshParams n = Trace.paramRegisters space n := by
  unfold freshParams Trace.paramRegisters
  refine List.map_congr_left fun i _ => ?_
  rw [UInt32.zero_add]

theorem Recorder.skipParams_init (space : UInt32) (n : Nat) :
    ({ space := space } : Recorder α).skipParams n = behindParams space n := by
  unfold skipParams behindParams
  rw [UInt32.zero_add]

/-- **What staging comes to.**  The computation is run once, under a recording in a new register
space, and the trace is made of what is on record then. -/
theorem Computation.result_stage (c : Computation α) (n : Nat) (m : Machine σ α) :
    Run.result (c.stage n) m =
      match c.run Driver.recording ((Trace.paramRegisters m.session.nextSpace n).map Value.reg)
          ⟨Recorder.behindParams m.session.nextSpace n, m.session.claimSpace.2⟩ with
      | .ok v M =>
        match v.atom? with
        | none => .error (.nonAtomResult v)
        | some ret =>
          Trace.checked ⟨Trace.paramRegisters m.session.nextSpace n,
            M.state.equations.toList, ret⟩
      | .error e _ => .error e := by
  rw [← Recorder.freshParams_init, ← Recorder.skipParams_init]
  let start : Recorder α := { space := m.session.nextSpace }
  let run := c.run Driver.recording ((start.freshParams n).map Value.reg)
  let close : Value α → Run (Recorder α) α (Trace α) := fun v =>
    match v.atom? with
    | none => throw (.nonAtomResult v)
    | some ret => do
      let t ← Run.ofExcept
        (Trace.checked ⟨start.freshParams n, (← get).state.equations.toList, ret⟩)
      Run.report (.recorded t.params.length t.equations.length)
      return t
  have hfinish : c.finishRecording n ⟨start, m.session.claimSpace.2⟩ =
      (run >>= close) ⟨start.skipParams n, m.session.claimSpace.2⟩ := rfl
  have hstage : Run.result (c.stage n) m =
      Run.result (run >>= close) ⟨start.skipParams n, m.session.claimSpace.2⟩ := by
    rw [stage, Run.result_bind]
    show Run.result (Run.within start (c.finishRecording n) >>= fun p => pure p.1)
      { m with session := m.session.claimSpace.2 } = _
    rw [Run.result_bind, Run.within, hfinish, Run.result]
    cases (run >>= close) ⟨start.skipParams n, m.session.claimSpace.2⟩ <;> rfl
  rw [hstage, Run.result_bind]
  cases hrun : run ⟨start.skipParams n, m.session.claimSpace.2⟩ with
  | error e M =>
    simp only [run] at hrun
    rw [hrun]
  | ok v M =>
    simp only [run] at hrun
    rw [hrun]
    show Run.result (close v) M = match v.atom? with | none => _ | some ret => _
    unfold close
    cases v.atom? with
    | none => rfl
    | some ret =>
      show Run.result (Run.ofExcept (Trace.checked _) >>= _) M = Trace.checked _
      rw [Run.result_bind]
      cases Trace.checked _ <;> rfl

/-! ## Replay under a recording -/

/-- An instruction over atoms is recorded as it is. -/
theorem Instruction.toAtoms_ofAtom {op : Op} {as : List (Atom α)} (h : as.length = op.arity) :
    (⟨op, as.map Value.ofAtom⟩ : Instruction (Value α)).toAtoms = .ok ⟨op, as⟩ := by
  refine Check.bind_eq_ok.mpr ⟨(), checkArity_eq_ok.mpr (by simpa using h), ?_⟩
  refine Check.bind_eq_ok.mpr ⟨as, Check.mapM_eq_ok.mpr ?_, rfl⟩
  rw [List.forall₂_map_left_iff, List.forall₂_same]
  intro a _
  rw [Value.atom?_ofAtom]

/-- The operands of an equation, where each register is bound to a register. -/
theorem Trace.mapM_value_rename {env : Bindings α} {as : List (Atom α)}
    (h : ∀ r, .reg r ∈ as → env.lookup r = some (.reg (ren r))) :
    as.mapM env.value = .ok ((as.map (Atom.rename ren)).map Value.ofAtom) := by
  rw [Check.mapM_eq_ok, List.map_map, List.forall₂_map_right_iff, List.forall₂_same]
  intro a ha
  cases a with
  | lit x => rfl
  | reg r =>
    rw [Bindings.value, h r ha]
    rfl

/-- **What a recording makes of equations that are replayed.**  If each register is bound to its new
name, and the new names of the results are those that the recording hands out, then the equations
are recorded under their new names. -/
theorem Trace.replayEquations_recording {es : List (Equation α)} :
    ∀ {bound : List Register} {env : Bindings α} {start : Nat} (M : Machine (Recorder α) α),
      Ordered bound es → (∀ r ∈ bound, env.lookup r = some (.reg (ren r))) →
      M.state.next = UInt32.ofNat start →
      (binders es).map ren = resultRegisters M.state.space start es.length →
      ∃ env' M', replayEquations Driver.recording env es M = .ok env' M' ∧
        (∀ r, r ∈ bound ∨ r ∈ binders es → env'.lookup r = some (.reg (ren r))) ∧
        M'.state.equations.toList =
          M.state.equations.toList ++ es.map (Equation.rename ren) := by
  induction es with
  | nil =>
    intro bound env start M _ henv _ _
    refine ⟨env, M, rfl, fun r hr => henv r (hr.resolve_right List.not_mem_nil), ?_⟩
    rw [List.map_nil, List.append_nil]
  | cons e es ih =>
    intro bound env start M hord henv hnext hbinders
    rw [List.length_cons, resultRegisters_succ, ← hnext] at hbinders
    obtain ⟨hbinder, htail⟩ := List.cons_eq_cons.mp hbinders
    have hargs : e.rhs.args.mapM env.value =
        .ok ((e.rhs.args.map (Atom.rename ren)).map Value.ofAtom) :=
      mapM_value_rename fun r hr => henv r (hord.1.reads r (Equation.mem_reads.mpr hr))
    have harity : (e.rhs.args.map (Atom.rename ren)).length = e.rhs.op.arity :=
      (List.length_map _).trans hord.1.arity
    have hanswer := Driver.recording_apply
      ⟨e.rhs.op, (e.rhs.args.map (Atom.rename ren)).map Value.ofAtom⟩ M
    rw [Instruction.toAtoms_ofAtom harity] at hanswer
    let M₁ : Machine (Recorder α) α :=
      ⟨M.state.record (e.rename ren).rhs, M.session.report
        (.staged M.state.equations.size ⟨M.state.fresh .result, (e.rename ren).rhs⟩)⟩
    have hnext₁ : M₁.state.next = UInt32.ofNat (start + 1) := by
      show M.state.next + 1 = _
      rw [hnext, UInt32.ofNat_add]
      rfl
    have henv₁ : ∀ r ∈ e.binder :: bound,
        ((e.binder, Value.reg (M.state.fresh .result)) :: env).lookup r =
          some (.reg (ren r)) := by
      intro r hr
      by_cases hre : r = e.binder
      · rw [hre, List.lookup_cons_self, hbinder]
        rfl
      · rw [List.lookup_cons, beq_eq_false_iff_ne.mpr hre]
        exact henv r ((List.mem_cons.mp hr).resolve_left hre)
    obtain ⟨env', M', hrun, henv', hes⟩ := ih M₁ hord.2 henv₁ hnext₁ htail
    refine ⟨env', M', ?_, fun r hr => henv' r ?_, ?_⟩
    · rw [replayEquations_cons hargs, hanswer]
      exact hrun
    · rcases hr with hr | hr
      · exact Or.inl (List.mem_cons_of_mem _ hr)
      · rcases List.mem_cons.mp hr with rfl | hr
        · exact Or.inl List.mem_cons_self
        · exact Or.inr hr
    · have hequation : (⟨M.state.fresh .result, (e.rename ren).rhs⟩ : Equation α) =
          e.rename ren := by
        unfold Recorder.fresh
        rw [← hbinder]
        rfl
      rw [hes, List.map_cons]
      show (M.state.equations.push _).toList ++ _ = _
      rw [Array.toList_push, hequation, List.append_assoc]
      rfl

/-! ## Staging a trace -/

section Restaging

variable {t : Trace α}

/-- Each parameter is bound to the register that has its new name. -/
theorem Trace.WellFormed.lookup_bind_rename (h : t.WellFormed) (ren : Register → Register) :
    ∀ r ∈ t.params,
      (t.bind ((t.params.map ren).map Value.reg)).lookup r = some (.reg (ren r)) := by
  intro r hr
  have hlen : t.params.length = ((t.params.map ren).map (@Value.reg α)).length := by simp
  obtain ⟨i, hi, rfl⟩ := List.getElem_of_mem hr
  refine (Trace.lookup_bind h.params hlen).mpr (List.mem_iff_getElem.mpr ⟨i, ?_, ?_⟩)
  · rw [List.length_zip, ← hlen, Nat.min_self]
    exact hi
  · rw [List.getElem_zip, List.getElem_map, List.getElem_map]

/-- **A staged trace is the trace renamed.**  The new names number its registers in the order in
which they are bound, in the register space of the recording. -/
theorem Trace.WellFormed.result_stage (h : t.WellFormed)
    (hsize : t.params.length + t.equations.length < 2 ^ 32) (m : Machine σ α) :
    Run.result (t.computation.stage t.params.length) m =
      .ok (t.rename (t.renumber m.session.nextSpace)) := by
  let ren := t.renumber m.session.nextSpace
  have hparams : paramRegisters m.session.nextSpace t.params.length = t.params.map ren :=
    (h.map_renumber_params _).symm
  obtain ⟨env, M, hrun, henv, hes⟩ := replayEquations_recording
    ⟨Recorder.behindParams m.session.nextSpace t.params.length, m.session.claimSpace.2⟩
    h.ordered (h.lookup_bind_rename ren) rfl (h.map_renumber_binders _)
  have hret : env.value t.ret = .ok (Value.ofAtom (t.ret.rename ren)) := by
    have hbound := h.ret
    cases hatom : t.ret with
    | lit x => rfl
    | reg r =>
      rw [hatom] at hbound
      rw [Bindings.value, henv r (hbound r (List.mem_singleton_self r))]
      rfl
  have hequations : M.state.equations.toList = t.equations.map (Equation.rename ren) := by
    rw [hes]
    rfl
  have hlen : ((t.params.map ren).map (@Value.reg α)).length = t.params.length := by simp
  rw [Computation.result_stage, hparams, Trace.computation_apply hlen, hrun]
  simp only [hret, Run.ofExcept_ok, Run.pure_apply, Value.atom?_ofAtom, hequations]
  exact Trace.checked_eq_ok_iff.mpr ⟨h.rename (Trace.WellFormed.injOn_renumber hsize), rfl⟩

end Restaging

/-! ## Staging a program -/

/-- A recording of a trace of `n` parameters that has numbered its registers by one counter. -/
structure Recorder.Numbered (space : UInt32) (n : Nat) (r : Recorder α) : Prop where
  inSpace : r.space = space
  next : r.next = UInt32.ofNat (n + r.equations.size)
  binders : Trace.binders r.equations.toList = Trace.resultRegisters space n r.equations.size

theorem Recorder.numbered_behindParams (space : UInt32) (n : Nat) :
    (behindParams space n : Recorder α).Numbered space n := ⟨rfl, rfl, rfl⟩

/-- A recording gives the next number to each result. -/
theorem Recorder.Numbered.record {space : UInt32} {n : Nat} {r : Recorder α}
    (h : r.Numbered space n) (rhs : Instruction (Atom α)) : (r.record rhs).Numbered space n where
  inSpace := h.inSpace
  next := by
    show r.next + 1 = UInt32.ofNat (n + (r.equations.push _).size)
    rw [h.next, Array.size_push, ← Nat.add_assoc]
    exact (UInt32.ofNat_add _ 1).symm
  binders := by
    show Trace.binders (r.equations.push ⟨r.fresh .result, rhs⟩).toList =
      Trace.resultRegisters space n (r.equations.push _).size
    have hfresh : r.fresh .result = ⟨space, UInt32.ofNat (n + r.equations.size), .result⟩ := by
      unfold fresh
      rw [h.inSpace, h.next]
    have hold := h.binders
    unfold Trace.binders Trace.resultRegisters at hold ⊢
    rw [Array.toList_push, Array.size_push, List.range'_1_concat, List.map_append,
      List.map_append, hold, List.map_singleton, List.map_singleton, hfresh]

/-- A recording keeps its registers numbered. -/
theorem Driver.recording_keeps (space : UInt32) (n : Nat) :
    (recording : Driver (Recorder α) α).Keeps (Recorder.Numbered space n) := by
  intro i M hM
  unfold Run.final
  rw [recording_apply]
  cases i.toAtoms with
  | error e => exact hM
  | ok rhs => exact hM.record rhs

/-- **What a program is staged to is numbered by one counter.** -/
theorem Program.numbered_of_stage [Scalar α] {p : Program α} {env : Frames α} {n : Nat}
    {m : Machine σ α} {t : Trace α} (h : Run.result ((p.computation env).stage n) m = .ok t) :
    t.Numbered m.session.nextSpace ∧ t.params.length = n := by
  let space := m.session.nextSpace
  let M₀ : Machine (Recorder α) α := ⟨Recorder.behindParams space n, m.session.claimSpace.2⟩
  have hkeeps := Program.run_keeps (Driver.recording_keeps space n) env
    ((Trace.paramRegisters space n).map Value.reg) p M₀ (Recorder.numbered_behindParams space n)
  rw [Computation.result_stage] at h
  split at h
  · rename_i v M hrun
    have hM : M.state.Numbered space n := by
      unfold Run.final at hkeeps
      rw [show p.run Driver.recording env _ M₀ = .ok v M from hrun] at hkeeps
      exact hkeeps
    split at h
    · cases h
    · obtain ⟨-, rfl⟩ := Trace.checked_eq_ok_iff.mp h
      have hlen : (Trace.paramRegisters space n).length = n := by simp [Trace.paramRegisters]
      refine ⟨⟨?_, ?_⟩, hlen⟩
      · show Trace.paramRegisters space n = Trace.paramRegisters space _
        rw [hlen]
      · show Trace.binders M.state.equations.toList = Trace.resultRegisters space _ _
        rw [hlen, Array.length_toList]
        exact hM.binders
  · cases h

/-- **Staging a trace reproduces it.**  Let a trace pass the check and have fewer than `2 ^ 32`
registers.

* Staged on as many parameters as it has, it gives a trace that is the same up to its registers.
  No two of them get the same name, and the new names number them by one counter, in the order in
  which they are bound, in the register space of the recording.
* If the trace is one that a program was staged to, the new one has the same text.
* Staging the new one again leaves its text as it is. -/
theorem Trace.restage_reproduces [Scalar α] [Numeral α] {t : Trace α} (hcheck : t.check = .ok ())
    (hsize : t.params.length + t.equations.length < 2 ^ 32) :
    (∀ (σ : Type) (m : Machine σ α), ∃ ren : Register → Register,
      Run.result (t.computation.stage t.params.length) m = .ok (t.rename ren) ∧
      Set.InjOn ren {r | r ∈ t.registers} ∧ (t.rename ren).Numbered m.session.nextSpace) ∧
    (∀ (σ τ : Type) (p : Program α) (env : Frames α) (n : Nat) (m : Machine σ α)
      (m' : Machine τ α), Run.result ((p.computation env).stage n) m = .ok t →
      ∃ t', Run.result (t.computation.stage n) m' = .ok t' ∧ t'.text = t.text) ∧
    ∀ (σ τ : Type) (t' : Trace α) (m : Machine σ α) (m' : Machine τ α),
      Run.result (t.computation.stage t.params.length) m = .ok t' →
      ∃ t'', Run.result (t'.computation.stage t.params.length) m' = .ok t'' ∧
        t''.text = t'.text := by
  have hwf := check_eq_ok_iff.mp hcheck
  refine ⟨fun σ m => ?_, fun σ τ p env n m m' hstage => ?_, fun σ τ t' m m' hstage => ?_⟩
  · exact ⟨_, hwf.result_stage hsize m, WellFormed.injOn_renumber hsize, hwf.numbered_rename _⟩
  · obtain ⟨hnum, rfl⟩ := Program.numbered_of_stage hstage
    exact ⟨_, hwf.result_stage hsize m', hwf.text_rename_renumber hnum⟩
  · rw [hwf.result_stage hsize m] at hstage
    cases hstage
    have hwf' : (t.rename (t.renumber m.session.nextSpace)).WellFormed :=
      hwf.rename (WellFormed.injOn_renumber hsize)
    have hlen : (t.rename (t.renumber m.session.nextSpace)).params.length = t.params.length :=
      List.length_map _
    have hlen' : (t.rename (t.renumber m.session.nextSpace)).equations.length =
        t.equations.length := List.length_map _
    have hstage' := hwf'.result_stage (by rw [hlen, hlen']; exact hsize) m'
    rw [hlen] at hstage'
    exact ⟨_, hstage', hwf'.text_rename_renumber (hwf.numbered_rename _)⟩

/-- The trace of `x * (x + y)`, with registers of three spaces in no order. -/
def scatteredTrace : Trace Float :=
  let x : Register := ⟨7, 3, .param⟩
  let y : Register := ⟨2, 3, .param⟩
  let s : Register := ⟨9, 0, .result⟩
  let p : Register := ⟨7, 3, .result⟩
  { params := [x, y]
    equations := [⟨s, .add, [.reg x, .reg y]⟩, ⟨p, .mul, [.reg x, .reg s]⟩]
    ret := .reg p }

/-- Staged again, `scatteredTrace` has parameters `x0`, `x1` and results `v2`, `v3`, and from then
on its text stays as it is. -/
theorem Trace.restage_reproduces_scatteredTrace :
    ∃ t' t'', Run.result (scatteredTrace.computation.stage 2) (⟨(), {}⟩ : Machine Unit Float) =
        .ok t' ∧
      t'.params = [⟨0, 0, .param⟩, ⟨0, 1, .param⟩] ∧
      binders t'.equations = [⟨0, 2, .result⟩, ⟨0, 3, .result⟩] ∧
      t'.equations.map (·.rhs.op) = [.add, .mul] ∧
      Run.result (t'.computation.stage 2) (⟨(), {}⟩ : Machine Unit Float) = .ok t'' ∧
      t''.text = t'.text := by
  obtain ⟨hrename, -, hagain⟩ := Trace.restage_reproduces (t := scatteredTrace) rfl (by decide)
  obtain ⟨ren, hstage, -, hnum⟩ := hrename Unit ⟨(), {}⟩
  obtain ⟨t'', hstage', htext⟩ := hagain Unit Unit _ ⟨(), {}⟩ ⟨(), {}⟩ hstage
  exact ⟨_, t'', hstage, hnum.params, hnum.binders, rfl, hstage', htext⟩

end DualTrace
