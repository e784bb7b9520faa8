/-
# What is on record

A recording has one equation for each instruction that reached it and was not refused, in order, and
nothing else.  It does not matter whether the computation went on after a refusal, or whether an
instance of differentiation issued the instruction on behalf of another one that came to nothing.

* `Equation.observation` : what an equation has on record;
* `Negotiation.recording_exchanges` : the equations are the exchanges that were not refused;
* `Recorder.Orderly` : a recording in which each equation reads only what is bound before it;
* `Negotiation.Grounded.recording` : grounded negotiations leave such recordings behind;
* `Computation.stage_exact` : what staging a grounded computation comes to.
-/
import DualTrace.Proofs.Exact
import DualTrace.Proofs.Provenance
import DualTrace.Proofs.Restaging
import Mathlib.Algebra.Ring.Int.Defs

namespace DualTrace

variable {σ α β : Type}

/-! ## Exchanges -/

/-- What an equation has on record: an instruction that was answered with the register that the
equation binds. -/
def Equation.observation (e : Equation α) : Observation α :=
  ⟨⟨e.rhs.op, e.rhs.args.map Value.ofAtom⟩, some (.reg e.binder)⟩

/-- An instruction that a recording refuses leaves everything as it was. -/
theorem Driver.recording_eq_error {i : Instruction (Value α)} {M M' : Machine (Recorder α) α}
    {e : Error α} (h : Driver.recording i M = .error e M') : M' = M := by
  rw [recording_apply] at h
  cases hrhs : i.toAtoms with
  | error e => rw [hrhs] at h; cases h; rfl
  | ok rhs => rw [hrhs] at h; cases h

/-- **The equations on record are the exchanges that were not refused**, in the same order.  The
recording and the observed recording of the same negotiation may start in sessions that differ in
what is reported there. -/
theorem Negotiation.recording_exchanges (x : Negotiation α β) :
    ∀ {M N : Machine (Recorder α) α}, M.state = N.state →
      M.session.nextTag = N.session.nextTag →
      ∃ (es : List (Equation α)) (os : List (Observation α)),
        (Run.final (x.run Driver.recording) M).state.equations.toList =
          M.state.equations.toList ++ es ∧
        (Run.final (x.run Driver.recording.observed) N).session.observations =
          os.reverse ++ N.session.observations ∧
        os.filter (·.answer.isSome) = es.map Equation.observation := by
  induction x with
  | done b => exact fun _ _ => ⟨[], [], (List.append_nil _).symm, rfl, rfl⟩
  | fail e => exact fun _ _ => ⟨[], [], (List.append_nil _).symm, rfl, rfl⟩
  | ask i next ih =>
    intro M N hstate htag
    rw [final_run_ask, final_run_ask, Driver.recording_apply, Driver.observed,
      Driver.recording_apply, ← hstate]
    cases hrhs : i.toAtoms with
    | error e =>
      -- the refusal is observed, but nothing is recorded
      obtain ⟨es, os, hes, hos, hsame⟩ := ih (.error e) (M := M)
        (N := { N with session := N.session.observe ⟨i, none⟩ }) hstate htag
      refine ⟨es, ⟨i, none⟩ :: os, hes, ?_, hsame⟩
      rw [hos, List.reverse_cons, List.append_assoc]
      rfl
    | ok rhs =>
      let binder := M.state.fresh .result
      let event : Event α := .staged M.state.equations.size ⟨binder, rhs⟩
      obtain ⟨es, os, hes, hos, hsame⟩ := ih (.ok (.reg binder))
        (M := ⟨M.state.record rhs, M.session.report event⟩)
        (N := ⟨M.state.record rhs, (N.session.report event).observe ⟨i, some (.reg binder)⟩⟩)
        rfl htag
      refine ⟨⟨binder, rhs⟩ :: es, ⟨i, some (.reg binder)⟩ :: os, ?_, ?_, ?_⟩
      · rw [hes]
        show (M.state.equations.push _).toList ++ es = _
        rw [Array.toList_push, List.append_assoc]
        rfl
      · rw [hos, List.reverse_cons, List.append_assoc]
        rfl
      · rw [List.filter_cons_of_pos rfl, hsame, List.map_cons]
        have hi := Instruction.toAtoms_eq_ok hrhs
        exact congrArg (fun i : Instruction (Value α) =>
          (⟨i, some (.reg binder)⟩ : Observation α) :: es.map Equation.observation) hi
  | mint next ih =>
    intro M N hstate htag
    have htag' : (⟨M.session.nextTag⟩ : Tag) = ⟨N.session.nextTag⟩ := congrArg Tag.mk htag
    obtain ⟨es, os, hes, hos, hsame⟩ := ih ⟨M.session.nextTag⟩
      (M := M.withTags (M.session.nextTag + 1)) (N := N.withTags (N.session.nextTag + 1))
      hstate (congrArg (· + 1) htag)
    refine ⟨es, os, hes, ?_, hsame⟩
    rw [htag'] at hos
    exact hos

/-! ## Recordings in order -/

/-- The registers of the first parameters of a recording are distinct, if there are enough
numbers. -/
theorem Trace.nodup_paramRegisters (space : UInt32) {n : Nat} (h : n < 2 ^ 32) :
    (paramRegisters space n).Nodup := by
  refine List.nodup_range.map_on fun i hi j hj hij => ?_
  have hnat := congrArg (fun r : Register => r.index.toNat) hij
  rwa [UInt32.toNat_ofNat_of_lt' (Nat.lt_trans (List.mem_range.mp hi) h),
    UInt32.toNat_ofNat_of_lt' (Nat.lt_trans (List.mem_range.mp hj) h)] at hnat

namespace Recorder

variable {space : UInt32} {n : Nat} {r : Recorder α}

/-- The registers that a recording of `n` parameters has handed out. -/
def handedOut (n : Nat) (r : Recorder α) : List Register :=
  (Trace.binders r.equations.toList).reverse ++ Trace.paramRegisters r.space n

/-- A recording of `n` parameters in which each equation reads only what is bound before it. -/
structure Orderly (space : UInt32) (n : Nat) (r : Recorder α) : Prop extends
    r.Numbered space n where
  ordered : Trace.Ordered (Trace.paramRegisters space n) r.equations.toList

theorem orderly_behindParams (space : UInt32) (n : Nat) :
    (behindParams space n : Recorder α).Orderly space n :=
  ⟨numbered_behindParams space n, trivial⟩

/-- One more equation, and one more register is handed out. -/
theorem handedOut_record (n : Nat) (r : Recorder α) (rhs : Instruction (Atom α)) :
    (r.record rhs).handedOut n = r.fresh .result :: r.handedOut n := by
  unfold handedOut
  show (Trace.binders (r.equations.push _).toList).reverse ++ _ = _
  rw [Array.toList_push, Trace.binders, List.map_append, List.reverse_append]
  rfl

/-- The next register has not been handed out, if there are enough numbers. -/
theorem Numbered.fresh_not_mem_handedOut (h : r.Numbered space n)
    (hsize : n + r.equations.size < 2 ^ 32) : r.fresh .result ∉ r.handedOut n := by
  have hindex : (r.fresh .result).index.toNat = n + r.equations.size := by
    rw [fresh, h.next]
    exact UInt32.toNat_ofNat_of_lt' hsize
  intro hmem
  rcases List.mem_append.mp hmem with hmem | hmem
  · rw [List.mem_reverse, h.binders] at hmem
    obtain ⟨k, hk, hfresh⟩ := List.mem_map.mp hmem
    rw [List.mem_range'_1] at hk
    rw [← hfresh] at hindex
    have hk' : k = n + r.equations.size := by
      rwa [UInt32.toNat_ofNat_of_lt' (Nat.lt_trans hk.2 hsize)] at hindex
    omega
  · obtain ⟨k, -, hfresh⟩ := List.mem_map.mp hmem
    exact absurd (congrArg Register.role hfresh) (by simp [fresh])

/-- A recording stays in order if an instruction mentions only registers that it has handed out. -/
theorem Orderly.record (h : r.Orderly space n) (hsize : n + r.equations.size < 2 ^ 32)
    {rhs : Instruction (Atom α)} (harity : rhs.args.length = rhs.op.arity)
    (hreads : ∀ s, .reg s ∈ rhs.args → s ∈ r.handedOut n) : (r.record rhs).Orderly space n where
  toNumbered := h.toNumbered.record rhs
  ordered := by
    show Trace.Ordered _ (r.equations.push ⟨r.fresh .result, rhs⟩).toList
    have hout : r.handedOut n =
        (Trace.binders r.equations.toList).reverse ++ Trace.paramRegisters space n := by
      rw [handedOut, h.inSpace]
    rw [Array.toList_push, Trace.ordered_append, ← hout]
    exact ⟨h.ordered, ⟨harity, fun s hs => hreads s (Equation.mem_reads.mp hs),
      h.fresh_not_mem_handedOut hsize⟩, trivial⟩

/-- A recording in order makes a well-formed trace. -/
theorem Orderly.wellFormed (h : r.Orderly space n) (hsize : n < 2 ^ 32) {ret : Atom α}
    (hret : ∀ s ∈ ret.regs, s ∈ r.handedOut n) :
    (⟨Trace.paramRegisters space n, r.equations.toList, ret⟩ : Trace α).WellFormed where
  params := Trace.nodup_paramRegisters space hsize
  ordered := h.ordered
  ret s hs := by
    have hmem := hret s hs
    rw [handedOut, h.inSpace, List.mem_append, List.mem_reverse] at hmem
    exact hmem.symm

end Recorder

/-- Equations are never taken back. -/
theorem Driver.recording_keeps_size (k : Nat) :
    (recording : Driver (Recorder α) α).Keeps fun r => k ≤ r.equations.size := by
  intro i M hM
  unfold Run.final
  rw [recording_apply]
  cases i.toAtoms with
  | error e => exact hM
  | ok rhs =>
    show k ≤ (M.state.equations.push _).size
    rw [Array.size_push]
    exact Nat.le_succ_of_le hM

/-- The operands of a recorded instruction are registers that it mentions. -/
theorem Instruction.mem_registers_of_toAtoms {i : Instruction (Value α)}
    {rhs : Instruction (Atom α)} (h : i.toAtoms = .ok rhs) {s : Register}
    (hs : .reg s ∈ rhs.args) : s ∈ i.args.flatMap Value.registers := by
  rw [toAtoms_eq_ok h]
  exact List.mem_flatMap.mpr
    ⟨.reg s, List.mem_map.mpr ⟨.reg s, hs, rfl⟩, List.mem_singleton_self s⟩

/-- A recorded instruction has as many operands as its operation takes. -/
theorem Instruction.length_of_toAtoms {i : Instruction (Value α)} {rhs : Instruction (Atom α)}
    (h : i.toAtoms = .ok rhs) : rhs.args.length = rhs.op.arity := by
  obtain ⟨_, harity, -⟩ := Check.bind_eq_ok.mp h
  have hlen := checkArity_eq_ok.mp harity
  rw [toAtoms_eq_ok h, List.length_map] at hlen
  exact hlen

/-- **A grounded negotiation leaves a recording in order behind**, and what it ends with mentions
only registers that were handed out. -/
theorem Negotiation.Grounded.recording {regs : β → List Register} {known : List Register}
    {x : Negotiation α β} (h : Grounded regs known x) {space : UInt32} {n : Nat} :
    ∀ {M : Machine (Recorder α) α}, M.state.Orderly space n → known ⊆ M.state.handedOut n →
      n + (Run.final (x.run Driver.recording) M).state.equations.size < 2 ^ 32 →
      (Run.final (x.run Driver.recording) M).state.Orderly space n ∧
        ∀ b M', x.run Driver.recording M = .ok b M' → regs b ⊆ M'.state.handedOut n := by
  induction h with
  | done h =>
    intro M hM hknown _
    refine ⟨hM, fun b M' hrun => ?_⟩
    cases hrun
    exact List.Subset.trans h hknown
  | fail e => exact fun hM _ _ => ⟨hM, nofun⟩
  | @ask known i next hargs _ ih =>
    intro M hM hknown hsize
    rw [final_run_ask, Driver.recording_apply] at hsize ⊢
    simp only [run_ask, Driver.recording_apply]
    cases hrhs : i.toAtoms with
    | error e =>
      rw [hrhs] at hsize
      exact ih (.error e) hM hknown hsize
    | ok rhs =>
      rw [hrhs] at hsize
      let M₁ : Machine (Recorder α) α := ⟨M.state.record rhs, M.session.report
        (.staged M.state.equations.size ⟨M.state.fresh .result, rhs⟩)⟩
      let rest := (next (.ok (.reg (M.state.fresh .result)))).run Driver.recording
      have hsize₁ : n + (Run.final rest M₁).state.equations.size < 2 ^ 32 := hsize
      have hgrown : M₁.state.equations.size ≤ (Run.final rest M₁).state.equations.size :=
        run_keeps (Driver.recording_keeps_size _) _ M₁ (Nat.le_refl _)
      have hpush : M₁.state.equations.size = M.state.equations.size + 1 := Array.size_push _
      have hM₁ : M₁.state.Orderly space n := by
        refine hM.record (by omega) (Instruction.length_of_toAtoms hrhs) fun s hs => ?_
        exact hknown (hargs (Instruction.mem_registers_of_toAtoms hrhs hs))
      refine ih (.ok (.reg (M.state.fresh .result))) (M := M₁) hM₁ ?_ hsize₁
      show M.state.fresh .result :: known ⊆ (M.state.record rhs).handedOut n
      rw [Recorder.handedOut_record]
      exact List.cons_subset_cons _ hknown
  | mint _ ih => exact fun hM hknown hsize => ih _ (M := Machine.withTags _ _) hM hknown hsize

/-! ## Staging -/

/-- The arguments on which a computation runs when it is staged. -/
def Machine.stagingArgs (n : Nat) (m : Machine σ α) : List (Value α) :=
  (Trace.paramRegisters m.session.nextSpace n).map Value.reg

/-- The recording in which a computation of `n` arguments runs when it is staged. -/
def Machine.staging (n : Nat) (m : Machine σ α) : Machine (Recorder α) α :=
  ⟨Recorder.behindParams m.session.nextSpace n, m.session.claimSpace.2⟩

/-- Parameters mention the registers that are handed out first. -/
theorem Machine.registers_stagingArgs (n : Nat) (m : Machine σ α) :
    (m.stagingArgs n).flatMap Value.registers ⊆ (m.staging n).state.handedOut n := by
  intro s hs
  obtain ⟨v, hv, hs⟩ := List.mem_flatMap.mp hs
  obtain ⟨p, hp, rfl⟩ := List.mem_map.mp hv
  rw [List.mem_singleton.mp hs]
  exact hp

namespace Computation

variable {c : Computation α} {n : Nat} {m : Machine σ α}

/-- A trace is made of what its computation has left on record. -/
theorem exists_run_of_stage {t : Trace α} (h : Run.result (c.stage n) m = .ok t) :
    ∃ v M ret, c.run Driver.recording (m.stagingArgs n) (m.staging n) = .ok v M ∧
      t = ⟨Trace.paramRegisters m.session.nextSpace n, M.state.equations.toList, ret⟩ := by
  rw [result_stage] at h
  split at h
  · rename_i v M hrun
    split at h
    · cases h
    · rename_i ret _
      exact ⟨v, M, ret, hrun, (Trace.checked_eq_ok_iff.mp h).2⟩
  · cases h

/-- A computation that negotiates has on record what it was not refused, numbered behind the
parameters. -/
theorem Follows.stage_records {body : List (Value α) → Negotiation α (Value α)}
    (h : c.Follows body) {t : Trace α} (hstage : Run.result (c.stage n) m = .ok t) :
    t.params = Trace.paramRegisters m.session.nextSpace n ∧
      t.equations.map Equation.observation =
        (c.transcript Driver.recording (m.stagingArgs n) (m.staging n)).filter
          (·.answer.isSome) ∧
      Trace.binders t.equations =
        Trace.resultRegisters m.session.nextSpace n t.equations.length := by
  obtain ⟨v, M, ret, hrun, rfl⟩ := exists_run_of_stage hstage
  rw [h] at hrun
  have hfinal : Run.final ((body (m.stagingArgs n)).run Driver.recording) (m.staging n) = M := by
    rw [Run.final, hrun]
  have hkeeps := Negotiation.run_keeps (Driver.recording_keeps m.session.nextSpace n)
    (body (m.stagingArgs n)) (m.staging n) (Recorder.numbered_behindParams _ n)
  obtain ⟨es, os, hes, hos, hsame⟩ := (body (m.stagingArgs n)).recording_exchanges
    (M := m.staging n) (N := (m.staging n).mapSession Session.clearRecord) rfl rfl
  rw [hfinal] at hkeeps hes
  refine ⟨rfl, ?_, hkeeps.binders⟩
  rw [transcript, h, hos, hes]
  show es.map _ = ((os.reverse ++ []).reverse).filter _
  rw [List.append_nil, List.reverse_reverse, hsame]

/-- The check of a trace that a grounded computation has left on record never fails. -/
theorem Grounded.result_stage (h : c.Grounded) {v : Value α} {M : Machine (Recorder α) α}
    (hrun : c.run Driver.recording (m.stagingArgs n) (m.staging n) = .ok v M)
    (hsize : n + M.state.equations.size < 2 ^ 32) {ret : Atom α} (hret : v.atom? = some ret) :
    Run.result (c.stage n) m =
      .ok ⟨Trace.paramRegisters m.session.nextSpace n, M.state.equations.toList, ret⟩ := by
  obtain ⟨body, hfollows, hbody⟩ := h
  have hrun' := hrun
  rw [hfollows] at hrun'
  have hfinal : Run.final ((body (m.stagingArgs n)).run Driver.recording) (m.staging n) = M := by
    rw [Run.final, hrun']
  have hstart : (m.staging n).state.Orderly m.session.nextSpace n :=
    Recorder.orderly_behindParams _ n
  obtain ⟨horderly, hvalue⟩ := (hbody (m.stagingArgs n)).recording hstart
    (Machine.registers_stagingArgs n m) (by rwa [hfinal])
  rw [hfinal] at horderly
  have hregs : ∀ s ∈ ret.regs, s ∈ M.state.handedOut n := by
    intro s hs
    refine hvalue v M hrun' ?_
    rw [Value.atom?_eq_some_iff.mp hret]
    cases ret with
    | lit x => cases hs
    | reg r => exact hs
  have hchecked := Trace.checked_eq_ok_iff.mpr
    ⟨horderly.wellFormed (Nat.lt_of_le_of_lt (Nat.le_add_right _ _) hsize) hregs, rfl⟩
  rw [Computation.result_stage]
  unfold Machine.stagingArgs Machine.staging at hrun
  rw [hrun]
  simp only [hret]
  exact hchecked

/-- **A recording has on record exactly what it was asked for**, whatever errors were caught on the
way.

* Staging a grounded computation gives a trace whose parameters are the registers `x0`, `x1` and so
  on of a new register space.  Its equations are, in order, one for each instruction that reached
  the recording and was not refused, with its operation and operands, and the register that was the
  answer is the one with the next number.
* If there are enough numbers, then the trace that is left on record when such a computation
  completes with an atom passes the check.
* An instruction that is refused leaves the recording as it was.
* The derivatives of grounded computations along numbers are grounded, to any depth, and so are
  traces that are replayed and self-contained programs. -/
theorem stage_exact [Scalar α] :
    (∀ {σ : Type} (c : Computation α), c.Grounded → ∀ (n : Nat) (m : Machine σ α),
      (∀ t, Run.result (c.stage n) m = .ok t →
        t.params = (List.range n).map
          (fun i => ⟨m.session.nextSpace, UInt32.ofNat i, .param⟩) ∧
        t.equations.map Equation.observation =
          (c.transcript Driver.recording (m.stagingArgs n) (m.staging n)).filter
            (·.answer.isSome) ∧
        ∀ (k : Nat) (e : Equation α), t.equations[k]? = some e →
          e.binder = ⟨m.session.nextSpace, UInt32.ofNat (n + k), .result⟩) ∧
      ∀ v M, c.run Driver.recording (m.stagingArgs n) (m.staging n) = .ok v M →
        n + M.state.equations.size < 2 ^ 32 → ∀ ret, v.atom? = some ret →
        ∃ t, Run.result (c.stage n) m = .ok t ∧ t.equations = M.state.equations.toList ∧
          t.ret = ret) ∧
    (∀ (i : Instruction (Value α)) (M M' : Machine (Recorder α) α) (e : Error α),
      Driver.recording i M = .error e M' → M' = M) ∧
    (∀ (c : Computation α) (xs : List α), c.Grounded → (c.jvp (xs.map Value.num)).Grounded) ∧
    (∀ t : Trace α, t.computation.Grounded) ∧
    ∀ p : Program α, p.SelfContained → p.computation.Grounded := by
  refine ⟨fun c hc n m => ⟨fun t hstage => ?_, fun v M hrun hsize ret hret => ?_⟩,
    fun i M M' e => Driver.recording_eq_error, fun c xs hc => hc.jvp ?_,
    Trace.grounded_computation, fun p => Program.grounded_computation⟩
  · obtain ⟨body, hfollows, -⟩ := hc
    obtain ⟨hparams, hequations, hbinders⟩ := hfollows.stage_records hstage
    refine ⟨hparams, hequations, fun k e he => ?_⟩
    have hk := congrArg (fun rs : List Register => rs[k]?) hbinders
    obtain ⟨hlt, rfl⟩ := List.getElem?_eq_some_iff.mp he
    simpa [Trace.binders, Trace.resultRegisters, hlt] using hk
  · exact ⟨_, hc.result_stage hrun hsize hret, rfl, rfl⟩
  · rw [List.flatMap_map]
    exact List.flatMap_eq_nil_iff.mpr fun _ _ => rfl

end Computation

/-- A program that lets a dual number out of a drive and then has two instructions refused because
of it: one of a product rule, and a sum.  It catches both errors and returns five times its
argument. -/
def Program.undeterred : Program Int :=
  let identity : Program Int := .block .done (.arg 0 0)
  let product : Program Int :=
    .block (.ofList [.attempt (.issue .mul [.arg 0 0, .arg 0 0]) (.num 7),
      .issue .id [.result 0 0]]) (.result 0 1)
  .block
    (.ofList [.call (.forward identity none [.num 1] true) [.arg 0 0],
      .call (.jvp product [.result 0 0]) [.arg 0 0],
      .attempt (.issue .add [.arg 0 0, .result 0 0]) (.arg 0 0),
      .issue .mul [.result 0 2, .num 5]])
    (.result 0 3)

/-- The first instruction of the product rule is left on record. -/
theorem Computation.stage_exact_undeterred :
    ∃ t : Trace Int,
      Run.result (Program.undeterred.computation.stage 1) (⟨(), {}⟩ : Machine Unit Int) = .ok t ∧
      t.equations.map Equation.observation =
        (Program.undeterred.computation.transcript Driver.recording
          (Machine.stagingArgs 1 (⟨(), {}⟩ : Machine Unit Int))
          (Machine.staging 1 (⟨(), {}⟩ : Machine Unit Int))).filter (·.answer.isSome) ∧
      (Program.undeterred.computation.transcript Driver.recording
          (Machine.stagingArgs 1 (⟨(), {}⟩ : Machine Unit Int))
          (Machine.staging 1 (⟨(), {}⟩ : Machine Unit Int))).length = 4 ∧
      t.equations = [⟨⟨0, 1, .result⟩, .mul, [.reg ⟨0, 0, .param⟩, .reg ⟨0, 0, .param⟩]⟩,
        ⟨⟨0, 2, .result⟩, .mul, [.reg ⟨0, 0, .param⟩, .lit 5]⟩] := by
  let m : Machine Unit Int := ⟨(), {}⟩
  obtain ⟨hmain, -, -, -, hprogram⟩ := Computation.stage_exact (α := Int)
  have hgrounded := hprogram Program.undeterred (by
    simp [Program.undeterred, Program.SelfContained, Block.ofList, Block.SelfContained,
      Step.SelfContained, Operand.Plain])
  obtain ⟨hrecords, hchecks⟩ := hmain _ hgrounded 1 m
  obtain ⟨t, hstage, hequations, -⟩ := hchecks _ _ rfl (by decide) _ rfl
  exact ⟨t, hstage, (hrecords t hstage).2.1, rfl, hequations⟩

end DualTrace
