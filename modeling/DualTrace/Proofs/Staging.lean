/-
# Staging is faithful

A recording keeps the whole of what a closed program asks for, so its trace behaves as the program
does under every driver.

* `Computation.stage_eq_ok` : what a staged trace holds;
* `Program.run_trace_eq` : a staged trace runs as the program does, up to the tags that it no longer
  takes;
* `Program.stage_faithful` : what this means for drivers with a state of their own, for evaluation,
  differentiation and staging.

The tags matter in one place.  A program that is driven on a dual number of an instance that it only
starts itself would look into it, where its trace would not; no such number can come from a program,
but a driver may make one up.
-/
import DualTrace.Proofs.Exact
import DualTrace.Proofs.Replay
import Mathlib.Algebra.Ring.Int.Defs

namespace DualTrace

variable {σ τ α β : Type}

/-! ## Conversations with sealed drivers -/

namespace Dialogue

variable {d : Driver σ α}

section Session

variable {f : Session α → Session α} (hf : ∀ s, (f s).mintTag = (s.mintTag.1, f s.mintTag.2))

include hf

/-- A tag that is taken after a change of the session is the one taken before it. -/
theorem mint_mapSession (m : Machine σ α) :
    (f m.session).nextTag = m.session.nextTag ∧
      (m.mapSession f).withTags ((f m.session).nextTag + 1) =
        (m.withTags (m.session.nextTag + 1)).mapSession f := by
  have h := hf m.session
  refine ⟨congrArg (fun p => p.1.id) h, ?_⟩
  exact congrArg (fun p => (⟨m.state, p.2⟩ : Machine σ α)) h

/-- A change of the session passes through a conversation with a sealed driver. -/
theorem run_mapSession (hd : d.Sealed) (x : Dialogue α β) (m : Machine σ α) :
    x.run d (m.mapSession f) = Run.mapMachine (Machine.mapSession f) (x.run d m) := by
  induction x generalizing m with
  | done b => rfl
  | fail e => rfl
  | ask i next ih =>
    rw [run_ask, run_ask, hd]
    cases d i m with
    | ok v m' => exact ih v m'
    | error e m' => rfl
  | mint next ih =>
    obtain ⟨htag, hm⟩ := mint_mapSession hf m
    show (next ⟨(f m.session).nextTag⟩).run d
      ((m.mapSession f).withTags ((f m.session).nextTag + 1)) = _
    rw [hm, ih, htag, run_mint]

/-- What is exchanged with a sealed driver does not depend on the session, tags apart. -/
theorem exchanges_mapSession (hd : d.Sealed) (x : Dialogue α β) (m : Machine σ α) :
    x.exchanges d (m.mapSession f) = x.exchanges d m := by
  induction x generalizing m with
  | done b => rfl
  | fail e => rfl
  | ask i next ih =>
    rw [exchanges, exchanges, hd]
    cases d i m with
    | ok v m' => exact congrArg _ (ih v m')
    | error e m' => rfl
  | mint next ih =>
    obtain ⟨htag, hm⟩ := mint_mapSession hf m
    show (next ⟨(f m.session).nextTag⟩).exchanges d
      ((m.mapSession f).withTags ((f m.session).nextTag + 1)) = _
    rw [hm, ih, htag, exchanges]

end Session

/-- Observation does not change what is exchanged. -/
theorem exchanges_observed (hd : d.Sealed) (x : Dialogue α β) (m : Machine σ α) :
    x.exchanges d.observed m = x.exchanges d m := by
  induction x generalizing m with
  | done b => rfl
  | fail e => rfl
  | ask i next ih =>
    rw [exchanges, exchanges, Driver.observed]
    cases d i m with
    | ok v m' =>
      refine congrArg _ ((ih v _).trans ?_)
      exact exchanges_mapSession (f := Session.observe ⟨i, some v⟩) (fun _ => rfl) hd _ m'
    | error e m' => rfl
  | mint next ih => exact ih _ (m.withTags (m.session.nextTag + 1))

/-- A conversation that is observed is the same conversation, with what was exchanged on record. -/
theorem run_observed (hd : d.Sealed) (x : Dialogue α β) (m : Machine σ α) :
    x.run d.observed m =
      Run.mapMachine (Machine.mapSession (Session.observeAll (x.exchanges d m))) (x.run d m) := by
  induction x generalizing m with
  | done b => rfl
  | fail e => rfl
  | ask i next ih =>
    rw [run_ask, run_ask, exchanges, Driver.observed]
    cases d i m with
    | ok v m' =>
      have hf : ∀ s : Session α, (s.observe ⟨i, some v⟩).mintTag =
          (s.mintTag.1, s.mintTag.2.observe ⟨i, some v⟩) := fun _ => rfl
      have hnext := ih v (m'.mapSession (Session.observe ⟨i, some v⟩))
      rw [exchanges_mapSession hf hd, run_mapSession hf hd] at hnext
      refine hnext.trans ?_
      show _ = Run.mapMachine (Machine.mapSession (Session.observeAll
        (⟨i, some v⟩ :: (next v).exchanges d m'))) ((next v).run d m')
      rw [← Session.observeAll_observe]
      cases (next v).run d m' <;> rfl
    | error e m' => rfl
  | mint next ih => exact ih _ (m.withTags (m.session.nextTag + 1))

/-- What every answer of a driver has, every answer in an exchange with it has. -/
theorem exchanges_answer {P : Value α → Prop} (h : ∀ i, Run.Gives P (d i))
    (x : Dialogue α β) (m : Machine σ α) :
    ∀ o ∈ x.exchanges d m, ∀ v, o.answer = some v → P v := by
  induction x generalizing m with
  | done b => intro o ho; cases ho
  | fail e => intro o ho; cases ho
  | ask i next ih =>
    rw [exchanges]
    cases hi : d i m with
    | error e m' =>
      intro o ho v hv
      rw [List.mem_singleton.mp ho] at hv
      cases hv
    | ok w m' =>
      intro o ho v hv
      rcases List.mem_cons.mp ho with rfl | ho
      · cases hv
        exact h i m w m' hi
      · exact ih w m' o ho v hv
  | mint next ih => exact ih _ (m.withTags (m.session.nextTag + 1))

end Dialogue

/-! ## Staged traces -/

/-- A trace that is staged is well formed and holds the equations, and the result, of a recording of
the computation on its parameters. -/
theorem Computation.stage_eq_ok {c : Computation α} {n : Nat} {m m' : Machine σ α} {t : Trace α}
    (h : (c.stage n : Run σ α (Trace α)) m = .ok t m') :
    t.WellFormed ∧ t.params.length = n ∧
      ∃ M M' : Machine (Recorder α) α, M.state.equations.toList = [] ∧
        c.run Driver.recording (t.params.map Value.reg) M = .ok (Value.ofAtom t.ret) M' ∧
        M'.state.equations.toList = t.equations := by
  unfold stage at h
  obtain ⟨space, m₁, -, h⟩ := Run.bind_eq_ok.mp h
  obtain ⟨⟨u, r⟩, m₂, hwithin, h⟩ := Run.bind_eq_ok.mp h
  cases h
  unfold Run.within at hwithin
  cases hrec : c.finishRecording n ⟨{ space := space }, m₁.session⟩ with
  | error e m₃ => simp [hrec] at hwithin
  | ok t' m₃ =>
    simp only [hrec, EStateM.Result.ok.injEq, Prod.mk.injEq] at hwithin
    obtain ⟨⟨rfl, -⟩, -⟩ := hwithin
    unfold finishRecording at hrec
    obtain ⟨_, _, hget, hrec⟩ := Run.bind_eq_ok.mp hrec
    cases hget
    obtain ⟨_, M, hskip, hrec⟩ := Run.bind_eq_ok.mp hrec
    cases hskip
    obtain ⟨result, M', hrun, hrec⟩ := Run.bind_eq_ok.mp hrec
    cases hret : result.atom? with
    | none =>
      rw [hret] at hrec
      cases hrec
    | some ret =>
      rw [hret] at hrec
      obtain ⟨_, _, hget, hrec⟩ := Run.bind_eq_ok.mp hrec
      cases hget
      obtain ⟨u, M'', hchecked, hrec⟩ := Run.bind_eq_ok.mp hrec
      obtain ⟨hwf, hu⟩ := Trace.checked_eq_ok_iff.mp (Run.ofExcept_eq_ok.mp hchecked).1
      obtain ⟨_, _, -, hrec⟩ := Run.bind_eq_ok.mp hrec
      cases hrec
      rw [hu]
      rw [Value.atom?_eq_some_iff.mp hret] at hrun
      refine ⟨hwf, ?_, _, M', rfl, hrun, rfl⟩
      simp [Recorder.freshParams]

variable [Scalar α]

/-- **A staged trace runs as the program does.**  Under a driver that takes no tag, the two end
alike, except that the program takes tags for its own instances and the trace does not. -/
theorem Program.run_trace_eq {ops : Op → Prop} {p : Program α} (hp : p.Closed ops) {n : Nat}
    {m₀ m₁ : Machine τ α} {t : Trace α} (ht : p.computation.stage n m₀ = .ok t m₁)
    {d : Driver σ α} (hd : d.Tagless) {args : List (Value α)} (hlen : args.length = n)
    {m : Machine σ α}
    (hforeign : ∀ tag, Run.Mints (p.computation.run d args) m tag →
      (∀ v ∈ args, ¬ v.OwnedBy tag) ∧
        ∀ o ∈ (p.dialogue [] args).exchanges d m, ∀ v, o.answer = some v → ¬ v.OwnedBy tag) :
    Run.SameButTags (t.computation.run d args m) (p.computation.run d args m) := by
  obtain ⟨hwf, hparams, M, M', hM, hrec, hM'⟩ := Computation.stage_eq_ok ht
  have hlen' : t.params.length = args.length := hparams.trans hlen.symm
  have hrun : p.computation.run d args = (p.dialogue [] args).run d :=
    Program.run_eq_dialogue d [] args hp
  have hrec' : (p.dialogue [] (t.params.map Value.reg)).run Driver.recording M =
      .ok (Value.ofAtom t.ret) M' := by
    rw [← Program.run_eq_dialogue Driver.recording [] _ hp]
    exact hrec
  have hmints : ∀ tag : Tag, m.session.nextTag ≤ tag.id →
      tag.id < (Run.final ((p.dialogue [] args).run d) m).session.nextTag →
      Run.Mints (p.computation.run d args) m tag := by
    intro tag hlo hhi
    rw [hrun]
    exact ⟨hlo, hhi⟩
  let ρ : Reading α := ⟨t.bind args, []⟩
  have hbindings : ∀ r w, ρ.bindings.lookup r = some w → (r, w) ∈ t.params.zip args :=
    fun r w h => (Trace.lookup_bind hwf.params hlen').mp h
  have hρ : ρ.Current m.session.nextTag
      (Run.final ((p.dialogue [] args).run d) m).session.nextTag M.session.nextTag
      m.session.nextTag := by
    refine ⟨⟨fun x hx => ?_, fun r w _ x hx => ?_⟩, fun x hx => ?_, fun r w h tag hlo hhi => ?_⟩
    · cases hx
    · cases hx
    · cases hx
    · exact (hforeign tag (hmints tag hlo hhi)).1 w (List.of_mem_zip (hbindings r w h)).2
  have hargs : List.Forall₂ (Value.ReadsAs ρ) (t.params.map Value.reg) args := by
    rw [List.forall₂_map_left_iff, List.forall₂_iff_zip]
    refine ⟨hlen', fun hmem => ?_⟩
    exact .reg ((Trace.lookup_bind hwf.params hlen').mpr hmem)
  have henv : Frames.ReadsAs ρ [] [] := .nil
  have hreads := Program.dialogue_readsAs hρ.sound henv hargs p
  have hequations : M'.state.equations.toList = M.state.equations.toList ++ t.equations := by
    rw [hM, hM', List.nil_append]
  have hreplay := hreads.replay hd hrec' hequations hwf.ordered
    (fun r w h => (List.of_mem_zip (hbindings r w h)).1) (m := m) (Nat.le_refl _) (Nat.le_refl _) hρ
    (fun o ho v hv tag hlo hhi => (hforeign tag (hmints tag hlo hhi)).2 o ho v hv)
    m.session.nextTag
  refine ⟨m.session.nextTag, ?_⟩
  rw [hrun]
  rw [Trace.computation_apply hlen'.symm]
  rw [Machine.withTags_self] at hreplay
  obtain ⟨v, m', ρ', hv, hret, hes⟩ | ⟨e, m', he, hes⟩ := hreplay
  · rw [hes, hv]
    show Run.ofExcept (Bindings.value ρ'.bindings t.ret) _ = _
    rw [Bindings.value_of_readsAs hret]
    rfl
  · rw [hes, he]
    rfl

/-- What is on record of a program is what its dialogue exchanges. -/
theorem Program.transcript_eq {ops : Op → Prop} {p : Program α} (hp : p.Closed ops)
    {d : Driver σ α} (hd : d.Sealed) (args : List (Value α)) (m : Machine σ α) :
    p.computation.transcript d args m = (p.dialogue [] args).exchanges d m := by
  have hclear : ∀ s : Session α, s.clearRecord.mintTag = (s.mintTag.1, s.mintTag.2.clearRecord) :=
    fun _ => rfl
  have hrun : p.computation.run d.observed args = (p.dialogue [] args).run d.observed :=
    Program.run_eq_dialogue d.observed [] args hp
  unfold Computation.transcript
  rw [hrun, Run.final_of_mapMachine (Dialogue.run_observed hd _ _),
    Run.final_of_mapMachine (Dialogue.run_mapSession hclear hd _ _),
    Dialogue.exchanges_mapSession hclear hd]
  show (((p.dialogue [] args).exchanges d m).reverse ++ []).reverse = _
  rw [List.append_nil, List.reverse_reverse]

/-! ## Programs and their traces -/

omit [Scalar α] in
/-- A recording answers with registers. -/
theorem Driver.recording_gives (tag : Tag) (i : Instruction (Value α)) :
    Run.Gives (fun v => ¬ v.OwnedBy tag) (Driver.recording i) := by
  intro m v m' h
  obtain ⟨_, -, rfl, -, -⟩ := Driver.recording_eq_ok h
  exact id

section Faithful

variable {ops : Op → Prop} {p : Program α} (hp : p.Closed ops) {n : Nat} {m₀ m₁ : Machine τ α}
  {t : Trace α} (ht : p.computation.stage n m₀ = .ok t m₁)

include hp ht

/-- A staged trace has the derivatives of the program. -/
theorem Program.jvp_trace_eq {d : Driver σ α} (hd : d.Tagless) (seeds : List (Value α))
    {args : List (Value α)} (hlen : args.length = n) (m : Machine σ α) :
    Run.SameButTags ((t.computation.jvp seeds).run d args m)
      ((p.computation.jvp seeds).run d args m) := by
  unfold Computation.jvp
  by_cases hseeds : args.length = seeds.length
  · simp only [hseeds, ne_eq, not_true_eq_false, if_false]
    let tag : Tag := ⟨m.session.nextTag⟩
    refine Run.SameButTags.bind
      (x := t.computation.run (Driver.forward tag d) (List.zipWith (Value.lift tag) args seeds))
      (y := p.computation.run (Driver.forward tag d) (List.zipWith (Value.lift tag) args seeds))
      (m := m.withTags (m.session.nextTag + 1)) ?_ fun _ => Run.Tagless.ofExcept _
    have hlifted : (List.zipWith (Value.lift tag) args seeds).length = n :=
      (Value.length_zipWith_lift tag hseeds).trans hlen
    -- the program's own instances start after this one, whose dual numbers are all it gets to see
    have hother : ∀ own : Tag, m.session.nextTag + 1 ≤ own.id → ∀ v : Value α, v.OwnedBy tag →
        ¬ v.OwnedBy own := by
      intro own hown v hv hv'
      obtain ⟨q, e, rfl⟩ := Value.ownedBy_iff_exists.mp hv
      have heq : tag = own := hv'
      rw [← heq] at hown
      exact Nat.not_succ_le_self _ hown
    refine Program.run_trace_eq hp ht (hd.forward tag) hlifted fun own hown => ⟨?_, ?_⟩
    · intro v hv
      rw [← List.map_uncurry_zip_eq_zipWith] at hv
      obtain ⟨x, -, rfl⟩ := List.mem_map.mp hv
      exact hother own hown.1 _ (Value.ownedBy_lift _ _ _)
    · intro o ho v hv
      exact hother own hown.1 v
        (Dialogue.exchanges_answer (Driver.forward_gives d tag) _ _ o ho v hv)
  · simp only [hseeds, ne_eq, not_false_eq_true, if_true]
    exact Run.SameButTags.refl _

/-- A staged trace has the values of the program. -/
theorem Program.evaluate_trace_eq {xs : List α} (hlen : xs.length = n) (m : Machine σ α) :
    Run.SameButTags (t.computation.evaluate xs m) (p.computation.evaluate xs m) := by
  unfold Computation.evaluate
  refine Run.SameButTags.bind ?_ fun v => ?_
  · refine Program.run_trace_eq hp ht Driver.tagless_direct (by rw [List.length_map, hlen]) ?_
    refine fun tag _ => ⟨?_, ?_⟩
    · intro v hv
      obtain ⟨x, -, rfl⟩ := List.mem_map.mp hv
      exact id
    · intro o ho v hv
      exact Dialogue.exchanges_answer (P := fun v => ¬ v.OwnedBy tag)
        (Driver.direct_gives fun _ => id) _ _ o ho v hv
  · cases v with
    | num x => exact Run.Tagless.pure x
    | reg r => exact Run.Tagless.throw _
    | dual s q e => exact Run.Tagless.throw _

/-- Recording a staged trace closes with the same trace as recording the program. -/
theorem Program.finishRecording_trace_eq (M : Machine (Recorder α) α) :
    Run.SameButTags (t.computation.finishRecording n M) (p.computation.finishRecording n M) := by
  let params : List (Value α) := (M.state.freshParams n).map Value.reg
  unfold Computation.finishRecording
  refine Run.SameButTags.bind (x := t.computation.run Driver.recording params)
    (y := p.computation.run Driver.recording params)
    (m := { M with state := M.state.skipParams n }) ?_ fun v => ?_
  · refine Program.run_trace_eq hp ht Driver.tagless_recording ?_ fun tag _ => ⟨?_, ?_⟩
    · simp only [params, Recorder.freshParams, List.length_map, List.length_range]
    · intro v hv
      obtain ⟨r, -, rfl⟩ := List.mem_map.mp hv
      exact id
    · intro o ho v hv
      exact Dialogue.exchanges_answer (Driver.recording_gives tag) _ _ o ho v hv
  · cases v.atom? with
    | none => exact Run.Tagless.throw _
    | some ret =>
      intro k M'
      exact Run.Tagless.bind (Run.Tagless.ofExcept
        (Trace.checked ⟨M.state.freshParams n, M'.state.equations.toList, ret⟩))
        (fun _ _ _ => rfl) k M'

/-- Staging a staged trace again gives the trace that staging the program gives. -/
theorem Program.stage_trace_eq (m : Machine σ α) :
    Run.SameButTags (t.computation.stage n m) (p.computation.stage n m) := by
  let init : Recorder α := { space := m.session.nextSpace }
  unfold Computation.stage
  refine Run.SameButTags.bind (x := Run.within init (t.computation.finishRecording n))
    (y := Run.within init (p.computation.finishRecording n))
    (m := { m with session := m.session.claimSpace.2 }) ?_ fun r => Run.Tagless.pure r.1
  exact .within (Program.finishRecording_trace_eq hp ht _)

end Faithful

/-- **Staging is faithful.**  Let the trace of a closed program be staged.

* Under every driver that works by transitions of its own state, the trace and the program agree on
  all arguments, unless an argument or an answer is a dual number of an instance that the program
  starts itself.
* They evaluate to the same number or the same error.
* Their derivatives agree under every such driver, whatever it answers.
* Staging one or the other gives the same trace. -/
theorem Program.stage_faithful {ops : Op → Prop} {p : Program α} (hp : p.Closed ops) {n : Nat}
    {m₀ m₁ : Machine τ α} {t : Trace α} (ht : p.computation.stage n m₀ = .ok t m₁) :
    (∀ {σ : Type} (step : Instruction (Value α) → σ → Except (Error α) (Value α) × σ)
        (args : List (Value α)) (m : Machine σ α), args.length = n →
        (∀ tag, Run.Mints (p.computation.run (Driver.ofTransition step) args) m tag →
          (∀ v ∈ args, ¬ v.OwnedBy tag) ∧
            ∀ o ∈ p.computation.transcript (Driver.ofTransition step) args m,
              ∀ v, o.answer = some v → ¬ v.OwnedBy tag) →
        t.computation.Agree p.computation (Driver.ofTransition step) args m) ∧
      (∀ {σ : Type} (xs : List α) (m : Machine σ α), xs.length = n →
        Run.result (t.computation.evaluate xs) m = Run.result (p.computation.evaluate xs) m) ∧
      (∀ {σ : Type} (step : Instruction (Value α) → σ → Except (Error α) (Value α) × σ)
        (seeds args : List (Value α)) (m : Machine σ α), args.length = n →
        (t.computation.jvp seeds).Agree (p.computation.jvp seeds) (Driver.ofTransition step)
          args m) ∧
      ∀ {σ : Type} (m : Machine σ α),
        Run.result (t.computation.stage n) m = Run.result (p.computation.stage n) m := by
  refine ⟨?_, ?_, ?_, ?_⟩
  · intro σ step args m hlen hforeign
    have hd := Driver.sealed_ofTransition step
    have hclear : ∀ s : Session α,
        s.clearRecord.mintTag = (s.mintTag.1, s.mintTag.2.clearRecord) := fun _ => rfl
    have hrun : ∀ d : Driver σ α, p.computation.run d args = (p.dialogue [] args).run d :=
      fun d => Program.run_eq_dialogue d [] args hp
    rw [Program.transcript_eq hp hd] at hforeign
    refine Computation.agree_of_sameButTags
      (Program.run_trace_eq hp ht hd.tagless hlen hforeign)
      (Program.run_trace_eq hp ht hd.tagless.observed hlen fun tag htag => ?_)
    -- an observed run on a clear record takes the same tags and gets the same answers
    rw [Dialogue.exchanges_observed hd, Dialogue.exchanges_mapSession hclear hd]
    refine hforeign tag ⟨htag.1, ?_⟩
    have hhi := htag.2
    rw [hrun, Run.final_of_mapMachine (Dialogue.run_observed hd _ _),
      Run.final_of_mapMachine (Dialogue.run_mapSession hclear hd _ _)] at hhi
    rw [hrun]
    exact hhi
  · intro σ xs m hlen
    exact (Program.evaluate_trace_eq hp ht hlen m).result_eq
  · intro σ step seeds args m hlen
    have hd := (Driver.sealed_ofTransition step).tagless
    exact Computation.agree_of_sameButTags (Program.jvp_trace_eq hp ht hd seeds hlen m)
      (Program.jvp_trace_eq hp ht hd.observed seeds hlen _)
  · intro σ m
    exact (Program.stage_trace_eq hp ht m).result_eq

/-- The program that takes the derivative of `y * y * x` by `y`, at the square of its argument
`x`. -/
def squareSlope : Program Int :=
  .block (.step (.issue .mul [.arg 0 0, .arg 0 0])
    (.step (.call (.jvp
      (.block (.step (.issue .mul [.arg 0 0, .arg 0 0])
        (.step (.issue .mul [.result 0 0, .arg 1 0]) .done)) (.result 0 1))
      [.num 1]) [.result 0 0]) .done)) (.result 0 1)

theorem squareSlope_closed : squareSlope.Closed fun _ => True := by
  simp [squareSlope, Program.Closed, Block.Closed, Step.Closed, Operand.Plain]

/-- The trace of `squareSlope` evaluates as the program, and asks a driver that carries out and
counts the instructions for nine of them. -/
theorem Program.stage_faithful_squareSlope :
    ∃ t m₁, squareSlope.computation.stage 1 (⟨(), {}⟩ : Machine Unit Int) = .ok t m₁ ∧
      Run.result (t.computation.evaluate [3]) (⟨(), {}⟩ : Machine Unit Int) = .ok 54 ∧
      (Run.final (t.computation.run (Driver.ofTransition fun i k => (i.evaluate, k + 1)) [.num 3])
        (⟨0, {}⟩ : Machine Nat Int)).state = 9 := by
  have hok : (Run.result (squareSlope.computation.stage 1) (⟨(), {}⟩ : Machine Unit Int)).isOk :=
    by decide +kernel
  unfold Run.result at hok
  cases ht : squareSlope.computation.stage 1 (⟨(), {}⟩ : Machine Unit Int) with
  | error e m₁ => rw [ht] at hok; cases hok
  | ok t m₁ =>
    have hfaithful := Program.stage_faithful squareSlope_closed ht
    refine ⟨t, m₁, rfl, ?_, ?_⟩
    · exact (hfaithful.2.1 [3] _ rfl).trans rfl
    · refine (hfaithful.1 _ [.num 3] ⟨0, {}⟩ rfl fun tag _ => ⟨?_, ?_⟩).state.trans rfl
      · intro v hv
        rw [List.mem_singleton.mp hv]
        exact id
      · rw [Program.transcript_eq squareSlope_closed (Driver.sealed_ofTransition _)]
        refine Dialogue.exchanges_answer (fun i m v m' h => ?_) _ _
        unfold Driver.ofTransition at h
        cases hi : i.evaluate with
        | error e => simp [hi] at h
        | ok w =>
          simp only [hi, EStateM.Result.ok.injEq] at h
          obtain ⟨_, x, -, -, hx⟩ := Instruction.evaluate_eq_ok.mp hi
          rw [← h.1, hx]
          exact id

end DualTrace
