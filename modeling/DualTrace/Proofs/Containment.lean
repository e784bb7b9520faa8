/-
# Dual numbers stay inside

The dual numbers of an instance of differentiation stay behind the driver of this instance: what it
passes on to the next driver does not mention it, however deep the instances are nested and whatever
they use of the values around them.

* `Drive.Contained` : an instance that is not mentioned by what it passes on;
* `Program.drives_contained` : every instance that a program starts is contained;
* `Program.KeepsDuals` : a run that keeps dual numbers inside;
* `Program.duals_contained` : evaluation and staging keep dual numbers inside.

The induction goes along the run.  It carries a class of values, which reaches the driver, and the
number of the oldest tag that is not yet taken: where an instance starts, its body goes on with the
values over the class.
-/
import DualTrace.Proofs.Drives
import DualTrace.Proofs.Exact
import DualTrace.Proofs.Range
import Mathlib.Algebra.Ring.Int.Defs

namespace DualTrace

variable {σ α : Type} [Scalar α]

/-! ## No instance escapes -/

/-- No operand that an instance passes on mentions it. -/
def Drive.Contained (dr : Drive σ α) : Prop :=
  ∀ o ∈ dr.emissions, ∀ v ∈ o.instruction.args, ¬ v.Mentions dr.tag

section Contained

variable {V : Value α → Prop} {S : σ → Prop} {d : Driver σ α} {k : Nat} {env : Frames α}
  {m m' : Machine σ α}

/-- What goes on record of a program is made of values of the class. -/
theorem Program.transcript_within (hd : d.Serves V S) (hV : Level V k)
    (henv : ∀ f ∈ env, f.Within V) {args : List (Value α)} (hargs : ∀ v ∈ args, V v)
    {p : Program α} (hp : p.InRange (env.map Frame.extent) args.length) (hm : S m.state)
    (hk : k ≤ m.session.nextTag) :
    ∀ o ∈ (p.computation env).transcript d args m, ∀ v ∈ o.instruction.args, V v := by
  intro o ho
  have hrun : (p.computation env).run d.observed args = (p.dialogue env args).run d.observed :=
    Program.run_eq_dialogue d.observed env args hp.closed
  unfold Computation.transcript at ho
  rw [List.mem_reverse, hrun] at ho
  exact (Program.dialogue_safe hV henv hargs hp).run_observed hd
    (m := m.mapSession Session.clearRecord) hm hk (fun _ h => nomatch h) o ho

/-- How a program ends. -/
theorem Program.run_within (hd : d.Serves V S) (hV : Level V k) (henv : ∀ f ∈ env, f.Within V)
    {args : List (Value α)} (hargs : ∀ v ∈ args, V v) {p : Program α}
    (hp : p.InRange (env.map Frame.extent) args.length) (hm : S m.state)
    (hk : k ≤ m.session.nextTag) {v : Value α} (hrun : p.run d env args m = .ok v m') :
    V v ∧ S m'.state ∧ k ≤ m'.session.nextTag := by
  rw [Program.run_eq_dialogue d env args hp.closed] at hrun
  exact (Program.dialogue_safe hV henv hargs hp).of_run_ok hd hm hk hrun

/-- How a step ends. -/
theorem Step.run_within (hd : d.Serves V S) (hV : Level V k) (henv : ∀ f ∈ env, f.Within V)
    {s : Step α} (hs : s.InRange (env.map Frame.extent)) (hm : S m.state)
    (hk : k ≤ m.session.nextTag) {v : Value α} (hrun : s.run d env m = .ok v m') :
    V v ∧ S m'.state ∧ k ≤ m'.session.nextTag := by
  rw [Step.run_eq_dialogue d env hs.closed] at hrun
  exact (Step.dialogue_safe hV henv hs).of_run_ok hd hm hk hrun

end Contained

mutual

/-- **No instance that a program starts is mentioned by what it passes on.** -/
theorem Program.drives_contained {V : Value α → Prop} {S : σ → Prop} {d : Driver σ α} {k : Nat}
    (hd : d.Serves V S) (hV : Level V k) {env : Frames α} (henv : ∀ f ∈ env, f.Within V)
    {args : List (Value α)} (hargs : ∀ v ∈ args, V v) :
    ∀ {p : Program α}, p.InRange (env.map Frame.extent) args.length → ∀ {m : Machine σ α},
      S m.state → k ≤ m.session.nextTag → ∀ dr ∈ p.drives d env args m, dr.Contained
  | .block body ret, h, m, hm, hk => Block.drives_contained hd hV henv (.ofArgs hargs) h.1 hm hk
  | .jvp body seeds, h, m, hm, hk => by
    have hp : (Program.jvp body seeds).InRange (env.map Frame.extent) args.length := h
    obtain ⟨vs, hvs, hlen, hVvs⟩ := Operand.lookupAll_inRange hV henv h.2
    rw [Program.drives, Operand.readAll_eq_lookupAll env hp.closed.2, hvs, Run.after_ofExcept_ok]
    split
    case isFalse => exact fun dr hdr => nomatch hdr
    case isTrue hcount =>
      refine List.forall_mem_cons.mpr ⟨?_, ?_⟩
      -- the instance itself is newer than all that is mentioned around it
      · intro o ho v hv hown
        have hVv := Program.transcript_within hd hV henv hargs hp hm hk o ho v hv
        exact absurd (hV.older v hVv _ hown) (Nat.not_lt.mpr hk)
      -- the instances of its body run behind its driver, on the values over those around it
      · exact Program.drives_contained (hd.forward hV hk) (hV.extend hk)
          (Frame.Within.inside henv _) (hV.over_zipWith hk hargs hVvs) (h.1.lifted hlen hcount _)
          hm (Nat.le_refl _)

/-- No instance that steps start is mentioned by what it passes on. -/
theorem Block.drives_contained {V : Value α → Prop} {S : σ → Prop} {d : Driver σ α} {k : Nat}
    (hd : d.Serves V S) (hV : Level V k) {env : Frames α} (henv : ∀ f ∈ env, f.Within V)
    {frame : Frame α} (hframe : frame.Within V) :
    ∀ {b : Block α}, b.InRange (env.map Frame.extent) frame.extent → ∀ {m : Machine σ α},
      S m.state → k ≤ m.session.nextTag → ∀ dr ∈ b.drives d env frame m, dr.Contained
  | .done, _, _, _, _ => fun dr hdr => nomatch hdr
  | .step first rest, h, m, hm, hk => by
    have henv' : ∀ f ∈ frame :: env, f.Within V := List.forall_mem_cons.mpr ⟨hframe, henv⟩
    intro dr hdr
    rcases List.mem_append.mp hdr with hdr | hdr
    · exact Step.drives_contained hd hV henv' h.1 hm hk dr hdr
    · obtain ⟨v, m', hrun, hdr⟩ := Run.mem_after.mp hdr
      obtain ⟨hv, hm', hk'⟩ := Step.run_within hd hV henv' h.1 hm hk hrun
      exact Block.drives_contained hd hV henv (hframe.push hv)
        (by rw [Frame.extent_push]; exact h.2) hm' hk' dr hdr

/-- No instance that a step starts is mentioned by what it passes on. -/
theorem Step.drives_contained {V : Value α → Prop} {S : σ → Prop} {d : Driver σ α} {k : Nat}
    (hd : d.Serves V S) (hV : Level V k) {env : Frames α} (henv : ∀ f ∈ env, f.Within V) :
    ∀ {s : Step α}, s.InRange (env.map Frame.extent) → ∀ {m : Machine σ α},
      S m.state → k ≤ m.session.nextTag → ∀ dr ∈ s.drives d env m, dr.Contained
  | .issue op operands, _, _, _, _ => fun dr hdr => nomatch hdr
  | .call body operands, h, m, hm, hk => by
    have hs : (Step.call body operands).InRange (env.map Frame.extent) := h
    obtain ⟨vs, hvs, hlen, hVvs⟩ := Operand.lookupAll_inRange hV henv h.2
    rw [Step.drives, Operand.readAll_eq_lookupAll env hs.closed.2, hvs]
    exact Program.drives_contained hd hV henv hVvs (by rw [hlen]; exact h.1) hm hk
  | .loop count init body, h, m, hm, hk => by
    obtain ⟨v, hv, hVv⟩ := Operand.lookup_inRange hV henv h.1
    have hargs : ∀ {v w : Value α}, V v → V w → ∀ u ∈ [v, w], V u := fun hv hw =>
      List.forall_mem_cons.mpr ⟨hv, List.forall_mem_singleton.mpr hw⟩
    rw [Step.drives, Operand.read_eq_lookup env h.1.plain, hv]
    refine Run.forall_mem_collectTurns hV.num
      (M := fun m => S m.state ∧ k ≤ m.session.nextTag) ?_ ?_ count 0 hVv ⟨hm, hk⟩
    · intro v w m u m' hv hw hm hrun
      exact Program.run_within hd hV henv (hargs hv hw) h.2 hm.1 hm.2 hrun
    · intro v w m hv hw hm
      exact Program.drives_contained hd hV henv (hargs hv hw) h.2 hm.1 hm.2

end

/-! ## Closed programs -/

/-- A run of a program that keeps dual numbers inside: only values of the class `V` reach the
driver, no instance is mentioned by what it passes on, and `Program.drives` misses no instance. -/
structure Program.KeepsDuals (p : Program α) (d : Driver σ α) (args : List (Value α))
    (m : Machine σ α) (V : Value α → Prop) : Prop where
  operands : ∀ o ∈ p.computation.transcript d args m, ∀ v ∈ o.instruction.args, V v
  contained : ∀ dr ∈ p.drives d [] args m, dr.Contained
  complete : (p.drives d [] args m).map Drive.tag = Run.tags (p.computation.run d args) m

section InRange

variable {V : Value α → Prop} {S : σ → Prop} {d : Driver σ α} {p : Program α}
  {args : List (Value α)}

/-- Under a driver that serves a class of values without dual numbers, dual numbers stay inside. -/
theorem Program.keepsDuals (hd : d.Serves V S) (hV : Level V 0) (hargs : ∀ v ∈ args, V v)
    (hp : p.InRange [] args.length) {m : Machine σ α} (hm : S m.state) :
    p.KeepsDuals d args m V where
  operands := Program.transcript_within hd hV Frame.Within.nil hargs hp hm (Nat.zero_le _)
  contained := Program.drives_contained hd hV Frame.Within.nil hargs hp hm (Nat.zero_le _)
  complete := Program.drives_tags hd.tagless [] args hp.closed m

/-- A run under such a driver fails with regular errors only. -/
theorem Program.run_regular (hd : d.Serves V S) (hV : Level V 0) (hargs : ∀ v ∈ args, V v)
    (hp : p.InRange [] args.length) {m m' : Machine σ α} (hm : S m.state) {e : Error α}
    (hrun : p.computation.run d args m = .error e m') : e.Regular := by
  have hdialogue : p.computation.run d args = (p.dialogue [] args).run d :=
    Program.run_eq_dialogue d [] args hp.closed
  rw [hdialogue] at hrun
  exact (Program.dialogue_safe hV Frame.Within.nil hargs hp).of_run_error hd hm
    (Nat.zero_le _) hrun

omit [Scalar α] in
theorem Value.atomOf_of_mem_map {space : UInt32} {rs : List Register}
    (hrs : ∀ r ∈ rs, r.space = space) : ∀ v ∈ rs.map (Value.reg (α := α)), v.AtomOf space := by
  intro v hv
  obtain ⟨r, hr, rfl⟩ := List.mem_map.mp hv
  exact hrs r hr

/-- Evaluation of a program whose references are in range fails with regular errors only. -/
theorem Program.evaluate_regular {xs : List α} (hp : p.InRange [] xs.length) {m m' : Machine σ α}
    {e : Error α} (h : p.computation.evaluate xs m = .error e m') : e.Regular := by
  unfold Computation.evaluate at h
  rcases Run.bind_eq_error.mp h with h | ⟨v, m₁, -, h⟩
  · exact Program.run_regular Driver.serves_direct Value.level_isNum Value.isNum_of_mem_map
      (by rw [List.length_map]; exact hp) True.intro h
  · cases v with
    | num x => cases h
    | reg r => cases h; exact Or.inr rfl
    | dual tag p d => cases h; exact Or.inr rfl

/-- A recording of a program whose references are in range fails with regular errors only. -/
theorem Program.finishRecording_regular {n : Nat} (hp : p.InRange [] n)
    {m m' : Machine (Recorder α) α} {e : Error α}
    (h : p.computation.finishRecording n m = .error e m') : e.Regular := by
  have hparams : ∀ r ∈ m.state.freshParams n, r.space = m.state.space := by
    intro r hr
    obtain ⟨i, -, rfl⟩ := List.mem_map.mp hr
    rfl
  have hlen : ((m.state.freshParams n).map (Value.reg (α := α))).length = n := by
    rw [List.length_map, Recorder.freshParams, List.length_map, List.length_range]
  unfold Computation.finishRecording at h
  rcases Run.bind_eq_error.mp h with h | ⟨_, _, hget, h⟩
  · cases h
  cases hget
  rcases Run.bind_eq_error.mp h with h | ⟨_, _, hskip, h⟩
  · cases h
  cases hskip
  rcases Run.bind_eq_error.mp h with h | ⟨v, m₁, -, h⟩
  · exact Program.run_regular (Driver.serves_recording m.state.space) (Value.level_atomOf _)
      (Value.atomOf_of_mem_map hparams) (by rw [hlen]; exact hp) (by rfl) h
  · cases hv : v.atom? with
    | none =>
      rw [hv] at h
      cases h
      exact Or.inr rfl
    | some ret =>
      rw [hv] at h
      rcases Run.bind_eq_error.mp h with h | ⟨_, _, hget, h⟩
      · cases h
      cases hget
      rcases Run.bind_eq_error.mp h with h | ⟨t, m₂, -, h⟩
      · exact Trace.regular_of_checked (Run.ofExcept_eq_error h)
      · cases h

/-- Staging a program whose references are in range fails with regular errors only. -/
theorem Program.stage_regular {n : Nat} (hp : p.InRange [] n) {m m' : Machine σ α} {e : Error α}
    (h : p.computation.stage n m = .error e m') : e.Regular := by
  unfold Computation.stage at h
  rcases Run.bind_eq_error.mp h with h | ⟨space, m₁, -, h⟩
  · cases h
  rcases Run.bind_eq_error.mp h with h | ⟨⟨t, r⟩, m₂, -, h⟩
  · unfold Run.within at h
    cases hrec : p.computation.finishRecording n ⟨{ space := space }, m₁.session⟩ with
    | ok t m₃ => simp [hrec] at h
    | error e' m₃ =>
      simp only [hrec, EStateM.Result.error.injEq] at h
      exact h.1 ▸ Program.finishRecording_regular hp hrec
  · cases h

end InRange

/-- **Dual numbers never escape the instance that owns them.**  Take a closed program of `n`
arguments whose references are in range.

* Evaluated at numbers, it asks the driver for instructions on numbers only, and no instance is
  mentioned by what it passes on.
* Recorded on registers of the recording, it asks for instructions on numbers and registers of the
  recording only, and no instance is mentioned by what it passes on.
* Neither its evaluation nor its staging ever fails because an instruction cannot be carried out:
  some count is wrong, or a completion value or the trace breaks a rule of structure. -/
theorem Program.duals_contained {p : Program α} {n : Nat} (hp : p.InRange [] n) :
    (∀ {σ : Type} (xs : List α) (m : Machine σ α), xs.length = n →
        p.KeepsDuals Driver.direct (xs.map Value.num) m Value.IsNum) ∧
      (∀ (rs : List Register) (m : Machine (Recorder α) α), rs.length = n →
        (∀ r ∈ rs, r.space = m.state.space) →
        p.KeepsDuals Driver.recording (rs.map Value.reg) m (Value.AtomOf m.state.space)) ∧
      (∀ {σ : Type} (xs : List α) (m : Machine σ α) (e : Error α), xs.length = n →
        Run.result (p.computation.evaluate xs) m = .error e →
        e.kind = .arity ∨ e.kind = .invariant) ∧
      ∀ {σ : Type} (m : Machine σ α) (e : Error α),
        Run.result (p.computation.stage n) m = .error e →
        e.kind = .arity ∨ e.kind = .invariant := by
  refine ⟨?_, ?_, ?_, ?_⟩
  · rintro σ xs m rfl
    exact Program.keepsDuals Driver.serves_direct Value.level_isNum Value.isNum_of_mem_map
      (by rw [List.length_map]; exact hp) True.intro
  · rintro rs m rfl hrs
    exact Program.keepsDuals (Driver.serves_recording m.state.space) (Value.level_atomOf _)
      (Value.atomOf_of_mem_map hrs) (by rw [List.length_map]; exact hp) rfl
  · rintro σ xs m e rfl he
    obtain ⟨m', he⟩ := Run.result_eq_error.mp he
    exact Program.evaluate_regular hp he
  · intro σ m e he
    obtain ⟨m', he⟩ := Run.result_eq_error.mp he
    exact Program.stage_regular hp he

/-- The program that takes the derivative by its argument `x` of the derivative of `y * x` by `y`,
taken at `x` along `x`. -/
def seededSlope : Program Int :=
  .jvp (.block (.step (.call (.jvp
      (.block (.step (.issue .mul [.arg 0 0, .arg 1 0]) .done) (.result 0 0)) [.arg 0 0])
    [.arg 0 0]) .done) (.result 0 0)) [.num 1]

/-- Evaluating `seededSlope` starts two instances, one inside the other.  The inner one has dual
numbers of the outer one as arguments, seeds and enclosing values. -/
theorem Program.duals_contained_seededSlope :
    seededSlope.InRange [] 1 ∧
      (seededSlope.drives Driver.direct [] [.num 3] (⟨(), {}⟩ : Machine Unit Int)).map Drive.tag =
        [⟨0⟩, ⟨1⟩] ∧
      (∀ dr ∈ seededSlope.drives Driver.direct [] [.num 3] (⟨(), {}⟩ : Machine Unit Int),
        dr.Contained) ∧
      (∀ o ∈ seededSlope.computation.transcript Driver.direct [.num 3]
          (⟨(), {}⟩ : Machine Unit Int), ∀ v ∈ o.instruction.args, v.IsNum) ∧
      ∀ o ∈ seededSlope.computation.transcript Driver.recording [.reg ⟨0, 0, .param⟩]
          (⟨{ space := 0, next := 1 }, {}⟩ : Machine (Recorder Int) Int),
        ∀ v ∈ o.instruction.args, v.AtomOf 0 := by
  have hrange : seededSlope.InRange [] 1 := by
    simp [seededSlope, Program.InRange, Block.InRange, Step.InRange, Operand.InRange,
      Block.extent, Extent.push]
  obtain ⟨hdirect, hrecording, -⟩ := Program.duals_contained hrange
  have hkeeps := hdirect [3] (⟨(), {}⟩ : Machine Unit Int) rfl
  refine ⟨hrange, rfl, hkeeps.contained, hkeeps.operands, ?_⟩
  exact (hrecording [⟨0, 0, .param⟩] ⟨{ space := 0, next := 1 }, {}⟩ rfl
    fun r hr => by rw [List.mem_singleton.mp hr]).operands

end DualTrace
