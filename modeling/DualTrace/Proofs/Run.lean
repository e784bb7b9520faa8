/-
# How runs end

A run ends with a value or an error, on a machine.  This file names the parts of an ending and says
which runs do not care about the supply of tags.

* `Run.result`, `Run.final` : what a run gives, and the machine that it leaves behind;
* `Run.SameButTags` : endings that differ at most in the supply of tags;
* `Run.Tagless`, `Driver.Tagless` : runs and drivers that take no tag and do not look at how many
  are taken;
* `Driver.Sealed` : drivers that leave the whole session alone;
* `Computation.transcript` : the instructions that a computation issues, with the answers to them;
* `Computation.Agree` : two computations that no driver of this kind tells apart.

Every driver that works on a state of its own is sealed (`Driver.sealed_ofTransition`).
-/
import DualTrace.Forward
import DualTrace.Recorder

namespace DualTrace

variable {σ τ α β γ : Type}

/-! ## Endings -/

namespace Run

/-- What a run gives: a value or an error. -/
def result (x : Run σ α β) (m : Machine σ α) : Except (Error α) β :=
  match x m with
  | .ok b _ => .ok b
  | .error e _ => .error e

/-- The machine that a run leaves behind. -/
def final (x : Run σ α β) (m : Machine σ α) : Machine σ α :=
  match x m with
  | .ok _ m => m
  | .error _ m => m

theorem result_eq_ok {x : Run σ α β} {m : Machine σ α} {b : β} :
    result x m = .ok b ↔ ∃ m', x m = .ok b m' := by
  unfold result
  cases x m <;> simp

theorem result_eq_error {x : Run σ α β} {m : Machine σ α} {e : Error α} :
    result x m = .error e ↔ ∃ m', x m = .error e m' := by
  unfold result
  cases x m <;> simp

/-- The ending of a run on a changed machine. -/
def mapMachine (f : Machine σ α → Machine σ α) :
    EStateM.Result (Error α) (Machine σ α) β → EStateM.Result (Error α) (Machine σ α) β
  | .ok b m => .ok b (f m)
  | .error e m => .error e (f m)

/-- The machine that a changed run leaves behind. -/
theorem final_of_mapMachine {x y : Run σ α β} {m m' : Machine σ α} {f : Machine σ α → Machine σ α}
    (h : x m = mapMachine f (y m')) : final x m = f (final y m') := by
  unfold final
  rw [h]
  cases y m' <;> rfl

theorem pure_apply (b : β) (m : Machine σ α) : (pure b : Run σ α β) m = .ok b m := rfl

/-- A check leaves the machine as it was. -/
theorem final_ofExcept (x : Except (Error α) β) (m : Machine σ α) : final (ofExcept x) m = m := by
  cases x <;> rfl

theorem throw_apply (e : Error α) (m : Machine σ α) : (throw e : Run σ α β) m = .error e m := rfl

/-- An action after a failure is not carried out. -/
theorem throw_bind (e : Error α) (f : β → Run σ α γ) : (throw e >>= f) = throw e := rfl

/-- A sequence of two actions succeeds when both do. -/
theorem bind_eq_ok {x : Run σ α β} {f : β → Run σ α γ} {m m' : Machine σ α} {c : γ} :
    (x >>= f) m = .ok c m' ↔ ∃ b m₁, x m = .ok b m₁ ∧ f b m₁ = .ok c m' := by
  rw [bind_apply]
  cases x m with
  | ok b m₁ =>
    constructor
    · intro h
      exact ⟨b, m₁, rfl, h⟩
    · rintro ⟨b', m₂, h₁, h₂⟩
      cases h₁
      exact h₂
  | error e m₁ => simp

/-- A sequence of two actions fails when one of them does. -/
theorem bind_eq_error {x : Run σ α β} {f : β → Run σ α γ} {m m' : Machine σ α} {e : Error α} :
    (x >>= f) m = .error e m' ↔
      x m = .error e m' ∨ ∃ b m₁, x m = .ok b m₁ ∧ f b m₁ = .error e m' := by
  rw [bind_apply]
  cases x m with
  | ok b m₁ =>
    constructor
    · intro h
      exact Or.inr ⟨b, m₁, rfl, h⟩
    · rintro (h | ⟨b', m₂, h₁, h₂⟩)
      · cases h
      · cases h₁
        exact h₂
  | error e m₁ => simp

/-- What a sequence of two runs gives. -/
theorem result_bind (x : Run σ α β) (f : β → Run σ α γ) (m : Machine σ α) :
    result (x >>= f) m =
      match x m with
      | .ok b m' => result (f b) m'
      | .error e _ => .error e := by
  unfold result
  rw [bind_apply]
  cases x m <;> rfl

/-- What a run gives that ends with a check. -/
theorem result_bind_ofExcept (x : Run σ α β) (f : β → Except (Error α) γ) (m : Machine σ α) :
    result (x >>= fun b => ofExcept (f b)) m = result x m >>= f := by
  rw [result_bind]
  unfold result
  cases x m with
  | ok b m' =>
    show (match ofExcept (f b) m' with | .ok c _ => .ok c | .error e _ => .error e) = f b
    cases f b <;> rfl
  | error e m' => rfl

/-- A check succeeds without touching the machine. -/
theorem ofExcept_eq_ok {x : Except (Error α) β} {m m' : Machine σ α} {b : β} :
    (ofExcept x : Run σ α β) m = .ok b m' ↔ x = .ok b ∧ m' = m := by
  cases x with
  | ok c =>
    rw [ofExcept_ok, pure_apply]
    constructor
    · intro h; cases h; exact ⟨rfl, rfl⟩
    · rintro ⟨h, rfl⟩; cases h; rfl
  | error e => simp [ofExcept_error, throw_apply]

/-- A check that fails ends the run. -/
theorem ofExcept_eq_error {x : Except (Error α) β} {m m' : Machine σ α} {e : Error α}
    (h : (ofExcept x : Run σ α β) m = .error e m') : x = .error e := by
  cases x with
  | ok b => cases h
  | error e' =>
    cases h
    rfl

end Run

/-- Whatever a run gives satisfies `P`. -/
def Run.Gives (P : β → Prop) (x : Run σ α β) : Prop :=
  ∀ (m : Machine σ α) (b : β) (m' : Machine σ α), x m = .ok b m' → P b

namespace Run.Gives

variable {P : β → Prop} {Q : γ → Prop}

theorem pure {b : β} (h : P b) : Run.Gives P (Pure.pure b : Run σ α β) := by
  intro m b' m' hb
  cases hb
  exact h

theorem throw (e : Error α) : Run.Gives P (MonadExcept.throw e : Run σ α β) := by
  intro m b m' hb
  cases hb

/-- What a sequence of two runs gives is what the second one gives. -/
theorem bind {x : Run σ α β} {f : β → Run σ α γ} (hx : Run.Gives P x)
    (hf : ∀ b, P b → Run.Gives Q (f b)) : Run.Gives Q (x >>= f) := by
  intro m c m' h
  obtain ⟨b, m₁, hb, hc⟩ := Run.bind_eq_ok.mp h
  exact hf b (hx m b m₁ hb) m₁ c m' hc

theorem trivial (x : Run σ α β) : Run.Gives (fun _ => True) x := fun _ _ _ _ => True.intro

end Run.Gives

/-! ## The supply of tags -/

/-- The machine with `n` as the number of the next tag. -/
def Machine.withTags (n : Nat) (m : Machine σ α) : Machine σ α :=
  { m with session := { m.session with nextTag := n } }

@[simp] theorem Machine.withTags_state (n : Nat) (m : Machine σ α) :
    (m.withTags n).state = m.state := rfl

@[simp] theorem Machine.withTags_nextTag (n : Nat) (m : Machine σ α) :
    (m.withTags n).session.nextTag = n := rfl

theorem Machine.withTags_self (m : Machine σ α) : m.withTags m.session.nextTag = m := rfl

/-- A run takes a tag when the tag is in the supply before the run and no longer afterwards. -/
def Run.Mints (x : Run σ α β) (m : Machine σ α) (tag : Tag) : Prop :=
  m.session.nextTag ≤ tag.id ∧ tag.id < (Run.final x m).session.nextTag

/-- A run that takes no tag and does not look at how many are taken. -/
def Run.Tagless (x : Run σ α β) : Prop :=
  ∀ (n : Nat) (m : Machine σ α), x (m.withTags n) = Run.mapMachine (Machine.withTags n) (x m)

/-- Endings that differ at most in the supply of tags. -/
def Run.SameButTags (r r' : EStateM.Result (Error α) (Machine σ α) β) : Prop :=
  ∃ n, r = Run.mapMachine (Machine.withTags n) r'

namespace Run.Tagless

theorem pure (b : β) : Run.Tagless (Pure.pure b : Run σ α β) := fun _ _ => rfl

theorem throw (e : Error α) : Run.Tagless (MonadExcept.throw e : Run σ α β) := fun _ _ => rfl

theorem ofExcept (x : Except (Error α) β) : Run.Tagless (Run.ofExcept x : Run σ α β) := by
  cases x with
  | ok b => exact pure b
  | error e => exact throw e

/-- A sequence of tagless runs is tagless. -/
theorem bind {x : Run σ α β} {f : β → Run σ α γ} (hx : Run.Tagless x)
    (hf : ∀ b, Run.Tagless (f b)) : Run.Tagless (x >>= f) := by
  intro n m
  rw [Run.bind_apply, Run.bind_apply, hx n m]
  cases x m with
  | ok b m₁ => exact hf b n m₁
  | error e m₁ => rfl

/-- A tagless run leaves the supply of tags as it was. -/
theorem nextTag_of_ok {x : Run σ α β} (hx : Run.Tagless x) {m m' : Machine σ α} {b : β}
    (h : x m = .ok b m') : m'.session.nextTag = m.session.nextTag := by
  have hsame := hx m.session.nextTag m
  rw [Machine.withTags_self, h] at hsame
  injection hsame with _ hm
  rw [hm]
  rfl

theorem nextTag_of_error {x : Run σ α β} (hx : Run.Tagless x) {m m' : Machine σ α} {e : Error α}
    (h : x m = .error e m') : m'.session.nextTag = m.session.nextTag := by
  have hsame := hx m.session.nextTag m
  rw [Machine.withTags_self, h] at hsame
  injection hsame with _ hm
  rw [hm]
  rfl

end Run.Tagless

namespace Run.SameButTags

variable {x y : Run σ α β} {m m' : Machine σ α}

theorem refl (r : EStateM.Result (Error α) (Machine σ α) β) : Run.SameButTags r r := by
  cases r with
  | ok b m => exact ⟨m.session.nextTag, rfl⟩
  | error e m => exact ⟨m.session.nextTag, rfl⟩

/-- Endings stay the same when a run follows that does not care about tags. -/
theorem bind {f : β → Run σ α γ} (h : Run.SameButTags (x m) (y m'))
    (hf : ∀ b, Run.Tagless (f b)) : Run.SameButTags ((x >>= f) m) ((y >>= f) m') := by
  obtain ⟨n, hn⟩ := h
  refine ⟨n, ?_⟩
  rw [Run.bind_apply, Run.bind_apply, hn]
  cases y m' with
  | ok b m₁ => exact hf b n m₁
  | error e m₁ => rfl

/-- A driver state of its own does not change what two runs have in common. -/
theorem within {init : τ} {x y : Run τ α β}
    (h : Run.SameButTags (x ⟨init, m.session⟩) (y ⟨init, m.session⟩)) :
    Run.SameButTags (Run.within init x m) (Run.within init y m) := by
  obtain ⟨n, hn⟩ := h
  refine ⟨n, ?_⟩
  unfold Run.within
  rw [hn]
  cases y ⟨init, m.session⟩ <;> rfl

theorem result_eq (h : Run.SameButTags (x m) (y m')) : Run.result x m = Run.result y m' := by
  obtain ⟨n, hn⟩ := h
  unfold Run.result
  rw [hn]
  cases y m' <;> rfl

/-- The machines that are left behind differ in the supply of tags only. -/
theorem final_eq (h : Run.SameButTags (x m) (y m')) :
    ∃ n, Run.final x m = (Run.final y m').withTags n := by
  obtain ⟨n, hn⟩ := h
  exact ⟨n, Run.final_of_mapMachine hn⟩

end Run.SameButTags

/-! ## Tagless drivers -/

/-- A driver that takes no tag and does not look at how many are taken. -/
def Driver.Tagless (d : Driver σ α) : Prop := ∀ i, Run.Tagless (d i)

/-- The machine with a changed session. -/
def Machine.mapSession (f : Session α → Session α) (m : Machine σ α) : Machine σ α :=
  { m with session := f m.session }

@[simp] theorem Machine.mapSession_state (f : Session α → Session α) (m : Machine σ α) :
    (m.mapSession f).state = m.state := rfl

/-- A driver that leaves the session alone and does not look at it. -/
def Driver.Sealed (d : Driver σ α) : Prop :=
  ∀ i f m, d i (m.mapSession f) = Run.mapMachine (Machine.mapSession f) (d i m)

namespace Driver

/-- Every driver that answers by a transition of its own state is sealed. -/
theorem sealed_ofTransition
    (step : Instruction (Value α) → σ → Except (Error α) (Value α) × σ) :
    (ofTransition step).Sealed := by
  intro i f m
  show ofTransition step i (m.mapSession f) = Run.mapMachine _ (ofTransition step i m)
  unfold ofTransition
  rw [Machine.mapSession_state]
  rcases step i m.state with ⟨answer | answer, s⟩ <;> rfl

/-- A sealed driver takes no tag. -/
theorem Sealed.tagless {d : Driver σ α} (hd : d.Sealed) : d.Tagless :=
  fun i n m => hd i (fun s => { s with nextTag := n }) m

theorem tagless_ofAnswer (answer : Instruction (Value α) → Except (Error α) (Value α)) :
    (ofAnswer answer : Driver σ α).Tagless := fun i => Run.Tagless.ofExcept (answer i)

theorem tagless_direct [Scalar α] : (direct : Driver σ α).Tagless := tagless_ofAnswer _

/-- A recording takes registers, not tags. -/
theorem tagless_recording : (recording : Driver (Recorder α) α).Tagless := by
  intro i
  unfold recording
  refine Run.Tagless.bind (Run.Tagless.ofExcept _) fun rhs => ?_
  intro n m
  rfl

/-- Observation adds to the record only. -/
theorem Tagless.observed {d : Driver σ α} (hd : d.Tagless) : d.observed.Tagless := by
  intro i n m
  show d.observed i (m.withTags n) = Run.mapMachine _ (d.observed i m)
  unfold Driver.observed
  rw [hd i n m]
  cases d i m <;> rfl

/-- An instance of differentiation takes its tag before it starts and none afterwards. -/
theorem Tagless.forward [Scalar α] {d : Driver σ α} (hd : d.Tagless) (tag : Tag) :
    (Driver.forward tag d).Tagless := by
  intro i
  unfold Driver.forward
  refine Run.Tagless.bind (Run.Tagless.ofExcept _) fun _ => ?_
  split
  · exact .bind (hd _) fun _ => .bind (hd _) fun _ => .pure _
  · exact .bind (hd _) fun _ => .bind (hd _) fun _ => .bind (hd _) fun _ =>
      .bind (hd _) fun _ => .pure _
  · exact .bind (hd _) fun _ => .bind (hd _) fun _ => .pure _
  · exact .pure _
  · exact .throw _

end Driver

/-! ## Derivatives -/

section Derivatives

variable [Scalar α]

omit [Scalar α] in
/-- With one seed for each argument there are as many liftings as arguments. -/
theorem Value.length_zipWith_lift (tag : Tag) {seeds primals : List (Value α)}
    (hlen : primals.length = seeds.length) :
    (List.zipWith (Value.lift tag) primals seeds).length = primals.length := by
  rw [List.length_zipWith, ← hlen, Nat.min_self]

/-- A derivative with one seed for each argument drives its body on dual numbers of a new
instance. -/
theorem Computation.jvp_apply (c : Computation α) {seeds primals : List (Value α)}
    (hlen : primals.length = seeds.length) (d : Driver σ α) (m : Machine σ α) :
    (c.jvp seeds).run d primals m =
      (c.run (d.forward ⟨m.session.nextTag⟩)
          (List.zipWith (Value.lift ⟨m.session.nextTag⟩) primals seeds) >>= fun v =>
        Run.ofExcept (v.tangentOf ⟨m.session.nextTag⟩))
        { m with session := m.session.mintTag.2 } := by
  unfold jvp
  simp only [hlen, ne_eq, not_true_eq_false, if_false]
  rfl

/-- What a derivative with one seed for each argument gives. -/
theorem Computation.result_jvp (c : Computation α) {seeds primals : List (Value α)}
    (hlen : primals.length = seeds.length) (d : Driver σ α) (m : Machine σ α) :
    Run.result ((c.jvp seeds).run d primals) m =
      Run.result (c.run (d.forward ⟨m.session.nextTag⟩)
          (List.zipWith (Value.lift ⟨m.session.nextTag⟩) primals seeds))
        { m with session := m.session.mintTag.2 } >>= Value.tangentOf ⟨m.session.nextTag⟩ := by
  rw [← Run.result_bind_ofExcept]
  unfold Run.result
  rw [jvp_apply c hlen]

/-- A derivative with another number of seeds starts no instance. -/
theorem Computation.jvp_of_ne (c : Computation α) {seeds primals : List (Value α)}
    (hlen : primals.length ≠ seeds.length) (d : Driver σ α) :
    (c.jvp seeds).run d primals =
      throw (.wrongCount .primals seeds.length primals.length) := by
  unfold jvp
  simp only [hlen, ne_eq, not_false_eq_true, if_true, Run.throw_bind]

end Derivatives

/-! ## Transcripts -/

/-- The session with further observations, in the order in which they were made. -/
def Session.observeAll (os : List (Observation α)) (s : Session α) : Session α :=
  { s with observations := os.reverse ++ s.observations }

/-- One observation and then others are so many observations. -/
theorem Session.observeAll_observe (o : Observation α) (os : List (Observation α)) :
    observeAll os ∘ observe o = observeAll (o :: os) := by
  funext s
  simp only [Function.comp_apply, observeAll, observe, List.reverse_cons, List.append_assoc,
    List.singleton_append]

/-- The instructions that a computation issues to a driver, in order, with the answers to them. -/
def Computation.transcript (c : Computation α) (d : Driver σ α) (args : List (Value α))
    (m : Machine σ α) : List (Observation α) :=
  (Run.final (c.run d.observed args) (m.mapSession Session.clearRecord)).session
    |>.observations.reverse

/-- Two computations agree under a driver, from a machine on: they give the same value or the same
error, leave the driver in the same state, and issue the same instructions in the same order. -/
structure Computation.Agree (c c' : Computation α) (d : Driver σ α) (args : List (Value α))
    (m : Machine σ α) : Prop where
  result : Run.result (c.run d args) m = Run.result (c'.run d args) m
  state : (Run.final (c.run d args) m).state = (Run.final (c'.run d args) m).state
  transcript : c.transcript d args m = c'.transcript d args m

/-- Computations agree when all their runs end the same but for the tags. -/
theorem Computation.agree_of_sameButTags {c c' : Computation α} {d : Driver σ α}
    {args : List (Value α)} {m : Machine σ α}
    (h : Run.SameButTags (c.run d args m) (c'.run d args m))
    (hobs : Run.SameButTags (c.run d.observed args (m.mapSession Session.clearRecord))
      (c'.run d.observed args (m.mapSession Session.clearRecord))) : c.Agree c' d args m := by
  obtain ⟨n, hn⟩ := h.final_eq
  obtain ⟨k, hk⟩ := hobs.final_eq
  refine ⟨h.result_eq, ?_, ?_⟩
  · rw [hn, Machine.withTags_state]
  · have hlog := congrArg (fun m' : Machine σ α => m'.session.observations.reverse) hk
    exact hlog

end DualTrace
