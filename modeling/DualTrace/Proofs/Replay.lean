/-
# Replaying what was recorded

What a dialogue asks of a recording becomes the equations of its trace.  Replayed under another
driver, these equations ask for the same instructions as the dialogue that the recorded one reads
as.

* `Driver.recording_eq_ok` : what a recording adds for one instruction;
* `Dialogue.exchanges` : the instructions that a dialogue asks for, with their answers;
* `Dialogue.ReadsAs.replay` : a replay is the conversation of the other dialogue, up to the tags
  that it no longer takes.

The replay binds each register to the value that the other dialogue got at this point.  What carries
the induction is that the bindings are a reading of the registers, in which no register stands for a
dual number of an instance that the other dialogue starts itself.
-/
import DualTrace.Proofs.Reading
import DualTrace.Proofs.Valuation

namespace DualTrace

variable {σ τ α β γ : Type}

/-! ## Steps of a conversation -/

namespace Dialogue

/-- Taking a tag and going on. -/
theorem run_mint (d : Driver σ α) (next : Tag → Dialogue α β) (m : Machine σ α) :
    (mint next).run d m =
      (next ⟨m.session.nextTag⟩).run d (m.withTags (m.session.nextTag + 1)) := rfl

/-- Asking for an instruction and going on. -/
theorem run_ask (d : Driver σ α) (i : Instruction (Value α)) (next : Value α → Dialogue α β)
    (m : Machine σ α) :
    (ask i next).run d m =
      match d i m with
      | .ok v m' => (next v).run d m'
      | .error e m' => .error e m' := by
  rw [run, Run.bind_apply]
  cases d i m <;> rfl

theorem run_ask_of_ok {d : Driver σ α} {i : Instruction (Value α)} {m m' : Machine σ α}
    {v : Value α} (h : d i m = .ok v m') (next : Value α → Dialogue α β) :
    (ask i next).run d m = (next v).run d m' := by
  rw [run_ask, h]

end Dialogue

/-! ## What is recorded -/

/-- An instruction over atoms has the atoms' values as operands. -/
theorem Instruction.toAtoms_eq_ok {i : Instruction (Value α)} {rhs : Instruction (Atom α)}
    (h : i.toAtoms = .ok rhs) : i = ⟨rhs.op, rhs.args.map Value.ofAtom⟩ := by
  obtain ⟨_, -, h⟩ := Check.bind_eq_ok.mp h
  obtain ⟨as, has, h⟩ := Check.bind_eq_ok.mp h
  cases h
  have hargs : i.args = as.map Value.ofAtom := by
    rw [← List.forall₂_eq_eq_eq, List.forall₂_map_right_iff]
    refine (Check.mapM_eq_ok.mp has).imp fun v a hva => ?_
    cases hv : v.atom? with
    | none => simp [hv] at hva
    | some b =>
      simp only [hv, Except.ok.injEq] at hva
      rw [← hva]
      exact Value.atom?_eq_some_iff.mp hv
  rw [← hargs]

/-- What a recording does for one instruction. -/
theorem Driver.recording_apply (i : Instruction (Value α)) (M : Machine (Recorder α) α) :
    Driver.recording i M =
      match i.toAtoms with
      | .ok rhs =>
        .ok (.reg (M.state.fresh .result))
          ⟨M.state.record rhs,
            M.session.report
              (.staged M.state.equations.size ⟨M.state.fresh .result, rhs⟩)⟩
      | .error e => .error e M := by
  unfold recording
  rw [Run.bind_apply]
  cases i.toAtoms <;> rfl

/-- A recording answers an instruction over atoms with the register of a new equation. -/
theorem Driver.recording_eq_ok {i : Instruction (Value α)} {M M' : Machine (Recorder α) α}
    {v : Value α} (h : Driver.recording i M = .ok v M') :
    ∃ rhs, i = ⟨rhs.op, rhs.args.map Value.ofAtom⟩ ∧ v = .reg (M.state.fresh .result) ∧
      M'.state.equations.toList =
        M.state.equations.toList ++ [⟨M.state.fresh .result, rhs⟩] ∧
      M'.session.nextTag = M.session.nextTag := by
  rw [recording_apply] at h
  cases hrhs : i.toAtoms with
  | error e => simp [hrhs] at h
  | ok rhs =>
    rw [hrhs] at h
    cases h
    exact ⟨rhs, Instruction.toAtoms_eq_ok hrhs, rfl, Array.toList_push, rfl⟩

/-- A recording only adds equations. -/
theorem Dialogue.recording_appends (x : Dialogue α β) {M M' : Machine (Recorder α) α} {b : β}
    (h : x.run Driver.recording M = .ok b M') :
    ∃ es, M'.state.equations.toList = M.state.equations.toList ++ es := by
  induction x generalizing M with
  | done c =>
    cases h
    exact ⟨[], (List.append_nil _).symm⟩
  | fail e => cases h
  | ask i next ih =>
    obtain ⟨v, M₁, hi, hnext⟩ := Run.bind_eq_ok.mp h
    obtain ⟨rhs, -, -, hM₁, -⟩ := Driver.recording_eq_ok hi
    obtain ⟨es, hes⟩ := ih v hnext
    exact ⟨⟨M.state.fresh .result, rhs⟩ :: es, by rw [hes, hM₁, List.append_assoc]; rfl⟩
  | mint next ih =>
    rw [run_mint] at h
    exact ih _ (M := M.withTags (M.session.nextTag + 1)) h

/-! ## What is exchanged -/

namespace Dialogue

/-- The instructions that a dialogue asks a driver for, with the answers that it gets. -/
def exchanges (d : Driver σ α) : Dialogue α β → Machine σ α → List (Observation α)
  | done _, _ => []
  | fail _, _ => []
  | ask i next, m =>
    match d i m with
    | .ok v m' => ⟨i, some v⟩ :: (next v).exchanges d m'
    | .error _ _ => [⟨i, none⟩]
  | mint next, m =>
    (next ⟨m.session.nextTag⟩).exchanges d (m.withTags (m.session.nextTag + 1))

theorem exchanges_ask_of_ok {d : Driver σ α} {i : Instruction (Value α)} {m m' : Machine σ α}
    {v : Value α} (h : d i m = .ok v m') (next : Value α → Dialogue α β) :
    (ask i next).exchanges d m = ⟨i, some v⟩ :: (next v).exchanges d m' := by
  rw [exchanges, h]

/-- A dialogue never gives a tag back. -/
theorem nextTag_le_final {d : Driver σ α} (hd : d.Tagless) (x : Dialogue α β)
    (m : Machine σ α) :
    m.session.nextTag ≤ (Run.final (x.run d) m).session.nextTag := by
  induction x generalizing m with
  | done b => exact Nat.le_refl _
  | fail e => exact Nat.le_refl _
  | ask i next ih =>
    unfold Run.final at ih ⊢
    rw [run_ask]
    cases hi : d i m with
    | ok v m' =>
      rw [← (hd i).nextTag_of_ok hi]
      exact ih v m'
    | error e m' => exact Nat.le_of_eq ((hd i).nextTag_of_error hi).symm
  | mint next ih => exact Nat.le_trans (Nat.le_succ _) (ih _ (m.withTags (m.session.nextTag + 1)))

end Dialogue

/-! ## Readings during a replay -/

/-- A value that no instance with a tag from `lo` to below `hi` owns. -/
def Value.Avoids (lo hi : Nat) (v : Value α) : Prop :=
  ∀ tag : Tag, lo ≤ tag.id → tag.id < hi → ¬ v.OwnedBy tag

/-- A sound reading between a run with `k` tags taken and one with tags taken from `lo` to below
`n`, in which registers stand for values that no tag from `lo` to below `hi` owns. -/
structure Reading.Current (lo hi k n : Nat) (ρ : Reading α) : Prop where
  sound : ρ.Sound
  tags : ∀ p ∈ ρ.tags, p.1.id < k ∧ lo ≤ p.2.id ∧ p.2.id < n
  values : ∀ r w, ρ.bindings.lookup r = some w → w.Avoids lo hi

namespace Reading

variable {ρ : Reading α} {lo hi k n : Nat}

/-- The reading in which one more register stands for a value. -/
def bind (ρ : Reading α) (r : Register) (w : Value α) : Reading α :=
  { ρ with bindings := (r, w) :: ρ.bindings }

/-- The reading in which two more tags belong together. -/
def pair (ρ : Reading α) (s t : Tag) : Reading α := { ρ with tags := (s, t) :: ρ.tags }

theorem lookup_bind (ρ : Reading α) (r s : Register) (w : Value α) :
    (ρ.bind r w).bindings.lookup s = if s = r then some w else ρ.bindings.lookup s := by
  show List.lookup s ((r, w) :: ρ.bindings) = _
  by_cases h : s = r
  · subst h
    rw [List.lookup_cons_self, if_pos rfl]
  · have hne : (s == r) = false := by simpa using h
    rw [List.lookup_cons, if_neg h, hne]

theorem le_bind {r : Register} (h : ρ.bindings.lookup r = none) (w : Value α) :
    ρ ≤ ρ.bind r w := by
  refine ⟨fun s v hs => ?_, fun _ hp => hp⟩
  rw [lookup_bind, if_neg, hs]
  rintro rfl
  rw [h] at hs
  cases hs

theorem le_pair (s t : Tag) : ρ ≤ ρ.pair s t :=
  ⟨fun _ _ h => h, fun _ hp => List.mem_cons_of_mem _ hp⟩

/-- A reading stays current when a register is bound to a foreign value. -/
theorem Current.bind (h : ρ.Current lo hi k n) (hn : n ≤ hi) (r : Register) {w : Value α}
    (hw : w.Avoids lo hi) : (ρ.bind r w).Current lo hi k n := by
  have hvalues : ∀ s v, (ρ.bind r w).bindings.lookup s = some v → v.Avoids lo hi := by
    intro s v hs
    rw [lookup_bind] at hs
    by_cases hsr : s = r
    · rw [if_pos hsr] at hs
      cases hs
      exact hw
    · rw [if_neg hsr] at hs
      exact h.values s v hs
  refine ⟨⟨h.sound.tags, ?_⟩, h.tags, hvalues⟩
  intro s v hs p hp
  have htag := h.tags p hp
  exact hvalues s v hs p.2 htag.2.1 (by omega)

/-- A reading stays current when both runs take a tag. -/
theorem Current.pair (h : ρ.Current lo hi k n) (hlo : lo ≤ n) (hn : n < hi) :
    (ρ.pair ⟨k⟩ ⟨n⟩).Current lo hi (k + 1) (n + 1) := by
  refine ⟨⟨?_, ?_⟩, ?_, h.values⟩
  · intro p hp q hq
    rcases List.mem_cons.mp hp with rfl | hp <;> rcases List.mem_cons.mp hq with rfl | hq
    · exact iff_of_true rfl rfl
    · have hold := h.tags q hq
      refine iff_of_false ?_ ?_
      · rintro hkq
        rw [← hkq] at hold
        exact absurd hold.1 (Nat.lt_irrefl _)
      · rintro hnq
        rw [← hnq] at hold
        exact absurd hold.2.2 (Nat.lt_irrefl _)
    · have hold := h.tags p hp
      refine iff_of_false ?_ ?_
      · rintro hpk
        rw [hpk] at hold
        exact absurd hold.1 (Nat.lt_irrefl _)
      · rintro hpn
        rw [hpn] at hold
        exact absurd hold.2.2 (Nat.lt_irrefl _)
    · exact h.sound.tags p hp q hq
  · intro r w hr p hp
    rcases List.mem_cons.mp hp with rfl | hp
    · exact h.values r w hr ⟨n⟩ hlo hn
    · exact h.sound.foreign r w hr p hp
  · intro p hp
    rcases List.mem_cons.mp hp with rfl | hp
    · exact ⟨Nat.lt_succ_self k, hlo, Nat.lt_succ_self n⟩
    · have hold := h.tags p hp
      exact ⟨by omega, hold.2.1, by omega⟩

end Reading

/-! ## Replaying what was recorded -/

/-- An atom has the value that its register stands for. -/
theorem Bindings.value_of_readsAs {ρ : Reading α} {a : Atom α} {w : Value α}
    (h : (Value.ofAtom a).ReadsAs ρ w) : ρ.bindings.value a = .ok w := by
  cases a with
  | lit x =>
    cases h
    rfl
  | reg r =>
    cases h with
    | reg hr => rw [Bindings.value, hr]

/-- Atoms have the values that their registers stand for. -/
theorem Bindings.mapM_value {ρ : Reading α} {as : List (Atom α)} {ws : List (Value α)}
    (h : List.Forall₂ (Value.ReadsAs ρ) (as.map Value.ofAtom) ws) :
    as.mapM ρ.bindings.value = .ok ws := by
  rw [Check.mapM_eq_ok]
  exact (List.forall₂_map_left_iff.mp h).imp fun _ _ => value_of_readsAs

/-- **Replaying the equations of one dialogue is the conversation of the other.**  Both end alike,
up to the tags that only the conversation takes, and a completed replay leaves bindings behind that
read the results as one another. -/
theorem Dialogue.ReadsAs.replay {Q : Reading α → β → γ → Prop} {ρ : Reading α}
    {x : Dialogue α β} {y : Dialogue α γ} (h : ReadsAs Q ρ x y) {d : Driver σ α}
    (hd : d.Tagless) {M M' : Machine (Recorder α) α} {b : β}
    (hrec : x.run Driver.recording M = .ok b M') {es : List (Equation α)}
    (hes : M'.state.equations.toList = M.state.equations.toList ++ es) {bound : List Register}
    (hord : Trace.Ordered bound es) (hbound : KeysIn bound ρ.bindings)
    {m : Machine σ α} {lo hi : Nat} (hlo : lo ≤ m.session.nextTag)
    (hhi : (Run.final (y.run d) m).session.nextTag ≤ hi)
    (hρ : ρ.Current lo hi M.session.nextTag m.session.nextTag)
    (hanswers : ∀ o ∈ y.exchanges d m, ∀ v, o.answer = some v → v.Avoids lo hi) (n : Nat) :
    (∃ c m' ρ', y.run d m = .ok c m' ∧ Q ρ' b c ∧
      Trace.replayEquations d ρ.bindings es (m.withTags n) =
        .ok ρ'.bindings (m'.withTags n)) ∨
    (∃ e m', y.run d m = .error e m' ∧
      Trace.replayEquations d ρ.bindings es (m.withTags n) = .error e (m'.withTags n)) := by
  induction h generalizing M m es bound with
  | done hQ =>
    cases hrec
    obtain rfl : es = [] := List.self_eq_append_right.mp hes
    exact Or.inl ⟨_, m, _, rfl, hQ, rfl⟩
  | fail e y => cases hrec
  | @ask ρ op vs ws f g hargs hnext ih =>
    obtain ⟨v, M₁, hi₁, hrest⟩ := Run.bind_eq_ok.mp hrec
    obtain ⟨rhs, hi, rfl, hM₁, htag₁⟩ := Driver.recording_eq_ok hi₁
    -- the recording adds one equation for the instruction, which is the next one to replay
    obtain ⟨es', hes'⟩ := recording_appends _ hrest
    obtain rfl : es = ⟨M.state.fresh .result, rhs⟩ :: es' := by
      rw [hes', hM₁, List.append_assoc] at hes
      exact (List.append_cancel_left hes).symm
    injection hi with hop hvs
    subst hop
    rw [hvs] at hargs
    rw [Trace.replayEquations_cons (Bindings.mapM_value hargs), hd _ n m, run_ask]
    -- the driver answers the recorded instruction and the one asked for alike
    cases hans : d ⟨rhs.op, ws⟩ m with
    | error e m' => exact Or.inr ⟨e, m', rfl, rfl⟩
    | ok w m' =>
      have hm' := (hd ⟨rhs.op, ws⟩).nextTag_of_ok hans
      have hfinal : (Run.final ((g w).run d) m').session.nextTag ≤ hi := by
        unfold Run.final at hhi ⊢
        rw [run_ask_of_ok hans] at hhi
        exact hhi
      rw [exchanges_ask_of_ok hans] at hanswers
      have hw : w.Avoids lo hi := hanswers _ List.mem_cons_self w rfl
      have hle : m.session.nextTag ≤ hi := by
        rw [← hm']
        exact Nat.le_trans (nextTag_le_final hd (g w) m') hfinal
      have hnew := hbound.lookup_eq_none hord.1.fresh
      have hcur := hρ.bind hle (M.state.fresh .result) hw
      have hreads : (Value.reg (M.state.fresh .result)).ReadsAs
          (ρ.bind (M.state.fresh .result) w) w := .reg (by rw [Reading.lookup_bind, if_pos rfl])
      exact ih _ (Reading.le_bind hnew w) hcur.sound _ w hreads hrest hes' hord.2
        (hbound.cons _ w) (hm' ▸ hlo) hfinal (by rw [htag₁, hm']; exact hcur)
        fun o ho => hanswers o (List.mem_cons_of_mem _ ho)
  | @mint ρ f g hnext ih =>
    -- both conversations take a tag here, of which the replay knows nothing
    rw [run_mint] at hrec
    rw [run_mint]
    have hhi' : (Run.final ((g ⟨m.session.nextTag⟩).run d)
        (m.withTags (m.session.nextTag + 1))).session.nextTag ≤ hi := hhi
    have hlt : m.session.nextTag + 1 ≤ hi :=
      Nat.le_trans (nextTag_le_final hd (g ⟨m.session.nextTag⟩)
        (m.withTags (m.session.nextTag + 1))) hhi'
    have hcur := hρ.pair hlo hlt
    exact ih _ (Reading.le_pair _ _) hcur.sound _ _ List.mem_cons_self
      (M := M.withTags (M.session.nextTag + 1)) hrec hes hord hbound
      (m := m.withTags (m.session.nextTag + 1)) (Nat.le_succ_of_le hlo) hhi' hcur hanswers

end DualTrace
