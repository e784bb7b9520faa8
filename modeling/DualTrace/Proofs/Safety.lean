/-
# Safe dialogues

The values around an instance of differentiation may hold dual numbers of the instances that enclose
it, which are older.  Its own it makes itself, from such values, and takes apart again before it
passes an instruction on.  So what it passes on is made of values from around it.

* `Value.Mentions` : an instance owns some dual number inside a value;
* `Level` : a class of values that mentions older instances only;
* `Over` : the values that an instance works on, when a class of values surrounds it;
* `Error.Regular` : a wrong count, or a broken rule of structure;
* `Dialogue.Safe` : a dialogue that asks for instructions on values of a class only, as long as the
  answers are in the class, and fails with regular errors only;
* `Driver.Serves` : a driver that answers instructions on values of a class with such values, and
  refuses them with regular errors only.

Direct evaluation serves the numbers, and a recording its own registers.  An instance of
differentiation turns a dialogue that is safe over a class into one that is safe for the class
(`Dialogue.Safe.forward`), and a driver that serves the class into one that serves what is over it
(`Driver.Serves.forward`).
-/
import DualTrace.Proofs.Check
import DualTrace.Proofs.Replay

namespace DualTrace

variable {σ α β γ : Type}

/-! ## Classes of values -/

/-- A dual number of the instance `tag` stands somewhere inside a value. -/
def Value.Mentions (tag : Tag) : Value α → Prop
  | .dual owner p d => owner = tag ∨ p.Mentions tag ∨ d.Mentions tag
  | _ => False

/-- A class of values that holds all numbers and mentions no instance from `n` on. -/
structure Level (V : Value α → Prop) (n : Nat) : Prop where
  num : ∀ x, V (.num x)
  older : ∀ v, V v → ∀ tag, v.Mentions tag → tag.id < n

/-- The values that the instance `tag` works on: those around it, and its own dual numbers of
them. -/
def Over (tag : Tag) (V : Value α → Prop) (v : Value α) : Prop :=
  V v ∨ ∃ p d, v = .dual tag p d ∧ V p ∧ V d

namespace Level

variable {V : Value α → Prop} {n : Nat} {tag : Tag} {v x : Value α}

/-- Around an instance there are no dual numbers of its own. -/
theorem not_ownedBy (hV : Level V n) (htag : n ≤ tag.id) (hv : V v) : ¬ v.OwnedBy tag := by
  intro howned
  obtain ⟨p, d, rfl⟩ := Value.ownedBy_iff_exists.mp howned
  exact absurd (hV.older _ hv tag (Or.inl rfl)) (Nat.not_lt.mpr htag)

/-- An instance mentions itself, and what is mentioned around it. -/
theorem extend (hV : Level V n) (htag : n ≤ tag.id) : Level (Over tag V) (tag.id + 1) where
  num x := Or.inl (hV.num x)
  older v hv own hown := by
    have haround : ∀ w, V w → w.Mentions own → own.id < tag.id + 1 := by
      intro w hw hmentions
      have hlt := hV.older w hw own hmentions
      omega
    rcases hv with hv | ⟨p, d, rfl, hp, hd⟩
    · exact haround v hv hown
    · rcases hown with rfl | hown | hown
      · exact Nat.lt_succ_self _
      · exact haround p hp hown
      · exact haround d hd hown

/-- Lifting makes a dual number of the instance from values around it. -/
theorem over_lift (hV : Level V n) (htag : n ≤ tag.id) (hv : Over tag V v) (hx : V x) :
    Over tag V (v.lift tag x) := by
  rcases hv with hv | ⟨p, d, rfl, hp, hd⟩
  · rw [Value.lift_of_not_ownedBy (hV.not_ownedBy htag hv)]
    exact Or.inr ⟨v, x, rfl, hv, hx⟩
  · rw [Value.lift_dual_self]
    exact Or.inr ⟨p, d, rfl, hp, hd⟩

/-- An instance is driven on liftings of the arguments along the seeds. -/
theorem over_zipWith (hV : Level V n) (htag : n ≤ tag.id) {args seeds : List (Value α)}
    (hargs : ∀ v ∈ args, V v) (hseeds : ∀ v ∈ seeds, V v) :
    ∀ v ∈ List.zipWith (Value.lift tag) args seeds, Over tag V v := by
  intro v hv
  rw [← List.map_uncurry_zip_eq_zipWith] at hv
  obtain ⟨⟨x, seed⟩, hmem, rfl⟩ := List.mem_map.mp hv
  exact hV.over_lift htag (Or.inl (hargs x (List.of_mem_zip hmem).1))
    (hseeds seed (List.of_mem_zip hmem).2)

/-- The primal of what an instance works on is a value from around it. -/
theorem primalFor (hV : Level V n) (htag : n ≤ tag.id) (hv : Over tag V v) :
    V (v.primalFor tag) := by
  rcases hv with hv | ⟨p, d, rfl, hp, -⟩
  · rw [Value.primalFor_of_not_ownedBy (hV.not_ownedBy htag hv)]
    exact hv
  · rw [Value.primalFor_dual_self]
    exact hp

/-- The tangent of what an instance works on is a value from around it. -/
theorem tangentFor [Scalar α] (hV : Level V n) (htag : n ≤ tag.id) (hv : Over tag V v) :
    V (v.tangentFor tag) := by
  rcases hv with hv | ⟨p, d, rfl, -, hd⟩
  · rw [Value.tangentFor_of_not_ownedBy (hV.not_ownedBy htag hv)]
    exact hV.num _
  · rw [Value.tangentFor_dual_self]
    exact hd

/-- The tangent with which a drive completes is a value from around it. -/
theorem of_tangentOf (hV : Level V n) (htag : n ≤ tag.id) (hv : Over tag V v)
    (h : v.tangentOf tag = .ok x) : V x := by
  rcases hv with hv | ⟨p, d, rfl, -, hd⟩
  · cases v with
    | num y => cases h
    | reg r => cases h
    | dual owner p d =>
      have hother : owner ≠ tag := hV.not_ownedBy htag hv
      rw [Value.tangentOf, if_neg hother] at h
      cases h
  · rw [Value.tangentOf, if_pos rfl] at h
    cases h
    exact hd

end Level

/-- A number. -/
def Value.IsNum : Value α → Prop
  | .num _ => True
  | _ => False

/-- A number, or a register of the space. -/
def Value.AtomOf (space : UInt32) : Value α → Prop
  | .num _ => True
  | .reg r => r.space = space
  | .dual .. => False

theorem Value.IsNum.exists_num {v : Value α} (h : v.IsNum) : ∃ x, v = .num x := by
  cases v with
  | num x => exact ⟨x, rfl⟩
  | reg r => exact h.elim
  | dual tag p d => exact h.elim

/-- Numbers mention no instance. -/
theorem Value.level_isNum : Level (Value.IsNum (α := α)) 0 where
  num _ := True.intro
  older v hv tag hown := by
    obtain ⟨x, rfl⟩ := hv.exists_num
    exact hown.elim

theorem Value.isNum_of_mem_map {xs : List α} : ∀ v ∈ xs.map Value.num, v.IsNum := by
  intro v hv
  obtain ⟨x, -, rfl⟩ := List.mem_map.mp hv
  exact True.intro

/-- Registers mention no instance. -/
theorem Value.level_atomOf (space : UInt32) : Level (Value.AtomOf (α := α) space) 0 where
  num _ := True.intro
  older v hv tag hown := by
    cases v with
    | num x => exact hown.elim
    | reg r => exact hown.elim
    | dual owner p d => exact hv.elim

/-! ## Regular errors -/

/-- An error about a wrong count or a broken rule of structure. -/
def Error.Regular (e : Error α) : Prop := e.kind = .arity ∨ e.kind = .invariant

namespace Instruction

/-- An operand count that is refused is wrong. -/
theorem regular_of_checkArity {i : Instruction β} {e : Error α} (h : i.checkArity = .error e) :
    e.Regular := by
  unfold checkArity Op.checkArity at h
  split at h
  · cases h
  · cases h
    exact Or.inl rfl

/-- Numbers are refused for their count only. -/
theorem regular_of_evaluate [Scalar α] {i : Instruction (Value α)} {e : Error α}
    (hargs : ∀ v ∈ i.args, v.IsNum) (h : i.evaluate = .error e) : e.Regular := by
  rcases Check.bind_eq_error.mp h with h | ⟨_, -, h⟩
  · exact regular_of_checkArity h
  rcases Check.bind_eq_error.mp h with h | ⟨xs, -, h⟩
  · obtain ⟨v, hv, h⟩ := Check.exists_of_mapM_eq_error h
    cases v with
    | num x => cases h
    | reg r => exact (hargs _ hv).elim
    | dual tag p d => exact (hargs _ hv).elim
  rcases Check.bind_eq_error.mp h with h | ⟨y, -, h⟩
  · unfold Op.eval at h
    split at h
    · cases h
    · cases h
      exact Or.inl rfl
  · cases h

/-- Atoms are refused for their count only. -/
theorem regular_of_toAtoms {i : Instruction (Value α)} {e : Error α} {space : UInt32}
    (hargs : ∀ v ∈ i.args, v.AtomOf space) (h : i.toAtoms = .error e) : e.Regular := by
  rcases Check.bind_eq_error.mp h with h | ⟨_, -, h⟩
  · exact regular_of_checkArity h
  rcases Check.bind_eq_error.mp h with h | ⟨as, -, h⟩
  · obtain ⟨v, hv, h⟩ := Check.exists_of_mapM_eq_error h
    cases v with
    | num x => cases h
    | reg r => cases h
    | dual tag p d => exact (hargs _ hv).elim
  · cases h

end Instruction

/-- A completion value without a tangent breaks a rule. -/
theorem Value.regular_of_tangentOf {tag : Tag} {v : Value α} {e : Error α}
    (h : v.tangentOf tag = .error e) : e.Regular := by
  cases v with
  | num x => cases h; exact Or.inr rfl
  | reg r => cases h; exact Or.inr rfl
  | dual owner p d =>
    rw [tangentOf] at h
    split at h
    · cases h
    · cases h
      exact Or.inr rfl

namespace Trace

theorem regular_of_checkParams {bound ps : List Register} {e : Error α}
    (h : checkParams bound ps = .error e) : e.Regular := by
  induction ps generalizing bound with
  | nil => cases h
  | cons p ps ih =>
    rw [checkParams] at h
    split at h
    · cases h
      exact Or.inr rfl
    · exact ih h

theorem regular_of_checkEquation {i : Nat} {bound : List Register} {eq : Equation α} {e : Error α}
    (h : checkEquation i bound eq = .error e) : e.Regular := by
  rcases Check.bind_eq_error.mp h with h | ⟨_, -, h⟩
  · exact Instruction.regular_of_checkArity h
  split at h
  · cases h
    exact Or.inr rfl
  · split at h
    · cases h
      exact Or.inr rfl
    · cases h

theorem regular_of_checkEquations {i : Nat} {bound : List Register} {es : List (Equation α)}
    {e : Error α} (h : checkEquations i bound es = .error e) : e.Regular := by
  induction es generalizing i bound with
  | nil => cases h
  | cons eq es ih =>
    rcases Check.bind_eq_error.mp h with h | ⟨_, -, h⟩
    · exact regular_of_checkEquation h
    · exact ih h

/-- A trace is refused for a wrong count or because it is not well formed. -/
theorem regular_of_checked {t : Trace α} {e : Error α} (h : t.checked = .error e) :
    e.Regular := by
  rcases Check.bind_eq_error.mp h with h | ⟨_, -, h⟩
  · rcases Check.bind_eq_error.mp h with h | ⟨params, -, h⟩
    · exact regular_of_checkParams h
    rcases Check.bind_eq_error.mp h with h | ⟨bound, -, h⟩
    · exact regular_of_checkEquations h
    · unfold checkReturn at h
      split at h
      · split at h
        · cases h
        · cases h
          exact Or.inr rfl
      · cases h
  · cases h

end Trace

/-! ## Dialogues -/

namespace Dialogue

/-- A dialogue that asks for instructions on values of the class `V` only, provided that the answers
are in the class and that the tags are new, their numbers being `n` or more.  What it ends with
satisfies `Q`, or is a regular error. -/
def Safe (V : Value α → Prop) (Q : β → Prop) : Dialogue α β → (n : Nat) → Prop
  | done b, _ => Q b
  | fail e, _ => e.Regular
  | ask i next, n => (∀ v ∈ i.args, V v) ∧ ∀ v, V v → (next v).Safe V Q n
  | mint next, n => ∀ tag : Tag, n ≤ tag.id → (next tag).Safe V Q (tag.id + 1)

namespace Safe

variable {V : Value α → Prop} {Q : β → Prop} {R : γ → Prop} {n k : Nat} {x : Dialogue α β}

/-- A dialogue may start later. -/
theorem mono {n' : Nat} (hn : n ≤ n') (h : x.Safe V Q n) : x.Safe V Q n' := by
  induction x generalizing n n' with
  | done b => exact h
  | fail e => exact h
  | ask i next ih => exact ⟨h.1, fun v hv => ih v hn (h.2 v hv)⟩
  | mint next ih => exact fun tag htag => h tag (Nat.le_trans hn htag)

/-- Dialogues that follow one another. -/
theorem bind {f : β → Dialogue α γ} (h : x.Safe V Q n)
    (hf : ∀ n', n ≤ n' → ∀ b, Q b → (f b).Safe V R n') : (x.bind f).Safe V R n := by
  induction x generalizing n with
  | done b => exact hf n (Nat.le_refl n) b h
  | fail e => exact h
  | ask i next ih => exact ⟨h.1, fun v hv => ih v (h.2 v hv) hf⟩
  | mint next ih =>
    intro tag htag
    refine ih tag (h tag htag) fun n' hn' => ?_
    exact hf n' (by omega)

/-- A check that fails with regular errors only. -/
theorem ofExcept {u : Except (Error α) β} (hok : ∀ b, u = .ok b → Q b)
    (herror : ∀ e, u = .error e → e.Regular) : (Dialogue.ofExcept u).Safe V Q n := by
  cases u with
  | ok b => exact hok b rfl
  | error e => exact herror e rfl

/-- A loop is safe when its turns are. -/
theorem iterate [NatCast α] (hV : Level V k) {c : List (Value α) → Dialogue α (Value α)}
    (hc : ∀ n', n ≤ n' → ∀ v w, V v → V w → (c [v, w]).Safe V V n') (count turn : Nat)
    {v : Value α} (hv : V v) : (Dialogue.iterate c count turn v).Safe V V n := by
  induction count generalizing n turn v with
  | zero => exact hv
  | succ count ih =>
    refine bind (hc n (Nat.le_refl n) v _ hv (hV.num _)) fun n' hn' w hw => ?_
    exact ih (fun n'' hn'' => hc n'' (Nat.le_trans hn' hn'')) (turn + 1) hw

variable [Scalar α] {tag : Tag}

/-- **An instance passes on values from around it only.**  What it answers is a value that it works
on. -/
theorem derive (hV : Level V k) (htag : k ≤ tag.id) {i : Instruction (Value α)}
    (hargs : ∀ v ∈ i.args, Over tag V v) : (Dialogue.derive tag i).Safe V (Over tag V) n := by
  have hprimal : ∀ v ∈ i.args, V (v.primalFor tag) := fun v hv => hV.primalFor htag (hargs v hv)
  have htangent : ∀ v ∈ i.args, V (v.tangentFor tag) := fun v hv => hV.tangentFor htag (hargs v hv)
  refine bind (ofExcept (Q := fun _ => True) (fun _ _ => True.intro)
    fun e => Instruction.regular_of_checkArity) fun n' _ _ _ => ?_
  -- every rule asks about primals, tangents and the answers to what it asked before
  split
  · rename_i x y _ hlist
    simp only [hlist, List.mem_cons, List.not_mem_nil, or_false, forall_eq_or_imp, forall_eq]
      at hprimal htangent
    refine ⟨by simp [hprimal], fun p hp => ⟨by simp [htangent], fun d hd => ?_⟩⟩
    exact Or.inr ⟨p, d, rfl, hp, hd⟩
  · rename_i x y _ hlist
    simp only [hlist, List.mem_cons, List.not_mem_nil, or_false, forall_eq_or_imp, forall_eq]
      at hprimal htangent
    refine ⟨by simp [hprimal], fun p hp => ⟨by simp [hprimal, htangent], fun l hl => ?_⟩⟩
    refine ⟨by simp [hprimal, htangent], fun r hr => ⟨by simp [hl, hr], fun d hd => ?_⟩⟩
    exact Or.inr ⟨p, d, rfl, hp, hd⟩
  · rename_i c x y _ hlist
    simp only [hlist, List.mem_cons, List.not_mem_nil, or_false, forall_eq_or_imp, forall_eq]
      at hprimal htangent
    refine ⟨by simp [hprimal], fun p hp => ⟨by simp [htangent], fun d hd => ?_⟩⟩
    exact Or.inr ⟨p, d, rfl, hp, hd⟩
  · rename_i x _ hlist
    exact hV.over_lift htag (hargs x (hlist ▸ List.mem_cons_self)) (hV.num _)
  · exact Or.inl rfl

/-- Behind an instance, a dialogue that is safe over a class is safe for the class. -/
theorem forward (hV : Level V k) (htag : k ≤ tag.id) (h : x.Safe (Over tag V) Q n) :
    (x.forward tag).Safe V Q n := by
  induction x generalizing n with
  | done b => exact h
  | fail e => exact h
  | ask i next ih =>
    refine bind (derive hV htag h.1) fun n' hn' v hv => ?_
    exact ih v ((h.2 v hv).mono hn')
  | mint next ih => exact fun new hnew => ih new (h new hnew)

end Safe

end Dialogue

/-! ## Drivers -/

/-- A driver that adds nothing to the record of observations. -/
def Driver.Silent (d : Driver σ α) : Prop :=
  ∀ i m, (Run.final (d i) m).session.observations = m.session.observations

/-- A driver that, in the states `S`, answers instructions on values of the class `V` with values of
the class and stays in these states, or refuses them with a regular error. -/
structure Driver.Serves (d : Driver σ α) (V : Value α → Prop) (S : σ → Prop) : Prop where
  tagless : d.Tagless
  silent : d.Silent
  answer : ∀ {i m v m'}, (∀ w ∈ i.args, V w) → S m.state → d i m = .ok v m' →
    V v ∧ S m'.state
  refusal : ∀ {i m e m'}, (∀ w ∈ i.args, V w) → S m.state → d i m = .error e m' → e.Regular

namespace Dialogue

variable {V : Value α → Prop} {S : σ → Prop} {d : Driver σ α} {Q : β → Prop} {n : Nat}
  {x : Dialogue α β} {m : Machine σ α}

/-- A conversation with a silent driver is not on record. -/
theorem observations_final (hd : d.Silent) (x : Dialogue α β) (m : Machine σ α) :
    (Run.final (x.run d) m).session.observations = m.session.observations := by
  induction x generalizing m with
  | done b => rfl
  | fail e => rfl
  | ask i next ih =>
    have hi := hd i m
    unfold Run.final at ih hi ⊢
    rw [run_ask]
    cases h : d i m with
    | ok v m' =>
      rw [h] at hi
      exact (ih v m').trans hi
    | error e m' =>
      rw [h] at hi
      exact hi
  | mint next ih => exact ih _ (m.withTags (m.session.nextTag + 1))

/-- How a safe dialogue ends when a driver serves it. -/
theorem Safe.run_ends (h : x.Safe V Q n) (hd : d.Serves V S) (hm : S m.state)
    (hn : n ≤ m.session.nextTag) :
    match x.run d m with
    | .ok b m' => Q b ∧ S m'.state
    | .error e _ => e.Regular := by
  induction x generalizing n m with
  | done b => exact ⟨h, hm⟩
  | fail e => exact h
  | ask i next ih =>
    rw [run_ask]
    cases hi : d i m with
    | ok v m' =>
      obtain ⟨hv, hm'⟩ := hd.answer h.1 hm hi
      refine ih v (h.2 v hv) hm' ?_
      rw [(hd.tagless i).nextTag_of_ok hi]
      exact hn
    | error e m' => exact hd.refusal h.1 hm hi
  | mint next ih => exact ih _ (h _ hn) hm (Nat.le_refl _)

/-- What a safe dialogue ends with, and the tags that are left. -/
theorem Safe.of_run_ok (h : x.Safe V Q n) (hd : d.Serves V S) (hm : S m.state)
    (hn : n ≤ m.session.nextTag) {b : β} {m' : Machine σ α} (hrun : x.run d m = .ok b m') :
    Q b ∧ S m'.state ∧ n ≤ m'.session.nextTag := by
  have hends := h.run_ends hd hm hn
  have hgrows := nextTag_le_final hd.tagless x m
  unfold Run.final at hgrows
  rw [hrun] at hends hgrows
  exact ⟨hends.1, hends.2, Nat.le_trans hn hgrows⟩

/-- A safe dialogue fails with regular errors only. -/
theorem Safe.of_run_error (h : x.Safe V Q n) (hd : d.Serves V S) (hm : S m.state)
    (hn : n ≤ m.session.nextTag) {e : Error α} {m' : Machine σ α}
    (hrun : x.run d m = .error e m') : e.Regular := by
  have hends := h.run_ends hd hm hn
  rw [hrun] at hends
  exact hends

/-- When a driver serves a safe dialogue, only instructions on values of the class go on record. -/
theorem Safe.run_observed (h : x.Safe V Q n) (hd : d.Serves V S) (hm : S m.state)
    (hn : n ≤ m.session.nextTag)
    (hrecord : ∀ o ∈ m.session.observations, ∀ v ∈ o.instruction.args, V v) :
    ∀ o ∈ (Run.final (x.run d.observed) m).session.observations,
      ∀ v ∈ o.instruction.args, V v := by
  induction x generalizing n m with
  | done b => exact hrecord
  | fail e => exact hrecord
  | ask i next ih =>
    have hi := hd.silent i m
    unfold Run.final at ih hi ⊢
    rw [run_ask, Driver.observed]
    cases hrun : d i m with
    | ok v m' =>
      rw [hrun] at hi
      obtain ⟨hv, hm'⟩ := hd.answer h.1 hm hrun
      refine ih v (h.2 v hv) (m := m'.mapSession (Session.observe ⟨i, some v⟩)) hm' ?_ ?_
      · exact Nat.le_trans hn (Nat.le_of_eq ((hd.tagless i).nextTag_of_ok hrun).symm)
      · exact List.forall_mem_cons.mpr ⟨h.1, hi ▸ hrecord⟩
    | error e m' =>
      rw [hrun] at hi
      exact List.forall_mem_cons.mpr ⟨h.1, hi ▸ hrecord⟩
  | mint next ih => exact ih _ (h _ hn) hm (Nat.le_refl _) hrecord

end Dialogue

namespace Driver

variable [Scalar α]

/-- **An instance serves the values over those that its next driver serves.** -/
theorem Serves.forward {d : Driver σ α} {V : Value α → Prop} {S : σ → Prop} (hd : d.Serves V S)
    {n : Nat} (hV : Level V n) {tag : Tag} (htag : n ≤ tag.id) :
    (d.forward tag).Serves (Over tag V) S where
  tagless := hd.tagless.forward tag
  silent i m := by
    rw [← Dialogue.run_derive]
    exact Dialogue.observations_final hd.silent _ m
  answer {i m v m'} hargs hm hrun := by
    have hends := (Dialogue.Safe.derive hV htag hargs).run_ends hd hm (Nat.le_refl _)
    rw [Dialogue.run_derive, hrun] at hends
    exact hends
  refusal {i m e m'} hargs hm hrun := by
    have hends := (Dialogue.Safe.derive hV htag hargs).run_ends hd hm (Nat.le_refl _)
    rw [Dialogue.run_derive, hrun] at hends
    exact hends

/-- Direct evaluation serves numbers. -/
theorem serves_direct : (direct : Driver σ α).Serves Value.IsNum (fun _ => True) where
  tagless := tagless_direct
  silent i m := by
    unfold direct ofAnswer
    rw [Run.final_ofExcept]
  answer {i m v m'} _ _ hrun :=
    ⟨direct_gives (P := Value.IsNum) (fun _ => True.intro) i m v m' hrun, True.intro⟩
  refusal hargs _ hrun := Instruction.regular_of_evaluate hargs (Run.ofExcept_eq_error hrun)

omit [Scalar α] in
/-- A recording serves its own registers. -/
theorem serves_recording (space : UInt32) :
    (recording : Driver (Recorder α) α).Serves (Value.AtomOf space) (·.space = space) where
  tagless := tagless_recording
  silent i m := by
    unfold Run.final
    rw [recording_apply]
    cases i.toAtoms <;> rfl
  answer {i m v m'} _ hm hrun := by
    rw [recording_apply] at hrun
    cases hrhs : i.toAtoms with
    | error e => simp [hrhs] at hrun
    | ok rhs =>
      rw [hrhs] at hrun
      cases hrun
      exact ⟨hm, hm⟩
  refusal {i m e m'} hargs _ hrun := by
    rw [recording_apply] at hrun
    cases hrhs : i.toAtoms with
    | ok rhs => simp [hrhs] at hrun
    | error e' =>
      rw [hrhs] at hrun
      cases hrun
      exact Instruction.regular_of_toAtoms hargs hrhs

end Driver

end DualTrace
