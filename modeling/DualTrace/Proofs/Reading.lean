/-
# Reading a symbolic run

A program that is driven on registers goes through the same steps as the program driven on values:
wherever the first run holds a register, the second holds what the register stands for.  This file
makes the comparison precise for two runs that may also have taken different tags.

* `Reading` : what registers stand for, and which tags of the two runs belong together;
* `Value.ReadsAs` : a value of the first run read as one of the second;
* `Dialogue.ReadsAs` : a dialogue read as another, instruction by instruction.

The main statement is `Program.dialogue_readsAs`: the dialogue of a closed program on some arguments
reads as its dialogue on the values that these arguments stand for.  A dialogue that fails reads as
any other, because nothing is asked about recordings that fail.
-/
import DualTrace.Proofs.Dialogue
import Mathlib.Data.List.Forall2

namespace DualTrace

variable {α β γ δ ε : Type}

/-! ## Readings -/

/-- What the registers of a symbolic run stand for, and the pairs of tags that belong together, the
tag of the symbolic run first. -/
structure Reading (α : Type) where
  bindings : Bindings α
  tags : List (Tag × Tag)

namespace Reading

/-- A reading that says at least as much. -/
instance : LE (Reading α) where
  le ρ ρ' :=
    (∀ r w, ρ.bindings.lookup r = some w → ρ'.bindings.lookup r = some w) ∧ ρ.tags ⊆ ρ'.tags

theorem le_refl (ρ : Reading α) : ρ ≤ ρ := ⟨fun _ _ h => h, fun _ h => h⟩

theorem le_trans {ρ₁ ρ₂ ρ₃ : Reading α} (h : ρ₁ ≤ ρ₂) (h' : ρ₂ ≤ ρ₃) : ρ₁ ≤ ρ₃ :=
  ⟨fun r w hr => h'.1 r w (h.1 r w hr), fun _ ht => h'.2 (h.2 ht)⟩

end Reading

/-- A dual number of the instance `tag`. -/
def Value.OwnedBy (tag : Tag) : Value α → Prop
  | .dual owner _ _ => owner = tag
  | _ => False

/-- A reading in which the tags belong together one to one, and registers stand for values that no
paired instance owns. -/
structure Reading.Sound (ρ : Reading α) : Prop where
  tags : ∀ x ∈ ρ.tags, ∀ y ∈ ρ.tags, x.1 = y.1 ↔ x.2 = y.2
  foreign : ∀ r w, ρ.bindings.lookup r = some w → ∀ x ∈ ρ.tags, ¬ w.OwnedBy x.2

/-! ## Values -/

/-- A value of the symbolic run, read as one of the other run. -/
inductive Value.ReadsAs (ρ : Reading α) : Value α → Value α → Prop
  | num (x : α) : ReadsAs ρ (.num x) (.num x)
  | reg {r : Register} {w : Value α} (h : ρ.bindings.lookup r = some w) : ReadsAs ρ (.reg r) w
  | dual {s t : Tag} {p q d e : Value α} (ht : (s, t) ∈ ρ.tags) (hp : ReadsAs ρ p q)
      (hd : ReadsAs ρ d e) : ReadsAs ρ (.dual s p d) (.dual t q e)

namespace Value.ReadsAs

variable {ρ ρ' : Reading α} {v w x y : Value α} {s t : Tag}

/-- A value reads the same when the reading says more. -/
theorem mono (hle : ρ ≤ ρ') (h : v.ReadsAs ρ w) : v.ReadsAs ρ' w := by
  induction h with
  | num x => exact .num x
  | reg h => exact .reg (hle.1 _ _ h)
  | dual ht _ _ ihp ihd => exact .dual (hle.2 ht) ihp ihd

/-- Of two values that read as one another, both or none are owned by paired instances. -/
theorem ownedBy_iff (hρ : ρ.Sound) (ht : (s, t) ∈ ρ.tags) (h : v.ReadsAs ρ w) :
    v.OwnedBy s ↔ w.OwnedBy t := by
  cases h with
  | num x => exact Iff.rfl
  | reg h => exact ⟨False.elim, fun hw => hρ.foreign _ _ h _ ht hw⟩
  | dual ht' _ _ => exact hρ.tags _ ht' _ ht

end Value.ReadsAs

/-! ## Values as an instance sees them -/

namespace Value

/-- A dual number of the instance shows its parts; the lifting leaves it alone. -/
theorem ownedBy_iff_exists {tag : Tag} {v : Value α} :
    v.OwnedBy tag ↔ ∃ p d, v = .dual tag p d := by
  cases v with
  | num x => simp [OwnedBy]
  | reg r => simp [OwnedBy]
  | dual owner p d =>
    constructor
    · rintro (rfl : owner = tag)
      exact ⟨p, d, rfl⟩
    · rintro ⟨p', d', h⟩
      injection h

theorem lift_of_not_ownedBy {tag : Tag} {v : Value α} (h : ¬ v.OwnedBy tag) (x : Value α) :
    v.lift tag x = .dual tag v x := by
  cases v with
  | num _ => rfl
  | reg _ => rfl
  | dual owner p d => exact if_neg h

theorem primalFor_of_not_ownedBy {tag : Tag} {v : Value α} (h : ¬ v.OwnedBy tag) :
    v.primalFor tag = v := by
  cases v with
  | num _ => rfl
  | reg _ => rfl
  | dual owner p d => exact if_neg h

theorem tangentFor_of_not_ownedBy [Scalar α] {tag : Tag} {v : Value α} (h : ¬ v.OwnedBy tag) :
    v.tangentFor tag = .num Scalar.zero := by
  cases v with
  | num _ => rfl
  | reg _ => rfl
  | dual owner p d => exact if_neg h

@[simp] theorem lift_dual_self (tag : Tag) (p d x : Value α) :
    (Value.dual tag p d).lift tag x = .dual tag p d := if_pos rfl

@[simp] theorem primalFor_dual_self (tag : Tag) (p d : Value α) :
    (Value.dual tag p d).primalFor tag = p := if_pos rfl

@[simp] theorem tangentFor_dual_self [Scalar α] (tag : Tag) (p d : Value α) :
    (Value.dual tag p d).tangentFor tag = d := if_pos rfl

/-- A value that is lifted is owned by the instance. -/
theorem ownedBy_lift (tag : Tag) (v x : Value α) : (v.lift tag x).OwnedBy tag := by
  by_cases h : v.OwnedBy tag
  · obtain ⟨p, d, rfl⟩ := ownedBy_iff_exists.mp h
    rw [lift_dual_self]
    exact h
  · rw [lift_of_not_ownedBy h]
    rfl

end Value

/-- An instance of differentiation answers with its own dual numbers. -/
theorem Driver.forward_gives {σ : Type} [Scalar α] (d : Driver σ α) (tag : Tag)
    (i : Instruction (Value α)) : Run.Gives (Value.OwnedBy tag) (Driver.forward tag d i) := by
  unfold forward
  refine .bind (.trivial _) fun _ _ => ?_
  split
  · exact .bind (.trivial _) fun _ _ => .bind (.trivial _) fun _ _ => .pure rfl
  · exact .bind (.trivial _) fun _ _ => .bind (.trivial _) fun _ _ => .bind (.trivial _) fun _ _ =>
      .bind (.trivial _) fun _ _ => .pure rfl
  · exact .bind (.trivial _) fun _ _ => .bind (.trivial _) fun _ _ => .pure rfl
  · exact .pure (Value.ownedBy_lift _ _ _)
  · exact .throw _

namespace Value.ReadsAs

variable {ρ : Reading α} {v w x y : Value α} {s t : Tag}

/-- A dual number of a paired instance reads as one of the other instance, part by part. -/
theorem parts (hρ : ρ.Sound) (ht : (s, t) ∈ ρ.tags) {p d : Value α}
    (h : (Value.dual s p d).ReadsAs ρ w) :
    ∃ q e, w = .dual t q e ∧ p.ReadsAs ρ q ∧ d.ReadsAs ρ e := by
  cases h with
  | @dual _ t' _ q _ e ht' hp hd =>
    obtain rfl : t' = t := (hρ.tags _ ht' _ ht).mp rfl
    exact ⟨q, e, rfl, hp, hd⟩

theorem lift (hρ : ρ.Sound) (ht : (s, t) ∈ ρ.tags) (h : v.ReadsAs ρ w) (hx : x.ReadsAs ρ y) :
    (v.lift s x).ReadsAs ρ (w.lift t y) := by
  by_cases hv : v.OwnedBy s
  · obtain ⟨p, d, rfl⟩ := ownedBy_iff_exists.mp hv
    obtain ⟨q, e, rfl, -, -⟩ := h.parts hρ ht
    rw [lift_dual_self, lift_dual_self]
    exact h
  · rw [lift_of_not_ownedBy hv, lift_of_not_ownedBy (mt (h.ownedBy_iff hρ ht).mpr hv)]
    exact .dual ht h hx

theorem primalFor (hρ : ρ.Sound) (ht : (s, t) ∈ ρ.tags) (h : v.ReadsAs ρ w) :
    (v.primalFor s).ReadsAs ρ (w.primalFor t) := by
  by_cases hv : v.OwnedBy s
  · obtain ⟨p, d, rfl⟩ := ownedBy_iff_exists.mp hv
    obtain ⟨q, e, rfl, hp, -⟩ := h.parts hρ ht
    rw [primalFor_dual_self, primalFor_dual_self]
    exact hp
  · rw [primalFor_of_not_ownedBy hv,
      primalFor_of_not_ownedBy (mt (h.ownedBy_iff hρ ht).mpr hv)]
    exact h

theorem tangentFor [Scalar α] (hρ : ρ.Sound) (ht : (s, t) ∈ ρ.tags) (h : v.ReadsAs ρ w) :
    (v.tangentFor s).ReadsAs ρ (w.tangentFor t) := by
  by_cases hv : v.OwnedBy s
  · obtain ⟨p, d, rfl⟩ := ownedBy_iff_exists.mp hv
    obtain ⟨q, e, rfl, -, hd⟩ := h.parts hρ ht
    rw [tangentFor_dual_self, tangentFor_dual_self]
    exact hd
  · rw [tangentFor_of_not_ownedBy hv,
      tangentFor_of_not_ownedBy (mt (h.ownedBy_iff hρ ht).mpr hv)]
    exact .num _

/-- The tangent with which a drive completes. -/
theorem tangentOf (hρ : ρ.Sound) (ht : (s, t) ∈ ρ.tags) (h : v.ReadsAs ρ w) {d : Value α}
    (hd : v.tangentOf s = .ok d) : ∃ e, w.tangentOf t = .ok e ∧ d.ReadsAs ρ e := by
  cases v with
  | num x => simp [Value.tangentOf] at hd
  | reg r => simp [Value.tangentOf] at hd
  | dual owner p d' =>
    rw [Value.tangentOf] at hd
    by_cases ho : owner = s
    · subst ho
      rw [if_pos rfl] at hd
      cases hd
      obtain ⟨q, e, rfl, -, he⟩ := h.parts hρ ht
      exact ⟨e, if_pos rfl, he⟩
    · rw [if_neg ho] at hd
      cases hd

/-- Arguments lifted along seeds. -/
theorem zipWith_lift (hρ : ρ.Sound) (ht : (s, t) ∈ ρ.tags) {vs ws xs ys : List (Value α)}
    (h : List.Forall₂ (Value.ReadsAs ρ) vs ws) (hx : List.Forall₂ (Value.ReadsAs ρ) xs ys) :
    List.Forall₂ (Value.ReadsAs ρ) (List.zipWith (Value.lift s) vs xs)
      (List.zipWith (Value.lift t) ws ys) := by
  induction h generalizing xs ys with
  | nil => exact .nil
  | cons hvw _ ih =>
    cases hx with
    | nil => exact .nil
    | cons hxy hrest => exact .cons (hvw.lift hρ ht hxy) (ih hrest)

end Value.ReadsAs

/-! ## Dialogues -/

namespace Dialogue

/-- A dialogue read as another: they ask for the same instructions, as far as the reading goes, and
end with results related by `Q`.  After an answer the reading may say more. -/
inductive ReadsAs (Q : Reading α → β → γ → Prop) :
    Reading α → Dialogue α β → Dialogue α γ → Prop
  | done {ρ : Reading α} {b : β} {c : γ} (h : Q ρ b c) : ReadsAs Q ρ (.done b) (.done c)
  | fail {ρ : Reading α} (e : Error α) (y : Dialogue α γ) : ReadsAs Q ρ (.fail e) y
  | ask {ρ : Reading α} {op : Op} {vs ws : List (Value α)} {f : Value α → Dialogue α β}
      {g : Value α → Dialogue α γ} (hargs : List.Forall₂ (Value.ReadsAs ρ) vs ws)
      (hnext : ∀ ρ', ρ ≤ ρ' → ρ'.Sound → ∀ v w, v.ReadsAs ρ' w → ReadsAs Q ρ' (f v) (g w)) :
      ReadsAs Q ρ (.ask ⟨op, vs⟩ f) (.ask ⟨op, ws⟩ g)
  | mint {ρ : Reading α} {f : Tag → Dialogue α β} {g : Tag → Dialogue α γ}
      (hnext : ∀ ρ', ρ ≤ ρ' → ρ'.Sound → ∀ s t, (s, t) ∈ ρ'.tags → ReadsAs Q ρ' (f s) (g t)) :
      ReadsAs Q ρ (.mint f) (.mint g)

namespace ReadsAs

variable {Q : Reading α → β → γ → Prop} {R : Reading α → δ → ε → Prop} {ρ : Reading α}
  {x : Dialogue α β} {y : Dialogue α γ}

/-- Dialogues that follow one another. -/
theorem bind {f : β → Dialogue α δ} {g : γ → Dialogue α ε} (hρ : ρ.Sound)
    (h : ReadsAs Q ρ x y)
    (hf : ∀ ρ', ρ ≤ ρ' → ρ'.Sound → ∀ b c, Q ρ' b c → ReadsAs R ρ' (f b) (g c)) :
    ReadsAs R ρ (x.bind f) (y.bind g) := by
  induction h with
  | done h => exact hf _ (Reading.le_refl _) hρ _ _ h
  | fail e y => exact .fail e _
  | ask hargs _ ih =>
    refine .ask hargs fun ρ' hle hρ' v w hvw => ?_
    exact ih ρ' hle hρ' v w hvw hρ' fun ρ'' hle' => hf ρ'' (Reading.le_trans hle hle')
  | mint _ ih =>
    refine .mint fun ρ' hle hρ' s t hst => ?_
    exact ih ρ' hle hρ' s t hst hρ' fun ρ'' hle' => hf ρ'' (Reading.le_trans hle hle')

/-- A check whose success carries over. -/
theorem ofExcept {u : Except (Error α) β} {v : Except (Error α) γ}
    (h : ∀ b, u = .ok b → ∃ c, v = .ok c ∧ Q ρ b c) :
    ReadsAs Q ρ (Dialogue.ofExcept u) (Dialogue.ofExcept v) := by
  cases u with
  | error e => exact .fail e _
  | ok b =>
    obtain ⟨c, rfl, hQ⟩ := h b rfl
    exact .done hQ

variable [Scalar α] {s t : Tag}

/-- The rules of differentiation ask for the same, for paired instances. -/
theorem derive (hρ : ρ.Sound) (ht : (s, t) ∈ ρ.tags) {op : Op} {vs ws : List (Value α)}
    (hargs : List.Forall₂ (Value.ReadsAs ρ) vs ws) :
    ReadsAs Value.ReadsAs ρ (Dialogue.derive s ⟨op, vs⟩) (Dialogue.derive t ⟨op, ws⟩) := by
  have hlen : vs.length = ws.length := hargs.length_eq
  refine bind hρ (Q := fun _ _ _ => True) (ofExcept ?_) fun ρ₁ hle₁ hρ₁ _ _ _ => ?_
  · intro b hb
    refine ⟨b, ?_, trivial⟩
    rw [← hb, Instruction.checkArity, Instruction.checkArity, hlen]
  -- from here on the instances are paired in every later reading, and so are the operands
  have up {ρ' : Reading α} {v w : Value α} (h : ρ ≤ ρ') (hvw : v.ReadsAs ρ w) :
      v.ReadsAs ρ' w := hvw.mono h
  rcases hargs with _ | ⟨hx, _ | ⟨hy, _ | ⟨hz, _ | ⟨_, _⟩⟩⟩⟩ <;> cases op <;>
    try exact .fail _ _
  case cons.nil.id =>
    exact .done ((up hle₁ hx).lift hρ₁ (hle₁.2 ht) (.num _))
  case cons.cons.nil.add =>
    refine .ask (.cons (up hle₁ (hx.primalFor hρ ht)) (.cons (up hle₁ (hy.primalFor hρ ht)) .nil))
      fun ρ₂ hle₂ _ p q hp => ?_
    have h₂ := Reading.le_trans hle₁ hle₂
    refine .ask (.cons (up h₂ (hx.tangentFor hρ ht)) (.cons (up h₂ (hy.tangentFor hρ ht)) .nil))
      fun ρ₃ hle₃ _ d e hd => ?_
    exact .done (.dual ((Reading.le_trans h₂ hle₃).2 ht) (hp.mono hle₃) hd)
  case cons.cons.nil.mul =>
    refine .ask (.cons (up hle₁ (hx.primalFor hρ ht)) (.cons (up hle₁ (hy.primalFor hρ ht)) .nil))
      fun ρ₂ hle₂ _ p q hp => ?_
    have h₂ := Reading.le_trans hle₁ hle₂
    refine .ask (.cons (up h₂ (hx.primalFor hρ ht)) (.cons (up h₂ (hy.tangentFor hρ ht)) .nil))
      fun ρ₃ hle₃ _ l l' hl => ?_
    have h₃ := Reading.le_trans h₂ hle₃
    refine .ask (.cons (up h₃ (hy.primalFor hρ ht)) (.cons (up h₃ (hx.tangentFor hρ ht)) .nil))
      fun ρ₄ hle₄ _ k k' hk => ?_
    refine .ask (.cons (hl.mono hle₄) (.cons hk .nil)) fun ρ₅ hle₅ _ d e hd => ?_
    have h₃₅ := Reading.le_trans hle₄ hle₅
    exact .done (.dual ((Reading.le_trans h₃ h₃₅).2 ht)
      (hp.mono (Reading.le_trans hle₃ h₃₅)) hd)
  case cons.cons.cons.nil.iif =>
    refine .ask (.cons (up hle₁ (hx.primalFor hρ ht)) (.cons (up hle₁ (hy.primalFor hρ ht))
      (.cons (up hle₁ (hz.primalFor hρ ht)) .nil))) fun ρ₂ hle₂ _ p q hp => ?_
    have h₂ := Reading.le_trans hle₁ hle₂
    refine .ask (.cons (up h₂ (hx.tangentFor hρ ht)) (.cons (up h₂ (hy.tangentFor hρ ht))
      (.cons (up h₂ (hz.tangentFor hρ ht)) .nil))) fun ρ₃ hle₃ _ d e hd => ?_
    exact .done (.dual ((Reading.le_trans h₂ hle₃).2 ht) (hp.mono hle₃) hd)

/-- Dialogues behind paired instances of differentiation. -/
theorem forward (hρ : ρ.Sound) (ht : (s, t) ∈ ρ.tags) (h : ReadsAs Q ρ x y) :
    ReadsAs Q ρ (x.forward s) (y.forward t) := by
  induction h with
  | done h => exact .done h
  | fail e y => exact .fail e _
  | ask hargs _ ih =>
    refine bind hρ (derive hρ ht hargs) fun ρ' hle hρ' v w hvw => ?_
    exact ih ρ' hle hρ' v w hvw hρ' (hle.2 ht)
  | mint _ ih =>
    refine .mint fun ρ' hle hρ' s' t' hst => ?_
    exact ih ρ' hle hρ' s' t' hst hρ' (hle.2 ht)

/-- Loops whose turns read as one another. -/
theorem iterate {b c : List (Value α) → Dialogue α (Value α)} (hρ : ρ.Sound)
    (hbody : ∀ ρ', ρ ≤ ρ' → ρ'.Sound → ∀ vs ws, List.Forall₂ (Value.ReadsAs ρ') vs ws →
      ReadsAs Value.ReadsAs ρ' (b vs) (c ws)) (count turn : Nat) {v w : Value α}
    (h : v.ReadsAs ρ w) :
    ReadsAs Value.ReadsAs ρ (Dialogue.iterate b count turn v)
      (Dialogue.iterate c count turn w) := by
  induction count generalizing ρ turn v w with
  | zero => exact .done h
  | succ count ih =>
    refine bind hρ (hbody ρ (Reading.le_refl ρ) hρ _ _ (.cons h (.cons (.num _) .nil))) ?_
    intro ρ' hle hρ' v' w' hvw
    exact ih hρ' (fun ρ'' hle' => hbody ρ'' (Reading.le_trans hle hle')) (turn + 1) hvw

end ReadsAs

end Dialogue

/-! ## Frames -/

/-- A frame read as another, value by value. -/
structure Frame.ReadsAs (ρ : Reading α) (f g : Frame α) : Prop where
  args : List.Forall₂ (Value.ReadsAs ρ) f.args g.args
  results : List.Forall₂ (Value.ReadsAs ρ) f.results g.results

/-- Frames read as others, one by one. -/
abbrev Frames.ReadsAs (ρ : Reading α) : Frames α → Frames α → Prop :=
  List.Forall₂ (Frame.ReadsAs ρ)

namespace Frame.ReadsAs

variable {ρ ρ' : Reading α} {f g : Frame α}

theorem mono (hle : ρ ≤ ρ') (h : f.ReadsAs ρ g) : f.ReadsAs ρ' g where
  args := h.args.imp fun _ _ => Value.ReadsAs.mono hle
  results := h.results.imp fun _ _ => Value.ReadsAs.mono hle

theorem push (h : f.ReadsAs ρ g) {v w : Value α} (hvw : v.ReadsAs ρ w) :
    (f.push v).ReadsAs ρ (g.push w) where
  args := h.args
  results := List.rel_append h.results (.cons hvw .nil)

end Frame.ReadsAs

section Operands

variable {ρ : Reading α} {env env' : Frames α}

theorem Frames.ReadsAs.mono {ρ' : Reading α} (hle : ρ ≤ ρ') (h : Frames.ReadsAs ρ env env') :
    Frames.ReadsAs ρ' env env' :=
  h.imp fun _ _ => Frame.ReadsAs.mono hle

/-- What a list holds at a position, its counterpart holds there too. -/
theorem readsAs_getElem? {β γ : Type} {P : β → γ → Prop} {xs : List β} {ys : List γ}
    (h : List.Forall₂ P xs ys) {i : Nat} {x : β} (hx : xs[i]? = some x) :
    ∃ y, ys[i]? = some y ∧ P x y := by
  induction h generalizing i with
  | nil => simp at hx
  | cons hab _ ih =>
    cases i with
    | zero =>
      rw [List.getElem?_cons_zero] at hx ⊢
      cases hx
      exact ⟨_, rfl, hab⟩
    | succ i =>
      rw [List.getElem?_cons_succ] at hx ⊢
      exact ih hx

/-- An operand has a value in frames, and its counterpart in theirs. -/
theorem Operand.lookup_readsAs (h : Frames.ReadsAs ρ env env') {o : Operand α} {v : Value α}
    (hv : o.lookup env = .ok v) : ∃ w, o.lookup env' = .ok w ∧ v.ReadsAs ρ w := by
  cases o with
  | num x =>
    cases hv
    exact ⟨.num x, rfl, .num x⟩
  | arg up index =>
    obtain ⟨f, hf, hv⟩ := Option.bind_eq_some_iff.mp (found_eq_ok.mp hv)
    obtain ⟨g, hg, hfg⟩ := readsAs_getElem? h hf
    obtain ⟨w, hw, hvw⟩ := readsAs_getElem? hfg.args hv
    exact ⟨w, by rw [lookup, hg, Option.bind_some, hw]; rfl, hvw⟩
  | result up index =>
    obtain ⟨f, hf, hv⟩ := Option.bind_eq_some_iff.mp (found_eq_ok.mp hv)
    obtain ⟨g, hg, hfg⟩ := readsAs_getElem? h hf
    obtain ⟨w, hw, hvw⟩ := readsAs_getElem? hfg.results hv
    exact ⟨w, by rw [lookup, hg, Option.bind_some, hw]; rfl, hvw⟩
  | _ => cases hv

/-- Operands have values in frames, and their counterparts in theirs. -/
theorem Operand.lookupAll_readsAs (h : Frames.ReadsAs ρ env env') {os : List (Operand α)}
    {vs : List (Value α)} (hvs : lookupAll env os = .ok vs) :
    ∃ ws, lookupAll env' os = .ok ws ∧ List.Forall₂ (Value.ReadsAs ρ) vs ws := by
  simp only [lookupAll_eq_ok] at hvs ⊢
  induction hvs with
  | nil => exact ⟨[], .nil, .nil⟩
  | cons hov _ ih =>
    obtain ⟨w, hw, hvw⟩ := lookup_readsAs h hov
    obtain ⟨ws, hws, hrest⟩ := ih
    exact ⟨w :: ws, .cons hw hws, .cons hvw hrest⟩

end Operands

/-! ## Closed programs -/

variable [Scalar α]

mutual

/-- **The dialogue of a program reads as its dialogue on what its arguments stand for.** -/
theorem Program.dialogue_readsAs {ρ : Reading α} (hρ : ρ.Sound) {env env' : Frames α}
    (henv : Frames.ReadsAs ρ env env') {args args' : List (Value α)}
    (hargs : List.Forall₂ (Value.ReadsAs ρ) args args') :
    ∀ p : Program α,
      Dialogue.ReadsAs Value.ReadsAs ρ (p.dialogue env args) (p.dialogue env' args')
  | .block body ret => by
    rw [Program.dialogue, Program.dialogue]
    refine .bind hρ (Block.dialogue_readsAs hρ henv ⟨hargs, .nil⟩ body) ?_
    intro ρ' hle hρ' frame frame' hframe
    exact .ofExcept fun v hv => Operand.lookup_readsAs (.cons hframe (henv.mono hle)) hv
  | .jvp body seeds => by
    rw [Program.dialogue, Program.dialogue]
    refine .bind hρ (Q := fun ρ => List.Forall₂ (Value.ReadsAs ρ))
      (.ofExcept fun vs hvs => Operand.lookupAll_readsAs henv hvs) ?_
    intro ρ' hle hρ' vs ws hvw
    rw [hargs.length_eq, hvw.length_eq]
    by_cases hlen : args'.length = ws.length
    · rw [if_pos hlen, if_pos hlen]
      refine .mint fun ρ'' hle' hρ'' s t hst => ?_
      have hle'' := Reading.le_trans hle hle'
      have hlifted : List.Forall₂ (Value.ReadsAs ρ'') (List.zipWith (Value.lift s) args vs)
          (List.zipWith (Value.lift t) args' ws) :=
        Value.ReadsAs.zipWith_lift hρ'' hst (hargs.imp fun _ _ => Value.ReadsAs.mono hle'')
          (hvw.imp fun _ _ => Value.ReadsAs.mono hle')
      refine .bind hρ'' (.forward hρ'' hst
        (Program.dialogue_readsAs hρ'' (henv.mono hle'') hlifted body)) ?_
      intro ρ₃ hle₃ hρ₃ v w hvw'
      exact .ofExcept fun d hd => hvw'.tangentOf hρ₃ (hle₃.2 hst) hd
    · rw [if_neg hlen]
      exact .fail _ _
  | .trace _ => .fail _ _
  | .bound _ _ => .fail _ _
  | .observed _ => .fail _ _
  | .forward _ _ _ _ => .fail _ _

/-- The dialogue of steps reads as their dialogue in the counterpart of their frame. -/
theorem Block.dialogue_readsAs {ρ : Reading α} (hρ : ρ.Sound) {env env' : Frames α}
    (henv : Frames.ReadsAs ρ env env') {frame frame' : Frame α} (hframe : frame.ReadsAs ρ frame') :
    ∀ b : Block α,
      Dialogue.ReadsAs Frame.ReadsAs ρ (b.dialogue env frame) (b.dialogue env' frame')
  | .done => .done hframe
  | .step first rest => by
    rw [Block.dialogue, Block.dialogue]
    refine .bind hρ (Step.dialogue_readsAs hρ (.cons hframe henv) first) ?_
    intro ρ' hle hρ' v w hvw
    exact Block.dialogue_readsAs hρ' (henv.mono hle) ((hframe.mono hle).push hvw) rest

/-- The dialogue of a step reads as its dialogue in the counterparts of the frames around it. -/
theorem Step.dialogue_readsAs {ρ : Reading α} (hρ : ρ.Sound) {env env' : Frames α}
    (henv : Frames.ReadsAs ρ env env') :
    ∀ s : Step α, Dialogue.ReadsAs Value.ReadsAs ρ (s.dialogue env) (s.dialogue env')
  | .issue op operands => by
    rw [Step.dialogue, Step.dialogue]
    refine .bind hρ (Q := fun ρ => List.Forall₂ (Value.ReadsAs ρ))
      (.ofExcept fun vs hvs => Operand.lookupAll_readsAs henv hvs) ?_
    intro ρ' _ _ vs ws hvw
    exact .ask hvw fun _ _ _ v w h => .done h
  | .call body operands => by
    rw [Step.dialogue, Step.dialogue]
    refine .bind hρ (Q := fun ρ => List.Forall₂ (Value.ReadsAs ρ))
      (.ofExcept fun vs hvs => Operand.lookupAll_readsAs henv hvs) ?_
    intro ρ' hle hρ' vs ws hvw
    exact Program.dialogue_readsAs hρ' (henv.mono hle) hvw body
  | .loop count init body => by
    rw [Step.dialogue, Step.dialogue]
    refine .bind hρ (.ofExcept fun v hv => Operand.lookup_readsAs henv hv) ?_
    intro ρ' hle hρ' v w hvw
    refine .iterate hρ' (fun ρ'' hle' hρ'' vs ws h => ?_) count 0 hvw
    exact Program.dialogue_readsAs hρ'' (henv.mono (Reading.le_trans hle hle')) h body
  | .unknown _ _ => .fail _ _
  | .attempt _ _ => .fail _ _
  | .keep _ _ => .fail _ _
  | .stage _ _ _ => .fail _ _

end

end DualTrace
