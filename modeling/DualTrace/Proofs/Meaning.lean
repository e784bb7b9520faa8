/-
# Runs and what they denote

A closed program that is evaluated gives the number that it denotes.  The run works with tags and
dual numbers of many instances, which pass for constants wherever they do not belong; the denotation
knows none of this.  The two are compared value by value.

* `Meaning` : what the values of a run stand for in a domain;
* `Meaning.dual` : what they stand for to an instance of differentiation;
* `Dialogue.Computes` : a dialogue whose results stand for what they should, provided that the
  answers do.

Two facts about tags carry the comparison (`Meaning.Sound`): a number stands for itself at every
level, and a dual number of an instance that has not started yet stands for nothing.  So an instance
that starts finds no dual number of its own among the values from outside, and treats them all as
constants.  The main statement is `Program.denote_of_evaluate`, which assumes nothing of the
arithmetic.
-/
import DualTrace.Proofs.Arithmetic
import DualTrace.Proofs.Check
import DualTrace.Proofs.Reading

namespace DualTrace

variable {σ α β γ B : Type}

/-! ## Meanings -/

/-- What values stand for in a domain; some stand for nothing. -/
abbrev Meaning (α B : Type) := Value α → Option B

namespace Meaning

/-- Values that stand for elements of a domain, one by one. -/
abbrev All (δ : Meaning α B) : List (Value α) → List B → Prop :=
  List.Forall₂ fun v b => δ v = some b

/-- A value stands for what is expected, if anything is. -/
def Meets (δ : Meaning α B) (o : Option B) (v : Value α) : Prop := ∃ b, o = some b ∧ δ v = some b

/-- Numbers stand for themselves, and dual numbers of the instances from `n` on for nothing. -/
structure Sound (δ : Meaning α B) (D : Arithmetic α B) (n : Nat) : Prop where
  num : ∀ x, δ (.num x) = some (D.num x)
  fresh : ∀ tag v, n ≤ tag.id → v.OwnedBy tag → δ v = none

/-- What values stand for when all numbers do for themselves and nothing else for anything. -/
def numbers : Meaning α α := Value.num?

theorem numbers_eq_some {v : Value α} {x : α} : numbers v = some x ↔ v = .num x := by
  cases v <;> simp [numbers, Value.num?]

theorem all_numbers {vs : List (Value α)} {xs : List α} :
    numbers.All vs xs ↔ vs = xs.map Value.num := by
  rw [← List.forall₂_eq_eq_eq, List.forall₂_map_right_iff]
  exact ⟨fun h => h.imp fun _ _ => numbers_eq_some.mp,
    fun h => h.imp fun _ _ => numbers_eq_some.mpr⟩

variable [Scalar α] {δ : Meaning α B} {D : Arithmetic α B} {n : Nat} {tag : Tag}
  {v x : Value α} {b t : B}

/-- What a value stands for to the instance `tag`: its primal and its tangent. -/
def dual (tag : Tag) (δ : Meaning α B) : Meaning α (B × B) := fun v =>
  (δ (v.primalFor tag)).bind fun p => (δ (v.tangentFor tag)).map fun d => (p, d)

theorem dual_eq_some {z : B × B} :
    δ.dual tag v = some z ↔ δ (v.primalFor tag) = some z.1 ∧ δ (v.tangentFor tag) = some z.2 := by
  unfold dual
  rw [Option.bind_eq_some_iff]
  constructor
  · rintro ⟨p, hp, h⟩
    obtain ⟨d, hd, rfl⟩ := Option.map_eq_some_iff.mp h
    exact ⟨hp, hd⟩
  · rintro ⟨hp, hd⟩
    exact ⟨z.1, hp, by rw [hd]; rfl⟩

/-- A dual number of the instance stands for the pair of what its parts stand for. -/
theorem dual_dual (hv : δ v = some b) (hx : δ x = some t) :
    δ.dual tag (.dual tag v x) = some (b, t) := by
  rw [dual_eq_some, Value.primalFor_dual_self, Value.tangentFor_dual_self]
  exact ⟨hv, hx⟩

/-- Lifting with tangent zero makes no difference to the instance. -/
theorem dual_lift_zero : δ.dual tag (v.lift tag (.num Scalar.zero)) = δ.dual tag v := by
  unfold dual
  rw [Value.primalFor_lift, Value.tangentFor_lift]

/-- The tangent with which a drive completes. -/
theorem of_tangentOf {z : B × B} (hv : δ.dual tag v = some z) (hx : v.tangentOf tag = .ok x) :
    δ x = some z.2 := by
  cases v with
  | num y => cases hx
  | reg r => cases hx
  | dual owner p d =>
    rw [Value.tangentOf] at hx
    by_cases ho : owner = tag
    · subst ho
      rw [if_pos rfl] at hx
      cases hx
      rw [dual_eq_some, Value.tangentFor_dual_self] at hv
      exact hv.2
    · rw [if_neg ho] at hx
      cases hx

theorem sound_numbers (n : Nat) : (numbers : Meaning α α).Sound .numbers n where
  num _ := rfl
  fresh tag v _ hv := by
    obtain ⟨p, d, rfl⟩ := Value.ownedBy_iff_exists.mp hv
    rfl

namespace Sound

variable (hδ : δ.Sound D n)

include hδ

omit [Scalar α] in
theorem mono {n' : Nat} (hn : n ≤ n') : δ.Sound D n' where
  num := hδ.num
  fresh tag v htag := hδ.fresh tag v (Nat.le_trans hn htag)

omit [Scalar α] in
/-- What stands for something belongs to no instance that is yet to start. -/
theorem not_ownedBy (htag : n ≤ tag.id) (hv : δ v = some b) : ¬ v.OwnedBy tag := by
  intro howned
  rw [hδ.fresh tag v htag howned] at hv
  cases hv

/-- To an instance that starts, everything from outside is a constant. -/
theorem dual_constant (htag : n ≤ tag.id) (hv : δ v = some b) :
    δ.dual tag v = some (D.constant b) := by
  have hv' := hδ.not_ownedBy htag hv
  rw [dual_eq_some, Value.primalFor_of_not_ownedBy hv', Value.tangentFor_of_not_ownedBy hv']
  exact ⟨hv, hδ.num _⟩

/-- An instance that starts lifts its arguments along its seeds. -/
theorem dual_lift (htag : n ≤ tag.id) (hv : δ v = some b) (hx : δ x = some t) :
    δ.dual tag (v.lift tag x) = some (b, t) := by
  rw [Value.lift_of_not_ownedBy (hδ.not_ownedBy htag hv)]
  exact dual_dual hv hx

/-- While an instance runs, the instances that are yet to start are those after it. -/
theorem dual (htag : n ≤ tag.id) : (δ.dual tag).Sound D.dual (tag.id + 1) where
  num x := hδ.dual_constant htag (hδ.num x)
  fresh own v hown hv := by
    -- the value belongs to a later instance, so this one takes it for a constant
    have hne : ¬ v.OwnedBy tag := by
      intro hv'
      obtain ⟨p, d, rfl⟩ := Value.ownedBy_iff_exists.mp hv
      have heq : own = tag := hv'
      rw [heq] at hown
      omega
    have hnone : δ v = none := hδ.fresh own v (by omega) hv
    unfold Meaning.dual
    rw [Value.primalFor_of_not_ownedBy hne, hnone]
    rfl

/-- Arguments lifted along seeds. -/
theorem all_lift (htag : n ≤ tag.id) {vs xs : List (Value α)} {bs ts : List B}
    (hvs : δ.All vs bs) (hxs : δ.All xs ts) :
    (δ.dual tag).All (List.zipWith (Value.lift tag) vs xs) (bs.zip ts) := by
  induction hvs generalizing xs ts with
  | nil => exact .nil
  | cons hv _ ih =>
    cases hxs with
    | nil => exact .nil
    | cons hx hrest => exact .cons (hδ.dual_lift htag hv hx) (ih hrest)

end Sound

end Meaning

/-! ## Dialogues -/

namespace Dialogue

/-- A dialogue whose results satisfy `Q`, provided that the answers stand for the results of the
operations and that the tags are new, their numbers being `n` or more. -/
def Computes (δ : Meaning α B) (D : Arithmetic α B) (Q : β → Prop) :
    Dialogue α β → (n : Nat) → Prop
  | done b, _ => Q b
  | fail _, _ => True
  | ask i next, n => ∃ bs, δ.All i.args bs ∧
      ∀ v b, D.eval? i.op bs = some b → δ v = some b → (next v).Computes δ D Q n
  | mint next, n => ∀ tag : Tag, n ≤ tag.id → (next tag).Computes δ D Q (tag.id + 1)

namespace Computes

variable {δ : Meaning α B} {D : Arithmetic α B} {Q : β → Prop} {R : γ → Prop} {n n' : Nat}
  {x : Dialogue α β}

/-- A dialogue may start later. -/
theorem mono (hn : n ≤ n') (h : x.Computes δ D Q n) : x.Computes δ D Q n' := by
  induction x generalizing n n' with
  | done b => exact h
  | fail e => exact True.intro
  | ask i next ih =>
    obtain ⟨bs, hbs, hnext⟩ := h
    exact ⟨bs, hbs, fun v b hb hv => ih v hn (hnext v b hb hv)⟩
  | mint next ih => exact fun tag htag => h tag (Nat.le_trans hn htag)

/-- Dialogues that follow one another. -/
theorem bind {f : β → Dialogue α γ} (h : x.Computes δ D Q n)
    (hf : ∀ n', n ≤ n' → ∀ b, Q b → (f b).Computes δ D R n') : (x.bind f).Computes δ D R n := by
  induction x generalizing n with
  | done b => exact hf n (Nat.le_refl n) b h
  | fail e => exact True.intro
  | ask i next ih =>
    obtain ⟨bs, hbs, hnext⟩ := h
    exact ⟨bs, hbs, fun v b hb hv => ih v (hnext v b hb hv) hf⟩
  | mint next ih =>
    intro tag htag
    refine ih tag (h tag htag) fun n' hn' => ?_
    exact hf n' (by omega)

/-- A check, of which only the success matters. -/
theorem ofExcept {u : Except (Error α) β} (h : ∀ b, u = .ok b → Q b) :
    (Dialogue.ofExcept u).Computes δ D Q n := by
  cases u with
  | ok b => exact h b rfl
  | error e => exact True.intro

/-- A loop computes what its turns do. -/
theorem iterate [NatCast α] (hδ : δ.Sound D n) {f : List B → Option B}
    {c : List (Value α) → Dialogue α (Value α)}
    (hc : ∀ n', n ≤ n' → ∀ vs bs, δ.All vs bs → (c vs).Computes δ D (δ.Meets (f bs)) n')
    (count turn : Nat) {v : Value α} {b : B} (hv : δ v = some b) :
    (Dialogue.iterate c count turn v).Computes δ D
      (δ.Meets (turns (fun k => D.num (k : α)) f count turn b)) n := by
  induction count generalizing n turn v b with
  | zero => exact ⟨b, rfl, hv⟩
  | succ count ih =>
    have hturn : δ.All [v, .num (turn : α)] [b, D.num (turn : α)] :=
      .cons hv (.cons (hδ.num _) .nil)
    refine bind (hc n (Nat.le_refl n) _ _ hturn) fun n' hn' w => ?_
    rintro ⟨d, hd, hw⟩
    rw [turns, hd, Option.bind_some]
    exact ih (hδ.mono hn') (fun n'' hn'' => hc n'' (Nat.le_trans hn' hn'')) (turn + 1) hw

variable [Scalar α] {tag : Tag}

/-- **The rules of differentiation compute in pairs.**  What an instance asks for on behalf of an
instruction comes to a value that stands, to this instance, for the result of the operation on
pairs. -/
theorem derive {op : Op} {vs : List (Value α)} {bs : List (B × B)} (h : (δ.dual tag).All vs bs) :
    (Dialogue.derive tag ⟨op, vs⟩).Computes δ D ((δ.dual tag).Meets (D.dual.eval? op bs)) n := by
  refine bind (ofExcept (Q := fun _ => True) fun _ _ => True.intro) fun n' _ _ _ => ?_
  -- with any other count of operands nothing is asked for, and the dialogue fails
  rcases h with _ | ⟨hx, _ | ⟨hy, _ | ⟨hz, _ | ⟨_, _⟩⟩⟩⟩ <;> cases op <;> try exact True.intro
  case cons.nil.id =>
    exact ⟨_, rfl, Meaning.dual_lift_zero.trans hx⟩
  case cons.cons.nil.add =>
    obtain ⟨hx₁, hx₂⟩ := Meaning.dual_eq_some.mp hx
    obtain ⟨hy₁, hy₂⟩ := Meaning.dual_eq_some.mp hy
    refine ⟨_, .cons hx₁ (.cons hy₁ .nil), ?_⟩
    rintro p _ ⟨⟩ hp
    refine ⟨_, .cons hx₂ (.cons hy₂ .nil), ?_⟩
    rintro d _ ⟨⟩ hd
    exact ⟨_, rfl, Meaning.dual_dual hp hd⟩
  case cons.cons.nil.mul =>
    obtain ⟨hx₁, hx₂⟩ := Meaning.dual_eq_some.mp hx
    obtain ⟨hy₁, hy₂⟩ := Meaning.dual_eq_some.mp hy
    refine ⟨_, .cons hx₁ (.cons hy₁ .nil), ?_⟩
    rintro p _ ⟨⟩ hp
    refine ⟨_, .cons hx₁ (.cons hy₂ .nil), ?_⟩
    rintro l _ ⟨⟩ hl
    refine ⟨_, .cons hy₁ (.cons hx₂ .nil), ?_⟩
    rintro r _ ⟨⟩ hr
    refine ⟨_, .cons hl (.cons hr .nil), ?_⟩
    rintro d _ ⟨⟩ hd
    exact ⟨_, rfl, Meaning.dual_dual hp hd⟩
  case cons.cons.cons.nil.iif =>
    obtain ⟨hx₁, hx₂⟩ := Meaning.dual_eq_some.mp hx
    obtain ⟨hy₁, hy₂⟩ := Meaning.dual_eq_some.mp hy
    obtain ⟨hz₁, hz₂⟩ := Meaning.dual_eq_some.mp hz
    refine ⟨_, .cons hx₁ (.cons hy₁ (.cons hz₁ .nil)), ?_⟩
    rintro p _ ⟨⟩ hp
    refine ⟨_, .cons hx₂ (.cons hy₂ (.cons hz₂ .nil)), ?_⟩
    rintro d _ ⟨⟩ hd
    exact ⟨_, rfl, Meaning.dual_dual hp hd⟩

/-- Behind an instance of differentiation, what computes in pairs computes in the domain around. -/
theorem forward (h : x.Computes (δ.dual tag) D.dual Q n) :
    (x.forward tag).Computes δ D Q n := by
  induction x generalizing n with
  | done b => exact h
  | fail e => exact True.intro
  | ask i next ih =>
    obtain ⟨bs, hbs, hnext⟩ := h
    refine bind (derive hbs) fun n' hn' v => ?_
    rintro ⟨b, hb, hv⟩
    exact ih v ((hnext v b hb hv).mono hn')
  | mint next ih => exact fun new hnew => ih new (h new hnew)

/-- What computes with numbers has the right results when it is evaluated. -/
theorem run_direct {m m' : Machine σ α} {b : β}
    (h : x.Computes Meaning.numbers Arithmetic.numbers Q m.session.nextTag)
    (hb : x.run Driver.direct m = .ok b m') : Q b := by
  induction x generalizing m with
  | done c => cases hb; exact h
  | fail e => cases hb
  | ask i next ih =>
    obtain ⟨bs, hbs, hnext⟩ := h
    obtain ⟨v, m₁, hv, hrest⟩ := Run.bind_eq_ok.mp hb
    obtain ⟨heval, rfl⟩ := Run.ofExcept_eq_ok.mp hv
    obtain ⟨xs, y, hxs, hy, rfl⟩ := Instruction.evaluate_eq_ok.mp heval
    have heq : xs = bs := by
      rw [hxs, Meaning.all_numbers] at hbs
      exact List.map_injective_iff.mpr (fun _ _ => Value.num.inj) hbs
    rw [heq, ← Arithmetic.eval?_numbers] at hy
    exact ih _ (hnext _ _ hy rfl) hrest
  | mint next ih =>
    obtain ⟨tag, m₁, htag, hrest⟩ := Run.bind_eq_ok.mp hb
    cases htag
    exact ih _ (h _ (Nat.le_refl _)) hrest

end Computes

end Dialogue

/-! ## Frames -/

/-- A frame whose values stand for those of a scope, one by one. -/
structure Frame.StandsFor (δ : Meaning α B) (f : Frame α) (s : Scope B) : Prop where
  args : δ.All f.args s.args
  results : δ.All f.results s.results

/-- Frames whose values stand for those of scopes. -/
abbrev Frames.StandFor (δ : Meaning α B) : Frames α → List (Scope B) → Prop :=
  List.Forall₂ (Frame.StandsFor δ)

section Operands

variable {δ : Meaning α B} {D : Arithmetic α B} {n : Nat} {env : Frames α}
  {scopes : List (Scope B)}

theorem Frame.StandsFor.push {f : Frame α} {s : Scope B} (h : f.StandsFor δ s) {v : Value α}
    {b : B} (hv : δ v = some b) : (f.push v).StandsFor δ (s.push b) where
  args := h.args
  results := List.rel_append h.results (.cons hv .nil)

/-- To an instance that starts, all frames hold constants. -/
theorem Frames.StandFor.constant [Scalar α] (h : Frames.StandFor δ env scopes)
    (hδ : δ.Sound D n) {tag : Tag} (htag : n ≤ tag.id) :
    Frames.StandFor (δ.dual tag) env (scopes.map (Scope.map D.constant)) := by
  rw [Frames.StandFor, List.forall₂_map_right_iff]
  refine h.imp fun f s hfs => ⟨?_, ?_⟩
  · exact List.forall₂_map_right_iff.mpr (hfs.args.imp fun _ _ => hδ.dual_constant htag)
  · exact List.forall₂_map_right_iff.mpr (hfs.results.imp fun _ _ => hδ.dual_constant htag)

/-- An operand with a value in frames has one in the scopes that they stand for. -/
theorem Operand.meets_denote (hδ : δ.Sound D n) (h : Frames.StandFor δ env scopes)
    {o : Operand α} {v : Value α} (hv : o.lookup env = .ok v) :
    δ.Meets (o.denote D.num scopes) v := by
  cases o with
  | num x =>
    cases hv
    exact ⟨D.num x, rfl, hδ.num x⟩
  | arg up index =>
    obtain ⟨f, hf, hv⟩ := Option.bind_eq_some_iff.mp (found_eq_ok.mp hv)
    obtain ⟨s, hs, hfs⟩ := readsAs_getElem? h hf
    obtain ⟨b, hb, hvb⟩ := readsAs_getElem? hfs.args hv
    exact ⟨b, by rw [denote, hs, Option.bind_some, hb], hvb⟩
  | result up index =>
    obtain ⟨f, hf, hv⟩ := Option.bind_eq_some_iff.mp (found_eq_ok.mp hv)
    obtain ⟨s, hs, hfs⟩ := readsAs_getElem? h hf
    obtain ⟨b, hb, hvb⟩ := readsAs_getElem? hfs.results hv
    exact ⟨b, by rw [denote, hs, Option.bind_some, hb], hvb⟩
  | _ => cases hv

/-- Operands with values in frames have some in the scopes that they stand for. -/
theorem Operand.all_mapM_denote (hδ : δ.Sound D n) (h : Frames.StandFor δ env scopes)
    {os : List (Operand α)} {vs : List (Value α)} (hvs : lookupAll env os = .ok vs) :
    ∃ bs, os.mapM (denote D.num scopes) = some bs ∧ δ.All vs bs := by
  rw [lookupAll_eq_ok] at hvs
  induction hvs with
  | nil => exact ⟨[], rfl, .nil⟩
  | cons hov _ ih =>
    obtain ⟨b, hb, hv⟩ := meets_denote hδ h hov
    obtain ⟨bs, hbs, hrest⟩ := ih
    exact ⟨b :: bs, by rw [List.mapM_cons, hb, hbs]; rfl, .cons hv hrest⟩

end Operands

/-! ## Closed programs -/

variable [Scalar α]

mutual

/-- **The dialogue of a program computes what the program denotes.** -/
theorem Program.dialogue_computes {B : Type} {δ : Meaning α B} {D : Arithmetic α B} {n : Nat}
    (hδ : δ.Sound D n) {env : Frames α} {scopes : List (Scope B)}
    (henv : Frames.StandFor δ env scopes) {args : List (Value α)} {bs : List B}
    (hargs : δ.All args bs) :
    ∀ p : Program α, (p.dialogue env args).Computes δ D (δ.Meets (p.denote D scopes bs)) n
  | .block body ret => by
    rw [Program.dialogue, Program.denote]
    have hframe : Frame.StandsFor δ { args := args } { args := bs } := ⟨hargs, .nil⟩
    refine .bind (Block.dialogue_computes hδ henv hframe body) fun n' hn' frame => ?_
    rintro ⟨scope, hscope, hframe'⟩
    rw [hscope, Option.bind_some]
    exact .ofExcept fun v hv => Operand.meets_denote (hδ.mono hn') (.cons hframe' henv) hv
  | .jvp body seeds => by
    rw [Program.dialogue, Program.denote]
    refine .bind (.ofExcept fun vs hvs => Operand.all_mapM_denote hδ henv hvs) fun n' hn' vs => ?_
    rintro ⟨ts, hts, hvs⟩
    rw [hts, Option.bind_some, hargs.length_eq, hvs.length_eq]
    by_cases hlen : bs.length = ts.length
    · rw [if_pos hlen, if_pos hlen]
      intro tag htag
      -- the tag is new, so everything from outside is a constant in the body
      have htag' : n ≤ tag.id := Nat.le_trans hn' htag
      refine .bind (.forward (Program.dialogue_computes (hδ.dual htag') (henv.constant hδ htag')
        (hδ.all_lift htag' hargs hvs) body)) fun n'' _ v => ?_
      rintro ⟨z, hz, hv⟩
      rw [hz, Option.map_some]
      exact .ofExcept fun d hd => ⟨z.2, rfl, Meaning.of_tangentOf hv hd⟩
    · rw [if_neg hlen, if_neg hlen]
      exact True.intro
  | .trace _ => True.intro
  | .bound _ _ => True.intro
  | .observed _ => True.intro
  | .forward _ _ _ _ => True.intro

/-- The dialogue of steps ends in a frame that stands for the scope in which they end. -/
theorem Block.dialogue_computes {B : Type} {δ : Meaning α B} {D : Arithmetic α B} {n : Nat}
    (hδ : δ.Sound D n) {env : Frames α} {scopes : List (Scope B)}
    (henv : Frames.StandFor δ env scopes) {frame : Frame α} {scope : Scope B}
    (hframe : frame.StandsFor δ scope) :
    ∀ b : Block α, (b.dialogue env frame).Computes δ D
      (fun f => ∃ s, b.denote D scopes scope = some s ∧ f.StandsFor δ s) n
  | .done => ⟨scope, rfl, hframe⟩
  | .step first rest => by
    rw [Block.dialogue, Block.denote]
    refine .bind (Step.dialogue_computes hδ (.cons hframe henv) first) fun n' hn' v => ?_
    rintro ⟨b, hb, hv⟩
    rw [hb, Option.bind_some]
    exact Block.dialogue_computes (hδ.mono hn') henv (hframe.push hv) rest

/-- The dialogue of a step computes what the step denotes. -/
theorem Step.dialogue_computes {B : Type} {δ : Meaning α B} {D : Arithmetic α B} {n : Nat}
    (hδ : δ.Sound D n) {env : Frames α} {scopes : List (Scope B)}
    (henv : Frames.StandFor δ env scopes) :
    ∀ s : Step α, (s.dialogue env).Computes δ D (δ.Meets (s.denote D scopes)) n
  | .issue op operands => by
    rw [Step.dialogue, Step.denote]
    refine .bind (.ofExcept fun vs hvs => Operand.all_mapM_denote hδ henv hvs) fun _ _ vs => ?_
    rintro ⟨bs, hbs, hvs⟩
    rw [hbs, Option.bind_some]
    exact ⟨bs, hvs, fun v b hb hv => ⟨b, hb, hv⟩⟩
  | .call body operands => by
    rw [Step.dialogue, Step.denote]
    refine .bind (.ofExcept fun vs hvs => Operand.all_mapM_denote hδ henv hvs) fun n' hn' vs => ?_
    rintro ⟨bs, hbs, hvs⟩
    rw [hbs, Option.bind_some]
    exact Program.dialogue_computes (hδ.mono hn') henv hvs body
  | .loop count init body => by
    rw [Step.dialogue, Step.denote]
    refine .bind (.ofExcept fun v hv => Operand.meets_denote hδ henv hv) fun n' hn' v => ?_
    rintro ⟨b, hb, hv⟩
    rw [hb, Option.bind_some]
    refine .iterate (hδ.mono hn') (fun n'' hn'' vs bs hvs => ?_) count 0 hv
    exact Program.dialogue_computes (hδ.mono (Nat.le_trans hn' hn'')) henv hvs body
  | .unknown _ _ => True.intro
  | .attempt _ _ => True.intro
  | .keep _ _ => True.intro
  | .stage _ _ _ => True.intro

end

/-- **What a closed program evaluates to is what it denotes.**  Nothing is assumed of the
arithmetic. -/
theorem Program.denote_of_evaluate {ops : Op → Prop} {p : Program α} (hp : p.Closed ops)
    {xs : List α} {m : Machine σ α} {y : α}
    (h : Run.result (p.computation.evaluate xs) m = .ok y) :
    p.denote .numbers [] xs = some y := by
  obtain ⟨m', hm'⟩ := Run.result_eq_ok.mp h
  obtain ⟨v, m₁, hv, hy⟩ := Run.bind_eq_ok.mp hm'
  have hrun := Program.run_eq_dialogue (Driver.direct : Driver σ α) [] (xs.map Value.num) hp
  have hargs : Meaning.numbers.All (xs.map Value.num) xs := Meaning.all_numbers.mpr rfl
  have hcomputes := Program.dialogue_computes (Meaning.sound_numbers m.session.nextTag) .nil
    hargs p
  obtain ⟨b, hb, hvb⟩ := hcomputes.run_direct ((congrFun hrun m).symm.trans hv)
  rw [Meaning.numbers_eq_some.mp hvb] at hy
  cases hy
  exact hb

end DualTrace
