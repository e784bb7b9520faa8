/-
# Outcomes in the course of a run

What a closed program comes to on its way: the value or the error of every step that is reached, and
of every program that is run by a step, at every depth of calls, loops and derivatives.

* `Program.outcomes` : the outcomes of a run, in order;
* `Program.outcomes_alike` : under drivers that answer alike, a program has outcomes that are alike,
  one by one;
* `Program.RunsAlike` : two runs of a program that are alike on the way and in the end.

`Program.outcomes` follows `Program.run` step by step, as `Program.drives` does.  Which step comes
next depends only on the text and on whether the steps before it have failed, so outcomes in the
same place of two lists that are alike are outcomes of the same step.
-/
import DualTrace.Proofs.Comparison
import DualTrace.Proofs.Drives

namespace DualTrace

variable {σ τ α β γ δ ε : Type}

/-! ## Outcomes -/

section Outcomes

variable [Scalar α]

/-- The value of a step or of a program, or the error with which it failed. -/
abbrev Outcome (α : Type) := Except (Error α) (Value α)

mutual

/-- The outcomes inside a closed program when it runs, in order, and then its own.  A derivative has
the completion value of its body inside it, and its own outcome is the tangent. -/
def Program.outcomes {σ : Type} (d : Driver σ α) (env : Frames α) (args : List (Value α)) :
    Program α → Machine σ α → List (Outcome α)
  | .block body ret, m =>
    body.outcomes d env { args := args } m ++
      [Run.result ((Program.block body ret).run d env args) m]
  | .jvp body seeds, m =>
    (Run.after (Operand.readAll env seeds) m fun tangents m =>
      if args.length = tangents.length then
        let tag := m.session.mintTag.1
        body.outcomes (d.forward tag) env (List.zipWith (Value.lift tag) args tangents)
          { m with session := m.session.mintTag.2 }
      else []) ++
      [Run.result ((Program.jvp body seeds).run d env args) m]
  | _, _ => []

/-- The outcomes inside the steps of a closed program, each followed by the outcome of the step. -/
def Block.outcomes {σ : Type} (d : Driver σ α) (env : Frames α) (frame : Frame α) :
    Block α → Machine σ α → List (Outcome α)
  | .done, _ => []
  | .step first rest, m =>
    first.outcomes d (frame :: env) m ++ Run.result (first.run d (frame :: env)) m ::
      Run.after (first.run d (frame :: env)) m fun v m => rest.outcomes d env (frame.push v) m

/-- The outcomes inside a step of a closed program: those of the program that it runs, in every
turn. -/
def Step.outcomes {σ : Type} (d : Driver σ α) (env : Frames α) :
    Step α → Machine σ α → List (Outcome α)
  | .call body operands, m =>
    Run.after (Operand.readAll env operands) m fun args m => body.outcomes d env args m
  | .loop count init body, m =>
    Run.after (init.read env) m fun v m =>
      Run.collectTurns (fun args => body.run d env args) (fun args m => body.outcomes d env args m)
        count 0 v m
  | _, _ => []

end

end Outcomes

/-! ## Outcomes side by side -/

namespace Comparison

variable {C : Comparison σ τ α} {k : Nat}

/-- What is collected after two runs that end alike. -/
theorem Alike.after {Q : β → γ → Prop} {P : δ → ε → Prop} {x : Run σ α β} {y : Run τ α γ}
    (h : C.Alike k Q x y) {f : β → Machine σ α → List δ} {g : γ → Machine τ α → List ε}
    (hf : ∀ i, k ≤ i → ∀ {b c m m'}, Q b c → C.Abreast i m m' → List.Forall₂ P (f b m) (g c m'))
    {i : Nat} (hi : k ≤ i) {m : Machine σ α} {m' : Machine τ α} (hm : C.Abreast i m m') :
    List.Forall₂ P (Run.after x m f) (Run.after y m' g) := by
  have hxy := h i hi m m' hm
  unfold Run.after
  cases hx : x m <;> cases hy : y m' <;> rw [hx, hy] at hxy
  · cases hxy with
    | ok hij hQ hm' => exact hf _ (Nat.le_trans hi hij) hQ hm'
  · cases hxy
  · cases hxy
  · exact .nil

/-- What is collected over the turns of two loops whose turns run alike. -/
theorem Alike.collectTurns [NatCast α] {S : Value α → Value α → Prop} {P : δ → ε → Prop}
    (hS : C.Level k S) {run : List (Value α) → Run σ α (Value α)}
    {run' : List (Value α) → Run τ α (Value α)} {f : List (Value α) → Machine σ α → List δ}
    {g : List (Value α) → Machine τ α → List ε}
    (hrun : ∀ {vs ws}, List.Forall₂ S vs ws → C.Alike k S (run vs) (run' ws))
    (hf : ∀ i, k ≤ i → ∀ {vs ws m m'}, List.Forall₂ S vs ws → C.Abreast i m m' →
      List.Forall₂ P (f vs m) (g ws m')) (count turn : Nat) :
    ∀ i, k ≤ i → ∀ {v w m m'}, S v w → C.Abreast i m m' →
      List.Forall₂ P (Run.collectTurns run f count turn v m)
        (Run.collectTurns run' g count turn w m') := by
  induction count generalizing turn with
  | zero => exact fun _ _ _ _ _ _ _ _ => .nil
  | succ count ih =>
    intro i hi v w m m' hvw hm
    have hargs : List.Forall₂ S [v, .num (turn : α)] [w, .num (turn : α)] :=
      .cons hvw (.cons (hS.num _) .nil)
    exact List.rel_append (hf i hi hargs hm) ((hrun hargs).after (ih (turn + 1)) hi hm)

end Comparison

section Programs

variable [Scalar α] {C : Comparison σ τ α} {ops : Op → Prop}

/-- Outcomes that are alike as far as a comparison goes. -/
abbrev Comparison.Outcomes (C : Comparison σ τ α) : List (Outcome α) → List (Outcome α) → Prop :=
  List.Forall₂ (Check.Alike C.values)

omit [Scalar α] in
/-- Two runs with related values come to outcomes that are alike. -/
theorem Comparison.Alike.outcome {k : Nat} {S : Value α → Value α → Prop} (hS : C.Level k S)
    {x : Run σ α (Value α)} {y : Run τ α (Value α)} (h : C.Alike k S x y) {i : Nat} (hi : k ≤ i)
    {m : Machine σ α} {m' : Machine τ α} (hm : C.Abreast i m m') :
    Check.Alike C.values (Run.result x m) (Run.result y m') :=
  (h i hi m m' hm).result.imp fun _ _ => hS.values

mutual

/-- **A closed program comes to outcomes that are alike under drivers that answer alike.** -/
theorem Program.outcomes_alike {k : Nat} {S : Value α → Value α → Prop} (hS : C.Level k S)
    {d : Driver σ α} {d' : Driver τ α} (hd : C.Drivers k S d d') {env env' : Frames α}
    (henv : List.Forall₂ (Frame.Alike S) env env') {args args' : List (Value α)}
    (hargs : List.Forall₂ S args args') :
    ∀ {p : Program α}, p.Closed ops → ∀ i, k ≤ i → ∀ {m m'}, C.Abreast i m m' →
      C.Outcomes (p.outcomes d env args m) (p.outcomes d' env' args' m')
  | .block body ret, h, i, hi, m, m', hm => by
    rw [Program.outcomes, Program.outcomes]
    refine List.rel_append (Block.outcomes_alike hS hd henv ⟨hargs, .nil⟩ h.1 i hi hm) ?_
    exact .cons ((Program.run_alike hS hd henv hargs h).outcome hS hi hm) .nil
  | .jvp body seeds, h, i, hi, m, m', hm => by
    rw [Program.outcomes, Program.outcomes]
    refine List.rel_append ?_
      (.cons ((Program.run_alike hS hd henv hargs h).outcome hS hi hm) .nil)
    refine (Operand.readAll_alike hS henv h.2).after (fun j hj xs ys m m' hseeds hm => ?_) hi hm
    rw [hargs.length_eq, hseeds.length_eq]
    by_cases hlen : args'.length = ys.length
    · rw [if_pos hlen, if_pos hlen]
      have htag : m.session.mintTag.1 = C.leftTag j := congrArg Tag.mk hm.left
      have htag' : m'.session.mintTag.1 = C.rightTag j := congrArg Tag.mk hm.right
      rw [htag, htag']
      exact Program.outcomes_alike (hS.inside hj) (hd.forward hS hj) (Frame.alike_inside henv j)
        (hS.zipWith_lift hj hargs hseeds) h.1 (j + 1) (Nat.le_refl _) hm.mint
    · rw [if_neg hlen, if_neg hlen]
      exact .nil

/-- Closed steps come to outcomes that are alike. -/
theorem Block.outcomes_alike {k : Nat} {S : Value α → Value α → Prop} (hS : C.Level k S)
    {d : Driver σ α} {d' : Driver τ α} (hd : C.Drivers k S d d') {env env' : Frames α}
    (henv : List.Forall₂ (Frame.Alike S) env env') {frame frame' : Frame α}
    (hframe : frame.Alike S frame') :
    ∀ {b : Block α}, b.Closed ops → ∀ i, k ≤ i → ∀ {m m'}, C.Abreast i m m' →
      C.Outcomes (b.outcomes d env frame m) (b.outcomes d' env' frame' m')
  | .done, _, _, _, _, _, _ => .nil
  | .step first rest, h, i, hi, m, m', hm => by
    have hfirst : C.Alike k S (first.run d (frame :: env)) (first.run d' (frame' :: env')) :=
      Step.run_alike hS hd (.cons hframe henv) h.1
    rw [Block.outcomes, Block.outcomes]
    refine List.rel_append (Step.outcomes_alike hS hd (.cons hframe henv) h.1 i hi hm) ?_
    refine .cons (hfirst.outcome hS hi hm) (hfirst.after (fun j hj v w m m' hvw hm => ?_) hi hm)
    exact Block.outcomes_alike hS hd henv (hframe.push hvw) h.2 j hj hm

/-- A closed step comes to outcomes that are alike. -/
theorem Step.outcomes_alike {k : Nat} {S : Value α → Value α → Prop} (hS : C.Level k S)
    {d : Driver σ α} {d' : Driver τ α} (hd : C.Drivers k S d d') {env env' : Frames α}
    (henv : List.Forall₂ (Frame.Alike S) env env') :
    ∀ {s : Step α}, s.Closed ops → ∀ i, k ≤ i → ∀ {m m'}, C.Abreast i m m' →
      C.Outcomes (s.outcomes d env m) (s.outcomes d' env' m')
  | .issue _ _, _, _, _, _, _, _ => .nil
  | .call body operands, h, i, hi, m, m', hm => by
    rw [Step.outcomes, Step.outcomes]
    refine (Operand.readAll_alike hS henv h.2).after (fun j hj vs ws m m' hvw hm => ?_) hi hm
    exact Program.outcomes_alike hS hd henv hvw h.1 j hj hm
  | .loop count init body, h, i, hi, m, m', hm => by
    rw [Step.outcomes, Step.outcomes]
    refine (Operand.read_alike hS henv h.1).after (fun j hj v w m m' hvw hm => ?_) hi hm
    refine Comparison.Alike.collectTurns hS (fun hargs => Program.run_alike hS hd henv hargs h.2) ?_
      count 0 j hj hvw hm
    intro l hl vs ws m m' hargs hm
    exact Program.outcomes_alike hS hd henv hargs h.2 l hl hm

end

end Programs

/-! ## Whole runs -/

section Runs

variable [Scalar α]

/-- Two runs of a program that come to values related by `Q`, or to errors of the same kind, at
every step on the way and in the end. -/
structure Program.RunsAlike (Q : Value α → Value α → Prop) (p : Program α) (d : Driver σ α)
    (args : List (Value α)) (m : Machine σ α) (d' : Driver τ α) (args' : List (Value α))
    (m' : Machine τ α) : Prop where
  outcomes : List.Forall₂ (Check.Alike Q) (p.outcomes d [] args m) (p.outcomes d' [] args' m')
  result : Check.Alike Q (Run.result (p.computation.run d args) m)
    (Run.result (p.computation.run d' args') m')

namespace Program.RunsAlike

variable {p : Program α} {d : Driver σ α} {d' : Driver τ α} {args args' : List (Value α)}
  {m : Machine σ α} {m' : Machine τ α} {Q R : Value α → Value α → Prop}

/-- A closed program runs alike from machines that are abreast. -/
theorem of_drivers {C : Comparison σ τ α} {ops : Op → Prop} {k : Nat} (hS : C.Level k Q)
    (hd : C.Drivers k Q d d') (hargs : List.Forall₂ Q args args') (hp : p.Closed ops)
    (hm : C.Abreast k m m') : p.RunsAlike C.values d args m d' args' m' where
  outcomes := p.outcomes_alike hS hd .nil hargs hp k (Nat.le_refl k) hm
  result := (Program.run_alike hS hd .nil hargs hp).outcome hS (Nat.le_refl k) hm

theorem imp (hQ : ∀ v w, Q v w → R v w) (h : p.RunsAlike Q d args m d' args' m') :
    p.RunsAlike R d args m d' args' m' where
  outcomes := h.outcomes.imp fun _ _ hx => hx.imp hQ
  result := h.result.imp hQ

/-- Two runs that are like a third one are alike. -/
theorem common {ρ : Type} {d₀ : Driver ρ α} {args₀ : List (Value α)} {m₀ : Machine ρ α}
    (h : p.RunsAlike Q d args m d₀ args₀ m₀) (h' : p.RunsAlike R d' args' m' d₀ args₀ m₀) :
    p.RunsAlike (fun v w => ∃ u, Q v u ∧ R w u) d args m d' args' m' where
  outcomes := Check.Alike.forall₂_common h.outcomes h'.outcomes
  result := h.result.common h'.result

end Program.RunsAlike

end Runs

end DualTrace
