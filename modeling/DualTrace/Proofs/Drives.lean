/-
# Instances in the course of a run

A run of a closed program starts an instance of differentiation for each derivative that it comes
to.  This file finds them all.

* `Run.tags` : the tags that a run takes, in order;
* `Drive` : one instance of differentiation in the course of a run;
* `Program.drives` : the instances that a run of a closed program starts, in order;
* `Program.drives_tags` : their tags are all the tags that the run takes.

`Program.drives` follows `Program.run` step by step.  At each place the driver, the machine and the
frames are those of the run, so what is said of an instance is said of the driver that really stands
behind it.
-/
import DualTrace.Proofs.Replay

namespace DualTrace

variable {σ α β γ δ : Type}

/-! ## Tags in order -/

/-- The tags from number `a` up to number `b`, without the latter. -/
def Tag.range (a b : Nat) : List Tag := (List.range' a (b - a)).map Tag.mk

theorem Tag.range_self (a : Nat) : range a a = [] := by
  rw [range, Nat.sub_self]
  rfl

theorem Tag.range_append {a b c : Nat} (hab : a ≤ b) (hbc : b ≤ c) :
    range a b ++ range b c = range a c := by
  have hstart : a + 1 * (b - a) = b := by omega
  have hcount : (b - a) + (c - b) = c - a := by omega
  unfold range
  rw [← List.map_append, ← hcount, ← List.range'_append, hstart]

theorem Tag.range_succ {a b : Nat} (h : a + 1 ≤ b) : range a b = ⟨a⟩ :: range (a + 1) b := by
  rw [← range_append (Nat.le_succ a) h]
  unfold range
  rw [Nat.succ_sub (Nat.le_refl a), Nat.sub_self]
  rfl

/-! ## Collecting along a run -/

namespace Run

/-- What is collected after a run that succeeds. -/
def after (x : Run σ α β) (m : Machine σ α) (f : β → Machine σ α → List γ) : List γ :=
  match x m with
  | .ok b m' => f b m'
  | .error _ _ => []

theorem mem_after {x : Run σ α β} {m : Machine σ α} {f : β → Machine σ α → List γ} {c : γ} :
    c ∈ after x m f ↔ ∃ b m', x m = .ok b m' ∧ c ∈ f b m' := by
  unfold after
  cases x m <;> simp

theorem map_after (g : γ → δ) (x : Run σ α β) (m : Machine σ α) (f : β → Machine σ α → List γ) :
    (after x m f).map g = after x m fun b m' => (f b m').map g := by
  unfold after
  cases x m <;> rfl

theorem after_ofExcept_ok (b : β) (m : Machine σ α) (f : β → Machine σ α → List γ) :
    after (ofExcept (.ok b)) m f = f b m := rfl

/-- What is collected over the turns of a loop, from turn `turn` on. -/
def collectTurns [NatCast α] (run : List (Value α) → Run σ α (Value α))
    (collect : List (Value α) → Machine σ α → List γ) :
    (count turn : Nat) → Value α → Machine σ α → List γ
  | 0, _, _, _ => []
  | count + 1, turn, v, m =>
    collect [v, .num (turn : α)] m ++
      after (run [v, .num (turn : α)]) m (collectTurns run collect count (turn + 1))

theorem map_collectTurns [NatCast α] (g : γ → δ) (run : List (Value α) → Run σ α (Value α))
    (collect : List (Value α) → Machine σ α → List γ) (count turn : Nat) (v : Value α)
    (m : Machine σ α) :
    (collectTurns run collect count turn v m).map g =
      collectTurns run (fun args m => (collect args m).map g) count turn v m := by
  induction count generalizing turn v m with
  | zero => rfl
  | succ count ih =>
    rw [collectTurns, collectTurns, List.map_append, map_after]
    simp only [ih]

/-- What the turns of a loop collect has a property, if what each of them collects has it. -/
theorem forall_mem_collectTurns [NatCast α] {P : γ → Prop} {V : Value α → Prop}
    (hnum : ∀ x, V (.num x)) {M : Machine σ α → Prop}
    {run : List (Value α) → Run σ α (Value α)}
    {collect : List (Value α) → Machine σ α → List γ}
    (hrun : ∀ {v w m u m'}, V v → V w → M m → run [v, w] m = .ok u m' → V u ∧ M m')
    (hcollect : ∀ {v w m}, V v → V w → M m → ∀ c ∈ collect [v, w] m, P c) (count turn : Nat)
    {v : Value α} (hv : V v) {m : Machine σ α} (hm : M m) :
    ∀ c ∈ collectTurns run collect count turn v m, P c := by
  induction count generalizing turn v m with
  | zero => exact fun c hc => nomatch hc
  | succ count ih =>
    intro c hc
    rcases List.mem_append.mp hc with hc | hc
    · exact hcollect hv (hnum _) hm c hc
    · obtain ⟨u, m', hu, hc⟩ := mem_after.mp hc
      obtain ⟨hVu, hm'⟩ := hrun hv (hnum _) hm hu
      exact ih (turn + 1) hVu hm' c hc

/-- The tags that a run takes, in order. -/
def tags (x : Run σ α β) (m : Machine σ α) : List Tag :=
  Tag.range m.session.nextTag (final x m).session.nextTag

/-- A run that gives no tag back. -/
def Grows (x : Run σ α β) : Prop :=
  ∀ m : Machine σ α, m.session.nextTag ≤ (final x m).session.nextTag

/-- The machine that a sequence of two runs leaves behind. -/
theorem final_bind (x : Run σ α β) (f : β → Run σ α γ) (m : Machine σ α) :
    final (x >>= f) m =
      match x m with
      | .ok b m' => final (f b) m'
      | .error _ m' => m' := by
  unfold final
  rw [bind_apply]
  cases x m <;> rfl

namespace Grows

theorem bind {x : Run σ α β} {f : β → Run σ α γ} (hx : Grows x) (hf : ∀ b, Grows (f b)) :
    Grows (x >>= f) := by
  intro m
  have hxm := hx m
  rw [final_bind]
  unfold final at hxm
  cases h : x m with
  | ok b m' =>
    rw [h] at hxm
    exact Nat.le_trans hxm (hf b m')
  | error e m' =>
    rw [h] at hxm
    exact hxm

end Grows

/-- A tagless run leaves the supply of tags as it was, however it ends. -/
theorem Tagless.nextTag_final {x : Run σ α β} (hx : Tagless x) (m : Machine σ α) :
    (final x m).session.nextTag = m.session.nextTag := by
  unfold final
  cases h : x m with
  | ok b m' => exact hx.nextTag_of_ok h
  | error e m' => exact hx.nextTag_of_error h

theorem Tagless.grows {x : Run σ α β} (hx : Tagless x) : Grows x :=
  fun m => Nat.le_of_eq (hx.nextTag_final m).symm

/-- A tagless run takes no tag. -/
theorem tags_of_tagless {x : Run σ α β} (hx : Tagless x) (m : Machine σ α) : tags x m = [] := by
  rw [tags, hx.nextTag_final, Tag.range_self]

/-- Runs that follow one another take their tags one after the other. -/
theorem tags_bind {x : Run σ α β} {f : β → Run σ α γ} (hx : Grows x) (hf : ∀ b, Grows (f b))
    (m : Machine σ α) : tags (x >>= f) m = tags x m ++ after x m fun b => tags (f b) := by
  have hxm := hx m
  unfold tags after
  rw [final_bind]
  unfold final at hxm ⊢
  cases h : x m with
  | ok b m' =>
    rw [h] at hxm
    exact (Tag.range_append hxm (hf b m')).symm
  | error e m' => exact (List.append_nil _).symm

/-- A run that takes no tag may follow. -/
theorem tags_bind_tagless {x : Run σ α β} {f : β → Run σ α γ} (hx : Grows x)
    (hf : ∀ b, Tagless (f b)) (m : Machine σ α) : tags (x >>= f) m = tags x m := by
  have hafter : (after x m fun b => tags (f b)) = [] := by
    unfold after
    cases x m with
    | ok b m' => exact tags_of_tagless (hf b) m'
    | error e m' => rfl
  rw [tags_bind hx (fun b => (hf b).grows), hafter, List.append_nil]

/-- A check may come first. -/
theorem tags_ofExcept_bind (u : Except (Error α) β) (f : β → Run σ α γ) (m : Machine σ α) :
    tags (ofExcept u >>= f) m = after (ofExcept u) m fun b => tags (f b) := by
  cases u with
  | ok b => rfl
  | error e => exact Tag.range_self _

end Run

/-! ## Instances in the course of a run -/

variable [Scalar α]

/-- An instance of differentiation: the driver behind it, the derivative that starts it with the
frames around it and its arguments, and the machine when it starts. -/
structure Drive (σ α : Type) where
  next : Driver σ α
  program : Program α
  env : Frames α
  args : List (Value α)
  start : Machine σ α

namespace Drive

omit [Scalar α] in
/-- The tag that an instance takes. -/
def tag (dr : Drive σ α) : Tag := dr.start.session.mintTag.1

/-- What an instance passes on to the next driver, with the answers it gets. -/
def emissions (dr : Drive σ α) : List (Observation α) :=
  (dr.program.computation dr.env).transcript dr.next dr.args dr.start

end Drive

mutual

/-- The instances that a closed program starts when it runs, in order. -/
def Program.drives {σ : Type} (d : Driver σ α) (env : Frames α) (args : List (Value α)) :
    Program α → Machine σ α → List (Drive σ α)
  | .block body _, m => body.drives d env { args := args } m
  | .jvp body seeds, m =>
    Run.after (Operand.readAll env seeds) m fun tangents m =>
      if args.length = tangents.length then
        let drive : Drive σ α := ⟨d, .jvp body seeds, env, args, m⟩
        drive ::
          body.drives (d.forward drive.tag) env (List.zipWith (Value.lift drive.tag) args tangents)
            { m with session := m.session.mintTag.2 }
      else []
  | _, _ => []

/-- The instances that the steps of a closed program start. -/
def Block.drives {σ : Type} (d : Driver σ α) (env : Frames α) (frame : Frame α) :
    Block α → Machine σ α → List (Drive σ α)
  | .done, _ => []
  | .step first rest, m =>
    first.drives d (frame :: env) m ++
      Run.after (first.run d (frame :: env)) m fun v m => rest.drives d env (frame.push v) m

/-- The instances that a step of a closed program starts. -/
def Step.drives {σ : Type} (d : Driver σ α) (env : Frames α) :
    Step α → Machine σ α → List (Drive σ α)
  | .call body operands, m =>
    Run.after (Operand.readAll env operands) m fun args m => body.drives d env args m
  | .loop count init body, m =>
    Run.after (init.read env) m fun v m =>
      Run.collectTurns (fun args => body.run d env args) (fun args m => body.drives d env args m)
        count 0 v m
  | _, _ => []

end

/-! ## All instances are there -/

section Closed

variable {ops : Op → Prop} {d : Driver σ α} (hd : d.Tagless)

include hd

theorem Program.run_grows (env : Frames α) (args : List (Value α)) {p : Program α}
    (hp : p.Closed ops) : Run.Grows (p.run d env args) := by
  rw [Program.run_eq_dialogue d env args hp]
  exact Dialogue.nextTag_le_final hd _

theorem Block.run_grows (env : Frames α) (frame : Frame α) {b : Block α} (hb : b.Closed ops) :
    Run.Grows (b.run d env frame) := by
  rw [Block.run_eq_dialogue d env frame hb]
  exact Dialogue.nextTag_le_final hd _

theorem Step.run_grows (env : Frames α) {s : Step α} (hs : s.Closed ops) :
    Run.Grows (s.run d env) := by
  rw [Step.run_eq_dialogue d env hs]
  exact Dialogue.nextTag_le_final hd _

end Closed

/-- The turns of a loop take their tags one after the other. -/
theorem Computation.tags_iterate {c : Computation α} {d : Driver σ α}
    (hc : ∀ args, Run.Grows (c.run d args)) (count turn : Nat) (v : Value α) :
    Run.Grows (iterate c d count turn v) ∧ ∀ m,
      Run.tags (iterate c d count turn v) m =
        Run.collectTurns (fun args => c.run d args) (fun args => Run.tags (c.run d args))
          count turn v m := by
  induction count generalizing turn v with
  | zero => exact ⟨fun m => Nat.le_refl _, fun m => Tag.range_self _⟩
  | succ count ih =>
    refine ⟨(hc _).bind fun w => (ih (turn + 1) w).1, fun m => ?_⟩
    rw [iterate, Run.tags_bind (hc _) fun w => (ih (turn + 1) w).1, Run.collectTurns]
    congr 2
    funext w m'
    exact (ih (turn + 1) w).2 m'

/-- A derivative takes the tag of its instance, and then those of its body. -/
theorem Computation.tags_jvp {c : Computation α} {d : Driver σ α} {args seeds : List (Value α)}
    (hlen : args.length = seeds.length) {m : Machine σ α}
    (hc : Run.Grows (c.run (d.forward ⟨m.session.nextTag⟩)
      (List.zipWith (Value.lift ⟨m.session.nextTag⟩) args seeds))) :
    Run.tags ((c.jvp seeds).run d args) m =
      ⟨m.session.nextTag⟩ ::
        Run.tags (c.run (d.forward ⟨m.session.nextTag⟩)
          (List.zipWith (Value.lift ⟨m.session.nextTag⟩) args seeds))
          { m with session := m.session.mintTag.2 } := by
  rw [← Run.tags_bind_tagless hc fun v => Run.Tagless.ofExcept (v.tangentOf ⟨m.session.nextTag⟩)]
  unfold Run.tags Run.final
  rw [jvp_apply c hlen]
  refine Tag.range_succ ?_
  exact (hc.bind fun v => (Run.Tagless.ofExcept _).grows) { m with session := m.session.mintTag.2 }

mutual

/-- **Every tag that a closed program takes is the tag of an instance that it starts.** -/
theorem Program.drives_tags {ops : Op → Prop} {d : Driver σ α} (hd : d.Tagless) (env : Frames α)
    (args : List (Value α)) :
    ∀ {p : Program α}, p.Closed ops → ∀ m,
      (p.drives d env args m).map Drive.tag = Run.tags (p.run d env args) m
  | .block body ret, h, m => by
    rw [Program.run, Program.drives, Run.tags_bind_tagless (Block.run_grows hd env _ h.1)]
    · exact Block.drives_tags hd env _ h.1 m
    · intro frame
      rw [Operand.read_eq_lookup _ h.2]
      exact Run.Tagless.ofExcept _
  | .jvp body seeds, h, m => by
    rw [Program.run, Program.drives, Operand.readAll_eq_lookupAll env h.2, Run.tags_ofExcept_bind,
      Run.map_after]
    congr 1
    funext vs m
    by_cases hlen : args.length = vs.length
    · rw [if_pos hlen, List.map_cons,
        Computation.tags_jvp hlen (Program.run_grows (hd.forward _) env _ h.1)]
      exact congrArg _ (Program.drives_tags (hd.forward _) env _ h.1 _)
    · rw [if_neg hlen, Computation.jvp_of_ne _ hlen]
      exact (Run.tags_of_tagless (Run.Tagless.throw _) m).symm

/-- Every tag that closed steps take is the tag of an instance that they start. -/
theorem Block.drives_tags {ops : Op → Prop} {d : Driver σ α} (hd : d.Tagless) (env : Frames α)
    (frame : Frame α) :
    ∀ {b : Block α}, b.Closed ops → ∀ m,
      (b.drives d env frame m).map Drive.tag = Run.tags (b.run d env frame) m
  | .done, _, m => (Tag.range_self _).symm
  | .step first rest, h, m => by
    rw [Block.run, Block.drives,
      Run.tags_bind (Step.run_grows hd _ h.1) fun v => Block.run_grows hd env _ h.2,
      List.map_append, Run.map_after, Step.drives_tags hd _ h.1]
    congr 2
    funext v m
    exact Block.drives_tags hd env _ h.2 m

/-- Every tag that a closed step takes is the tag of an instance that it starts. -/
theorem Step.drives_tags {ops : Op → Prop} {d : Driver σ α} (hd : d.Tagless) (env : Frames α) :
    ∀ {s : Step α}, s.Closed ops → ∀ m,
      (s.drives d env m).map Drive.tag = Run.tags (s.run d env) m
  | .issue op operands, h, m => by
    rw [Step.run, Operand.readAll_eq_lookupAll env h.2, Run.tags_of_tagless]
    · rfl
    · exact (Run.Tagless.ofExcept _).bind fun args => hd ⟨op, args⟩
  | .call body operands, h, m => by
    rw [Step.run, Step.drives, Operand.readAll_eq_lookupAll env h.2, Run.tags_ofExcept_bind,
      Run.map_after]
    congr 1
    funext args m
    exact Program.drives_tags hd env args h.1 m
  | .loop count init body, h, m => by
    rw [Step.run, Step.drives, Operand.read_eq_lookup env h.1, Run.tags_ofExcept_bind,
      Run.map_after]
    congr 1
    funext v m
    rw [Run.map_collectTurns,
      (Computation.tags_iterate (fun args => Program.run_grows hd env args h.2) count 0 v).2]
    congr 1
    funext args m
    exact Program.drives_tags hd env args h.2 m

end

end DualTrace
