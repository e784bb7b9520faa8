/-
# References in range

A closed program whose references are all in range never looks in vain.  What it asks for is made of
its arguments, of numbers and of the answers it got.

* `Program.InRange` : a closed program all of whose references are in range;
* `Frame.Within` : a frame that holds values of a class only;
* `Program.dialogue_safe` : over every class of values, such a program has a safe dialogue.

The class changes where an instance of differentiation starts: the body of a derivative works on the
values over those around it.
-/
import DualTrace.Proofs.Safety

namespace DualTrace

variable {σ α : Type}

/-! ## Programs -/

/-- How many arguments and how many results a frame holds. -/
structure Extent where
  args : Nat
  results : Nat := 0

/-- The extent of a frame after one more step. -/
def Extent.push (s : Extent) : Extent := { s with results := s.results + 1 }

/-- A number, or a reference to what the frames around it hold. -/
def Operand.InRange (scopes : List Extent) : Operand α → Prop
  | num _ => True
  | arg up index => ∃ s, scopes[up]? = some s ∧ index < s.args
  | result up index => ∃ s, scopes[up]? = some s ∧ index < s.results
  | _ => False

/-- The extent of the frame of a block after its steps. -/
def Block.extent (s : Extent) : Block α → Extent
  | .done => s
  | .step _ rest => rest.extent s.push

mutual

/-- A closed program of `n` arguments whose references are in range, inside frames of these extents.
Counts may be wrong all the same: the operands of an instruction, and the arguments of a
derivative. -/
def Program.InRange (scopes : List Extent) (n : Nat) : Program α → Prop
  | .block body ret =>
    body.InRange scopes { args := n } ∧ ret.InRange (body.extent { args := n } :: scopes)
  | .jvp body seeds => body.InRange scopes seeds.length ∧ ∀ o ∈ seeds, o.InRange scopes
  | _ => False

/-- The steps of a closed program whose references are in range. -/
def Block.InRange (scopes : List Extent) (s : Extent) : Block α → Prop
  | .done => True
  | .step first rest => first.InRange (s :: scopes) ∧ rest.InRange scopes s.push

/-- A step of a closed program whose references are in range. -/
def Step.InRange (scopes : List Extent) : Step α → Prop
  | .issue _ operands => ∀ o ∈ operands, o.InRange scopes
  | .call body operands =>
    body.InRange scopes operands.length ∧ ∀ o ∈ operands, o.InRange scopes
  | .loop _ init body => init.InRange scopes ∧ body.InRange scopes 2
  | _ => False

end

theorem Operand.InRange.plain {scopes : List Extent} {o : Operand α} (h : o.InRange scopes) :
    o.Plain := by
  cases o with
  | num x => exact True.intro
  | arg up index => exact True.intro
  | result up index => exact True.intro
  | _ => exact h.elim

mutual

/-- A program whose references are in range is closed. -/
theorem Program.InRange.closed {scopes : List Extent} {n : Nat} :
    ∀ {p : Program α}, p.InRange scopes n → p.Closed fun _ => True
  | .block _ _, h => ⟨Block.InRange.closed h.1, h.2.plain⟩
  | .jvp _ _, h => ⟨Program.InRange.closed h.1, fun o ho => (h.2 o ho).plain⟩

/-- Steps whose references are in range are closed. -/
theorem Block.InRange.closed {scopes : List Extent} {s : Extent} :
    ∀ {b : Block α}, b.InRange scopes s → b.Closed fun _ => True
  | .done, _ => True.intro
  | .step _ _, h => ⟨Step.InRange.closed h.1, Block.InRange.closed h.2⟩

/-- A step whose references are in range is closed. -/
theorem Step.InRange.closed {scopes : List Extent} :
    ∀ {s : Step α}, s.InRange scopes → s.Closed fun _ => True
  | .issue _ _, h => ⟨True.intro, fun o ho => (h o ho).plain⟩
  | .call _ _, h => ⟨Program.InRange.closed h.1, fun o ho => (h.2 o ho).plain⟩
  | .loop _ _ _, h => ⟨h.1.plain, Program.InRange.closed h.2⟩

end

/-- A body with one argument for each seed is in range on the liftings along them. -/
theorem Program.InRange.lifted {scopes : List Extent} {n : Nat} {p : Program α}
    (h : p.InRange scopes n) {args seeds : List (Value α)} (hseeds : seeds.length = n)
    (hcount : args.length = seeds.length) (tag : Tag) :
    p.InRange scopes (List.zipWith (Value.lift tag) args seeds).length := by
  rw [Value.length_zipWith_lift tag hcount, hcount, hseeds]
  exact h

/-! ## Frames -/

/-- The extent of a frame. -/
def Frame.extent (f : Frame α) : Extent := ⟨f.args.length, f.results.length⟩

theorem Frame.extent_push (f : Frame α) (v : Value α) : (f.push v).extent = f.extent.push := by
  unfold extent push Extent.push
  rw [List.length_append, List.length_singleton]

/-- A frame that holds values of the class `V` only. -/
structure Frame.Within (V : Value α → Prop) (f : Frame α) : Prop where
  args : ∀ v ∈ f.args, V v
  results : ∀ v ∈ f.results, V v

namespace Frame.Within

variable {V W : Value α → Prop} {f : Frame α}

theorem mono (hVW : ∀ v, V v → W v) (h : f.Within V) : f.Within W where
  args v hv := hVW v (h.args v hv)
  results v hv := hVW v (h.results v hv)

theorem push (h : f.Within V) {v : Value α} (hv : V v) : (f.push v).Within V where
  args := h.args
  results w hw := by
    rcases List.mem_append.mp hw with hw | hw
    · exact h.results w hw
    · rw [List.mem_singleton.mp hw]
      exact hv

/-- A new frame holds the arguments. -/
theorem ofArgs {args : List (Value α)} (h : ∀ v ∈ args, V v) :
    (⟨args, []⟩ : Frame α).Within V where
  args := h
  results _ hv := nomatch hv

/-- Inside an instance the frames around it are as they were. -/
theorem inside {env : Frames α} (h : ∀ f ∈ env, f.Within V) (tag : Tag) :
    ∀ f ∈ env, f.Within (Over tag V) :=
  fun f hf => (h f hf).mono fun _ hv => Or.inl hv

/-- Outside all blocks there is no frame. -/
theorem nil : ∀ f ∈ ([] : Frames α), f.Within V := fun _ hf => nomatch hf

end Frame.Within

/-! ## Operands -/

section Operands

variable {V : Value α → Prop} {n : Nat} {env : Frames α}

/-- A reference in range finds a value of the class. -/
theorem Operand.lookup_inRange (hV : Level V n) (henv : ∀ f ∈ env, f.Within V) {o : Operand α}
    (ho : o.InRange (env.map Frame.extent)) : ∃ v, o.lookup env = .ok v ∧ V v := by
  have hframe : ∀ {up : Nat} {s : Extent}, (env.map Frame.extent)[up]? = some s →
      ∃ f, env[up]? = some f ∧ f.extent = s := by
    intro up s hs
    rw [List.getElem?_map] at hs
    exact Option.map_eq_some_iff.mp hs
  cases o with
  | num x => exact ⟨.num x, rfl, hV.num x⟩
  | arg up index =>
    obtain ⟨s, hs, hlt⟩ := ho
    obtain ⟨f, hf, rfl⟩ := hframe hs
    have hat : f.args[index]? = some f.args[index] := List.getElem?_eq_getElem hlt
    refine ⟨f.args[index], ?_, (henv f (List.mem_of_getElem? hf)).args _ (List.getElem_mem hlt)⟩
    rw [lookup, hf, Option.bind_some, hat]
    rfl
  | result up index =>
    obtain ⟨s, hs, hlt⟩ := ho
    obtain ⟨f, hf, rfl⟩ := hframe hs
    have hat : f.results[index]? = some f.results[index] := List.getElem?_eq_getElem hlt
    refine ⟨f.results[index], ?_,
      (henv f (List.mem_of_getElem? hf)).results _ (List.getElem_mem hlt)⟩
    rw [lookup, hf, Option.bind_some, hat]
    rfl
  | _ => exact ho.elim

/-- References in range find values of the class. -/
theorem Operand.lookupAll_inRange (hV : Level V n) (henv : ∀ f ∈ env, f.Within V)
    {os : List (Operand α)} (hos : ∀ o ∈ os, o.InRange (env.map Frame.extent)) :
    ∃ vs, lookupAll env os = .ok vs ∧ vs.length = os.length ∧ ∀ v ∈ vs, V v := by
  induction os with
  | nil => exact ⟨[], rfl, rfl, fun v hv => nomatch hv⟩
  | cons o os ih =>
    obtain ⟨v, hv, hVv⟩ := lookup_inRange hV henv (hos o List.mem_cons_self)
    obtain ⟨vs, hvs, hlen, hVvs⟩ := ih fun o' ho' => hos o' (List.mem_cons_of_mem _ ho')
    refine ⟨v :: vs, ?_, ?_, List.forall_mem_cons.mpr ⟨hVv, hVvs⟩⟩
    · rw [lookupAll, hv, hvs]
    · rw [List.length_cons, List.length_cons, hlen]

end Operands

/-! ## Dialogues -/

variable [Scalar α]

mutual

/-- **A program whose references are in range has a safe dialogue.** -/
theorem Program.dialogue_safe {V : Value α → Prop} {k : Nat} (hV : Level V k) {env : Frames α}
    (henv : ∀ f ∈ env, f.Within V) {args : List (Value α)} (hargs : ∀ v ∈ args, V v) :
    ∀ {p : Program α}, p.InRange (env.map Frame.extent) args.length →
      (p.dialogue env args).Safe V V k
  | .block body ret, h => by
    rw [Program.dialogue]
    refine .bind (Block.dialogue_safe hV henv (.ofArgs hargs) h.1) fun n' _ frame hframe => ?_
    obtain ⟨hwithin, hextent⟩ := hframe
    have hret : ret.InRange ((frame :: env).map Frame.extent) := by
      rw [List.map_cons, hextent]
      exact h.2
    obtain ⟨v, hv, hVv⟩ :=
      Operand.lookup_inRange hV (List.forall_mem_cons.mpr ⟨hwithin, henv⟩) hret
    rw [hv]
    exact hVv
  | .jvp body seeds, h => by
    obtain ⟨vs, hvs, hlen, hVvs⟩ := Operand.lookupAll_inRange hV henv h.2
    rw [Program.dialogue, hvs]
    show Dialogue.Safe V V (if args.length = vs.length then _ else _) k
    split
    case isTrue hcount =>
      intro tag htag
      have hbody := Program.dialogue_safe (hV.extend htag) (Frame.Within.inside henv tag)
        (hV.over_zipWith htag hargs hVvs) (h.1.lifted hlen hcount tag)
      refine .bind (.forward hV htag hbody) fun n' _ result hresult => ?_
      exact .ofExcept (fun x hx => hV.of_tangentOf htag hresult hx)
        fun e => Value.regular_of_tangentOf
    case isFalse => exact Or.inl rfl

/-- Steps whose references are in range have a safe dialogue, and fill their frame. -/
theorem Block.dialogue_safe {V : Value α → Prop} {k : Nat} (hV : Level V k) {env : Frames α}
    (henv : ∀ f ∈ env, f.Within V) {frame : Frame α} (hframe : frame.Within V) :
    ∀ {b : Block α}, b.InRange (env.map Frame.extent) frame.extent →
      (b.dialogue env frame).Safe V (fun f => f.Within V ∧ f.extent = b.extent frame.extent) k
  | .done, _ => ⟨hframe, rfl⟩
  | .step first rest, h => by
    rw [Block.dialogue]
    refine .bind (Step.dialogue_safe hV (List.forall_mem_cons.mpr ⟨hframe, henv⟩) h.1)
      fun n' hn' v hv => ?_
    rw [Block.extent, ← Frame.extent_push frame v]
    exact (Block.dialogue_safe hV henv (hframe.push hv)
      (by rw [Frame.extent_push]; exact h.2)).mono hn'

/-- A step whose references are in range has a safe dialogue. -/
theorem Step.dialogue_safe {V : Value α → Prop} {k : Nat} (hV : Level V k) {env : Frames α}
    (henv : ∀ f ∈ env, f.Within V) :
    ∀ {s : Step α}, s.InRange (env.map Frame.extent) → (s.dialogue env).Safe V V k
  | .issue op operands, h => by
    obtain ⟨vs, hvs, -, hVvs⟩ := Operand.lookupAll_inRange hV henv h
    rw [Step.dialogue, hvs]
    exact ⟨hVvs, fun v hv => hv⟩
  | .call body operands, h => by
    obtain ⟨vs, hvs, hlen, hVvs⟩ := Operand.lookupAll_inRange hV henv h.2
    rw [Step.dialogue, hvs]
    exact Program.dialogue_safe hV henv hVvs (by rw [hlen]; exact h.1)
  | .loop count init body, h => by
    obtain ⟨v, hv, hVv⟩ := Operand.lookup_inRange hV henv h.1
    rw [Step.dialogue, hv]
    refine .iterate hV (fun n' hn' v w hv hw => ?_) count 0 hVv
    have hargs : ∀ u ∈ [v, w], V u :=
      List.forall_mem_cons.mpr ⟨hv, List.forall_mem_singleton.mpr hw⟩
    exact (Program.dialogue_safe hV henv hargs h.2).mono hn'

end

end DualTrace
