/-
# Straight-line programs and the depth of their derivatives

A straight-line program issues instructions one after the other and returns an operand.  How often
it can be differentiated depends only on where this operand comes from.  The result of an operation
is a dual number of every instance around it.  An argument is a dual number of the innermost
instance alone, with the seed, a number, as tangent, and so is an alias of a number, with tangent
zero.  A number has no tangent at all.

* `StraightLine` : the programs, whose counts and references are right by construction;
* `Operand.Computed` : operands that are, behind aliases, the result of an operation;
* `Driver.Tracks` : drivers that keep results apart from what they are given;
* `Completion` : what a computation completes with, and what becomes of it in a derivative;
* `StraightLine.nest_succeeds_iff` : the nests of derivatives that succeed.

The induction over the steps is done once, under any driver that tracks what it answers.  Instances
of differentiation are such drivers, so the induction on the depth of a nest only looks at what the
body completes with.
-/
import DualTrace.Proofs.Progress
import DualTrace.Proofs.Range

namespace DualTrace

variable {σ α : Type}

/-! ## Programs -/

/-- A straight-line program with `arity` arguments.  Its instructions have the right counts of
operands, and refer to numbers, arguments and earlier results. -/
structure StraightLine (α : Type) (arity : Nat) where
  steps : List (Instruction (Operand α))
  ret : Operand α
  counts : ∀ i ∈ steps, i.args.length = i.op.arity
  inRange : ∀ (j : Nat) (i : Instruction (Operand α)), steps[j]? = some i →
    ∀ o ∈ i.args, o.InRange [⟨arity, j⟩]
  returns : ret.InRange [⟨arity, steps.length⟩]

/-- The step that issues an instruction. -/
def Instruction.step (i : Instruction (Operand α)) : Step α := .issue i.op i.args

/-- A straight-line program as a program. -/
def StraightLine.program {arity : Nat} (p : StraightLine α arity) : Program α :=
  .block (.ofList (p.steps.map Instruction.step)) p.ret

/-- A straight-line program as a computation. -/
def StraightLine.computation [Scalar α] {arity : Nat} (p : StraightLine α arity) : Computation α :=
  p.program.computation

/-- The operand, followed back through identities, is the result of an operation. -/
inductive Operand.Computed (steps : List (Instruction (Operand α))) : Operand α → Prop
  | operation {j : Nat} {i : Instruction (Operand α)} (hi : steps[j]? = some i) (hop : i.op ≠ .id) :
    Computed steps (.result 0 j)
  | relay {j : Nat} {o : Operand α} (hi : steps[j]? = some ⟨.id, [o]⟩) (ho : o.Computed steps) :
    Computed steps (.result 0 j)

/-- An alias is computed exactly if its operand is. -/
theorem Operand.computed_alias {steps : List (Instruction (Operand α))} {j : Nat} {o : Operand α}
    (hi : steps[j]? = some ⟨.id, [o]⟩) : (result 0 j).Computed steps ↔ o.Computed steps := by
  constructor
  · intro h
    cases h with
    | operation hi' hop =>
      rw [hi] at hi'
      cases hi'
      exact absurd rfl hop
    | relay hi' ho =>
      rw [hi] at hi'
      cases hi'
      exact ho
  · exact .relay hi

/-! ## Drivers that track what they answer -/

/-- A driver that answers within the class `V`, and keeps the class `R` of results apart from the
class `G` of what it is given.  Operations have results.  The identity of a result is a result, and
that of a given value or of a number is a given value. -/
structure Driver.Tracks (d : Driver σ α) (V R G : Value α → Prop) : Prop where
  answers : d.Answers V
  result_mem : ∀ v, R v → V v
  given_mem : ∀ v, G v → V v
  computes : ∀ i : Instruction (Value α), i.op ≠ .id → (∀ v ∈ i.args, V v) → Run.Gives R (d i)
  relays : ∀ v, R v → Run.Gives R (d ⟨.id, [v]⟩)
  adopts : ∀ v, G v ∨ v.IsNum → Run.Gives G (d ⟨.id, [v]⟩)

section Drivers

variable [Scalar α]

/-- Direct evaluation makes no difference between numbers. -/
theorem Driver.tracks_direct :
    (Driver.direct : Driver σ α).Tracks Value.IsNum Value.IsNum Value.IsNum where
  answers := answers_direct
  result_mem _ hv := hv
  given_mem _ hv := hv
  computes i _ _ := direct_gives (fun _ => True.intro) i
  relays _ _ := direct_gives (fun _ => True.intro) _
  adopts _ _ := direct_gives (fun _ => True.intro) _

namespace Driver.Tracks

variable {d : Driver σ α} {V R G : Value α → Prop}

/-- Both parts of what an instance computes are results of the driver around it. -/
theorem forward_computes (h : d.Tracks V R G) (hnum : ∀ x, V (.num x)) (tag : Tag)
    {i : Instruction (Value α)} (hop : i.op ≠ .id) (hargs : ∀ v ∈ i.args, v.Within tag V) :
    Run.Gives (Value.Paired tag R R) (d.forward tag i) := by
  have hprimal : ∀ v ∈ i.args, V (v.primalFor tag) := fun v hv => (hargs v hv).primalFor hnum
  have htangent : ∀ v ∈ i.args, V (v.tangentFor tag) := fun v hv => (hargs v hv).tangentFor hnum
  have hbinary : ∀ {op : Op} {v w : Value α}, op ≠ .id → V v → V w →
      Run.Gives R (d ⟨op, [v, w]⟩) := fun hop hv hw =>
    h.computes _ hop (List.forall_mem_cons.mpr ⟨hv, List.forall_mem_singleton.mpr hw⟩)
  have hternary : ∀ {op : Op} {u v w : Value α}, op ≠ .id → V u → V v → V w →
      Run.Gives R (d ⟨op, [u, v, w]⟩) := fun hop hu hv hw =>
    h.computes _ hop (List.forall_mem_cons.mpr
      ⟨hu, List.forall_mem_cons.mpr ⟨hv, List.forall_mem_singleton.mpr hw⟩⟩)
  unfold Driver.forward
  refine .bind (.trivial _) fun _ _ => ?_
  split
  · rename_i x y _ hlist
    simp only [hlist, List.forall_mem_cons] at hprimal htangent
    exact .bind (hbinary nofun hprimal.1 hprimal.2.1) fun p hp =>
      .bind (hbinary nofun htangent.1 htangent.2.1) fun t ht => .pure (.dual hp ht)
  · rename_i x y _ hlist
    simp only [hlist, List.forall_mem_cons] at hprimal htangent
    exact .bind (hbinary nofun hprimal.1 hprimal.2.1) fun p hp =>
      .bind (hbinary nofun hprimal.1 htangent.2.1) fun l hl =>
      .bind (hbinary nofun hprimal.2.1 htangent.1) fun r hr =>
      .bind (hbinary nofun (h.result_mem l hl) (h.result_mem r hr)) fun t ht =>
        .pure (.dual hp ht)
  · rename_i c x y _ hlist
    simp only [hlist, List.forall_mem_cons] at hprimal htangent
    exact .bind (hternary nofun hprimal.1 hprimal.2.1 hprimal.2.2.1) fun p hp =>
      .bind (hternary nofun htangent.1 htangent.2.1 htangent.2.2.1) fun t ht =>
        .pure (.dual hp ht)
  · exact absurd ‹_› hop
  · exact .throw _

/-- **An instance tracks what the driver around it tracks.**  Results are dual numbers of results.
What it is given are dual numbers whose tangent is a number. -/
theorem forward (h : d.Tracks V R G) {n : Nat} (hV : Level V n) (tag : Tag) :
    (d.forward tag).Tracks (Value.Within tag V) (Value.Paired tag R R)
      (Value.Paired tag V Value.IsNum) where
  answers := h.answers.forward hV.num tag
  result_mem _ hv := hv.within h.result_mem h.result_mem
  given_mem _ hv := hv.within (fun _ hp => hp) hV.of_isNum
  computes _ hop hargs := h.forward_computes hV.num tag hop hargs
  relays v hv := by
    cases hv with
    | dual hp ht =>
      exact .pure (by rw [Value.lift_dual_self]; exact .dual hp ht)
  adopts v hv := by
    refine .pure ?_
    rcases hv with ⟨hp, ht⟩ | hv
    · rw [Value.lift_dual_self]
      exact .dual hp ht
    · obtain ⟨x, rfl⟩ := hv.exists_num
      exact .dual (hV.num x) True.intro

end Driver.Tracks

end Drivers

/-! ## Runs of the steps -/

/-- The frame of a straight-line program, as far as it got: its arguments are given, and each result
is tracked according to where it comes from. -/
structure Frame.Tracked (steps : List (Instruction (Operand α))) (R G : Value α → Prop)
    (f : Frame α) : Prop where
  args : ∀ v ∈ f.args, G v
  computed : ∀ {j v}, f.results[j]? = some v → (Operand.result 0 j).Computed steps → R v
  other : ∀ {j v}, f.results[j]? = some v → ¬ (Operand.result 0 j).Computed steps → G v

namespace Frame.Tracked

variable {steps : List (Instruction (Operand α))} {V R G : Value α → Prop} {n : Nat} {f : Frame α}
  {d : Driver σ α}

/-- Such a frame holds values that the driver deals with. -/
theorem within (hf : f.Tracked steps R G) (hd : d.Tracks V R G) : f.Within V where
  args v hv := hd.given_mem v (hf.args v hv)
  results v hv := by
    obtain ⟨j, hj⟩ := List.mem_iff_getElem?.mp hv
    by_cases hc : (Operand.result 0 j).Computed steps
    · exact hd.result_mem v (hf.computed hj hc)
    · exact hd.given_mem v (hf.other hj hc)

/-- A computed operand has a result as its value. -/
theorem lookup_computed (hf : f.Tracked steps R G) {o : Operand α} {v : Value α}
    (ho : o.lookup [f] = .ok v) (hc : o.Computed steps) : R v := by
  obtain ⟨j, rfl⟩ : ∃ j, o = .result 0 j := by
    cases hc with
    | operation => exact ⟨_, rfl⟩
    | relay => exact ⟨_, rfl⟩
  exact hf.computed (Operand.found_eq_ok.mp ho) hc

/-- Any other operand is a number, or has a given value. -/
theorem lookup_other (hf : f.Tracked steps R G) {o : Operand α} {v : Value α}
    (hrange : o.InRange [f.extent]) (ho : o.lookup [f] = .ok v) (hc : ¬ o.Computed steps) :
    (∃ x, o = .num x ∧ v = .num x) ∨ G v := by
  have hlocal : ∀ {up : Nat} {s : Extent}, [f.extent][up]? = some s → up = 0 := by
    intro up s hs
    have hlt := (List.getElem?_eq_some_iff.mp hs).1
    rw [List.length_singleton] at hlt
    omega
  cases o with
  | num x =>
    cases ho
    exact Or.inl ⟨x, rfl, rfl⟩
  | arg up index =>
    obtain ⟨s, hs, -⟩ := hrange
    obtain rfl := hlocal hs
    exact Or.inr (hf.args v (List.mem_of_getElem? (Operand.found_eq_ok.mp ho)))
  | result up index =>
    obtain ⟨s, hs, -⟩ := hrange
    obtain rfl := hlocal hs
    exact Or.inr (hf.other (Operand.found_eq_ok.mp ho) hc)
  | _ => exact hrange.elim

/-- A frame in which no step has run holds the arguments. -/
theorem ofArgs {args : List (Value α)} (hargs : ∀ v ∈ args, G v) :
    (⟨args, []⟩ : Frame α).Tracked steps R G where
  args := hargs
  computed hv := nomatch hv
  other hv := nomatch hv

theorem push (hf : f.Tracked steps R G) {v : Value α}
    (hcomputed : (Operand.result 0 f.results.length).Computed steps → R v)
    (hother : ¬ (Operand.result 0 f.results.length).Computed steps → G v) :
    (f.push v).Tracked steps R G := by
  have hresult : ∀ {j w}, (f.push v).results[j]? = some w →
      f.results[j]? = some w ∨ j = f.results.length ∧ w = v := by
    intro j w hw
    rcases Nat.lt_trichotomy j f.results.length with hlt | rfl | hgt
    · exact Or.inl ((List.getElem?_append_left hlt).symm.trans hw)
    · exact Or.inr ⟨rfl, Option.some.inj (hw.symm.trans List.getElem?_concat_length)⟩
    · have hlt := (List.getElem?_eq_some_iff.mp hw).1
      have hlen : (f.push v).results.length = f.results.length + 1 := List.length_append
      omega
  refine ⟨hf.args, fun hw hc => ?_, fun hw hc => ?_⟩
  · rcases hresult hw with hw | ⟨rfl, rfl⟩
    · exact hf.computed hw hc
    · exact hcomputed hc
  · rcases hresult hw with hw | ⟨rfl, rfl⟩
    · exact hf.other hw hc
    · exact hother hc

/-- An alias is tracked as its operand is. -/
theorem push_alias (hf : f.Tracked steps R G) (hd : d.Tracks V R G) {o : Operand α}
    (hi : steps[f.results.length]? = some ⟨.id, [o]⟩) (hrange : o.InRange [f.extent])
    {v w : Value α} (ho : o.lookup [f] = .ok w) {m m' : Machine σ α}
    (hrun : d ⟨.id, [w]⟩ m = .ok v m') : (f.push v).Tracked steps R G := by
  have hiff := Operand.computed_alias hi
  refine hf.push (fun hc => ?_) fun hc => ?_
  · exact hd.relays w (hf.lookup_computed ho (hiff.mp hc)) m v m' hrun
  · refine hd.adopts w ?_ m v m' hrun
    rcases hf.lookup_other hrange ho (mt hiff.mpr hc) with ⟨x, -, rfl⟩ | hG
    · exact Or.inr True.intro
    · exact Or.inl hG

variable [Scalar α]

/-- **One step.**  The next instruction is answered, and its result is tracked. -/
theorem step (hf : f.Tracked steps R G) (hd : d.Tracks V R G) (hV : Level V n)
    {i : Instruction (Operand α)} (hi : steps[f.results.length]? = some i)
    (hcount : i.args.length = i.op.arity) (hrange : ∀ o ∈ i.args, o.InRange [f.extent])
    (m : Machine σ α) :
    ∃ v m', i.step.run d [f] m = .ok v m' ∧ (f.push v).Tracked steps R G := by
  obtain ⟨vs, hvs, hlen, hVvs⟩ :=
    Operand.lookupAll_inRange hV (List.forall_mem_singleton.mpr (hf.within hd)) hrange
  obtain ⟨v, m', hrun, -⟩ := hd.answers ⟨i.op, vs⟩ (hlen.trans hcount) hVvs m
  have hstep : i.step.run d [f] m = .ok v m' := by
    rw [Instruction.step, Step.run, Operand.readAll_eq_lookupAll _ fun o ho => (hrange o ho).plain,
      hvs]
    exact hrun
  refine ⟨v, m', hstep, ?_⟩
  by_cases hop : i.op = .id
  · -- an alias: where its operand comes from decides
    obtain ⟨op, os⟩ := i
    obtain rfl : op = .id := hop
    obtain ⟨o, rfl⟩ := List.length_eq_one_iff.mp hcount
    obtain ⟨w, ws, hw, hws, rfl⟩ := List.forall₂_cons_left_iff.mp (Operand.lookupAll_eq_ok.mp hvs)
    obtain rfl := List.forall₂_nil_left_iff.mp hws
    exact hf.push_alias hd hi (hrange o List.mem_cons_self) hw hrun
  · -- an operation
    have hc : (Operand.result 0 f.results.length).Computed steps := .operation hi hop
    exact hf.push (fun _ => hd.computes _ hop hVvs m v m' hrun) fun hnot => absurd hc hnot

/-- **A run.**  All instructions are answered, and all results are tracked. -/
theorem run (hd : d.Tracks V R G) (hV : Level V n)
    (hcounts : ∀ i ∈ steps, i.args.length = i.op.arity) {args : List (Value α)}
    (hrange : ∀ (j : Nat) (i : Instruction (Operand α)), steps[j]? = some i →
      ∀ o ∈ i.args, o.InRange [⟨args.length, j⟩]) :
    ∀ (rest done : List (Instruction (Operand α))) (results : List (Value α)),
      steps = done ++ rest → results.length = done.length →
      (⟨args, results⟩ : Frame α).Tracked steps R G → ∀ m : Machine σ α,
      ∃ results' m', (Block.ofList (rest.map Instruction.step)).run d [] ⟨args, results⟩ m =
          .ok ⟨args, results'⟩ m' ∧ results'.length = steps.length ∧
        (⟨args, results'⟩ : Frame α).Tracked steps R G := by
  intro rest
  induction rest with
  | nil =>
    intro done results hsteps hlen hf m
    rw [List.append_nil] at hsteps
    exact ⟨results, m, rfl, by rw [hsteps, hlen], hf⟩
  | cons i rest ih =>
    intro done results hsteps hlen hf m
    have hi : steps[results.length]? = some i := by
      rw [hsteps, hlen, List.getElem?_append_right (Nat.le_refl _), Nat.sub_self]
      rfl
    obtain ⟨v, m₁, hstep, hpush⟩ := hf.step hd hV hi (hcounts i (List.mem_of_getElem? hi))
      (hrange _ i hi) m
    obtain ⟨results', m', hrun, hrest⟩ := ih (done ++ [i]) (results ++ [v])
      (by rw [hsteps, List.append_assoc]; rfl)
      (by rw [List.length_append, List.length_append, hlen]; rfl) hpush m₁
    refine ⟨results', m', ?_, hrest⟩
    rw [List.map_cons, Block.ofList, Block.run, Run.bind_apply, hstep]
    exact hrun

end Frame.Tracked

/-! ## Completions -/

/-- What a computation completes with. -/
inductive Completion where
  /-- The result of an operation. -/
  | computed
  /-- What it is given. -/
  | given
  /-- A number that is the same under every driver. -/
  | number
  /-- Nothing, for a broken rule of structure. -/
  | refused

namespace Completion

/-- What becomes of a completion in a derivative: the tangent of what an instance is given is a
number, and a number has none. -/
def tangent : Completion → Completion
  | computed => computed
  | given => number
  | number | refused => refused

theorem tangent_ne_refused {s : Completion} :
    s.tangent ≠ .refused ↔ s ≠ .refused ∧ s ≠ .number := by
  cases s <;> simp [tangent]

/-- Only a result is left after more than one derivative. -/
theorem iterate_tangent_ne_refused {s : Completion} {k : Nat} (hk : 2 ≤ k) :
    tangent^[k] s ≠ .refused ↔ s = .computed := by
  obtain ⟨k, rfl⟩ := Nat.exists_eq_add_of_le' hk
  rw [Function.iterate_add_apply]
  have hrefused : tangent^[k] refused = refused := Function.iterate_fixed rfl k
  cases s with
  | computed =>
    have hcomputed : tangent^[k] computed = computed := Function.iterate_fixed rfl k
    exact iff_of_true (fun h => nomatch hcomputed.symm.trans h) rfl
  | _ => exact iff_of_false (fun h => h hrefused) nofun

/-- The ways to end that a completion stands for. -/
def Ends (R G : Value α → Prop) : Completion → Except (Error α) (Value α) → Prop
  | computed, .ok v => R v
  | given, .ok v => G v
  | number, .ok v => v.IsNum
  | refused, .error e => e.kind = .invariant
  | _, _ => False

variable {s : Completion} {V R G : Value α → Prop}

/-- A derivative completes with the tangent, if there is one. -/
theorem Ends.tangentOf {tag : Tag} {x : Except (Error α) (Value α)}
    (h : s.Ends (Value.Paired tag R R) (Value.Paired tag V Value.IsNum) x) :
    s.tangent.Ends R G (x >>= Value.tangentOf tag) := by
  have hown : ∀ p t : Value α, (Except.ok (Value.dual tag p t) >>= Value.tangentOf tag) =
      (.ok t : Except (Error α) (Value α)) := fun _ _ => if_pos rfl
  cases x with
  | ok v =>
    cases s with
    | computed =>
      obtain ⟨-, ht⟩ := h
      rw [hown]
      exact ht
    | given =>
      obtain ⟨-, ht⟩ := h
      rw [hown]
      exact ht
    | number =>
      obtain ⟨x, rfl⟩ := Value.IsNum.exists_num h
      rfl
    | refused => exact h.elim
  | error e =>
    cases s with
    | refused => exact h
    | _ => exact h.elim

/-- Of numbers, it is refused or it gives a number. -/
theorem Ends.of_ok {v : Value α} (h : s.Ends Value.IsNum Value.IsNum (.ok v)) :
    v.IsNum ∧ s ≠ .refused := by
  cases s with
  | refused => exact h.elim
  | _ => exact ⟨h, nofun⟩

theorem Ends.of_error {e : Error α} (h : s.Ends R G (.error e)) :
    s = .refused ∧ e.kind = .invariant := by
  cases s with
  | refused => exact ⟨rfl, h⟩
  | _ => exact h.elim

end Completion

/-- A computation whose completion is `s` wherever it runs on given values. -/
def Computation.Completes (c : Computation α) (arity : Nat) (s : Completion) : Prop :=
  ∀ (σ : Type) (d : Driver σ α) (V R G : Value α → Prop) (n : Nat), Level V n → d.Tracks V R G →
    ∀ args : List (Value α), args.length = arity → (∀ v ∈ args, G v) →
      ∀ m : Machine σ α, n ≤ m.session.nextTag → s.Ends R G (Run.result (c.run d args) m)

namespace Computation.Completes

variable [Scalar α] {c : Computation α} {arity : Nat} {s : Completion}

/-- **A derivative completes with what is behind its body.** -/
theorem jvp (h : c.Completes arity s) {ts : List α} (hts : ts.length = arity) :
    (c.jvp (ts.map Value.num)).Completes arity s.tangent := by
  intro σ d V R G n hV hd args hlen hargs m hn
  have hseeds : args.length = (ts.map Value.num).length := by rw [List.length_map, hts, hlen]
  have hV' : ∀ v ∈ args, V v := fun v hv => hd.given_mem v (hargs v hv)
  have hlen' := (Value.length_zipWith_lift ⟨m.session.nextTag⟩ hseeds).trans hlen
  have hbody := h σ _ _ _ _ _ (hV.within hn) (hd.forward hV ⟨m.session.nextTag⟩) _ hlen'
    (hV.paired_zipWith hn hV' ts) { m with session := m.session.mintTag.2 } (Nat.le_refl _)
  rw [result_jvp c hseeds]
  exact hbody.tangentOf

/-- A nest of derivatives goes behind the completion of its body once for each of them. -/
theorem nest {seeds : List (List α)} : ∀ {c : Computation α} {s : Completion},
    c.Completes arity s → (∀ ts ∈ seeds, ts.length = arity) →
      (c.nest seeds).Completes arity (Completion.tangent^[seeds.length] s) := by
  induction seeds with
  | nil => intro c s h _; exact h
  | cons ts seeds ih =>
    intro c s h hseeds
    exact ih (h.jvp (hseeds ts List.mem_cons_self))
      fun ts' hts' => hseeds ts' (List.mem_cons_of_mem _ hts')

/-- Evaluated at numbers, it is refused or it gives a number. -/
theorem evaluate (h : c.Completes arity s) {xs : List α} (hxs : xs.length = arity)
    (m : Machine σ α) :
    ((∃ y, Run.result (c.evaluate xs) m = .ok y) ↔ s ≠ .refused) ∧
      ∀ e, Run.result (c.evaluate xs) m = .error e → e.kind = .invariant := by
  have hlen : (xs.map Value.num).length = arity := (List.length_map _).trans hxs
  have hends := h σ _ _ _ _ 0 Value.level_isNum Driver.tracks_direct _ hlen
    Value.isNum_of_mem_map m (Nat.zero_le _)
  unfold Computation.evaluate
  rw [Run.result_bind]
  unfold Run.result at hends
  cases hrun : c.run Driver.direct (xs.map Value.num) m with
  | ok v m' =>
    rw [hrun] at hends
    obtain ⟨hnum, hs⟩ := hends.of_ok
    obtain ⟨y, rfl⟩ := hnum.exists_num
    exact ⟨iff_of_true ⟨y, rfl⟩ hs, nofun⟩
  | error e m' =>
    rw [hrun] at hends
    obtain ⟨rfl, hkind⟩ := hends.of_error
    refine ⟨iff_of_false nofun fun hne => hne rfl, fun e' he' => ?_⟩
    cases he'
    exact hkind

end Computation.Completes

/-! ## Nests of derivatives -/

namespace StraightLine

variable {arity : Nat}

open Classical in
/-- What a straight-line program completes with, according to where its return operand comes
from. -/
noncomputable def completion (p : StraightLine α arity) : Completion :=
  if p.ret.Computed p.steps then .computed
  else if ∃ x, p.ret = .num x then .number
  else .given

theorem completion_eq_computed {p : StraightLine α arity} :
    p.completion = .computed ↔ p.ret.Computed p.steps := by
  unfold completion
  split_ifs with hc hnum <;> simp [hc]

theorem completion_eq_number {p : StraightLine α arity} :
    p.completion = .number ↔ ∃ x, p.ret = .num x := by
  unfold completion
  split_ifs with hc hnum
  · refine iff_of_false nofun ?_
    rintro ⟨x, hx⟩
    rw [hx] at hc
    cases hc
  · exact iff_of_true rfl hnum
  · exact iff_of_false nofun hnum

theorem completion_ne_refused (p : StraightLine α arity) : p.completion ≠ .refused := by
  unfold completion
  split_ifs <;> nofun

variable [Scalar α]

/-- A straight-line program runs to its end under every driver that tracks what it answers. -/
theorem completes (p : StraightLine α arity) : p.computation.Completes arity p.completion := by
  intro σ d V R G n hV hd args hlen hargs m _
  subst hlen
  obtain ⟨results, m', hrun, hlen', hf⟩ := Frame.Tracked.run hd hV p.counts p.inRange
    p.steps [] [] rfl rfl (.ofArgs hargs) m
  have hrange : p.ret.InRange [⟨args.length, results.length⟩] := hlen' ▸ p.returns
  obtain ⟨v, hv, -⟩ :=
    Operand.lookup_inRange hV (List.forall_mem_singleton.mpr (hf.within hd)) hrange
  have hresult : Run.result (p.computation.run d args) m = .ok v := by
    refine Run.result_eq_ok.mpr ⟨m', ?_⟩
    show p.program.run d [] args m = .ok v m'
    rw [program, Program.run, Run.bind_apply, hrun]
    show p.ret.read [⟨args, results⟩] m' = .ok v m'
    rw [Operand.read_eq_lookup _ hrange.plain, hv]
    rfl
  rw [hresult]
  unfold completion
  split_ifs with hc hnum
  · exact hf.lookup_computed hv hc
  · obtain ⟨x, hx⟩ := hnum
    rw [hx] at hv
    cases hv
    exact True.intro
  · rcases hf.lookup_other hrange hv hc with ⟨x, hx, -⟩ | hG
    · exact absurd ⟨x, hx⟩ hnum
    · exact hG

/-- **How often a straight-line program can be differentiated.**  One derivative succeeds at numbers
along numbers exactly if the program does not return a number.  A derivative of a derivative, and
every deeper nest, succeeds exactly if the program returns the result of an operation, perhaps
through aliases.  Whatever does not succeed breaks a rule of structure. -/
theorem nest_succeeds_iff (p : StraightLine α arity) {xs : List α} (hxs : xs.length = arity)
    (m : Machine σ α) :
    (∀ ts : List α, ts.length = arity →
      ((∃ y, Run.result ((p.computation.jvp (ts.map Value.num)).evaluate xs) m = .ok y) ↔
        ∀ x, p.ret ≠ .num x)) ∧
    ∀ seeds : List (List α), (∀ ts ∈ seeds, ts.length = arity) →
      (2 ≤ seeds.length →
        ((∃ y, Run.result ((p.computation.nest seeds).evaluate xs) m = .ok y) ↔
          p.ret.Computed p.steps)) ∧
      ∀ e, Run.result ((p.computation.nest seeds).evaluate xs) m = .error e →
        e.kind = .invariant := by
  refine ⟨fun ts hts => ?_, fun seeds hseeds => ⟨fun hdepth => ?_, ?_⟩⟩
  · rw [((p.completes.jvp hts).evaluate hxs m).1, Completion.tangent_ne_refused,
      ← not_exists, ← completion_eq_number]
    exact ⟨And.right, fun h => ⟨p.completion_ne_refused, h⟩⟩
  · rw [((p.completes.nest hseeds).evaluate hxs m).1, Completion.iterate_tangent_ne_refused hdepth,
      completion_eq_computed]
  · exact ((p.completes.nest hseeds).evaluate hxs m).2

end StraightLine

/-- The program of `x` that squares it, and then takes up both the square and `x` again.  It returns
the result of one of these steps. -/
def relayedSquare (step : Fin 3) : StraightLine Int 1 where
  steps := [⟨.mul, [.arg 0 0, .arg 0 0]⟩, ⟨.id, [.result 0 0]⟩, ⟨.id, [.arg 0 0]⟩]
  ret := .result 0 step
  counts := by decide
  inRange
    | 0, _, rfl, o, ho => by
      simp only [List.mem_cons, List.not_mem_nil, or_false, or_self] at ho
      exact ho ▸ ⟨_, rfl, Nat.one_pos⟩
    | 1, _, rfl, o, ho => List.mem_singleton.mp ho ▸ ⟨_, rfl, Nat.one_pos⟩
    | 2, _, rfl, o, ho => List.mem_singleton.mp ho ▸ ⟨_, rfl, Nat.one_pos⟩
  returns := ⟨_, rfl, step.isLt⟩

/-- The square has a second derivative.  What returns its argument has a first derivative only. -/
theorem StraightLine.nest_succeeds_iff_relayedSquare :
    Run.result (((relayedSquare 1).computation.nest [[1], [1]]).evaluate [3])
        (⟨(), {}⟩ : Machine Unit Int) = .ok 2 ∧
      (relayedSquare 1).ret.Computed (relayedSquare 1).steps ∧
      (∃ y, Run.result (((relayedSquare 2).computation.jvp [.num 1]).evaluate [3])
        (⟨(), {}⟩ : Machine Unit Int) = .ok y) ∧
      Run.result (((relayedSquare 2).computation.nest [[1], [1]]).evaluate [3])
        (⟨(), {}⟩ : Machine Unit Int) = .error (.plainResult ⟨0⟩ (.num 1)) ∧
      ¬ (relayedSquare 2).ret.Computed (relayedSquare 2).steps := by
  have hseeds : ∀ ts ∈ [[(1 : Int)], [1]], ts.length = 1 := by decide
  have hx : [(3 : Int)].length = 1 := rfl
  have hsquare := nest_succeeds_iff (relayedSquare 1) hx (⟨(), {}⟩ : Machine Unit Int)
  have hsame := nest_succeeds_iff (relayedSquare 2) hx (⟨(), {}⟩ : Machine Unit Int)
  refine ⟨rfl, ?_, ?_, rfl, fun hc => ?_⟩
  · exact ((hsquare.2 [[1], [1]] hseeds).1 (by decide)).mp ⟨2, rfl⟩
  · exact (hsame.1 [1] rfl).mpr fun x => nofun
  · obtain ⟨y, hy⟩ := ((hsame.2 [[1], [1]] hseeds).1 (by decide)).mpr hc
    cases hy

end DualTrace
