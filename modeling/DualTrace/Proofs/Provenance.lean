/-
# Where registers come from

A computation that works with numbers, its arguments and the answers to its instructions mentions no
register that it has not been given.  This is said of the negotiations that it holds, and it stays
true when the computation is differentiated.

* `Value.registers` : the registers in a value, those inside a dual number included;
* `Negotiation.Grounded` : a negotiation that mentions only registers it knows by then;
* `Computation.Grounded` : a computation that holds such negotiations when it knows its arguments;
* `Computation.Grounded.jvp` : the derivatives of such a computation are no exception;
* `Trace.grounded_computation` : neither is a trace that is replayed;
* `Program.grounded_computation` : neither is any program with plain operands that keeps nothing
  under a name, also if it catches errors or lets dual numbers out.
-/
import DualTrace.Proofs.Check
import DualTrace.Proofs.Negotiation

namespace DualTrace

variable {σ α β γ : Type}

/-! ## Registers in values -/

namespace Value

/-- The registers in a value. -/
def registers : Value α → List Register
  | num _ => []
  | reg r => [r]
  | dual _ primal tangent => primal.registers ++ tangent.registers

/-- A primal mentions no further register. -/
theorem registers_primalFor_subset (tag : Tag) (v : Value α) :
    (v.primalFor tag).registers ⊆ v.registers := by
  cases v with
  | num x => exact List.Subset.refl _
  | reg r => exact List.Subset.refl _
  | dual owner p t =>
    by_cases h : owner = tag
    · rw [primalFor, if_pos h]
      exact List.subset_append_left _ _
    · rw [primalFor, if_neg h]
      exact List.Subset.refl _

/-- A tangent mentions no further register. -/
theorem registers_tangentFor_subset [Scalar α] (tag : Tag) (v : Value α) :
    (v.tangentFor tag).registers ⊆ v.registers := by
  cases v with
  | num x => exact List.nil_subset _
  | reg r => exact List.nil_subset _
  | dual owner p t =>
    by_cases h : owner = tag
    · rw [tangentFor, if_pos h]
      exact List.subset_append_right _ _
    · rw [tangentFor, if_neg h]
      exact List.nil_subset _

/-- A lifted value mentions no register besides those of the value and the tangent. -/
theorem registers_lift_subset (tag : Tag) (v tangent : Value α) :
    (v.lift tag tangent).registers ⊆ v.registers ++ tangent.registers := by
  cases v with
  | num x => exact List.Subset.refl _
  | reg r => exact List.Subset.refl _
  | dual owner p t =>
    by_cases h : owner = tag
    · rw [lift, if_pos h]
      exact List.subset_append_left _ _
    · rw [lift, if_neg h]
      exact List.Subset.refl _

/-- The tangent of a completion value mentions no further register. -/
theorem registers_subset_of_tangentOf {tag : Tag} {v w : Value α} (h : v.tangentOf tag = .ok w) :
    w.registers ⊆ v.registers := by
  cases v with
  | num x => cases h
  | reg r => cases h
  | dual owner p t =>
    by_cases howner : owner = tag
    · rw [tangentOf, if_pos howner] at h
      cases h
      exact List.subset_append_right _ _
    · rw [tangentOf, if_neg howner] at h
      cases h

/-- Lifted arguments mention no registers besides those of the arguments and the seeds. -/
theorem registers_liftAll_subset {known : List Register} (tag : Tag) :
    ∀ {args seeds : List (Value α)}, args.flatMap registers ⊆ known →
      seeds.flatMap registers ⊆ known → (liftAll tag args seeds).flatMap registers ⊆ known
  | [], _, _, _ => List.nil_subset _
  | _ :: _, [], hargs, _ => hargs
  | v :: vs, seed :: seeds, hargs, hseeds => by
    rw [List.flatMap_cons, List.append_subset] at hargs hseeds
    rw [liftAll, List.flatMap_cons, List.append_subset]
    refine ⟨List.Subset.trans (registers_lift_subset tag v seed) ?_,
      registers_liftAll_subset tag hargs.2 hseeds.2⟩
    exact List.append_subset.mpr ⟨hargs.1, hseeds.1⟩

end Value

/-! ## Grounded negotiations -/

namespace Negotiation

/-- The registers that an outcome tells of, if its value tells of the registers `regs`. -/
def heard (regs : β → List Register) : Except (Error α) β → List Register
  | .ok b => regs b
  | .error _ => []

/-- A negotiation that asks only with registers that it knows, at first those of `known` and then
also those it hears of in the answers, and ends with something that mentions no others. -/
inductive Grounded (regs : β → List Register) : List Register → Negotiation α β → Prop
  | done {known : List Register} {b : β} (h : regs b ⊆ known) : Grounded regs known (done b)
  | fail {known : List Register} (e : Error α) : Grounded regs known (fail e)
  | ask {known : List Register} {i : Instruction (Value α)}
      {next : Except (Error α) (Value α) → Negotiation α β}
      (hargs : i.args.flatMap Value.registers ⊆ known)
      (hnext : ∀ answer, Grounded regs (heard Value.registers answer ++ known) (next answer)) :
      Grounded regs known (ask i next)
  | mint {known : List Register} {next : Tag → Negotiation α β}
      (hnext : ∀ tag, Grounded regs known (next tag)) : Grounded regs known (mint next)

namespace Grounded

variable {regs : β → List Register} {regs' : γ → List Register} {known known' : List Register}
  {x : Negotiation α β}

/-- It does no harm to know more registers. -/
theorem mono (h : Grounded regs known x) (hsub : known ⊆ known') : Grounded regs known' x := by
  induction h generalizing known' with
  | done h => exact .done (List.Subset.trans h hsub)
  | fail e => exact .fail e
  | ask hargs _ ih =>
    refine .ask (List.Subset.trans hargs hsub) fun answer => ih answer ?_
    exact List.append_subset.mpr ⟨List.subset_append_left _ _,
      List.Subset.trans hsub (List.subset_append_right _ _)⟩
  | mint _ ih => exact .mint fun tag => ih tag hsub

/-- A negotiation is followed by another one, which knows what the first one ends with. -/
theorem bind {f : β → Negotiation α γ} (hx : Grounded regs known x)
    (hf : ∀ known' b, known ⊆ known' → regs b ⊆ known' → Grounded regs' known' (f b)) :
    Grounded regs' known (x.bind f) := by
  induction hx with
  | done h => exact hf _ _ (List.Subset.refl _) h
  | fail e => exact .fail e
  | ask hargs _ ih =>
    refine .ask hargs fun answer => ih answer fun known' b hsub hb => hf known' b ?_ hb
    exact List.Subset.trans (List.subset_append_right _ _) hsub
  | mint _ ih => exact .mint fun tag => ih tag hf

/-- Nothing is learned from an error that is caught. -/
theorem attempt (h : Grounded regs known x) : Grounded (heard regs) known x.attempt := by
  induction h with
  | done h => exact .done h
  | fail e => exact .done (List.nil_subset _)
  | ask hargs _ ih => exact .ask hargs ih
  | mint _ ih => exact .mint ih

theorem ofExcept {outcome : Except (Error α) β} (h : ∀ b, outcome = .ok b → regs b ⊆ known) :
    Grounded regs known (ofExcept outcome) := by
  cases outcome with
  | ok b => exact .done (h b rfl)
  | error e => exact .fail e

theorem orElse {y : Negotiation α β} (hx : Grounded regs known x) (hy : Grounded regs known y) :
    Grounded regs known (x.orElse y) := by
  refine hx.attempt.bind fun known' outcome hsub houtcome => ?_
  cases outcome with
  | ok b => exact .done houtcome
  | error e => exact hy.mono hsub

/-- The turns of a loop. -/
theorem iterate [NatCast α] {body : List (Value α) → Negotiation α (Value α)}
    (hbody : ∀ known' args, known ⊆ known' → args.flatMap Value.registers ⊆ known' →
      Grounded Value.registers known' (body args)) :
    ∀ (count turn : Nat) {known' : List Register} {v : Value α}, known ⊆ known' →
      v.registers ⊆ known' →
      Grounded Value.registers known' (iterate body count turn v)
  | 0, _, _, _, _, hv => .done hv
  | count + 1, turn, known', v, hsub, hv => by
    refine (hbody known' _ hsub ?_).bind fun known'' w hsub' hw =>
      iterate hbody count (turn + 1) (List.Subset.trans hsub hsub') hw
    simpa [Value.registers] using hv

/-- A dialogue that asks is a negotiation that asks. -/
theorem ofDialogue_ask {i : Instruction (Value α)} {next : Value α → Dialogue α β}
    (hargs : i.args.flatMap Value.registers ⊆ known)
    (hnext : ∀ v, Grounded regs (v.registers ++ known) (ofDialogue (next v))) :
    Grounded regs known (ofDialogue (.ask i next)) := by
  rw [ofDialogue]
  refine .ask hargs fun answer => ?_
  cases answer with
  | ok v => exact hnext v
  | error e => exact .fail e

variable [Scalar α]

/-- The rules of differentiation ask with parts of the operands and of the answers. -/
theorem derive (tag : Tag) {i : Instruction (Value α)}
    (h : i.args.flatMap Value.registers ⊆ known) :
    Grounded Value.registers known (ofDialogue (.derive tag i)) := by
  have hprimal : ∀ {v : Value α}, v.registers ⊆ known → (v.primalFor tag).registers ⊆ known :=
    List.Subset.trans (Value.registers_primalFor_subset tag _)
  have htangent : ∀ {v : Value α}, v.registers ⊆ known → (v.tangentFor tag).registers ⊆ known :=
    List.Subset.trans (Value.registers_tangentFor_subset tag _)
  unfold Dialogue.derive
  cases i.checkArity with
  | error e => exact .fail e
  | ok _ =>
    simp only [Dialogue.ofExcept, Dialogue.bind]
    -- in each rule, the first instructions ask with parts of the operands only
    split
    · rename_i x y _ hargs
      rw [hargs, List.flatMap_cons, List.flatMap_singleton, List.append_subset] at h
      refine ofDialogue_ask ?_ fun primal => ofDialogue_ask ?_ fun tangent => .done ?_
      · simp [hprimal h.1, hprimal h.2]
      · simp [htangent h.1, htangent h.2]
      · simp [Value.registers]
    · rename_i x y _ hargs
      rw [hargs, List.flatMap_cons, List.flatMap_singleton, List.append_subset] at h
      refine ofDialogue_ask ?_ fun primal => ofDialogue_ask ?_ fun left =>
        ofDialogue_ask ?_ fun right => ofDialogue_ask ?_ fun tangent => .done ?_
      · simp [hprimal h.1, hprimal h.2]
      · simp [hprimal h.1, htangent h.2]
      · simp [hprimal h.2, htangent h.1]
      · simp
      · grind [Value.registers]
    · rename_i c x y _ hargs
      rw [hargs, List.flatMap_cons, List.flatMap_cons, List.flatMap_singleton,
        List.append_subset, List.append_subset] at h
      refine ofDialogue_ask ?_ fun primal => ofDialogue_ask ?_ fun tangent => .done ?_
      · simp [hprimal h.1, hprimal h.2.1, hprimal h.2.2]
      · simp [htangent h.1, htangent h.2.1, htangent h.2.2]
      · simp [Value.registers]
    · rename_i x _ hargs
      rw [hargs, List.flatMap_singleton] at h
      refine .done (List.Subset.trans (Value.registers_lift_subset tag x _) ?_)
      simpa [Value.registers] using h
    · exact .fail _

/-- An instance of differentiation asks the driver behind it with no other registers. -/
theorem forward (tag : Tag) (h : Grounded regs known x) :
    Grounded regs known (x.forward tag) := by
  induction h with
  | done h => exact .done h
  | fail e => exact .fail e
  | ask hargs _ ih =>
    refine (derive tag hargs).attempt.bind fun known' answer hsub hanswer => (ih answer).mono ?_
    exact List.append_subset.mpr ⟨hanswer, hsub⟩
  | mint _ ih => exact .mint ih

/-- A drive on dual numbers asks the driver behind it with the registers of its arguments and of
the answers. -/
theorem drive {body : List (Value α) → Negotiation α (Value α)} {lifted : Tag → List (Value α)}
    {close : Tag → Value α → Except (Error α) (Value α)}
    (hbody : ∀ tag, Grounded Value.registers known (body (lifted tag)))
    (hclose : ∀ tag v w, close tag v = .ok w → w.registers ⊆ v.registers) :
    Grounded Value.registers known (drive body lifted close) := by
  refine .mint fun tag => ((hbody tag).forward tag).bind fun known' v _ hv => ?_
  exact .ofExcept fun w hw => List.Subset.trans (hclose tag v w hw) hv

/-- A derivative asks with the registers of its arguments and seeds, and of the answers. -/
theorem jvp {body : List (Value α) → Negotiation α (Value α)} {seeds args : List (Value α)}
    (hbody : ∀ args, args.flatMap Value.registers ⊆ known →
      Grounded Value.registers known (body args))
    (hseeds : seeds.flatMap Value.registers ⊆ known)
    (hargs : args.flatMap Value.registers ⊆ known) :
    Grounded Value.registers known (jvp body seeds args) := by
  unfold Negotiation.jvp
  split
  · exact drive (fun tag => hbody _ (Value.registers_liftAll_subset tag hargs hseeds))
      fun _ _ _ => Value.registers_subset_of_tangentOf
  · exact .fail _

end Grounded

end Negotiation

/-! ## Grounded computations -/

/-- A computation that works with numbers, its arguments and the answers to its instructions: all it
does is to negotiate, and in doing so it mentions only registers that it has been given. -/
def Computation.Grounded (c : Computation α) : Prop :=
  ∃ body, c.Follows body ∧
    ∀ args, (body args).Grounded Value.registers (args.flatMap Value.registers)

/-- **The derivatives of a grounded computation are grounded.** -/
theorem Computation.Grounded.jvp [Scalar α] {c : Computation α} (h : c.Grounded)
    {seeds : List (Value α)} (hseeds : seeds.flatMap Value.registers = []) :
    (c.jvp seeds).Grounded := by
  obtain ⟨body, hfollows, hbody⟩ := h
  refine ⟨_, hfollows.jvp seeds, fun args => .jvp (fun args' hargs' => ?_) ?_ ?_⟩
  · exact (hbody args').mono hargs'
  · rw [hseeds]
    exact List.nil_subset _
  · exact List.Subset.refl _

/-! ## Traces -/

section Traces

variable {known : List Register} {env : Bindings α}

/-- The registers in the values of bindings. -/
def Bindings.registers (env : Bindings α) : List Register :=
  env.flatMap fun p => p.2.registers

/-- A value that is bound mentions only registers of the bindings. -/
theorem Bindings.registers_subset_of_value (henv : env.registers ⊆ known) {a : Atom α}
    {v : Value α} (h : env.value a = .ok v) : v.registers ⊆ known := by
  cases a with
  | lit x =>
    cases h
    exact List.nil_subset _
  | reg r =>
    rw [value] at h
    cases hr : env.lookup r with
    | none => simp [hr] at h
    | some w =>
      simp only [hr, Except.ok.injEq] at h
      subst h
      obtain ⟨pre, post, rfl, -⟩ := List.lookup_eq_some_iff.mp hr
      exact fun s hs => henv
        (List.mem_flatMap.mpr ⟨(r, w), List.mem_append_right pre List.mem_cons_self, hs⟩)

/-- A replay asks with the registers of its bindings and of the answers. -/
theorem Trace.grounded_replayNegotiation (es : List (Equation α)) :
    ∀ {known : List Register} {env : Bindings α}, env.registers ⊆ known →
      (replayNegotiation env es).Grounded Bindings.registers known := by
  induction es with
  | nil => exact fun henv => .done henv
  | cons e es ih =>
    intro known env henv
    rw [replayNegotiation]
    cases hi : e.rhs.mapM env.value with
    | error error => exact .fail error
    | ok i =>
      refine .ask ?_ fun answer => ?_
      · obtain ⟨vs, hvs, hi⟩ := Check.bind_eq_ok.mp hi
        cases hi
        intro r hr
        obtain ⟨v, hv, hr⟩ := List.mem_flatMap.mp hr
        obtain ⟨a, -, ha⟩ := Check.exists_of_mapM_eq_ok hvs hv
        exact Bindings.registers_subset_of_value henv ha hr
      · cases answer with
        | ok v =>
          refine ih (List.append_subset.mpr ⟨List.subset_append_left _ _, ?_⟩)
          exact List.Subset.trans henv (List.subset_append_right _ _)
        | error error => exact .fail error

/-- **A trace is a grounded computation**, well formed or not. -/
theorem Trace.grounded_computation (t : Trace α) : t.computation.Grounded := by
  refine ⟨t.negotiation, t.follows_negotiation, fun args => ?_⟩
  have hbind : (t.bind args).registers ⊆ args.flatMap Value.registers := by
    intro r hr
    obtain ⟨p, hp, hr⟩ := List.mem_flatMap.mp hr
    exact List.mem_flatMap.mpr ⟨p.2, (List.of_mem_zip (List.mem_reverse.mp hp)).2, hr⟩
  rw [negotiation]
  cases t.checkArguments args with
  | error e => exact .fail e
  | ok _ =>
    refine (grounded_replayNegotiation t.equations hbind).bind fun known env _ henv => ?_
    exact .ofExcept fun v hv => Bindings.registers_subset_of_value henv hv

end Traces

/-! ## Self-contained programs -/

section Programs

variable {known : List Register} {env : Frames α}

/-- The registers in the arguments and results of a frame. -/
def Frame.registers (frame : Frame α) : List Register :=
  (frame.args ++ frame.results).flatMap Value.registers

/-- A value that is found mentions only registers of the frames. -/
theorem Operand.registers_subset_of_lookup (henv : env.flatMap Frame.registers ⊆ known)
    {o : Operand α} {v : Value α} (h : o.lookup env = .ok v) : v.registers ⊆ known := by
  have hframe : ∀ {up : Nat} {select : Frame α → Option (Value α)},
      (∀ frame w, select frame = some w → w ∈ frame.args ++ frame.results) →
      env[up]?.bind select = some v → v.registers ⊆ known := by
    intro up select hselect hfound
    obtain ⟨frame, hup, hv⟩ := Option.bind_eq_some_iff.mp hfound
    intro r hr
    refine henv (List.mem_flatMap.mpr ⟨frame, List.mem_of_getElem? hup, ?_⟩)
    exact List.mem_flatMap.mpr ⟨v, hselect frame v hv, hr⟩
  cases o with
  | num x =>
    cases h
    exact List.nil_subset _
  | arg up index =>
    exact hframe (fun _ _ hw => List.mem_append_left _ (List.mem_of_getElem? hw))
      (found_eq_ok.mp h)
  | result up index =>
    exact hframe (fun _ _ hw => List.mem_append_right _ (List.mem_of_getElem? hw))
      (found_eq_ok.mp h)
  | _ => cases h

/-- Operands mention only registers of the frames. -/
theorem Operand.grounded_negotiate {regs : β → List Register}
    (henv : env.flatMap Frame.registers ⊆ known) {operands : List (Operand α)}
    {next : List (Value α) → Negotiation α β}
    (hnext : ∀ vs, vs.flatMap Value.registers ⊆ known → (next vs).Grounded regs known) :
    (negotiate env operands next).Grounded regs known := by
  unfold negotiate
  cases hvs : lookupAll env operands with
  | error e => exact .fail e
  | ok vs =>
    refine hnext vs fun r hr => ?_
    obtain ⟨v, hv, hr⟩ := List.mem_flatMap.mp hr
    obtain ⟨i, hi, rfl⟩ := List.getElem_of_mem hv
    have hall := lookupAll_eq_ok.mp hvs
    have hlookup := hall.get (hall.length_eq ▸ hi) hi
    exact registers_subset_of_lookup henv hlookup hr

/-- A frame that is opened for arguments mentions their registers only. -/
theorem Frame.registers_of_args (args : List (Value α)) :
    ({ args := args } : Frame α).registers = args.flatMap Value.registers := by
  rw [registers, List.append_nil]

theorem Frame.registers_push (frame : Frame α) (v : Value α) :
    (frame.push v).registers = frame.registers ++ v.registers := by
  simp [registers, push]

variable [Scalar α]

mutual

/-- The negotiation of a program mentions only registers of its frames and arguments, and of the
answers. -/
theorem Program.grounded_negotiation {known : List Register} {env : Frames α}
    {args : List (Value α)} (henv : env.flatMap Frame.registers ⊆ known)
    (hargs : args.flatMap Value.registers ⊆ known) :
    ∀ p : Program α, (p.negotiation env args).Grounded Value.registers known
  | .block body ret => by
    refine (Block.grounded_negotiation henv ?_ body).bind fun known' frame hsub hframe => ?_
    · rw [Frame.registers_of_args]
      exact hargs
    · refine .ofExcept fun v hv => Operand.registers_subset_of_lookup ?_ hv
      exact List.append_subset.mpr ⟨hframe, List.Subset.trans henv hsub⟩
  | .jvp body seeds => by
    refine Operand.grounded_negotiate henv fun vs hvs => ?_
    exact .jvp (fun args' hargs' => Program.grounded_negotiation henv hargs' body) hvs hargs
  | .forward body tag seeds whole => by
    refine Operand.grounded_negotiate henv fun vs hvs => .drive (fun tag => ?_) fun tag v w hw => ?_
    · exact Program.grounded_negotiation henv
        (Value.registers_liftAll_subset tag hargs hvs) body
    · cases whole with
      | true =>
        cases hw
        exact List.Subset.refl _
      | false => exact Value.registers_subset_of_tangentOf hw
  | .trace name => .fail _
  | .bound name operands => .fail _
  | .observed body => .fail _

/-- The results of the steps of a block mention only registers of its frames and of the answers. -/
theorem Block.grounded_negotiation {known : List Register} {env : Frames α} {frame : Frame α}
    (henv : env.flatMap Frame.registers ⊆ known) (hframe : frame.registers ⊆ known) :
    ∀ b : Block α, (b.negotiation env frame).Grounded Frame.registers known
  | .done => .done hframe
  | .step first rest => by
    have hfirst : (frame :: env).flatMap Frame.registers ⊆ known :=
      List.append_subset.mpr ⟨hframe, henv⟩
    refine (Step.grounded_negotiation hfirst first).bind fun known' v hsub hv => ?_
    refine Block.grounded_negotiation (List.Subset.trans henv hsub) ?_ rest
    rw [Frame.registers_push]
    exact List.append_subset.mpr ⟨List.Subset.trans hframe hsub, hv⟩

/-- The result of a step mentions only registers of its frames and of the answers. -/
theorem Step.grounded_negotiation {known : List Register} {env : Frames α}
    (henv : env.flatMap Frame.registers ⊆ known) :
    ∀ s : Step α, (s.negotiation env).Grounded Value.registers known
  | .issue op operands => by
    refine Operand.grounded_negotiate henv fun vs hvs => .ask hvs fun answer => ?_
    exact .ofExcept fun v hv => by
      rw [hv]
      exact List.subset_append_left _ _
  | .unknown name operands => Operand.grounded_negotiate henv fun _ _ => .fail _
  | .call body operands =>
    Operand.grounded_negotiate henv fun _ hvs => Program.grounded_negotiation henv hvs body
  | .loop count init body => by
    refine Negotiation.Grounded.bind
      (.ofExcept fun v hv => Operand.registers_subset_of_lookup henv hv) fun known' v hsub hv => ?_
    refine .iterate (fun known'' args hsub' hargs => ?_) count 0 (List.Subset.refl known') hv
    exact Program.grounded_negotiation
      (List.Subset.trans henv (List.Subset.trans hsub hsub')) hargs body
  | .attempt step fallback =>
    .orElse (Step.grounded_negotiation henv step)
      (.ofExcept fun _ hv => Operand.registers_subset_of_lookup henv hv)
  | .keep value name => .fail _
  | .stage body operands name => .fail _

end

/-- **A self-contained program is a grounded computation.** -/
theorem Program.grounded_computation {p : Program α} (h : p.SelfContained) :
    p.computation.Grounded :=
  ⟨p.negotiation [], fun d args => Program.run_eq_negotiation d [] args h,
    fun _ => Program.grounded_negotiation (List.nil_subset _) (List.Subset.refl _) p⟩

end Programs

end DualTrace
