/-
# Optimizing a renamed trace

The checker and the passes of the optimizer only ask whether two registers are the same.  So when
the registers of a trace are renamed, no two of them alike, everything comes out as before under the
new names, and everything is refused for the same kind of reason.

* `Trace.check_rename`, `Trace.resolveAliases_rename`, `Trace.simplifyWith_rename` and so on : the
  checker and each pass on a renamed trace;
* `Pass.apply_rename`, `Trace.optimize_rename` : any pass, and all passes of a plan;
* `Trace.SameButSpaces` : traces that differ only in the spaces of their registers, with
  `Trace.SameButSpaces.text_eq` and `Trace.SameButSpaces.optimize`.

Nothing is asked of the trace itself, which may be ill formed.
-/
import DualTrace.Proofs.Comparison
import DualTrace.Proofs.DeadCode
import DualTrace.Proofs.Renaming
import DualTrace.Trace.Plan

namespace DualTrace

variable {α : Type} {ren : Register → Register}

/-! ## Equations -/

/-- An instruction with the registers among its operands renamed. -/
def Instruction.rename (ren : Register → Register) (i : Instruction (Atom α)) :
    Instruction (Atom α) :=
  ⟨i.op, i.args.map (Atom.rename ren)⟩

@[simp] theorem Equation.binder_rename (e : Equation α) :
    (e.rename ren).binder = ren e.binder := rfl

@[simp] theorem Equation.isAlias_rename (e : Equation α) :
    (e.rename ren).isAlias = e.isAlias := rfl

/-- Only literals are constant, and they keep their numbers. -/
theorem Atom.lit?_rename (a : Atom α) : (a.rename ren).lit? = a.lit? := by
  cases a <;> rfl

/-! ## Constants -/

section Constants

variable [Scalar α]

omit [Scalar α] in
/-- The same equations are constant, with the same numbers. -/
theorem Equation.constants?_rename (e : Equation α) :
    (e.rename ren).constants? = e.constants? := by
  have hargs : ∀ as : List (Atom α),
      (as.map (Atom.rename ren)).mapM Atom.lit? = as.mapM Atom.lit? := by
    intro as
    induction as with
    | nil => rfl
    | cons a as ih => rw [List.map_cons, List.mapM_cons, List.mapM_cons, Atom.lit?_rename, ih]
  exact congrArg (fun xs => if e.rhs.op = .id then none else xs) (hargs e.rhs.args)

/-- A constant equation is computed as it is under the old names. -/
theorem Equation.fold_rename (e : Equation α) :
    (e.rename ren).fold = e.fold.map (Equation.rename ren) := by
  unfold fold
  rw [constants?_rename]
  cases e.constants? with
  | none => rfl
  | some xs =>
    show (e.rhs.op.eval xs >>= _) = Except.map _ (e.rhs.op.eval xs >>= _)
    cases (e.rhs.op.eval xs : Except (Error α) α) <;> rfl

/-- **Constants are folded in a renamed trace as in the trace.** -/
theorem Trace.foldConstants_rename (t : Trace α) :
    (t.rename ren).foldConstants = t.foldConstants.map (Trace.rename ren) := by
  have hmap : (t.equations.map (Equation.rename ren)).mapM Equation.fold =
      (t.equations.mapM Equation.fold).map (List.map (Equation.rename ren)) := by
    induction t.equations with
    | nil => rfl
    | cons e es ih =>
      rw [List.map_cons, List.mapM_cons, List.mapM_cons, ih, Equation.fold_rename]
      cases e.fold with
      | error err => rfl
      | ok e' => cases es.mapM Equation.fold <;> rfl
  unfold foldConstants
  rw [show (t.rename ren).equations = t.equations.map (Equation.rename ren) from rfl, hmap]
  cases t.equations.mapM Equation.fold <;> rfl

end Constants

section Injective

variable (hinj : Function.Injective ren)

include hinj

/-! ## Sweeps -/

namespace Trace

/-- The state of a sweep over renamed equations. -/
def renameSweep (ren : Register → Register) (state : List Register × List (Equation α)) :
    List Register × List (Equation α) :=
  (state.1.map ren, state.2.map (Equation.rename ren))

omit hinj in
/-- A sweep goes over renamed equations as each of its steps does. -/
theorem foldr_rename
    {step : Equation α → List Register × List (Equation α) → List Register × List (Equation α)}
    (hstep : ∀ e state, step (e.rename ren) (renameSweep ren state) =
      renameSweep ren (step e state)) (es : List (Equation α))
    (state : List Register × List (Equation α)) :
    (es.map (Equation.rename ren)).foldr step (renameSweep ren state) =
      renameSweep ren (es.foldr step state) := by
  rw [List.foldr_map]
  exact List.foldr_hom _ hstep

theorem keepLive_rename (e : Equation α) (state : List Register × List (Equation α)) :
    keepLive (e.rename ren) (renameSweep ren state) = renameSweep ren (keepLive e state) := by
  have hmem : ren e.binder ∈ state.1.map ren ↔ e.binder ∈ state.1 :=
    List.mem_map_of_injective hinj
  simp only [keepLive, renameSweep, Equation.binder_rename, hmem, Equation.reads_rename]
  split
  · rw [List.map_append, List.map_cons]
  · rfl

theorem keepRead_rename (e : Equation α) (state : List Register × List (Equation α)) :
    keepRead (e.rename ren) (renameSweep ren state) = renameSweep ren (keepRead e state) := by
  have hmem : ren e.binder ∈ state.1.map ren ↔ e.binder ∈ state.1 :=
    List.mem_map_of_injective hinj
  simp only [keepRead, renameSweep, Equation.isAlias_rename, Equation.binder_rename, hmem,
    Equation.reads_rename]
  split
  · split
    · rw [List.map_append, List.map_cons]
    · rfl
  · rfl

/-- The dead equations are the same ones. -/
theorem dropDead_rename (t : Trace α) : (t.rename ren).dropDead = t.dropDead.rename ren := by
  have hsweep : sweepLive (t.ret.rename ren).regs (t.equations.map (Equation.rename ren)) =
      renameSweep ren (sweepLive t.ret.regs t.equations) := by
    rw [Atom.regs_rename]
    exact foldr_rename (keepLive_rename hinj) t.equations (t.ret.regs, [])
  exact congrArg (fun state => { t.rename ren with equations := state.2 }) hsweep

/-- The aliases that nobody reads are the same ones. -/
theorem dropUnreadAliases_rename (ret : Atom α) (es : List (Equation α)) :
    dropUnreadAliases (ret.rename ren) (es.map (Equation.rename ren)) =
      (dropUnreadAliases ret es).map (Equation.rename ren) := by
  have hfilter : (es.map (Equation.rename ren)).filter (fun e => !e.isAlias) =
      (es.filter fun e => !e.isAlias).map (Equation.rename ren) := List.filter_map
  have hread : (ret.rename ren).regs ++
      ((es.map (Equation.rename ren)).filter fun e => !e.isAlias).flatMap Equation.reads =
        (ret.regs ++ (es.filter fun e => !e.isAlias).flatMap Equation.reads).map ren := by
    rw [hfilter, List.flatMap_map, List.map_append, List.map_flatMap, Atom.regs_rename]
    exact congrArg _ (List.flatMap_congr fun e _ => e.reads_rename)
  unfold dropUnreadAliases
  rw [hread]
  exact congrArg Prod.snd (foldr_rename (keepRead_rename hinj) es (_, []))

end Trace

/-! ## Aliases -/

omit hinj in
/-- Aliases with all registers renamed. -/
def Aliases.rename (ren : Register → Register) (aliases : Aliases α) : Aliases α :=
  aliases.map fun p => (ren p.1, p.2.rename ren)

namespace Aliases

/-- A renamed register is an alias of what the register is one of, renamed. -/
theorem lookup_rename (aliases : Aliases α) (r : Register) :
    (aliases.rename ren).lookup (ren r) = (aliases.lookup r).map (Atom.rename ren) := by
  induction aliases with
  | nil => rfl
  | cons p aliases ih =>
    show List.lookup (ren r) ((ren p.1, p.2.rename ren) :: Aliases.rename ren aliases) = _
    rw [List.lookup_cons, List.lookup_cons]
    by_cases h : r = p.1
    · rw [h, beq_self_eq_true, beq_self_eq_true]
      rfl
    · rw [beq_eq_false_iff_ne.mpr h, beq_eq_false_iff_ne.mpr (hinj.ne h)]
      exact ih

/-- One hop of substitution on a renamed atom. -/
theorem redirect_rename (aliases : Aliases α) (a : Atom α) :
    (aliases.rename ren).redirect (a.rename ren) = (aliases.redirect a).rename ren := by
  cases a with
  | lit x => rfl
  | reg r =>
    rw [Atom.rename, redirect, redirect, lookup_rename hinj]
    cases aliases.lookup r <;> rfl

end Aliases

theorem Equation.redirect_rename (aliases : Aliases α) (e : Equation α) :
    (e.rename ren).redirect (aliases.rename ren) = (e.redirect aliases).rename ren := by
  have hargs : (e.rhs.args.map (Atom.rename ren)).map (aliases.rename ren).redirect =
      (e.rhs.args.map aliases.redirect).map (Atom.rename ren) := by
    rw [List.map_map, List.map_map]
    exact List.map_congr_left fun a _ => Aliases.redirect_rename hinj aliases a
  exact congrArg (fun args => (⟨ren e.binder, e.rhs.op, args⟩ : Equation α)) hargs

namespace Trace

theorem redirectAll_rename (aliases : Aliases α) (es : List (Equation α)) :
    redirectAll (aliases.rename ren) (es.map (Equation.rename ren)) =
      (redirectAll aliases es).map fun p =>
        (p.1.rename ren, p.2.map (Equation.rename ren)) := by
  induction es generalizing aliases with
  | nil => rfl
  | cons e es ih =>
    rw [List.map_cons, redirectAll, redirectAll, Equation.isAlias_rename]
    cases e.isAlias with
    | false =>
      simp only [Bool.false_eq_true, if_false]
      rw [ih, Equation.redirect_rename hinj]
      cases redirectAll aliases es <;> rfl
    | true =>
      simp only [if_true]
      obtain ⟨r, op, args⟩ := e
      rcases args with _ | ⟨a, _ | ⟨b, args⟩⟩
      · rfl
      · have hrest := ih ((r, a) :: aliases)
        show (redirectAll (Aliases.rename ren ((r, a) :: aliases)) _ >>= _) = _
        rw [hrest]
        show _ = Except.map _ (redirectAll ((r, a) :: aliases) es >>= _)
        cases redirectAll ((r, a) :: aliases) es <;> rfl
      · show Except.error (Error.wrongCount _ 1
          ((a :: b :: args).map (Atom.rename ren)).length) = _
        rw [List.length_map]
        rfl

/-- A return atom is refused for the same reason, if at all. -/
theorem redirectReturn_rename (aliases : Aliases α) (a : Atom α) :
    Check.Alike (fun b c => c = b.rename ren) (redirectReturn aliases a)
      (redirectReturn (aliases.rename ren) (a.rename ren)) := by
  cases a with
  | lit x => exact .ok rfl
  | reg r =>
    rw [Atom.rename, redirectReturn, redirectReturn, Aliases.lookup_rename hinj]
    cases aliases.lookup r with
    | none => exact .ok rfl
    | some b =>
      cases b with
      | lit x => exact .error rfl
      | reg s => exact .ok rfl

/-- **Substitution makes of a renamed trace what it makes of the trace, renamed.** -/
theorem resolveAliases_rename (t : Trace α) :
    Check.Alike (fun u v => v = u.rename ren) t.resolveAliases (t.rename ren).resolveAliases := by
  have hall : redirectAll [] (t.rename ren).equations = _ :=
    redirectAll_rename hinj [] t.equations
  unfold resolveAliases
  rw [hall]
  refine (Check.Alike.map _ _).bind fun p q hq => ?_
  subst hq
  refine (redirectReturn_rename hinj p.1 t.ret).bind fun a b hb => ?_
  subst hb
  refine .ok ?_
  rw [dropUnreadAliases_rename hinj]
  rfl

/-! ## Well-formedness -/

theorem checkParams_rename (ps : List Register) :
    ∀ bound : List Register, Check.Alike (α := α) (fun b c => c = b.map ren)
      (checkParams bound ps) (checkParams (bound.map ren) (ps.map ren)) := by
  induction ps with
  | nil => exact fun bound => .ok rfl
  | cons p ps ih =>
    intro bound
    have hmem : ren p ∈ bound.map ren ↔ p ∈ bound := List.mem_map_of_injective hinj
    rw [List.map_cons, checkParams, checkParams]
    by_cases h : p ∈ bound
    · rw [if_pos h, if_pos (hmem.mpr h)]
      exact .error rfl
    · rw [if_neg h, if_neg (mt hmem.mp h)]
      exact ih (p :: bound)

/-- The first register that is read too early is the same one. -/
theorem find?_reads_rename (bound : List Register) (e : Equation α) :
    (e.rename ren).reads.find? (· ∉ bound.map ren) = (e.reads.find? (· ∉ bound)).map ren := by
  rw [Equation.reads_rename, List.find?_map]
  congr 2
  funext r
  simp only [Function.comp_apply, List.mem_map_of_injective hinj]

theorem checkEquation_rename (i : Nat) (bound : List Register) (e : Equation α) :
    Check.Alike (fun _ _ => True) (checkEquation i bound e)
      (checkEquation i (bound.map ren) (e.rename ren)) := by
  have hmem : ren e.binder ∈ bound.map ren ↔ e.binder ∈ bound := List.mem_map_of_injective hinj
  have harity : (e.rename ren).rhs.checkArity = (e.rhs.checkArity : Except (Error α) Unit) :=
    congrArg e.rhs.op.checkArity (List.length_map _)
  unfold checkEquation
  rw [harity, find?_reads_rename hinj]
  refine Check.Alike.bind (Q := fun _ _ => True) ?_ fun _ _ _ => ?_
  · cases (e.rhs.checkArity : Except (Error α) Unit) with
    | ok _ => exact .ok trivial
    | error err => exact .error rfl
  · cases e.reads.find? (· ∉ bound) with
    | some r => exact .error rfl
    | none =>
      simp only [Option.map_none, Equation.binder_rename, hmem]
      split
      · exact .error rfl
      · exact .ok trivial

theorem checkEquations_rename (es : List (Equation α)) :
    ∀ (i : Nat) (bound : List Register), Check.Alike (fun b c => c = b.map ren)
      (checkEquations i bound es)
      (checkEquations i (bound.map ren) (es.map (Equation.rename ren))) := by
  induction es with
  | nil => exact fun i bound => .ok rfl
  | cons e es ih =>
    intro i bound
    rw [List.map_cons, checkEquations, checkEquations]
    exact (checkEquation_rename hinj i bound e).bind fun _ _ _ => ih (i + 1) (e.binder :: bound)

theorem checkReturn_rename (bound : List Register) (a : Atom α) :
    Check.Alike (fun _ _ => True) (checkReturn bound a)
      (checkReturn (bound.map ren) (a.rename ren)) := by
  cases a with
  | lit x => exact .ok trivial
  | reg r =>
    have hmem : ren r ∈ bound.map ren ↔ r ∈ bound := List.mem_map_of_injective hinj
    rw [Atom.rename, checkReturn, checkReturn]
    by_cases h : r ∈ bound
    · rw [if_pos h, if_pos (hmem.mpr h)]
      exact .ok trivial
    · rw [if_neg h, if_neg (mt hmem.mp h)]
      exact .error rfl

/-- **A renamed trace passes the check if the trace does**, and otherwise it has a fault of the same
kind. -/
theorem check_rename (t : Trace α) :
    Check.Alike (fun _ _ => True) t.check (t.rename ren).check := by
  unfold check
  refine (checkParams_rename hinj t.params []).bind fun bound bound' hbound => ?_
  subst hbound
  refine (checkEquations_rename hinj t.equations 0 bound).bind fun bound bound' hbound => ?_
  subst hbound
  exact checkReturn_rename hinj bound t.ret

theorem checked_rename (t : Trace α) :
    Check.Alike (fun u v => v = u.rename ren) t.checked (t.rename ren).checked := by
  unfold checked
  exact (check_rename hinj t).bind fun _ _ _ => .ok rfl

end Trace

/-! ## Simplification -/

section Simplify

variable [Scalar α]

omit hinj in
/-- Captures with the registers among them renamed. -/
def Captures.rename (ren : Register → Register) (captures : Captures α) : Captures α :=
  captures.map fun p => (p.1, p.2.rename ren)

/-- Two atoms are the same under new names if they are the same. -/
theorem Atom.beq_rename (a b : Atom α) : (a.rename ren == b.rename ren) = (a == b) := by
  cases a <;> cases b
  case reg.reg r s =>
    show (ren r == ren s) = (r == s)
    rw [Bool.eq_iff_iff, beq_iff_eq, beq_iff_eq, hinj.eq_iff]
  all_goals rfl

omit [Scalar α] hinj in
/-- A slot captures the operand that it captured, renamed. -/
theorem Captures.lookup_rename (captures : Captures α) (slot : Nat) :
    (captures.rename ren).lookup slot = (captures.lookup slot).map (Atom.rename ren) := by
  induction captures with
  | nil => rfl
  | cons p captures ih =>
    show List.lookup slot ((p.1, p.2.rename ren) :: Captures.rename ren captures) = _
    rw [List.lookup_cons, List.lookup_cons, ih]
    cases slot == p.1 <;> rfl

theorem Pattern.capture?_rename (captures : Captures α) (p : Pattern α) (a : Atom α) :
    p.capture? (captures.rename ren) (a.rename ren) =
      (p.capture? captures a).map (Captures.rename ren) := by
  cases p with
  | any => rfl
  | lit x =>
    cases a with
    | reg r => rfl
    | lit y =>
      show (if y == x then _ else none) = Option.map _ (if y == x then _ else none)
      split <;> rfl
  | bind slot =>
    rw [capture?, capture?, Captures.lookup_rename]
    cases captures.lookup slot with
    | none => rfl
    | some b =>
      simp only [Option.map_some, Atom.beq_rename hinj]
      split <;> rfl

theorem Pattern.captureAll?_rename (ps : List (Pattern α)) :
    ∀ (captures : Captures α) (as : List (Atom α)),
      captureAll? (captures.rename ren) ps (as.map (Atom.rename ren)) =
        (captureAll? captures ps as).map (Captures.rename ren) := by
  induction ps with
  | nil =>
    intro captures as
    cases as <;> rfl
  | cons p ps ih =>
    intro captures as
    cases as with
    | nil => rfl
    | cons a as =>
      show (p.capture? (captures.rename ren) (a.rename ren)).bind _ =
        Option.map _ ((p.capture? captures a).bind _)
      rw [Pattern.capture?_rename hinj]
      cases p.capture? captures a with
      | none => rfl
      | some captures' => exact ih captures' as

omit [Scalar α] hinj in
theorem Template.mapM_fill?_rename (captures : Captures α) (templates : List (Template α)) :
    templates.mapM (Template.fill? (captures.rename ren)) =
      (templates.mapM (Template.fill? captures)).map (List.map (Atom.rename ren)) := by
  have hfill : ∀ t : Template α,
      t.fill? (captures.rename ren) = (t.fill? captures).map (Atom.rename ren) := by
    intro t
    cases t with
    | lit x => rfl
    | capture slot => exact Captures.lookup_rename captures slot
  induction templates with
  | nil => rfl
  | cons t templates ih =>
    rw [List.mapM_cons, List.mapM_cons, ih, hfill]
    cases t.fill? captures with
    | none => rfl
    | some a => cases templates.mapM (Template.fill? captures) <;> rfl

/-- **A rule makes of a renamed instruction what it makes of the instruction, renamed.** -/
theorem Rule.apply_rename (rule : Rule α) (i : Instruction (Atom α)) :
    rule.apply (i.rename ren) = (rule.apply i).map (Instruction.rename ren) := by
  have hcaptures : Pattern.captureAll? [] rule.pattern (i.rename ren).args =
      (Pattern.captureAll? [] rule.pattern i.args).map (Captures.rename ren) :=
    Pattern.captureAll?_rename hinj rule.pattern [] i.args
  unfold Rule.apply
  rw [hcaptures, show (i.rename ren).op = i.op from rfl]
  split
  · cases Pattern.captureAll? [] rule.pattern i.args with
    | none => rfl
    | some captures =>
      simp only [Option.map_some, Option.bind_eq_bind, Option.bind_some]
      rw [Template.mapM_fill?_rename]
      cases rule.template.mapM (Template.fill? captures) <;> rfl
  · rfl

theorem Equation.simplifyWith_rename (rules : List (Rule α)) (e : Equation α) :
    (e.rename ren).simplifyWith rules = (e.simplifyWith rules).rename ren := by
  have hfirst : Rule.applyFirst rules (e.rename ren).rhs =
      (Rule.applyFirst rules e.rhs).map (Instruction.rename ren) := by
    unfold Rule.applyFirst
    rw [List.map_findSome?]
    congr 1
    funext rule
    exact Rule.apply_rename hinj rule e.rhs
  unfold simplifyWith
  rw [hfirst]
  cases Rule.applyFirst rules e.rhs <;> rfl

theorem Trace.simplifyWith_rename (rules : List (Rule α)) (t : Trace α) :
    (t.rename ren).simplifyWith rules = (t.simplifyWith rules).rename ren := by
  have hes : (t.equations.map (Equation.rename ren)).map (Equation.simplifyWith rules) =
      (t.equations.map (Equation.simplifyWith rules)).map (Equation.rename ren) := by
    rw [List.map_map, List.map_map]
    exact List.map_congr_left fun e _ => Equation.simplifyWith_rename hinj rules e
  exact congrArg (fun es => { t.rename ren with equations := es }) hes

end Simplify

/-! ## Passes and plans -/

section Passes

variable [Scalar α]

/-- **Every pass makes of a renamed trace what it makes of the trace, renamed**, or fails for the
same kind of reason. -/
theorem Pass.apply_rename (t : Trace α) (pass : Pass α) :
    Check.Alike (fun u v => v = u.rename ren) (Pass.apply t pass)
      (Pass.apply (t.rename ren) pass) := by
  cases pass with
  | foldConstants =>
    show Check.Alike _ t.foldConstants (t.rename ren).foldConstants
    rw [Trace.foldConstants_rename]
    exact .map _ _
  | simplify rules => exact .ok (Trace.simplifyWith_rename hinj rules t)
  | resolveAliases => exact Trace.resolveAliases_rename hinj t
  | dropDead => exact .ok (Trace.dropDead_rename hinj t)
  | endRound round =>
    have hcheck := Trace.check_rename hinj t
    unfold Pass.apply
    cases h : t.check <;> cases h' : (t.rename ren).check <;> rw [h, h'] at hcheck <;>
      cases hcheck
    · exact .error rfl
    · exact .ok rfl

/-- Passes that are applied one after the other. -/
theorem Pass.foldlM_apply_rename (passes : List (Pass α)) (t : Trace α) :
    Check.Alike (fun u v => v = u.rename ren) (passes.foldlM Pass.apply t)
      (passes.foldlM Pass.apply (t.rename ren)) :=
  Check.Alike.foldlM (fun u v pass huv => by rw [huv]; exact Pass.apply_rename hinj u pass)
    passes rfl

theorem Plan.runRounds_rename (plan : Plan) (count : Nat) :
    ∀ (i : Nat) (t : Trace α), Check.Alike (fun u v => v = u.rename ren)
      (plan.runRounds Pass.apply count i t) (plan.runRounds Pass.apply count i (t.rename ren)) := by
  induction count with
  | zero => exact fun i t => .ok rfl
  | succ count ih =>
    intro i t
    refine (Pass.foldlM_apply_rename hinj (plan.round i) t).bind fun u v huv => ?_
    rw [huv]
    exact ih (i + 1) u

/-- **The optimizer makes of a renamed trace what it makes of the trace, renamed**, or fails for the
same kind of reason. -/
theorem Trace.optimize_rename (plan : Plan) (t : Trace α) :
    Check.Alike (fun u v => v = u.rename ren) (Trace.optimize plan t)
      (Trace.optimize plan (t.rename ren)) := by
  refine (Plan.runRounds_rename hinj plan plan.rounds 0 t).bind fun u v huv => ?_
  rw [huv]
  exact Pass.foldlM_apply_rename hinj plan.closing u

end Passes

end Injective

/-! ## Spaces -/

namespace Trace

/-- Two traces that differ only in the spaces of their registers: no two registers become one, and
each keeps its number and its role. -/
def SameButSpaces (t u : Trace α) : Prop :=
  ∃ ren : Register → Register, Function.Injective ren ∧
    (∀ r, (ren r).index = r.index ∧ (ren r).role = r.role) ∧ u = t.rename ren

namespace SameButSpaces

variable {t u : Trace α}

/-- Spaces are not written. -/
theorem text_eq [Numeral α] (h : t.SameButSpaces u) : t.text = u.text := by
  obtain ⟨ren, -, hkeeps, rfl⟩ := h
  have htext : ∀ r, (ren r).text = r.text := by
    intro r
    unfold Register.text Register.name
    rw [(hkeeps r).1, (hkeeps r).2]
  exact (Trace.text_rename (fun r _ => htext r)
    (fun e _ => Equation.text_rename (htext e.binder) fun r _ => htext r)
    (fun r _ => htext r)).symm

/-- What treats traces alike under all names treats traces alike that differ only in spaces. -/
theorem of_rename {f : Trace α → Except (Error α) (Trace α)}
    (hf : ∀ {ren : Register → Register}, Function.Injective ren → ∀ t : Trace α,
      Check.Alike (fun u v => v = u.rename ren) (f t) (f (t.rename ren)))
    (h : t.SameButSpaces u) : Check.Alike SameButSpaces (f t) (f u) := by
  obtain ⟨ren, hinj, hkeeps, rfl⟩ := h
  exact (hf hinj t).imp fun v w hvw => ⟨ren, hinj, hkeeps, hvw⟩

variable [Scalar α] (h : t.SameButSpaces u)

include h

/-- Passes do not look at spaces. -/
theorem foldlM_apply (passes : List (Pass α)) :
    Check.Alike SameButSpaces (passes.foldlM Pass.apply t) (passes.foldlM Pass.apply u) :=
  of_rename (f := fun t => passes.foldlM Pass.apply t)
    (fun hinj t => Pass.foldlM_apply_rename hinj passes t) h

/-- The optimizer does not look at spaces. -/
theorem optimize (plan : Plan) :
    Check.Alike SameButSpaces (Trace.optimize plan t) (Trace.optimize plan u) :=
  of_rename (fun hinj t => Trace.optimize_rename hinj plan t) h

end SameButSpaces

end Trace

end DualTrace
