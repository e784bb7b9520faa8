/-
# What a trace depends on

The sweep that drops dead equations goes over the equations once, from last to first, and never
looks back.  In a well-formed trace nothing is read before it is bound, so the sweep still finds all
that the return atom depends on, through any chain of operands, and finds nothing else.

* `Trace.Reads`, `Trace.DependsOn` : what a trace depends on, said without the sweep;
* `Trace.WellFormed.mem_live_iff` : the live registers are those that the trace depends on;
* `Trace.WellFormed.equations_dropDead` : the equations that are kept;
* `Trace.WellFormed.needed_of_split`, `Trace.WellFormed.exists_check_error` : each of them is needed;
* `Trace.dropDead_exact` : all this in one statement.
-/
import DualTrace.Proofs.LivePart
import DualTrace.Proofs.Renaming
import Mathlib.Data.List.Perm.Subperm
import Mathlib.Logic.Relation

namespace DualTrace

variable {α : Type}

namespace Trace

/-! ## Dependencies -/

/-- An equation of the trace binds the register `b` and reads the register `r`. -/
def Reads (t : Trace α) (b r : Register) : Prop := ∃ e ∈ t.equations, e.binder = b ∧ r ∈ e.reads

/-- The return atom depends on a register, through any chain of operands. -/
def DependsOn (t : Trace α) (r : Register) : Prop :=
  ∃ s ∈ t.ret.regs, Relation.ReflTransGen t.Reads s r

variable {t : Trace α} {pre post : List (Equation α)} {e : Equation α}

/-- What the sweep finds live the trace depends on, even if it is not well formed. -/
theorem dependsOn_of_mem_live {r : Register} (hr : r ∈ t.live) : t.DependsOn r := by
  refine live_induct (P := t.DependsOn) (fun s hs => ⟨s, hs, .refl⟩) ?_ r hr
  rintro e he ⟨s, hs, hpath⟩ r hread
  exact ⟨s, hs, hpath.tail ⟨e, he, rfl, hread⟩⟩

namespace WellFormed

/-- **The live registers are those that the trace depends on.** -/
theorem mem_live_iff (h : t.WellFormed) {r : Register} : r ∈ t.live ↔ t.DependsOn r := by
  refine ⟨dependsOn_of_mem_live, ?_⟩
  rintro ⟨s, hs, hpath⟩
  induction hpath with
  | refl => exact regs_ret_subset_live hs
  | tail _ hread ih =>
    obtain ⟨e, he, rfl, hr⟩ := hread
    exact reads_subset_live (h.mem_dropDead he ih) hr

/-- No equation is there twice. -/
theorem nodup_equations (h : t.WellFormed) : t.equations.Nodup :=
  List.Nodup.of_map Equation.binder h.ordered.binders_nodup

open Classical in
/-- The equations that are kept are those whose binders the trace depends on. -/
theorem equations_dropDead (h : t.WellFormed) :
    t.dropDead.equations = t.equations.filter fun e => t.DependsOn e.binder := by
  have hkept : ∀ e ∈ t.dropDead.equations, decide (t.DependsOn e.binder) = true :=
    fun e he => decide_eq_true (dependsOn_of_mem_live (binder_mem_live he))
  have hsub : (t.dropDead.equations.filter fun e => t.DependsOn e.binder).Sublist
      (t.equations.filter fun e => t.DependsOn e.binder) := sweepLive_sublist.filter _
  rw [List.filter_eq_self.mpr hkept] at hsub
  -- nothing that is needed is missing, and nothing is there twice
  refine hsub.eq_of_length_le (List.Subperm.length_le ?_)
  refine (h.nodup_equations.filter _).subperm fun e he => ?_
  obtain ⟨he, hneeded⟩ := List.mem_filter.mp he
  exact h.mem_dropDead he (h.mem_live_iff.mpr (of_decide_eq_true hneeded))

/-! ## Nothing too much -/

/-- What is kept is returned or read by an equation behind it that is kept as well. -/
theorem needed_of_split (h : t.WellFormed) (hsplit : t.dropDead.equations = pre ++ e :: post) :
    t.ret = .reg e.binder ∨ ∃ e' ∈ post, e.binder ∈ e'.reads := by
  have hord := h.dropDead.ordered
  rw [hsplit] at hord
  have he : e ∈ t.dropDead.equations := by
    rw [hsplit]
    exact List.mem_append_right _ List.mem_cons_self
  have hlive : e.binder ∈ t.live := binder_mem_live he
  rcases Trace.mem_live_iff.mp hlive with hret | ⟨e', he', hread⟩
  · cases hatom : t.ret with
    | lit x =>
      rw [hatom] at hret
      cases hret
    | reg r =>
      rw [hatom] at hret
      exact Or.inl (congrArg Atom.reg (List.mem_singleton.mp hret).symm)
  · -- neither the equation itself nor any before it reads the binder
    refine Or.inr ⟨e', ?_, hread⟩
    change e' ∈ t.dropDead.equations at he'
    rw [hsplit] at he'
    rcases List.mem_append.mp he' with hpre | htail
    · exact absurd hread (hord.not_read_before hpre)
    · rcases List.mem_cons.mp htail with rfl | hpost
      · exact absurd (hord.placed.reads _ hread) hord.placed.fresh
      · exact hpost

/-- Without an equation whose binder is returned or read behind it, a trace does not pass the
check. -/
theorem exists_check_error (h : t.WellFormed) (hsplit : t.equations = pre ++ e :: post)
    (hneeded : t.ret = .reg e.binder ∨ ∃ e' ∈ post, e.binder ∈ e'.reads) :
    ∃ err, ({ t with equations := pre ++ post } : Trace α).check = .error err := by
  let u : Trace α := { t with equations := pre ++ post }
  have hgone : e.binder ∉ u.registers := by
    have hnodup := h.nodup_registers
    unfold registers at hnodup ⊢
    rw [hsplit, binders, List.map_append, List.map_cons, ← List.append_assoc,
      List.nodup_middle, List.append_assoc, ← List.map_append] at hnodup
    exact (List.nodup_cons.mp hnodup).1
  cases hcheck : u.check with
  | error err => exact ⟨err, rfl⟩
  | ok _ =>
    have hu := check_eq_ok_iff.mp hcheck
    refine absurd ?_ hgone
    rcases hneeded with hret | ⟨e', he', hread⟩
    · have hmem : e.binder ∈ u.ret.regs := by
        change e.binder ∈ t.ret.regs
        rw [hret]
        exact List.mem_singleton_self _
      exact List.mem_append.mpr (hu.ret _ hmem)
    · exact hu.reads_subset_registers (List.mem_append_right _ he') hread

end WellFormed

open Classical in
/-- **Dropping dead equations is exact.**  Let a trace pass the check.  Without its dead equations
it has the same parameters and the same return atom, and the equations that are left, in their
order, are those whose binders the return atom depends on.  So the binder of each is returned or
read by another one behind it, and without that equation the trace would not pass the check.  A
second time nothing is dropped, and this holds of every trace. -/
theorem dropDead_exact (t : Trace α) :
    (t.check = .ok () →
      t.dropDead.params = t.params ∧ t.dropDead.ret = t.ret ∧
      t.dropDead.equations = t.equations.filter (fun e => t.DependsOn e.binder) ∧
      ∀ pre e post, t.dropDead.equations = pre ++ e :: post →
        (t.ret = .reg e.binder ∨ ∃ e' ∈ post, e.binder ∈ e'.reads) ∧
        ∃ err, ({ t.dropDead with equations := pre ++ post } : Trace α).check = .error err) ∧
    t.dropDead.dropDead = t.dropDead := by
  refine ⟨fun hcheck => ?_, dropDead_dropDead t⟩
  have hwf := check_eq_ok_iff.mp hcheck
  refine ⟨rfl, rfl, hwf.equations_dropDead, fun pre e post hsplit => ?_⟩
  have hneeded := hwf.needed_of_split hsplit
  exact ⟨hneeded, hwf.dropDead.exists_check_error hsplit hneeded⟩

/-- The trace of `x * x + x * x` with the second summand behind an alias, and with two equations
that nobody needs, one of which reads what is needed. -/
def tangledTrace : Trace Int :=
  let x : Register := ⟨0, 0, .param⟩
  let v (i : UInt32) : Register := ⟨0, i, .result⟩
  { params := [x]
    equations := [⟨v 1, .mul, [.reg x, .reg x]⟩, ⟨v 2, .add, [.reg (v 1), .reg x]⟩,
      ⟨v 3, .id, [.reg (v 1)]⟩, ⟨v 4, .mul, [.reg (v 2), .reg (v 3)]⟩,
      ⟨v 5, .add, [.reg (v 3), .reg (v 1)]⟩]
    ret := .reg (v 5) }

/-- Three equations of `tangledTrace` are kept.  The fourth reads the third and is not needed, but
the third is, and without it the trace does not pass the check. -/
theorem dropDead_exact_tangledTrace :
    tangledTrace.check = .ok () ∧
      binders tangledTrace.dropDead.equations =
        [⟨0, 1, .result⟩, ⟨0, 3, .result⟩, ⟨0, 5, .result⟩] ∧
      tangledTrace.DependsOn ⟨0, 3, .result⟩ ∧ ¬ tangledTrace.DependsOn ⟨0, 4, .result⟩ ∧
      (∃ err, ({ tangledTrace.dropDead with
        equations := tangledTrace.dropDead.equations.eraseIdx 1 } : Trace Int).check =
          .error err) ∧
      tangledTrace.dropDead.dropDead = tangledTrace.dropDead := by
  obtain ⟨hexact, htwice⟩ := dropDead_exact tangledTrace
  obtain ⟨-, -, hfilter, hneeded⟩ := hexact rfl
  have hmem : ∀ e ∈ tangledTrace.equations,
      e ∈ tangledTrace.dropDead.equations ↔ tangledTrace.DependsOn e.binder := by
    intro e he
    rw [hfilter, List.mem_filter]
    simp only [he, true_and, decide_eq_true_eq]
  have hkept := hmem ⟨⟨0, 3, .result⟩, .id, [.reg ⟨0, 1, .result⟩]⟩ (by simp [tangledTrace])
  have hdropped := hmem ⟨⟨0, 4, .result⟩, .mul, [.reg ⟨0, 2, .result⟩, .reg ⟨0, 3, .result⟩]⟩
    (by simp [tangledTrace])
  refine ⟨rfl, rfl, hkept.mp ?_, mt hdropped.mpr ?_, (hneeded [_] _ [_] rfl).2, htwice⟩
  · exact List.mem_cons_of_mem _ List.mem_cons_self
  · change _ ∉ [_, _, _]
    simp

end Trace

end DualTrace
