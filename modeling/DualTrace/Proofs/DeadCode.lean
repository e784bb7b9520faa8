/-
# Dropping dead equations

The backward sweep keeps an equation when its binder is read behind it.  What it keeps is in order
again, because nothing that is kept reads what is dropped.

* `Trace.mem_live_iff`, `Trace.live_induct` : the registers that the sweep finds live;
* `Trace.mem_sweepLive` : an equation with a live binder is kept, so what is read at the end is
  still bound;
* `Trace.sweepLive_sweepLive` : a second sweep keeps everything;
* `Trace.sweepLive_of_sublist` : the sweep over what is left when dead equations are dropped;
* `Trace.sweepLive_forall₂` : the sweep over other equations that bind and read the same;
* `Trace.WellFormed.dropDead` : a well-formed trace stays well formed.
-/
import DualTrace.Proofs.WellFormed
import DualTrace.Trace.DeadCode

namespace DualTrace.Trace

variable {α : Type} {live bound : List Register} {e : Equation α} {es : List (Equation α)}

/-! ## The sweep -/

theorem sweepLive_cons :
    sweepLive live (e :: es) = keepLive e (sweepLive live es) := List.foldr_cons

/-- The sweep over an equation that is read behind it. -/
theorem sweepLive_of_mem (h : e.binder ∈ (sweepLive live es).1) :
    sweepLive live (e :: es) = (e.reads ++ (sweepLive live es).1, e :: (sweepLive live es).2) := by
  rw [sweepLive_cons, keepLive, if_pos h]

/-- The sweep over an equation that is not read behind it. -/
theorem sweepLive_of_not_mem (h : e.binder ∉ (sweepLive live es).1) :
    sweepLive live (e :: es) = sweepLive live es := by
  rw [sweepLive_cons, keepLive, if_neg h]

/-- The sweep keeps equations in their order. -/
theorem sweepLive_sublist : (sweepLive live es).2.Sublist es := by
  induction es with
  | nil => exact List.Sublist.refl _
  | cons e es ih =>
    by_cases h : e.binder ∈ (sweepLive live es).1
    · rw [sweepLive_of_mem h]
      exact ih.cons_cons e
    · rw [sweepLive_of_not_mem h]
      exact ih.cons e

/-- An equation that is kept binds a live register. -/
theorem binder_mem_live (he : e ∈ (sweepLive live es).2) : e.binder ∈ (sweepLive live es).1 := by
  induction es with
  | nil => cases he
  | cons e' es ih =>
    by_cases h : e'.binder ∈ (sweepLive live es).1
    · rw [sweepLive_of_mem h] at he ⊢
      rcases List.mem_cons.mp he with rfl | he
      · exact List.mem_append_right _ h
      · exact List.mem_append_right _ (ih he)
    · rw [sweepLive_of_not_mem h] at he ⊢
      exact ih he

/-- A second sweep keeps all that the first one has kept, whatever the equations are. -/
theorem sweepLive_sweepLive : sweepLive live (sweepLive live es).2 = sweepLive live es := by
  induction es with
  | nil => rfl
  | cons e es ih =>
    by_cases h : e.binder ∈ (sweepLive live es).1
    · rw [sweepLive_of_mem h, sweepLive_cons, ih, keepLive, if_pos h]
    · rw [sweepLive_of_not_mem h]
      exact ih

/-- The live registers are those that are live at the end or read by an equation that is kept. -/
theorem mem_live_iff {r : Register} :
    r ∈ (sweepLive live es).1 ↔ r ∈ live ∨ ∃ e ∈ (sweepLive live es).2, r ∈ e.reads := by
  induction es with
  | nil => simp [sweepLive]
  | cons e es ih =>
    by_cases h : e.binder ∈ (sweepLive live es).1
    · rw [sweepLive_of_mem h]
      simp only [List.mem_append, List.mem_cons, exists_eq_or_imp, ih]
      exact or_left_comm
    · rw [sweepLive_of_not_mem h]
      exact ih

/-- An equation behind another one leaves what is live. -/
theorem live_subset_cons : (sweepLive live es).1 ⊆ (sweepLive live (e :: es)).1 := by
  by_cases h : e.binder ∈ (sweepLive live es).1
  · rw [sweepLive_of_mem h]
    exact List.subset_append_right _ _
  · rw [sweepLive_of_not_mem h]
    exact List.Subset.refl _

/-- **The live registers are the fewest possible.**  A property of what is read at the end holds of
all of them, if it passes from the binder of an equation to what the equation reads. -/
theorem live_induct {P : Register → Prop} (hlive : ∀ r ∈ live, P r)
    (hreads : ∀ e ∈ es, P e.binder → ∀ r ∈ e.reads, P r) : ∀ r ∈ (sweepLive live es).1, P r := by
  induction es with
  | nil => exact hlive
  | cons e es ih =>
    have ih := ih fun e' he' => hreads e' (List.mem_cons_of_mem _ he')
    by_cases h : e.binder ∈ (sweepLive live es).1
    · rw [sweepLive_of_mem h]
      intro r hr
      rcases List.mem_append.mp hr with hr | hr
      · exact hreads e List.mem_cons_self (ih _ h) r hr
      · exact ih r hr
    · rw [sweepLive_of_not_mem h]
      exact ih

/-- An equation is kept when its binder is live, for nothing before it reads the binder. -/
theorem mem_sweepLive (hord : Ordered bound es) (he : e ∈ es)
    (hlive : e.binder ∈ (sweepLive live es).1) : e ∈ (sweepLive live es).2 := by
  induction es generalizing bound with
  | nil => cases he
  | cons e' es ih =>
    rcases List.mem_cons.mp he with rfl | he
    · by_cases h : e.binder ∈ (sweepLive live es).1
      · rw [sweepLive_of_mem h]
        exact List.mem_cons_self
      · rw [sweepLive_of_not_mem h] at hlive
        exact absurd hlive h
    · by_cases h : e'.binder ∈ (sweepLive live es).1
      · rw [sweepLive_of_mem h] at hlive ⊢
        rcases List.mem_append.mp hlive with hread | hlive
        · have hbound : e.binder ∈ bound := hord.1.reads _ hread
          exact absurd (List.mem_cons_of_mem _ hbound) (hord.2.binder_not_mem he)
        · exact List.mem_cons_of_mem _ (ih hord.2 he hlive)
      · rw [sweepLive_of_not_mem h] at hlive ⊢
        exact ih hord.2 he hlive

/-- A register that is read at the end is still bound if it was. -/
theorem mem_binders_sweepLive (hord : Ordered bound es) {r : Register} (hr : r ∈ live)
    (hb : r ∈ binders es) : r ∈ binders (sweepLive live es).2 := by
  obtain ⟨e, he, rfl⟩ := List.mem_map.mp hb
  exact List.mem_map_of_mem (mem_sweepLive hord he (mem_live_iff.mpr (Or.inl hr)))

/-- **Dropping dead equations first makes no difference to the sweep.**  It comes to the same end
over some of the equations if all those with a live binder are among them. -/
theorem sweepLive_of_sublist {kept : List (Equation α)} (hsub : kept.Sublist es) (hnd : es.Nodup)
    (hkept : ∀ e ∈ es, e.binder ∈ (sweepLive live es).1 → e ∈ kept) :
    sweepLive live kept = sweepLive live es := by
  induction hsub with
  | slnil => rfl
  | @cons kept es e hsub ih =>
    obtain ⟨he, hnd⟩ := List.nodup_cons.mp hnd
    have htail : sweepLive live kept = sweepLive live es :=
      ih hnd fun e' he' hlive => hkept e' (List.mem_cons_of_mem _ he') (live_subset_cons hlive)
    have hdead : e.binder ∉ (sweepLive live es).1 := fun hlive =>
      he (hsub.subset (hkept e List.mem_cons_self (live_subset_cons hlive)))
    rw [sweepLive_of_not_mem hdead]
    exact htail
  | @cons_cons kept es e hsub ih =>
    obtain ⟨he, hnd⟩ := List.nodup_cons.mp hnd
    have htail : sweepLive live kept = sweepLive live es := by
      refine ih hnd fun e' he' hlive => ?_
      have hmem := hkept e' (List.mem_cons_of_mem _ he') (live_subset_cons hlive)
      refine (List.mem_cons.mp hmem).resolve_left ?_
      rintro rfl
      exact he he'
    rw [sweepLive_cons, sweepLive_cons, htail]

/-- **The sweep looks at binders and reads only.**  Over equations that bind and read the same it
finds the same registers live and keeps the equations at the same places. -/
theorem sweepLive_forall₂ {R : Equation α → Equation α → Prop}
    (hR : ∀ {e e'}, R e e' → e'.binder = e.binder ∧ e'.reads = e.reads) {es' : List (Equation α)}
    (h : List.Forall₂ R es es') :
    (sweepLive live es').1 = (sweepLive live es).1 ∧
      List.Forall₂ R (sweepLive live es).2 (sweepLive live es').2 := by
  induction h with
  | nil => exact ⟨rfl, .nil⟩
  | @cons e e' es es' he _ ih =>
    obtain ⟨hbinder, hreads⟩ := hR he
    obtain ⟨hlive, hkept⟩ := ih
    have hiff : e'.binder ∈ (sweepLive live es').1 ↔ e.binder ∈ (sweepLive live es).1 := by
      rw [hbinder, hlive]
    by_cases hmem : e.binder ∈ (sweepLive live es).1
    · rw [sweepLive_of_mem hmem, sweepLive_of_mem (hiff.mpr hmem), hreads, hlive]
      exact ⟨rfl, .cons he hkept⟩
    · rw [sweepLive_of_not_mem hmem, sweepLive_of_not_mem (mt hiff.mp hmem)]
      exact ⟨hlive, hkept⟩

/-! ## Well-formedness -/

/-- Equations that do not read a register are in order also where it is not bound. -/
theorem Ordered.of_not_read {r : Register} (h : Ordered (r :: bound) es)
    (hr : ∀ e ∈ es, r ∉ e.reads) : Ordered bound es := by
  induction es generalizing bound with
  | nil => trivial
  | cons e es ih =>
    have hswap : ∀ s, s ∈ e.binder :: r :: bound ↔ s ∈ r :: e.binder :: bound := by
      intro s
      simp only [List.mem_cons]
      exact or_left_comm
    refine ⟨⟨h.1.arity, fun s hs => ?_, fun hb => h.1.fresh (List.mem_cons_of_mem _ hb)⟩, ?_⟩
    · refine (List.mem_cons.mp (h.1.reads s hs)).resolve_left ?_
      rintro rfl
      exact hr e List.mem_cons_self hs
    · exact ih (h.2.congr hswap) fun e' he' => hr e' (List.mem_cons_of_mem _ he')

/-- What the sweep keeps is in order. -/
theorem Ordered.sweepLive (h : Ordered bound es) : Ordered bound (sweepLive live es).2 := by
  induction es generalizing bound with
  | nil => trivial
  | cons e es ih =>
    by_cases hlive : e.binder ∈ (Trace.sweepLive live es).1
    · rw [sweepLive_of_mem hlive]
      exact ⟨h.1, ih h.2⟩
    · -- nothing that is kept reads the binder, so it need not be bound
      rw [sweepLive_of_not_mem hlive]
      refine (ih h.2).of_not_read fun e' he' hr => hlive ?_
      exact mem_live_iff.mpr (Or.inr ⟨e', he', hr⟩)

/-- Nothing is dead in a trace without its dead equations. -/
theorem dropDead_dropDead (t : Trace α) : t.dropDead.dropDead = t.dropDead :=
  congrArg (fun state => { t with equations := state.2 }) sweepLive_sweepLive

/-- **A well-formed trace stays well formed without its dead equations.** -/
theorem WellFormed.dropDead {t : Trace α} (h : t.WellFormed) : t.dropDead.WellFormed where
  params := h.params
  ordered := h.ordered.sweepLive
  ret r hr := (h.ret r hr).imp_right (mem_binders_sweepLive h.ordered hr)

end DualTrace.Trace
