/-
# Resolving aliases

What the substitution of aliases does, said without the list that it carries along.

* `Trace.redirectAll_eq` : in a well-formed trace every reader is redirected through all aliases of
  the trace, whether they are made before it or behind;
* `Trace.resolveAliases_eq` : what the whole pass makes of a well-formed trace;
* `Trace.eq_of_redirectReturn` : what a return atom becomes;
* `Trace.dropUnreadAliases_sublist`, `Trace.not_isAlias_of_unread` : what is dropped.
-/
import DualTrace.Proofs.WellFormed
import DualTrace.Trace.Alias

namespace DualTrace

variable {α : Type}

/-! ## One hop -/

namespace Aliases

variable {aliases : Aliases α} {r : Register}

theorem redirect_of_lookup {a : Atom α} (h : aliases.lookup r = some a) :
    aliases.redirect (.reg r) = a := by
  rw [redirect, h, Option.getD_some]

theorem redirect_of_lookup_none (h : aliases.lookup r = none) :
    aliases.redirect (.reg r) = .reg r := by
  rw [redirect, h, Option.getD_none]

/-- One hop leads to what an alias stands for, or nowhere. -/
theorem redirect_cases (aliases : Aliases α) (a : Atom α) :
    (∃ r, a = .reg r ∧ aliases.lookup r = some (aliases.redirect a)) ∨
    (aliases.redirect a = a ∧ ∀ r, a = .reg r → aliases.lookup r = none) := by
  cases a with
  | lit x => exact Or.inr ⟨rfl, by rintro r ⟨⟩⟩
  | reg r =>
    cases hr : aliases.lookup r with
    | some b =>
      rw [redirect_of_lookup hr]
      exact Or.inl ⟨r, rfl, hr⟩
    | none =>
      rw [redirect_of_lookup_none hr]
      refine Or.inr ⟨rfl, ?_⟩
      rintro s ⟨⟩
      exact hr

end Aliases

namespace Trace

/-- A return atom that is not refused is redirected. -/
theorem eq_of_redirectReturn {aliases : Aliases α} {a b : Atom α}
    (h : redirectReturn aliases a = .ok b) : b = aliases.redirect a := by
  cases a with
  | lit x =>
    cases h
    rfl
  | reg r =>
    cases hr : aliases.lookup r with
    | none =>
      rw [redirectReturn, hr] at h
      cases h
      rw [Aliases.redirect_of_lookup_none hr]
    | some c =>
      rw [redirectReturn, hr] at h
      rw [Aliases.redirect_of_lookup hr]
      cases c <;> cases h
      rfl

/-- A return atom that is not refused is a literal afterwards only if it was one before. -/
theorem lit?_of_redirectReturn {aliases : Aliases α} {a b : Atom α}
    (h : redirectReturn aliases a = .ok b) : b.lit? = a.lit? := by
  unfold redirectReturn at h
  split at h
  · cases h
    rfl
  · split at h
    · cases h
      rfl
    · cases h
      rfl
    · cases h

/-- A return atom is refused only where it is an alias of a literal. -/
theorem redirectReturn_eq_ok_or (aliases : Aliases α) (a : Atom α) :
    redirectReturn aliases a = .ok (aliases.redirect a) ∨
      ∃ r x, redirectReturn aliases a = .error (.literalReturn r x) := by
  cases hret : redirectReturn aliases a with
  | ok b => exact Or.inl (by rw [eq_of_redirectReturn hret])
  | error e =>
    unfold redirectReturn at hret
    split at hret
    · cases hret
    · split at hret
      · cases hret
      · cases hret
      · cases hret
        exact Or.inr ⟨_, _, rfl⟩

/-- A return atom is refused where it is an alias of a literal. -/
theorem redirectReturn_eq_error {aliases : Aliases α} {a : Atom α} {e : Error α} :
    redirectReturn aliases a = .error e ↔
      ∃ r x, e = .literalReturn r x ∧ a = .reg r ∧ aliases.lookup r = some (.lit x) := by
  constructor
  · intro h
    unfold redirectReturn at h
    split at h
    · cases h
    · split at h
      · cases h
      · cases h
      · rename_i hlookup
        cases h
        exact ⟨_, _, rfl, rfl, hlookup⟩
  · rintro ⟨r, x, rfl, rfl, hlookup⟩
    rw [redirectReturn, hlookup]

/-- A return atom that is not an alias stays. -/
theorem redirectReturn_of_lookup_none {aliases : Aliases α} {a : Atom α}
    (h : ∀ r, a = .reg r → aliases.lookup r = none) : redirectReturn aliases a = .ok a := by
  cases a with
  | lit x => rfl
  | reg r => rw [redirectReturn, h r rfl]

end Trace

/-! ## All readers -/

/-- An equation with its operands redirected, unless it makes an alias. -/
def Equation.resolve (aliases : Aliases α) (e : Equation α) : Equation α :=
  if e.isAlias then e else e.redirect aliases

theorem Equation.resolve_of_alias {e : Equation α} (h : e.isAlias = true) (aliases : Aliases α) :
    e.resolve aliases = e := if_pos h

theorem Equation.resolve_of_not_alias {e : Equation α} (h : e.isAlias = false)
    (aliases : Aliases α) : e.resolve aliases = e.redirect aliases :=
  if_neg (Bool.eq_false_iff.mp h)

/-- Substitution keeps what an equation binds. -/
theorem Equation.binder_resolve (aliases : Aliases α) (e : Equation α) :
    (e.resolve aliases).binder = e.binder := by
  unfold resolve
  split <;> rfl

/-- And it keeps the operation. -/
theorem Equation.op_resolve (aliases : Aliases α) (e : Equation α) :
    (e.resolve aliases).rhs.op = e.rhs.op := by
  unfold resolve
  split <;> rfl

/-- So it makes no alias and unmakes none. -/
theorem Equation.isAlias_resolve (aliases : Aliases α) (e : Equation α) :
    (e.resolve aliases).isAlias = e.isAlias := by
  rw [isAlias, isAlias, op_resolve]

theorem Trace.binders_map_resolve (aliases : Aliases α) (es : List (Equation α)) :
    Trace.binders (es.map (Equation.resolve aliases)) = Trace.binders es := by
  rw [Trace.binders, Trace.binders, List.map_map]
  exact List.map_congr_left fun e _ => e.binder_resolve aliases

theorem Equation.isAlias_iff {e : Equation α} : e.isAlias = true ↔ e.rhs.op = .id := by
  simp [Equation.isAlias]

theorem Equation.isAlias_eq_false_iff {e : Equation α} : e.isAlias = false ↔ e.rhs.op ≠ .id := by
  rw [← Bool.not_eq_true, Equation.isAlias_iff]

/-- An equation that is no alias has another right-hand side. -/
theorem Equation.rhs_ne_alias {e : Equation α} (h : e.isAlias = false) {as : List (Atom α)} :
    e.rhs ≠ ⟨.id, as⟩ := by
  intro hrhs
  exact Equation.isAlias_eq_false_iff.mp h (by rw [hrhs])

/-- Redirection looks up what the equation reads and nothing else. -/
theorem Equation.redirect_congr {aliases aliases' : Aliases α} {e : Equation α}
    (h : ∀ r ∈ e.reads, aliases.lookup r = aliases'.lookup r) :
    e.redirect aliases = e.redirect aliases' := by
  unfold Equation.redirect
  congr 2
  refine List.map_congr_left fun a ha => ?_
  cases a with
  | lit x => rfl
  | reg r => rw [Aliases.redirect, Aliases.redirect, h r (Equation.mem_reads.mpr ha)]

/-- An alias with as many operands as it takes has one. -/
theorem Equation.eq_alias {e : Equation α} (hlen : e.rhs.args.length = e.rhs.op.arity)
    (halias : e.isAlias = true) : ∃ a, e = ⟨e.binder, .id, [a]⟩ := by
  have hop := Equation.isAlias_iff.mp halias
  rw [hop] at hlen
  obtain ⟨a, ha⟩ := List.length_eq_one_iff.mp hlen
  obtain ⟨r, op, args⟩ := e
  cases hop
  cases ha
  exact ⟨a, rfl⟩

namespace Trace

variable {bound : List Register} {es : List (Equation α)}

/-- **Every reader is redirected through all aliases of the trace.**  The aliases are those bound
before, and those that the equations make. -/
theorem redirectAll_eq (hord : Ordered bound es) {aliases : Aliases α}
    (hal : KeysIn bound aliases) :
    ∃ final : Aliases α, redirectAll aliases es = .ok (final, es.map (Equation.resolve final)) ∧
      ∀ r a, final.lookup r = some a ↔ ⟨r, .id, [a]⟩ ∈ es ∨ aliases.lookup r = some a := by
  induction es generalizing bound aliases with
  | nil => exact ⟨aliases, rfl, by simp⟩
  | cons e es ih =>
    have hbinder : aliases.lookup e.binder = none := hal.lookup_eq_none hord.1.fresh
    by_cases halias : e.isAlias
    · obtain ⟨a, he⟩ := Equation.eq_alias hord.1.arity halias
      obtain ⟨final, hrun, hfinal⟩ := ih hord.2 (hal.cons e.binder a)
      refine ⟨final, ?_, fun r b => ?_⟩
      · have hargs : e.rhs.args = [a] := by rw [he]
        rw [redirectAll, if_pos halias, hargs]
        simp only [hrun]
        show Except.ok _ = _
        rw [List.map_cons, Equation.resolve, if_pos halias]
      · -- the new alias comes first, and none before it has the same binder
        rw [hfinal, List.mem_cons, or_assoc, or_left_comm]
        refine or_congr_right ?_
        by_cases hre : r = e.binder
        · subst hre
          rw [List.lookup_cons_self, hbinder, he]
          simp [eq_comm]
        · rw [List.lookup_cons, beq_eq_false_iff_ne.mpr hre, he]
          simp [hre]
    · obtain ⟨final, hrun, hfinal⟩ := ih hord.2 (hal.mono (List.subset_cons_self _ _))
      refine ⟨final, ?_, fun r b => ?_⟩
      · -- the aliases that are made later have binders that the equation does not read
        have hredirect : e.redirect aliases = e.redirect final := by
          refine Equation.redirect_congr fun r hr => Option.ext fun a => ?_
          rw [hfinal]
          refine (or_iff_right fun hmem => ?_).symm
          exact hord.2.binder_not_mem hmem (List.mem_cons_of_mem _ (hord.1.reads r hr))
        rw [redirectAll, if_neg halias, hrun]
        show Except.ok _ = _
        rw [List.map_cons, Equation.resolve, if_neg halias, hredirect]
      · rw [hfinal, List.mem_cons]
        refine or_congr_left (iff_or_self.mpr ?_)
        rintro rfl
        exact absurd rfl halias

/-- **Substitution in a well-formed trace.**  All aliases are substituted, one hop, into every
equation that makes none, and into the return atom unless it is refused. -/
theorem resolveAliases_eq {t : Trace α} (hord : Ordered bound t.equations) :
    ∃ aliases : Aliases α, (∀ r a, aliases.lookup r = some a ↔ ⟨r, .id, [a]⟩ ∈ t.equations) ∧
      t.resolveAliases = (redirectReturn aliases t.ret).map fun ret =>
        { t with
          equations := dropUnreadAliases ret (t.equations.map (Equation.resolve aliases))
          ret := ret } := by
  obtain ⟨aliases, hrun, hlookup⟩ := redirectAll_eq hord KeysIn.nil
  refine ⟨aliases, fun r a => ?_, ?_⟩
  · rw [hlookup]
    simp
  · unfold resolveAliases
    rw [hrun]
    show (redirectReturn aliases t.ret >>= _) = _
    cases redirectReturn aliases t.ret <;> rfl

/-- A trace whose aliases are substituted. -/
theorem resolveAliases_eq_ok {t t' : Trace α} (hord : Ordered bound t.equations)
    (h : t.resolveAliases = .ok t') :
    ∃ aliases : Aliases α, (∀ r a, aliases.lookup r = some a ↔ ⟨r, .id, [a]⟩ ∈ t.equations) ∧
      redirectReturn aliases t.ret = .ok t'.ret ∧
      t'.equations = dropUnreadAliases t'.ret (t.equations.map (Equation.resolve aliases)) := by
  obtain ⟨aliases, hlookup, heq⟩ := resolveAliases_eq hord
  rw [heq] at h
  refine ⟨aliases, hlookup, ?_⟩
  cases hret : redirectReturn aliases t.ret with
  | error e =>
    rw [hret] at h
    cases h
  | ok ret =>
    rw [hret] at h
    cases h
    exact ⟨rfl, rfl⟩

/-- Substitution is refused where the return register is an alias of a literal, and nowhere else. -/
theorem resolveAliases_eq_error {t : Trace α} {e : Error α} (hord : Ordered bound t.equations) :
    t.resolveAliases = .error e ↔
      ∃ r x, e = .literalReturn r x ∧ t.ret = .reg r ∧ ⟨r, .id, [.lit x]⟩ ∈ t.equations := by
  obtain ⟨aliases, hlookup, heq⟩ := resolveAliases_eq hord
  have hret : t.resolveAliases = .error e ↔ redirectReturn aliases t.ret = .error e := by
    rw [heq]
    cases redirectReturn aliases t.ret <;> simp [Except.map]
  rw [hret, redirectReturn_eq_error]
  simp only [hlookup]

/-! ## Dropping -/

/-- Dropping unread aliases drops equations only. -/
theorem keepRead_sublist (read : List Register) (es : List (Equation α)) :
    (es.foldr keepRead (read, [])).2.Sublist es := by
  induction es with
  | nil => exact List.Sublist.refl _
  | cons e es ih =>
    rw [List.foldr_cons, keepRead]
    by_cases halias : e.isAlias
    · rw [if_pos halias]
      by_cases hread : e.binder ∈ (es.foldr keepRead (read, [])).1
      · rw [if_pos hread]
        exact ih.cons_cons e
      · rw [if_neg hread]
        exact ih.cons e
    · rw [if_neg halias]
      exact ih.cons_cons e

theorem dropUnreadAliases_sublist (ret : Atom α) (es : List (Equation α)) :
    (dropUnreadAliases ret es).Sublist es := keepRead_sublist _ es

/-- If nobody reads an alias, all of them are dropped. -/
theorem keepRead_eq_filter {read : List Register} (h : ∀ e ∈ es, e.isAlias → e.binder ∉ read) :
    es.foldr keepRead (read, []) = (read, es.filter fun e => !e.isAlias) := by
  induction es with
  | nil => rfl
  | cons e es ih =>
    rw [List.foldr_cons, ih fun e' he' => h e' (List.mem_cons_of_mem _ he'), keepRead]
    by_cases halias : e.isAlias
    · rw [if_pos halias, if_neg (h e List.mem_cons_self halias)]
      simp [halias]
    · rw [if_neg halias]
      simp [halias]

/-- Registers that are read at the end are read all along the sweep. -/
theorem subset_keepRead (read : List Register) (es : List (Equation α)) :
    read ⊆ (es.foldr keepRead (read, [])).1 := by
  induction es with
  | nil => exact List.Subset.refl _
  | cons e es ih =>
    rw [List.foldr_cons, keepRead]
    split
    · split
      · exact List.subset_append_of_subset_right _ ih
      · exact ih
    · exact ih

/-- Aliases that are read at the end are kept, and so are all other equations. -/
theorem mem_keepRead {read : List Register} {e : Equation α} (he : e ∈ es)
    (h : e.isAlias = true → e.binder ∈ read) : e ∈ (es.foldr keepRead (read, [])).2 := by
  induction es with
  | nil => cases he
  | cons e' es ih =>
    rw [List.foldr_cons, keepRead]
    rcases List.mem_cons.mp he with rfl | he
    · split
      · rename_i halias
        rw [if_pos (subset_keepRead read es (h halias))]
        exact List.mem_cons_self
      · exact List.mem_cons_self
    · split
      · split
        · exact List.mem_cons_of_mem _ (ih he)
        · exact ih he
      · exact List.mem_cons_of_mem _ (ih he)

/-- An alias is kept when its binder is on the list at the end of the sweep, for nothing before it
reads the binder; and so are all other equations. -/
theorem mem_keepRead_of_mem {read : List Register} {e : Equation α} (hord : Ordered bound es)
    (he : e ∈ es) (h : e.isAlias = true → e.binder ∈ (es.foldr keepRead (read, [])).1) :
    e ∈ (es.foldr keepRead (read, [])).2 := by
  induction es generalizing bound with
  | nil => cases he
  | cons e' es ih =>
    rw [List.foldr_cons, keepRead] at h ⊢
    rcases List.mem_cons.mp he with rfl | he
    · split
      · rename_i halias
        have hread := h halias
        rw [if_pos halias] at hread
        split at hread
        · rename_i hmem
          rw [if_pos hmem]
          exact List.mem_cons_self
        · rename_i hmem
          exact absurd hread hmem
      · exact List.mem_cons_self
    · have hfresh : e.binder ∉ e'.reads := fun hr =>
        hord.2.binder_not_mem he (List.mem_cons_of_mem _ (hord.1.reads _ hr))
      split at h
      · rename_i halias'
        rw [if_pos halias']
        split at h
        · rename_i hmem
          rw [if_pos hmem]
          refine List.mem_cons_of_mem _ (ih hord.2 he fun halias => ?_)
          exact (List.mem_append.mp (h halias)).resolve_left hfresh
        · rename_i hmem
          rw [if_neg hmem]
          exact ih hord.2 he h
      · rename_i halias'
        rw [if_neg halias']
        exact List.mem_cons_of_mem _ (ih hord.2 he h)

/-- No alias is kept unless one of those that are kept is read by the return atom or by another
equation. -/
theorem not_isAlias_of_unread {ret : Atom α}
    (h : ∀ e ∈ dropUnreadAliases ret es, e.isAlias = true → ret ≠ .reg e.binder ∧
      ∀ e' ∈ dropUnreadAliases ret es, e'.isAlias = false → .reg e.binder ∉ e'.rhs.args) :
    ∀ e ∈ dropUnreadAliases ret es, e.isAlias = false := by
  have hunread : ∀ e ∈ es, e.isAlias →
      e.binder ∉ ret.regs ++ (es.filter fun e => !e.isAlias).flatMap Equation.reads := by
    intro e he halias hread
    obtain ⟨hret, hargs⟩ := h e (mem_keepRead he fun _ => hread) halias
    rcases List.mem_append.mp hread with hr | hr
    · cases ret with
      | lit x => cases hr
      | reg r => exact hret (congrArg Atom.reg (List.mem_singleton.mp hr).symm)
    · obtain ⟨e', he', hr⟩ := List.mem_flatMap.mp hr
      obtain ⟨he', halias'⟩ := List.mem_filter.mp he'
      have hfalse : e'.isAlias = false := by simpa using halias'
      refine hargs e' (mem_keepRead he' fun htrue => ?_) hfalse (Equation.mem_reads.mp hr)
      rw [hfalse] at htrue
      cases htrue
  intro e he
  unfold dropUnreadAliases at he
  simp only [keepRead_eq_filter hunread] at he
  simpa using (List.mem_filter.mp he).2

/-- A register on the list of the sweep is read at the end, or by an alias that is kept. -/
theorem exists_reader_of_mem {read : List Register} {r : Register}
    (hr : r ∈ (es.foldr keepRead (read, [])).1) :
    r ∈ read ∨ ∃ e ∈ (es.foldr keepRead (read, [])).2, e.isAlias = true ∧ r ∈ e.reads := by
  induction es with
  | nil => exact Or.inl hr
  | cons e es ih =>
    have hkept : ∀ e₀ : Equation α, r ∈ (es.foldr keepRead (read, [])).1 → r ∈ read ∨
        ∃ e' ∈ e₀ :: (es.foldr keepRead (read, [])).2, e'.isAlias = true ∧ r ∈ e'.reads :=
      fun e₀ hr => (ih hr).imp_right fun ⟨e', he', h⟩ => ⟨e', List.mem_cons_of_mem _ he', h⟩
    rw [List.foldr_cons, keepRead] at hr ⊢
    split at hr
    · rename_i halias
      rw [if_pos halias]
      split at hr
      · rename_i hmem
        rw [if_pos hmem]
        rcases List.mem_append.mp hr with hr | hr
        · exact Or.inr ⟨e, List.mem_cons_self, halias, hr⟩
        · exact hkept e hr
      · rename_i hmem
        rw [if_neg hmem]
        exact ih hr
    · rename_i halias
      rw [if_neg halias]
      exact hkept e hr

/-- An alias that is kept is on the list of the sweep. -/
theorem binder_mem_keepRead {read : List Register} {e : Equation α}
    (he : e ∈ (es.foldr keepRead (read, [])).2) (halias : e.isAlias = true) :
    e.binder ∈ (es.foldr keepRead (read, [])).1 := by
  induction es with
  | nil => cases he
  | cons e' es ih =>
    rw [List.foldr_cons, keepRead] at he ⊢
    split at he
    · rename_i halias'
      rw [if_pos halias']
      split at he
      · rename_i hmem
        rw [if_pos hmem]
        rcases List.mem_cons.mp he with rfl | he
        · exact List.mem_append_right _ hmem
        · exact List.mem_append_right _ (ih he)
      · rename_i hmem
        rw [if_neg hmem]
        exact ih he
    · rename_i halias'
      rw [if_neg halias']
      rcases List.mem_cons.mp he with rfl | he
      · exact absurd halias halias'
      · exact ih he

/-- The sweep keeps every equation that is no alias. -/
theorem filter_keepRead (read : List Register) (es : List (Equation α)) :
    (es.foldr keepRead (read, [])).2.filter (fun e => !e.isAlias) =
      es.filter fun e => !e.isAlias := by
  induction es with
  | nil => rfl
  | cons e es ih =>
    rw [List.foldr_cons, keepRead]
    cases halias : e.isAlias with
    | true =>
      rw [if_pos rfl]
      split
      · simp [halias, ih]
      · simp [halias, ih]
    | false =>
      rw [if_neg Bool.false_ne_true]
      simp [halias, ih]

/-! ## Traces without aliases -/

/-- Where there is no alias there is nothing to substitute. -/
theorem resolveAliases_of_not_isAlias {t : Trace α} (hord : Ordered bound t.equations)
    (h : ∀ e ∈ t.equations, e.isAlias = false) : t.resolveAliases = .ok t := by
  obtain ⟨aliases, hlookup, heq⟩ := resolveAliases_eq hord
  have hnone : ∀ r, aliases.lookup r = none := by
    intro r
    cases hr : aliases.lookup r with
    | none => rfl
    | some a => cases h _ ((hlookup r a).mp hr)
  have hredirect : ∀ a : Atom α, aliases.redirect a = a := by
    intro a
    rcases aliases.redirect_cases a with ⟨r, -, hr⟩ | ⟨heq, -⟩
    · rw [hnone r] at hr
      cases hr
    · exact heq
  have hes : t.equations.map (Equation.resolve aliases) = t.equations := by
    refine (List.map_congr_left fun e he => ?_).trans (List.map_id _)
    rw [Equation.resolve_of_not_alias (h e he), Equation.redirect,
      List.map_congr_left fun a _ => hredirect a, List.map_id']
    rfl
  have hdrop : dropUnreadAliases t.ret t.equations = t.equations := by
    have hunread : ∀ e ∈ t.equations, e.isAlias →
        e.binder ∉ t.ret.regs ++ (t.equations.filter fun e => !e.isAlias).flatMap Equation.reads :=
      fun e he halias => absurd halias (by rw [h e he]; exact Bool.false_ne_true)
    unfold dropUnreadAliases
    simp only [keepRead_eq_filter hunread]
    exact List.filter_eq_self.mpr fun e he => by rw [h e he]; rfl
  rw [heq, redirectReturn_of_lookup_none fun r _ => hnone r, hes, Except.map, hdrop]

end Trace

end DualTrace
