/-
# Chains of aliases

One pass moves every reader one hop down its chain of aliases, but it moves no alias.  What becomes
shorter are the chains themselves, from their far ends: an alias that is still there after the pass
has a reader that was moved to it, and this reader had been reading another alias.

* `Trace.AliasChain`, `Trace.chainLengths` : chains of aliases, and how long they are;
* `Trace.WellFormed.exists_reading_alias` : an alias that is left was read by another one;
* `Trace.WellFormed.chain_extends` : so every chain that is left was part of a longer one;
* `Trace.WellFormed.operations_resolveAliases` : all other equations stay, in their order;
* `Trace.resolveAliases_shortens` : how often the pass has to be applied.
-/
import DualTrace.Proofs.Convergence
import DualTrace.Proofs.Passes
import Mathlib.Data.List.Chain
import Mathlib.Data.List.Perm.Subperm
import Mathlib.Order.Lattice.Nat

namespace DualTrace

variable {α : Type}

namespace Trace

/-! ## Chains -/

/-- A chain of aliases of a trace: each of them reads the binder of the one before it. -/
structure AliasChain (t : Trace α) (chain : List (Equation α)) : Prop where
  mem : ∀ e ∈ chain, e ∈ t.equations
  aliases : ∀ e ∈ chain, e.isAlias = true
  links : chain.IsChain fun e e' => e.binder ∈ e'.reads

/-- The lengths of all chains of aliases.  The empty chain is one of them. -/
def chainLengths (t : Trace α) : Set Nat := {n | ∃ chain, t.AliasChain chain ∧ chain.length = n}

/-- What a substitution of aliases must leave: the binders and the operations of all other
equations. -/
def operations (t : Trace α) : List (Register × Op) :=
  (t.equations.filter fun e => !e.isAlias).map fun e => (e.binder, e.rhs.op)

variable {t t' : Trace α} {chain : List (Equation α)} {e : Equation α} {d : Nat}

theorem AliasChain.nil : t.AliasChain [] :=
  ⟨fun _ he => (List.not_mem_nil he).elim, fun _ he => (List.not_mem_nil he).elim, .nil⟩

/-- An alias by itself is a chain. -/
theorem AliasChain.singleton (he : e ∈ t.equations) (halias : e.isAlias = true) :
    t.AliasChain [e] :=
  ⟨fun _ h => List.mem_singleton.mp h ▸ he, fun _ h => List.mem_singleton.mp h ▸ halias,
    .singleton e⟩

namespace WellFormed

/-- Positions grow along a chain. -/
theorem positions_lt (h : t.WellFormed) (hchain : t.AliasChain chain) :
    chain.Pairwise fun e e' => t.position e.binder < t.position e'.binder := by
  have hlinks : chain.IsChain fun e e' => t.position e.binder < t.position e'.binder := by
    refine hchain.links.imp_of_mem_imp fun e e' he he' hread => ?_
    exact h.position_lt (hchain.mem e' he') (Equation.mem_reads.mp hread)
      (List.mem_map_of_mem (hchain.mem e he))
  rw [← List.pairwise_map (f := fun e : Equation α => t.position e.binder),
    ← List.isChain_iff_pairwise, List.isChain_map]
  exact hlinks

/-- No chain is longer than there are aliases. -/
theorem chain_length_le (h : t.WellFormed) (hchain : t.AliasChain chain) :
    chain.length ≤ (t.equations.filter Equation.isAlias).length := by
  have hnodup : chain.Nodup :=
    (h.positions_lt hchain).imp fun {e e'} hlt heq => absurd hlt (by rw [heq]; exact lt_irrefl _)
  refine (hnodup.subperm fun e he => ?_).length_le
  exact List.mem_filter.mpr ⟨hchain.mem e he, hchain.aliases e he⟩

/-- So one of the chains is a longest one. -/
theorem exists_isGreatest (h : t.WellFormed) : ∃ d, IsGreatest t.chainLengths d := by
  have hbound : BddAbove t.chainLengths := by
    refine ⟨(t.equations.filter Equation.isAlias).length, ?_⟩
    rintro n ⟨chain, hchain, rfl⟩
    exact h.chain_length_le hchain
  exact ⟨_, Nat.sSup_mem ⟨0, [], .nil, rfl⟩ hbound, fun n hn => le_csSup hbound hn⟩

/-! ## One pass -/

/-- Whatever leads to an alias after one hop was an alias of it before. -/
theorem reading_alias_of_redirect (h : t.WellFormed) {aliases : Aliases α}
    (hlookup : ∀ r a, aliases.lookup r = some a ↔ ⟨r, .id, [a]⟩ ∈ t.equations)
    (he : e ∈ t.equations) (halias : e.isAlias = true) {a : Atom α}
    (ha : aliases.redirect a = .reg e.binder) :
    ∃ e' ∈ t.equations, e'.isAlias = true ∧ e.binder ∈ e'.reads := by
  rcases aliases.redirect_cases a with ⟨r, -, hr⟩ | ⟨hstays, hnone⟩
  · rw [ha] at hr
    exact ⟨_, (hlookup r _).mp hr, rfl, List.mem_singleton_self _⟩
  · -- an atom that stays is no alias itself
    obtain ⟨b, hb⟩ := Equation.eq_alias (h.ordered.arity he) halias
    have hsome := (hlookup e.binder b).mpr (hb ▸ he)
    rw [hnone e.binder (hstays.symm.trans ha)] at hsome
    cases hsome

section Pass

variable (h : t.WellFormed) (hresolve : t.resolveAliases = .ok t')

include h hresolve

/-- An alias that is left after the pass is an alias of the trace. -/
theorem mem_of_alias_resolved (he : e ∈ t'.equations) (halias : e.isAlias = true) :
    e ∈ t.equations := by
  obtain ⟨aliases, -, -, hes⟩ := resolveAliases_eq_ok h.ordered hresolve
  rw [hes] at he
  obtain ⟨e₀, he₀, rfl⟩ := List.mem_map.mp ((dropUnreadAliases_sublist _ _).subset he)
  rw [Equation.isAlias_resolve] at halias
  rwa [Equation.resolve_of_alias halias]

/-- **An alias that is left was read by another alias.** -/
theorem exists_reading_alias (he : e ∈ t'.equations) (halias : e.isAlias = true) :
    ∃ e' ∈ t.equations, e'.isAlias = true ∧ e.binder ∈ e'.reads := by
  have hmem := h.mem_of_alias_resolved hresolve he halias
  obtain ⟨aliases, hlookup, hret, hes⟩ := resolveAliases_eq_ok h.ordered hresolve
  have hmoved : ∀ a : Atom α, aliases.redirect a = .reg e.binder →
      ∃ e' ∈ t.equations, e'.isAlias = true ∧ e.binder ∈ e'.reads := fun a ha =>
    h.reading_alias_of_redirect hlookup hmem halias ha
  rw [hes] at he
  rcases exists_reader_of_mem (binder_mem_keepRead he halias) with hread | ⟨e', he', halias', hr⟩
  · rcases List.mem_append.mp hread with hr | hr
    · -- it is returned
      cases hatom : t'.ret with
      | lit x =>
        rw [hatom] at hr
        cases hr
      | reg r =>
        rw [hatom] at hr
        refine hmoved t.ret ?_
        rw [← eq_of_redirectReturn hret, hatom, List.mem_singleton.mp hr]
    · -- another equation reads it
      obtain ⟨e₁, he₁, hr⟩ := List.mem_flatMap.mp hr
      obtain ⟨he₁, hplain⟩ := List.mem_filter.mp he₁
      obtain ⟨e₀, he₀, rfl⟩ := List.mem_map.mp he₁
      rw [Equation.isAlias_resolve, Bool.not_eq_true'] at hplain
      rw [Equation.resolve_of_not_alias hplain] at hr
      obtain ⟨a, -, ha⟩ := List.mem_map.mp (Equation.mem_reads.mp hr)
      exact hmoved a ha
  · refine ⟨e', h.mem_of_alias_resolved hresolve ?_ halias', halias', hr⟩
    rw [hes]
    exact he'

/-- **A chain that is left was part of a longer one.** -/
theorem chain_extends (hchain : t'.AliasChain chain) (hne : chain ≠ []) :
    ∃ e, t.AliasChain (chain ++ [e]) := by
  have hmem : ∀ e ∈ chain, e ∈ t.equations := fun e he =>
    h.mem_of_alias_resolved hresolve (hchain.mem e he) (hchain.aliases e he)
  have hlast := List.getLast_mem hne
  obtain ⟨e', he', halias', hread⟩ := h.exists_reading_alias hresolve
    (hchain.mem _ hlast) (hchain.aliases _ hlast)
  refine ⟨e', fun e he => ?_, fun e he => ?_, ?_⟩
  · rcases List.mem_append.mp he with he | he
    · exact hmem e he
    · exact List.mem_singleton.mp he ▸ he'
  · rcases List.mem_append.mp he with he | he
    · exact hchain.aliases e he
    · exact List.mem_singleton.mp he ▸ halias'
  · refine hchain.links.append (.singleton e') fun e he e'' he'' => ?_
    rw [List.getLast?_eq_some_getLast hne, Option.mem_some] at he
    rw [List.head?_cons, Option.mem_some] at he''
    rw [← he, ← he'']
    exact hread

/-- So all chains that are left are shorter than a bound for those before. -/
theorem chain_length_lt (hd : d ∈ upperBounds t.chainLengths) (hpos : 0 < d)
    (hchain : t'.AliasChain chain) : chain.length < d := by
  cases chain with
  | nil => exact hpos
  | cons e chain =>
    obtain ⟨e', hlonger⟩ := h.chain_extends hresolve hchain (List.cons_ne_nil _ _)
    have hle := hd ⟨_, hlonger, rfl⟩
    rw [List.length_append] at hle
    exact hle

/-- **All other equations stay**, in their order, with their binders and operations. -/
theorem operations_resolveAliases : t'.operations = t.operations := by
  obtain ⟨aliases, -, -, hes⟩ := resolveAliases_eq_ok h.ordered hresolve
  unfold operations
  rw [hes]
  unfold dropUnreadAliases
  rw [filter_keepRead, List.filter_map, List.map_map]
  have hplain : ((fun e : Equation α => !e.isAlias) ∘ Equation.resolve aliases) =
      fun e => !e.isAlias := funext fun e => congrArg not (e.isAlias_resolve aliases)
  rw [hplain]
  refine List.map_congr_left fun e _ => ?_
  exact congrArg₂ Prod.mk (e.binder_resolve aliases) (e.op_resolve aliases)

end Pass

/-! ## Any number of passes -/

/-- After as many passes as a chain can be long there is no alias left. -/
theorem not_isAlias_of_passes [Scalar α] {d : Nat} {t u : Trace α} (h : t.WellFormed)
    (hd : d ∈ upperBounds t.chainLengths)
    (hrun : (List.replicate d Pass.resolveAliases).foldlM Pass.apply t = .ok u) :
    u.WellFormed ∧ ∀ e ∈ u.equations, e.isAlias = false := by
  induction d generalizing t with
  | zero =>
    cases hrun
    refine ⟨h, fun e he => Bool.eq_false_iff.mpr fun halias => ?_⟩
    exact Nat.not_succ_le_zero 0 (hd ⟨[e], .singleton he halias, rfl⟩)
  | succ d ih =>
    rw [List.replicate_succ, List.foldlM_cons] at hrun
    obtain ⟨t', hresolve, hrun⟩ := Check.bind_eq_ok.mp hrun
    have hresolve : t.resolveAliases = .ok t' := hresolve
    refine ih (hresolve ▸ h.resolveAliases).trimOf.wellFormed ?_ hrun
    rintro n ⟨chain, hchain, rfl⟩
    exact Nat.lt_succ_iff.mp (h.chain_length_lt hresolve hd (Nat.succ_pos d) hchain)

/-- Where there is no alias, passes change nothing. -/
theorem passes_of_not_isAlias [Scalar α] (h : t.WellFormed)
    (halias : ∀ e ∈ t.equations, e.isAlias = false) (n : Nat) :
    (List.replicate n Pass.resolveAliases).foldlM Pass.apply t = .ok t := by
  induction n with
  | zero => rfl
  | succ n ih =>
    rw [List.replicate_succ, List.foldlM_cons]
    exact Check.bind_eq_ok.mpr ⟨t, resolveAliases_of_not_isAlias h.ordered halias, ih⟩

end WellFormed

/-- **Chains of aliases lose a link per pass.**  Take a trace that passes the check, and the length
`d` of its longest chain of aliases, which is zero if it has none.

* A pass that succeeds leaves all other equations, and if there is a chain at all, the longest one
  that is left is shorter.
* So after `d` passes, if they succeed, there is no alias left, and any number of further passes
  leads to the same trace. -/
theorem resolveAliases_shortens [Scalar α] {t : Trace α} (hcheck : t.check = .ok ()) :
    ∃ d, IsGreatest t.chainLengths d ∧
      (∀ t', t.resolveAliases = .ok t' → t'.operations = t.operations ∧
        (0 < d → ∃ d' < d, IsGreatest t'.chainLengths d')) ∧
      ∀ u, (List.replicate d Pass.resolveAliases).foldlM Pass.apply t = .ok u →
        (∀ e ∈ u.equations, e.isAlias = false) ∧
          ∀ n, (List.replicate n Pass.resolveAliases).foldlM Pass.apply u = .ok u := by
  have h := check_eq_ok_iff.mp hcheck
  obtain ⟨d, hd⟩ := h.exists_isGreatest
  refine ⟨d, hd, fun t' hresolve => ⟨h.operations_resolveAliases hresolve, fun hpos => ?_⟩,
    fun u hrun => ?_⟩
  · obtain ⟨d', hd'⟩ := (hresolve ▸ h.resolveAliases).trimOf.wellFormed.exists_isGreatest
    obtain ⟨chain, hchain, hlen⟩ := hd'.1
    exact ⟨d', hlen ▸ h.chain_length_lt hresolve hd.2 hpos hchain, hd'⟩
  · obtain ⟨hwf, halias⟩ := h.not_isAlias_of_passes hd.2 hrun
    exact ⟨halias, hwf.passes_of_not_isAlias halias⟩

/-- The trace of `x * x + x` with `x` behind a chain of three aliases, which is also read from its
middle. -/
def linkedTrace : Trace Int :=
  let x : Register := ⟨0, 0, .param⟩
  let v (i : UInt32) : Register := ⟨0, i, .result⟩
  { params := [x]
    equations := [⟨v 1, .id, [.reg x]⟩, ⟨v 2, .id, [.reg (v 1)]⟩, ⟨v 3, .id, [.reg (v 2)]⟩,
      ⟨v 4, .mul, [.reg (v 1), .reg (v 2)]⟩, ⟨v 5, .add, [.reg (v 4), .reg (v 3)]⟩]
    ret := .reg (v 5) }

/-- The chain of `linkedTrace` is gone after three passes, and the first one leaves the product and
the sum. -/
theorem resolveAliases_shortens_linkedTrace :
    linkedTrace.check = .ok () ∧ IsGreatest linkedTrace.chainLengths 3 ∧
      (∃ t', linkedTrace.resolveAliases = .ok t' ∧
        t'.operations = [(⟨0, 4, .result⟩, .mul), (⟨0, 5, .result⟩, .add)] ∧
        ∃ d' < 3, IsGreatest t'.chainLengths d') ∧
      ∃ u, (List.replicate 3 Pass.resolveAliases).foldlM Pass.apply linkedTrace = .ok u ∧
        (∀ e ∈ u.equations, e.isAlias = false) ∧
        ∀ n, (List.replicate n Pass.resolveAliases).foldlM Pass.apply u = .ok u := by
  obtain ⟨d, hd, hpass, htimes⟩ := resolveAliases_shortens (t := linkedTrace) rfl
  have hchain : linkedTrace.AliasChain (linkedTrace.equations.take 3) := by
    refine ⟨fun e he => List.mem_of_mem_take he, ?_, ?_⟩ <;>
      simp [linkedTrace, Equation.isAlias, Equation.reads, Atom.regs]
  obtain rfl : d = 3 := by
    obtain ⟨chain, hlongest, hlen⟩ := hd.1
    have hle := (check_eq_ok_iff.mp rfl).chain_length_le hlongest
    exact le_antisymm (hlen ▸ hle) (hd.2 ⟨_, hchain, rfl⟩)
  obtain ⟨hoperations, hshorter⟩ := hpass _ rfl
  obtain ⟨hgone, hstays⟩ := htimes _ rfl
  exact ⟨rfl, hd, ⟨_, rfl, hoperations, hshorter (Nat.succ_pos 2)⟩, _, rfl, hgone, hstays⟩

end Trace

end DualTrace
