/-
# Matching, position by position

A rule is applied in one pass over the operands, which collects captures and stops at the first
operand that does not fit.  What comes out depends on positions alone: a literal pattern asks for an
equal literal, the first occurrence of a slot takes any operand, and a later one asks for an operand
that is equal to the first.

* `Pattern.FirstAt`, `Pattern.Captured` : the first occurrence of a slot, and the operand there;
* `Rule.Matches` : what a rule asks of an instruction;
* `Rule.Makes` : what it makes of the instruction;
* `Rule.apply_exact` : a rule applies exactly to the instructions that it matches.

The induction is on the operands that were matched so far, since a capture is settled by what comes
before it and not by what follows.  Equality is `==` throughout.  It need not be reflexive, and
therefore the operand at the first occurrence of a slot is not compared with itself.
-/
import DualTrace.Proofs.Rewriting
import Mathlib.Data.List.Induction
import Mathlib.Data.Nat.Find

namespace DualTrace

variable {α : Type}

/-! ## Positions -/

namespace Pattern

variable {ps : List (Pattern α)} {p : Pattern α} {as : List (Atom α)} {a b : Atom α} {slot : Nat}

/-- A slot occurs in a list of patterns, and this is the first position where it does. -/
def FirstAt (ps : List (Pattern α)) (slot j : Nat) : Prop :=
  ps[j]? = some (.bind slot) ∧ ∀ k < j, ps[k]? ≠ some (.bind slot)

/-- The operand at the first occurrence of a slot. -/
def Captured (ps : List (Pattern α)) (as : List (Atom α)) (slot : Nat) (a : Atom α) : Prop :=
  ∃ j, FirstAt ps slot j ∧ as[j]? = some a

/-- A slot that occurs has a first occurrence. -/
theorem exists_firstAt_iff : (∃ j, FirstAt ps slot j) ↔ .bind slot ∈ ps := by
  classical
  constructor
  · rintro ⟨j, hj, -⟩
    exact List.mem_of_getElem? hj
  · intro h
    have hex := List.mem_iff_getElem?.mp h
    exact ⟨Nat.find hex, Nat.find_spec hex, fun k hk => Nat.find_min hex hk⟩

theorem FirstAt.lt_length {j : Nat} (hj : FirstAt ps slot j) : j < ps.length :=
  (List.getElem?_eq_some_iff.mp hj.1).1

/-- Where there are as many operands as patterns, exactly the slots that occur have an operand. -/
theorem exists_captured_iff (hlen : as.length = ps.length) :
    (∃ a, Captured ps as slot a) ↔ .bind slot ∈ ps := by
  rw [← exists_firstAt_iff]
  constructor
  · rintro ⟨a, j, hj, -⟩
    exact ⟨j, hj⟩
  · rintro ⟨j, hj⟩
    exact ⟨as.get ⟨j, hlen ▸ hj.lt_length⟩, j, hj, List.getElem?_eq_getElem _⟩

/-- A pattern and its operand are the last ones or were there before. -/
theorem getElem?_concat_cases (hlen : as.length = ps.length) {k : Nat} {q : Pattern α} {c : Atom α}
    (hq : (ps ++ [p])[k]? = some q) (hc : (as ++ [a])[k]? = some c) :
    ps[k]? = some q ∧ as[k]? = some c ∨ k = ps.length ∧ q = p ∧ c = a := by
  have hk := (List.getElem?_eq_some_iff.mp hq).1
  rw [List.length_append, List.length_singleton] at hk
  rcases Nat.lt_succ_iff_lt_or_eq.mp hk with hlt | rfl
  · rw [List.getElem?_append_left hlt] at hq
    rw [List.getElem?_append_left (hlen ▸ hlt)] at hc
    exact Or.inl ⟨hq, hc⟩
  · rw [List.getElem?_concat_length, Option.some.injEq] at hq
    rw [← hlen, List.getElem?_concat_length, Option.some.injEq] at hc
    exact Or.inr ⟨rfl, hq.symm, hc.symm⟩

/-- What is found in a list is found there when something follows. -/
theorem getElem?_concat_of_some {β : Type} {xs : List β} {x y : β} {k : Nat}
    (hx : xs[k]? = some x) : (xs ++ [y])[k]? = some x :=
  (List.getElem?_append_left (List.getElem?_eq_some_iff.mp hx).1).trans hx

/-- The last of some patterns is the first occurrence of a slot only if no other one is. -/
theorem firstAt_concat {j : Nat} : FirstAt (ps ++ [p]) slot j ↔
    FirstAt ps slot j ∨ j = ps.length ∧ p = .bind slot ∧ .bind slot ∉ ps := by
  constructor
  · rintro ⟨hj, hfirst⟩
    have hbefore : ∀ k < j, ps[k]? ≠ some (.bind slot) :=
      fun k hk heq => hfirst k hk (getElem?_concat_of_some heq)
    have hle : j < ps.length + 1 := by
      simpa using (List.getElem?_eq_some_iff.mp hj).1
    rcases Nat.lt_succ_iff_lt_or_eq.mp hle with hlt | rfl
    · rw [List.getElem?_append_left hlt] at hj
      exact Or.inl ⟨hj, hbefore⟩
    · refine Or.inr ⟨rfl, Option.some.inj (List.getElem?_concat_length.symm.trans hj), ?_⟩
      rw [← exists_firstAt_iff]
      rintro ⟨k, hk⟩
      exact hbefore k hk.lt_length hk.1
  · rintro (hj | ⟨rfl, rfl, hnot⟩)
    · refine ⟨getElem?_concat_of_some hj.1, fun k hk heq => hj.2 k hk ?_⟩
      rwa [List.getElem?_append_left (Nat.lt_trans hk hj.lt_length)] at heq
    · refine ⟨List.getElem?_concat_length, fun k hk heq => hnot ?_⟩
      rw [List.getElem?_append_left hk] at heq
      exact List.mem_of_getElem? heq

/-- One more operand is captured for a slot only if the slot has no operand yet. -/
theorem captured_concat (hlen : as.length = ps.length) : Captured (ps ++ [p]) (as ++ [a]) slot b ↔
    Captured ps as slot b ∨ p = .bind slot ∧ .bind slot ∉ ps ∧ b = a := by
  constructor
  · rintro ⟨j, hj, hb⟩
    rcases firstAt_concat.mp hj with hj | ⟨rfl, hp, hnot⟩
    · rw [List.getElem?_append_left (hlen ▸ hj.lt_length)] at hb
      exact Or.inl ⟨j, hj, hb⟩
    · rw [← hlen, List.getElem?_concat_length, Option.some.injEq] at hb
      exact Or.inr ⟨hp, hnot, hb.symm⟩
  · rintro (⟨j, hj, hb⟩ | ⟨hp, hnot, rfl⟩)
    · exact ⟨j, firstAt_concat.mpr (Or.inl hj), getElem?_concat_of_some hb⟩
    · exact ⟨ps.length, firstAt_concat.mpr (Or.inr ⟨rfl, hp, hnot⟩),
        hlen ▸ List.getElem?_concat_length⟩

end Pattern

/-! ## What patterns ask of operands -/

variable [Scalar α]

namespace Pattern

variable {ps : List (Pattern α)} {p : Pattern α} {as : List (Atom α)} {a b : Atom α} {slot : Nat}

/-- Operands fit patterns: there are as many, each literal pattern has an equal literal, and each
later occurrence of a slot has an operand that is equal to the one at the first. -/
structure Fit (ps : List (Pattern α)) (as : List (Atom α)) : Prop where
  count : as.length = ps.length
  literals : ∀ {j : Nat} {x : α} {a : Atom α}, ps[j]? = some (.lit x) → as[j]? = some a →
    ∃ y, a = .lit y ∧ (y == x) = true
  repeats : ∀ {j k slot : Nat} {a b : Atom α}, FirstAt ps slot j → as[j]? = some a →
    j < k → ps[k]? = some (.bind slot) → as[k]? = some b → (a == b) = true

/-- A pattern admits one more operand behind the operands `as` at the patterns `ps`. -/
def Admits (ps : List (Pattern α)) (as : List (Atom α)) : Pattern α → Atom α → Prop
  | any, _ => True
  | lit x, a => ∃ y, a = .lit y ∧ (y == x) = true
  | bind slot, a => ∀ b, Captured ps as slot b → (b == a) = true

/-- Operands fit one by one. -/
theorem fit_concat (hlen : as.length = ps.length) :
    Fit (ps ++ [p]) (as ++ [a]) ↔ Fit ps as ∧ p.Admits ps as a := by
  have hp : (ps ++ [p])[ps.length]? = some p := List.getElem?_concat_length
  have ha : (as ++ [a])[ps.length]? = some a := hlen ▸ List.getElem?_concat_length
  have hfirst : ∀ {slot j}, FirstAt ps slot j → FirstAt (ps ++ [p]) slot j :=
    fun hj => firstAt_concat.mpr (Or.inl hj)
  constructor
  · intro h
    refine ⟨⟨hlen, fun hx hy => ?_, fun hj hb hjk hk hc => ?_⟩, ?_⟩
    · exact h.literals (getElem?_concat_of_some hx) (getElem?_concat_of_some hy)
    · exact h.repeats (hfirst hj) (getElem?_concat_of_some hb) hjk (getElem?_concat_of_some hk)
        (getElem?_concat_of_some hc)
    · cases p with
      | any => trivial
      | lit x => exact h.literals hp ha
      | bind slot =>
        rintro b ⟨j, hj, hb⟩
        exact h.repeats (hfirst hj) (getElem?_concat_of_some hb) hj.lt_length hp ha
  · rintro ⟨h, hadmits⟩
    refine ⟨by rw [List.length_append, List.length_append, hlen]; rfl, fun hx hy => ?_,
      fun {j k slot b c} hj hb hjk hk hc => ?_⟩
    · rcases getElem?_concat_cases hlen hx hy with ⟨hx, hy⟩ | ⟨-, rfl, rfl⟩
      · exact h.literals hx hy
      · exact hadmits
    · -- the first occurrence comes before the last pattern
      have hk' := getElem?_concat_cases hlen hk hc
      have hle : k ≤ ps.length := by
        rcases hk' with ⟨hk, -⟩ | ⟨rfl, -⟩
        · exact Nat.le_of_lt (List.getElem?_eq_some_iff.mp hk).1
        · exact Nat.le_refl _
      have hlt : j < ps.length := Nat.lt_of_lt_of_le hjk hle
      have hold := (firstAt_concat.mp hj).resolve_right fun h => absurd h.1 (Nat.ne_of_lt hlt)
      rw [List.getElem?_append_left (hlen ▸ hlt)] at hb
      rcases hk' with ⟨hk, hc⟩ | ⟨-, rfl, rfl⟩
      · exact h.repeats hold hb hjk hk hc
      · exact hadmits b ⟨j, hold, hb⟩

end Pattern

/-! ## The captures of a pass -/

/-- Captures that hold the operand at the first occurrence of each slot. -/
def Captures.Reflect (captures : Captures α) (ps : List (Pattern α)) (as : List (Atom α)) : Prop :=
  ∀ slot a, captures.lookup slot = some a ↔ Pattern.Captured ps as slot a

namespace Captures.Reflect

open Pattern

variable {captures captures' : Captures α} {ps : List (Pattern α)} {as : List (Atom α)}
  {p : Pattern α} {a : Atom α}

omit [Scalar α] in
theorem nil : Captures.Reflect ([] : Captures α) [] [] := by
  refine fun slot a => iff_of_false nofun ?_
  rintro ⟨j, ⟨hj, -⟩, -⟩
  cases hj

omit [Scalar α] in
/-- Nothing is captured for a slot exactly if the slot has not occurred. -/
theorem lookup_eq_none (h : captures.Reflect ps as) (hlen : as.length = ps.length) {slot : Nat} :
    captures.lookup slot = none ↔ .bind slot ∉ ps := by
  rw [← exists_captured_iff hlen, Option.eq_none_iff_forall_ne_some, not_exists]
  exact forall_congr' fun b => not_congr (h slot b)

/-- **One operand.**  It is taken exactly if it is admitted. -/
theorem capture?_isSome (h : captures.Reflect ps as) :
    (∃ captures', p.capture? captures a = some captures') ↔ p.Admits ps as a := by
  cases p with
  | any => exact iff_of_true ⟨_, rfl⟩ trivial
  | lit x =>
    cases a with
    | reg r => simp [Pattern.capture?, Admits]
    | lit y => simp [Pattern.capture?, Admits]
  | bind slot =>
    rw [Pattern.capture?]
    cases hslot : captures.lookup slot with
    | none =>
      refine iff_of_true ⟨_, rfl⟩ fun b hb => ?_
      rw [(h slot b).mpr hb] at hslot
      cases hslot
    | some b =>
      have hb : ∀ c, Captured ps as slot c ↔ b = c := fun c => by
        rw [← h slot c, hslot, Option.some.injEq]
      simp [Admits, hb]

/-- **One operand.**  It is captured if it is the first of its slot. -/
theorem capture? (h : captures.Reflect ps as) (hlen : as.length = ps.length)
    (hstep : p.capture? captures a = some captures') :
    captures'.Reflect (ps ++ [p]) (as ++ [a]) := by
  intro slot' b
  rw [captured_concat hlen, ← h slot' b]
  -- a pattern that captures nothing leaves the captures as they were
  have hsame : captures = captures' → p ≠ .bind slot' ∨ .bind slot' ∈ ps →
      (captures'.lookup slot' = some b ↔
        captures.lookup slot' = some b ∨ p = .bind slot' ∧ .bind slot' ∉ ps ∧ b = a) := by
    rintro rfl (hp | hmem)
    · exact ⟨Or.inl, fun h => h.resolve_right fun h => hp h.1⟩
    · exact ⟨Or.inl, fun h => h.resolve_right fun h => h.2.1 hmem⟩
  cases p with
  | any => exact hsame (Option.some.inj hstep) (Or.inl nofun)
  | lit x =>
    refine hsame ?_ (Or.inl nofun)
    cases a with
    | reg r => cases hstep
    | lit y => exact (Option.ite_none_right_eq_some.mp hstep).2 |> Option.some.inj
  | bind slot =>
    rw [Pattern.capture?] at hstep
    cases hslot : captures.lookup slot with
    | some c =>
      rw [hslot] at hstep
      refine hsame (Option.some.inj (Option.ite_none_right_eq_some.mp hstep).2) ?_
      by_cases heq : slot = slot'
      · refine Or.inr (heq ▸ ?_)
        exact (exists_captured_iff hlen).mp ⟨c, (h slot c).mp hslot⟩
      · exact Or.inl fun hp => heq (Pattern.bind.inj hp)
    | none =>
      rw [hslot] at hstep
      cases hstep
      by_cases heq : slot' = slot
      · subst heq
        have hnot := (h.lookup_eq_none hlen).mp hslot
        rw [List.lookup_cons_self, hslot]
        simp [hnot, eq_comm]
      · rw [List.lookup_cons, beq_eq_false_iff_ne.mpr heq]
        simp [Ne.symm heq]

end Captures.Reflect

namespace Pattern

variable {captures : Captures α} {ps : List (Pattern α)} {p : Pattern α} {as : List (Atom α)}
  {a : Atom α}

/-- A pass gets through only if there are as many operands as patterns. -/
theorem length_of_captureAll? {captures' : Captures α} :
    ∀ {ps : List (Pattern α)} {as : List (Atom α)} {captures : Captures α},
      captureAll? captures ps as = some captures' → as.length = ps.length
  | [], [], _, _ => rfl
  | [], _ :: _, _, h => nomatch h
  | _ :: _, [], _, h => nomatch h
  | _ :: _, _ :: _, _, h => by
    obtain ⟨_, -, hrest⟩ := Option.bind_eq_some_iff.mp h
    exact congrArg Nat.succ (length_of_captureAll? hrest)

/-- The last operand is matched with the captures of all others. -/
theorem captureAll?_concat : ∀ {ps : List (Pattern α)} {as : List (Atom α)} {captures : Captures α},
    as.length = ps.length → captureAll? captures (ps ++ [p]) (as ++ [a]) =
      (captureAll? captures ps as).bind fun captures => p.capture? captures a
  | [], [], captures, _ => by
    show (p.capture? captures a).bind some = (some captures).bind fun c => p.capture? c a
    rw [Option.bind_some, Option.bind_fun_some]
  | [], _ :: _, _, h => nomatch h
  | _ :: _, [], _, h => nomatch h
  | q :: ps, b :: as, captures, h => by
    show (q.capture? captures b).bind (fun captures => captureAll? captures (ps ++ [p]) (as ++ [a]))
      = ((q.capture? captures b).bind fun captures => captureAll? captures ps as).bind _
    rw [Option.bind_assoc]
    exact Option.bind_congr fun _ _ => captureAll?_concat (Nat.succ.inj h)

/-- **One operand more.**  What is known of a pass over some operands is known of the pass over
these and one more. -/
theorem captureAll?_exact_concat (hlen : as.length = ps.length)
    (hfit : (∃ captures, captureAll? [] ps as = some captures) ↔ Fit ps as)
    (hreflect : ∀ captures, captureAll? [] ps as = some captures → captures.Reflect ps as) :
    ((∃ captures, captureAll? [] (ps ++ [p]) (as ++ [a]) = some captures) ↔
        Fit (ps ++ [p]) (as ++ [a])) ∧
      ∀ captures, captureAll? [] (ps ++ [p]) (as ++ [a]) = some captures →
        captures.Reflect (ps ++ [p]) (as ++ [a]) := by
  simp only [captureAll?_concat hlen, fit_concat hlen, Option.bind_eq_some_iff]
  refine ⟨⟨?_, ?_⟩, ?_⟩
  · rintro ⟨_, captures, hcaptures, hlast⟩
    exact ⟨hfit.mp ⟨_, hcaptures⟩, (hreflect _ hcaptures).capture?_isSome.mp ⟨_, hlast⟩⟩
  · rintro ⟨hps, hadmits⟩
    obtain ⟨captures, hcaptures⟩ := hfit.mpr hps
    obtain ⟨captures', hlast⟩ := (hreflect _ hcaptures).capture?_isSome.mpr hadmits
    exact ⟨captures', captures, hcaptures, hlast⟩
  · rintro _ ⟨captures, hcaptures, hlast⟩
    exact (hreflect _ hcaptures).capture? hlen hlast

/-- A pass over lists of different lengths does not get through. -/
theorem captureAll?_exact_of_length_ne (hne : as.length ≠ ps.length) :
    ((∃ captures, captureAll? [] ps as = some captures) ↔ Fit ps as) ∧
      ∀ captures, captureAll? [] ps as = some captures → captures.Reflect ps as :=
  ⟨iff_of_false (fun ⟨_, h⟩ => hne (length_of_captureAll? h)) fun h => hne h.count,
    fun _ h => absurd (length_of_captureAll? h) hne⟩

/-- **A pass over all operands.**  It gets through exactly if the operands fit, and then it has
captured the operand at the first occurrence of each slot. -/
theorem captureAll?_exact (ps : List (Pattern α)) : ∀ as : List (Atom α),
    ((∃ captures, captureAll? [] ps as = some captures) ↔ Fit ps as) ∧
      ∀ captures, captureAll? [] ps as = some captures → captures.Reflect ps as := by
  induction ps using List.reverseRecOn with
  | nil =>
    intro as
    cases as with
    | nil =>
      refine ⟨iff_of_true ⟨_, rfl⟩ ⟨rfl, nofun, fun _ _ _ h => nomatch h⟩, fun captures h => ?_⟩
      cases h
      exact .nil
    | cons a as => exact captureAll?_exact_of_length_ne nofun
  | append_singleton ps p ih =>
    intro as
    by_cases hlen : as.length = (ps ++ [p]).length
    · cases as using List.reverseRecOn with
      | nil => simp at hlen
      | append_singleton as a =>
        have hlen' : as.length = ps.length := by simpa using hlen
        obtain ⟨hfit, hreflect⟩ := ih as
        exact captureAll?_exact_concat hlen' hfit hreflect
    · exact captureAll?_exact_of_length_ne hlen

end Pattern

/-! ## Templates -/

/-- A template puts an operand in place: its literal, or the operand at the first occurrence of its
slot. -/
def Template.Gives (ps : List (Pattern α)) (as : List (Atom α)) : Template α → Atom α → Prop
  | .lit x, b => b = .lit x
  | .capture slot, b => Pattern.Captured ps as slot b

namespace Captures.Reflect

variable {captures : Captures α} {ps : List (Pattern α)} {as : List (Atom α)}

omit [Scalar α] in
theorem fill?_eq_some (h : captures.Reflect ps as) (t : Template α) (b : Atom α) :
    t.fill? captures = some b ↔ t.Gives ps as b := by
  cases t with
  | lit x => exact Option.some_inj.trans eq_comm
  | capture slot => exact h slot b

omit [Scalar α] in
/-- Templates are filled in one by one, from the operands that were matched. -/
theorem mapM_fill?_eq_some (h : captures.Reflect ps as) {ts : List (Template α)}
    {bs : List (Atom α)} :
    ts.mapM (Template.fill? captures) = some bs ↔ List.Forall₂ (Template.Gives ps as) ts bs := by
  rw [Template.mapM_fill?_eq_some]
  exact ⟨fun hbs => hbs.imp fun t b => (h.fill?_eq_some t b).mp,
    fun hbs => hbs.imp fun t b => (h.fill?_eq_some t b).mpr⟩

end Captures.Reflect

omit [Scalar α] in
/-- There is something to put in place if every slot that is asked for occurs. -/
theorem Template.exists_forall₂_gives {ps : List (Pattern α)} {as : List (Atom α)}
    (hlen : as.length = ps.length) {ts : List (Template α)} :
    (∃ bs, List.Forall₂ (Template.Gives ps as) ts bs) ↔
      ∀ slot, .capture slot ∈ ts → .bind slot ∈ ps := by
  constructor
  · rintro ⟨bs, hbs⟩ slot hslot
    obtain ⟨k, hk, heq⟩ := List.getElem_of_mem hslot
    have hgives := hbs.get hk (hbs.length_eq ▸ hk)
    rw [List.get_eq_getElem, heq] at hgives
    exact (Pattern.exists_captured_iff hlen).mp ⟨_, hgives⟩
  · intro h
    induction ts with
    | nil => exact ⟨[], .nil⟩
    | cons t ts ih =>
      obtain ⟨bs, hbs⟩ := ih fun slot hslot => h slot (List.mem_cons_of_mem _ hslot)
      have hfirst : ∃ b, t.Gives ps as b := by
        cases t with
        | lit x => exact ⟨.lit x, rfl⟩
        | capture slot =>
          exact (Pattern.exists_captured_iff hlen).mpr (h slot List.mem_cons_self)
      obtain ⟨b, hb⟩ := hfirst
      exact ⟨b :: bs, .cons hb hbs⟩

/-! ## Rules -/

namespace Rule

/-- What a rule asks of an instruction: its operation, operands that fit the pattern, and that the
rule itself puts back only slots that occur in the pattern. -/
structure Matches (rule : Rule α) (i : Instruction (Atom α)) : Prop where
  op : i.op = rule.source
  fit : Pattern.Fit rule.pattern i.args
  bound : ∀ slot, .capture slot ∈ rule.template → .bind slot ∈ rule.pattern

/-- What a rule makes of an instruction: its own operation, on what the templates put in place. -/
structure Makes (rule : Rule α) (i i' : Instruction (Atom α)) : Prop where
  op : i'.op = rule.target
  args : List.Forall₂ (Template.Gives rule.pattern i.args) rule.template i'.args

/-- **A rule applies exactly to the instructions that it matches**, and it makes of them what its
templates say.  The rule may be any: slots may be repeated or not be used, and neither the pattern
nor the template need be as long as an operation takes. -/
theorem apply_exact (rule : Rule α) (i : Instruction (Atom α)) :
    ((∃ i', rule.apply i = some i') ↔ rule.Matches i) ∧
      ∀ i', rule.apply i = some i' ↔ rule.Matches i ∧ rule.Makes i i' := by
  obtain ⟨hfit, hreflect⟩ := Pattern.captureAll?_exact rule.pattern i.args
  have hiff : ∀ i', rule.apply i = some i' ↔ rule.Matches i ∧ rule.Makes i i' := by
    intro i'
    rw [apply_eq_some]
    constructor
    · rintro ⟨hop, hop', captures, hcaptures, hargs⟩
      have hpattern := hfit.mp ⟨captures, hcaptures⟩
      have hmade := (hreflect _ hcaptures).mapM_fill?_eq_some.mp hargs
      exact ⟨⟨hop, hpattern, (Template.exists_forall₂_gives hpattern.count).mp ⟨_, hmade⟩⟩,
        hop', hmade⟩
    · rintro ⟨hmatches, hmakes⟩
      obtain ⟨captures, hcaptures⟩ := hfit.mpr hmatches.fit
      exact ⟨hmatches.op, hmakes.op, captures, hcaptures,
        (hreflect _ hcaptures).mapM_fill?_eq_some.mpr hmakes.args⟩
  refine ⟨⟨fun ⟨i', h⟩ => ((hiff i').mp h).1, fun h => ?_⟩, hiff⟩
  obtain ⟨args, hargs⟩ := (Template.exists_forall₂_gives h.fit.count).mpr h.bound
  exact ⟨⟨rule.target, args⟩, (hiff _).mpr ⟨h, rfl, hargs⟩⟩

end Rule

/-- A rule for a choice between a zero and its own condition.  It asks for one operand twice and
puts it back twice. -/
def echoRule : Rule Float :=
  ⟨.iif, [.bind 7, .lit 0, .bind 7], .id, [.capture 7, .lit 1, .capture 7]⟩

/-- The negative zero matches zero and is kept where it is captured.  A number that is undefined is
not the same operand again. -/
theorem Rule.apply_exact_echoRule :
    echoRule.Matches ⟨.iif, [.lit (-0), .lit (-0), .lit 0]⟩ ∧
      echoRule.Makes ⟨.iif, [.lit (-0), .lit (-0), .lit 0]⟩ ⟨.id, [.lit (-0), .lit 1, .lit (-0)]⟩ ∧
      ¬ echoRule.Matches ⟨.iif, [.lit (0 / 0), .lit 0, .lit (0 / 0)]⟩ := by
  obtain ⟨hmatches, hmakes⟩ :=
    ((Rule.apply_exact echoRule ⟨.iif, [.lit (-0), .lit (-0), .lit 0]⟩).2
      ⟨.id, [.lit (-0), .lit 1, .lit (-0)]⟩).mp rfl
  refine ⟨hmatches, hmakes, fun h => ?_⟩
  obtain ⟨i', hi'⟩ := (Rule.apply_exact echoRule _).1.mpr h
  cases hi'

end DualTrace
