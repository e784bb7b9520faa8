/-
# Two runs side by side

The same closed program is run twice, under two drivers that answer alike.  The runs take their tags
in lockstep, so the `i`-th instance of one belongs to the `i`-th instance of the other, and inside a
pair of instances values are related as around it or are dual numbers of the pair.

* `Check.Alike` : two results that are related, or two errors of the same kind;
* `Comparison` : what is to be compared, values and driver states, and where the tags start;
* `Comparison.Alike` : two runs that end alike whenever they start abreast;
* `Comparison.Level`, `Comparison.Inside` : how values are related around a pair of instances and
  inside it;
* `Comparison.Drivers.forward` : a pair of instances in front of drivers that answer alike;
* `Program.run_alike` : a closed program runs alike under drivers that answer alike.
-/
import DualTrace.Proofs.Closed
import DualTrace.Proofs.Reading
import DualTrace.Proofs.Run

namespace DualTrace

variable {σ τ α β γ δ ε : Type}

/-! ## Results -/

/-- Two checks that end alike, with results related by `Q` or with errors of the same kind. -/
inductive Check.Alike (Q : β → γ → Prop) : Except (Error α) β → Except (Error α) γ → Prop
  | ok {b : β} {c : γ} (h : Q b c) : Alike Q (.ok b) (.ok c)
  | error {e e' : Error α} (h : e.kind = e'.kind) : Alike Q (.error e) (.error e')

namespace Check.Alike

variable {Q R : β → γ → Prop} {x : Except (Error α) β} {y : Except (Error α) γ}

theorem imp (h : ∀ b c, Q b c → R b c) (hxy : Check.Alike Q x y) : Check.Alike R x y := by
  cases hxy with
  | ok hQ => exact .ok (h _ _ hQ)
  | error hkind => exact .error hkind

/-- Where one of them succeeds, so does the other. -/
theorem exists_ok (hxy : Check.Alike Q x y) (hx : x.isOk) :
    ∃ b c, x = .ok b ∧ y = .ok c ∧ Q b c := by
  cases hxy with
  | ok hQ => exact ⟨_, _, rfl, rfl, hQ⟩
  | error _ => cases hx

/-- A check ends like itself with its result changed. -/
theorem map (f : β → γ) (x : Except (Error α) β) :
    Check.Alike (fun b c => c = f b) x (x.map f) := by
  cases x with
  | ok b => exact .ok rfl
  | error e => exact .error rfl

/-- Checks that follow one another. -/
theorem bind {S : δ → ε → Prop} {f : β → Except (Error α) δ} {g : γ → Except (Error α) ε}
    (hxy : Check.Alike Q x y) (hf : ∀ b c, Q b c → Check.Alike S (f b) (g c)) :
    Check.Alike S (x >>= f) (y >>= g) := by
  cases hxy with
  | ok hQ => exact hf _ _ hQ
  | error hkind => exact .error hkind

/-- Checks that are made one after the other for each item of a list. -/
theorem foldlM {f : β → δ → Except (Error α) β} {g : γ → δ → Except (Error α) γ}
    (hf : ∀ b c d, Q b c → Check.Alike Q (f b d) (g c d)) (ds : List δ) {b : β} {c : γ}
    (h : Q b c) : Check.Alike Q (ds.foldlM f b) (ds.foldlM g c) := by
  induction ds generalizing b c with
  | nil => exact .ok h
  | cons d ds ih =>
    rw [List.foldlM_cons, List.foldlM_cons]
    exact (hf b c d h).bind fun _ _ => ih

/-- Two checks that end like a third one end alike. -/
theorem common {z : Except (Error α) δ} {Q : β → δ → Prop} {R : γ → δ → Prop}
    (hx : Check.Alike Q x z) (hy : Check.Alike R y z) :
    Check.Alike (fun b c => ∃ d, Q b d ∧ R c d) x y := by
  cases hx with
  | ok hQ => cases hy with | ok hR => exact .ok ⟨_, hQ, hR⟩
  | error hkind => cases hy with | error hkind' => exact .error (hkind.trans hkind'.symm)

/-- Checks that end one by one like the same others end alike one by one. -/
theorem forall₂_common {Q : β → δ → Prop} {R : γ → δ → Prop} {xs : List (Except (Error α) β)}
    {ys : List (Except (Error α) γ)} {zs : List (Except (Error α) δ)}
    (hx : List.Forall₂ (Check.Alike Q) xs zs) (hy : List.Forall₂ (Check.Alike R) ys zs) :
    List.Forall₂ (Check.Alike fun b c => ∃ d, Q b d ∧ R c d) xs ys := by
  induction hx generalizing ys with
  | nil => cases hy; exact .nil
  | cons hx _ ih => cases hy with | cons hy hys => exact .cons (hx.common hy) (ih hys)

end Check.Alike

/-- A value that the instance does not own has no tangent for a drive to complete with. -/
theorem Value.tangentOf_of_not_ownedBy {tag : Tag} {v : Value α} (h : ¬ v.OwnedBy tag) :
    ∃ e, v.tangentOf tag = .error e ∧ e.kind = .invariant := by
  cases v with
  | num x => exact ⟨_, rfl, rfl⟩
  | reg r => exact ⟨_, rfl, rfl⟩
  | dual owner p d => exact ⟨_, if_neg h, rfl⟩

/-! ## What is compared -/

/-- A comparison of two runs: the numbers of the first tags that they take, and how the states of
their drivers and the values in them are related.  Dual numbers of instances that start at the same
place are related part by part. -/
structure Comparison (σ τ α : Type) where
  left : Nat
  right : Nat
  states : σ → τ → Prop
  values : Value α → Value α → Prop
  dual : ∀ i {p q d e}, values p q → values d e →
    values (.dual ⟨left + i⟩ p d) (.dual ⟨right + i⟩ q e)

namespace Comparison

variable (C : Comparison σ τ α)

/-- The tag of the `i`-th instance of the left run. -/
def leftTag (i : Nat) : Tag := ⟨C.left + i⟩

/-- The tag of the `i`-th instance of the right run. -/
def rightTag (i : Nat) : Tag := ⟨C.right + i⟩

/-- Machines of the two runs after both of them have taken `i` tags. -/
structure Abreast (i : Nat) (m : Machine σ α) (m' : Machine τ α) : Prop where
  states : C.states m.state m'.state
  left : m.session.nextTag = C.left + i
  right : m'.session.nextTag = C.right + i

/-- Endings of runs that started after `i` tags: alike, and abreast of each other. -/
inductive Ends (Q : β → γ → Prop) (i : Nat) : EStateM.Result (Error α) (Machine σ α) β →
    EStateM.Result (Error α) (Machine τ α) γ → Prop
  | ok {j : Nat} {b : β} {c : γ} {m : Machine σ α} {m' : Machine τ α} (hij : i ≤ j) (h : Q b c)
      (hm : C.Abreast j m m') : Ends Q i (.ok b m) (.ok c m')
  | error {j : Nat} {e e' : Error α} {m : Machine σ α} {m' : Machine τ α} (hij : i ≤ j)
      (h : e.kind = e'.kind) (hm : C.Abreast j m m') : Ends Q i (.error e m) (.error e' m')

/-- Two runs that end alike when they start abreast of each other, after `k` tags or more. -/
def Alike (k : Nat) (Q : β → γ → Prop) (x : Run σ α β) (y : Run τ α γ) : Prop :=
  ∀ i, k ≤ i → ∀ m m', C.Abreast i m m' → C.Ends Q i (x m) (y m')

variable {C} {Q : β → γ → Prop} {R : δ → ε → Prop} {k : Nat}

/-- What the two runs give. -/
theorem Ends.result {i : Nat} {x : Run σ α β} {y : Run τ α γ} {m : Machine σ α} {m' : Machine τ α}
    (h : C.Ends Q i (x m) (y m')) : Check.Alike Q (Run.result x m) (Run.result y m') := by
  unfold Run.result
  cases hx : x m <;> cases hy : y m' <;> rw [hx, hy] at h <;> cases h
  · exact .ok ‹_›
  · exact .error ‹_›

/-- Runs that started later started earlier. -/
theorem Ends.mono {i j : Nat} (hij : i ≤ j) {r : EStateM.Result (Error α) (Machine σ α) β}
    {s : EStateM.Result (Error α) (Machine τ α) γ} (h : C.Ends Q j r s) : C.Ends Q i r s := by
  cases h with
  | ok hjl hQ hm => exact .ok (Nat.le_trans hij hjl) hQ hm
  | error hjl hkind hm => exact .error (Nat.le_trans hij hjl) hkind hm

namespace Alike

theorem pure {b : β} {c : γ} (h : Q b c) :
    C.Alike k Q (Pure.pure b : Run σ α β) (Pure.pure c : Run τ α γ) :=
  fun i _ _ _ hm => .ok (Nat.le_refl i) h hm

theorem throw {e e' : Error α} (h : e.kind = e'.kind) :
    C.Alike k Q (MonadExcept.throw e : Run σ α β) (MonadExcept.throw e' : Run τ α γ) :=
  fun i _ _ _ hm => .error (Nat.le_refl i) h hm

theorem ofExcept {u : Except (Error α) β} {v : Except (Error α) γ} (h : Check.Alike Q u v) :
    C.Alike k Q (Run.ofExcept u : Run σ α β) (Run.ofExcept v : Run τ α γ) := by
  cases h with
  | ok hQ => exact pure hQ
  | error hkind => exact throw hkind

/-- Runs that follow one another. -/
theorem bind {x : Run σ α β} {y : Run τ α γ} {f : β → Run σ α δ} {g : γ → Run τ α ε}
    (h : C.Alike k Q x y) (hf : ∀ b c, Q b c → C.Alike k R (f b) (g c)) :
    C.Alike k R (x >>= f) (y >>= g) := by
  intro i hi m m' hm
  have hxy := h i hi m m' hm
  rw [Run.bind_apply, Run.bind_apply]
  cases hx : x m <;> cases hy : y m' <;> rw [hx, hy] at hxy
  · cases hxy with
    | ok hij hQ hm' => exact (hf _ _ hQ _ (Nat.le_trans hi hij) _ _ hm').mono hij
  · cases hxy
  · cases hxy
  · cases hxy with
    | error hij hkind hm' => exact .error hij hkind hm'

end Alike

/-! ## Levels -/

/-- How values are related where `k` tags are taken: numbers are related to themselves, and no
instance that is still to come owns a related value. -/
structure Level (C : Comparison σ τ α) (k : Nat) (R : Value α → Value α → Prop) : Prop where
  num : ∀ x, R (.num x) (.num x)
  left : ∀ {v w}, R v w → ∀ i, k ≤ i → ¬ v.OwnedBy (C.leftTag i)
  right : ∀ {v w}, R v w → ∀ i, k ≤ i → ¬ w.OwnedBy (C.rightTag i)
  values : ∀ {v w}, R v w → C.values v w

/-- How values are related inside the `i`-th pair of instances: as around it, or as dual numbers of
the pair whose parts are related as around it. -/
def Inside (C : Comparison σ τ α) (i : Nat) (R : Value α → Value α → Prop) (v w : Value α) : Prop :=
  R v w ∨ ∃ p q d e, v = .dual (C.leftTag i) p d ∧ w = .dual (C.rightTag i) q e ∧ R p q ∧ R d e

namespace Level

variable {S : Value α → Value α → Prop} (hS : C.Level k S) {i : Nat} (hi : k ≤ i)
  {v w x y : Value α}

include hS hi

/-- A pair of instances makes a new level. -/
theorem inside : C.Level (i + 1) (C.Inside i S) where
  num x := Or.inl (hS.num x)
  left {v w} h j hj := by
    rcases h with h | ⟨p, q, d, e, rfl, rfl, -, -⟩
    · exact hS.left h j (by omega)
    · intro howned
      have hid : C.left + i = C.left + j := congrArg Tag.id howned
      omega
  right {v w} h j hj := by
    rcases h with h | ⟨p, q, d, e, rfl, rfl, -, -⟩
    · exact hS.right h j (by omega)
    · intro howned
      have hid : C.right + i = C.right + j := congrArg Tag.id howned
      omega
  values {v w} h := by
    rcases h with h | ⟨p, q, d, e, rfl, rfl, hp, hd⟩
    · exact hS.values h
    · exact C.dual i (hS.values hp) (hS.values hd)

theorem lift (h : C.Inside i S v w) (hxy : S x y) :
    C.Inside i S (v.lift (C.leftTag i) x) (w.lift (C.rightTag i) y) := by
  rcases h with h | ⟨p, q, d, e, rfl, rfl, hp, hd⟩
  · rw [Value.lift_of_not_ownedBy (hS.left h i hi), Value.lift_of_not_ownedBy (hS.right h i hi)]
    exact Or.inr ⟨v, w, x, y, rfl, rfl, h, hxy⟩
  · rw [Value.lift_dual_self, Value.lift_dual_self]
    exact Or.inr ⟨p, q, d, e, rfl, rfl, hp, hd⟩

theorem primalFor (h : C.Inside i S v w) :
    S (v.primalFor (C.leftTag i)) (w.primalFor (C.rightTag i)) := by
  rcases h with h | ⟨p, q, d, e, rfl, rfl, hp, -⟩
  · rw [Value.primalFor_of_not_ownedBy (hS.left h i hi),
      Value.primalFor_of_not_ownedBy (hS.right h i hi)]
    exact h
  · rw [Value.primalFor_dual_self, Value.primalFor_dual_self]
    exact hp

theorem tangentFor [Scalar α] (h : C.Inside i S v w) :
    S (v.tangentFor (C.leftTag i)) (w.tangentFor (C.rightTag i)) := by
  rcases h with h | ⟨p, q, d, e, rfl, rfl, -, hd⟩
  · rw [Value.tangentFor_of_not_ownedBy (hS.left h i hi),
      Value.tangentFor_of_not_ownedBy (hS.right h i hi)]
    exact hS.num _
  · rw [Value.tangentFor_dual_self, Value.tangentFor_dual_self]
    exact hd

/-- The tangents with which a pair of drives completes, if both completion values have one. -/
theorem tangentOf (h : C.Inside i S v w) :
    Check.Alike S (v.tangentOf (C.leftTag i)) (w.tangentOf (C.rightTag i)) := by
  rcases h with h | ⟨p, q, d, e, rfl, rfl, -, hd⟩
  · obtain ⟨e, he, hkind⟩ := Value.tangentOf_of_not_ownedBy (hS.left h i hi)
    obtain ⟨e', he', hkind'⟩ := Value.tangentOf_of_not_ownedBy (hS.right h i hi)
    rw [he, he']
    exact .error (hkind.trans hkind'.symm)
  · rw [Value.tangentOf, Value.tangentOf, if_pos rfl, if_pos rfl]
    exact .ok hd

/-- Arguments lifted along seeds into a pair of instances. -/
theorem zipWith_lift {vs ws xs ys : List (Value α)} (h : List.Forall₂ S vs ws)
    (hx : List.Forall₂ S xs ys) :
    List.Forall₂ (C.Inside i S) (List.zipWith (Value.lift (C.leftTag i)) vs xs)
      (List.zipWith (Value.lift (C.rightTag i)) ws ys) := by
  induction h generalizing xs ys with
  | nil => exact .nil
  | cons hvw _ ih =>
    cases hx with
    | nil => exact .nil
    | cons hxy hrest => exact .cons (hS.lift hi (Or.inl hvw) hxy) (ih hrest)

end Level

/-! ## Drivers -/

/-- Two drivers that answer an operation alike on related operands. -/
def Drivers (C : Comparison σ τ α) (k : Nat) (S : Value α → Value α → Prop) (d : Driver σ α)
    (d' : Driver τ α) : Prop :=
  ∀ op {vs ws : List (Value α)}, List.Forall₂ S vs ws → C.Alike k S (d ⟨op, vs⟩) (d' ⟨op, ws⟩)

section Drivers

variable {S : Value α → Value α → Prop} {d : Driver σ α} {d' : Driver τ α}

theorem Drivers.mono {k' : Nat} (hk : k ≤ k') (hd : C.Drivers k S d d') : C.Drivers k' S d d' :=
  fun op _ _ h i hi => hd op h i (Nat.le_trans hk hi)

variable [Scalar α]

/-- **A pair of instances in front of drivers that answer alike.** -/
theorem Drivers.forward (hS : C.Level k S) {i : Nat} (hi : k ≤ i) (hd : C.Drivers k S d d') :
    C.Drivers (i + 1) (C.Inside i S) (Driver.forward (C.leftTag i) d)
      (Driver.forward (C.rightTag i) d') := by
  have hd := hd.mono (Nat.le_succ_of_le hi)
  have primal : ∀ {v w}, C.Inside i S v w →
      S (v.primalFor (C.leftTag i)) (w.primalFor (C.rightTag i)) := hS.primalFor hi
  have tangent : ∀ {v w}, C.Inside i S v w →
      S (v.tangentFor (C.leftTag i)) (w.tangentFor (C.rightTag i)) := hS.tangentFor hi
  have dual : ∀ {p q d e}, S p q → S d e →
      C.Inside i S (.dual (C.leftTag i) p d) (.dual (C.rightTag i) q e) :=
    fun hp hd => Or.inr ⟨_, _, _, _, rfl, rfl, hp, hd⟩
  intro op vs ws hargs
  have hlen : vs.length = ws.length := hargs.length_eq
  refine .bind (Q := fun _ _ => True) (.ofExcept ?_) fun _ _ _ => ?_
  · rw [Instruction.checkArity, Instruction.checkArity, hlen]
    cases op.checkArity ws.length with
    | ok _ => exact .ok trivial
    | error e => exact .error rfl
  -- from here on one case for each rule, and a wrong count in all others
  rcases hargs with _ | ⟨hx, _ | ⟨hy, _ | ⟨hz, _ | ⟨_, _⟩⟩⟩⟩ <;> cases op <;>
    try exact .throw rfl
  case cons.nil.id => exact .pure (hS.lift hi hx (hS.num _))
  case cons.cons.nil.add =>
    refine .bind (hd _ (.cons (primal hx) (.cons (primal hy) .nil))) fun p q hp => ?_
    refine .bind (hd _ (.cons (tangent hx) (.cons (tangent hy) .nil))) fun t u ht => ?_
    exact .pure (dual hp ht)
  case cons.cons.nil.mul =>
    refine .bind (hd _ (.cons (primal hx) (.cons (primal hy) .nil))) fun p q hp => ?_
    refine .bind (hd _ (.cons (primal hx) (.cons (tangent hy) .nil))) fun l l' hl => ?_
    refine .bind (hd _ (.cons (primal hy) (.cons (tangent hx) .nil))) fun r r' hr => ?_
    refine .bind (hd _ (.cons hl (.cons hr .nil))) fun t u ht => ?_
    exact .pure (dual hp ht)
  case cons.cons.cons.nil.iif =>
    refine .bind (hd _ (.cons (primal hx) (.cons (primal hy) (.cons (primal hz) .nil))))
      fun p q hp => ?_
    refine .bind (hd _ (.cons (tangent hx) (.cons (tangent hy) (.cons (tangent hz) .nil))))
      fun t u ht => ?_
    exact .pure (dual hp ht)

end Drivers

/-! ## Computations -/

section Computations

variable {S : Value α → Value α → Prop} {d : Driver σ α} {d' : Driver τ α} {c c' : Computation α}

/-- Loops whose turns run alike. -/
theorem Alike.iterate [Scalar α] (hS : C.Level k S)
    (hc : ∀ {vs ws : List (Value α)}, List.Forall₂ S vs ws →
      C.Alike k S (c.run d vs) (c'.run d' ws)) (count turn : Nat) {v w : Value α} (h : S v w) :
    C.Alike k S (c.iterate d count turn v) (c'.iterate d' count turn w) := by
  induction count generalizing turn v w with
  | zero => exact .pure h
  | succ count ih =>
    exact .bind (hc (.cons h (.cons (hS.num _) .nil))) fun v' w' h' => ih (turn + 1) h'

/-- Machines stay abreast when both runs take a tag. -/
theorem Abreast.mint {i : Nat} {m : Machine σ α} {m' : Machine τ α} (h : C.Abreast i m m') :
    C.Abreast (i + 1) { m with session := m.session.mintTag.2 }
      { m' with session := m'.session.mintTag.2 } where
  states := h.states
  left := congrArg Nat.succ h.left
  right := congrArg Nat.succ h.right

/-- Derivatives along related seeds, of bodies that run alike inside each pair of instances. -/
theorem Alike.jvp [Scalar α] (hS : C.Level k S)
    (hc : ∀ i, k ≤ i → ∀ {vs ws : List (Value α)}, List.Forall₂ (C.Inside i S) vs ws →
      C.Alike (i + 1) (C.Inside i S) (c.run (d.forward (C.leftTag i)) vs)
        (c'.run (d'.forward (C.rightTag i)) ws))
    {xs ys vs ws : List (Value α)} (hseeds : List.Forall₂ S xs ys) (hargs : List.Forall₂ S vs ws) :
    C.Alike k S ((c.jvp xs).run d vs) ((c'.jvp ys).run d' ws) := by
  by_cases hlen : vs.length = xs.length
  · have hlen' : ws.length = ys.length := by
      rw [← hargs.length_eq, ← hseeds.length_eq, hlen]
    intro i hi m m' hm
    have hbody := hc i hi (hS.zipWith_lift hi hargs hseeds)
    have hdrive := hbody.bind (fun v w h => Alike.ofExcept (hS.tangentOf hi h))
    have hends := hdrive (i + 1) (Nat.le_refl _) _ _ hm.mint
    rw [Computation.jvp_apply c hlen, Computation.jvp_apply c' hlen', hm.left, hm.right]
    exact hends.mono (Nat.le_succ i)
  · have hlen' : ¬ ws.length = ys.length := by
      rw [← hargs.length_eq, ← hseeds.length_eq]
      exact hlen
    rw [Computation.jvp_of_ne c hlen, Computation.jvp_of_ne c' hlen']
    exact .throw rfl

end Computations

end Comparison

/-! ## Frames -/

/-- Two frames whose values are related one by one. -/
structure Frame.Alike (S : Value α → Value α → Prop) (f g : Frame α) : Prop where
  args : List.Forall₂ S f.args g.args
  results : List.Forall₂ S f.results g.results

namespace Frame.Alike

variable {S S' : Value α → Value α → Prop} {f g : Frame α}

theorem mono (h : ∀ v w, S v w → S' v w) (hfg : f.Alike S g) : f.Alike S' g where
  args := hfg.args.imp h
  results := hfg.results.imp h

theorem push (hfg : f.Alike S g) {v w : Value α} (h : S v w) : (f.push v).Alike S (g.push w) where
  args := hfg.args
  results := List.rel_append hfg.results (.cons h .nil)

end Frame.Alike

section Operands

variable {S : Value α → Value α → Prop} {env env' : Frames α}

/-- Related lists hold related things at each position, or nothing. -/
theorem rel_getElem? {P : β → γ → Prop} {xs : List β} {ys : List γ} (h : List.Forall₂ P xs ys)
    (i : Nat) : Option.Rel P xs[i]? ys[i]? := by
  induction h generalizing i with
  | nil => exact .none
  | cons hab _ ih =>
    cases i with
    | zero => exact .some hab
    | succ i => exact ih i

/-- What is found on both sides, or on neither. -/
theorem Operand.found_alike {o o' : Option (Value α)} (h : Option.Rel S o o') (what : String) :
    Check.Alike S (found what o) (found what o') := by
  cases h with
  | some h => exact .ok h
  | none => exact .error rfl

/-- A plain operand has related values in related frames, or none in both. -/
theorem Operand.lookup_alike (hnum : ∀ x, S (.num x) (.num x))
    (henv : List.Forall₂ (Frame.Alike S) env env') (o : Operand α) :
    Check.Alike S (o.lookup env) (o.lookup env') := by
  have hbind : ∀ (up : Nat) (index : Nat) (get : Frame α → List (Value α)),
      (∀ {f g : Frame α}, f.Alike S g → List.Forall₂ S (get f) (get g)) →
      Option.Rel S (env[up]?.bind fun f => (get f)[index]?)
        (env'[up]?.bind fun f => (get f)[index]?) := by
    intro up index get hget
    have hframe := rel_getElem? henv up
    cases hf : env[up]? <;> cases hg : env'[up]? <;> rw [hf, hg] at hframe <;> cases hframe
    · exact .none
    · exact rel_getElem? (hget ‹_›) index
  cases o with
  | num x => exact .ok (hnum x)
  | arg up index => exact found_alike (hbind up index Frame.args fun h => h.args) _
  | result up index => exact found_alike (hbind up index Frame.results fun h => h.results) _
  | _ => exact .error rfl

/-- Plain operands have related values in related frames, or one of them has none in both. -/
theorem Operand.lookupAll_alike (hnum : ∀ x, S (.num x) (.num x))
    (henv : List.Forall₂ (Frame.Alike S) env env') (os : List (Operand α)) :
    Check.Alike (List.Forall₂ S) (lookupAll env os) (lookupAll env' os) := by
  induction os with
  | nil => exact .ok .nil
  | cons o os ih =>
    have ho := lookup_alike hnum henv o
    unfold lookupAll
    cases hv : o.lookup env <;> cases hw : o.lookup env' <;> rw [hv, hw] at ho <;> cases ho
    · exact .error ‹_›
    · cases hvs : lookupAll env os <;> cases hws : lookupAll env' os <;> rw [hvs, hws] at ih <;>
        cases ih
      · exact .error ‹_›
      · exact .ok (.cons ‹_› ‹_›)

end Operands

/-! ## Programs -/

section Programs

variable [Scalar α] {C : Comparison σ τ α} {ops : Op → Prop}

/-- Plain operands are read alike in related frames. -/
theorem Operand.readAll_alike {k : Nat} {S : Value α → Value α → Prop} (hS : C.Level k S)
    {env env' : Frames α} (henv : List.Forall₂ (Frame.Alike S) env env') {os : List (Operand α)}
    (hos : ∀ o ∈ os, o.Plain) :
    C.Alike k (List.Forall₂ S) (Operand.readAll env os) (Operand.readAll env' os) := by
  rw [Operand.readAll_eq_lookupAll env hos, Operand.readAll_eq_lookupAll env' hos]
  exact .ofExcept (Operand.lookupAll_alike hS.num henv os)

theorem Operand.read_alike {k : Nat} {S : Value α → Value α → Prop} (hS : C.Level k S)
    {env env' : Frames α} (henv : List.Forall₂ (Frame.Alike S) env env') {o : Operand α}
    (ho : o.Plain) : C.Alike k S (o.read env) (o.read env') := by
  rw [Operand.read_eq_lookup env ho, Operand.read_eq_lookup env' ho]
  exact .ofExcept (Operand.lookup_alike hS.num henv o)

omit [Scalar α] in
/-- Inside a pair of instances the frames around it are related as they were. -/
theorem Frame.alike_inside {S : Value α → Value α → Prop} {env env' : Frames α}
    (henv : List.Forall₂ (Frame.Alike S) env env') (i : Nat) :
    List.Forall₂ (Frame.Alike (C.Inside i S)) env env' :=
  henv.imp fun _ _ h => h.mono fun _ _ hvw => Or.inl hvw

mutual

/-- **A closed program runs alike under drivers that answer alike.** -/
theorem Program.run_alike {k : Nat} {S : Value α → Value α → Prop} (hS : C.Level k S)
    {d : Driver σ α} {d' : Driver τ α} (hd : C.Drivers k S d d') {env env' : Frames α}
    (henv : List.Forall₂ (Frame.Alike S) env env') {args args' : List (Value α)}
    (hargs : List.Forall₂ S args args') :
    ∀ {p : Program α}, p.Closed ops → C.Alike k S (p.run d env args) (p.run d' env' args')
  | .block body ret, h => by
    rw [Program.run, Program.run]
    refine .bind (Block.run_alike hS hd henv ⟨hargs, .nil⟩ h.1) fun frame frame' hframe => ?_
    exact Operand.read_alike hS (.cons hframe henv) h.2
  | .jvp body seeds, h => by
    rw [Program.run, Program.run]
    refine .bind (Operand.readAll_alike hS henv h.2) fun xs ys hseeds => ?_
    refine .jvp hS (fun i hi vs ws hvw => ?_) hseeds hargs
    exact Program.run_alike (hS.inside hi) (hd.forward hS hi) (Frame.alike_inside henv i) hvw h.1

/-- The steps of a closed program run alike. -/
theorem Block.run_alike {k : Nat} {S : Value α → Value α → Prop} (hS : C.Level k S)
    {d : Driver σ α} {d' : Driver τ α} (hd : C.Drivers k S d d') {env env' : Frames α}
    (henv : List.Forall₂ (Frame.Alike S) env env') {frame frame' : Frame α}
    (hframe : frame.Alike S frame') :
    ∀ {b : Block α}, b.Closed ops →
      C.Alike k (Frame.Alike S) (b.run d env frame) (b.run d' env' frame')
  | .done, _ => .pure hframe
  | .step first rest, h => by
    rw [Block.run, Block.run]
    refine .bind (Step.run_alike hS hd (.cons hframe henv) h.1) fun v w hvw => ?_
    exact Block.run_alike hS hd henv (hframe.push hvw) h.2

/-- A step of a closed program runs alike. -/
theorem Step.run_alike {k : Nat} {S : Value α → Value α → Prop} (hS : C.Level k S)
    {d : Driver σ α} {d' : Driver τ α} (hd : C.Drivers k S d d') {env env' : Frames α}
    (henv : List.Forall₂ (Frame.Alike S) env env') :
    ∀ {s : Step α}, s.Closed ops → C.Alike k S (s.run d env) (s.run d' env')
  | .issue op operands, h => by
    rw [Step.run, Step.run]
    exact .bind (Operand.readAll_alike hS henv h.2) fun vs ws hvw => hd op hvw
  | .call body operands, h => by
    rw [Step.run, Step.run]
    refine .bind (Operand.readAll_alike hS henv h.2) fun vs ws hvw => ?_
    exact Program.run_alike hS hd henv hvw h.1
  | .loop count init body, h => by
    rw [Step.run, Step.run]
    refine .bind (Operand.read_alike hS henv h.1) fun v w hvw => ?_
    exact .iterate hS (fun hargs => Program.run_alike hS hd henv hargs h.2) count 0 hvw

end

end Programs

end DualTrace
