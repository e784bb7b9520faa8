/-
# What a text shows

The text of a trace shows all of it but the spaces of its registers, and which undefined number a
literal is.  Nothing is asked of the trace, which need not be well formed.  Of the texts of numbers
it is asked that they differ where numbers do, and that they are made of a few characters only.

* `Delimited` : texts that show what they stand for and where they end;
* `Numeral.Legible` : what is asked of the texts of numbers;
* `Trace.LooksLike` : traces that differ at most in what a text does not show;
* `Trace.text_legible` : traces with the same text are the same in this sense.

Texts are taken apart from the left.  Each part either is enclosed in brackets of its own, or stops
at a character that does not occur in it, so it is known where it ends before anything is known of
what follows.
-/
import DualTrace.Proofs.Check
import DualTrace.Trace.Basic

namespace DualTrace

variable {α β γ : Type}

/-! ## Delimited texts -/

/-- The characters begin with one that satisfies `p`. -/
def Starts (p : Char → Prop) (s : List Char) : Prop := ∃ c rest, s = c :: rest ∧ p c

/-- Texts that show what they stand for, up to `same`, and where they end, if what follows them is
as `ends` asks. -/
def Delimited (ends : List Char → Prop) (same : β → β → Prop) (text : β → List Char) : Prop :=
  ∀ ⦃x y : β⦄ ⦃s s' : List Char⦄, ends s → ends s' → text x ++ s = text y ++ s' →
    same x y ∧ s = s'

namespace Delimited

variable {ends ends' : List Char → Prop} {same same' : β → β → Prop} {text text' : β → List Char}

/-- Texts end where a character follows that does not occur in them. -/
theorem of_chars {p : Char → Prop} (hchars : ∀ x, ∀ c ∈ text x, ¬ p c)
    (hsame : ∀ x y, text x = text y → same x y) : Delimited (Starts p) same text := by
  -- a text that went on where the other one ends would go on with what follows the other one
  have hstop : ∀ {x : β} {pre rest s : List Char}, text x = pre ++ rest → Starts p (rest ++ s) →
      rest = [] := by
    rintro x pre rest s htext ⟨c, tail, heq, hc⟩
    cases rest with
    | nil => rfl
    | cons d rest =>
      obtain ⟨rfl, -⟩ := List.cons.inj heq
      refine absurd hc (hchars x d ?_)
      rw [htext]
      exact List.mem_append_right _ List.mem_cons_self
  intro x y s s' hs hs' h
  rcases List.append_eq_append_iff.mp h with ⟨rest, hy, rfl⟩ | ⟨rest, hx, rfl⟩
  · obtain rfl := hstop hy hs
    rw [List.append_nil] at hy
    exact ⟨hsame x y hy.symm, rfl⟩
  · obtain rfl := hstop hx hs'
    rw [List.append_nil] at hx
    exact ⟨hsame x y hx, rfl⟩

/-- Texts that show more show less. -/
theorem imp (h : Delimited ends same text) (himp : ∀ x y, same x y → same' x y) :
    Delimited ends same' text := fun _ _ _ _ hs hs' heq => (h hs hs' heq).imp_left (himp _ _)

/-- Texts that are part of a larger one. -/
theorem comap (h : Delimited ends same text) (f : γ → β) :
    Delimited ends (fun x y => same (f x) (f y)) fun x => text (f x) :=
  fun _ _ _ _ hs hs' heq => h hs hs' heq

/-- Texts behind a fixed one. -/
theorem behind (h : Delimited ends same text) (opening : List Char) :
    Delimited ends same fun x => opening ++ text x := by
  intro x y s s' hs hs' heq
  rw [List.append_assoc, List.append_assoc] at heq
  exact h hs hs' (List.append_cancel_left heq)

/-- Texts that a fixed one closes may be followed by anything. -/
theorem closed (h : Delimited ends same text) {closing : List Char}
    (hclosing : ∀ s, ends (closing ++ s)) :
    Delimited (fun _ => True) same fun x => text x ++ closing := by
  intro x y s s' _ _ heq
  rw [List.append_assoc, List.append_assoc] at heq
  obtain ⟨hsame, hrest⟩ := h (hclosing s) (hclosing s') heq
  exact ⟨hsame, List.append_cancel_left hrest⟩

/-- Two texts, one after the other. -/
theorem append (h : Delimited ends same text) (h' : Delimited ends' same' text')
    (hends : ∀ x s, ends' s → ends (text' x ++ s)) :
    Delimited ends' (fun x y => same x y ∧ same' x y) fun x => text x ++ text' x := by
  intro x y s s' hs hs' heq
  rw [List.append_assoc, List.append_assoc] at heq
  obtain ⟨hsame, hrest⟩ := h (hends x s hs) (hends y s' hs') heq
  obtain ⟨hsame', hrest'⟩ := h' hs hs' hrest
  exact ⟨⟨hsame, hsame'⟩, hrest'⟩

end Delimited

/-! ## Lists -/

/-- The texts of items, one after the other, each according to its position. -/
def textFrom (item : Nat → β → List Char) : Nat → List β → List Char
  | _, [] => []
  | i, x :: xs => item i x ++ textFrom item (i + 1) xs

/-- Items with a separator between them are the first one and then others behind separators. -/
theorem intercalate_cons (sep : List Char) (item : β → List Char) (x : β) (xs : List β) (i : Nat) :
    sep.intercalate ((x :: xs).map item) = item x ++ textFrom (fun _ y => sep ++ item y) i xs := by
  induction xs generalizing x i with
  | nil => simp [textFrom]
  | cons y ys ih =>
    rw [List.map_cons, List.map_cons, List.intercalate_cons_cons, ← List.map_cons, ih y (i + 1),
      textFrom, List.append_assoc, List.append_assoc]

namespace Delimited

variable {same : β → β → Prop}

/-- Items that cannot be mistaken for what follows all of them. -/
theorem all {ends : List Char → Prop} {item : Nat → β → List Char}
    (h : ∀ i, Delimited (fun _ => True) same (item i))
    (hends : ∀ i x s s', ends s → s ≠ item i x ++ s') :
    ∀ i, Delimited ends (List.Forall₂ same) (textFrom item i) := by
  intro i xs
  induction xs generalizing i with
  | nil =>
    intro ys s s' hs hs' heq
    cases ys with
    | nil => exact ⟨.nil, heq⟩
    | cons y ys =>
      rw [textFrom, textFrom, List.nil_append, List.append_assoc] at heq
      exact absurd heq (hends i y s _ hs)
  | cons x xs ih =>
    intro ys s s' hs hs' heq
    cases ys with
    | nil =>
      rw [textFrom, textFrom, List.nil_append, List.append_assoc] at heq
      exact absurd heq.symm (hends i x s' _ hs')
    | cons y ys =>
      rw [textFrom, textFrom, List.append_assoc, List.append_assoc] at heq
      obtain ⟨hsame, hrest⟩ := h i trivial trivial heq
      obtain ⟨hall, htail⟩ := ih (i + 1) hs hs' hrest
      exact ⟨.cons hsame hall, htail⟩

/-- Items with a separator between them, up to a bracket. -/
theorem separated {item : β → List Char} {sep : List Char}
    (h : Delimited (fun _ => True) same item) (hitem : ∀ x, Starts (· ≠ ')') (item x))
    (hsep : Starts (· ≠ ')') sep) :
    Delimited (Starts (· = ')')) (List.Forall₂ same) fun xs => sep.intercalate (xs.map item) := by
  have hne : ∀ {a s s' : List Char}, Starts (· ≠ ')') a → Starts (· = ')') s → s ≠ a ++ s' := by
    rintro a s s' ⟨c, rest, rfl, hc⟩ ⟨d, rest', rfl, hd⟩ heq
    exact hc ((List.cons.inj heq).1.symm.trans hd)
  have htail : Delimited (Starts (· = ')')) (List.Forall₂ same)
      (textFrom (fun _ y => sep ++ item y) 0) := by
    refine all (fun _ => h.behind sep) (fun _ y s s' hs => ?_) 0
    rw [List.append_assoc]
    exact hne hsep hs
  intro xs ys s s' hs hs' (heq : sep.intercalate (xs.map item) ++ s = sep.intercalate _ ++ s')
  cases xs with
  | nil =>
    cases ys with
    | nil => exact ⟨.nil, heq⟩
    | cons y ys =>
      rw [intercalate_cons sep item y ys 0, List.append_assoc] at heq
      exact absurd heq (hne (hitem y) hs)
  | cons x xs =>
    cases ys with
    | nil =>
      rw [intercalate_cons sep item x xs 0, List.append_assoc] at heq
      exact absurd heq.symm (hne (hitem x) hs')
    | cons y ys =>
      rw [intercalate_cons sep item x xs 0, intercalate_cons sep item y ys 0, List.append_assoc,
        List.append_assoc] at heq
      obtain ⟨hsame, hrest⟩ := h trivial trivial heq
      obtain ⟨hall, hend⟩ := htail hs hs' hrest
      exact ⟨.cons hsame hall, hend⟩

end Delimited

/-! ## Registers -/

/-- Registers that differ at most in their space. -/
def Register.LooksLike (r s : Register) : Prop := r.index = s.index ∧ r.role = s.role

/-- The text of a natural number has digits only. -/
theorem isDigit_of_mem_toString {n : Nat} {c : Char} (h : c ∈ (toString n).toList) :
    c.isDigit = true := by
  rw [Nat.toString_eq_repr, Nat.toList_repr] at h
  exact Nat.isDigit_of_mem_toDigits (by decide) (by decide) h

/-- Different natural numbers have different texts. -/
theorem eq_of_toString_eq {m n : Nat} (h : toString m = toString n) : m = n := by
  rw [Nat.toString_eq_repr, Nat.toString_eq_repr] at h
  have hdigits : Nat.toDigits 10 m = Nat.toDigits 10 n := by
    rw [← Nat.toList_repr, ← Nat.toList_repr, h]
  have hread := congrArg (fun ds => Nat.ofDigitChars 10 ds 0) hdigits
  simpa using hread

namespace Register

/-- A name is a letter and digits. -/
theorem toList_name (r : Register) :
    r.name.toList = (match r.role with | .param => 'x' | .result => 'v') ::
      (toString r.index.toNat).toList := by
  unfold name
  cases r.role <;> simp [String.toList_append]

/-- Registers of the same name differ at most in their space. -/
theorem looksLike_of_name {r s : Register} (h : r.name.toList = s.name.toList) :
    r.LooksLike s := by
  rw [toList_name, toList_name] at h
  obtain ⟨hletter, hdigits⟩ := List.cons.inj h
  refine ⟨UInt32.toNat.inj (eq_of_toString_eq (String.toList_inj.mp hdigits)), ?_⟩
  revert hletter
  cases r.role <;> cases s.role <;> decide

/-- The text of a register shows its number and its role, and ends with a bracket. -/
theorem delimited_text : Delimited (fun _ => True) LooksLike fun r => r.text.toList := by
  have hchars : ∀ (r : Register), ∀ c ∈ r.name.toList, c ≠ ')' := by
    intro r c hc
    rw [toList_name] at hc
    rcases List.mem_cons.mp hc with rfl | hc
    · cases r.role <;> decide
    · rintro rfl
      exact absurd (isDigit_of_mem_toString hc) (by decide)
  have htext : ∀ r : Register, r.text.toList = ("VReg(".toList ++ r.name.toList) ++ ")".toList :=
    fun r => by rw [text, String.toList_append, String.toList_append]
  simp only [htext]
  exact ((Delimited.of_chars hchars fun _ _ => looksLike_of_name).behind _).closed
    fun s => ⟨')', s, rfl, rfl⟩

theorem starts_text (r : Register) : ∃ rest, r.text.toList = 'V' :: rest := by
  rw [text, String.toList_append, String.toList_append]
  exact ⟨_, rfl⟩

end Register

/-! ## Numbers and atoms -/

/-- Numbers that are the same, or that both differ from themselves. -/
def SameNumber [BEq α] (x y : α) : Prop := x = y ∨ (x == x) = false ∧ (y == y) = false

/-- The characters of numbers: digits, the point, the sign, and the letters of `inf` and `NaN`. -/
def Numeral.Plain (c : Char) : Prop := c.isDigit = true ∨ c ∈ ".-infNa".toList

instance : DecidablePred Numeral.Plain := fun c =>
  inferInstanceAs (Decidable (c.isDigit = true ∨ c ∈ ".-infNa".toList))

/-- Numbers that can be read off their texts: the texts are made of the characters of numbers, and
they are different for different numbers, unless both differ from themselves. -/
structure Numeral.Legible (α : Type) [BEq α] [Numeral α] : Prop where
  plain : ∀ x : α, ∀ c ∈ (Numeral.text x).toList, Plain c
  same : ∀ x y : α, Numeral.text x = Numeral.text y → SameNumber x y

/-- Atoms that differ at most in the space of a register or in which undefined number they are. -/
def Atom.LooksLike [BEq α] : Atom α → Atom α → Prop
  | .lit x, .lit y => SameNumber x y
  | .reg r, .reg s => r.LooksLike s
  | _, _ => False

section Atoms

variable [BEq α] [Numeral α] (h : Numeral.Legible α)

include h

/-- No number has a text that goes on like a register. -/
theorem Numeral.Legible.text_ne_register {x : α} {r : Register} {s s' : List Char}
    (hs : Starts (fun c => ¬ Plain c ∧ c ≠ 'V') s) :
    (text x).toList ++ s ≠ r.text.toList ++ s' := by
  obtain ⟨c, rest, rfl, -, hc⟩ := hs
  obtain ⟨tail, hr⟩ := r.starts_text
  intro heq
  rw [hr] at heq
  cases hx : (text x).toList with
  | nil =>
    rw [hx] at heq
    exact hc (List.cons.inj heq).1
  | cons d ds =>
    have hd := h.plain x d (hx ▸ List.mem_cons_self)
    rw [hx] at heq
    rw [(List.cons.inj heq).1] at hd
    exact absurd hd (by decide)

/-- The bare text of an atom shows it, where a character follows that no number and no register
begins with. -/
theorem Atom.delimited_returnText :
    Delimited (Starts fun c => ¬ Numeral.Plain c ∧ c ≠ 'V') LooksLike
      fun a : Atom α => (Trace.returnText a).toList := by
  have hnumber : Delimited (Starts fun c => ¬ Numeral.Plain c ∧ c ≠ 'V') SameNumber
      fun x : α => (Numeral.text x).toList :=
    .of_chars (fun x c hc hstop => hstop.1 (h.plain x c hc))
      fun x y heq => h.same x y (String.toList_inj.mp heq)
  intro a b s s' hs hs' heq
  cases a with
  | lit x =>
    cases b with
    | lit y => exact hnumber hs hs' heq
    | reg r => exact absurd heq (h.text_ne_register hs)
  | reg r =>
    cases b with
    | lit y => exact absurd heq.symm (h.text_ne_register hs')
    | reg r' => exact Register.delimited_text trivial trivial heq

/-- The text of an operand shows it, and ends with a bracket. -/
theorem Atom.delimited_text :
    Delimited (fun _ => True) LooksLike fun a : Atom α => a.text.toList := by
  have htext : ∀ a : Atom α,
      a.text.toList = ("Atom(".toList ++ (Trace.returnText a).toList) ++ ")".toList := by
    intro a
    cases a <;> rw [text, String.toList_append, String.toList_append] <;> rfl
  simp only [htext]
  exact ((delimited_returnText h).behind _).closed fun s => ⟨')', s, rfl, by decide⟩

end Atoms

/-! ## Equations -/

/-- Equations that differ at most in the spaces of registers or in which undefined numbers they
have. -/
structure Equation.LooksLike [BEq α] (e f : Equation α) : Prop where
  binder : e.binder.LooksLike f.binder
  op : e.rhs.op = f.rhs.op
  args : List.Forall₂ Atom.LooksLike e.rhs.args f.rhs.args

/-- The name of an operation shows it, up to a colon. -/
theorem Op.delimited_name : Delimited (Starts (· = ':')) Eq fun op : Op => op.name.toList := by
  have hcolon : ∀ op : Op, ':' ∉ op.name.toList := fun op => by cases op <;> decide
  refine .of_chars (fun op c hc heq => hcolon op (heq ▸ hc)) fun op op' heq => ?_
  have hname := congrArg Op.ofName? (String.toList_inj.mp heq)
  rwa [Op.ofName?_name, Op.ofName?_name, Option.some_inj] at hname

section Equations

variable [BEq α] [Numeral α] (h : Numeral.Legible α)

include h

/-- The text of an instruction shows it, and ends with a bracket. -/
theorem Instruction.delimited_text : Delimited (fun _ => True)
    (fun i j : Instruction (Atom α) => i.op = j.op ∧ List.Forall₂ Atom.LooksLike i.args j.args)
    fun i => (i.text Atom.text).toList := by
  have htext : ∀ i : Instruction (Atom α), (i.text Atom.text).toList =
      "Insn(".toList ++ (i.op.name.toList ++ (": ".toList ++
        ", ".toList.intercalate (i.args.map fun a => a.text.toList))) ++ ")".toList := by
    intro i
    simp only [text, String.toList_append, String.toList_intercalate, List.map_map,
      Function.comp_def, List.append_assoc]
  have hargs : Delimited (Starts (· = ')')) (List.Forall₂ Atom.LooksLike)
      fun as : List (Atom α) => ", ".toList.intercalate (as.map fun a => a.text.toList) := by
    refine (Atom.delimited_text h).separated (fun a => ?_) ⟨',', _, rfl, by decide⟩
    cases a <;> rw [Atom.text, String.toList_append, String.toList_append] <;>
      exact ⟨'A', _, rfl, by decide⟩
  simp only [htext]
  refine (((Op.delimited_name.comap Instruction.op).append
    ((hargs.comap Instruction.args).behind _) fun i s _ => ?_).behind _).closed fun s => ?_
  · exact ⟨':', _, rfl, rfl⟩
  · exact ⟨')', s, rfl, rfl⟩

/-- The text of an equation shows it, and ends with a bracket. -/
theorem Equation.delimited_text : Delimited (fun _ => True) LooksLike
    fun e : Equation α => e.text.toList := by
  have htext : ∀ e : Equation α, e.text.toList =
      e.binder.text.toList ++ (" = ".toList ++ (e.rhs.text Atom.text).toList) := by
    intro e
    rw [text, String.toList_append, String.toList_append, List.append_assoc]
  simp only [htext]
  refine ((Register.delimited_text.comap Equation.binder).append
    (((Instruction.delimited_text h).comap Equation.rhs).behind " = ".toList)
    fun _ _ _ => trivial).imp fun e f hsame => ?_
  exact ⟨hsame.1, hsame.2.1, hsame.2.2⟩

end Equations

/-! ## Traces -/

namespace Trace

/-- Traces that differ at most in the spaces of registers or in which undefined numbers they
have. -/
structure LooksLike [BEq α] (t u : Trace α) : Prop where
  params : List.Forall₂ Register.LooksLike t.params u.params
  equations : List.Forall₂ Equation.LooksLike t.equations u.equations
  ret : t.ret.LooksLike u.ret

/-- A line number is a digit and perhaps more, however many digits it needs. -/
theorem starts_lineNumber (i : Nat) : Starts (·.isDigit = true) (lineNumber i).toList := by
  have hdigits : ∀ c ∈ (lineNumber i).toList, c.isDigit = true := by
    intro c hc
    rw [lineNumber, String.toList_ofList, List.leftpad, List.mem_append, List.mem_replicate] at hc
    rcases hc with ⟨-, rfl⟩ | hc
    · decide
    · exact isDigit_of_mem_toString hc
  have hlen : 5 ≤ (lineNumber i).toList.length := by
    rw [lineNumber, String.toList_ofList, List.length_leftpad]
    exact Nat.le_max_left _ _
  cases hline : (lineNumber i).toList with
  | nil => rw [hline] at hlen; cases hlen
  | cons c rest => exact ⟨c, rest, rfl, hdigits c (hline ▸ List.mem_cons_self)⟩

variable [BEq α] [Numeral α] (h : Numeral.Legible α)

include h

/-- The lines of equations show them, up to the line of the return atom. -/
theorem delimited_equationLines (i : Nat) :
    Delimited (fun s => ∃ s', s = "\treturn ".toList ++ s') (List.Forall₂ Equation.LooksLike)
      fun es : List (Equation α) => (equationLines i es).toList := by
  have htext : ∀ (es : List (Equation α)) (i : Nat), (equationLines i es).toList =
      textFrom (fun i e => ("\t".toList ++ ((lineNumber i).toList ++ (": ".toList ++
        e.text.toList))) ++ "\n".toList) i es := by
    intro es
    induction es with
    | nil => intro i; rfl
    | cons e es ih =>
      intro i
      rw [equationLines, textFrom, ← ih]
      simp only [String.toList_append, List.append_assoc]
  simp only [htext]
  refine .all (fun i => ((((Equation.delimited_text h).behind _).behind _).behind _).closed
    fun _ => trivial) (fun i e s s' hs heq => ?_) i
  -- where a line number would begin there is a letter
  obtain ⟨rest, rfl⟩ := hs
  obtain ⟨c, tail, hline, hc⟩ := starts_lineNumber i
  rw [hline] at heq
  rw [← (List.cons.inj (List.cons.inj heq).2).1] at hc
  exact absurd hc (by decide)

/-- The text of a trace shows it. -/
theorem delimited_text : Delimited (fun _ => True) LooksLike
    fun t : Trace α => t.text.toList := by
  have htext : ∀ t : Trace α, t.text.toList = ("(define-function (".toList ++
      (", ".toList.intercalate (t.params.map fun r => r.text.toList) ++ (")\n".toList ++
        ((equationLines 0 t.equations).toList ++ ("\treturn ".toList ++
          (returnText t.ret).toList))))) ++ "\n)".toList := by
    intro t
    unfold text
    simp only [String.toList_append, String.toList_intercalate, List.map_map, Function.comp_def,
      List.append_assoc]
  have hparams : Delimited (Starts (· = ')')) (List.Forall₂ Register.LooksLike)
      fun rs : List Register => ", ".toList.intercalate (rs.map fun r => r.text.toList) := by
    refine Register.delimited_text.separated (fun r => ?_) ⟨',', _, rfl, by decide⟩
    obtain ⟨rest, hr⟩ := r.starts_text
    exact ⟨'V', rest, hr, by decide⟩
  have hbody := ((delimited_equationLines h 0).comap Trace.equations).append
    (((Atom.delimited_returnText h).comap Trace.ret).behind "\treturn ".toList)
    fun t s _ => ⟨_, List.append_assoc _ _ _⟩
  have hhead := (hparams.comap Trace.params).append (hbody.behind ")\n".toList)
    fun t s _ => ⟨')', _, rfl, rfl⟩
  simp only [htext]
  refine ((hhead.behind "(define-function (".toList).closed fun s => ?_).imp
    fun t u hsame => ⟨hsame.1, hsame.2.1, hsame.2.2⟩
  exact ⟨'\n', _, rfl, by decide⟩

/-- **The text of a trace identifies it.**  Assume that numbers are legible.  Of two traces with the
same text, whether they are well formed or not, the parameters, the equations and the return atoms
are the same, up to the spaces of registers and up to which undefined number a literal is. -/
theorem text_legible {t u : Trace α} (htext : t.text = u.text) : t.LooksLike u := by
  have happend : t.text.toList ++ [] = u.text.toList ++ [] := by rw [htext]
  exact (delimited_text h trivial trivial happend).1

end Trace

/-- What a gauge shows: a count, or something undefined that differs from itself. -/
inductive Gauge where
  | count (n : Nat)
  | undefined (payload : Nat)

instance : BEq Gauge where
  beq
    | .count m, .count n => m == n
    | _, _ => false

instance : Numeral Gauge where
  text
    | .count n => toString n
    | .undefined _ => "NaN"
  finite
    | .count _ => true
    | .undefined _ => false

/-- No count is written like something undefined. -/
theorem Gauge.text_count_ne (n : Nat) : toString n ≠ "NaN" := by
  intro h
  have hmem : 'N' ∈ (toString n).toList := by
    rw [h]
    decide
  exact absurd (isDigit_of_mem_toString hmem) (by decide)

/-- What a gauge shows is legible. -/
theorem Gauge.legible : Numeral.Legible Gauge where
  plain
    | .count _, _, hc => Or.inl (isDigit_of_mem_toString hc)
    | .undefined _, _, hc => Or.inr ((by decide : "NaN".toList ⊆ ".-infNa".toList) hc)
  same
    | .count _, .count _, h => Or.inl (congrArg count (eq_of_toString_eq h))
    | .undefined _, .undefined _, _ => Or.inr ⟨rfl, rfl⟩
    | .count n, .undefined _, h => absurd h (text_count_ne n)
    | .undefined _, .count n, h => absurd h.symm (text_count_ne n)

/-- A trace that reads what it does not bind, with an instruction that lacks its operands. -/
def smudgedTrace (space : UInt32) (payload : Nat) : Trace Gauge :=
  let x (i : UInt32) : Register := ⟨space, i, .param⟩
  let v (i : UInt32) : Register := ⟨space, i, .result⟩
  { params := [x 0, v 12]
    equations := [⟨v 2, .mul, [.reg (x 0), .lit (.undefined payload)]⟩, ⟨v 2, .add, []⟩,
      ⟨x 7, .iif, [.lit (.count 10), .reg (v 12), .reg (x 5), .reg (v 2)]⟩]
    ret := .lit (.undefined payload) }

/-- The text of `smudgedTrace` does not show its space and which undefined number it has, and
nothing else is missing. -/
theorem Trace.text_legible_smudgedTrace :
    Numeral.Legible Gauge ∧ (smudgedTrace 0 1).text = (smudgedTrace 5 7).text ∧
      (smudgedTrace 0 1).LooksLike (smudgedTrace 5 7) ∧
      smudgedTrace 0 1 ≠ smudgedTrace 5 7 := by
  have htext : (smudgedTrace 0 1).text = (smudgedTrace 5 7).text := rfl
  exact ⟨Gauge.legible, htext, Trace.text_legible Gauge.legible htext, nofun⟩

end DualTrace
