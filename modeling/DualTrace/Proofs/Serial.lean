/-
# Reading what was written

The serial form of a trace loses nothing but the literals that are not finite, and it never reads
one of those.

* `Json.Faithful` : a writer with a reader that gives back exactly what satisfies a condition;
* `Atom.finite`, `Trace.finite` : atoms and traces in which every literal is finite;
* `Atom.faithful`, `Register.faithful`, `Trace.faithful` : each part of the format is faithful;
* `Trace.serial_faithful` : what becomes of a trace that is written and read.

Every part is a record, a choice or a list of smaller parts.  A reader accepts more than its writer
produces, such as other fields and fields in another order, so the second half of `Json.Faithful`
speaks about everything that is read.
-/
import DualTrace.Trace.Serial
import Mathlib.Logic.Basic

namespace DualTrace

variable {α β : Type}

/-! ## Faithful formats -/

/-- A reader gives back what was written if it satisfies `p`, and refuses it otherwise; and
whatever it reads satisfies `p`. -/
structure Json.Faithful (write : β → Json α) (read : Json α → Option β) (p : β → Bool) : Prop where
  read_write : ∀ x, read (write x) = if p x then some x else none
  of_read : ∀ {j x}, read j = some x → p x = true

namespace Json

/-- What was read is given back when it is written again. -/
theorem Faithful.read_write_of_read {write : β → Json α} {read : Json α → Option β} {p : β → Bool}
    (h : Faithful write read p) {j : Json α} {x : β} (hx : read j = some x) :
    read (write x) = some x := by
  rw [h.read_write, if_pos (h.of_read hx)]

/-- A list is given back if every item of it is. -/
theorem Faithful.items {write : β → Json α} {read : Json α → Option β} {p : β → Bool}
    (h : Faithful write read p) :
    Faithful (fun xs => arr (xs.map write)) (items? read) (fun xs => xs.all p) where
  read_write xs := by
    show (xs.map write).mapM read = _
    induction xs with
    | nil => rfl
    | cons x xs ih =>
      rw [List.map_cons, List.mapM_cons, h.read_write, ih, List.all_cons]
      by_cases hx : p x = true <;> by_cases hxs : xs.all p = true <;> simp [hx, hxs]
  of_read := by
    intro j xs hread
    cases j with
    | arr items =>
      have hread : items.mapM read = some xs := hread
      induction items generalizing xs with
      | nil =>
        cases hread
        rfl
      | cons item items ih =>
        rw [List.mapM_cons] at hread
        obtain ⟨x, hx, hread⟩ := Option.bind_eq_some_iff.mp hread
        obtain ⟨rest, hrest, hread⟩ := Option.bind_eq_some_iff.mp hread
        cases hread
        rw [List.all_cons, h.of_read hx, ih hrest hrest]
        rfl
    | _ => cases hread

/-- A word survives being written with digits. -/
theorem word?_toNat (w : UInt32) : (nat w.toNat : Json α).word? = some w := by
  show (if w.toNat < UInt32.size then some (UInt32.ofNat w.toNat) else none) = some w
  rw [if_pos w.toNat_lt, UInt32.ofNat_toNat]

end Json

/-! ## Registers and operations -/

/-- A role is denoted by its case name. -/
theorem Role.ofJson?_serialName (r : Role) :
    Role.ofJson? (.str r.serialName : Json α) = some r := by
  cases r <;> rfl

/-- An operation is denoted by its name. -/
theorem Op.ofJson?_name (op : Op) : Op.ofJson? (.str op.name : Json α) = some op :=
  Op.ofName?_name op

/-- Every register is given back. -/
theorem Register.faithful :
    Json.Faithful (Register.toJson : Register → Json α) Register.ofJson? (fun _ => true) where
  read_write r := by
    show (do return ⟨← (Json.nat r.space.toNat : Json α).word?, ← (Json.nat r.index.toNat).word?,
      ← Role.ofJson? (.str r.role.serialName : Json α)⟩) = some r
    rw [Json.word?_toNat, Json.word?_toNat, Role.ofJson?_serialName]
    rfl
  of_read _ := rfl

/-! ## Literals -/

section Finite

variable [Numeral α]

/-- Whether an atom is a finite literal or a register. -/
def Atom.finite : Atom α → Bool
  | lit x => Numeral.finite x
  | reg _ => true

/-- Whether every literal operand of an instruction is finite. -/
def Instruction.finite (i : Instruction (Atom α)) : Bool := i.args.all Atom.finite

/-- Whether every literal operand of an equation is finite. -/
def Equation.finite (e : Equation α) : Bool := e.rhs.finite

/-- Whether every literal of a trace is finite, operands and return atom. -/
def Trace.finite (t : Trace α) : Bool := t.equations.all Equation.finite && t.ret.finite

/-- An atom is finite unless it is a literal that is not. -/
theorem Atom.finite_iff {a : Atom α} :
    a.finite = true ↔ ∀ x, a = .lit x → Numeral.finite x = true := by
  cases a <;> simp [finite]

/-- A trace is finite when its operands and its return atom are. -/
theorem Trace.finite_iff {t : Trace α} :
    t.finite = true ↔ (∀ e ∈ t.equations, ∀ x, .lit x ∈ e.rhs.args → Numeral.finite x = true) ∧
      ∀ x, t.ret = .lit x → Numeral.finite x = true := by
  rw [finite, Bool.and_eq_true, List.all_eq_true, Atom.finite_iff]
  refine and_congr_left' (forall₂_congr fun e _ => ?_)
  rw [Equation.finite, Instruction.finite, List.all_eq_true]
  simp only [Atom.finite_iff]
  constructor
  · intro h x hx
    exact h _ hx x rfl
  · rintro h a ha x rfl
    exact h x ha

end Finite

variable [Scalar α] [Numeral α]

/-- A number that is read is finite. -/
theorem Json.finite_of_literal? {j : Json α} {x : α} (h : j.literal? = some x) :
    Numeral.finite x = true := by
  unfold literal? at h
  exact (Option.filter_eq_some_iff.mp h).2

/-- An atom is given back unless it is a literal that is not finite. -/
theorem Atom.faithful : Json.Faithful (Atom.toJson (α := α)) Atom.ofJson? Atom.finite where
  read_write a := by
    cases a with
    | lit x =>
      show Option.map lit (Json.literal? (if Numeral.finite x then .num x else .null)) = _
      by_cases hx : Numeral.finite x = true <;> simp [hx, Json.literal?, finite]
    | reg r =>
      show Option.map reg (Register.ofJson? (r.toJson : Json α)) = some (reg r)
      rw [Register.faithful.read_write]
      rfl
  of_read := by
    intro j a h
    unfold ofJson? at h
    split at h
    · obtain ⟨x, hx, rfl⟩ := Option.map_eq_some_iff.mp h
      exact Json.finite_of_literal? hx
    · obtain ⟨r, -, rfl⟩ := Option.map_eq_some_iff.mp h
      rfl
    · cases h

/-! ## Instructions, equations and traces -/

/-- An instruction is given back if its literal operands are finite, however many operands it
has. -/
theorem Instruction.faithful :
    Json.Faithful (Instruction.toJson (α := α)) Instruction.ofJson? Instruction.finite where
  read_write i := by
    show (do return ⟨← Op.ofJson? (.str i.op.name : Json α),
      ← Json.items? Atom.ofJson? (.arr (i.args.map Atom.toJson))⟩) =
        if i.finite then some i else none
    rw [Op.ofJson?_name, Atom.faithful.items.read_write, finite]
    cases i.args.all Atom.finite <;> rfl
  of_read := by
    intro j i h
    obtain ⟨fields, -, h⟩ := Option.bind_eq_some_iff.mp h
    split at h
    · obtain ⟨op, -, h⟩ := Option.bind_eq_some_iff.mp h
      obtain ⟨args, hargs, h⟩ := Option.bind_eq_some_iff.mp h
      cases h
      exact Atom.faithful.items.of_read hargs
    · cases h

/-- An equation is given back if its literal operands are finite. -/
theorem Equation.faithful :
    Json.Faithful (Equation.toJson (α := α)) Equation.ofJson? Equation.finite where
  read_write e := by
    show (do return ⟨← Register.ofJson? (e.binder.toJson : Json α),
      ← Instruction.ofJson? e.rhs.toJson⟩) = if e.finite then some e else none
    rw [Register.faithful.read_write, Instruction.faithful.read_write, finite]
    cases e.rhs.finite <;> rfl
  of_read := by
    intro j e h
    obtain ⟨fields, -, h⟩ := Option.bind_eq_some_iff.mp h
    split at h
    · obtain ⟨binder, -, h⟩ := Option.bind_eq_some_iff.mp h
      obtain ⟨rhs, hrhs, h⟩ := Option.bind_eq_some_iff.mp h
      cases h
      exact Instruction.faithful.of_read hrhs
    · cases h

/-- **A trace is given back if its literals are finite.** -/
theorem Trace.faithful : Json.Faithful (Trace.toJson (α := α)) Trace.ofJson? Trace.finite where
  read_write t := by
    show (do return ⟨← Json.items? Register.ofJson? (.arr (t.params.map Register.toJson) : Json α),
      ← Json.items? Equation.ofJson? (.arr (t.equations.map Equation.toJson)),
      ← Atom.ofJson? t.ret.toJson⟩) = if t.finite then some t else none
    rw [Register.faithful.items.read_write, Equation.faithful.items.read_write,
      Atom.faithful.read_write, finite]
    cases t.equations.all Equation.finite <;> cases t.ret.finite <;> simp
  of_read := by
    intro j t h
    obtain ⟨fields, -, h⟩ := Option.bind_eq_some_iff.mp h
    split at h
    · obtain ⟨params, -, h⟩ := Option.bind_eq_some_iff.mp h
      obtain ⟨equations, hequations, h⟩ := Option.bind_eq_some_iff.mp h
      obtain ⟨ret, hret, h⟩ := Option.bind_eq_some_iff.mp h
      cases h
      rw [finite, Equation.faithful.items.of_read hequations, Atom.faithful.of_read hret]
      rfl
    · cases h

/-- **The serial form of a trace is faithful.**  Whether the trace is well formed or not, reading
what was written gives back the trace exactly if all its literals are finite, and nothing at all
otherwise.  A trace that was read from anything else is given back when it is written again. -/
theorem Trace.serial_faithful :
    (∀ t : Trace α, (Trace.ofJson? t.toJson = some t ↔
        (∀ e ∈ t.equations, ∀ x, .lit x ∈ e.rhs.args → Numeral.finite x = true) ∧
          ∀ x, t.ret = .lit x → Numeral.finite x = true) ∧
      (Trace.ofJson? t.toJson ≠ some t → Trace.ofJson? t.toJson = none)) ∧
    ∀ (j : Json α) (t : Trace α), Trace.ofJson? j = some t → Trace.ofJson? t.toJson = some t := by
  refine ⟨fun t => ?_, fun j t => Trace.faithful.read_write_of_read⟩
  rw [← Trace.finite_iff, Trace.faithful.read_write]
  cases t.finite <;> simp

/-- An object with the fields of a trace in another order, and with one more.  One register is
written as an array, and the product has no operands. -/
def shuffledTrace : Json Float :=
  let v : Json Float := .arr [.nat 7, .nat 1, .str "Var"]
  .obj [("ret", .obj [("Reg", v)]), ("note", .str "a product of nothing"),
    ("equations", .arr [.obj [("rhs", .obj [("args", .arr []), ("op", .str "mul")]),
      ("binder", .obj [("kind", .str "Var"), ("namespace", .nat 7), ("index", .nat 1)])]]),
    ("params", .arr [])]

/-- What `shuffledTrace` is read as does not pass the check, but it is given back. -/
theorem Trace.serial_faithful_shuffledTrace :
    ∃ t, Trace.ofJson? shuffledTrace = some t ∧
      (t.check : Except (Error Float) Unit) = .error (.wrongCount (.operands .mul) 2 0) ∧
      Trace.ofJson? t.toJson = some t :=
  ⟨⟨[], [⟨⟨7, 1, .result⟩, .mul, []⟩], .reg ⟨7, 1, .result⟩⟩, rfl, rfl,
    Trace.serial_faithful.2 shuffledTrace _ rfl⟩

end DualTrace
