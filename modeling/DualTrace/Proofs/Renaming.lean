/-
# Renaming registers

Registers of a trace can be renamed one by one.  If no two of them get the same name, the trace
stays well formed, and if each of them is written as before, so is the trace.

* `Trace.rename` : a trace with its registers renamed;
* `Trace.WellFormed.rename` : a well-formed trace stays well formed under new names;
* `Trace.WellFormed.text_rename` : the text of a renamed trace;
* `Trace.Numbered` : a trace whose registers are numbered in the order in which they are bound, as
  a recording does it;
* `Trace.renumber` : the names that a recording of a trace would give.
-/
import DualTrace.Proofs.WellFormed
import Mathlib.Algebra.Group.Nat.Defs
import Mathlib.Data.Set.Function

namespace DualTrace

variable {α : Type} {ren : Register → Register}

/-! ## Renaming -/

/-- An atom with its register renamed. -/
def Atom.rename (ren : Register → Register) : Atom α → Atom α
  | .lit x => .lit x
  | .reg r => .reg (ren r)

/-- An equation with its registers renamed. -/
def Equation.rename (ren : Register → Register) (e : Equation α) : Equation α :=
  ⟨ren e.binder, e.rhs.op, e.rhs.args.map (Atom.rename ren)⟩

/-- A trace with its registers renamed. -/
def Trace.rename (ren : Register → Register) (t : Trace α) : Trace α :=
  { params := t.params.map ren
    equations := t.equations.map (Equation.rename ren)
    ret := t.ret.rename ren }

/-- The registers that a trace binds, in order. -/
def Trace.registers (t : Trace α) : List Register := t.params ++ Trace.binders t.equations

theorem Atom.regs_rename (a : Atom α) : (a.rename ren).regs = a.regs.map ren := by
  cases a <;> rfl

/-- A renamed equation reads the renamed registers. -/
theorem Equation.reads_rename (e : Equation α) : (e.rename ren).reads = e.reads.map ren := by
  unfold Equation.reads
  rw [List.map_flatMap]
  show (e.rhs.args.map (Atom.rename ren)).flatMap Atom.regs = _
  rw [List.flatMap_map]
  exact List.flatMap_congr fun a _ => a.regs_rename

section Text

variable [Numeral α]

/-- An atom is written as before if its register is. -/
theorem Atom.text_rename {a : Atom α} (h : ∀ r ∈ a.regs, (ren r).text = r.text) :
    (a.rename ren).text = a.text := by
  cases a with
  | lit x => rfl
  | reg r => rw [Atom.rename, Atom.text, Atom.text, h r (List.mem_singleton_self r)]

/-- An equation is written as before if the registers in it are. -/
theorem Equation.text_rename {e : Equation α} (hbinder : (ren e.binder).text = e.binder.text)
    (h : ∀ r ∈ e.reads, (ren r).text = r.text) : (e.rename ren).text = e.text := by
  have hargs : (e.rhs.args.map (Atom.rename ren)).map Atom.text = e.rhs.args.map Atom.text := by
    rw [List.map_map]
    refine List.map_congr_left fun a ha => Atom.text_rename fun r hr => h r ?_
    exact List.mem_flatMap.mpr ⟨a, ha, hr⟩
  have hrhs : (e.rename ren).rhs.text Atom.text = e.rhs.text Atom.text := by
    unfold Instruction.text
    rw [show (e.rename ren).rhs.args = e.rhs.args.map (Atom.rename ren) from rfl, hargs]
    rfl
  unfold Equation.text
  rw [hrhs, show (e.rename ren).binder = ren e.binder from rfl, hbinder]

end Text

namespace Trace

theorem binders_map_rename (es : List (Equation α)) :
    binders (es.map (Equation.rename ren)) = (binders es).map ren := by
  rw [binders, binders, List.map_map, List.map_map]
  rfl

/-! ## Well-formedness -/

/-- Equations stay in order when no two of the registers `regs`, which they bind or find bound, get
the same name. -/
theorem Ordered.rename {regs : List Register} (hinj : Set.InjOn ren {r | r ∈ regs})
    {es : List (Equation α)} :
    ∀ {bound : List Register}, Ordered bound es → bound ⊆ regs → binders es ⊆ regs →
      Ordered (bound.map ren) (es.map (Equation.rename ren)) := by
  induction es with
  | nil => intros; trivial
  | cons e es ih =>
    intro bound h hbound hes
    have hbinder : e.binder ∈ regs := hes List.mem_cons_self
    have htail : binders es ⊆ regs := fun r hr => hes (List.mem_cons_of_mem _ hr)
    refine ⟨⟨(List.length_map _).trans h.1.arity, fun s hs => ?_, fun hmem => ?_⟩, ?_⟩
    · rw [Equation.reads_rename] at hs
      obtain ⟨r, hr, rfl⟩ := List.mem_map.mp hs
      exact List.mem_map_of_mem (h.1.reads r hr)
    · obtain ⟨r, hr, heq⟩ := List.mem_map.mp hmem
      have hsame : r = e.binder := hinj (hbound hr) hbinder heq
      exact h.1.fresh (hsame ▸ hr)
    · exact ih h.2 (List.cons_subset.mpr ⟨hbinder, hbound⟩) htail

/-- No register is bound twice. -/
theorem WellFormed.nodup_registers {t : Trace α} (h : t.WellFormed) : t.registers.Nodup := by
  refine List.nodup_append.mpr ⟨h.params, h.ordered.binders_nodup, fun r hr s hs => ?_⟩
  rintro rfl
  exact h.ordered.not_mem_binders hr hs

/-- **A well-formed trace stays well formed under new names**, if no two of its registers get the
same one. -/
theorem WellFormed.rename {t : Trace α} (h : t.WellFormed)
    (hinj : Set.InjOn ren {r | r ∈ t.registers}) : (t.rename ren).WellFormed where
  params := List.Nodup.map_on (fun r hr s hs heq =>
    hinj (List.mem_append_left _ hr) (List.mem_append_left _ hs) heq) h.params
  ordered := h.ordered.rename hinj (List.subset_append_left _ _) (List.subset_append_right _ _)
  ret s hs := by
    rw [show (t.rename ren).ret = t.ret.rename ren from rfl, Atom.regs_rename] at hs
    obtain ⟨r, hr, rfl⟩ := List.mem_map.mp hs
    show _ ∈ t.params.map ren ∨ _ ∈ binders (t.equations.map (Equation.rename ren))
    rw [binders_map_rename]
    exact (h.ret r hr).imp List.mem_map_of_mem List.mem_map_of_mem

/-- Every register that an equation of a well-formed trace reads is bound by the trace. -/
theorem WellFormed.reads_subset_registers {t : Trace α} (h : t.WellFormed) {e : Equation α}
    (he : e ∈ t.equations) : e.reads ⊆ t.registers := by
  obtain ⟨pre, post, heq⟩ := List.append_of_mem he
  intro r hr
  have hord := h.ordered
  rw [heq] at hord
  rcases List.mem_append.mp (hord.placed.reads r hr) with hpre | hparam
  · refine List.mem_append_right _ ?_
    rw [heq, binders, List.map_append]
    exact List.mem_append_left _ (List.mem_reverse.mp hpre)
  · exact List.mem_append_left _ hparam

/-! ## Text -/

section Text

variable [Numeral α]

/-- Renamed equations are written as before if the registers in them are. -/
theorem equationLines_rename {es : List (Equation α)}
    (h : ∀ e ∈ es, (e.rename ren).text = e.text) :
    ∀ i, equationLines i (es.map (Equation.rename ren)) = equationLines i es := by
  induction es with
  | nil => intro i; rfl
  | cons e es ih =>
    intro i
    rw [List.map_cons, equationLines, equationLines, h e List.mem_cons_self,
      ih (fun e' he' => h e' (List.mem_cons_of_mem _ he'))]

/-- A trace is written as before if its parameters, its equations and its return atom are. -/
theorem text_rename {t : Trace α} (hparams : ∀ r ∈ t.params, (ren r).text = r.text)
    (hequations : ∀ e ∈ t.equations, (e.rename ren).text = e.text)
    (hret : ∀ r ∈ t.ret.regs, (ren r).text = r.text) : (t.rename ren).text = t.text := by
  have htexts : (t.params.map ren).map Register.text = t.params.map Register.text := by
    rw [List.map_map]
    exact List.map_congr_left hparams
  have hreturn : returnText (t.ret.rename ren) = returnText t.ret := by
    cases hatom : t.ret with
    | lit x => rfl
    | reg r =>
      rw [hatom] at hret
      exact hret r (List.mem_singleton_self r)
  unfold text Trace.rename
  rw [htexts, equationLines_rename hequations, hreturn]

/-- **A well-formed trace is written as before** if each of its registers is. -/
theorem WellFormed.text_rename {t : Trace α} (h : t.WellFormed)
    (hren : ∀ r ∈ t.registers, (ren r).text = r.text) : (t.rename ren).text = t.text :=
  Trace.text_rename (fun r hr => hren r (List.mem_append_left _ hr))
    (fun _ he => Equation.text_rename
      (hren _ (List.mem_append_right _ (List.mem_map_of_mem he)))
      fun r hr => hren r (h.reads_subset_registers he hr))
    fun r hr => hren r (List.mem_append.mpr (h.ret r hr))

end Text

/-! ## Numbers -/

/-- The registers of the first `count` parameters of a recording in the space `space`. -/
def paramRegisters (space : UInt32) (count : Nat) : List Register :=
  (List.range count).map fun i => ⟨space, UInt32.ofNat i, .param⟩

/-- The registers of the next `count` results of a recording that has come to number `start`. -/
def resultRegisters (space : UInt32) (start count : Nat) : List Register :=
  (List.range' start count).map fun i => ⟨space, UInt32.ofNat i, .result⟩

theorem resultRegisters_succ (space : UInt32) (start count : Nat) :
    resultRegisters space start (count + 1) =
      ⟨space, UInt32.ofNat start, .result⟩ :: resultRegisters space (start + 1) count := rfl

/-- A trace whose parameters and results are numbered by one counter, in the order in which they are
bound, in the space `space`. -/
structure Numbered (space : UInt32) (t : Trace α) : Prop where
  params : t.params = paramRegisters space t.params.length
  binders : binders t.equations = resultRegisters space t.params.length t.equations.length

/-- The name of a register of a trace when all of them are numbered in the space `space`. -/
def renumber (space : UInt32) (t : Trace α) (r : Register) : Register :=
  ⟨space, UInt32.ofNat (t.registers.idxOf r), if r ∈ t.params then .param else .result⟩

namespace WellFormed

variable {t : Trace α} {space : UInt32}

/-- Parameters are numbered by their position. -/
theorem map_renumber_params (h : t.WellFormed) (space : UInt32) :
    t.params.map (t.renumber space) = paramRegisters space t.params.length := by
  unfold paramRegisters
  refine List.ext_getElem (by simp) fun i hi _ => ?_
  have hlt : i < t.params.length := by simpa using hi
  have hpos : i < t.registers.length := by
    rw [registers, List.length_append]
    omega
  have hget : t.registers[i] = t.params[i] := List.getElem_append_left hlt
  have hidx : t.registers.idxOf t.params[i] = i := by
    rw [← hget]
    exact h.nodup_registers.idxOf_getElem i hpos
  rw [List.getElem_map, List.getElem_map, List.getElem_range, renumber, hidx,
    if_pos (List.getElem_mem hlt)]

/-- Results are numbered by their position behind the parameters. -/
theorem map_renumber_binders (h : t.WellFormed) (space : UInt32) :
    (Trace.binders t.equations).map (t.renumber space) =
      resultRegisters space t.params.length t.equations.length := by
  have hlen : (Trace.binders t.equations).length = t.equations.length := List.length_map _
  unfold resultRegisters
  refine List.ext_getElem (by simp [hlen]) fun k hk _ => ?_
  have hlt : k < (Trace.binders t.equations).length := by simpa using hk
  have hpos : t.params.length + k < t.registers.length := by
    rw [registers, List.length_append]
    omega
  have hget : t.registers[t.params.length + k] = (Trace.binders t.equations)[k] := by
    simp [registers]
  have hidx : t.registers.idxOf (Trace.binders t.equations)[k] = t.params.length + k := by
    rw [← hget]
    exact h.nodup_registers.idxOf_getElem _ hpos
  have hnot : (Trace.binders t.equations)[k] ∉ t.params := fun hmem =>
    h.ordered.not_mem_binders hmem (List.getElem_mem hlt)
  rw [List.getElem_map, List.getElem_map, List.getElem_range', renumber, hidx, if_neg hnot,
    Nat.one_mul]

/-- No two registers get the same name, if there are enough numbers. -/
theorem injOn_renumber (hsize : t.params.length + t.equations.length < 2 ^ 32) :
    Set.InjOn (t.renumber space) {r | r ∈ t.registers} := by
  intro r hr s hs heq
  have hlen : t.registers.length < 2 ^ 32 := by
    rw [registers, List.length_append, Trace.binders, List.length_map]
    exact hsize
  have hr' : t.registers.idxOf r < t.registers.length := List.idxOf_lt_length_of_mem hr
  have hs' : t.registers.idxOf s < t.registers.length := List.idxOf_lt_length_of_mem hs
  have hindex : UInt32.ofNat (t.registers.idxOf r) = UInt32.ofNat (t.registers.idxOf s) :=
    congrArg Register.index heq
  have hidx : t.registers.idxOf r = t.registers.idxOf s := by
    have hnat := congrArg UInt32.toNat hindex
    rwa [UInt32.toNat_ofNat_of_lt' (Nat.lt_trans hr' hlen),
      UInt32.toNat_ofNat_of_lt' (Nat.lt_trans hs' hlen)] at hnat
  exact (List.idxOf_inj hr).mp hidx

/-- A trace is numbered when its registers have got new names. -/
theorem numbered_rename (h : t.WellFormed) (space : UInt32) :
    (t.rename (t.renumber space)).Numbered space where
  params := by
    rw [show (t.rename (t.renumber space)).params = t.params.map (t.renumber space) from rfl,
      List.length_map]
    exact h.map_renumber_params space
  binders := by
    show Trace.binders (t.equations.map _) = resultRegisters space (t.params.map _).length
      (t.equations.map _).length
    rw [binders_map_rename, List.length_map, List.length_map]
    exact h.map_renumber_binders space

/-- New numbers for a trace that is numbered already do not show in its text. -/
theorem text_rename_renumber [Numeral α] {space' : UInt32} (h : t.WellFormed)
    (hnum : t.Numbered space) : (t.rename (t.renumber space')).text = t.text := by
  have hold : t.registers = paramRegisters space t.params.length ++
      resultRegisters space t.params.length t.equations.length :=
    congrArg₂ (· ++ ·) hnum.params hnum.binders
  have hnew : t.registers.map (t.renumber space') = paramRegisters space' t.params.length ++
      resultRegisters space' t.params.length t.equations.length := by
    rw [registers, List.map_append, h.map_renumber_params, h.map_renumber_binders]
  -- the text of a register does not show its space
  have htext : (t.registers.map (t.renumber space')).map Register.text =
      t.registers.map Register.text := by
    unfold paramRegisters resultRegisters at hold hnew
    rw [hnew, hold, List.map_append, List.map_append, List.map_map, List.map_map, List.map_map,
      List.map_map]
    rfl
  rw [List.map_map] at htext
  exact h.text_rename (List.map_inj_left.mp htext)

end WellFormed

end Trace

end DualTrace
