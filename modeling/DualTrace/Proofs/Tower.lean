/-
# Towers of derivatives

A derivative of a derivative of a derivative answers each instruction through a tower of drivers,
where a value is a number, or a dual number of some of the instances, and is lifted only when an
instruction meets it.  What comes out is nevertheless the arithmetic of iterated dual numbers: pairs
of pairs of pairs, all levels of every value written out.

* `Tower α k` : the pairs of depth `k` over the numbers, and `Arithmetic.tower` their arithmetic;
* `Tower.top` : the tangent of the tangent, down to a number;
* `Computation.nest` : one derivative around another, each with its own seeds;
* `Program.evaluate_nest_eq` : a nest evaluates to the innermost tangent that the body computes in
  the tower.

The induction is on the nest, from the inside out.  A nest of one more drive is a nest around the
derivative of the program, which is a program as well, and this one denotes a tangent in every
domain.
-/
import DualTrace.Proofs.Exact
import DualTrace.Proofs.Meaning
import Mathlib.Algebra.Ring.Int.Defs

namespace DualTrace

variable {σ α : Type}

/-! ## Iterated pairs -/

/-- The pairs of depth `k` over the numbers. -/
def Tower (α : Type) : Nat → Type
  | 0 => α
  | k + 1 => Tower α k × Tower α k

/-- The component of a pair that is a tangent at each level. -/
def Tower.top : {k : Nat} → Tower α k → α
  | 0, x => x
  | _ + 1, z => top z.2

variable [Scalar α]

/-- The arithmetic of iterated dual numbers. -/
def Arithmetic.tower : (k : Nat) → Arithmetic α (Tower α k)
  | 0 => numbers
  | k + 1 => (tower k).dual

/-- Arguments paired with the seeds of each drive, those of the outermost drive first. -/
def Tower.lift : (seeds : List (List α)) → List α → List (Tower α seeds.length)
  | [], xs => xs
  | ts :: seeds, xs => (lift seeds xs).zip (ts.map (Arithmetic.tower seeds.length).num)

/-! ## Nests -/

/-- A derivative inside a derivative, and so on, each along its own numbers.  The seeds of the
innermost one come first. -/
def Computation.nest (c : Computation α) : List (List α) → Computation α
  | [] => c
  | ts :: seeds => (c.jvp (ts.map Value.num)).nest seeds

/-- Operands that are numbers have these numbers as values. -/
theorem Operand.readAll_map_num (env : Frames α) (xs : List α) :
    (Operand.readAll env (xs.map Operand.num) : Run σ α _) = pure (xs.map Value.num) := by
  induction xs with
  | nil => rfl
  | cons x xs ih =>
    rw [List.map_cons, List.map_cons, Operand.readAll, ih]
    rfl

omit [Scalar α] in
/-- Operands that are numbers stand for the numbers of the domain. -/
theorem Operand.mapM_denote_map_num {B : Type} (num : α → B) (scopes : List (Scope B))
    (xs : List α) :
    (xs.map Operand.num).mapM (Operand.denote num scopes) = some (xs.map num) := by
  induction xs with
  | nil => rfl
  | cons x xs ih =>
    rw [List.map_cons, List.mapM_cons, ih]
    rfl

namespace Program

/-- The derivative of a program along numbers is a program. -/
theorem computation_jvp (p : Program α) (ts : List α) :
    (Program.jvp p (ts.map Operand.num)).computation = p.computation.jvp (ts.map Value.num) := by
  have hrun : ∀ {σ : Type} (d : Driver σ α) (args : List (Value α)),
      (Program.jvp p (ts.map Operand.num)).run d [] args =
        (p.computation.jvp (ts.map Value.num)).run d args := by
    intro σ d args
    rw [Program.run, Operand.readAll_map_num, pure_bind]
    rfl
  unfold computation
  congr 1
  funext σ d args
  exact hrun d args

omit [Scalar α] in
/-- Such a derivative is closed. -/
theorem Closed.jvp {ops : Op → Prop} {p : Program α} (hp : p.Closed ops) (ts : List α) :
    (Program.jvp p (ts.map Operand.num)).Closed ops := by
  refine ⟨hp, fun o ho => ?_⟩
  obtain ⟨t, -, rfl⟩ := List.mem_map.mp ho
  exact True.intro

/-- What the derivative of a program along numbers denotes is the tangent of what the program
denotes on pairs of arguments and seeds. -/
theorem denote_jvp_of_eq_some {B : Type} {D : Arithmetic α B} {p : Program α} {ts : List α}
    {bs : List B} {b : B} (h : (Program.jvp p (ts.map Operand.num)).denote D [] bs = some b) :
    (p.denote D.dual [] (bs.zip (ts.map D.num))).map Prod.snd = some b := by
  rw [Program.denote, Operand.mapM_denote_map_num, Option.bind_some] at h
  split at h
  · exact h
  · cases h

/-- **A tower of derivatives is iterated dual-number arithmetic.**  Whatever numbers a nest of
derivatives of a closed program is taken along, what it evaluates to is the innermost tangent of
what the program denotes in the arithmetic of the tower.  Nothing is assumed of the numbers. -/
theorem evaluate_nest_eq {ops : Op → Prop} {p : Program α} (hp : p.Closed ops)
    (seeds : List (List α)) (xs : List α) (m : Machine σ α) (y : α)
    (h : Run.result ((p.computation.nest seeds).evaluate xs) m = .ok y) :
    (p.denote (.tower seeds.length) [] (Tower.lift seeds xs)).map Tower.top = some y := by
  induction seeds generalizing p with
  | nil =>
    have hdenote : p.denote (.tower 0) [] xs = some y := denote_of_evaluate hp h
    exact congrArg (Option.map Tower.top) hdenote
  | cons ts seeds ih =>
    rw [Computation.nest, ← computation_jvp] at h
    obtain ⟨z, hz, htop⟩ := Option.map_eq_some_iff.mp (ih (hp.jvp ts) h)
    obtain ⟨w, hw, htangent⟩ := Option.map_eq_some_iff.mp (denote_jvp_of_eq_some hz)
    refine Option.map_eq_some_iff.mpr ⟨w, hw, ?_⟩
    rw [← htop, ← htangent]
    rfl

end Program

/-- The program of `x` and `c` that multiplies `x` by `x * x`, or by two where `c` does not hold. -/
def guardedCube : Program Int :=
  .block (.step (.issue .mul [.arg 0 0, .arg 0 0])
    (.step (.issue .iif [.arg 0 1, .result 0 0, .num 2])
    (.step (.issue .id [.result 0 1])
    (.step (.issue .mul [.result 0 2, .arg 0 0]) .done)))) (.result 0 3)

/-- A derivative of `guardedCube` around another one.  The condition has a tangent at each level but
no tangent of the tangent, so this one is not taken from the product, and 24 comes out instead of
36. -/
theorem Program.evaluate_nest_eq_guardedCube :
    guardedCube.Closed (fun _ => True) ∧
      Run.result ((guardedCube.computation.nest [[1, 1], [2, 1]]).evaluate [3, 1])
        (⟨(), {}⟩ : Machine Unit Int) = .ok 24 ∧
      (guardedCube.denote (.tower 2) [] (Tower.lift [[1, 1], [2, 1]] [3, 1])).map Tower.top =
        some 24 := by
  have hclosed : guardedCube.Closed (fun _ => True) := by
    simp [guardedCube, Program.Closed, Block.Closed, Step.Closed, Operand.Plain]
  exact ⟨hclosed, rfl, Program.evaluate_nest_eq hclosed [[1, 1], [2, 1]] [3, 1]
    (⟨(), {}⟩ : Machine Unit Int) 24 rfl⟩

end DualTrace
