/-
# The shortest decimal that reads back

A binary floating-point number stands for every real that rounds to it.  Among the decimals in that
interval this module picks one with the fewest digits, and of those the one nearest to the number
itself; when two are equally near, the larger.

* `Span` : the interval, its end points and the number over one common denominator;
* `Span.pick?` : the whole number in a span that is nearest to its value;
* `Span.shortest` : the digits, and the power of ten they are multiplied by.

All arithmetic is exact.
-/

namespace DualTrace.Decimal

/-- The reals that round to one positive binary number.  `low`, `value` and `high` are numerators
over `unit`; the end points belong to the span when it is `closed`. -/
structure Span where
  low : Nat
  value : Nat
  high : Nat
  unit : Nat
  closed : Bool

namespace Span

/-- The reals that round to `mantissa * 2 ^ exponent`.  The interval reaches half a unit of the
mantissa to either side, but only a quarter below when the gap below is the smaller one (`narrow`).
Ties round to even, so the end points are inside exactly when the mantissa is even. -/
def ofBinary (mantissa : Nat) (exponent : Int) (narrow : Bool) : Span :=
  let low := 4 * mantissa - if narrow then 1 else 2
  let value := 4 * mantissa
  let high := 4 * mantissa + 2
  let closed := mantissa % 2 == 0
  match exponent - 2 with
  | .ofNat e =>
    let unit := Nat.pow 2 e
    ⟨low * unit, value * unit, high * unit, 1, closed⟩
  | .negSucc e => ⟨low, value, high, Nat.pow 2 (e + 1), closed⟩

/-- The span multiplied by `10 ^ places`. -/
def shift (x : Span) : Int → Span
  | .ofNat places =>
    { x with
      low := x.low * Nat.pow 10 places
      value := x.value * Nat.pow 10 places
      high := x.high * Nat.pow 10 places }
  | .negSucc places => { x with unit := x.unit * Nat.pow 10 (places + 1) }

/-- Whether the whole number `n` lies in the span. -/
def holds (x : Span) (n : Nat) : Bool :=
  if x.closed then x.low ≤ n * x.unit && n * x.unit ≤ x.high
  else x.low < n * x.unit && n * x.unit < x.high

/-- The whole number in the span that is nearest to its value, the larger of two equally near.
Only the two neighbours of the value can be it. -/
def pick? (x : Span) : Option Nat :=
  let below := x.value / x.unit
  let nearAbove := x.unit ≤ 2 * (x.value - below * x.unit)
  match x.holds below, x.holds (below + 1) with
  | true, true => some (if nearAbove then below + 1 else below)
  | true, false => some below
  | false, true => some (below + 1)
  | false, false => none

/-- What is picked lies in the span. -/
theorem holds_of_pick? {x : Span} {n : Nat} (h : x.pick? = some n) : x.holds n = true := by
  simp only [pick?] at h
  split at h <;> simp_all
  split at h <;> simp_all

/-- The number `k` with `10 ^ (k - 1) ≤ value < 10 ^ k`. -/
def magnitude (x : Span) : Int :=
  let digits (n : Nat) : Nat := (Nat.toDigits 10 n).length
  if x.unit ≤ x.value then digits (x.value / x.unit)
  else 1 - digits ((x.unit - 1) / x.value)

/-- The decimal `digits * 10 ^ exponent` in the span with the fewest digits, at most `most` of them;
the digits do not end in a zero. -/
def shortest (x : Span) (most : Nat) : Nat × Int :=
  let grid (count : Nat) : Int := x.magnitude - count
  let found := (List.range' 1 most).findSome? fun count =>
    ((x.shift (-grid count)).pick?).map fun digits => (digits, grid count)
  match found with
  | none => (0, 0)
  | some (digits, exponent) =>
    if digits % 10 == 0 then (digits / 10, exponent + 1) else (digits, exponent)

end Span

end DualTrace.Decimal
