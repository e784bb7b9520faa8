/-
# Floating-point numbers in positional notation

A finite number is written with its shortest digits and never with an exponent: zeros fill the
places up to the units, a whole number has no point, and a number below one starts with `0.`.
The sign of zero is written; a number that is not finite is `inf`, `-inf` or `NaN`.
-/
import DualTrace.Decimal.Shortest

namespace DualTrace.Decimal

/-! ## Digits and the point -/

/-- The text of `digits * 10 ^ exponent` without an exponent. -/
def positional (digits : Nat) : Int → String
  | .ofNat e => String.ofList ((toString digits).toList ++ List.replicate e '0')
  | .negSucc e =>
    let places := e + 1
    let padded := (toString digits).toList.leftpad (places + 1) '0'
    let whole := padded.length - places
    String.ofList (padded.take whole ++ '.' :: padded.drop whole)

/-! ## Binary formats -/

/-- An interchange format: a sign bit, then the exponent field, then the fraction field.  `digits`
decimal digits always suffice to tell two of its numbers apart. -/
structure BinaryFormat where
  exponentBits : Nat
  fractionBits : Nat
  digits : Nat

namespace BinaryFormat

/-- Double precision: 11 exponent bits, 52 fraction bits. -/
def double : BinaryFormat := ⟨11, 52, 17⟩

/-- Single precision: 8 exponent bits, 23 fraction bits. -/
def single : BinaryFormat := ⟨8, 23, 9⟩

/-- The fraction field of `bits`. -/
def fraction (f : BinaryFormat) (bits : Nat) : Nat := bits % Nat.pow 2 f.fractionBits

/-- The exponent field of `bits`. -/
def exponent (f : BinaryFormat) (bits : Nat) : Nat :=
  bits / Nat.pow 2 f.fractionBits % Nat.pow 2 f.exponentBits

/-- The sign of `bits`. -/
def negative (f : BinaryFormat) (bits : Nat) : Bool :=
  bits / Nat.pow 2 (f.fractionBits + f.exponentBits) % 2 == 1

/-- A number is finite unless its exponent field is all ones. -/
def finite (f : BinaryFormat) (bits : Nat) : Bool :=
  f.exponent bits != Nat.pow 2 f.exponentBits - 1

/-- The reals that round to the positive finite number `bits`.  The gap below is the smaller one
when the fraction is zero, except at the smallest normal number. -/
def span (f : BinaryFormat) (bits : Nat) : Span :=
  let bias : Int := Nat.pow 2 (f.exponentBits - 1) - 1 + f.fractionBits
  if f.exponent bits == 0 then Span.ofBinary (f.fraction bits) (1 - bias) false
  else
    Span.ofBinary (f.fraction bits + Nat.pow 2 f.fractionBits) (f.exponent bits - bias)
      (f.fraction bits == 0 && f.exponent bits != 1)

/-- The text of a number without its sign. -/
def magnitudeText (f : BinaryFormat) (bits : Nat) : String :=
  if !f.finite bits then "inf"
  else if f.exponent bits == 0 && f.fraction bits == 0 then "0"
  else
    let (digits, exponent) := (f.span bits).shortest f.digits
    positional digits exponent

/-- The text of the number with the given bits. -/
def text (f : BinaryFormat) (bits : Nat) : String :=
  if !f.finite bits && f.fraction bits != 0 then "NaN"
  else if f.negative bits then "-" ++ f.magnitudeText bits
  else f.magnitudeText bits

end BinaryFormat

end DualTrace.Decimal
