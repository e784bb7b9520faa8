/-
# Numbers as text

Every text of the library, an error message or a rendered trace, writes its numbers through the
class `Numeral`.  The serial form of a trace also asks which numbers are finite, because only those
can be written as a number there.
-/
import DualTrace.Decimal.Positional

namespace DualTrace

/-- Numbers that have a text. -/
class Numeral (α : Type) where
  /-- The text of a number. -/
  text : α → String
  /-- Whether the number is neither infinite nor undefined. -/
  finite : α → Bool

/-- A double is written with the fewest digits that read back. -/
instance : Numeral Float where
  text x := Decimal.BinaryFormat.double.text x.toBits.toNat
  finite x := Decimal.BinaryFormat.double.finite x.toBits.toNat

/-- A single is written with the fewest digits that read back to the same single. -/
instance : Numeral Float32 where
  text x := Decimal.BinaryFormat.single.text x.toBits.toNat
  finite x := Decimal.BinaryFormat.single.finite x.toBits.toNat

end DualTrace
