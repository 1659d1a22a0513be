import OpFusion.Decimal.Layout

/-!
# Double-precision numbers

A double is kept as its 64 bits: a sign, eleven bits of exponent and 52 of fraction. The bits
decide everything a literal needs: which doubles are equal as numbers (`sameValue`, under which a
NaN differs from itself and the two zeros agree), the whole part clamped to 64 bits (`toInt64?`),
and the shortest decimal text that reads back (`text`).
-/

namespace OpFusion

/-- A double-precision number by its bits. -/
structure Binary64 where
  /-- Sign, exponent and fraction, from the highest bit down. -/
  bits : UInt64
deriving DecidableEq

namespace Binary64

/-- The sign bit is set. -/
def isNegative (x : Binary64) : Bool := x.bits >>> 63 == 1

/-- The eleven exponent bits. -/
def exponentBits (x : Binary64) : Nat := (x.bits >>> 52 &&& 0x7ff).toNat

/-- The 52 fraction bits. -/
def fraction (x : Binary64) : Nat := (x.bits &&& 0xfffffffffffff).toNat

/-- Neither infinite nor a NaN. -/
def isFinite (x : Binary64) : Bool := x.exponentBits != 0x7ff

/-- Not a number. -/
def isNaN (x : Binary64) : Bool := x.exponentBits == 0x7ff && x.fraction != 0

/-- One of the two zeros. -/
def isZero (x : Binary64) : Bool := x.exponentBits == 0 && x.fraction == 0

/-- Equality of numbers: no NaN equals anything, and the two zeros are equal. -/
def sameValue (x y : Binary64) : Bool :=
  !x.isNaN && !y.isNaN && (x.bits == y.bits || (x.isZero && y.isZero))

/-- The significand of a finite double, as a whole number: a leading one stands before the fraction
unless the exponent bits are all zero. -/
def significand (x : Binary64) : Nat :=
  if x.exponentBits = 0 then x.fraction else 0x10000000000000 + x.fraction

/-- The power of two that scales the significand of a finite double to its magnitude. -/
def scale (x : Binary64) : Int := (max x.exponentBits 1 : Nat) - 1075

/-- The magnitude of a finite double, cut off to a whole number. -/
def wholePart (x : Binary64) : Nat := x.significand <<< x.scale.toNat >>> (-x.scale).toNat

/-- The whole part, clamped to the range of 64-bit integers; a NaN and the infinities have none. -/
def toInt64? (x : Binary64) : Option Int64 :=
  if x.isFinite then
    let whole : Int := if x.isNegative then -x.wholePart else x.wholePart
    some (Int64.ofInt (max Int64.minValue.toInt (min whole Int64.maxValue.toInt)))
  else none

/-- The reals that round to the magnitude of a finite double other than zero. A double with an even
significand takes both ends; below a power of two the next double is half as far away. -/
def neighbourhood (x : Binary64) : Decimal.Neighbourhood :=
  let up := 1 <<< x.scale.toNat
  { value := 4 * x.significand * up
    below := (if x.fraction = 0 ∧ 1 < x.exponentBits then 1 else 2) * up
    above := 2 * up
    unit := 4 <<< (-x.scale).toNat
    closed := x.significand % 2 == 0 }

/-- Magnitudes from `1e-4` up to but not including `1e16` are written without exponent. -/
def layout : Decimal.Layout := ⟨-4, 15⟩

/-- The shortest text that reads back as the same double. -/
def text (x : Binary64) : String :=
  if x.isNaN then "NaN"
  else
    let magnitude :=
      if !x.isFinite then "inf"
      else if x.isZero then "0.0"
      else layout.render x.neighbourhood.shortest
    if x.isNegative then "-" ++ magnitude else magnitude

end Binary64

end OpFusion
