/-!
# Shortest decimals

A floating-point number stands for every real that rounds to it. Written in decimal it needs only
the digits of some member of that interval, and `shortest` finds one on the coarsest decimal grid
that has a member, taking the member nearer to the number itself. All arithmetic is exact.
-/

namespace OpFusion.Decimal

/-- A decimal `digits · 10 ^ exponent`. -/
structure Scaled where
  /-- The digits, read as one natural number. -/
  digits : Nat
  /-- The power of ten that scales them. -/
  exponent : Int
deriving DecidableEq

/-- The reals around the positive rational `value / unit` that read back as it. -/
structure Neighbourhood where
  /-- Numerator of the number itself. -/
  value : Nat
  /-- Distance down to the lower end, in the same unit. -/
  below : Nat
  /-- Distance up to the upper end, in the same unit. -/
  above : Nat
  /-- The common denominator. -/
  unit : Nat
  /-- The two ends belong to the neighbourhood. -/
  closed : Bool

/-- The number of decimal digits of `n`, at least one. -/
def length (n : Nat) : Nat := (Nat.toDigits 10 n).length

namespace Neighbourhood

/-- The same reals, counted in steps of `10 ^ exponent`. -/
def onGrid (r : Neighbourhood) (exponent : Int) : Neighbourhood :=
  let up := Nat.pow 10 (-exponent).toNat
  { r with
    value := r.value * up
    below := r.below * up
    above := r.above * up
    unit := r.unit * Nat.pow 10 exponent.toNat }

/-- A point at distance `gap` lies within an end that is `reach` away. -/
def covers (r : Neighbourhood) (gap reach : Nat) : Bool :=
  gap < reach || (r.closed && gap == reach)

/-- The whole number of units that is in the neighbourhood and nearest to its value, if one is;
of two that are equally near, the larger. -/
def wholeMember? (r : Neighbourhood) : Option Nat :=
  let floor := r.value / r.unit
  let toFloor := r.value % r.unit
  let toNext := r.unit - toFloor
  match r.covers toFloor r.below, r.covers toNext r.above with
  | true, true => some (if toFloor < toNext then floor else floor + 1)
  | true, false => some floor
  | false, true => some (floor + 1)
  | false, false => none

/-- The least exponent whose power of ten is larger than the value. -/
def magnitude (r : Neighbourhood) : Int :=
  if r.unit ≤ r.value then length (r.value / r.unit)
  else 1 - (length ((r.unit - 1) / r.value) : Int)

/-- Tries the grid of `10 ^ exponent` and then up to `finer` finer ones. Where none has a member,
the answer is the value cut off at the last grid. -/
def search (r : Neighbourhood) : Nat → Int → Scaled
  | 0, exponent =>
    let scaled := r.onGrid exponent
    ⟨scaled.wholeMember?.getD (scaled.value / scaled.unit), exponent⟩
  | finer + 1, exponent =>
    match (r.onGrid exponent).wholeMember? with
    | some digits => ⟨digits, exponent⟩
    | none => search r finer (exponent - 1)

/-- The member with the fewest digits. Seventeen of them tell any two doubles apart. -/
def shortest (r : Neighbourhood) : Scaled := r.search 17 r.magnitude

end Neighbourhood

end OpFusion.Decimal
