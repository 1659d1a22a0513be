import OpFusion.Decimal.Shortest

/-!
# Laying out decimals

`Layout.render` writes a scaled decimal either positionally, always with a fractional part, or with
one digit before the point and an exponent. A `Layout` says which decimals are written positionally.
-/

namespace OpFusion.Decimal

/-- The powers of ten between which a number is written without an exponent. -/
structure Layout where
  /-- The leading digit of the smallest positional number stands for this power of ten. -/
  least : Int
  /-- The leading digit of the largest positional number stands for this power of ten. -/
  greatest : Int

/-- The digit zero, `count` times. -/
def zeros (count : Nat) : String := String.ofList (List.replicate count '0')

namespace Scaled

/-- The power of ten for which the leading digit stands. -/
def leading (d : Scaled) : Int := d.exponent + length d.digits - 1

/-- Written without exponent; a whole number gets the fraction `.0`. -/
def positional (d : Scaled) : String :=
  let digits := Nat.toDigits 10 d.digits
  if 0 ≤ d.exponent then
    String.ofList digits ++ zeros d.exponent.toNat ++ ".0"
  else
    let places := (-d.exponent).toNat
    if places < digits.length then
      let whole := digits.length - places
      String.ofList (digits.take whole) ++ "." ++ String.ofList (digits.drop whole)
    else
      "0." ++ zeros (places - digits.length) ++ String.ofList digits

/-- Written with one digit before the point and an exponent; a lone digit gets no point. -/
def scientific (d : Scaled) : String :=
  let mantissa := match Nat.toDigits 10 d.digits with
    | [] => ""
    | [lead] => lead.toString
    | lead :: rest => lead.toString ++ "." ++ String.ofList rest
  mantissa ++ "e" ++ toString d.leading

end Scaled

/-- The text of a positive decimal. -/
def Layout.render (layout : Layout) (d : Scaled) : String :=
  if layout.least ≤ d.leading ∧ d.leading ≤ layout.greatest then d.positional else d.scientific

end OpFusion.Decimal
