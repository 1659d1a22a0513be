/-!
# Configuration

The two settings of fusion. `Config.ofSettings` reads them from optional texts, as an environment
gives them, and takes the default for a setting that is absent or cannot be read.
-/

namespace OpFusion

/-- The settings of region matching and plan construction. -/
structure Config where
  /-- Literals become part of the kernel instead of being passed to it. -/
  compileLiterals : Bool
  /-- Both extents of a matrix multiply must exceed this for an outer-product region to open. -/
  outerThreshold : UInt64
deriving DecidableEq

namespace Config

/-- Literals are compiled, and regions open above 256. -/
def default : Config := ⟨true, 256⟩

/-- A 64-bit number in ASCII digits, which a plus sign may precede. -/
def readNumber? (s : String) : Option UInt64 :=
  let digits := match s.toList with
    | '+' :: rest => rest
    | chars => chars
  if digits.isEmpty || digits.any (!·.isDigit) then none
  else
    let n := digits.foldl (fun n c => 10 * n + (c.toNat - '0'.toNat)) 0
    if n < UInt64.size then some (UInt64.ofNat n) else none

/-- Only the text `0` turns literal compilation off; a threshold that is no number is ignored. -/
def ofSettings (compileLiterals outerThreshold : Option String) : Config :=
  ⟨compileLiterals != some "0", (outerThreshold.bind readNumber?).getD default.outerThreshold⟩

end Config

end OpFusion
