import OpFusion.Binary64
import OpFusion.DataType
import OpFusion.Text.Quoted

/-!
# Literals

The constants that an operator graph and a kernel body may hold. `Literal.sameValue` compares them
as a program would: doubles as numbers, everything else exactly, and never across types.
-/

namespace OpFusion

/-- A constant. -/
inductive Literal where
  | float (x : Binary64)
  | int (n : Int64)
  | bool (b : Bool)
  | text (s : String)
deriving DecidableEq

namespace Literal

/-- The cell type of a constant. -/
def valueType : Literal → ValueType
  | float _ => .fp64
  | int _ => .int64
  | bool _ => .boolean
  | text _ => .string

/-- A double that is not a number. -/
def isNaN : Literal → Bool
  | float x => x.isNaN
  | _ => false

/-- The constant as a 64-bit integer. Doubles lose their fraction and are clamped, truth values
count as zero and one, and texts, NaNs and infinities have none. -/
def toInt64? : Literal → Option Int64
  | float x => x.toInt64?
  | int n => some n
  | bool b => some (if b then 1 else 0)
  | text _ => none

/-- Equality of values; a NaN differs from itself. -/
def sameValue : Literal → Literal → Bool
  | float x, float y => x.sameValue y
  | int m, int n => m == n
  | bool a, bool b => a == b
  | text s, text t => s == t
  | _, _ => false

/-- The written form of a constant. -/
def render : Literal → String
  | float x => x.text
  | int n => toString n.toInt
  | bool b => if b then "true" else "false"
  | text s => Text.quoted s

end Literal

end OpFusion
