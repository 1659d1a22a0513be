import OpFusion.Named

/-!
# Data types

A value is a scalar or a matrix (a vector is a matrix with one row or one column), and its cells
have a value type.
-/

namespace OpFusion

/-- The form of a value. -/
inductive DataType where
  | scalar
  | matrix
deriving DecidableEq

instance : Named DataType where
  all := [.scalar, .matrix]
  name
    | .scalar => "Scalar"
    | .matrix => "Matrix"

/-- The type of a value's cells. -/
inductive ValueType where
  | fp64
  | int64
  | boolean
  | string
deriving DecidableEq

instance : Named ValueType where
  all := [.fp64, .int64, .boolean, .string]
  name
    | .fp64 => "Fp64"
    | .int64 => "Int64"
    | .boolean => "Boolean"
    | .string => "String"

end OpFusion
