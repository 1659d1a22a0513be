import OpFusion.Named

/-!
# Templates

The families of fused kernels, and what becomes of a region when it reaches a hop.
-/

namespace OpFusion

/-- A family of fused kernels. -/
inductive Template where
  /-- A loop over the cells of a sparse matrix that never materialises the product of two thin
  factors. -/
  | outerProduct
  /-- One pass over the rows of a matrix. -/
  | rowAgg
deriving DecidableEq

instance : Named Template where
  all := [.outerProduct, .rowAgg]
  name
    | .outerProduct => "OUTER_PRODUCT"
    | .rowAgg => "ROW_AGG"

/-- What becomes of a region at a hop. -/
inductive Closing where
  /-- It may grow into the consumers of the hop. -/
  | stillOpen
  /-- It ends here and can be compiled. -/
  | valid
  /-- It ends here and is given up. -/
  | invalid
deriving DecidableEq

instance : Named Closing where
  all := [.stillOpen, .valid, .invalid]
  name
    | .stillOpen => "OPEN"
    | .valid => "CLOSED_VALID"
    | .invalid => "CLOSED_INVALID"

end OpFusion
