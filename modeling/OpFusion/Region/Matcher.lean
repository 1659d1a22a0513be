import OpFusion.Region.OuterProduct
import OpFusion.Region.RowAgg

/-!
# Matching regions

A matcher is a template together with its settings. It answers the four questions that delineate a
region: where one may open, which hops extend it, which hops join two of them, and where it ends.
-/

namespace OpFusion

/-- A template with its settings. -/
structure Matcher where
  template : Template
  /-- Regions neither grow nor join. -/
  closed : Bool
  config : Config

namespace Matcher

/-- A region may start at the hop. -/
def opens (m : Matcher) (g : Graph) (id : HopId) : Bool :=
  match m.template with
  | .outerProduct => OuterProduct.opens g m.config id
  | .rowAgg => RowAgg.opens g id

/-- The hop extends the region of its input. Which input it is does not matter. -/
def fuses (m : Matcher) (g : Graph) (id : HopId) : Bool :=
  !m.closed && match m.template with
    | .outerProduct => OuterProduct.fuses g id
    | .rowAgg => RowAgg.fuses g id

/-- The hop joins the region of `input` into one that it already extends. -/
def merges (m : Matcher) (g : Graph) (id input : HopId) : Bool :=
  !m.closed && match m.template with
    | .outerProduct => OuterProduct.merges g id
    | .rowAgg => RowAgg.merges g id input

/-- What becomes of a region at the hop. -/
def closing (m : Matcher) (g : Graph) (id : HopId) : Closing :=
  match m.template with
  | .outerProduct => OuterProduct.closing g id
  | .rowAgg => RowAgg.closing g id

end Matcher

end OpFusion
