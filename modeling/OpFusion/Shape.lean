/-!
# Shapes

A value has a row extent and a column extent, and each may be unknown before the program runs.
Scalars have the shape `0x0`, so no predicate on vectors or matrices ever holds of one.
`Shape.broadcast` is the rule by which elementwise operations stretch an extent of one.
-/

namespace OpFusion

/-- The number of cells along one axis; `none` where it is unknown. -/
abbrev Extent := Option UInt64

namespace Extent

/-- Known to be larger than `limit`. -/
def exceeds (e : Extent) (limit : UInt64) : Bool := e.any (limit < ·)

/-- An extent known to be one takes the extent it is combined with; any other stays. -/
def broadcast (a b : Extent) : Extent := if a = some 1 then b else a

/-- The written form: the number, or a question mark. -/
def text : Extent → String
  | none => "?"
  | some n => toString n.toNat

end Extent

/-- The extents of a two-dimensional value. -/
structure Shape where
  rows : Extent
  cols : Extent
deriving DecidableEq

namespace Shape

/-- The shape of every scalar. -/
def scalar : Shape := ⟨some 0, some 0⟩

def unknown : Shape := ⟨none, none⟩

def isKnown (s : Shape) : Bool := s.rows.isSome && s.cols.isSome

/-- The number of cells when both extents are known, capped at the largest 64-bit number. -/
def cells (s : Shape) : Option UInt64 := do
  let rows ← s.rows
  let cols ← s.cols
  return UInt64.ofNat (min (rows.toNat * cols.toNat) (UInt64.size - 1))

/-- More than one row and more than one column. -/
def isGenuineMatrix (s : Shape) : Bool := s.rows.exceeds 1 && s.cols.exceeds 1

/-- A single column, of a row count that is not known to be zero or one. -/
def isColVector (s : Shape) : Bool := s.cols == some 1 && s.rows != some 1 && s.rows != some 0

/-- A single row, of a column count that is not known to be zero or one. -/
def isRowVector (s : Shape) : Bool := s.rows == some 1 && s.cols != some 1 && s.cols != some 0

/-- Known to be one column of several cells or one row of several cells. -/
def isVector (s : Shape) : Bool :=
  (s.rows.exceeds 1 && s.cols == some 1) || (s.rows == some 1 && s.cols.exceeds 1)

def transposed (s : Shape) : Shape := ⟨s.cols, s.rows⟩

/-- The shape of an elementwise operation, axis by axis. -/
def broadcast (a b : Shape) : Shape := ⟨a.rows.broadcast b.rows, a.cols.broadcast b.cols⟩

/-- The written form, rows first: `100x20`, `?x1`. -/
def text (s : Shape) : String := s.rows.text ++ "x" ++ s.cols.text

end Shape

end OpFusion
