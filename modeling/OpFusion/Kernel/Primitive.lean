import OpFusion.Operator

/-!
# Kernel primitives

The operations of which fused kernels are made. A kernel of the row template works on one row of its
main input at a time, so a binary primitive either combines two cells, or combines a row with a cell
(`rowScalar` into a temporary row, `rowAdd` into the output row), or contracts two rows. An operator
is supported when the primitive of its name exists.
-/

namespace OpFusion

namespace Kernel

/-- Primitives of one operand. -/
inductive UnaryPrim where
  /-- The cell of a column vector at the current row. -/
  | lookupRow
  /-- The cell of a matrix at the current row and column. -/
  | lookupCell
  /-- The first cell of a vector. -/
  | lookupFirst
  /-- The sum of the current row. -/
  | rowSums
  | exp | log | abs | sqrt | round | floor | ceil | sin | cos | tan | sign | sigmoid | selP | not
deriving DecidableEq

instance : Named UnaryPrim where
  all := [.lookupRow, .lookupCell, .lookupFirst, .rowSums, .exp, .log, .abs, .sqrt, .round, .floor,
    .ceil, .sin, .cos, .tan, .sign, .sigmoid, .selP, .not]
  name
    | .lookupRow => "LOOKUP_R" | .lookupCell => "LOOKUP_RC" | .lookupFirst => "LOOKUP0"
    | .rowSums => "ROW_SUMS" | .exp => "EXP" | .log => "LOG" | .abs => "ABS" | .sqrt => "SQRT"
    | .round => "ROUND" | .floor => "FLOOR" | .ceil => "CEIL" | .sin => "SIN" | .cos => "COS"
    | .tan => "TAN" | .sign => "SIGN" | .sigmoid => "SIGMOID" | .selP => "SEL_P" | .not => "NOT"

namespace UnaryPrim

/-- Reads one cell of its operand. -/
def readsCell : UnaryPrim → Bool
  | lookupRow | lookupCell | lookupFirst => true
  | _ => false

/-- Gives a scalar whatever its operand is. -/
def isScalarValued (p : UnaryPrim) : Bool := p.readsCell || p = .rowSums

end UnaryPrim

/-- The operations that combine a row with a cell. -/
inductive RowOp where
  | mult | div | equal | notEqual | less | lessEqual | greater | greaterEqual
deriving DecidableEq

instance : Named RowOp where
  all := [.mult, .div, .equal, .notEqual, .less, .lessEqual, .greater, .greaterEqual]
  name
    | .mult => "MULT" | .div => "DIV" | .equal => "EQUAL" | .notEqual => "NOT_EQUAL"
    | .less => "LESS" | .lessEqual => "LESS_EQUAL" | .greater => "GREATER"
    | .greaterEqual => "GREATER_EQUAL"

/-- The operations that combine two cells. -/
inductive CellOp where
  | mult | div | plus | minus | modulus | intDiv | less | lessEqual | greater | greaterEqual
  | equal | notEqual | min | max | and | or | pow
deriving DecidableEq

instance : Named CellOp where
  all := [.mult, .div, .plus, .minus, .modulus, .intDiv, .less, .lessEqual, .greater, .greaterEqual,
    .equal, .notEqual, .min, .max, .and, .or, .pow]
  name
    | .mult => "MULT" | .div => "DIV" | .plus => "PLUS" | .minus => "MINUS"
    | .modulus => "MODULUS" | .intDiv => "INT_DIV" | .less => "LESS" | .lessEqual => "LESS_EQUAL"
    | .greater => "GREATER" | .greaterEqual => "GREATER_EQUAL" | .equal => "EQUAL"
    | .notEqual => "NOT_EQUAL" | .min => "MIN" | .max => "MAX" | .and => "AND" | .or => "OR"
    | .pow => "POW"

/-- Primitives of two operands. -/
inductive BinaryPrim where
  /-- The sum of the products of two rows. -/
  | dotProduct
  /-- A row combined with a cell and added to the output row. -/
  | rowAdd (op : RowOp)
  /-- A row combined with a cell into a temporary row. -/
  | rowScalar (op : RowOp)
  /-- A cell combined with a cell. -/
  | cell (op : CellOp)
deriving DecidableEq

instance : Named BinaryPrim where
  all := [.dotProduct] ++ Named.all.map .rowAdd ++ Named.all.map .rowScalar ++ Named.all.map .cell
  name
    | .dotProduct => "DOT_PRODUCT"
    | .rowAdd op => "VECT_" ++ Named.name op ++ "_ADD"
    | .rowScalar op => "VECT_" ++ Named.name op ++ "_SCALAR"
    | .cell op => Named.name op

namespace BinaryPrim

/-- Needs a temporary row. -/
def isRowScalar : BinaryPrim → Bool
  | rowScalar _ => true
  | _ => false

/-- Adds to the output row. -/
def isRowAdd : BinaryPrim → Bool
  | rowAdd _ => true
  | _ => false

/-- Gives a row. -/
def isRow (p : BinaryPrim) : Bool := p.isRowScalar || p.isRowAdd

/-- The primitive that adds to the output row what this one would put into a temporary row. -/
def accumulating? : BinaryPrim → Option BinaryPrim
  | rowScalar op => some (rowAdd op)
  | _ => none

end BinaryPrim

/-- Primitives of three operands. -/
inductive TernaryPrim where
  /-- The sum `a + b * c`. -/
  | plusMult
  /-- The difference `a - b * c`. -/
  | minusMult
  | replace
  /-- Replaces the cells that are not numbers. -/
  | replaceNaN
  /-- The cell of a row, given its length, at a column. -/
  | lookupColumn
deriving DecidableEq

instance : Named TernaryPrim where
  all := [.plusMult, .minusMult, .replace, .replaceNaN, .lookupColumn]
  name
    | .plusMult => "PLUS_MULT" | .minusMult => "MINUS_MULT" | .replace => "REPLACE"
    | .replaceNaN => "REPLACE_NAN" | .lookupColumn => "LOOKUP_RC1"

end Kernel

open Kernel

/-- The primitive of the same name. -/
def UnaryOp.primitive? : UnaryOp → Option UnaryPrim
  | exp => some .exp | log => some .log | abs => some .abs | sqrt => some .sqrt
  | round => some .round | floor => some .floor | ceil => some .ceil | sin => some .sin
  | cos => some .cos | tan => some .tan | sign => some .sign | sigmoid => some .sigmoid
  | selP => some .selP | not => some .not
  | cast | print | inverse => none

/-- The operation of the same name on two cells. -/
def BinaryOp.cellOp? : BinaryOp → Option CellOp
  | plus => some .plus | minus => some .minus | mult => some .mult | div => some .div
  | modulus => some .modulus | intDiv => some .intDiv | less => some .less
  | lessEqual => some .lessEqual | greater => some .greater | greaterEqual => some .greaterEqual
  | equal => some .equal | notEqual => some .notEqual | min => some .min | max => some .max
  | and => some .and | or => some .or | pow => some .pow
  | solve => none

/-- The operation of the same name on a row and a cell. -/
def BinaryOp.rowOp? : BinaryOp → Option RowOp
  | mult => some .mult | div => some .div | equal => some .equal | notEqual => some .notEqual
  | less => some .less | lessEqual => some .lessEqual | greater => some .greater
  | greaterEqual => some .greaterEqual
  | _ => none

/-- The primitive of the same name. -/
def TernaryOp.primitive? : TernaryOp → Option TernaryPrim
  | plusMult => some .plusMult
  | minusMult => some .minusMult
  | ctable | quantile => none

namespace Operator

/-- A unary or binary operator with a primitive of its own. -/
def isSupported : Operator → Bool
  | unary op => op.primitive?.isSome
  | binary op => op.cellOp?.isSome
  | _ => false

/-- An operator that a kernel can evaluate cell by cell. -/
def isCellwise : Operator → Bool
  | ternary op => op = .plusMult || op = .minusMult
  | builtin op _ => op = .replace
  | kind => kind.isSupported

end Operator

end OpFusion
