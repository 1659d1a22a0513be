import OpFusion.DataType
import OpFusion.Literal

/-!
# Operators

The operator families of a graph and `Operator`, which says what one operator is. Every kind but a
parameterised builtin fixes its number of inputs.
-/

namespace OpFusion

/-- Elementwise operators of one operand. -/
inductive UnaryOp where
  | exp | log | abs | sqrt | round | floor | ceil | sin | cos | tan | sign | sigmoid
  /-- The positive part, `max(x, 0)`. -/
  | selP
  | not | cast | print | inverse
deriving DecidableEq

instance : Named UnaryOp where
  all := [.exp, .log, .abs, .sqrt, .round, .floor, .ceil, .sin, .cos, .tan, .sign, .sigmoid, .selP,
    .not, .cast, .print, .inverse]
  name
    | .exp => "EXP" | .log => "LOG" | .abs => "ABS" | .sqrt => "SQRT" | .round => "ROUND"
    | .floor => "FLOOR" | .ceil => "CEIL" | .sin => "SIN" | .cos => "COS" | .tan => "TAN"
    | .sign => "SIGN" | .sigmoid => "SIGMOID" | .selP => "SEL_P" | .not => "NOT" | .cast => "CAST"
    | .print => "PRINT" | .inverse => "INVERSE"

/-- Operators of two operands. -/
inductive BinaryOp where
  | plus | minus | mult | div | modulus | intDiv | less | lessEqual | greater | greaterEqual
  | equal | notEqual | min | max | and | or | pow
  /-- The solution of a linear system, which is not elementwise. -/
  | solve
deriving DecidableEq

instance : Named BinaryOp where
  all := [.plus, .minus, .mult, .div, .modulus, .intDiv, .less, .lessEqual, .greater, .greaterEqual,
    .equal, .notEqual, .min, .max, .and, .or, .pow, .solve]
  name
    | .plus => "PLUS" | .minus => "MINUS" | .mult => "MULT" | .div => "DIV"
    | .modulus => "MODULUS" | .intDiv => "INT_DIV" | .less => "LESS" | .lessEqual => "LESS_EQUAL"
    | .greater => "GREATER" | .greaterEqual => "GREATER_EQUAL" | .equal => "EQUAL"
    | .notEqual => "NOT_EQUAL" | .min => "MIN" | .max => "MAX" | .and => "AND" | .or => "OR"
    | .pow => "POW" | .solve => "SOLVE"

/-- Operators of three operands. -/
inductive TernaryOp where
  /-- The sum `a + b * c`. -/
  | plusMult
  /-- The difference `a - b * c`. -/
  | minusMult
  | ctable | quantile
deriving DecidableEq

instance : Named TernaryOp where
  all := [.plusMult, .minusMult, .ctable, .quantile]
  name
    | .plusMult => "PLUS_MULT" | .minusMult => "MINUS_MULT" | .ctable => "CTABLE"
    | .quantile => "QUANTILE"

/-- The function of an aggregate. -/
inductive AggOp where
  | sum | min | max | mean | prod
deriving DecidableEq

instance : Named AggOp where
  all := [.sum, .min, .max, .mean, .prod]
  name
    | .sum => "SUM" | .min => "MIN" | .max => "MAX" | .mean => "MEAN" | .prod => "PROD"

/-- What an aggregate reduces to one cell: each row, each column, or the whole matrix. -/
inductive Direction where
  | row | col | rowCol
deriving DecidableEq

instance : Named Direction where
  all := [.row, .col, .rowCol]
  name
    | .row => "ROW" | .col => "COL" | .rowCol => "ROW_COL"

/-- Operators that rearrange cells. -/
inductive ReorgOp where
  | transpose | rev | diag
deriving DecidableEq

instance : Named ReorgOp where
  all := [.transpose, .rev, .diag]
  name
    | .transpose => "TRANSPOSE" | .rev => "REV" | .diag => "DIAG"

/-- Builtin functions with named parameters. -/
inductive BuiltinOp where
  | replace | removeEmpty
deriving DecidableEq

instance : Named BuiltinOp where
  all := [.replace, .removeEmpty]
  name
    | .replace => "REPLACE" | .removeEmpty => "REMOVE_EMPTY"

/-- What one operator of a graph is. -/
inductive Operator where
  /-- A read of a named variable. -/
  | data (name : String)
  | literal (value : Literal)
  | unary (op : UnaryOp)
  | binary (op : BinaryOp)
  | ternary (op : TernaryOp)
  | aggUnary (op : AggOp) (direction : Direction)
  /-- The product of two matrices. -/
  | matmul
  | reorg (op : ReorgOp)
  /-- The block `target[rl:ru, cl:cu]`; the inputs are `target`, `rl`, `ru`, `cl` and `cu`. -/
  | indexing
  /-- A builtin; each parameter name comes with the position of its input. -/
  | builtin (op : BuiltinOp) (params : List (String × Nat))
deriving DecidableEq

namespace Operator

/-- The number of inputs of the kind; `none` where it varies. -/
def arity : Operator → Option Nat
  | data _ | literal _ => some 0
  | unary _ | aggUnary _ _ | reorg _ => some 1
  | binary _ | matmul => some 2
  | ternary _ => some 3
  | indexing => some 5
  | builtin _ _ => none

/-- The short text by which diagnostics refer to the kind. -/
def text : Operator → String
  | data name => "DATA(" ++ name ++ ")"
  | literal value => "LIT(" ++ value.render ++ ")"
  | unary op => "u(" ++ Named.name op ++ ")"
  | binary op => "b(" ++ Named.name op ++ ")"
  | ternary op => "t(" ++ Named.name op ++ ")"
  | aggUnary op direction => "ua(" ++ Named.name op ++ ", " ++ Named.name direction ++ ")"
  | matmul => "ba(+*)"
  | reorg op => "r(" ++ Named.name op ++ ")"
  | indexing => "rix"
  | builtin op _ => "p(" ++ Named.name op ++ ")"

/-- The named parameters of the kind with the positions of their inputs. -/
def params : Operator → List (String × Nat)
  | builtin _ params => params
  | _ => []

/-- The input position of a named parameter; of two equal names the first counts. -/
def param? (kind : Operator) (name : String) : Option Nat := kind.params.lookup name

/-- Equality of kinds, with literals compared as values. -/
def sameValue : Operator → Operator → Bool
  | literal a, literal b => a.sameValue b
  | a, b => a = b

end Operator

end OpFusion
