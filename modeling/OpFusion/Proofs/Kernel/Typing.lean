import OpFusion.Proofs.Kernel.Contents

/-!
# Types of nodes

A kernel of the row template computes with rows, which are matrices, and with cells, which are
scalars. Each binary primitive takes one or the other at either position (`NodeTable.fits`). Which
type a new node has follows from those of its operands.
-/

namespace OpFusion.Kernel

namespace Node

variable {n : Node}

theorem isMatrix_eq : n.isMatrix = !n.isScalar := by
  unfold isMatrix isScalar
  cases n.dataType <;> rfl

@[simp] theorem isScalar_fitted {h : Hop} : (n.fitted h).isScalar = n.isScalar := by
  unfold fitted reshaped
  split
  · split <;> rfl
  · rfl

@[simp] theorem isData_fitted {h : Hop} : (n.fitted h).isData = n.isData := by
  unfold isData
  rw [fitted_op]

/-- A matrix that stands for a matrix has its extents. -/
theorem shape_fitted {h : Hop} (hmatrix : h.isMatrix = true) (hn : n.isMatrix = true) :
    (n.fitted h).shape = h.shape := by
  rw [fitted, if_pos hmatrix, reshaped, if_pos hn]

end Node

namespace NodeTable

variable {t : NodeTable} {id a b c x y : NodeId} {n : Node} {f : Fragment}

/-- The operands of a binary primitive have the types that it takes. -/
def fits (t : NodeTable) (prim : BinaryPrim) (a b : NodeId) : Bool :=
  match prim with
  | .dotProduct => t.check (·.isMatrix) a && t.check (·.isMatrix) b
  | .rowAdd _ | .rowScalar _ => t.check (·.isMatrix) a && t.check (·.isScalar) b
  | .cell _ => t.check (·.isScalar) a && t.check (·.isScalar) b

/-- The operation applies a binary primitive to an operand of another type than it takes. -/
def misfits (t : NodeTable) : NodeOp → Bool
  | .binary prim a b => !t.fits prim a b
  | _ => false

theorem check_of_node? {property : Node → Bool} (hn : t.node? id = some n) :
    t.check property id = property n := by
  simp [check, hn]

theorem check_isMatrix (hid : id < t.size) :
    t.check (·.isMatrix) id = !t.check (·.isScalar) id := by
  obtain ⟨n, hn⟩ := exists_node? hid
  rw [check_of_node? hn, check_of_node? hn, Node.isMatrix_eq]

/-! ## New nodes -/

theorem isScalar_unary {prim : UnaryPrim} (ha : a < t.size) :
    (t.unary prim a).isScalar = (prim.isScalarValued || t.check (·.isScalar) a) := by
  obtain ⟨n, hn⟩ := exists_node? ha
  rw [unary, check_of_node? hn]
  simp only [hn]
  split
  · simp [*, Node.isScalar]
  · simp [*, Node.isScalar]

/-- A cellwise operation gives a scalar if all of its operands are. -/
theorem isScalar_cellwise {op : NodeOp} (hop : ∀ a ∈ op.operands, a < t.size) :
    (t.cellwise op).isScalar = op.operands.all (t.check (·.isScalar)) := by
  unfold cellwise
  split
  · rename_i shape hshape
    obtain ⟨a, ha, hfound⟩ := List.exists_of_findSome?_eq_some hshape
    obtain ⟨n, hfilter, _⟩ := Option.map_eq_some_iff.1 hfound
    obtain ⟨hn, hmatrix⟩ := Option.filter_eq_some_iff.1 hfilter
    rw [Node.isMatrix_eq] at hmatrix
    refine Eq.symm (List.all_eq_false.2 ⟨a, ha, ?_⟩)
    rw [check_of_node? hn]
    simpa using hmatrix
  · rename_i hnone
    refine Eq.symm (List.all_eq_true.2 fun a ha => ?_)
    obtain ⟨n, hn⟩ := exists_node? (hop a ha)
    have hmatrix := List.findSome?_eq_none_iff.1 hnone a ha
    rw [hn] at hmatrix
    rw [check_of_node? hn]
    simpa [Option.filter_some, Node.isMatrix_eq] using hmatrix

theorem isScalar_cell {op : CellOp} (ha : a < t.size) (hb : b < t.size) :
    (t.binary (.cell op) a b).isScalar = (t.check (·.isScalar) a && t.check (·.isScalar) b) := by
  have hop : ∀ x ∈ (NodeOp.binary (.cell op) a b).operands, x < t.size := by
    simp [NodeOp.operands, ha, hb]
  rw [binary, isScalar_cellwise hop]
  simp [NodeOp.operands]

theorem isScalar_ternary {prim : TernaryPrim} (hprim : prim ≠ .lookupColumn) (ha : a < t.size)
    (hb : b < t.size) (hc : c < t.size) :
    (t.ternary prim a b c).isScalar =
      (t.check (·.isScalar) a && (t.check (·.isScalar) b && t.check (·.isScalar) c)) := by
  have hop : ∀ x ∈ (NodeOp.ternary prim a b c).operands, x < t.size := by
    simp [NodeOp.operands, ha, hb, hc]
  rw [ternary, if_neg hprim, isScalar_cellwise hop]
  simp [NodeOp.operands]

/-! ## Misfits -/

/-- Below the top of a binary fragment lie a misfit of its own and those below its parts. -/
theorem Computes.has_misfits_binary {prim : BinaryPrim} {f f' : Fragment}
    (computes : t.Computes (.binary prim f f') id) :
    ∃ x y, t.Computes f x ∧ t.Computes f' y ∧
      (t.Has t.misfits id ↔ t.fits prim x y = false ∨ t.Has t.misfits x ∨ t.Has t.misfits y) := by
  obtain ⟨x, y, hx, hy, hn⟩ := computes
  refine ⟨x, y, hx, hy, ?_⟩
  rw [NodeTable.has_iff hn, binary_op]
  simp [NodeOp.operands, misfits]

end NodeTable

end OpFusion.Kernel
