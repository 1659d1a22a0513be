import OpFusion.Proofs.Dag.Outline
import OpFusion.Proofs.Kernel.Visits

/-!
# The outline of a body

The text of a kernel body has one line for each item of its outline. A node is shown in full once,
under the next number and with what it computes, and wherever else it is read a line refers to that
number (`NodeTable.tree_shows_nodes`).
-/

namespace OpFusion.Kernel.NodeTable

variable {t : NodeTable} {root : NodeId} {item : Dag.Item}

/-- What stands in an outline is in the table. -/
theorem exists_node?_of_mem_outline (desc : Dag.DescendingFrom t.operands root)
    (hroot : root < t.size) (hitem : item ∈ t.outline root) :
    ∃ n, t.node? item.id = some n := by
  have isOutline := (Dag.isOutline_outline desc).1
  have hle : item.id ≤ root := desc.le (Dag.reaches_of_nodeAt? (isOutline.located hitem))
  exact exists_node? (Nat.lt_of_le_of_lt hle hroot)

/-- The label gives the number of the node, and what the node computes where it is shown in full. -/
theorem label_eq {n : Node} (hn : t.node? item.id = some n) :
    t.label item = "#" ++ toString item.number ++
      (if item.isReference then " → (see above)" else " " ++ n.text) := by
  cases href : item.isReference
  · simp [label, href, hn, String.append_assoc]
  · simp [label, href]

/-- Where nodes read earlier nodes, the text of a body shows each node below the root in full exactly
once and numbers them as they come, and every further occurrence is a line of its own that refers to
the number. -/
theorem tree_shows_nodes (desc : Dag.DescendingFrom t.operands root) (hroot : root < t.size) :
    Dag.IsOutline t.operands root (t.outline root) ∧ Dag.IsNumbered (t.outline root) ∧
      t.tree root = Dag.renderOutline t.label (t.outline root) ∧
      ∀ item ∈ t.outline root, ∃ n, t.node? item.id = some n ∧
        t.label item = "#" ++ toString item.number ++
          (if item.isReference then " → (see above)" else " " ++ n.text) := by
  obtain ⟨isOutline, isNumbered⟩ := Dag.isOutline_outline desc
  refine ⟨isOutline, isNumbered, rfl, fun item hitem => ?_⟩
  obtain ⟨n, hn⟩ := exists_node?_of_mem_outline desc hroot hitem
  exact ⟨n, hn, label_eq hn⟩

/-- A body in which a node is read twice by one node, and another is read at two depths. -/
def sharedSum : NodeTable :=
  ⟨#[⟨.data 0 "X", .matrix, ⟨some 10, some 10⟩⟩, ⟨.unary .exp 0, .matrix, ⟨some 10, some 10⟩⟩,
    ⟨.binary (.cell .plus) 1 1, .matrix, ⟨some 10, some 10⟩⟩,
    ⟨.binary (.cell .mult) 2 0, .matrix, ⟨some 10, some 10⟩⟩]⟩

/-- Four nodes and five reads: one line for the root and five more, of which two are references. -/
theorem tree_shows_nodes_sharedSum :
    Dag.Descending sharedSum.operands ∧ 3 < sharedSum.size ∧
      Dag.IsOutline sharedSum.operands 3 (sharedSum.outline 3) ∧
      Dag.IsNumbered (sharedSum.outline 3) ∧ (sharedSum.outline 3).length = 1 + 5 ∧
      sharedSum.tree 3 = "#0 MULT : Matrix 10x10\n├─ #1 PLUS : Matrix 10x10\n" ++
        "│  ├─ #2 EXP : Matrix 10x10\n│  │  └─ #3 DATA(X@h0) : Matrix 10x10\n" ++
        "│  └─ #2 → (see above)\n└─ #3 → (see above)\n" := by
  have desc : Dag.Descending sharedSum.operands := by decide
  have hroot : 3 < sharedSum.size := by decide
  obtain ⟨isOutline, isNumbered, _, _⟩ := tree_shows_nodes (desc.descendingFrom 3) hroot
  exact ⟨desc, hroot, isOutline, isNumbered, by decide, by decide +kernel⟩

end OpFusion.Kernel.NodeTable
