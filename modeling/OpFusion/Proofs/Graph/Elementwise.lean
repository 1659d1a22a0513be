import OpFusion.Proofs.Graph.Requests

/-!
# Shapes of elementwise operations

Broadcasting looks for an extent that is not known to be one. It is associative and has the single
cell as its unit (`Shape.broadcast_assoc`, `Shape.cell_broadcast`), though it is not commutative: of
two extents that differ the left one stays. So the result of an elementwise operation is read off
the matrices among its operands (`elementwiseResult_eq`), on each axis the first of them that is not
known to be of extent one decides (`leads_broadcastAll`), operands may be grouped at will
(`elementwiseResult_group`), and they may be reordered exactly if those that could decide agree
(`agree_iff`).
-/

namespace OpFusion

/-- The two directions in which a shape extends. -/
inductive Axis where
  | rows
  | cols

namespace Shape

/-- The extent along an axis. -/
def extent (s : Shape) : Axis → Extent
  | .rows => s.rows
  | .cols => s.cols

/-- The shape of one cell, which stretches to any other. -/
def cell : Shape := ⟨some 1, some 1⟩

/-- The shape to which several shapes broadcast. -/
def broadcastAll (shapes : List Shape) : Shape := shapes.foldl broadcast cell

variable {a b c : Shape} {axis : Axis}

theorem ext_extent (h : ∀ axis, a.extent axis = b.extent axis) : a = b := by
  have rows : a.rows = b.rows := h .rows
  have cols : a.cols = b.cols := h .cols
  cases a
  cases b
  exact congrArg₂ _ rows cols

@[simp] theorem extent_cell : cell.extent axis = some 1 := by
  cases axis <;> rfl

theorem extent_broadcast :
    (a.broadcast b).extent axis =
      if a.extent axis = some 1 then b.extent axis else a.extent axis := by
  cases axis <;> rfl

@[simp] theorem cell_broadcast : cell.broadcast a = a := rfl

@[simp] theorem broadcast_cell : a.broadcast cell = a := by
  refine ext_extent fun axis => ?_
  rw [extent_broadcast, extent_cell]
  split
  · exact Eq.symm ‹_›
  · rfl

theorem broadcast_assoc : (a.broadcast b).broadcast c = a.broadcast (b.broadcast c) := by
  refine ext_extent fun axis => ?_
  simp only [extent_broadcast]
  by_cases ha : a.extent axis = some 1
  · simp only [ha, if_true]
  · simp only [ha, if_false]

instance : Std.Associative broadcast := ⟨fun _ _ _ => broadcast_assoc⟩

@[simp] theorem broadcastAll_cons {shapes : List Shape} :
    broadcastAll (a :: shapes) = a.broadcast (broadcastAll shapes) :=
  calc
    broadcastAll (a :: shapes) = shapes.foldl broadcast a := by
      rw [broadcastAll, List.foldl_cons, cell_broadcast]
    _ = shapes.foldl broadcast (a.broadcast cell) := by rw [broadcast_cell]
    _ = a.broadcast (broadcastAll shapes) := List.foldl_assoc

theorem broadcastAll_append {shapes shapes' : List Shape} :
    broadcastAll (shapes ++ shapes') = (broadcastAll shapes).broadcast (broadcastAll shapes') := by
  induction shapes with
  | nil => rfl
  | cons s rest ih => rw [List.cons_append, broadcastAll_cons, ih, broadcastAll_cons, broadcast_assoc]

end Shape

variable {operands others before block after : List Hop} {h m : Hop} {axis : Axis} {e e' : Extent}

/-- The shapes of the matrices among some operands. -/
def matrixShapes (operands : List Hop) : List Shape := (operands.filter (·.isMatrix)).map (·.shape)

theorem matrixShapes_append : matrixShapes (before ++ after) = matrixShapes before ++ matrixShapes after := by
  simp [matrixShapes]

theorem matrixShapes_cons :
    matrixShapes (h :: operands) =
      if h.isMatrix then h.shape :: matrixShapes operands else matrixShapes operands := by
  unfold matrixShapes
  rw [List.filter_cons]
  split <;> rfl

theorem matrixShapes_eq_nil_iff : matrixShapes operands = [] ↔ ¬ ∃ h ∈ operands, h.isMatrix = true := by
  simp [matrixShapes]

/-- The result of an elementwise operation is read off the matrices among the operands. -/
theorem elementwiseResult_eq :
    elementwiseResult operands =
      if matrixShapes operands = [] then (.scalar, .scalar)
      else (.matrix, .broadcastAll (matrixShapes operands)) := by
  unfold elementwiseResult matrixShapes
  cases operands.filter (·.isMatrix) with
  | nil => rfl
  | cons first rest =>
    rw [List.map_cons, if_neg (List.cons_ne_nil _ _), Shape.broadcastAll, List.foldl_cons,
      Shape.cell_broadcast, List.foldl_map]

theorem elementwiseResult_of_exists (hmatrix : ∃ h ∈ operands, h.isMatrix = true) :
    elementwiseResult operands = (.matrix, .broadcastAll (matrixShapes operands)) := by
  rw [elementwiseResult_eq, if_neg fun hnil => matrixShapes_eq_nil_iff.1 hnil hmatrix]

theorem elementwiseResult_of_not_exists (hscalars : ¬ ∃ h ∈ operands, h.isMatrix = true) :
    elementwiseResult operands = (.scalar, .scalar) := by
  rw [elementwiseResult_eq, if_pos (matrixShapes_eq_nil_iff.2 hscalars)]

/-- Matrices result in a matrix of the shape to which they broadcast from left to right. -/
theorem elementwiseResult_of_forall (hmatrices : ∀ a ∈ h :: operands, a.isMatrix = true) :
    elementwiseResult (h :: operands) =
      (.matrix, operands.foldl (fun shape a => shape.broadcast a.shape) h.shape) := by
  rw [elementwiseResult, List.filter_eq_self.2 hmatrices]

theorem dataType_elementwiseResult_iff :
    (elementwiseResult operands).1 = .matrix ↔ ∃ h ∈ operands, h.isMatrix = true := by
  by_cases hmatrix : ∃ h ∈ operands, h.isMatrix = true
  · rw [elementwiseResult_of_exists hmatrix]
    exact iff_of_true rfl hmatrix
  · rw [elementwiseResult_of_not_exists hmatrix]
    exact iff_of_false DataType.noConfusion hmatrix

/-! ## Which operand decides -/

/-- The operand is a matrix that is not known to be of extent one along the axis. -/
def Hop.Extends (h : Hop) (axis : Axis) : Prop := h.isMatrix = true ∧ h.shape.extent axis ≠ some 1

/-- The extent is that of the first operand that extends along the axis, and one if none does. -/
inductive Leads (axis : Axis) (operands : List Hop) : Extent → Prop
  | first {h : Hop} : IsFirst (·.Extends axis) operands h → Leads axis operands (h.shape.extent axis)
  | one : (∀ h ∈ operands, ¬ h.Extends axis) → Leads axis operands (some 1)

theorem leads_cons (hh : h.Extends axis) : Leads axis (h :: operands) (h.shape.extent axis) :=
  .first ⟨[], operands, rfl, fun _ hmem => absurd hmem List.not_mem_nil, hh⟩

theorem Leads.cons (leads : Leads axis operands e) (hh : ¬ h.Extends axis) :
    Leads axis (h :: operands) e := by
  cases leads with
  | first hfirst => exact .first (isFirst_cons_iff.2 (.inr ⟨hh, hfirst⟩))
  | one hnone => exact .one (List.forall_mem_cons.2 ⟨hh, hnone⟩)

/-- On each axis the first matrix that extends decides to what the matrices broadcast. -/
theorem leads_broadcastAll (axis : Axis) (operands : List Hop) :
    Leads axis operands ((Shape.broadcastAll (matrixShapes operands)).extent axis) := by
  induction operands with
  | nil =>
    rw [matrixShapes, List.filter_nil, List.map_nil, Shape.broadcastAll, List.foldl_nil,
      Shape.extent_cell]
    exact .one fun h hmem => absurd hmem List.not_mem_nil
  | cons h rest ih =>
    rw [matrixShapes_cons]
    by_cases hmatrix : h.isMatrix = true
    · rw [if_pos hmatrix, Shape.broadcastAll_cons, Shape.extent_broadcast]
      by_cases hone : h.shape.extent axis = some 1
      · rw [if_pos hone]
        exact ih.cons fun hh => hh.2 hone
      · rw [if_neg hone]
        exact leads_cons ⟨hmatrix, hone⟩
    · rw [if_neg hmatrix]
      exact ih.cons fun hh => hmatrix hh.1

/-- A first operand that extends decides. -/
theorem Leads.eq_of_cons (leads : Leads axis (h :: operands) e) (hh : h.Extends axis) :
    e = h.shape.extent axis := by
  cases leads with
  | first hfirst =>
    rcases isFirst_cons_iff.1 hfirst with ⟨_, rfl⟩ | ⟨hnot, _⟩
    · rfl
    · exact absurd hh hnot
  | one hnone => exact absurd hh (hnone h List.mem_cons_self)

/-! ## Grouping -/

/-- Operands may be replaced by one operand of the type and shape that they result in. -/
theorem elementwiseResult_group (hm : (m.dataType, m.shape) = elementwiseResult block) :
    elementwiseResult (before ++ m :: after) = elementwiseResult (before ++ (block ++ after)) := by
  rw [elementwiseResult_eq, elementwiseResult_eq]
  simp only [matrixShapes_append, matrixShapes_cons]
  by_cases hmatrix : ∃ h ∈ block, h.isMatrix = true
  · rw [elementwiseResult_of_exists hmatrix] at hm
    obtain ⟨htype, hshape⟩ := Prod.mk.inj hm
    have hm : m.isMatrix = true := decide_eq_true htype
    have hblock : matrixShapes block ≠ [] := fun hnil => matrixShapes_eq_nil_iff.1 hnil hmatrix
    rw [if_pos hm, if_neg (by simp), if_neg (by simp [hblock]), Shape.broadcastAll_append,
      Shape.broadcastAll_append, Shape.broadcastAll_append, Shape.broadcastAll_cons, hshape]
  · rw [elementwiseResult_of_not_exists hmatrix] at hm
    obtain ⟨htype, _⟩ := Prod.mk.inj hm
    have hm : ¬ m.isMatrix = true := by simp [Hop.isMatrix, htype]
    rw [if_neg hm, matrixShapes_eq_nil_iff.2 hmatrix, List.nil_append]

/-! ## Order -/

/-- On each axis all operands that extend have the same extent, be it known or not. -/
def Agree (operands : List Hop) : Prop :=
  ∀ axis, ∀ a ∈ operands, ∀ b ∈ operands, a.Extends axis → b.Extends axis →
    a.shape.extent axis = b.shape.extent axis

/-- Where all that could decide agree, it makes no difference which of them comes first. -/
theorem Leads.eq_of_perm (leads : Leads axis operands e) (leads' : Leads axis others e')
    (perm : operands.Perm others) (agree : Agree operands) : e = e' := by
  cases leads with
  | @first h hfirst =>
    cases leads' with
    | @first h' hfirst' =>
      have hmem : h' ∈ operands := perm.mem_iff.2 hfirst'.mem
      exact agree axis h hfirst.mem h' hmem hfirst.holds hfirst'.holds
    | one hnone => exact absurd hfirst.holds (hnone h (perm.mem_iff.1 hfirst.mem))
  | one hnone =>
    cases leads' with
    | @first h' hfirst' => exact absurd hfirst'.holds (hnone h' (perm.mem_iff.2 hfirst'.mem))
    | one => rfl

/-- Where reordering makes no difference, every operand that extends has the extent of the result,
since it may come first. -/
theorem extent_of_reorders
    (reorders : ∀ others, operands.Perm others →
      elementwiseResult others = elementwiseResult operands)
    (hmem : h ∈ operands) (hh : h.Extends axis) :
    (Shape.broadcastAll (matrixShapes operands)).extent axis = h.shape.extent axis := by
  obtain ⟨before, after, hsplit⟩ := List.append_of_mem hmem
  have perm : operands.Perm (h :: (before ++ after)) := hsplit ▸ List.perm_middle
  have hsame := reorders _ perm
  rw [elementwiseResult_of_exists ⟨h, hmem, hh.1⟩,
    elementwiseResult_of_exists ⟨h, List.mem_cons_self, hh.1⟩] at hsame
  rw [← (Prod.mk.inj hsame).2]
  exact (leads_broadcastAll axis _).eq_of_cons hh

/-- Operands may be reordered exactly if they agree. -/
theorem agree_iff :
    Agree operands ↔ ∀ others, operands.Perm others →
      elementwiseResult others = elementwiseResult operands := by
  constructor
  · intro agree others perm
    by_cases hmatrix : ∃ h ∈ operands, h.isMatrix = true
    · have hmatrix' : ∃ h ∈ others, h.isMatrix = true := by
        obtain ⟨h, hmem, hh⟩ := hmatrix
        exact ⟨h, perm.mem_iff.1 hmem, hh⟩
      rw [elementwiseResult_of_exists hmatrix, elementwiseResult_of_exists hmatrix']
      refine Prod.ext rfl (Shape.ext_extent fun axis => ?_)
      exact ((leads_broadcastAll axis operands).eq_of_perm (leads_broadcastAll axis others) perm
        agree).symm
    · have hscalars : ¬ ∃ h ∈ others, h.isMatrix = true := by
        rintro ⟨h, hmem, hh⟩
        exact hmatrix ⟨h, perm.mem_iff.2 hmem, hh⟩
      rw [elementwiseResult_of_not_exists hmatrix, elementwiseResult_of_not_exists hscalars]
  · intro reorders axis a ha b hb hextends hextends'
    rw [← extent_of_reorders reorders ha hextends, extent_of_reorders reorders hb hextends']

/-- The result of an elementwise operation is a matrix if an operand is. Then on each axis it has
the extent of the first matrix that is not known to be of extent one. It does not change when
operands are replaced by one of the type and shape that they result in, which is that to which they
broadcast from left to right if they are matrices. It does not depend on the order of the operands
if, and only if, those that could decide agree. -/
theorem elementwiseResult_laws (operands : List Hop) :
    ((elementwiseResult operands).1 = .matrix ↔ ∃ h ∈ operands, h.isMatrix = true) ∧
      ((∃ h ∈ operands, h.isMatrix = true) →
        ∀ axis, Leads axis operands ((elementwiseResult operands).2.extent axis)) ∧
      (∀ before block after m, operands = before ++ (block ++ after) →
        (m.dataType, m.shape) = elementwiseResult block →
        elementwiseResult (before ++ m :: after) = elementwiseResult operands) ∧
      (∀ before first rest after m, operands = before ++ (first :: rest ++ after) →
        (∀ h ∈ first :: rest, h.isMatrix = true) → m.isMatrix = true →
        m.shape = rest.foldl (fun shape h => shape.broadcast h.shape) first.shape →
        elementwiseResult (before ++ m :: after) = elementwiseResult operands) ∧
      (Agree operands ↔ ∀ others, operands.Perm others →
        elementwiseResult others = elementwiseResult operands) := by
  refine ⟨dataType_elementwiseResult_iff, fun hmatrix axis => ?_, ?_, ?_, agree_iff⟩
  · rw [elementwiseResult_of_exists hmatrix]
    exact leads_broadcastAll axis operands
  · rintro before block after m rfl hm
    exact elementwiseResult_group hm
  · rintro before first rest after m rfl hmatrices hm hshape
    refine elementwiseResult_group ?_
    rw [elementwiseResult_of_forall hmatrices, of_decide_eq_true hm, hshape]

/-- Of two columns, one of which has an unknown number of rows, the first decides how many rows the
result has. -/
example :
    let unknown : Hop := ⟨0, .data "x", .matrix, .fp64, ⟨none, some 1⟩, [], []⟩
    let known : Hop := ⟨1, .data "y", .matrix, .fp64, ⟨some 100, some 1⟩, [], []⟩
    elementwiseResult [unknown, known] = (.matrix, ⟨none, some 1⟩) ∧
      elementwiseResult [known, unknown] = (.matrix, ⟨some 100, some 1⟩) := by
  decide

end OpFusion
