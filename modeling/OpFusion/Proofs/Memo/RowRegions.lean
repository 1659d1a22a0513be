import OpFusion.Proofs.Graph.Extents
import OpFusion.Proofs.Memo.Chain

/-!
# Hops of row regions

What is known of the operands of a hop of a row region, kind by kind (`RowAgg.Member`). Whatever has
an open row region is a matrix of several rows, with one column or several
(`ExploredBy.spansRows_of_hasOpen`), so a scalar operand is never taken into a region. This needs
replacements to replace scalars by scalars (`Graph.replacesScalars`), since a replacement has the
shape of its target also where another of its inputs is taken in.
-/

namespace OpFusion

/-- A matrix of several rows, with one column or several. -/
def Hop.spansRows (h : Hop) : Bool :=
  h.isMatrix && h.shape.rows.exceeds 1 && (h.shape.cols == some 1 || h.shape.cols.exceeds 1)

theorem Hop.spansRows_iff {h : Hop} :
    h.spansRows = true ↔ h.isMatrix = true ∧ h.shape.rows.exceeds 1 = true ∧
      (h.shape.cols = some 1 ∨ h.shape.cols.exceeds 1 = true) := by
  simp [spansRows, and_assoc]

/-- A matrix that spans rows has one column or is a genuine matrix. -/
theorem Hop.cols_or_isGenuineMatrix {h : Hop} (hspans : h.spansRows = true) :
    h.shape.cols = some 1 ∨ h.isGenuineMatrix = true := by
  obtain ⟨hmatrix, hrows, hcols⟩ := spansRows_iff.1 hspans
  refine hcols.imp_right fun hcols => ?_
  simp [isGenuineMatrix, Shape.isGenuineMatrix, hmatrix, hrows, hcols]

theorem Hop.spansRows_of_isGenuineMatrix {h : Hop} (hgenuine : h.isGenuineMatrix = true) :
    h.spansRows = true := by
  simp only [isGenuineMatrix, Shape.isGenuineMatrix, Bool.and_eq_true] at hgenuine
  exact spansRows_iff.2 ⟨hgenuine.1, hgenuine.2.1, .inr hgenuine.2.2⟩

/-- A column that spans rows is a column vector. -/
theorem Hop.isColVector_of_spansRows {h : Hop} (hspans : h.spansRows = true)
    (hcols : h.shape.cols = some 1) : h.isColVector = true := by
  obtain ⟨hmatrix, hrows, _⟩ := spansRows_iff.1 hspans
  have hone : h.shape.rows ≠ some 1 := by
    intro heq
    rw [heq] at hrows
    simp [Extent.exceeds] at hrows
  have hzero : h.shape.rows ≠ some 0 := by
    intro heq
    rw [heq] at hrows
    simp [Extent.exceeds] at hrows
  simp [isColVector, Shape.isColVector, hmatrix, hcols, hone, hzero]

/-- What spans rows is a column vector exactly if it has one column. -/
theorem Hop.isColVector_iff_of_spansRows {h : Hop} (hspans : h.spansRows = true) :
    h.shape.isColVector = true ↔ h.shape.cols = some 1 := by
  refine ⟨Shape.cols_of_isColVector, fun hcols => ?_⟩
  have hcolumn := isColVector_of_spansRows hspans hcols
  simp only [isColVector, Bool.and_eq_true] at hcolumn
  exact hcolumn.2

theorem Hop.isGenuineMatrix_iff_of_spansRows {h : Hop} (hspans : h.spansRows = true) :
    h.isGenuineMatrix = true ↔ h.shape.cols ≠ some 1 :=
  ⟨cols_ne_one_of_isGenuineMatrix, (cols_or_isGenuineMatrix hspans).resolve_left⟩

theorem Hop.not_isGenuineMatrix_of_isScalar {h : Hop} (hscalar : h.isScalar = true) :
    h.isGenuineMatrix = false := by
  cases hm : h.isMatrix with
  | false => simp [isGenuineMatrix, hm]
  | true =>
    rw [not_isScalar_of_isMatrix hm] at hscalar
    exact Bool.noConfusion hscalar

namespace Graph

variable {g : Graph} {id : HopId} {h x y : Hop}

/-- In a typed graph whatever has the shape of a genuine matrix is one. -/
theorem IsTyped.isGenuineMatrix (typed : g.IsTyped) (hh : g.hop? id = some h)
    (hshape : h.shape.isGenuineMatrix = true) : h.isGenuineMatrix = true := by
  rcases h.isMatrix_or_isScalar with hmatrix | hscalar
  · simp [Hop.isGenuineMatrix, hmatrix, hshape]
  · rw [typed.shape_of_isScalar hh hscalar] at hshape
    simp [Shape.isGenuineMatrix, Shape.scalar, Extent.exceeds] at hshape

/-- In every replacement the target is the only matrix, and a scalar is replaced by a scalar. -/
def replacesScalars (g : Graph) : Bool :=
  g.hops.all fun h =>
    match h.kind with
    | .builtin .replace _ =>
      let isScalar (x : HopId) : Bool := (g.hop? x).any (·.isScalar)
      h.inputs.all (fun x => g.paramInput h.id "target" = .ok x || isScalar x)
        && ["pattern", "replacement"].all fun name =>
          (g.paramInput h.id name).toOption.all isScalar
    | _ => true

/-- What is combined with a genuine matrix from the right does not change its extents. -/
theorem IsTyped.shape_of_genuine_left (typed : g.IsTyped) (hh : g.hop? id = some h) {op : BinaryOp}
    (hkind : h.kind = .binary op) (hx : g.input? id 0 = some x) (hy : g.input? id 1 = some y)
    (hgenuine : x.isGenuineMatrix = true) : h.isMatrix = true ∧ h.shape = x.shape := by
  have hresult := typed.result_of_binary hh hkind hx hy
  obtain ⟨hmatrix, hshape⟩ := Hop.isGenuineMatrix_iff.1 hgenuine
  obtain ⟨hrows, hcols⟩ := Shape.ne_one_of_isGenuineMatrix hshape
  have hbroadcast (s : Shape) : x.shape.broadcast s = x.shape := by
    simp [Shape.broadcast, Extent.broadcast, hrows, hcols]
  have hboth : elementwiseResult [x, y] = (.matrix, x.shape) := by
    cases hmy : y.isMatrix <;> simp [elementwiseResult, hmatrix, hmy, hbroadcast]
  rw [hboth] at hresult
  exact ⟨decide_eq_true (congrArg Prod.fst hresult), congrArg Prod.snd hresult⟩

end Graph

namespace RowAgg

/-- How a hop belongs to a row region. -/
inductive Member (g : Graph) (h : Hop) : Prop
  /-- An aggregate over the rows or the columns of what spans rows. -/
  | aggregate {op : AggOp} {direction : Direction} {x : Hop} (kind : h.kind = .aggUnary op direction)
      (line : direction ≠ .rowCol) (input : g.input? h.id 0 = some x) (spans : x.spansRows = true)
  /-- The product of a genuine matrix and a column. -/
  | product {x y : Hop} (kind : h.kind = .matmul) (left : g.input? h.id 0 = some x)
      (right : g.input? h.id 1 = some y) (straight : x.isTranspose = false)
      (genuine : x.isGenuineMatrix = true) (column : y.shape.cols = some 1)
  /-- A multiply from the left by a transpose. -/
  | transposed {x y : Hop} (kind : h.kind = .matmul) (left : g.input? h.id 0 = some x)
      (right : g.input? h.id 1 = some y) (transpose : x.isTranspose = true)
  | unary {op : UnaryOp} {x : Hop} (kind : h.kind = .unary op) (input : g.input? h.id 0 = some x)
      (spans : x.spansRows = true)
  | matrixColumn {op : BinaryOp} {x y : Hop} (kind : h.kind = .binary op)
      (left : g.input? h.id 0 = some x) (right : g.input? h.id 1 = some y)
      (genuine : x.isGenuineMatrix = true) (column : y.isColVector = true)
  | matrixScalar {op : BinaryOp} {x y : Hop} (kind : h.kind = .binary op)
      (left : g.input? h.id 0 = some x) (right : g.input? h.id 1 = some y)
      (spans : x.spansRows = true) (scalar : y.isScalar = true)
  | scalarMatrix {op : BinaryOp} {x y : Hop} (kind : h.kind = .binary op)
      (left : g.input? h.id 0 = some x) (right : g.input? h.id 1 = some y)
      (scalar : x.isScalar = true) (spans : y.spansRows = true)
  /-- The replacement of scalars by scalars in what spans rows. -/
  | replacement {params : List (String × Nat)} {target : HopId} {x : Hop}
      (kind : h.kind = .builtin .replace params) (param : g.paramInput h.id "target" = .ok target)
      (found : g.hop? target = some x) (spans : x.spansRows = true)

variable {g : Graph} {h : Hop} {i : Nat}

/-- The only matrix that a replacement reads is its target. -/
theorem target_of_isMatrix (scalars : g.replacesScalars = true) (hh : g.hop? h.id = some h)
    {params : List (String × Nat)} (hkind : h.kind = .builtin .replace params) {x : HopId} {hx : Hop}
    (hx' : h.input? i = some x) (hhx : g.hop? x = some hx) (hmatrix : hx.isMatrix = true) :
    g.paramInput h.id "target" = .ok x := by
  have hall := List.all_eq_true.1 scalars h (List.mem_of_getElem? hh)
  simp only [hkind, Bool.and_eq_true] at hall
  have hinput := List.all_eq_true.1 hall.1 x (List.mem_of_getElem? hx')
  rw [hhx, Option.any_some, Hop.not_isScalar_of_isMatrix hmatrix] at hinput
  simpa using hinput

/-- A replacement finds and puts in scalars. -/
theorem isScalar_of_paramInput (scalars : g.replacesScalars = true) (hh : g.hop? h.id = some h)
    {params : List (String × Nat)} (hkind : h.kind = .builtin .replace params) {name : String}
    (hname : name = "pattern" ∨ name = "replacement") {x : HopId} {hx : Hop}
    (hparam : g.paramInput h.id name = .ok x) (hhx : g.hop? x = some hx) : hx.isScalar = true := by
  have hall := List.all_eq_true.1 scalars h (List.mem_of_getElem? hh)
  simp only [hkind, Bool.and_eq_true] at hall
  have hparams := List.all_eq_true.1 hall.2 name (by simpa using hname)
  rwa [hparam, Except.toOption, Option.all_some, hhx, Option.any_some] at hparams

theorem exists_operand (wf : g.WellFormed) (hh : g.hop? h.id = some h) {n : Nat}
    (harity : h.kind.arity = some n) (hi : i < n) : ∃ x, g.input? h.id i = some x := by
  have hcount := wf.arity hh harity
  have hx : h.input? i = some (h.inputs[i]) := List.getElem?_eq_getElem (by omega)
  obtain ⟨x, hhx⟩ := wf.exists_input hh (List.mem_of_getElem? hx)
  exact ⟨x, (Graph.input?_iff_of_hop? hh).2 ⟨_, hx, hhx⟩⟩

/-- What starts a region belongs to one. -/
theorem member_of_opens (typed : g.IsTyped) (hh : g.hop? h.id = some h)
    (hopens : opens g h.id = true) : Member g h := by
  have wf := typed.isBuilt.wellFormed
  have genuine {x : Hop} (hx : g.input? h.id 0 = some x)
      (hshape : x.shape.isGenuineMatrix = true) : x.isGenuineMatrix = true := by
    obtain ⟨_, _, hhx⟩ := (Graph.input?_iff_of_hop? hh).1 hx
    exact typed.isGenuineMatrix hhx hshape
  simp only [opens, hh, Option.any_some] at hopens
  split at hopens
  · rename_i hkind
    have harity : h.kind.arity = some 2 := by
      rw [hkind]
      rfl
    obtain ⟨x, hx⟩ := exists_operand wf hh harity (i := 0) (by omega)
    obtain ⟨y, hy⟩ := exists_operand wf hh harity (i := 1) (by omega)
    simp only [hx, Option.any_some, Bool.and_eq_true, beq_iff_eq] at hopens
    rw [typed.shape_of_matmul hh hkind hx hy] at hopens
    have hgenuine := genuine hx hopens.2
    cases htranspose : x.isTranspose with
    | false => exact .product hkind hx hy htranspose hgenuine hopens.1
    | true => exact .transposed hkind hx hy htranspose
  · rename_i op direction hkind
    obtain ⟨x, hx⟩ := exists_operand wf hh (n := 1) (by rw [hkind]; rfl) (i := 0) (by omega)
    simp only [hx, Option.any_some, Bool.and_eq_true, decide_eq_true_eq] at hopens
    exact .aggregate hkind hopens.1 hx (Hop.spansRows_of_isGenuineMatrix (genuine hx hopens.2))
  · simp at hopens

/-- A binary operator that extends a region belongs to it. -/
theorem member_of_binary {op : BinaryOp} (hkind : h.kind = .binary op)
    (hfuses : g.isMatrixColVectorRight h.id = true ∨ g.isMatrixScalar h.id = true) {x : Hop}
    (hx : g.input? h.id i = some x) (hi : i < 2) (hspans : x.spansRows = true) : Member g h := by
  have hmatrix := (Hop.spansRows_iff.1 hspans).1
  rcases hfuses with hfuses | hfuses
  · obtain ⟨⟨a, b⟩, hoperands, htypes⟩ := (Option.any_eq_true ..).1 hfuses
    obtain ⟨_, _, _, _, ha, hb⟩ := Graph.binaryOperands?_eq_some_iff.1 hoperands
    simp only [Bool.and_eq_true] at htypes
    exact .matrixColumn hkind ha hb htypes.1 htypes.2
  · obtain ⟨⟨a, b⟩, hoperands, htypes⟩ := (Option.any_eq_true ..).1 hfuses
    obtain ⟨_, _, _, _, ha, hb⟩ := Graph.binaryOperands?_eq_some_iff.1 hoperands
    simp only [Bool.or_eq_true, Bool.and_eq_true] at htypes
    -- What spans rows is the matrix among the operands.
    have scalar {y : Hop} (hy : g.input? h.id i = some y) : y.isScalar = false := by
      rw [Option.some.inj (hy.symm.trans hx), Hop.not_isScalar_of_isMatrix hmatrix]
    rcases (by omega : i = 0 ∨ i = 1) with rfl | rfl
    · rcases htypes with ⟨_, hscalar⟩ | ⟨hscalar, _⟩
      · exact .matrixScalar hkind hx hb hspans hscalar
      · rw [scalar ha] at hscalar
        exact Bool.noConfusion hscalar
    · rcases htypes with ⟨_, hscalar⟩ | ⟨hscalar, _⟩
      · rw [scalar hb] at hscalar
        exact Bool.noConfusion hscalar
      · exact .scalarMatrix hkind ha hx hscalar hspans

/-- What extends a region by an operand that spans rows belongs to it. -/
theorem member_of_fuses (typed : g.IsTyped) (scalars : g.replacesScalars = true)
    (hh : g.hop? h.id = some h) (hfuses : fuses g h.id = true) {x : Hop}
    (hx : g.input? h.id i = some x) (hspans : x.spansRows = true) : Member g h := by
  have wf := typed.isBuilt.wellFormed
  have hmatrix := (Hop.spansRows_iff.1 hspans).1
  obtain ⟨z, hz, hhz⟩ := (Graph.input?_iff_of_hop? hh).1 hx
  have position {n : Nat} (harity : h.kind.arity = some n) : i < n := by
    rw [← wf.arity hh harity]
    exact (List.getElem?_eq_some_iff.1 hz).1
  simp only [fuses, hh, Option.any_some] at hfuses
  split at hfuses
  · rename_i op hkind
    exact member_of_binary hkind (Bool.or_eq_true_iff.1 hfuses) hx (position (by rw [hkind]; rfl)) hspans
  · rename_i op hkind
    obtain rfl : i = 0 := by
      have := position (n := 1) (by rw [hkind]; rfl)
      omega
    exact .unary hkind hx hspans
  · rename_i op params hkind
    rw [hkind] at hfuses
    obtain rfl : op = .replace := of_decide_eq_true hfuses
    exact .replacement hkind (target_of_isMatrix scalars hh hkind hz hhz hmatrix) hhz hspans
  · rename_i op direction hkind
    obtain rfl : i = 0 := by
      have := position (n := 1) (by rw [hkind]; rfl)
      omega
    exact .aggregate hkind (by simpa using hfuses) hx hspans
  · rename_i hkind
    have harity : h.kind.arity = some 2 := by
      rw [hkind]
      rfl
    obtain ⟨a, ha⟩ := exists_operand wf hh harity (i := 0) (by omega)
    obtain ⟨b, hb⟩ := exists_operand wf hh harity (i := 1) (by omega)
    simp only [hasTransposedLeft, ha, Option.any_some, Bool.and_eq_true] at hfuses
    exact .transposed hkind ha hb hfuses.2
  · simp at hfuses

/-- A multiply in a region has a transpose on its left, or a genuine matrix, and then a column on
its right. -/
theorem Member.matmul (member : Member g h) (hkind : h.kind = .matmul) :
    ∃ x y, g.input? h.id 0 = some x ∧ g.input? h.id 1 = some y ∧
      (x.isTranspose = true ∨
        x.isTranspose = false ∧ x.isGenuineMatrix = true ∧ y.shape.cols = some 1) := by
  cases member with
  | product _ hx hy hstraight hgenuine hcolumn =>
    exact ⟨_, _, hx, hy, .inr ⟨hstraight, hgenuine, hcolumn⟩⟩
  | transposed _ hx hy htranspose => exact ⟨_, _, hx, hy, .inl htranspose⟩
  | aggregate hkind' | unary hkind' | matrixColumn hkind' | matrixScalar hkind'
  | scalarMatrix hkind' | replacement hkind' =>
    rw [hkind] at hkind'
    exact Operator.noConfusion hkind'

/-- A binary operator in a region has a matrix on its left and a column or a scalar on its right, or
a scalar on its left. -/
theorem Member.operands_of_binary (member : Member g h) {op : BinaryOp}
    (hkind : h.kind = .binary op) :
    ∃ x y, g.input? h.id 0 = some x ∧ g.input? h.id 1 = some y ∧
      (x.isGenuineMatrix = true ∧ y.isColVector = true ∨ x.spansRows = true ∧ y.isScalar = true ∨
        x.isScalar = true ∧ y.spansRows = true) := by
  cases member with
  | matrixColumn _ hx hy hgenuine hcolumn => exact ⟨_, _, hx, hy, .inl ⟨hgenuine, hcolumn⟩⟩
  | matrixScalar _ hx hy hspans hscalar => exact ⟨_, _, hx, hy, .inr (.inl ⟨hspans, hscalar⟩)⟩
  | scalarMatrix _ hx hy hscalar hspans => exact ⟨_, _, hx, hy, .inr (.inr ⟨hscalar, hspans⟩)⟩
  | aggregate hkind' | product hkind' | transposed hkind' | unary hkind' | replacement hkind' =>
    rw [hkind] at hkind'
    exact Operator.noConfusion hkind'

theorem Member.operand_of_unary (member : Member g h) {op : UnaryOp} (hkind : h.kind = .unary op) :
    ∃ x, g.input? h.id 0 = some x ∧ x.spansRows = true := by
  cases member with
  | unary _ hx hspans => exact ⟨_, hx, hspans⟩
  | aggregate hkind' | product hkind' | transposed hkind' | matrixColumn hkind'
  | matrixScalar hkind' | scalarMatrix hkind' | replacement hkind' =>
    rw [hkind] at hkind'
    exact Operator.noConfusion hkind'

theorem Member.target_of_replace (member : Member g h) {params : List (String × Nat)}
    (hkind : h.kind = .builtin .replace params) :
    ∃ target x, g.paramInput h.id "target" = .ok target ∧ g.hop? target = some x ∧
      x.spansRows = true := by
  cases member with
  | replacement _ hparam hfound hspans => exact ⟨_, _, hparam, hfound, hspans⟩
  | aggregate hkind' | product hkind' | transposed hkind' | unary hkind' | matrixColumn hkind'
  | matrixScalar hkind' | scalarMatrix hkind' =>
    rw [hkind] at hkind'
    exact Operator.noConfusion hkind'

/-- No ternary operator and no indexing belongs to a region. -/
theorem Member.not_unmatched (member : Member g h) :
    (∀ op, h.kind ≠ .ternary op) ∧ h.kind ≠ .indexing := by
  cases member with
  | aggregate hkind | product hkind | transposed hkind | unary hkind | matrixColumn hkind
  | matrixScalar hkind | scalarMatrix hkind | replacement hkind =>
    rw [hkind]
    exact ⟨fun _ => Operator.noConfusion, Operator.noConfusion⟩

/-- A hop at which the template leaves regions open spans rows, and exchanges none with columns. -/
theorem Member.spansRows (member : Member g h) (typed : g.IsTyped) (hh : g.hop? h.id = some h)
    (hopen : closing g h.id = .stillOpen) : h.spansRows = true ∧ h.isTranspose = false := by
  have like {x : Hop} (hmatrix : h.isMatrix = x.isMatrix) (hshape : h.shape = x.shape)
      (hspans : x.spansRows = true) : h.spansRows = true := by
    rw [Hop.spansRows, hmatrix, hshape]
    exact hspans
  have column {rows : Extent} (hmatrix : h.isMatrix = true) (hshape : h.shape = ⟨rows, some 1⟩)
      (hrows : rows.exceeds 1 = true) : h.spansRows = true := by
    rw [Hop.spansRows_iff, hshape]
    exact ⟨hmatrix, hrows, .inl rfl⟩
  simp only [closing, hh] at hopen
  cases member with
  | @aggregate op direction x hkind hline hx hspans =>
    refine ⟨?_, by simp [Hop.isTranspose, hkind]⟩
    have hresult := typed.result_of_aggUnary hh hkind hx
    cases direction with
    | row =>
      exact column (decide_eq_true (congrArg Prod.fst hresult)) (congrArg Prod.snd hresult)
        (Hop.spansRows_iff.1 hspans).2.1
    | col =>
      simp [hkind] at hopen
    | rowCol => exact absurd rfl hline
  | product hkind hx hy hstraight hgenuine hcolumn =>
    refine ⟨?_, by simp [Hop.isTranspose, hkind]⟩
    have hshape := typed.shape_of_matmul hh hkind hx hy
    rw [hcolumn] at hshape
    exact column (typed.isMatrix_of_matmul hh hkind) hshape
      (Hop.spansRows_iff.1 (Hop.spansRows_of_isGenuineMatrix hgenuine)).2.1
  | transposed hkind hx _ htranspose =>
    simp [hkind, hasTransposedLeft, hx, htranspose] at hopen
  | unary hkind hx hspans =>
    refine ⟨like ?_ (typed.shape_of_unary hh hkind hx) hspans, by simp [Hop.isTranspose, hkind]⟩
    rw [Hop.isMatrix, Hop.isMatrix, typed.dataType_of_unary hh hkind hx]
  | matrixColumn hkind hx hy hgenuine =>
    obtain ⟨hmatrix, hshape⟩ := typed.shape_of_genuine_left hh hkind hx hy hgenuine
    have hspans := Hop.spansRows_of_isGenuineMatrix hgenuine
    have hboth := hmatrix.trans (Hop.spansRows_iff.1 hspans).1.symm
    exact ⟨like hboth hshape hspans, by simp [Hop.isTranspose, hkind]⟩
  | matrixScalar hkind hx hy hspans hscalar =>
    have hmatrix := (Hop.spansRows_iff.1 hspans).1
    refine ⟨like ?_ ?_ hspans, by simp [Hop.isTranspose, hkind]⟩
    · rw [hmatrix]
      exact typed.isMatrix_of_binary hh hkind hx hmatrix
    · exact (typed.shape_of_binary_scalar hh hkind hx hy).1 hmatrix hscalar
  | scalarMatrix hkind hx hy hscalar hspans =>
    have hmatrix := (Hop.spansRows_iff.1 hspans).1
    refine ⟨like ?_ ?_ hspans, by simp [Hop.isTranspose, hkind]⟩
    · rw [hmatrix]
      exact typed.isMatrix_of_binary hh hkind hy hmatrix
    · exact (typed.shape_of_binary_scalar hh hkind hx hy).2 hscalar hmatrix
  | replacement hkind hparam hfound hspans =>
    obtain ⟨target, x, hparam', hfound', htype, hshape⟩ := typed.result_of_replace hh hkind
    obtain rfl := Except.ok.inj (hparam.symm.trans hparam')
    obtain rfl := Option.some.inj (hfound.symm.trans hfound')
    refine ⟨like ?_ hshape hspans, by simp [Hop.isTranspose, hkind]⟩
    rw [Hop.isMatrix, Hop.isMatrix, htype]

end RowAgg

namespace Memo

variable {memo : Memo} {g : Graph} {config : Config} {done : List HopId} {id : HopId} {h : Hop}
  {e : MemoEntry}

/-- Whatever has an open row region spans rows. -/
theorem ExploredBy.spansRows_of_hasOpen (explored : memo.ExploredBy g config done)
    (typed : g.IsTyped) (scalars : g.replacesScalars = true) :
    ∀ {id : HopId} {h : Hop}, memo.hasOpen id .rowAgg = true → g.hop? id = some h →
      h.spansRows = true ∧ h.isTranspose = false := by
  have wf := typed.isBuilt.wellFormed
  intro id
  induction id using Nat.strong_induction_on with
  | _ id ih =>
    intro h hopen hh
    obtain ⟨h', hh', hclosing, hcases⟩ := explored.cases_of_hasOpen hopen
    obtain rfl : h = h' := Option.some.inj (hh.symm.trans hh')
    obtain rfl := wf.id_eq hh
    have member : RowAgg.Member g h := by
      rcases hcases with hopens | ⟨hfuses, i, x, hx, hopenx⟩
      · exact RowAgg.member_of_opens typed hh hopens
      · have hmem := List.mem_of_getElem? hx
        obtain ⟨hopx, hhx⟩ := wf.exists_input hh hmem
        have hspans := (ih x (wf.input_lt hh x hmem) hopenx hhx).1
        exact RowAgg.member_of_fuses typed scalars hh hfuses
          ((Graph.input?_iff_of_hop? hh).2 ⟨x, hx, hhx⟩) hspans
    exact member.spansRows typed hh hclosing

/-- Whatever has a best entry belongs to a row region. -/
theorem ExploredBy.member (explored : memo.ExploredBy g config done) (typed : g.IsTyped)
    (scalars : g.replacesScalars = true) (hh : g.hop? h.id = some h)
    (hbest : memo.best? h.id .rowAgg = some e) : RowAgg.Member g h := by
  rcases (explored.justified_of_best hh hbest).cases with hopens | ⟨hfuses, i, x, _, hx, hopenx⟩
  · exact RowAgg.member_of_opens typed hh hopens
  · obtain ⟨hopx, hhx⟩ := typed.isBuilt.wellFormed.exists_input hh (List.mem_of_getElem? hx)
    have hspans := (explored.spansRows_of_hasOpen typed scalars hopenx hhx).1
    exact RowAgg.member_of_fuses typed scalars hh hfuses
      ((Graph.input?_iff_of_hop? hh).2 ⟨x, hx, hhx⟩) hspans

end Memo

end OpFusion
