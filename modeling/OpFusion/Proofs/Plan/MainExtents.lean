import OpFusion.Proofs.Graph.Extents
import OpFusion.Proofs.Plan.ProductInputs

/-!
# Extents of the main matrix

The cells of its main matrix drive an outer-product kernel, so that matrix should be as large as the
product of the factors. It is designated by comparing it with the other operand of one hop, though,
and between that hop and the product there may be hops that change the extents. So the main matrix
is as large as what the designating hop takes from the region, and as large as the product exactly
if that is (`Plan.outerProduct_main_extents`).
-/

namespace OpFusion

open Kernel

/-- The extents of a hop. -/
def Graph.extents? (g : Graph) (id : HopId) : Option Shape := (g.hop? id).map (·.shape)

/-- The extents of a product: the rows of its left operand by the columns of its right one. -/
def Graph.productExtents? (g : Graph) (id : HopId) : Option Shape := do
  let left ← g.input? id 0
  let right ← g.input? id 1
  return ⟨left.shape.rows, right.shape.cols⟩

/-- Nothing is stretched by broadcasting it along a shape of its own extents. -/
@[simp] theorem Shape.broadcast_self (s : Shape) : s.broadcast s = s := by
  have self (e : Extent) : e.broadcast e = e := ite_self e
  unfold broadcast
  rw [self, self]

namespace OuterProduct

variable {memo : Memo} {g : Graph} {config : Config} {done : List HopId} {table : NodeTable}
  {d : Draft} {root id p q r main : HopId} {h : Hop}

/-- Whatever the hop takes from a region, it gives on in the same extents: it is a unary operator, or
combines a matrix with a scalar or with another of the same extents. -/
def keepsExtents (g : Graph) (id : HopId) : Bool :=
  (g.hop? id).any fun h =>
    match h.kind with
    | .unary _ => true
    | .binary _ => g.isMatrixScalar id || (g.binaryOperands? id).any fun (a, b) => a.shape = b.shape
    | _ => false

/-- A binary operator keeps the extents of a matrix that it combines with a scalar or with another
matrix of these extents. -/
theorem shape_of_keepsExtents_binary (typed : g.IsTyped) (hh : g.hop? id = some h) {op : BinaryOp}
    (hkind : h.kind = .binary op) (hkeeps : keepsExtents g id = true) {i : Nat} {z : Hop}
    (hz : g.input? id i = some z) (hmatrix : z.isMatrix = true) : h.shape = z.shape := by
  have wf := typed.isBuilt.wellFormed
  have hcount : h.inputs.length = 2 := wf.arity hh (by rw [hkind]; rfl)
  obtain ⟨c, hc, hhc⟩ := (Graph.input?_iff_of_hop? hh).1 hz
  have hi : i < 2 := hcount ▸ (List.getElem?_eq_some_iff.1 hc).1
  simp only [keepsExtents, hh, Option.any_some, hkind, Bool.or_eq_true] at hkeeps
  obtain ⟨⟨a, b⟩, hoperands, hkeeps⟩ : ∃ operands, g.binaryOperands? id = some operands ∧
      (((operands.1.isMatrix = true ∧ operands.2.isScalar = true) ∨
        (operands.1.isScalar = true ∧ operands.2.isMatrix = true)) ∨
          operands.1.shape = operands.2.shape) := by
    rcases hkeeps with hscalar | hsize
    · obtain ⟨operands, hoperands, hscalar⟩ := (Option.any_eq_true ..).1 hscalar
      exact ⟨operands, hoperands, .inl (by simpa using hscalar)⟩
    · obtain ⟨operands, hoperands, hsize⟩ := (Option.any_eq_true ..).1 hsize
      exact ⟨operands, hoperands, .inr (of_decide_eq_true hsize)⟩
  obtain ⟨h', op', hh', hkind', ha, hb⟩ := Graph.binaryOperands?_eq_some_iff.1 hoperands
  obtain ⟨hleft, hright⟩ := typed.shape_of_binary_scalar hh hkind ha hb
  -- The matrix is one of the two operands.
  have hside : z = a ∨ z = b := by
    rcases (by omega : i = 0 ∨ i = 1) with rfl | rfl
    · exact .inl (Option.some.inj (hz.symm.trans ha))
    · exact .inr (Option.some.inj (hz.symm.trans hb))
  have noScalar := Hop.not_isScalar_of_isMatrix hmatrix
  simp only at hkeeps
  rcases hkeeps with (⟨hma, hsb⟩ | ⟨hsa, hmb⟩) | hsize
  · rcases hside with rfl | rfl
    · exact hleft hma hsb
    · rw [noScalar] at hsb
      exact Bool.noConfusion hsb
  · rcases hside with rfl | rfl
    · rw [noScalar] at hsa
      exact Bool.noConfusion hsa
    · exact hright hsa hmb
  · have hresult := congrArg Prod.snd (typed.result_of_binary hh hkind ha hb)
    have hz : z.shape = a.shape := by
      rcases hside with rfl | rfl
      · rfl
      · exact hsize.symm
    rw [hz]
    cases hma : a.isMatrix with
    | true =>
      cases hmb : b.isMatrix with
      | true => simpa [elementwiseResult, hma, hmb, ← hsize] using hresult
      | false => simpa [elementwiseResult, hma, hmb] using hresult
    | false =>
      cases hmb : b.isMatrix with
      | true => simpa [elementwiseResult, hma, hmb, hsize] using hresult
      | false =>
        rcases hside with rfl | rfl
        · rw [hma] at hmatrix
          exact Bool.noConfusion hmatrix
        · rw [hmb] at hmatrix
          exact Bool.noConfusion hmatrix

/-- A hop that keeps the extents of what it takes from the region has these extents. -/
theorem extents?_of_refers (explored : memo.ExploredBy g config done) (typed : g.IsTyped)
    (hqr : memo.Refers .outerProduct g q r) (hkeeps : keepsExtents g q = true) :
    g.extents? q = g.extents? r := by
  have wf := typed.isBuilt.wellFormed
  have hopen := explored.hasOpen_of_refers hqr
  obtain ⟨h, e, i, hh, _, hr, _⟩ := hqr
  obtain ⟨z, hz⟩ := wf.exists_input hh (List.mem_of_getElem? hr)
  have hinput : g.input? q i = some z := (Graph.input?_iff_of_hop? hh).2 ⟨r, hr, hz⟩
  have hmatrix := explored.isMatrix_of_hasOpen typed hopen hz
  simp only [Graph.extents?, hh, hz, Option.map_some]
  congr 1
  cases hkind : h.kind with
  | unary op =>
    have hi : i = 0 := by
      have hcount := wf.arity hh (n := 1) (by rw [hkind]; rfl)
      have hlt : i < h.inputs.length := (List.getElem?_eq_some_iff.1 hr).1
      omega
    exact typed.shape_of_unary hh hkind (hi ▸ hinput)
  | binary op => exact shape_of_keepsExtents_binary typed hh hkind hkeeps hinput hmatrix
  | _ => simp [keepsExtents, hh, hkind] at hkeeps

/-- Down to a hop of its region a hop has the extents of that hop, if no hop above changes them. -/
theorem extents?_of_inRegion (explored : memo.ExploredBy g config done) (typed : g.IsTyped)
    (hregion : memo.InRegion .outerProduct g id p)
    (hkeeps : ∀ q r, memo.InRegion .outerProduct g id q → memo.Refers .outerProduct g q r →
      keepsExtents g q = true) : g.extents? id = g.extents? p := by
  induction hregion with
  | refl => rfl
  | @tail q r hq hqr ih =>
    rw [ih]
    exact extents?_of_refers explored typed hqr (hkeeps q r hq hqr)

/-- A product has the extents that its operands give it. -/
theorem extents?_of_isOuterProductLike (typed : g.IsTyped)
    (hlike : g.isOuterProductLike p = true) : g.extents? p = g.productExtents? p := by
  obtain ⟨x, y, hx, hy, _, _⟩ := Graph.operands_of_isOuterProductLike hlike
  obtain ⟨h, _, hh, _⟩ := Graph.input?_eq_some_iff.1 hx
  obtain rfl := typed.isBuilt.wellFormed.id_eq hh
  have hkind : h.kind = .matmul :=
    of_decide_eq_true (Graph.isMatmul_of_isOuterProductLike hh hlike)
  simp [Graph.extents?, Graph.productExtents?, hh, hx, hy, typed.shape_of_matmul hh hkind hx hy]

theorem extents?_of_isEqualSize {a b : HopId} (hsize : g.isEqualSize a b = true) :
    g.extents? a = g.extents? b := by
  unfold Graph.isEqualSize at hsize
  split at hsize
  · rename_i x y hx hy
    simp only [Bool.and_eq_true, decide_eq_true_eq] at hsize
    simp [Graph.extents?, hx, hy, hsize.2]
  · simp at hsize

/-- The hop that designates a main matrix takes its other operand from the region, and the main
matrix has the extents of that operand. -/
theorem exists_refers_of_designates (explored : memo.ExploredBy g config done) (wf : g.WellFormed)
    (hd : Draft.ofRegion .outerProduct g memo config table root = .ok d) (hid : id ∈ d.lowered)
    (designates : Designates g id main) :
    ∃ r, memo.Refers .outerProduct g id r ∧ g.extents? main = g.extents? r := by
  obtain ⟨h, e, _, _, rfl, _, _, ready, _⟩ := Draft.ofRegion_lowered wf hd hid
  have justified := explored.justified_of_best ready.hop ready.best
  obtain ⟨op, y, hkind, hother, hsize⟩ : ∃ op y, h.kind = .binary op ∧
      (∀ i x, h.input? i = some x → x = main ∨ x = y) ∧ g.extents? main = g.extents? y := by
    have sides {h' : Hop} {op : BinaryOp} {a b : HopId} (hh' : g.hop? h.id = some h')
        (hkind : h'.kind = .binary op) (ha : h'.input? 0 = some a) (hb : h'.input? 1 = some b) :
        h.kind = .binary op ∧ ∀ i x, h.input? i = some x → x = a ∨ x = b := by
      obtain rfl : h = h' := Option.some.inj (ready.hop.symm.trans hh')
      refine ⟨hkind, fun i x hx => ?_⟩
      have hcount := wf.arity ready.hop (n := 2) (by rw [hkind]; rfl)
      have hlt : i < h.inputs.length := (List.getElem?_eq_some_iff.1 hx).1
      rcases (by omega : i = 0 ∨ i = 1) with rfl | rfl
      · exact .inl (Option.some.inj (hx.symm.trans ha))
      · exact .inr (Option.some.inj (hx.symm.trans hb))
    cases designates with
    | left hh hkind hx hy hsize =>
      obtain ⟨hkind, hsides⟩ := sides hh hkind hx hy
      exact ⟨_, _, hkind, hsides, extents?_of_isEqualSize hsize⟩
    | right hh hkind hy hx hsize =>
      obtain ⟨hkind, hsides⟩ := sides hh hkind hy hx
      exact ⟨_, _, hkind, fun i x hx => (hsides i x hx).symm, (extents?_of_isEqualSize hsize).symm⟩
  -- No region starts at a binary operator, so this one extends the region of an operand.
  rcases justified.cases with hopens | ⟨_, i, x, hi, hx, hopen⟩
  · have hm := Graph.isMatmul_of_isOuterProductLike ready.hop (Bool.and_eq_true_iff.1 hopens).1
    simp [Hop.isMatmul, hkind] at hm
  · refine ⟨x, ⟨h, e, i, ready.hop, ready.best, hx, hi⟩, ?_⟩
    rcases hother i x hx with rfl | rfl
    · rfl
    · exact hsize

end OuterProduct

/-- In a typed graph the main matrix of an outer-product kernel has the extents of the hop `below`
that the last designating hop `above` takes from the region. So it is as large as the product of the
factors exactly if `below` is, and in particular if no hop from `below` down to the product changes
the extents of what it takes from the region. -/
theorem Plan.outerProduct_main_extents {g : Graph} (typed : g.IsTyped) (config : Config)
    (roots : List HopId) {table : NodeTable} {root : HopId} {plan : Plan}
    (hplan : Plan.construct .outerProduct g (Memo.empty.explore g config roots).1 config table
      root = .ok plan) :
    ∃ d main before above after below p,
      Draft.ofRegion .outerProduct g (Memo.empty.explore g config roots).1 config table root =
        .ok d ∧
      plan.inputs[0]? = some main ∧
      d.lowered = before ++ above :: after ∧ OuterProduct.Designates g above main ∧
      (∀ c ∈ after, ∀ x, ¬ OuterProduct.Designates g c x) ∧
      (Memo.empty.explore g config roots).1.Refers .outerProduct g above below ∧
      (Memo.empty.explore g config roots).1.InRegion .outerProduct g below p ∧
      g.isOuterProductLike p = true ∧
      g.extents? main = g.extents? below ∧
      (g.extents? main = g.productExtents? p ↔ g.extents? below = g.extents? p) ∧
      ((∀ q r, (Memo.empty.explore g config roots).1.InRegion .outerProduct g below q →
          (Memo.empty.explore g config roots).1.Refers .outerProduct g q r →
          OuterProduct.keepsExtents g q = true) →
        g.extents? main = g.productExtents? p) := by
  have wf := typed.isBuilt.wellFormed
  have explored := Memo.exploredBy_explore wf config roots
  obtain ⟨d, main, left, right, rest, hd, roles, layout⟩ :=
    OuterProduct.laysOut_of_construct explored typed hplan
  obtain ⟨before, above, after, hsplit, designates, hafter⟩ := roles.main
  obtain ⟨p, _, _, hp, hlike, _⟩ := roles.factors
  have habove : above ∈ d.lowered := by
    rw [hsplit]
    exact List.mem_append_right _ List.mem_cons_self
  obtain ⟨below, hrefers, hextents⟩ :=
    OuterProduct.exists_refers_of_designates explored wf hd habove designates
  have hregion := (OuterProduct.mem_lowered_iff explored typed hd).1 habove
  have hbelow := explored.inRegion_product typed (hregion.tail hrefers) hp hlike
  have hproduct := OuterProduct.extents?_of_isOuterProductLike typed hlike
  refine ⟨d, main, before, above, after, below, p, hd, by rw [layout.split]; rfl, hsplit,
    designates, hafter, hrefers, hbelow, hlike, hextents, ?_, fun hkeeps => ?_⟩
  · rw [hextents, hproduct]
  · rw [hextents, ← hproduct]
    exact OuterProduct.extents?_of_inRegion explored typed hbelow hkeeps

theorem Plan.outerProduct_main_extents_weighted :
    Plan.construct .outerProduct Memo.weighted Memo.ofWeighted .default .empty 6 = .ok ofWeighted ∧
      ∃ main above below p, ofWeighted.inputs[0]? = some main ∧
        OuterProduct.Designates Memo.weighted above main ∧
        Memo.ofWeighted.Refers .outerProduct Memo.weighted above below ∧
        Memo.weighted.isOuterProductLike p = true ∧
        (Memo.weighted.extents? main = Memo.weighted.productExtents? p ↔
          Memo.weighted.extents? below = Memo.weighted.extents? p) := by
  have typed : Memo.weighted.IsTyped := ⟨Memo.weightedRequests, by decide, rfl⟩
  have hplan : Plan.construct .outerProduct Memo.weighted Memo.ofWeighted .default .empty 6 =
      .ok ofWeighted := by decide +kernel
  obtain ⟨d, main, _, above, _, below, p, _, hmain, _, designates, _, hrefers, _, hlike, _, hiff, _⟩ :=
    outerProduct_main_extents typed .default [6] hplan
  exact ⟨hplan, main, above, below, p, hmain, designates, hrefers, hlike, hiff⟩

/-- The cells of a product, weighted by one matrix, transposed and weighted by another one:
`sum(Y * t(X * (U %*% t(V))))`. -/
def Plan.reweighted : Graph :=
  Graph.empty.build [.data "X" 300 400, .data "U" 300 10, .data "V" 400 10, .data "Y" 400 300,
    .transpose 2, .matmul 1 4, .binary .mult 0 5, .transpose 6, .binary .mult 3 7, .sum 8]

/-- The plan for that sum. -/
def Plan.ofReweighted : Plan :=
  (Plan.construct .outerProduct reweighted (Memo.empty.explore reweighted .default [9]).1 .default
    .empty 9).toOption.getD ⟨[], .empty, [], 0, .outerProduct .aggregate false⟩

/-- The matrix above the transpose is designated last. It becomes the main matrix, although its rows
are the columns of the product. -/
theorem Plan.reweighted_main_misaligned :
    reweighted.IsTyped ∧
      Plan.construct .outerProduct reweighted (Memo.empty.explore reweighted .default [9]).1
        .default .empty 9 = .ok ofReweighted ∧
      ofReweighted.inputs = [3, 1, 2, 0] ∧ reweighted.isOuterProductLike 5 = true ∧
      reweighted.extents? 3 = some ⟨some 400, some 300⟩ ∧
      reweighted.productExtents? 5 = some ⟨some 300, some 400⟩ :=
  ⟨⟨_, by decide, rfl⟩, by decide +kernel, by decide +kernel, by decide +kernel, by decide +kernel,
    by decide +kernel⟩

end OpFusion
