import OpFusion.Proofs.Graph.WellFormed

/-!
# Types in typed graphs

In a typed graph the type of a result follows from the kind of the hop and the types of its inputs.
-/

namespace OpFusion

/-- The kind of the hop that a request asks for. -/
def HopRequest.kind : HopRequest → Operator
  | data name _ _ | dataUnknown name | scalar name => .data name
  | literal value => .literal value
  | unary op _ => .unary op
  | binary op _ _ => .binary op
  | ternary op _ _ _ => .ternary op
  | aggUnary op direction _ => .aggUnary op direction
  | matmul _ _ => .matmul
  | reorg op _ => .reorg op
  | rightIndex _ _ _ _ _ => .indexing
  | builtin op params => .builtin op (params.zipIdx.map fun ((name, _), position) => (name, position))
  | raw spec => spec.kind

namespace Graph

variable {g : Graph} {id : HopId} {h : Hop}

theorem kind_of_spec {request : HopRequest} {spec : HopSpec} (hspec : request.spec g = .ok spec) :
    spec.kind = request.kind := by
  cases request with
  | data | dataUnknown | scalar | literal | raw =>
    obtain rfl := Except.ok.inj hspec
    rfl
  | builtin op params =>
    simp only [HopRequest.spec] at hspec
    split at hspec
    · simp at hspec
    · obtain ⟨hx, _, hspec⟩ := bind_eq_ok_iff.1 hspec
      cases op with
      | replace | removeEmpty =>
        obtain rfl := pure_eq_ok_iff.1 hspec
        rfl
  | unary | binary | ternary | aggUnary | matmul | reorg | rightIndex =>
    simp only [HopRequest.spec, bind_eq_ok_iff, pure_eq_ok_iff] at hspec
    grind [HopRequest.kind]

/-- Each hop of a typed graph is what a typed request of its kind still asks for. -/
theorem IsTyped.request_of_kind (typed : g.IsTyped) (hh : g.hop? id = some h) {kind : Operator}
    (hkind : h.kind = kind) :
    ∃ request : HopRequest, request.isTyped ∧ request.kind = kind ∧ request.spec g = .ok h.spec := by
  obtain ⟨request, htyped, hspec⟩ := typed.request hh
  exact ⟨request, htyped, (kind_of_spec hspec).symm.trans hkind, hspec⟩

/-- What a hop with a single input reads. -/
theorem hop?_of_only_input (hh : g.hop? id = some h) {spec : HopSpec} {x : Hop} {y : HopId}
    (hspec : spec = h.spec) (hinputs : spec.inputs = [y]) (hx : g.input? id 0 = some x) :
    g.hop? y = some x := by
  obtain ⟨y', hinput, hhx⟩ := (input?_iff_of_hop? hh).1 hx
  have hy : h.inputs = [y] := by rw [← hinputs, hspec]; rfl
  obtain rfl : y = y' := by simpa [Hop.input?, hy] using hinput
  exact hhx

/-- The product of two matrices is a matrix. -/
theorem IsTyped.isMatrix_of_matmul (typed : g.IsTyped) (hh : g.hop? id = some h)
    (hkind : h.kind = .matmul) : h.isMatrix = true := by
  obtain ⟨request, htyped, hreq, hspec⟩ := typed.request_of_kind hh hkind
  cases request with
  | matmul a b =>
    simp only [HopRequest.spec, bind_eq_ok_iff, pure_eq_ok_iff] at hspec
    obtain ⟨left, _, right, _, hspec⟩ := hspec
    have hdata := congrArg HopSpec.dataType hspec
    exact decide_eq_true hdata.symm
  | raw => simp [HopRequest.isTyped] at htyped
  | _ => simp [HopRequest.kind] at hreq

/-- A rearranged matrix is a matrix. -/
theorem IsTyped.isMatrix_of_reorg (typed : g.IsTyped) (hh : g.hop? id = some h) {op : ReorgOp}
    (hkind : h.kind = .reorg op) : h.isMatrix = true := by
  obtain ⟨request, htyped, hreq, hspec⟩ := typed.request_of_kind hh hkind
  cases request with
  | reorg op x =>
    simp only [HopRequest.spec, bind_eq_ok_iff, pure_eq_ok_iff] at hspec
    obtain ⟨hx, _, hspec⟩ := hspec
    have hdata := congrArg HopSpec.dataType hspec
    exact decide_eq_true hdata.symm
  | raw => simp [HopRequest.isTyped] at htyped
  | _ => simp [HopRequest.kind] at hreq

/-- The aggregate of a whole matrix is a scalar. -/
theorem IsTyped.isScalar_of_aggUnary (typed : g.IsTyped) (hh : g.hop? id = some h) {op : AggOp}
    (hkind : h.kind = .aggUnary op .rowCol) : h.isScalar = true := by
  obtain ⟨request, htyped, hreq, hspec⟩ := typed.request_of_kind hh hkind
  cases request with
  | aggUnary op' direction x =>
    obtain ⟨rfl, rfl⟩ : op' = op ∧ direction = .rowCol := by simpa [HopRequest.kind] using hreq
    simp only [HopRequest.spec, bind_eq_ok_iff, pure_eq_ok_iff] at hspec
    obtain ⟨hx, _, hspec⟩ := hspec
    have hdata := congrArg HopSpec.dataType hspec
    exact decide_eq_true hdata.symm
  | raw => simp [HopRequest.isTyped] at htyped
  | _ => simp [HopRequest.kind] at hreq

/-- A literal has the shape of a scalar. -/
theorem IsTyped.shape_of_literal (typed : g.IsTyped) (hh : g.hop? id = some h) {value : Literal}
    (hkind : h.kind = .literal value) : h.shape = .scalar := by
  obtain ⟨request, htyped, hreq, hspec⟩ := typed.request_of_kind hh hkind
  cases request with
  | literal value' => exact (congrArg HopSpec.shape (Except.ok.inj hspec)).symm
  | raw => simp [HopRequest.isTyped] at htyped
  | _ => simp [HopRequest.kind] at hreq

/-- A transpose exchanges the extents of its input. -/
theorem IsTyped.shape_of_transpose (typed : g.IsTyped) (hh : g.hop? id = some h)
    (hkind : h.kind = .reorg .transpose) {x : Hop} (hx : g.input? id 0 = some x) :
    h.shape = x.shape.transposed := by
  obtain ⟨request, htyped, hreq, hspec⟩ := typed.request_of_kind hh hkind
  cases request with
  | reorg op y =>
    obtain rfl : op = .transpose := by simpa [HopRequest.kind] using hreq
    simp only [HopRequest.spec, bind_eq_ok_iff, hop_eq_ok_iff, pure_eq_ok_iff] at hspec
    obtain ⟨hy, hhy, hspec⟩ := hspec
    obtain rfl : hy = x := Option.some.inj (hhy.symm.trans (hop?_of_only_input hh hspec rfl hx))
    exact (congrArg HopSpec.shape hspec).symm
  | raw => simp [HopRequest.isTyped] at htyped
  | _ => simp [HopRequest.kind] at hreq

/-- A unary operator keeps the type of its input. -/
theorem IsTyped.dataType_of_unary (typed : g.IsTyped) (hh : g.hop? id = some h) {op : UnaryOp}
    (hkind : h.kind = .unary op) {x : Hop} (hx : g.input? id 0 = some x) :
    h.dataType = x.dataType := by
  obtain ⟨request, htyped, hreq, hspec⟩ := typed.request_of_kind hh hkind
  cases request with
  | unary op y =>
    simp only [HopRequest.spec, bind_eq_ok_iff, hop_eq_ok_iff, pure_eq_ok_iff] at hspec
    obtain ⟨hy, hhy, hspec⟩ := hspec
    obtain rfl : hy = x := Option.some.inj (hhy.symm.trans (hop?_of_only_input hh hspec rfl hx))
    exact (congrArg HopSpec.dataType hspec).symm
  | raw => simp [HopRequest.isTyped] at htyped
  | _ => simp [HopRequest.kind] at hreq

/-- A binary operator with a matrix among its operands gives a matrix. -/
theorem IsTyped.isMatrix_of_binary (typed : g.IsTyped) (hh : g.hop? id = some h) {op : BinaryOp}
    (hkind : h.kind = .binary op) {i : Nat} {x : Hop} (hx : g.input? id i = some x)
    (hmatrix : x.isMatrix = true) : h.isMatrix = true := by
  obtain ⟨request, htyped, hreq, hspec⟩ := typed.request_of_kind hh hkind
  cases request with
  | binary op a b =>
    simp only [HopRequest.spec, bind_eq_ok_iff, hop_eq_ok_iff, pure_eq_ok_iff] at hspec
    obtain ⟨ha, hha, hb, hhb, hspec⟩ := hspec
    have hinputs : [a, b] = h.inputs := congrArg HopSpec.inputs hspec
    obtain ⟨y, hinput, hhx⟩ := (input?_iff_of_hop? hh).1 hx
    have hmem : x ∈ [ha, hb] := by
      have hy : y = a ∨ y = b := by
        have := List.mem_of_getElem? hinput
        simpa [← hinputs] using this
      rcases hy with rfl | rfl
      · obtain rfl : ha = x := Option.some.inj (hha.symm.trans hhx)
        simp
      · obtain rfl : hb = x := Option.some.inj (hhb.symm.trans hhx)
        simp
    have hdata : (elementwiseResult [ha, hb]).1 = h.dataType := congrArg HopSpec.dataType hspec
    -- With a matrix among the operands the result is one.
    have hresult : (elementwiseResult [ha, hb]).1 = .matrix := by
      unfold elementwiseResult
      have hfilter : x ∈ [ha, hb].filter (·.isMatrix) := List.mem_filter.2 ⟨hmem, hmatrix⟩
      split
      · rename_i hnil
        rw [hnil] at hfilter
        simp at hfilter
      · rfl
    exact decide_eq_true (hdata.symm.trans hresult)
  | raw => simp [HopRequest.isTyped] at htyped
  | _ => simp [HopRequest.kind] at hreq

end Graph

end OpFusion
