import OpFusion.Proofs.Graph.Typed

/-!
# Extents in typed graphs

In a typed graph the extents of a hop follow from those of its inputs, operator by operator, and
every scalar has the shape of a scalar (`IsTyped.shape_of_isScalar`), so whatever has a row or a
column is a matrix.
-/

namespace OpFusion

/-- The result of an elementwise operator on scalars is a scalar, and has the shape of one. -/
theorem elementwiseResult_of_scalar {operands : List Hop}
    (hscalar : (elementwiseResult operands).1 = .scalar) :
    (elementwiseResult operands).2 = .scalar := by
  unfold elementwiseResult at hscalar ⊢
  split
  · rfl
  · rename_i first rest hfilter
    rw [hfilter] at hscalar
    exact DataType.noConfusion hscalar

theorem Hop.isMatrix_or_isScalar (h : Hop) : h.isMatrix = true ∨ h.isScalar = true := by
  unfold isMatrix isScalar
  cases h.dataType with
  | scalar => exact .inr rfl
  | matrix => exact .inl rfl

namespace Graph

variable {g : Graph} {id : HopId} {h x y : Hop}

/-- What a hop with two inputs reads. -/
theorem hop?_of_two_inputs (hh : g.hop? id = some h) {spec : HopSpec} {a b : HopId}
    (hspec : spec = h.spec) (hinputs : spec.inputs = [a, b]) (hx : g.input? id 0 = some x)
    (hy : g.input? id 1 = some y) : g.hop? a = some x ∧ g.hop? b = some y := by
  have hab : h.inputs = [a, b] := by rw [← hinputs, hspec]; rfl
  obtain ⟨a', ha, hhx⟩ := (input?_iff_of_hop? hh).1 hx
  obtain ⟨b', hb, hhy⟩ := (input?_iff_of_hop? hh).1 hy
  obtain rfl : a = a' := by simpa [Hop.input?, hab] using ha
  obtain rfl : b = b' := by simpa [Hop.input?, hab] using hb
  exact ⟨hhx, hhy⟩

/-- A unary operator keeps the extents of its input. -/
theorem IsTyped.shape_of_unary (typed : g.IsTyped) (hh : g.hop? id = some h) {op : UnaryOp}
    (hkind : h.kind = .unary op) (hx : g.input? id 0 = some x) : h.shape = x.shape := by
  obtain ⟨request, htyped, hreq, hspec⟩ := typed.request_of_kind hh hkind
  cases request with
  | unary op a =>
    simp only [HopRequest.spec, bind_eq_ok_iff, hop_eq_ok_iff, pure_eq_ok_iff] at hspec
    obtain ⟨ha, hha, hspec⟩ := hspec
    obtain rfl : ha = x := Option.some.inj (hha.symm.trans (hop?_of_only_input hh hspec rfl hx))
    exact (congrArg HopSpec.shape hspec).symm
  | raw => simp [HopRequest.isTyped] at htyped
  | _ => simp [HopRequest.kind] at hreq

/-- A product has the rows of its left operand and the columns of its right one. -/
theorem IsTyped.shape_of_matmul (typed : g.IsTyped) (hh : g.hop? id = some h)
    (hkind : h.kind = .matmul) (hx : g.input? id 0 = some x) (hy : g.input? id 1 = some y) :
    h.shape = ⟨x.shape.rows, y.shape.cols⟩ := by
  obtain ⟨request, htyped, hreq, hspec⟩ := typed.request_of_kind hh hkind
  cases request with
  | matmul a b =>
    simp only [HopRequest.spec, bind_eq_ok_iff, hop_eq_ok_iff, pure_eq_ok_iff] at hspec
    obtain ⟨ha, hha, hb, hhb, hspec⟩ := hspec
    obtain ⟨hhx, hhy⟩ := hop?_of_two_inputs hh hspec rfl hx hy
    obtain rfl : ha = x := Option.some.inj (hha.symm.trans hhx)
    obtain rfl : hb = y := Option.some.inj (hhb.symm.trans hhy)
    exact (congrArg HopSpec.shape hspec).symm
  | raw => simp [HopRequest.isTyped] at htyped
  | _ => simp [HopRequest.kind] at hreq

/-- A binary operator is elementwise. -/
theorem IsTyped.result_of_binary (typed : g.IsTyped) (hh : g.hop? id = some h) {op : BinaryOp}
    (hkind : h.kind = .binary op) (hx : g.input? id 0 = some x) (hy : g.input? id 1 = some y) :
    (h.dataType, h.shape) = elementwiseResult [x, y] := by
  obtain ⟨request, htyped, hreq, hspec⟩ := typed.request_of_kind hh hkind
  cases request with
  | binary op a b =>
    simp only [HopRequest.spec, bind_eq_ok_iff, hop_eq_ok_iff, pure_eq_ok_iff] at hspec
    obtain ⟨ha, hha, hb, hhb, hspec⟩ := hspec
    obtain ⟨hhx, hhy⟩ := hop?_of_two_inputs hh hspec rfl hx hy
    obtain rfl : ha = x := Option.some.inj (hha.symm.trans hhx)
    obtain rfl : hb = y := Option.some.inj (hhb.symm.trans hhy)
    exact Prod.ext (congrArg HopSpec.dataType hspec).symm (congrArg HopSpec.shape hspec).symm
  | raw => simp [HopRequest.isTyped] at htyped
  | _ => simp [HopRequest.kind] at hreq

/-- An operator on a matrix and a scalar keeps the extents of the matrix. -/
theorem IsTyped.shape_of_binary_scalar (typed : g.IsTyped) (hh : g.hop? id = some h)
    {op : BinaryOp} (hkind : h.kind = .binary op) (hx : g.input? id 0 = some x)
    (hy : g.input? id 1 = some y) :
    (x.isMatrix = true → y.isScalar = true → h.shape = x.shape) ∧
      (x.isScalar = true → y.isMatrix = true → h.shape = y.shape) := by
  have hresult := congrArg Prod.snd (typed.result_of_binary hh hkind hx hy)
  have no {z : Hop} (hz : z.isScalar = true) : z.isMatrix = false := by
    rw [Hop.isScalar, decide_eq_true_eq] at hz
    rw [Hop.isMatrix, hz]
    rfl
  constructor
  · intro hmatrix hscalar
    simpa [elementwiseResult, hmatrix, no hscalar] using hresult
  · intro hscalar hmatrix
    simpa [elementwiseResult, hmatrix, no hscalar] using hresult

/-- An aggregate has one cell for each row or column that it reduces. -/
theorem IsTyped.result_of_aggUnary (typed : g.IsTyped) (hh : g.hop? id = some h) {op : AggOp}
    {direction : Direction} (hkind : h.kind = .aggUnary op direction)
    (hx : g.input? id 0 = some x) : (h.dataType, h.shape) = direction.reduce x.shape := by
  obtain ⟨request, htyped, hreq, hspec⟩ := typed.request_of_kind hh hkind
  cases request with
  | aggUnary op' direction' a =>
    obtain ⟨rfl, rfl⟩ : op' = op ∧ direction' = direction := by simpa [HopRequest.kind] using hreq
    simp only [HopRequest.spec, bind_eq_ok_iff, hop_eq_ok_iff, pure_eq_ok_iff] at hspec
    obtain ⟨ha, hha, hspec⟩ := hspec
    obtain rfl : ha = x := Option.some.inj (hha.symm.trans (hop?_of_only_input hh hspec rfl hx))
    exact Prod.ext (congrArg HopSpec.dataType hspec).symm (congrArg HopSpec.shape hspec).symm
  | raw => simp [HopRequest.isTyped] at htyped
  | _ => simp [HopRequest.kind] at hreq

/-- A literal is a scalar. -/
theorem IsTyped.dataType_of_literal (typed : g.IsTyped) (hh : g.hop? id = some h)
    {value : Literal} (hkind : h.kind = .literal value) : h.dataType = .scalar := by
  obtain ⟨request, htyped, hreq, hspec⟩ := typed.request_of_kind hh hkind
  cases request with
  | literal value' => exact (congrArg HopSpec.dataType (Except.ok.inj hspec)).symm
  | raw => simp [HopRequest.isTyped] at htyped
  | _ => simp [HopRequest.kind] at hreq

/-- A parameter that is given as a hop is found at the position of that hop. -/
theorem exists_position_of_lookup {named : List (String × HopId)} {key : String} {x : HopId}
    (hx : named.lookup key = some x) :
    ∃ i, (named.zipIdx.map fun ((name, _), position) => (name, position)).lookup key = some i ∧
      (named.map (·.2))[i]? = some x := by
  suffices shifted : ∀ start, ∃ i,
      ((named.zipIdx start).map fun ((name, _), position) => (name, position)).lookup key =
        some (start + i) ∧ (named.map (·.2))[i]? = some x by
    simpa using shifted 0
  induction named with
  | nil => simp at hx
  | cons first rest ih =>
    intro start
    obtain ⟨name, y⟩ := first
    by_cases hname : key = name
    · refine ⟨0, ?_⟩
      simpa [List.lookup_cons, hname] using hx
    · have hname : (key == name) = false := by simpa using hname
      rw [List.lookup_cons, hname] at hx
      obtain ⟨i, hi, hxi⟩ := ih hx (start + 1)
      refine ⟨i + 1, ?_, hxi⟩
      simp only [List.zipIdx_cons, List.map_cons, List.lookup_cons, hname]
      rw [hi]
      congr 1
      omega

/-- A replacement has the type and the extents of the hop that `target` stands for. -/
theorem IsTyped.result_of_replace (typed : g.IsTyped) (hh : g.hop? id = some h)
    {params : List (String × Nat)} (hkind : h.kind = .builtin .replace params) :
    ∃ target x, g.paramInput id "target" = .ok target ∧ g.hop? target = some x ∧
      h.dataType = x.dataType ∧ h.shape = x.shape := by
  obtain ⟨request, htyped, hreq, hspec⟩ := typed.request_of_kind hh hkind
  cases request with
  | builtin op named =>
    simp only [HopRequest.spec] at hspec
    split at hspec
    · simp at hspec
    · rename_i target hlookup
      simp only [bind_eq_ok_iff, hop_eq_ok_iff] at hspec
      obtain ⟨x, hhx, hspec⟩ := hspec
      cases op with
      | removeEmpty => simp [HopRequest.kind] at hreq
      | replace =>
        have hspec := pure_eq_ok_iff.1 hspec
        refine ⟨target, x, ?_, hhx, (congrArg HopSpec.dataType hspec).symm,
          (congrArg HopSpec.shape hspec).symm⟩
        obtain ⟨i, hi, htarget⟩ := exists_position_of_lookup hlookup
        have hparam : h.spec.kind.param? "target" = some i := by
          rw [← hspec]
          exact hi
        have hinput : h.spec.inputs[i]? = some target := by
          rw [← hspec]
          exact htarget
        replace hparam : h.kind.param? "target" = some i := hparam
        replace hinput : h.input? i = some target := hinput
        simp only [paramInput, hop_eq_ok_iff.2 hh, ok_bind, hparam, hinput]
  | raw => simp [HopRequest.isTyped] at htyped
  | _ => simp [HopRequest.kind] at hreq

/-- Every scalar has the shape of a scalar. -/
theorem IsTyped.shape_of_isScalar (typed : g.IsTyped) :
    ∀ {id : HopId} {h : Hop}, g.hop? id = some h → h.isScalar = true → h.shape = .scalar := by
  have wf := typed.isBuilt.wellFormed
  intro id
  induction id using Nat.strongRecOn with
  | ind id ih =>
    intro h hh hscalar
    obtain ⟨request, htyped, hspec⟩ := typed.request hh
    have hscalar : h.spec.dataType = .scalar := of_decide_eq_true hscalar
    show h.spec.shape = .scalar
    -- What a request takes over from an operand, it takes over from an earlier hop.
    have earlier {a : HopId} {ha : Hop} (hmem : a ∈ h.spec.inputs) (hha : g.hop? a = some ha)
        (htype : ha.dataType = .scalar) : ha.shape = .scalar :=
      ih a (wf.input_lt hh a hmem) hha (decide_eq_true htype)
    generalize h.spec = spec at *
    cases request with
    | raw => simp [HopRequest.isTyped] at htyped
    | data | dataUnknown =>
      obtain rfl := Except.ok.inj hspec
      exact DataType.noConfusion hscalar
    | scalar | literal =>
      obtain rfl := Except.ok.inj hspec
      rfl
    | unary op a =>
      simp only [HopRequest.spec, bind_eq_ok_iff, hop_eq_ok_iff, pure_eq_ok_iff] at hspec
      obtain ⟨ha, hha, rfl⟩ := hspec
      exact earlier (List.mem_singleton_self a) hha hscalar
    | binary op a b =>
      simp only [HopRequest.spec, bind_eq_ok_iff, pure_eq_ok_iff] at hspec
      obtain ⟨ha, _, hb, _, rfl⟩ := hspec
      exact elementwiseResult_of_scalar hscalar
    | ternary op a b c =>
      simp only [HopRequest.spec, bind_eq_ok_iff, pure_eq_ok_iff] at hspec
      obtain ⟨ha, _, hb, _, hc, _, rfl⟩ := hspec
      by_cases hop : op = .ctable
      · simp [hop] at hscalar
      · simp only [hop, if_false] at hscalar ⊢
        exact elementwiseResult_of_scalar hscalar
    | aggUnary op direction a =>
      simp only [HopRequest.spec, bind_eq_ok_iff, pure_eq_ok_iff] at hspec
      obtain ⟨ha, _, rfl⟩ := hspec
      cases direction with
      | row | col => exact DataType.noConfusion hscalar
      | rowCol => rfl
    | matmul | reorg | rightIndex =>
      simp only [HopRequest.spec, bind_eq_ok_iff, pure_eq_ok_iff] at hspec
      grind
    | builtin op named =>
      simp only [HopRequest.spec] at hspec
      split at hspec
      · simp at hspec
      · rename_i target hlookup
        simp only [bind_eq_ok_iff, hop_eq_ok_iff] at hspec
        obtain ⟨x, hhx, hspec⟩ := hspec
        cases op with
        | removeEmpty =>
          obtain rfl := pure_eq_ok_iff.1 hspec
          exact DataType.noConfusion hscalar
        | replace =>
          obtain rfl := pure_eq_ok_iff.1 hspec
          obtain ⟨i, _, htarget⟩ := exists_position_of_lookup hlookup
          exact earlier (List.mem_of_getElem? htarget) hhx hscalar

end Graph

end OpFusion
