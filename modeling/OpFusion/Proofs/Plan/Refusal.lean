import OpFusion.Proofs.Plan.Layout

/-!
# What cannot be lowered

Each template can express some hops and refuses the others (`Template.refusal?`). Whether it does is
settled by the hop and its inputs alone: once these are bound, lowering succeeds exactly when there
is no refusal, and otherwise it fails with it (`Template.fragment_outcome`). So the region below a
hop is lowered as a whole unless one of its hops has no entry or is refused (`Draft.ofRegion_ends`).
-/

namespace OpFusion

open Kernel

/-- Why the row template cannot express a hop. -/
def RowAgg.refusal? (g : Graph) (h : Hop) : Option PlanError :=
  match h.kind with
  | .aggUnary .sum .row | .aggUnary .sum .col | .matmul => none
  | .unary op => if op.primitive?.isSome then none else some (.unsupported .rowAgg h)
  | .binary op =>
    -- A row of a genuine matrix is combined with a cell; anything else works cell by cell.
    if (g.input? h.id 0).any (·.shape.isGenuineMatrix) then
      if op.rowOp?.isSome then none else some (.unsupported .rowAgg h)
    else if op.cellOp?.isSome then none else some (.unsupported .rowAgg h)
  | .ternary op => if op.primitive?.isSome then none else some (.unsupported .rowAgg h)
  | .builtin .replace _ =>
    ["target", "pattern", "replacement"].findSome? fun name =>
      match g.paramInput h.id name with
      | .ok _ => none
      | .error e => some (.graph e)
  | .indexing =>
    if (g.input? h.id 0).any (·.shape.cols.isSome) then none else some (.unsupported .rowAgg h)
  | _ => some (.unsupported .rowAgg h)

/-- Why the outer-product template cannot express a hop. -/
def OuterProduct.refusal? (h : Hop) : Option PlanError :=
  match h.kind with
  | .unary op => if op.primitive?.isSome then none else some (.unsupported .outerProduct h)
  | .binary op => if op.cellOp?.isSome then none else some (.unsupported .outerProduct h)
  | .matmul | .reorg .transpose | .aggUnary .sum .rowCol => none
  | _ => some (.unsupported .outerProduct h)

/-- Why a template cannot express a hop. -/
def Template.refusal? (t : Template) (g : Graph) (h : Hop) : Option PlanError :=
  match t with
  | .outerProduct => OuterProduct.refusal? h
  | .rowAgg => RowAgg.refusal? g h

/-- A computation succeeds unless it is refused, and then it fails with the refusal. -/
def Fails {α : Type} (x : Except PlanError α) (refusal? : Option PlanError) : Prop :=
  match refusal? with
  | none => ∃ a, x = .ok a
  | some e => x = .error e

theorem Fails.ends {α : Type} {x : Except PlanError α} {refusal? : Option PlanError}
    {errors : PlanError → Prop} (fails : Fails x refusal?)
    (h : ∀ e, refusal? = some e → errors e) : Ends errors x := by
  cases refusal? with
  | none =>
    obtain ⟨a, rfl⟩ : ∃ a, x = .ok a := fails
    exact .ok a
  | some e =>
    obtain rfl : x = .error e := fails
    exact .error (h e rfl)

/-! ## Operands that are there -/

namespace Draft

variable {g : Graph} {d : Draft} {h : Hop} {i : Nat}

/-- A position that the arity of a hop promises has an operand. -/
theorem exists_input (wf : g.WellFormed) (hh : g.hop? h.id = some h) {count : Nat}
    (hcount : h.kind.arity = some count) (hi : i < count) :
    ∃ x hx, h.input? i = some x ∧ g.hop? x = some hx ∧ operandHop g h i = .ok hx ∧
      g.input? h.id i = some hx := by
  have hlt : i < h.inputs.length := by
    rw [wf.arity hh hcount]
    exact hi
  obtain ⟨hx, hhx⟩ := wf.exists_input hh (List.getElem_mem hlt)
  have hinput : h.input? i = some h.inputs[i] := List.getElem?_eq_getElem hlt
  exact ⟨h.inputs[i], hx, hinput, hhx, operandHop_eq_ok_iff.2 ⟨_, hinput, hhx⟩,
    (Graph.input?_iff_of_hop? hh).2 ⟨_, hinput, hhx⟩⟩

theorem exists_operand (wf : g.WellFormed) (hh : g.hop? h.id = some h)
    (hinputs : ∀ x ∈ h.inputs, d.Binds x) {count : Nat} (hcount : h.kind.arity = some count)
    (hi : i < count) : ∃ n, d.operand h i = .ok n := by
  obtain ⟨x, _, hx, _⟩ := exists_input wf hh hcount hi
  obtain ⟨n, hn⟩ := hinputs x (List.mem_of_getElem? hx)
  exact ⟨n, operand_eq_ok_iff.2 ⟨x, hx, hn⟩⟩

/-- The node that a multiply reads is there if the hops below transposes are bound as well. -/
theorem exists_factor (wf : g.WellFormed) (hh : g.hop? h.id = some h)
    (hinputs : ∀ x ∈ h.inputs, d.Binds x) {positions : List Nat}
    (habsorbed : ∀ x ∈ belowTransposes g h positions, d.Binds x) (hm : h.kind = .matmul)
    (hi : i ∈ positions) (hlt : i < 2) : ∃ n, d.factor g h i = .ok n := by
  have hcount : h.kind.arity = some 2 := by rw [hm]; rfl
  obtain ⟨x, hx, _, _, hoperand, hinput⟩ := exists_input wf hh hcount hlt
  rw [factor, hoperand, ok_bind]
  cases hinner : hx.transposed? with
  | none => exact exists_operand wf hh hinputs hcount hlt
  | some inner =>
    have hmem : inner ∈ belowTransposes g h positions :=
      List.mem_filterMap.2 ⟨i, hi, by rw [hinput, Option.bind_some, hinner]⟩
    exact (habsorbed inner hmem).imp fun n hn => node_eq_ok_iff.2 hn

end Draft

/-! ## Fragments -/

section Fragment

variable {g : Graph} {d : Draft} {h : Hop}

/-- With its operands bound, a hop is lowered by the outer-product template unless it is refused. -/
theorem OuterProduct.fragment_outcome (wf : g.WellFormed) (hh : g.hop? h.id = some h)
    (hinputs : ∀ x ∈ h.inputs, d.Binds x) (habsorbed : ∀ x ∈ absorbed g h, d.Binds x) :
    Fails (fragment g d h) (refusal? h) := by
  have operand {i count : Nat} (hcount : h.kind.arity = some count) (hi : i < count) :
      ∃ n, d.operand h i = .ok n := Draft.exists_operand wf hh hinputs hcount hi
  unfold fragment
  split
  case h_1 op hkind =>
    simp only [refusal?, hkind]
    cases op.primitive? with
    | none => exact rfl
    | some prim =>
      obtain ⟨a, ha⟩ := operand (i := 0) (by rw [hkind]; rfl) Nat.zero_lt_one
      exact ⟨_, by rw [ha]; rfl⟩
  case h_2 op hkind =>
    simp only [refusal?, hkind]
    cases op.cellOp? with
    | none => exact rfl
    | some cellOp =>
      obtain ⟨a, ha⟩ := operand (i := 0) (by rw [hkind]; rfl) Nat.zero_lt_two
      obtain ⟨b, hb⟩ := operand (i := 1) (by rw [hkind]; rfl) Nat.one_lt_two
      exact ⟨_, by rw [ha, hb]; rfl⟩
  case h_3 hkind =>
    simp only [refusal?, hkind]
    have hbelow : ∀ x ∈ Draft.belowTransposes g h [0, 1], d.Binds x := by
      simpa [absorbed, Hop.isMatmul, hkind] using habsorbed
    obtain ⟨a, ha⟩ := Draft.exists_factor wf hh hinputs hbelow hkind (i := 0) (by simp) (by omega)
    obtain ⟨b, hb⟩ := Draft.exists_factor wf hh hinputs hbelow hkind (i := 1) (by simp) (by omega)
    rw [ha, hb, ok_bind, ok_bind]
    split
    · exact ⟨_, rfl⟩
    · split
      · exact ⟨_, rfl⟩
      · exact ⟨_, rfl⟩
  case h_4 hkind =>
    simp only [refusal?, hkind]
    obtain ⟨a, ha⟩ := operand (i := 0) (by rw [hkind]; rfl) Nat.zero_lt_one
    exact ⟨_, by rw [ha]; rfl⟩
  case h_5 hkind =>
    simp only [refusal?, hkind]
    obtain ⟨a, ha⟩ := operand (i := 0) (by rw [hkind]; rfl) Nat.zero_lt_one
    exact ⟨_, by rw [ha]; rfl⟩
  case h_6 =>
    unfold refusal?
    split
    all_goals first | exact rfl | simp_all

/-- A replacement is lowered unless a parameter is missing. The parameters are asked for in the order
in which a missing one is reported. -/
theorem RowAgg.replacement_outcome (wf : g.WellFormed) (hh : g.hop? h.id = some h)
    (hinputs : ∀ x ∈ h.inputs, d.Binds x) {params : List (String × Nat)}
    (hkind : h.kind = .builtin .replace params) : Fails (fragment g d h) (refusal? g h) := by
  have bound {name : String} {x : HopId} (hx : g.paramInput h.id name = .ok x) :
      ∃ n hx, d.node x = .ok n ∧ g.hop x = .ok hx := by
    obtain ⟨i, hi⟩ := Graph.exists_input?_of_paramInput hh hx
    have hmem := List.mem_of_getElem? hi
    obtain ⟨n, hn⟩ := hinputs x hmem
    obtain ⟨hx, hhx⟩ := wf.exists_input hh hmem
    exact ⟨n, hx, Draft.node_eq_ok_iff.2 hn, Graph.hop_eq_ok_iff.2 hhx⟩
  simp only [fragment, refusal?, hkind]
  cases htarget : g.paramInput h.id "target" with
  | error e => simp [Fails, htarget, PlanError.ofGraph, bind, Except.bind]
  | ok target =>
    cases hpattern : g.paramInput h.id "pattern" with
    | error e => simp [Fails, htarget, hpattern, PlanError.ofGraph, bind, Except.bind]
    | ok pattern =>
      obtain ⟨b, _, hb, _⟩ := bound hpattern
      cases hreplacement : g.paramInput h.id "replacement" with
      | error e =>
        simp [Fails, htarget, hpattern, hreplacement, PlanError.ofGraph, bind, Except.bind, hb]
      | ok replacement =>
        obtain ⟨c, _, hc, _⟩ := bound hreplacement
        obtain ⟨a, hx, ha, hhx⟩ := bound htarget
        simp [Fails, htarget, hpattern, hreplacement, PlanError.ofGraph, bind, Except.bind, ha,
          hb, hc, hhx, pure, Except.pure]

/-- With its operands bound, a hop is lowered by the row template unless it is refused. -/
theorem RowAgg.fragment_outcome (wf : g.WellFormed) (hh : g.hop? h.id = some h)
    (hinputs : ∀ x ∈ h.inputs, d.Binds x) (habsorbed : ∀ x ∈ absorbed g h, d.Binds x) :
    Fails (fragment g d h) (refusal? g h) := by
  have operand {i count : Nat} (hcount : h.kind.arity = some count) (hi : i < count) :
      ∃ n, d.operand h i = .ok n := Draft.exists_operand wf hh hinputs hcount hi
  have input {i count : Nat} (hcount : h.kind.arity = some count) (hi : i < count) :
      ∃ hx, Draft.operandHop g h i = .ok hx ∧ g.input? h.id i = some hx := by
    obtain ⟨_, hx, _, _, hhop, hinput⟩ := Draft.exists_input wf hh hcount hi
    exact ⟨hx, hhop, hinput⟩
  unfold fragment
  split
  case h_1 hkind =>
    simp only [refusal?, hkind]
    have hcount : h.kind.arity = some 1 := by rw [hkind]; rfl
    obtain ⟨a, ha⟩ := operand hcount (i := 0) (by omega)
    obtain ⟨hx, hhop, _⟩ := input hcount (i := 0) (by omega)
    rw [ha, hhop, ok_bind, ok_bind]
    split
    · exact ⟨_, rfl⟩
    · exact ⟨_, rfl⟩
  case h_2 hkind =>
    simp only [refusal?, hkind]
    obtain ⟨a, ha⟩ := operand (i := 0) (by rw [hkind]; rfl) Nat.zero_lt_one
    exact ⟨_, by rw [ha]; rfl⟩
  case h_3 hkind =>
    simp only [refusal?, hkind]
    have hcount : h.kind.arity = some 2 := by rw [hkind]; rfl
    have hbelow : ∀ x ∈ Draft.belowTransposes g h [0], d.Binds x := by
      simpa [absorbed, Hop.isMatmul, hkind] using habsorbed
    obtain ⟨left, hleft, _⟩ := input hcount (i := 0) (by omega)
    obtain ⟨right, hright, _⟩ := input hcount (i := 1) (by omega)
    obtain ⟨a, ha⟩ := Draft.exists_factor wf hh hinputs hbelow hkind (i := 0) (by simp) (by omega)
    obtain ⟨b, hb⟩ := operand hcount (i := 1) (by omega)
    rw [hleft, hright, ha, hb, ok_bind, ok_bind, ok_bind, ok_bind]
    split
    · exact ⟨_, rfl⟩
    · split
      · exact ⟨_, rfl⟩
      · exact ⟨_, rfl⟩
  case h_4 op hkind =>
    simp only [refusal?, hkind]
    have hcount : h.kind.arity = some 1 := by rw [hkind]; rfl
    cases op.primitive? with
    | none => exact rfl
    | some prim =>
      obtain ⟨a, ha⟩ := operand hcount (i := 0) (by omega)
      obtain ⟨hx, hhop, _⟩ := input hcount (i := 0) (by omega)
      exact ⟨_, by rw [ha, hhop]; rfl⟩
  case h_5 op hkind =>
    have hcount : h.kind.arity = some 2 := by rw [hkind]; rfl
    obtain ⟨a, ha⟩ := operand hcount (i := 0) (by omega)
    obtain ⟨b, hb⟩ := operand hcount (i := 1) (by omega)
    obtain ⟨hx, hhop, hinput⟩ := input hcount (i := 0) (by omega)
    rw [ha, hb, hhop, ok_bind, ok_bind, ok_bind]
    simp only [refusal?, hkind, hinput, Option.any_some]
    split
    · cases op.rowOp? with
      | none => exact rfl
      | some rowOp => exact ⟨_, rfl⟩
    · cases op.cellOp? with
      | none => exact rfl
      | some cellOp => exact ⟨_, rfl⟩
  case h_6 op hkind =>
    simp only [refusal?, hkind]
    have hcount : h.kind.arity = some 3 := by rw [hkind]; rfl
    cases op.primitive? with
    | none => exact rfl
    | some prim =>
      obtain ⟨a, ha⟩ := operand hcount (i := 0) (by omega)
      obtain ⟨b, hb⟩ := operand hcount (i := 1) (by omega)
      obtain ⟨c, hc⟩ := operand hcount (i := 2) (by omega)
      obtain ⟨hx, hhop, _⟩ := input hcount (i := 0) (by omega)
      obtain ⟨hy, hhop', _⟩ := input hcount (i := 2) (by omega)
      exact ⟨_, by rw [ha, hb, hc, hhop, hhop']; rfl⟩
  case h_7 params hkind =>
    have outcome := replacement_outcome wf hh hinputs hkind
    simpa only [fragment, hkind] using outcome
  case h_8 hkind =>
    have hcount : h.kind.arity = some 5 := by rw [hkind]; rfl
    obtain ⟨a, ha⟩ := operand hcount (i := 0) (by omega)
    obtain ⟨upper, hupper⟩ := operand hcount (i := 4) (by omega)
    obtain ⟨hx, hhop, hinput⟩ := input hcount (i := 0) (by omega)
    obtain ⟨hy, hhop', _⟩ := input hcount (i := 4) (by omega)
    rw [hhop, ok_bind]
    simp only [refusal?, hkind, hinput, Option.any_some]
    cases hx.shape.cols with
    | none => exact rfl
    | some cols => exact ⟨_, by rw [ha, hupper, hhop']; rfl⟩
  case h_9 =>
    unfold refusal?
    split
    all_goals first | exact rfl | simp_all

end Fragment

theorem Template.fragment_outcome {t : Template} {g : Graph} {d : Draft} {h : Hop}
    (wf : g.WellFormed) (hh : g.hop? h.id = some h) (hinputs : ∀ x ∈ h.inputs, d.Binds x)
    (habsorbed : ∀ x ∈ t.absorbed g h, d.Binds x) :
    Fails (t.fragment g d h) (t.refusal? g h) := by
  cases t with
  | outerProduct => exact OuterProduct.fragment_outcome wf hh hinputs habsorbed
  | rowAgg => exact RowAgg.fragment_outcome wf hh hinputs habsorbed

/-! ## Regions -/

/-- The region below `root` cannot be lowered, and the error says why: a hop of the region has no
entry of the template, or it has one and is refused. -/
inductive Memo.Blocked (memo : Memo) (t : Template) (g : Graph) (root : HopId) : PlanError → Prop
  | unmatched {x : HopId} {h : Hop} : memo.InRegion t g root x → g.hop? x = some h →
      memo.best? x t = none → Blocked memo t g root (.missingMemoEntry x t)
  | refused {x : HopId} {h : Hop} {entry : MemoEntry} {err : PlanError} :
      memo.InRegion t g root x → g.hop? x = some h → memo.best? x t = some entry →
      t.refusal? g h = some err → Blocked memo t g root err

namespace Draft

variable {t : Template} {g : Graph} {memo : Memo} {config : Config} {d : Draft} {id root : HopId}
  {h : Hop}

/-- Any hop of the graph can be bound from outside. -/
theorem bindBoundary_ends {errors : PlanError → Prop} (hh : g.hop? id = some h) :
    Ends errors (bindBoundary g config d id) := by
  unfold bindBoundary
  split
  · exact .ok d
  · rw [Graph.hop_eq_ok_iff.2 hh]
    exact .ok _

/-- A hop whose inputs are bound is lowered unless it is refused. -/
theorem lower_ends {errors : PlanError → Prop} {e : MemoEntry} (wf : g.WellFormed)
    (hh : g.hop? h.id = some h) (he : memo.best? h.id t = some e)
    (hinputs : ∀ x ∈ h.inputs, d.Binds x) (hrefusal : ∀ e, t.refusal? g h = some e → errors e) :
    Ends errors (lower t g config d h) := by
  have habsorbed : Ends errors ((t.absorbed g h).foldlM (bindBoundary g config) d) := by
    refine .foldlM (fun x hx d => ?_) d
    have hlt : x < g.size := Nat.lt_trans (absorbed_lt wf hh hx) (Graph.lt_size_of_hop? hh)
    obtain ⟨hopx, hhx⟩ := Graph.exists_hop?_iff.2 hlt
    exact bindBoundary_ends hhx
  refine habsorbed.bind fun d' hd' => ?_
  have absorbed : Run t g memo config h.id d d' ∧ ∀ x ∈ t.absorbed g h, d'.Binds x :=
    bindAbsorbed_run wf hh he hd'
  obtain ⟨run, hbound⟩ := absorbed
  have fails := Template.fragment_outcome wf hh (fun x hx => run.precedes.binds (hinputs x hx))
    hbound
  exact (fails.ends hrefusal).bind fun f _ => .ok _

/-- Lowering below a hop of a region succeeds unless it meets a hop of the region that blocks it. -/
theorem lowerBelow_ends (wf : g.WellFormed) {depth : Nat} :
    ∀ {d : Draft} {id : HopId} {h : Hop}, memo.InRegion t g root id → g.hop? id = some h →
      id < depth → Ends (memo.Blocked t g root) (lowerBelow t g memo config depth d id) := by
  induction depth with
  | zero =>
    intro d id h _ _ hlt
    exact absurd hlt (Nat.not_lt_zero _)
  | succ depth ih =>
    intro d id h hregion hh hlt
    by_cases hnew : d.Binds id
    · rw [lowerBelow_of_binds hnew]
      exact .ok d
    · cases he : memo.best? id t with
      | none =>
        rw [lowerBelow_of_unmatched hnew hh he]
        exact .error (.unmatched hregion hh he)
      | some e =>
        obtain rfl := wf.id_eq hh
        rw [lowerBelow_of_not_binds hnew hh he]
        have hinputs : Ends (memo.Blocked t g root)
            (lowerInputs t g memo config depth d h e) := by
          refine .foldlM ?_ d
          rintro ⟨x, i⟩ ha d
          show Ends _ (if e.refersTo i then lowerBelow t g memo config depth d x
            else bindBoundary g config d x)
          have hx : h.input? i = some x := List.mk_mem_zipIdx_iff_getElem?.1 ha
          have hmem := List.mem_of_getElem? hx
          obtain ⟨hopx, hhx⟩ := wf.exists_input hh hmem
          by_cases hrefers : e.refersTo i = true
          · have hbelow : memo.InRegion t g root x := hregion.tail ⟨h, e, i, hh, he, hx, hrefers⟩
            have hdepth := Nat.lt_of_lt_of_le (wf.input_lt hh x hmem) (Nat.le_of_lt_succ hlt)
            rw [if_pos hrefers]
            exact ih hbelow hhx hdepth
          · rw [if_neg hrefers]
            exact bindBoundary_ends hhx
        refine hinputs.bind fun d' hd' => ?_
        have hbound := (lowerInputs_run wf (fun hcall => lowerBelow_lowers wf hcall) hh he hd').2
        exact lower_ends wf hh he hbound fun err herr => .refused hregion hh he herr

/-- The region below a hop of the graph is lowered as a whole unless one of its hops blocks it. -/
theorem ofRegion_ends (wf : g.WellFormed) {table : NodeTable} (hh : g.hop? root = some h) :
    Ends (memo.Blocked t g root) (ofRegion t g memo config table root) :=
  lowerBelow_ends wf .refl hh (Nat.lt_succ_self root)

/-- A hop that has been lowered is not refused. -/
theorem refusal?_of_lowered (wf : g.WellFormed) {table : NodeTable}
    (hd : ofRegion t g memo config table root = .ok d) (hlowered : h.id ∈ d.lowered)
    (hh : g.hop? h.id = some h) : t.refusal? g h = none := by
  obtain ⟨h', e, d₀, f, hid, _, _, ready, _⟩ := ofRegion_lowered wf hd hlowered
  obtain rfl : h = h' := Option.some.inj (hh.symm.trans (hid ▸ ready.hop))
  have fails := Template.fragment_outcome wf hh ready.inputs ready.absorbed
  cases hrefusal : t.refusal? g h with
  | none => rfl
  | some err =>
    rw [hrefusal, ready.fragment] at fails
    have heq : (Except.ok f : Except PlanError Fragment) = .error err := fails
    simp at heq

/-- The limit on the depth does not matter once it is above the hop: inputs descend. -/
theorem lowerBelow_depth (wf : g.WellFormed) {depth : Nat} :
    ∀ {depth' : Nat} {d : Draft} {id : HopId}, id < depth → id < depth' →
      lowerBelow t g memo config depth d id = lowerBelow t g memo config depth' d id := by
  induction depth with
  | zero =>
    intro depth' d id hlt _
    exact absurd hlt (Nat.not_lt_zero _)
  | succ depth ih =>
    intro depth' d id hlt hlt'
    obtain ⟨depth', rfl⟩ := Nat.exists_eq_succ_of_ne_zero (Nat.ne_zero_of_lt hlt')
    by_cases hnew : d.Binds id
    · rw [lowerBelow_of_binds hnew, lowerBelow_of_binds hnew]
    · cases hh : g.hop? id with
      | none => rw [lowerBelow_of_unknown hnew hh, lowerBelow_of_unknown hnew hh]
      | some h =>
        cases he : memo.best? id t with
        | none => rw [lowerBelow_of_unmatched hnew hh he, lowerBelow_of_unmatched hnew hh he]
        | some e =>
          have hinputs : lowerInputs t g memo config depth d h e =
              lowerInputs t g memo config depth' d h e := by
            refine foldlM_congr (fun a ha d => ?_) d
            have hlta := wf.input_lt hh a.1 (List.fst_mem_of_mem_zipIdx ha)
            have hbelow := ih (d := d) (Nat.lt_of_lt_of_le hlta (Nat.le_of_lt_succ hlt))
              (Nat.lt_of_lt_of_le hlta (Nat.le_of_lt_succ hlt'))
            simp only [hbelow]
          rw [lowerBelow_of_not_binds hnew hh he, lowerBelow_of_not_binds hnew hh he, hinputs]

end Draft

/-- In an explored memo the region below a hop with a best entry is matched throughout. -/
theorem Memo.ExploredBy.matched {memo : Memo} {g : Graph} {config : Config} {done : List HopId}
    {t : Template} {root : HopId} {e : MemoEntry} (explored : memo.ExploredBy g config done)
    (hbest : memo.best? root t = some e) {x : HopId} (hx : memo.InRegion t g root x) :
    ∃ h, g.hop? x = some h ∧ ∃ e, memo.best? x t = some e := by
  have best : ∃ e, memo.best? x t = some e := by
    rcases Relation.ReflTransGen.cases_tail hx with rfl | ⟨y, _, hrefers⟩
    · exact ⟨e, hbest⟩
    · exact exists_best?_of_hasOpen (explored.hasOpen_of_refers hrefers)
  obtain ⟨e', he'⟩ := best
  obtain ⟨h, hh, _⟩ := explored.best he'
  exact ⟨h, hh, e', he'⟩

end OpFusion
