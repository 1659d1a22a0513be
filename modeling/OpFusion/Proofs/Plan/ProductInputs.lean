import OpFusion.Proofs.InputOrder
import OpFusion.Proofs.Memo.Product
import OpFusion.Proofs.Plan.Closed
import OpFusion.Proofs.Plan.Inputs

/-!
# Inputs of outer-product kernels

An outer-product kernel is passed its main matrix and the two factors first, whether its body reads
them or not, and then each other hop that the body reads (`Plan.outerProduct_inputs`). The three
parts are found one by one, and one hop may play several of them. It is passed several times then,
so no hop is passed twice exactly if three hops play the parts
(`Plan.outerProduct_inputs_nodup_iff`).
-/

namespace OpFusion

open Kernel

/-- Whatever has more rows than columns, or more columns than rows, is no literal. -/
theorem Graph.IsTyped.literal?_eq_none {g : Graph} {id : HopId} {h : Hop} (typed : g.IsTyped)
    (hh : g.hop? id = some h) (hlarger : isLarger h.shape.rows h.shape.cols = true ∨
      isLarger h.shape.cols h.shape.rows = true) : h.literal? = none := by
  cases hliteral : h.literal? with
  | none => rfl
  | some value =>
    have hkind := Hop.exists_literal_of_literal? hliteral
    rw [typed.shape_of_literal hh hkind] at hlarger
    simp [Shape.scalar, isLarger] at hlarger

namespace OuterProduct

variable {memo : Memo} {g : Graph} {config : Config} {done : List HopId} {table : NodeTable}
  {d : Draft} {plan : Plan} {root id x main left right : HopId} {h : Hop}

/-! ## The parts -/

/-- A hop designates a variable as main matrix if that is a side of a binary operator on equally
large operands. The left side comes before the right one. -/
inductive Designates (g : Graph) (id x : HopId) : Prop
  | left {h hx : Hop} {op : BinaryOp} {y : HopId} (hop : g.hop? id = some h)
      (kind : h.kind = .binary op) (side : h.input? 0 = some x) (other : h.input? 1 = some y)
      (size : g.isEqualSize x y = true) (found : g.hop? x = some hx) (source : hx.isData = true)
  | right {h hx hy : Hop} {op : BinaryOp} {y : HopId} (hop : g.hop? id = some h)
      (kind : h.kind = .binary op) (other : h.input? 0 = some y) (side : h.input? 1 = some x)
      (size : g.isEqualSize y x = true) (found : g.hop? x = some hx) (source : hx.isData = true)
      (foundOther : g.hop? y = some hy) (noSource : hy.isData = false)

/-- The main matrix is found as designated. -/
theorem mainOf?_eq_some_iff (wf : g.WellFormed) : mainOf? g id = some x ↔ Designates g id x := by
  constructor
  · intro hmain
    obtain ⟨⟨a, b⟩, hoperands, hmain⟩ := Option.bind_eq_some_iff.1 hmain
    obtain ⟨h, op, hh, hkind, ha, hb⟩ := Graph.binaryOperands?_eq_some_iff.1 hoperands
    obtain ⟨y, hy, hay⟩ := (Graph.input?_iff_of_hop? hh).1 ha
    obtain ⟨z, hz, hbz⟩ := (Graph.input?_iff_of_hop? hh).1 hb
    obtain rfl := wf.id_eq hay
    obtain rfl := wf.id_eq hbz
    simp only at hmain
    split at hmain
    · rename_i hsize
      cases hsource : a.isData with
      | true =>
        obtain rfl : a.id = x := by simpa [hsource] using hmain
        exact .left hh hkind hy hz hsize hay hsource
      | false =>
        cases hsource' : b.isData with
        | true =>
          obtain rfl : b.id = x := by simpa [hsource, hsource'] using hmain
          exact .right hh hkind hy hz hsize hbz hsource' hay hsource
        | false => simp [hsource, hsource'] at hmain
    · simp at hmain
  · intro designates
    have operands {h a b : Hop} {op : BinaryOp} {y z : HopId} (hh : g.hop? id = some h)
        (hkind : h.kind = .binary op) (hy : h.input? 0 = some y) (hz : h.input? 1 = some z)
        (ha : g.hop? y = some a) (hb : g.hop? z = some b) :
        g.binaryOperands? id = some (a, b) :=
      Graph.binaryOperands?_eq_some_iff.2 ⟨h, op, hh, hkind,
        (Graph.input?_iff_of_hop? hh).2 ⟨y, hy, ha⟩, (Graph.input?_iff_of_hop? hh).2 ⟨z, hz, hb⟩⟩
    cases designates with
    | left hh hkind hx hy hsize hhx hsource =>
      obtain ⟨b, hb⟩ := wf.exists_input hh (List.mem_of_getElem? hy)
      rw [mainOf?, operands hh hkind hx hy hhx hb]
      simp [wf.id_eq hhx, wf.id_eq hb, hsize, hsource]
    | right hh hkind hy hx hsize hhx hsource hhy hno =>
      rw [mainOf?, operands hh hkind hy hx hhy hhx]
      simp [wf.id_eq hhx, wf.id_eq hhy, hsize, hsource, hno]

/-- What is designated is a variable that the hop reads. -/
theorem Designates.cases (designates : Designates g id x) :
    ∃ h hx, g.hop? id = some h ∧ x ∈ h.inputs ∧ g.hop? x = some hx ∧ hx.isData = true := by
  cases designates with
  | left hh _ hx _ _ hhx hsource => exact ⟨_, _, hh, List.mem_of_getElem? hx, hhx, hsource⟩
  | right hh _ _ hx _ hhx hsource => exact ⟨_, _, hh, List.mem_of_getElem? hx, hhx, hsource⟩

/-- Which hops play the parts in a lowered region: the last hop that designates a main matrix
decides on it, and the one product of factors has them as operands, where the right one is taken
from below a transpose. -/
structure Roles (memo : Memo) (g : Graph) (d : Draft) (root main left right : HopId) : Prop where
  main : IsLatest (Designates g) d.lowered (some main)
  factors : ∃ p x y, memo.InRegion .outerProduct g root p ∧ g.isOuterProductLike p = true ∧
    (∀ q, memo.InRegion .outerProduct g root q → g.isOuterProductLike q = true → q = p) ∧
    g.input? p 0 = some x ∧ g.input? p 1 = some y ∧ x.id = left ∧ y.transposed?.getD y.id = right

/-! ## The nodes of the parts -/

/-- Variables do not belong to regions, so the main matrix is bound to its kernel input. -/
theorem bindsInput_of_designates (explored : memo.ExploredBy g config done) (wf : g.WellFormed)
    (hd : Draft.ofRegion .outerProduct g memo config table root = .ok d) (hid : id ∈ d.lowered)
    (designates : Designates g id x) : d.BindsInput g x := by
  obtain ⟨h, hx, hh, hmem, hhx, hsource⟩ := designates.cases
  obtain rfl := wf.id_eq hh
  have hbound : d.Binds x := binds_of_lowered wf hd hid hh (.inl hmem)
  have hleaf : hx.kind.arity = some 0 ∧ hx.literal? = none := by
    unfold Hop.isData at hsource
    split at hsource
    · rename_i name hkind
      simp [hkind, Operator.arity, Hop.literal?]
    · simp at hsource
  refine Draft.bindsInput_of_not_lowered wf hd hbound (fun hlowered => ?_) hhx hleaf.2
  obtain ⟨h', e, _, _, rfl, _, _, ready, _⟩ := Draft.ofRegion_lowered wf hd hlowered
  obtain rfl : hx = h' := Option.some.inj (hhx.symm.trans ready.hop)
  exact explored.not_leaf ready.hop ready.best hleaf.1

/-- The factors come before their product. -/
theorem lt_of_factorsOf? (wf : g.WellFormed) (hfactors : factorsOf? g id = some (left, right)) :
    left < id ∧ right < id := by
  obtain ⟨_, x, _, hx, _⟩ := factorsOf?_eq_some_iff.1 hfactors
  obtain ⟨h, _, hh, _⟩ := Graph.input?_eq_some_iff.1 hx
  obtain rfl := wf.id_eq hh
  obtain ⟨hleft, hright⟩ := mem_of_factorsOf? hh wf hfactors
  refine ⟨wf.input_lt hh left hleft, ?_⟩
  rcases hright with hright | hright
  · exact wf.input_lt hh right hright
  · exact Draft.absorbed_lt (t := .outerProduct) wf hh hright

/-- No factor is a literal: the one has more rows than columns, and the other as well where it is
transposed, or else more columns than rows. -/
theorem hop?_of_factorsOf? (typed : g.IsTyped) (hfactors : factorsOf? g id = some (left, right)) :
    (∃ h, g.hop? left = some h ∧ h.literal? = none) ∧
      ∃ h, g.hop? right = some h ∧ h.literal? = none := by
  have wf := typed.isBuilt.wellFormed
  obtain ⟨hlike, x, y, hx, hy, rfl, rfl⟩ := factorsOf?_eq_some_iff.1 hfactors
  obtain ⟨x', y', hx', hy', htall, hwide⟩ := Graph.operands_of_isOuterProductLike hlike
  obtain rfl : x = x' := Option.some.inj (hx.symm.trans hx')
  obtain rfl : y = y' := Option.some.inj (hy.symm.trans hy')
  obtain ⟨_, x', _, _, hhx⟩ := Graph.input?_eq_some_iff.1 hx
  obtain ⟨_, y', _, _, hhy⟩ := Graph.input?_eq_some_iff.1 hy
  obtain rfl := wf.id_eq hhx
  obtain rfl := wf.id_eq hhy
  refine ⟨⟨x, hhx, typed.literal?_eq_none hhx (.inl htall)⟩, ?_⟩
  cases hinner : y.transposed? with
  | none => exact ⟨y, hhy, typed.literal?_eq_none hhy (.inr hwide)⟩
  | some inner =>
    obtain ⟨hkind, hinner⟩ := Hop.transposed?_eq_some_iff.1 hinner
    obtain ⟨z, hz⟩ := wf.exists_input hhy (List.mem_of_getElem? hinner)
    have hinput : g.input? y.id 0 = some z := (Graph.input?_iff_of_hop? hhy).2 ⟨inner, hinner, hz⟩
    -- The transposed matrix is as tall as its transpose is wide.
    rw [typed.shape_of_transpose hhy hkind hinput] at hwide
    exact ⟨z, hz, typed.literal?_eq_none hz (.inl hwide)⟩

/-- Every hop of a region has the product below it, so what comes before that lies outside. -/
theorem not_mem_lowered_of_lt (explored : memo.ExploredBy g config done) (typed : g.IsTyped)
    (hd : Draft.ofRegion .outerProduct g memo config table root = .ok d)
    (hid : memo.InRegion .outerProduct g root id) (hlike : g.isOuterProductLike id = true)
    (hlt : x < id) : x ∉ d.lowered := by
  intro hlowered
  have hregion := (mem_lowered_iff explored typed hd).1 hlowered
  have hle := Memo.InRegion.le typed.isBuilt.wellFormed
    (explored.inRegion_product typed hregion hid hlike)
  exact absurd hlt (Nat.not_lt.2 hle)

/-- The factors come before the product, so they are bound to their kernel inputs. -/
theorem bindsInput_of_factorsOf? (explored : memo.ExploredBy g config done) (typed : g.IsTyped)
    (hd : Draft.ofRegion .outerProduct g memo config table root = .ok d)
    (hid : memo.InRegion .outerProduct g root id)
    (hfactors : factorsOf? g id = some (left, right)) (hleft : d.Binds left)
    (hright : d.Binds right) : d.BindsInput g left ∧ d.BindsInput g right := by
  have wf := typed.isBuilt.wellFormed
  have outside {x : HopId} (hlt : x < id) : x ∉ d.lowered :=
    not_mem_lowered_of_lt explored typed hd hid (isOuterProductLike_of_factorsOf? hfactors) hlt
  obtain ⟨hltleft, hltright⟩ := lt_of_factorsOf? wf hfactors
  obtain ⟨⟨hl, hhl, hliteralleft⟩, hr, hhr, hliteralright⟩ := hop?_of_factorsOf? typed hfactors
  exact ⟨Draft.bindsInput_of_not_lowered wf hd hleft (outside hltleft) hhl hliteralleft,
    Draft.bindsInput_of_not_lowered wf hd hright (outside hltright) hhr hliteralright⟩

/-! ## The layout -/

/-- How the inputs of an outer-product kernel are laid out: the three parts, and then the rest. -/
structure LaysOut (g : Graph) (d : Draft) (main left right : HopId) (rest : List HopId)
    (plan : Plan) : Prop where
  /-- Main matrix and factors come first. -/
  split : plan.inputs = [main, left, right] ++ rest
  /-- No other hop is passed twice. -/
  nodup : rest.Nodup
  /-- The others come in the order in which the region's boundary was met. -/
  order : rest.Sublist d.boundary
  /-- Beside the parts, what the body reads is passed, and nothing else. -/
  mem_iff : ∀ x, x ∈ rest ↔ x ∉ [main, left, right] ∧ plan.table.Reads plan.output x
  /-- The arguments are the kernel inputs for these hops. -/
  binds : plan.BindsInputs g
  /-- Whatever the body reads is passed at some position. -/
  found : ∀ x, plan.table.Reads plan.output x → ∃ i, plan.inputPosition? x = some i

theorem inRole_eq_ok_iff {role : FactorRole} {id? : Option HopId} {id : HopId} :
    inRole role id? = .ok id ↔ id? = some id := by
  unfold inRole
  cases id? <;> simp

/-- The parts are those found last, and beside them a plan passes what is read. -/
theorem of_plan_eq_ok (hplan : OuterProduct.plan g d root = .ok plan) :
    ∃ main left right, d.lowered.reverse.findSome? (mainOf? g) = some main ∧
      d.lowered.reverse.findSome? (factorsOf? g) = some (left, right) ∧
      plan.LaidOver d root ∧ plan.inputs = (pinFirst [main, left, right] d.boundary).filter
        (fun id => id ∈ [main, left, right] ∨ id ∈ plan.hopsRead) := by
  obtain ⟨output, houtput, hplan⟩ := bind_eq_ok_iff.1 hplan
  obtain ⟨main, hmain, hplan⟩ := bind_eq_ok_iff.1 hplan
  obtain ⟨left, hleft, hplan⟩ := bind_eq_ok_iff.1 hplan
  obtain ⟨right, hright, hplan⟩ := bind_eq_ok_iff.1 hplan
  obtain ⟨arguments, harguments, hplan⟩ := bind_eq_ok_iff.1 hplan
  obtain ⟨h, _, hplan⟩ := bind_eq_ok_iff.1 hplan
  obtain ⟨⟨left', right'⟩, hfactors, rfl⟩ := Option.map_eq_some_iff.1 (inRole_eq_ok_iff.1 hleft)
  have hright := inRole_eq_ok_iff.1 hright
  rw [hfactors] at hright
  obtain rfl : right' = right := Option.some.inj hright
  split at hplan
  · simp at hplan
  · obtain rfl := pure_eq_ok_iff.1 hplan
    exact ⟨main, left', right', inRole_eq_ok_iff.1 hmain, hfactors,
      ⟨rfl, Draft.node_eq_ok_iff.1 houtput, harguments⟩, rfl⟩

/-- The hops that are found play the parts, and they are bound to their kernel inputs. -/
theorem roles_of_found (explored : memo.ExploredBy g config done) (typed : g.IsTyped)
    (hd : Draft.ofRegion .outerProduct g memo config table root = .ok d)
    (hmain : d.lowered.reverse.findSome? (mainOf? g) = some main)
    (hfactors : d.lowered.reverse.findSome? (factorsOf? g) = some (left, right)) :
    Roles memo g d root main left right ∧ ∀ x ∈ [main, left, right], d.BindsInput g x := by
  have wf := typed.isBuilt.wellFormed
  have latest : IsLatest (Designates g) d.lowered (some main) := by
    rw [← hmain]
    exact isLatest_findSome? fun id _ x => mainOf?_eq_some_iff wf
  have hbindsmain : d.BindsInput g main := by
    obtain ⟨before, id, after, hsplit, designates, _⟩ := latest
    have hid : id ∈ d.lowered := by
      rw [hsplit]
      exact List.mem_append_right _ List.mem_cons_self
    exact bindsInput_of_designates explored wf hd hid designates
  obtain ⟨h, e, _, _, rfl, _, _, ready, _⟩ :=
    Draft.ofRegion_lowered wf hd (Draft.mem_lowered_of_ofRegion wf hd)
  obtain ⟨left', right', hfactors', _, ⟨p, hp, hproduct⟩, hboundleft, hboundright⟩ :=
    exists_factors explored typed ready.best hd
  obtain ⟨rfl, rfl⟩ : left' = left ∧ right' = right := by
    rw [hfactors] at hfactors'
    simpa [eq_comm] using hfactors'
  obtain ⟨hbindsleft, hbindsright⟩ :=
    bindsInput_of_factorsOf? explored typed hd hp hproduct hboundleft hboundright
  obtain ⟨hlike, x, y, hx, hy, hleft, hright⟩ := factorsOf?_eq_some_iff.1 hproduct
  refine ⟨⟨latest, p, x, y, hp, hlike, fun q hq hlikeq => ?_, hx, hy, hleft, hright⟩, ?_⟩
  · exact explored.product_unique typed hq hp hlikeq hlike
  · simp [hbindsmain, hbindsleft, hbindsright]

/-- A plan that passes parts bound to kernel inputs, and what is read, lays out its inputs. -/
theorem laysOut_of_inputs (wf : g.WellFormed)
    (hd : Draft.ofRegion .outerProduct g memo config table root = .ok d)
    (laidOver : plan.LaidOver d root)
    (hinputs : plan.inputs = (pinFirst [main, left, right] d.boundary).filter
      (fun id => id ∈ [main, left, right] ∨ id ∈ plan.hopsRead))
    (hbinds : ∀ x ∈ [main, left, right], d.BindsInput g x) :
    ∃ rest, LaysOut g d main left right rest plan := by
  have split : plan.inputs = [main, left, right] ++ d.boundary.filter
      (fun x => x ∉ [main, left, right] ∧ x ∈ plan.hopsRead) := by
    rw [hinputs, filter_pinFirst]
  have mem_iff (x : HopId) :
      x ∈ d.boundary.filter (fun x => x ∉ [main, left, right] ∧ x ∈ plan.hopsRead) ↔
        x ∉ [main, left, right] ∧ plan.table.Reads plan.output x := by
    rw [List.mem_filter, decide_eq_true_eq, laidOver.mem_hopsRead_iff wf hd, and_iff_right_iff_imp]
    rintro ⟨_, hreads⟩
    exact laidOver.mem_boundary_of_reads wf hd hreads
  refine ⟨_, split, (Draft.accounted_of_ofRegion wf hd).nodup_boundary.filter _,
    List.filter_sublist, mem_iff, ?_, ?_⟩
  · refine laidOver.bindsInputs fun x hx => ?_
    rw [split, List.mem_append] at hx
    rcases hx with hx | hx
    · exact hbinds x hx
    · exact laidOver.bindsInput_of_reads wf hd ((mem_iff x).1 hx).2
  · intro x hreads
    apply Plan.exists_inputPosition?
    rw [split, List.mem_append, mem_iff]
    by_cases hx : x ∈ [main, left, right]
    · exact .inl hx
    · exact .inr ⟨hx, hreads⟩

/-- The plan for a region of an explored memo lays out its inputs. -/
theorem laysOut_of_construct (explored : memo.ExploredBy g config done) (typed : g.IsTyped)
    (hplan : Plan.construct .outerProduct g memo config table root = .ok plan) :
    ∃ d main left right rest,
      Draft.ofRegion .outerProduct g memo config table root = .ok d ∧
      Roles memo g d root main left right ∧ LaysOut g d main left right rest plan := by
  obtain ⟨d, hd, hplan⟩ := bind_eq_ok_iff.1 hplan
  obtain ⟨main, left, right, hmain, hfactors, laidOver, hinputs⟩ := of_plan_eq_ok hplan
  obtain ⟨roles, hbinds⟩ := roles_of_found explored typed hd hmain hfactors
  obtain ⟨rest, layout⟩ := laysOut_of_inputs typed.isBuilt.wellFormed hd laidOver hinputs hbinds
  exact ⟨d, main, left, right, rest, hd, roles, layout⟩

/-- A hop is passed twice only if it plays two parts. -/
theorem LaysOut.nodup_iff {rest : List HopId} (layout : LaysOut g d main left right rest plan) :
    plan.inputs.Nodup ↔ main ≠ left ∧ main ≠ right ∧ left ≠ right := by
  have outside : ∀ x ∈ rest, x ∉ [main, left, right] := fun x hx => ((layout.mem_iff x).1 hx).1
  have disjoint : List.Disjoint [main, left, right] rest := fun x hx hx' => outside x hx' hx
  rw [layout.split, List.nodup_append']
  constructor
  · rintro ⟨parts, _, _⟩
    simpa [and_assoc] using parts
  · rintro ⟨hml, hmr, hlr⟩
    exact ⟨by simp [hml, hmr, hlr], layout.nodup, disjoint⟩

end OuterProduct

/-- In a typed graph the plan for an outer-product region of an explored memo passes the main matrix
and the factors first, and then each other hop that its body reads, once and in the order in which
the boundary was met. Each is passed through its own kernel input. -/
theorem Plan.outerProduct_inputs {g : Graph} (typed : g.IsTyped) (config : Config)
    (roots : List HopId) {table : NodeTable} {root : HopId} {plan : Plan}
    (hplan : Plan.construct .outerProduct g (Memo.empty.explore g config roots).1 config table
      root = .ok plan) :
    ∃ d main left right rest, Draft.ofRegion .outerProduct g
        (Memo.empty.explore g config roots).1 config table root = .ok d ∧
      OuterProduct.Roles (Memo.empty.explore g config roots).1 g d root main left right ∧
      OuterProduct.LaysOut g d main left right rest plan :=
  OuterProduct.laysOut_of_construct
    (Memo.exploredBy_explore typed.isBuilt.wellFormed config roots) typed hplan

/-- The plan for the weighted sum of the cells of a product. -/
def Plan.ofWeighted : Plan :=
  (Plan.construct .outerProduct Memo.weighted Memo.ofWeighted .default .empty 6).toOption.getD
    ⟨[], .empty, [], 0, .outerProduct .aggregate false⟩

theorem Plan.outerProduct_inputs_weighted :
    Plan.construct .outerProduct Memo.weighted Memo.ofWeighted .default .empty 6 = .ok ofWeighted ∧
      ofWeighted.inputs = [0, 1, 2] ∧
      ∃ d main left right rest, Draft.ofRegion .outerProduct Memo.weighted Memo.ofWeighted .default
          .empty 6 = .ok d ∧
        OuterProduct.Roles Memo.ofWeighted Memo.weighted d 6 main left right ∧
        OuterProduct.LaysOut Memo.weighted d main left right rest ofWeighted := by
  have typed : Memo.weighted.IsTyped := ⟨Memo.weightedRequests, by decide, rfl⟩
  have hplan : Plan.construct .outerProduct Memo.weighted Memo.ofWeighted .default .empty 6 =
      .ok ofWeighted := by decide +kernel
  exact ⟨hplan, by decide +kernel, outerProduct_inputs typed .default [6] hplan⟩

/-- No hop is passed twice, and each is found at its position, exactly if three different hops play
the parts of main matrix, left and right factor. -/
theorem Plan.outerProduct_inputs_nodup_iff {g : Graph} (typed : g.IsTyped) (config : Config)
    (roots : List HopId) {table : NodeTable} {root : HopId} {plan : Plan}
    (hplan : Plan.construct .outerProduct g (Memo.empty.explore g config roots).1 config table
      root = .ok plan) :
    ∃ d main left right, Draft.ofRegion .outerProduct g
        (Memo.empty.explore g config roots).1 config table root = .ok d ∧
      OuterProduct.Roles (Memo.empty.explore g config roots).1 g d root main left right ∧
      (plan.inputs.Nodup ↔ main ≠ left ∧ main ≠ right ∧ left ≠ right) ∧
      ((∀ i x, plan.inputs[i]? = some x → plan.inputPosition? x = some i) ↔
        main ≠ left ∧ main ≠ right ∧ left ≠ right) := by
  have explored := Memo.exploredBy_explore typed.isBuilt.wellFormed config roots
  obtain ⟨d, main, left, right, rest, hd, roles, layout⟩ :=
    OuterProduct.laysOut_of_construct explored typed hplan
  exact ⟨d, main, left, right, hd, roles, layout.nodup_iff,
    Plan.nodup_inputs_iff.symm.trans layout.nodup_iff⟩

theorem Plan.outerProduct_inputs_nodup_iff_weighted :
    Plan.construct .outerProduct Memo.weighted Memo.ofWeighted .default .empty 6 = .ok ofWeighted ∧
      ofWeighted.inputs.Nodup ∧
      ∃ d main left right, Draft.ofRegion .outerProduct Memo.weighted Memo.ofWeighted .default
          .empty 6 = .ok d ∧
        OuterProduct.Roles Memo.ofWeighted Memo.weighted d 6 main left right ∧
        main ≠ left ∧ main ≠ right ∧ left ≠ right := by
  have typed : Memo.weighted.IsTyped := ⟨Memo.weightedRequests, by decide, rfl⟩
  have hplan : Plan.construct .outerProduct Memo.weighted Memo.ofWeighted .default .empty 6 =
      .ok ofWeighted := by decide +kernel
  have hnodup : ofWeighted.inputs.Nodup := by decide +kernel
  obtain ⟨d, main, left, right, hd, roles, hiff, _⟩ :=
    outerProduct_inputs_nodup_iff typed .default [6] hplan
  exact ⟨hplan, hnodup, d, main, left, right, hd, roles, hiff.1 hnodup⟩

/-- The cells of the product of a matrix with its own transpose, weighted by a matrix and summed up:
`sum(X * (U %*% t(U)))`. -/
def Plan.gram : Graph :=
  Graph.empty.build [.data "X" 300 300, .data "U" 300 10, .transpose 1, .matmul 1 2,
    .binary .mult 0 3, .sum 4]

/-- The plan for that sum. -/
def Plan.ofGram : Plan :=
  (Plan.construct .outerProduct gram (Memo.empty.explore gram .default [5]).1 .default .empty
    5).toOption.getD ⟨[], .empty, [], 0, .outerProduct .aggregate false⟩

/-- The matrix plays both factors of the product with its own transpose, so it is passed twice and
found at the first position only. -/
theorem Plan.gram_passes_factor_twice :
    gram.IsTyped ∧
      Plan.construct .outerProduct gram (Memo.empty.explore gram .default [5]).1 .default .empty 5 =
        .ok ofGram ∧
      ofGram.inputs = [0, 1, 1] ∧ ¬ ofGram.inputs.Nodup ∧
      ofGram.inputs[2]? = some 1 ∧ ofGram.inputPosition? 1 = some 1 :=
  ⟨⟨_, by decide, rfl⟩, by decide +kernel, by decide +kernel, by decide +kernel, by decide +kernel,
    by decide +kernel⟩

end OpFusion
