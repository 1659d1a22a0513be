import OpFusion.Proofs.Plan.LoweredNodes
import OpFusion.Proofs.Plan.RowInputs

/-!
# Operands of row kernels

Whatever a lowered hop is made from lies below the node of one of its operand hops
(`RowAgg.Becomes.leaves_fromOperand`). So what a row kernel reads is an operand hop of a hop that
was lowered (`RowAgg.exists_reader`). The hop at the left of a multiply is its operand hop unless it
is a transpose, which the multiply takes over: then what is transposed is. A transpose is therefore
read only where it stands elsewhere, or where it is transposed once more
(`Plan.rowAgg_transposes`).
-/

namespace OpFusion

open Kernel

namespace RowAgg

variable {g : Graph} {d : Draft} {memo : Memo} {config : Config} {table : NodeTable} {h : Hop}
  {e : MemoEntry} {f : Fragment} {root x y : HopId} {a n m top : NodeId} {p : NodeOp → Bool}

/-! ## Where leaves come from -/

/-- The node lies below that of an operand hop. -/
def FromOperand (g : Graph) (d : Draft) (h : Hop) (a : NodeId) : Prop :=
  ∃ i y m, Template.operandHop? .rowAgg g h i = some y ∧ d.node? y = some m ∧
    Dag.Reaches d.table.operands m a

/-- A column sum is made from its operand, or from what its operand is made from. -/
theorem fromOperand_sumColumns (hm : FromOperand g d h m) :
    ∀ a ∈ (sumColumns d.table m).leaves, FromOperand g d h a := by
  unfold sumColumns
  split
  · rename_i op row cell dataType shape hn
    intro a ha
    obtain ⟨i, y, n, hi, hy, reached⟩ := hm
    refine ⟨i, y, n, hi, hy, reached.tail ?_⟩
    rw [NodeTable.operands_of_node? hn]
    simpa [NodeOp.operands, Fragment.leaves] using ha
  · intro a ha
    rwa [List.mem_singleton.1 ha]

/-- What a hop becomes is made from the nodes of its operand hops, or from what lies below them. -/
theorem Becomes.leaves_fromOperand (hh : g.hop? h.id = some h) (becomes : Becomes g d h f) :
    ∀ a ∈ f.leaves, FromOperand g d h a := by
  have input {i : Nat} {y : HopId} {m : NodeId} (hm : h.isMatmul = false ∨ i ≠ 0)
      (hi : h.input? i = some y) (hy : d.node? y = some m) : FromOperand g d h m := by
    refine ⟨i, y, m, ?_, hy, .refl⟩
    rcases hm with hm | hi0
    · rw [Template.operandHop?_of_not_matmul hm, hi]
    · rw [Template.operandHop?_of_not_absorbing (by simpa [Template.absorbing] using hi0), hi]
  have operand {i : Nat} {m : NodeId} (hmatmul : h.isMatmul = false ∨ i ≠ 0)
      (hm : d.operand h i = .ok m) : FromOperand g d h m := by
    obtain ⟨y, hi, hy⟩ := Draft.operand_eq_ok_iff.1 hm
    exact input hmatmul hi hy
  have factor {m : NodeId} (hkind : h.kind = .matmul) (hm : d.factor g h 0 = .ok m) :
      FromOperand g d h m := by
    have hmatmul : h.isMatmul = true := by simp [Hop.isMatmul, hkind]
    have hnode := Template.operandNode_of_factor (t := .rowAgg) hh hmatmul (by decide) hm
    obtain ⟨y, hy, hm⟩ := Template.operandNode_eq_ok_iff.1 hnode
    exact ⟨0, y, m, hy, hm, .refl⟩
  have param {name : String} {y : HopId} {m : NodeId} (hmatmul : h.isMatmul = false)
      (hy : g.paramInput h.id name = .ok y) (hm : d.node y = .ok m) : FromOperand g d h m := by
    obtain ⟨i, hi⟩ := Graph.exists_input?_of_paramInput hh hy
    exact input (.inl hmatmul) hi (Draft.node_eq_ok_iff.1 hm)
  have other {kind : Operator} (hkind : h.kind = kind) (hne : kind ≠ .matmul) :
      h.isMatmul = false := by simpa [Hop.isMatmul, hkind] using hne
  cases becomes with
  | rowSumOfColumn hkind ha => simpa using operand (.inl (other hkind (by simp))) ha
  | rowSum hkind ha =>
    simpa [Fragment.leaves] using operand (.inl (other hkind (by simp))) ha
  | columnSum hkind ha => exact fromOperand_sumColumns (operand (.inl (other hkind (by simp))) ha)
  | addedRows hkind _ _ ha hb =>
    simpa [Fragment.leaves] using ⟨factor hkind ha, operand (.inr (by decide)) hb⟩
  | productOfCells hkind ha hb =>
    simpa [Fragment.leaves] using ⟨factor hkind ha, operand (.inr (by decide)) hb⟩
  | dotProduct hkind ha hb =>
    simpa [Fragment.leaves] using ⟨factor hkind ha, operand (.inr (by decide)) hb⟩
  | unary hkind _ _ ha => simpa [Fragment.leaves] using operand (.inl (other hkind (by simp))) ha
  | rowAndCell hkind _ _ _ ha hb =>
    have hne := other hkind (by simp)
    simpa [Fragment.leaves] using ⟨operand (.inl hne) ha, operand (.inl hne) hb⟩
  | cells hkind _ ha hb =>
    have hne := other hkind (by simp)
    simpa [Fragment.leaves] using ⟨operand (.inl hne) ha, operand (.inl hne) hb⟩
  | ternary hkind _ ha hb hc =>
    have hne := other hkind (by simp)
    simpa [Fragment.leaves] using
      ⟨operand (.inl hne) ha, operand (.inl hne) hb, operand (.inl hne) hc⟩
  | replace hkind _ ha hb hc _ hx hy hz =>
    have hne := other hkind (by simp)
    simpa [Fragment.leaves] using ⟨param hne hx ha, param hne hy hb, param hne hz hc⟩
  | cellOfLiteral hkind ha =>
    simpa [Fragment.leaves] using operand (.inl (other hkind (by simp))) ha
  | cellOfNode hkind ha hupper =>
    have hne := other hkind (by simp)
    simpa [Fragment.leaves] using ⟨operand (.inl hne) ha, operand (.inl hne) hupper⟩

/-! ## Who reads a hop -/

/-- A lowered hop has the hop `y` as an operand hop. -/
def HasReader (g : Graph) (d : Draft) (y : HopId) : Prop :=
  ∃ h i, h.id ∈ d.lowered ∧ g.hop? h.id = some h ∧ Template.operandHop? .rowAgg g h i = some y

/-- A hop from outside that is read below the node of `x` is `x` itself, or an operand hop of a
lowered hop: by induction on the number of `x`, since its node is made from what lies below the
nodes of its operand hops. -/
theorem eq_or_hasReader (wf : g.WellFormed)
    (hd : Draft.ofRegion .rowAgg g memo config table root = .ok d) :
    ∀ x, d.Has (NodeOp.reads y) x → (x ∈ d.boundary ∧ y = x) ∨ HasReader g d y := by
  intro x
  induction x using Nat.strong_induction_on with
  | _ x ih =>
    rintro ⟨n, hn, hhas⟩
    rcases Draft.mem_lowered_or_mem_boundary ⟨n, hn⟩ with hlowered | hboundary
    · obtain ⟨h, e, f, top, n', rfl, made⟩ := Draft.exists_made wf hd hlowered
      obtain rfl : n = n' := Option.some.inj (hn.symm.trans made.node)
      -- No fragment has a kernel input of its own, so it is below one of the leaves.
      have hadmits : f.Admits fun op => !op.reads y := f.admits_of_isData fun op hop => by
        cases op with
        | data => simp [NodeOp.isData] at hop
        | _ => rfl
      obtain ⟨a, ha, hhas⟩ := made.computes.exists_leaf hadmits (made.has_iff.1 hhas)
      have becomes : Becomes g d h f := made.becomes
      obtain ⟨i, z, m, hz, hm, reached⟩ := becomes.leaves_fromOperand made.hop a ha
      obtain ⟨id, k, hreaches, hk, hreads⟩ := hhas
      have hlt : z < h.id := Template.operandHop?_lt wf made.hop hz
      rcases ih z hlt ⟨m, hm, id, k, reached.trans hreaches, hk, hreads⟩ with ⟨_, rfl⟩ | hreader
      · exact .inr ⟨h, i, hlowered, made.hop, hz⟩
      · exact .inr hreader
    · obtain ⟨h, n', hh, hn', hnode⟩ :=
        (Draft.accounted_of_ofRegion wf hd).node?_of_mem_boundary hboundary
      obtain rfl : n = n' := Option.some.inj (hn.symm.trans hn')
      have hreads := (Draft.has_iff_of_boundaryNode hnode).1 hhas
      exact .inl ⟨hboundary, (Draft.eq_of_reads_boundaryNode hreads).symm.trans (wf.id_eq hh)⟩

/-- Whatever the body reads is an operand hop of a lowered hop, since the root is lowered itself. -/
theorem hasReader_of_mem_inputs {plan : Plan} (wf : g.WellFormed)
    (hd : Draft.ofRegion .rowAgg g memo config table root = .ok d)
    (hplan : RowAgg.plan g d root = .ok plan) (hy : y ∈ plan.inputs) : HasReader g d y := by
  obtain ⟨laidOver, _⟩ := of_plan_eq_ok hplan
  have hread := ((laysOut_of_plan wf hd hplan).mem_iff y).1 hy
  have hreads : plan.table.Reads plan.output y := (laidOver.mem_hopsRead_iff wf hd).1 hread
  have hhas : d.Has (NodeOp.reads y) root := laidOver.has_iff.2 (NodeTable.has_reads_iff.2 hreads)
  rcases eq_or_hasReader wf hd root hhas with ⟨hboundary, _⟩ | hreader
  · have hlowered := Draft.mem_lowered_of_ofRegion wf hd
    exact absurd hlowered ((Draft.accounted_of_ofRegion wf hd).not_mem_lowered hboundary)
  · exact hreader

/-! ## Transposes -/

/-- A lowered hop reads `y`, and not at the left of a multiply. -/
def ReadsStraight (g : Graph) (d : Draft) (y : HopId) : Prop :=
  ∃ h i, h.id ∈ d.lowered ∧ g.hop? h.id = some h ∧ h.input? i = some y ∧
    ¬ (h.isMatmul = true ∧ i = 0)

/-- A lowered multiply has the transpose of `y` at its left. -/
def TakesOver (g : Graph) (d : Draft) (y : HopId) : Prop :=
  ∃ h x, h.id ∈ d.lowered ∧ g.hop? h.id = some h ∧ h.isMatmul = true ∧
    g.input? h.id 0 = some x ∧ x.transposed? = some y

/-- A multiply that has a transpose at its left does not have it as an operand hop. -/
theorem readsStraight_or_takesOver {ht : Hop} (wf : g.WellFormed) (hreader : HasReader g d y)
    (hy : g.hop? y = some ht) (htranspose : ht.isTranspose = true) :
    ReadsStraight g d y ∨ TakesOver g d y := by
  obtain ⟨h, i, hlowered, hh, hoperand⟩ := hreader
  unfold Template.operandHop? at hoperand
  rcases Option.or_eq_some_iff.1 hoperand with habsorbed | ⟨hnone, hinput⟩
  · right
    unfold Template.absorbed? at habsorbed
    split at habsorbed
    · rename_i hmatmul
      obtain rfl : i = 0 := by simpa [Template.absorbing] using hmatmul.2
      obtain ⟨x, hx, hinner⟩ := Option.bind_eq_some_iff.1 habsorbed
      exact ⟨h, x, hlowered, hh, hmatmul.1, hx, hinner⟩
    · simp at habsorbed
  · left
    refine ⟨h, i, hlowered, hh, hinput, ?_⟩
    rintro ⟨hmatmul, rfl⟩
    -- The multiply would have taken over this transposition.
    obtain ⟨inner, hinner⟩ := wf.exists_transposed? hy htranspose
    have hleft : g.input? h.id 0 = some ht := (Graph.input?_iff_of_hop? hh).2 ⟨y, hinput, hy⟩
    have hmem : 0 ∈ Template.absorbing .rowAgg := by decide
    rw [Template.absorbed?, if_pos ⟨hmatmul, hmem⟩, hleft, Option.bind_some, hinner] at hnone
    simp at hnone

/-- A lowered multiply with a transpose at its left adds rows to the output. The row is that of what
is transposed, and the weight comes from the right operand. -/
theorem exists_addedRows {left : Hop} {inner : HopId} (wf : g.WellFormed)
    (hd : Draft.ofRegion .rowAgg g memo config table root = .ok d) (hlowered : h.id ∈ d.lowered)
    (hh : g.hop? h.id = some h) (hmatmul : h.isMatmul = true)
    (hleft : g.input? h.id 0 = some left) (hinner : left.transposed? = some inner) :
    ∃ n k a b, d.node? h.id = some n ∧ d.table.node? n = some k ∧
      k.op = .binary (.rowAdd .mult) a b ∧ d.node? inner = some a ∧ d.operand h 1 = .ok b := by
  obtain ⟨e, f, top, n, _, made⟩ := Draft.exists_made_of_hop? wf hd hlowered hh
  have hkind : h.kind = .matmul := of_decide_eq_true hmatmul
  have htransposed : left.isTranspose = true := by
    rw [Hop.isTranspose, (Hop.transposed?_eq_some_iff.1 hinner).1]
    rfl
  have first {x : Hop} (hx : Draft.operandHop g h 0 = .ok x) : x = left := by
    rw [Draft.operandHop_eq_ok_iff_input? hh, hleft] at hx
    exact (Option.some.inj hx).symm
  have becomes : Becomes g d h f := made.becomes
  cases becomes with
  | addedRows _ hx _ ha hb =>
    obtain rfl := first hx
    obtain ⟨_, _, ⟨rfl, _⟩, ⟨rfl, _⟩, htop⟩ := made.computes
    obtain ⟨k, hk, hop⟩ := made.exists_node htop
    have hnode := Draft.node?_of_factor wf hh hleft ha
    rw [Hop.untransposed, hinner, Option.getD_some] at hnode
    exact ⟨n, k, _, _, made.node, hk, hop, hnode, hb⟩
  | productOfCells _ _ _ hx _ _ hstraight =>
    rw [first hx, htransposed] at hstraight
    exact Bool.noConfusion hstraight
  | dotProduct _ _ _ hx _ hstraight =>
    rw [first hx, htransposed] at hstraight
    exact Bool.noConfusion hstraight
  | _ kind => simp [hkind] at kind

end RowAgg

/-- In a plan of the row template, whatever the memo, a transpose that is passed as an input is read
by a lowered hop which does not have it at the left of a multiply, or a lowered multiply has the
transpose of it at its left. And a lowered multiply with a transpose at its left adds rows of what
is transposed. -/
theorem Plan.rowAgg_transposes {g : Graph} (built : g.IsBuilt) {memo : Memo} {config : Config}
    {table : NodeTable} {root : HopId} {plan : Plan}
    (hplan : Plan.construct .rowAgg g memo config table root = .ok plan) :
    ∃ d, Draft.ofRegion .rowAgg g memo config table root = .ok d ∧ plan.table = d.table ∧
      (∀ t ∈ plan.inputs, g.isTranspose t = true →
        RowAgg.ReadsStraight g d t ∨ RowAgg.TakesOver g d t) ∧
      ∀ h left inner, h.id ∈ d.lowered → g.hop? h.id = some h → h.isMatmul = true →
        g.input? h.id 0 = some left → left.transposed? = some inner →
        ∃ n k a b, d.node? h.id = some n ∧ plan.table.node? n = some k ∧
          k.op = .binary (.rowAdd .mult) a b ∧ d.node? inner = some a ∧ d.operand h 1 = .ok b := by
  have wf := built.wellFormed
  obtain ⟨d, hd, hplan⟩ := bind_eq_ok_iff.1 hplan
  obtain ⟨laidOver, _⟩ := RowAgg.of_plan_eq_ok hplan
  refine ⟨d, hd, laidOver.table, ?_, ?_⟩
  · intro t ht htranspose
    obtain ⟨hop, hhop, htranspose⟩ := (Option.any_eq_true ..).1 htranspose
    have hreader := RowAgg.hasReader_of_mem_inputs wf hd hplan ht
    exact RowAgg.readsStraight_or_takesOver wf hreader hhop htranspose
  · intro h left inner hlowered hh hmatmul hleft hinner
    rw [laidOver.table]
    exact RowAgg.exists_addedRows wf hd hlowered hh hmatmul hleft hinner

/-- A transpose that is transposed back and multiplied by a vector. -/
def Plan.flipped : Graph :=
  Graph.empty.build [.data "X" 100 20, .transpose 0, .transpose 1, .data "w" 20 1, .matmul 2 3]

/-- The plan for the product. -/
def Plan.ofFlipped : Plan :=
  (Plan.construct .rowAgg flipped (Memo.empty.explore flipped .default [4]).1 .default .empty
    4).toOption.getD ⟨[], .empty, [], 0, .rowAgg 0⟩

/-- The multiply takes over the second transposition, so the first transpose is an input. -/
theorem Plan.rowAgg_transposes_flipped :
    Plan.construct .rowAgg flipped (Memo.empty.explore flipped .default [4]).1 .default .empty 4 =
        .ok ofFlipped ∧
      1 ∈ ofFlipped.inputs ∧ flipped.isTranspose 1 = true ∧
      ∃ d, Draft.ofRegion .rowAgg flipped (Memo.empty.explore flipped .default [4]).1 .default
          .empty 4 = .ok d ∧
        (RowAgg.ReadsStraight flipped d 1 ∨ RowAgg.TakesOver flipped d 1) ∧
        ∃ n k a b, d.node? 4 = some n ∧ ofFlipped.table.node? n = some k ∧
          k.op = .binary (.rowAdd .mult) a b ∧ d.node? 1 = some a := by
  have built : flipped.IsBuilt := ⟨_, rfl⟩
  have hplan : Plan.construct .rowAgg flipped (Memo.empty.explore flipped .default [4]).1 .default
      .empty 4 = .ok ofFlipped := by decide +kernel
  have hinput : 1 ∈ ofFlipped.inputs := by decide +kernel
  have htranspose : flipped.isTranspose 1 = true := by decide
  obtain ⟨h, left, hh, hid, hmatmul, hleft, hinner⟩ : ∃ h left, flipped.hop? 4 = some h ∧
      h.id = 4 ∧ h.isMatmul = true ∧ flipped.input? 4 0 = some left ∧ left.transposed? = some 1 :=
    ⟨_, _, rfl, rfl, rfl, rfl, rfl⟩
  obtain ⟨d, hd, _, hreads, hadds⟩ := rowAgg_transposes built hplan
  have hlowered : 4 ∈ d.lowered := Draft.mem_lowered_of_ofRegion built.wellFormed hd
  obtain ⟨n, k, a, b, hn, hk, hop, ha, _⟩ :=
    hadds h left 1 (hid ▸ hlowered) (hid ▸ hh) hmatmul (hid ▸ hleft) hinner
  exact ⟨hplan, hinput, htranspose, d, hd, hreads 1 hinput htranspose, n, k, a, b, hid ▸ hn, hk,
    hop, ha⟩

end OpFusion
