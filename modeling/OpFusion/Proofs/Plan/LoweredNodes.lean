import OpFusion.Proofs.Kernel.Contents
import OpFusion.Proofs.Plan.Inputs

/-!
# The nodes of lowered hops

Later steps change neither the node of a hop nor what it was made from. So a finished draft can be
read without its history: the node of each lowered hop is the top of a fragment that the draft
itself would give the hop, fitted to it (`Draft.Made`, `Draft.exists_made`). It is made from the
nodes of the operand hops (`Template.operandHop?`).
-/

namespace OpFusion

open Kernel

/-! ## Fragments in later drafts -/

namespace Kernel.NodeTable

theorem check_keeps {t t' : NodeTable} {property : Node → Bool} {a : NodeId} (keeps : t.Keeps t')
    (ha : a < t.size) : t'.check property a = t.check property a := by
  unfold check
  rw [keeps_iff.1 keeps a ha]

end Kernel.NodeTable

namespace Draft

variable {g : Graph} {d d' : Draft} {h : Hop} {n : NodeId} {i : Nat}

theorem Precedes.operand (precedes : d.Precedes d') (hn : d.operand h i = .ok n) :
    d'.operand h i = .ok n := by
  obtain ⟨x, hx, hn⟩ := operand_eq_ok_iff.1 hn
  exact operand_eq_ok_iff.2 ⟨x, hx, precedes.node? hn⟩

theorem Precedes.node_eq_ok {x : HopId} (precedes : d.Precedes d') (hn : d.node x = .ok n) :
    d'.node x = .ok n :=
  node_eq_ok_iff.2 (precedes.node? (node_eq_ok_iff.1 hn))

theorem Precedes.factor (precedes : d.Precedes d') (hn : d.factor g h i = .ok n) :
    d'.factor g h i = .ok n := by
  unfold Draft.factor at hn ⊢
  obtain ⟨x, hx, hn⟩ := bind_eq_ok_iff.1 hn
  refine bind_eq_ok_iff.2 ⟨x, hx, ?_⟩
  cases hinner : x.transposed? with
  | some inner =>
    simp only [hinner] at hn
    exact precedes.node_eq_ok hn
  | none =>
    simp only [hinner] at hn
    exact precedes.operand hn

end Draft

namespace RowAgg

variable {t t' : NodeTable} {a : NodeId}

theorem readColumn_keeps (keeps : t.Keeps t') (ha : a < t.size) : readColumn t' a = readColumn t a := by
  unfold readColumn
  rw [NodeTable.check_keeps keeps ha]

theorem readCell_keeps {x : Hop} (keeps : t.Keeps t') (ha : a < t.size) :
    readCell t' a x = readCell t a x := by
  unfold readCell
  rw [NodeTable.check_keeps keeps ha, NodeTable.check_keeps keeps ha]

theorem readUnlessScalar_keeps {lookup : UnaryPrim} (keeps : t.Keeps t') (ha : a < t.size) :
    readUnlessScalar t' lookup a = readUnlessScalar t lookup a := by
  unfold readUnlessScalar
  rw [NodeTable.check_keeps keeps ha]

theorem sumColumns_keeps (keeps : t.Keeps t') (ha : a < t.size) : sumColumns t' a = sumColumns t a := by
  unfold sumColumns
  rw [NodeTable.keeps_iff.1 keeps a ha]

variable {g : Graph} {d d' : Draft} {h : Hop} {f : Fragment} {base : Nat}
  {allowed : NodeOp → Bool}

/-- In a later draft a hop becomes what it became. -/
theorem Becomes.mono (laid : d.Laid base allowed) (precedes : d.Precedes d')
    (becomes : Becomes g d h f) : Becomes g d' h f := by
  have operand {i : Nat} {n : NodeId} (hn : d.operand h i = .ok n) : n < d.table.size := by
    obtain ⟨x, hx⟩ := Draft.exists_of_operand hn
    exact (laid.node hx).2
  have factor {i : Nat} {n : NodeId} (hn : d.factor g h i = .ok n) : n < d.table.size := by
    obtain ⟨x, hx⟩ := Draft.exists_of_factor hn
    exact (laid.node hx).2
  have keeps := precedes.1
  cases becomes with
  | rowSumOfColumn hkind ha hx hcolumn =>
    rw [← readUnlessScalar_keeps keeps (operand ha)]
    exact .rowSumOfColumn hkind (precedes.operand ha) hx hcolumn
  | rowSum hkind ha hx hwide => exact .rowSum hkind (precedes.operand ha) hx hwide
  | columnSum hkind ha =>
    rw [← sumColumns_keeps keeps (operand ha)]
    exact .columnSum hkind (precedes.operand ha)
  | addedRows hkind hx htransposed ha hb =>
    exact .addedRows hkind hx htransposed (precedes.factor ha) (precedes.operand hb)
  | productOfCells hkind ha hb hx hy hcolumns hstraight =>
    rw [← readUnlessScalar_keeps keeps (factor ha), ← readUnlessScalar_keeps keeps (operand hb)]
    exact .productOfCells hkind (precedes.factor ha) (precedes.operand hb) hx hy hcolumns hstraight
  | dotProduct hkind ha hb hx hy hstraight hwide =>
    exact .dotProduct hkind (precedes.factor ha) (precedes.operand hb) hx hy hstraight hwide
  | unary hkind hop hx ha =>
    rw [← readCell_keeps keeps (operand ha)]
    exact .unary hkind hop hx (precedes.operand ha)
  | rowAndCell hkind hop hx hgenuine ha hb =>
    rw [← readColumn_keeps keeps (operand hb)]
    exact .rowAndCell hkind hop hx hgenuine (precedes.operand ha) (precedes.operand hb)
  | cells hkind hop ha hb hx hnarrow =>
    rw [← readColumn_keeps keeps (operand ha), ← readColumn_keeps keeps (operand hb)]
    exact .cells hkind hop (precedes.operand ha) (precedes.operand hb) hx hnarrow
  | ternary hkind hop ha hb hc =>
    rw [← readCell_keeps keeps (operand ha), ← readCell_keeps keeps (operand hc)]
    exact .ternary hkind hop (precedes.operand ha) (precedes.operand hb) (precedes.operand hc)
  | replace hkind hprim ha hb hc hx htarget hpattern hreplacement =>
    have hlt := (laid.node (Draft.node_eq_ok_iff.1 ha)).2
    rw [← readCell_keeps keeps hlt]
    exact .replace hkind hprim (precedes.node_eq_ok ha) (precedes.node_eq_ok hb)
      (precedes.node_eq_ok hc) hx htarget hpattern hreplacement
  | cellOfLiteral hkind ha hx hcols hy hvalue =>
    exact .cellOfLiteral hkind (precedes.operand ha) hx hcols hy hvalue
  | cellOfNode hkind ha hupper hx hcols hy hnone =>
    exact .cellOfNode hkind (precedes.operand ha) (precedes.operand hupper) hx hcols hy hnone

end RowAgg

namespace OuterProduct

variable {g : Graph} {d d' : Draft} {h : Hop} {f : Fragment} {base : Nat}
  {allowed : NodeOp → Bool}

theorem readVector_keeps {t t' : NodeTable} {a : NodeId} (keeps : t.Keeps t') (ha : a < t.size) :
    readVector t' a = readVector t a := by
  unfold readVector
  rw [NodeTable.check_keeps keeps ha]

/-- In a later draft a hop becomes what it became. -/
theorem Becomes.mono (laid : d.Laid base allowed) (precedes : d.Precedes d')
    (becomes : Becomes g d h f) : Becomes g d' h f := by
  have operand {i : Nat} {n : NodeId} (hn : d.operand h i = .ok n) : n < d.table.size := by
    obtain ⟨x, hx⟩ := Draft.exists_of_operand hn
    exact (laid.node hx).2
  cases becomes with
  | unary hkind hop ha => exact .unary hkind hop (precedes.operand ha)
  | cells hkind hop ha hb =>
    rw [← readVector_keeps precedes.1 (operand ha), ← readVector_keeps precedes.1 (operand hb)]
    exact .cells hkind hop (precedes.operand ha) (precedes.operand hb)
  | dotProduct hkind hlike ha hb =>
    exact .dotProduct hkind hlike (precedes.factor ha) (precedes.factor hb)
  | addedRows hkind ha hb hpositions hother =>
    exact .addedRows hkind (precedes.factor ha) (precedes.factor hb) hpositions hother
  | passed hkind ha => exact .passed hkind (precedes.operand ha)

end OuterProduct

/-- What a hop of a region becomes, and from which nodes. -/
def Template.Becomes (t : Template) (g : Graph) (d : Draft) (h : Hop) (f : Fragment) : Prop :=
  match t with
  | .outerProduct => OuterProduct.Becomes g d h f
  | .rowAgg => RowAgg.Becomes g d h f

/-! ## Finished drafts -/

namespace Draft

variable {t : Template} {g : Graph} {memo : Memo} {config : Config} {d : Draft} {root id : HopId}
  {h : Hop} {table : NodeTable}

/-- How a hop was lowered, as the finished draft has it: the hop has a best entry, it becomes a
fragment, and its node is the top of that fragment, fitted to the hop. -/
structure Made (t : Template) (g : Graph) (memo : Memo) (d : Draft) (h : Hop) (e : MemoEntry)
    (f : Fragment) (top n : NodeId) : Prop where
  hop : g.hop? h.id = some h
  best : memo.best? h.id t = some e
  becomes : t.Becomes g d h f
  computes : d.table.Computes f top
  node : d.node? h.id = some n
  fitted : ∃ k, d.table.node? top = some k ∧ d.table.node? n = some (k.fitted h)

/-- Every lowered hop is found in the finished draft as it was lowered. If it was lowered to a new
node, that node is younger than those bound before. -/
theorem exists_made_after (wf : g.WellFormed)
    (hd : ofRegion t g memo config table root = .ok d) (hid : id ∈ d.lowered) :
    ∃ h e f top n before, h.id = id ∧ Made t g memo d h e f top n ∧ memo.InRegion t g root id ∧
      before ++ [⟨id, n, false⟩] <+: d.bindings ∧
        ((∀ a, f ≠ .node a) → ∀ b ∈ before, b.node < n) := by
  obtain ⟨h, e, d₀, f, rfl, hregion, run, ready, precedes⟩ := ofRegion_lowered wf hd hid
  have acc : Accounted g config table.size d₀ :=
    run.preserves (fun step acc => acc.step step) (.start g config table)
  have later : d₀.Precedes d := precedes_bindLowered.trans precedes
  have becomes : t.Becomes g d h f := by
    cases t with
    | outerProduct => exact (OuterProduct.becomes_of_fragment ready.fragment).mono acc.laid later
    | rowAgg => exact (RowAgg.becomes_of_fragment ready.fragment).mono acc.laid later
  have computes : (d₀.table.emit f).1.Computes f (d₀.table.emit f).2 :=
    NodeTable.computes_emit fun a ha => (Template.within_leaves acc.laid ready.fragment a ha).2
  obtain ⟨k, hk⟩ := NodeTable.exists_node? computes.lt
  have kept : (d₀.table.emit f).1.Keeps d.table := fun _ _ hn =>
    precedes.1 (NodeTable.keeps_fitTo (h := h) hn)
  have made : Made t g memo d h e f _ _ :=
    ⟨ready.hop, ready.best, becomes, computes.keeps kept,
      precedes.node? (node?_bindLowered ready.fresh), k, kept hk,
      precedes.1 (NodeTable.node?_fitTo hk)⟩
  refine ⟨h, e, f, _, _, d₀.bindings, rfl, made, hregion, precedes.2, fun hnew b hb => ?_⟩
  have hlt : b.node < d₀.table.size := (acc.laid.nodes b hb).2
  have hsize : d₀.table.size ≤ (d₀.table.emit f).1.size := (NodeTable.keeps_emit f _).size_le
  exact Nat.lt_of_lt_of_le hlt (NodeTable.le_fitTo (NodeTable.size_le_emit hnew) hsize)

theorem exists_made (wf : g.WellFormed) (hd : ofRegion t g memo config table root = .ok d)
    (hid : id ∈ d.lowered) : ∃ h e f top n, h.id = id ∧ Made t g memo d h e f top n := by
  obtain ⟨h, e, f, top, n, _, hh, made, _⟩ := exists_made_after wf hd hid
  exact ⟨h, e, f, top, n, hh, made⟩

theorem exists_made_of_hop? (wf : g.WellFormed)
    (hd : ofRegion t g memo config table root = .ok d) (hid : id ∈ d.lowered)
    (hh : g.hop? id = some h) : ∃ e f top n, h.id = id ∧ Made t g memo d h e f top n := by
  obtain ⟨h', e, f, top, n, rfl, made⟩ := exists_made wf hd hid
  obtain rfl := Option.some.inj (hh.symm.trans made.hop)
  exact ⟨e, f, top, n, rfl, made⟩

/-- Fitting changes no operation. -/
theorem Made.sameOp {e : MemoEntry} {f : Fragment} {top n : NodeId}
    (made : Made t g memo d h e f top n) : d.table.SameOp top n := by
  obtain ⟨k, hk, hn⟩ := made.fitted
  exact ⟨k, k.fitted h, hk, hn, Node.fitted_op.symm⟩

/-- The node of a hop has the operation of the top of its fragment. -/
theorem Made.exists_node {e : MemoEntry} {f : Fragment} {top n : NodeId} {k : Node}
    (made : Made t g memo d h e f top n) (htop : d.table.node? top = some k) :
    ∃ k', d.table.node? n = some k' ∧ k'.op = k.op := by
  obtain ⟨k', hk', hn⟩ := made.fitted
  obtain rfl := Option.some.inj (htop.symm.trans hk')
  exact ⟨k.fitted h, hn, Node.fitted_op⟩

/-- The node of a hop has below it what its fragment has. -/
theorem Made.has_iff {e : MemoEntry} {f : Fragment} {top n : NodeId} {p : NodeOp → Bool}
    (made : Made t g memo d h e f top n) : d.table.Has p n ↔ d.table.Has p top :=
  made.sameOp.has_iff.symm

/-- A hop that becomes a node that is there already has the operation of that node. -/
theorem Made.sameOp_of_node {e : MemoEntry} {a top n : NodeId}
    (made : Made t g memo d h e (.node a) top n) : d.table.SameOp a n := by
  obtain ⟨rfl, _⟩ := made.computes
  exact made.sameOp

/-- An operation of a kind lies below the node of a hop. -/
def Has (d : Draft) (p : NodeOp → Bool) (x : HopId) : Prop :=
  ∃ n, d.node? x = some n ∧ d.table.Has p n

theorem has_iff_of_node? {p : NodeOp → Bool} {x : HopId} {n : NodeId} (hn : d.node? x = some n) :
    d.Has p x ↔ d.table.Has p n := by
  constructor
  · rintro ⟨n', hn', hhas⟩
    rwa [Option.some.inj (hn.symm.trans hn')]
  · exact fun hhas => ⟨n, hn, hhas⟩

/-- The node through which a hop from outside is read has its own operation and no other. -/
theorem has_iff_of_boundaryNode {p : NodeOp → Bool} {n : NodeId}
    (hn : table.node? n = some (boundaryNode config h)) :
    table.Has p n ↔ p (boundaryNode config h).op = true := by
  simp [NodeTable.has_iff hn]

/-- The node through which a hop is read reads no other hop. -/
theorem eq_of_reads_boundaryNode {x : HopId} (hreads : (boundaryNode config h).op.reads x = true) :
    h.id = x := by
  rcases boundaryNode_cases config h with heq | ⟨value, heq⟩
  · rw [heq, Node.data_op] at hreads
    exact of_decide_eq_true hreads
  · rw [heq] at hreads
    exact Bool.noConfusion hreads

end Draft

theorem Plan.LaidOver.has_iff {plan : Plan} {d : Draft} {root : HopId} {p : NodeOp → Bool}
    (laidOver : plan.LaidOver d root) : d.Has p root ↔ plan.table.Has p plan.output := by
  rw [laidOver.table]
  exact Draft.has_iff_of_node? laidOver.output

/-! ## Operand hops -/

/-- The hop itself, or what it transposes. -/
def Hop.untransposed (h : Hop) : HopId := h.transposed?.getD h.id

namespace Template

variable {t : Template} {g : Graph} {d : Draft} {h : Hop} {i : Nat} {n : NodeId}

/-- The hop whose node the lowering of a hop uses at a position: the one that is read there, or what
that transposes if a multiply takes over the transposition. -/
def operandHop? (t : Template) (g : Graph) (h : Hop) (i : Nat) : Option HopId :=
  (t.absorbed? g h i).or (h.input? i)

theorem operandNode_eq_ok_iff :
    t.operandNode g d h i = .ok n ↔ ∃ x, t.operandHop? g h i = some x ∧ d.node? x = some n := by
  unfold operandNode operandHop?
  cases t.absorbed? g h i with
  | some inner => simp
  | none => simp [Draft.operand_eq_ok_iff]

/-- A hop has its operands at the positions of its inputs. -/
theorem operandHop?_position_lt (hh : g.hop? h.id = some h) {x : HopId}
    (hx : t.operandHop? g h i = some x) : i < h.inputs.length := by
  have input {y : HopId} (hy : h.input? i = some y) : i < h.inputs.length :=
    (List.getElem?_eq_some_iff.1 hy).1
  unfold operandHop? at hx
  rcases Option.or_eq_some_iff.1 hx with habsorbed | ⟨_, hinput⟩
  · unfold absorbed? at habsorbed
    split at habsorbed
    · obtain ⟨y, hy, _⟩ := Option.bind_eq_some_iff.1 habsorbed
      obtain ⟨_, hy, _⟩ := (Graph.input?_iff_of_hop? hh).1 hy
      exact input hy
    · simp at habsorbed
  · exact input hinput

theorem operandHop?_of_not_matmul (hm : h.isMatmul = false) : t.operandHop? g h i = h.input? i := by
  simp [operandHop?, absorbed?, hm]

theorem operandHop?_of_not_absorbing (hi : i ∉ t.absorbing) :
    t.operandHop? g h i = h.input? i := by
  simp [operandHop?, absorbed?, hi]

theorem operandHop?_of_straight {x : Hop} (hx : g.input? h.id i = some x)
    (hstraight : x.isTranspose = false) : t.operandHop? g h i = h.input? i := by
  simp [operandHop?, absorbed?, hx, Hop.transposed?, hstraight]

/-- Where a multiply takes over transpositions, its operand hop is what is transposed. -/
theorem operandHop?_of_absorbing (wf : g.WellFormed) (hh : g.hop? h.id = some h)
    (hm : h.isMatmul = true) (hi : i ∈ t.absorbing) {x : Hop} (hx : g.input? h.id i = some x) :
    t.operandHop? g h i = some x.untransposed := by
  obtain ⟨y, hy, hhx⟩ := (Graph.input?_iff_of_hop? hh).1 hx
  obtain rfl := wf.id_eq hhx
  simp only [operandHop?, absorbed?, hm, hi, and_self, if_true, hx, Option.bind_some, hy]
  unfold Hop.untransposed
  cases x.transposed? <;> rfl

section Positions

variable {P : HopId → Prop} {x y : HopId}

theorem exists_operandHop?_iff_one (wf : g.WellFormed) (hh : g.hop? h.id = some h)
    (harity : h.kind.arity = some 1) (hx : t.operandHop? g h 0 = some x) :
    (∃ i z, t.operandHop? g h i = some z ∧ P z) ↔ P x := by
  refine ⟨?_, fun hP => ⟨0, x, hx, hP⟩⟩
  rintro ⟨i, z, hz, hP⟩
  have hlt := operandHop?_position_lt hh hz
  rw [wf.arity hh harity] at hlt
  obtain rfl : i = 0 := by omega
  rwa [Option.some.inj (hx.symm.trans hz)]

theorem exists_operandHop?_iff_two (wf : g.WellFormed) (hh : g.hop? h.id = some h)
    (harity : h.kind.arity = some 2) (hx : t.operandHop? g h 0 = some x)
    (hy : t.operandHop? g h 1 = some y) :
    (∃ i z, t.operandHop? g h i = some z ∧ P z) ↔ P x ∨ P y := by
  constructor
  · rintro ⟨i, z, hz, hP⟩
    have hlt := operandHop?_position_lt hh hz
    rw [wf.arity hh harity] at hlt
    rcases (by omega : i = 0 ∨ i = 1) with rfl | rfl
    · exact .inl (Option.some.inj (hx.symm.trans hz) ▸ hP)
    · exact .inr (Option.some.inj (hy.symm.trans hz) ▸ hP)
  · rintro (hP | hP)
    · exact ⟨0, x, hx, hP⟩
    · exact ⟨1, y, hy, hP⟩

end Positions

/-- A multiply reads its operand node where it takes over transpositions. -/
theorem operandNode_of_factor (hh : g.hop? h.id = some h) (hm : h.isMatmul = true)
    (hi : i ∈ t.absorbing) (hn : d.factor g h i = .ok n) : t.operandNode g d h i = .ok n := by
  unfold Draft.factor at hn
  obtain ⟨x, hx, hn⟩ := bind_eq_ok_iff.1 hn
  have hinput := (Draft.operandHop_eq_ok_iff_input? hh).1 hx
  simp only [operandNode, absorbed?, hm, hi, and_self, if_true, hinput, Option.bind_some]
  exact hn

/-- An operand hop comes before its consumer. -/
theorem operandHop?_lt (wf : g.WellFormed) (hh : g.hop? h.id = some h) {x : HopId}
    (hx : t.operandHop? g h i = some x) : x < h.id := by
  unfold operandHop? at hx
  rcases Option.or_eq_some_iff.1 hx with habsorbed | ⟨_, hinput⟩
  · exact Draft.absorbed_lt wf hh (mem_absorbed habsorbed)
  · exact wf.input?_lt hh hinput

end Template

/-- A multiply reads what its operand transposes, if that is a transpose, and else the operand. -/
theorem Draft.node?_of_factor {g : Graph} {d : Draft} {h x : Hop} {i : Nat} {a : NodeId}
    (wf : g.WellFormed) (hh : g.hop? h.id = some h) (hx : g.input? h.id i = some x)
    (ha : d.factor g h i = .ok a) : d.node? x.untransposed = some a := by
  obtain ⟨y, hy, hhx⟩ := (Graph.input?_iff_of_hop? hh).1 hx
  obtain rfl := wf.id_eq hhx
  unfold Draft.factor at ha
  rw [(Draft.operandHop_eq_ok_iff_input? hh).2 hx, ok_bind] at ha
  unfold Hop.untransposed
  cases hinner : x.transposed? with
  | some inner =>
    simp only [hinner] at ha
    exact Draft.node_eq_ok_iff.1 ha
  | none =>
    simp only [hinner] at ha
    obtain ⟨y, hy', hn⟩ := Draft.operand_eq_ok_iff.1 ha
    rwa [Option.getD_none, Option.some.inj (hy.symm.trans hy')]

end OpFusion
