import Mathlib.Data.List.Perm.Subperm
import OpFusion.Proofs.Kernel.Typing
import OpFusion.Proofs.Memo.RowRegions
import OpFusion.Proofs.Plan.RowOperands

/-!
# Temporary rows

A row kernel keeps one temporary row for each node of its body that fills one. A binary operator
with a genuine matrix on its left is lowered to such a node (`RowAgg.Fills`), and nothing else is:
reading an operand fills no row, a column sum takes the operands of such a node and adds to the
output row instead, and a copy with other extents takes the place of the original. So every such
node below the output is that of a hop (`RowAgg.exists_fills`), and of one hop only, because it is
younger than whatever was bound before (`RowAgg.Fills.unique`). However many consumers share the
row, it is counted once (`Plan.rowAgg_temporaryRows`).
-/

namespace OpFusion

open Kernel

/-- The operation fills a temporary row. -/
def Kernel.NodeOp.fillsRow : NodeOp → Bool
  | .binary prim _ _ => prim.isRowScalar
  | _ => false

theorem Kernel.Node.isRowScalar_eq {n : Node} : n.isRowScalar = n.op.fillsRow := rfl

namespace RowAgg

variable {g : Graph} {d : Draft} {memo : Memo} {config : Config} {table t : NodeTable} {h : Hop}
  {e : MemoEntry} {f : Fragment} {root : HopId} {a b n m top id : NodeId}

/-! ## What fills rows -/

/-- A binary operator whose left operand has several rows and several columns. -/
def ScalesRows (g : Graph) (x : HopId) : Prop :=
  ∃ h op left, g.hop? x = some h ∧ h.kind = .binary op ∧ g.input? x 0 = some left ∧
    left.shape.isGenuineMatrix = true

/-- In a fragment of the row template only the top fills a row, and only where rows are scaled. -/
theorem Becomes.admits_or_rowAndCell (becomes : Becomes g d h f) :
    f.Admits (fun op => !op.fillsRow) ∨
      ∃ op rowOp x a b, h.kind = .binary op ∧ Draft.operandHop g h 0 = .ok x ∧
        x.shape.isGenuineMatrix = true ∧
        f = .binary (.rowScalar rowOp) (.node a) (readColumn d.table b) := by
  have column {a : NodeId} : (readColumn d.table a).Admits (fun op => !op.fillsRow) :=
    admits_readColumn fun _ _ => rfl
  have cell {a : NodeId} {x : Hop} : (readCell d.table a x).Admits (fun op => !op.fillsRow) :=
    admits_readCell fun _ _ => rfl
  have first {lookup : UnaryPrim} {a : NodeId} :
      (readUnlessScalar d.table lookup a).Admits (fun op => !op.fillsRow) :=
    admits_readUnlessScalar fun _ _ => rfl
  cases becomes with
  | rowAndCell hkind _ hx hgenuine => exact .inr ⟨_, _, _, _, _, hkind, hx, hgenuine, rfl⟩
  | columnSum =>
    refine .inl ?_
    unfold sumColumns
    split
    · exact ⟨fun _ _ => rfl, trivial, trivial⟩
    · trivial
  | rowSumOfColumn => exact .inl first
  | rowSum => exact .inl ⟨fun _ => rfl, trivial⟩
  | addedRows => exact .inl ⟨fun _ _ => rfl, trivial, trivial⟩
  | productOfCells => exact .inl ⟨fun _ _ => rfl, first, first⟩
  | dotProduct => exact .inl ⟨fun _ _ => rfl, trivial, trivial⟩
  | unary => exact .inl ⟨fun _ => rfl, cell⟩
  | cells => exact .inl ⟨fun _ _ => rfl, column, column⟩
  | ternary => exact .inl ⟨fun _ _ _ => rfl, cell, trivial, cell⟩
  | replace => exact .inl ⟨fun _ _ _ => rfl, cell, trivial, trivial⟩
  | cellOfLiteral => exact .inl ⟨fun _ _ _ => rfl, trivial, rfl, rfl⟩
  | cellOfNode => exact .inl ⟨fun _ _ _ => rfl, trivial, rfl, trivial⟩

/-- A column sum takes over what fills a row, and a row sum passes on scalars only. -/
theorem Becomes.isScalar_of_node (becomes : Becomes g d h (.node a))
    (hfills : d.table.check (·.isRowScalar) a = true) : d.table.check (·.isScalar) a = true := by
  generalize hf : Fragment.node a = f at becomes
  cases becomes with
  | rowSumOfColumn =>
    unfold readUnlessScalar at hf
    split at hf
    · rename_i hscalar
      rwa [Fragment.node.inj hf]
    · simp at hf
  | columnSum =>
    unfold sumColumns at hf
    split at hf
    · simp at hf
    · rename_i hnot
      obtain rfl := Fragment.node.inj hf
      obtain ⟨⟨op, dataType, shape⟩, hn, hrow⟩ := (Option.any_eq_true ..).1 hfills
      cases op with
      | binary prim row cell =>
        cases prim with
        | rowScalar op => exact absurd hn (hnot op row cell dataType shape)
        | _ => simp [Node.isRowScalar, BinaryPrim.isRowScalar] at hrow
      | _ => simp [Node.isRowScalar] at hrow
  | _ => simp at hf

/-! ## Which hops fill rows -/

/-- A hop of the region that scales rows is bound to a node which fills one, younger than what was
bound before. -/
structure Fills (g : Graph) (d : Draft) (b : Binding) : Prop where
  lowered : b.isBoundary = false
  scales : ScalesRows g b.hop
  isMatrix : d.table.check (·.isMatrix) b.node = true
  younger : ∃ before, before ++ [b] <+: d.bindings ∧ ∀ c ∈ before, c.node < b.node

theorem Fills.mem {b : Binding} (fills : Fills g d b) : b ∈ d.bindings := by
  obtain ⟨before, hbindings, _⟩ := fills.younger
  exact hbindings.subset (by simp)

/-- Two hops fill different rows. -/
theorem Fills.unique {b c : Binding} (hb : Fills g d b) (hc : Fills g d c)
    (heq : b.node = c.node) : b = c := by
  obtain ⟨before, hbefore, hyoungest⟩ := hb.younger
  obtain ⟨before', hbefore', hyoungest'⟩ := hc.younger
  -- Whichever was bound later has the younger node.
  rcases List.prefix_or_prefix_of_prefix hbefore hbefore' with hle | hle
  · rcases List.prefix_concat_iff.1 hle with hsame | hlt
    · exact List.singleton_inj.1 (List.append_inj_right' hsame rfl)
    · exact absurd heq (Nat.ne_of_lt (hyoungest' b (hlt.subset (by simp))))
  · rcases List.prefix_concat_iff.1 hle with hsame | hlt
    · exact (List.singleton_inj.1 (List.append_inj_right' hsame rfl)).symm
    · exact absurd heq (Nat.ne_of_gt (hyoungest c (hlt.subset (by simp))))

/-- What lies below the node of a hop lies below an operand of the top of its fragment, but for the
node itself. -/
theorem reaches_operand (made : Draft.Made .rowAgg g memo d h e f top n)
    (reached : Dag.Reaches d.table.operands n id) (hne : id ≠ n) :
    ∃ c ∈ d.table.operands top, Dag.Reaches d.table.operands c id := by
  obtain ⟨k, k', hk, hk', hop⟩ := made.sameOp
  obtain ⟨c, hc, hrest⟩ := (Dag.reaches_iff_child.1 reached).resolve_left hne
  rw [NodeTable.operands_of_node? hk', ← hop, ← NodeTable.operands_of_node? hk] at hc
  exact ⟨c, hc, hrest⟩

/-- A hop whose fragment fills no row has a node that fills none, if those passed on to it are rows. -/
theorem not_isRowScalar_of_admits (made : Draft.Made .rowAgg g memo d h e f top n)
    (hadmits : f.Admits fun op => !op.fillsRow)
    (hrows : ∀ a ∈ f.leaves, d.table.check (·.isRowScalar) a = true →
      d.table.check (·.isMatrix) a = true) :
    ¬ d.table.check (·.isRowScalar) n = true := by
  intro hfills
  obtain ⟨k, hk, hn⟩ := made.fitted
  rw [NodeTable.check_of_node? hn, Node.isRowScalar_eq, Node.fitted_op] at hfills
  obtain rfl := made.computes.eq_node hadmits hk hfills
  have htop : d.table.check (·.isRowScalar) top = true := by
    rwa [NodeTable.check_of_node? hk, Node.isRowScalar_eq]
  have becomes : Becomes g d h (.node top) := made.becomes
  have hscalar := becomes.isScalar_of_node htop
  have hmatrix := hrows top List.mem_cons_self htop
  rw [NodeTable.check_of_node? hk] at hscalar hmatrix
  rw [Node.isMatrix_eq, hscalar] at hmatrix
  exact Bool.noConfusion hmatrix

/-- A hop that scales rows is bound to a new node. -/
theorem fills_of_rowAndCell {op : BinaryOp} {rowOp : RowOp} {left : Hop} {before : List Binding}
    (made : Draft.Made .rowAgg g memo d h e
      (.binary (.rowScalar rowOp) (.node a) (readColumn t b)) top n)
    (hkind : h.kind = .binary op) (hleft : Draft.operandHop g h 0 = .ok left)
    (hgenuine : left.shape.isGenuineMatrix = true)
    (hbindings : before ++ [⟨h.id, n, false⟩] <+: d.bindings) (hyounger : ∀ c ∈ before, c.node < n) :
    Fills g d ⟨h.id, n, false⟩ := by
  have hinput := (Draft.operandHop_eq_ok_iff_input? made.hop).1 hleft
  refine ⟨rfl, ⟨h, op, left, made.hop, hkind, hinput, hgenuine⟩, ?_, before, hbindings, hyounger⟩
  obtain ⟨k, hk, hn⟩ := made.fitted
  obtain ⟨x, y, _, _, htop⟩ := made.computes
  obtain rfl := Option.some.inj (hk.symm.trans htop)
  rw [NodeTable.check_of_node? hn, Node.isMatrix_eq, Node.isScalar_fitted]
  rfl

/-- The node through which a hop from outside is read fills no row, and nothing lies below it. -/
theorem not_isRowScalar_of_boundary {k : Node} (hn : d.table.node? n = some k)
    (hk : k = Draft.boundaryNode config h) (reached : Dag.Reaches d.table.operands n id) :
    ¬ d.table.check (·.isRowScalar) id = true := by
  have leaf : k.op.operands = [] ∧ k.isRowScalar = false := by
    rcases Draft.boundaryNode_cases config h with hnode | ⟨value, hnode⟩ <;> rw [hk, hnode] <;>
      exact ⟨rfl, rfl⟩
  rcases Dag.reaches_iff_child.1 reached with rfl | ⟨c, hc, _⟩
  · rw [NodeTable.check_of_node? hn, leaf.2]
    exact Bool.noConfusion
  · rw [NodeTable.operands_of_node? hn, leaf.1] at hc
    exact absurd hc List.not_mem_nil

/-- The node is that of a hop that scales rows. -/
def Owned (g : Graph) (d : Draft) (id : NodeId) : Prop := ∃ b, Fills g d b ∧ b.node = id

/-- Below a part that fills no row itself, rows are filled as they are below its leaves. -/
theorem owned_of_computes (hleaves : ∀ a ∈ f.leaves, Dag.Reaches d.table.operands a id → Owned g d id)
    (hfills : d.table.check (·.isRowScalar) id = true) (hadmits : f.Admits fun op => !op.fillsRow)
    (computes : d.table.Computes f top) (reached : Dag.Reaches d.table.operands top id) :
    Owned g d id := by
  obtain ⟨k, hk, hrow⟩ := (Option.any_eq_true ..).1 hfills
  obtain ⟨a, ha, hreached⟩ :=
    NodeTable.Computes.reaches_leaf (p := NodeOp.fillsRow) hk hrow computes hadmits reached
  exact hleaves a ha hreached

section Made

variable (made : Draft.Made .rowAgg g memo d h e f top n)
include made

/-- Strictly below the node of a hop, rows are filled as they are below the leaves of its fragment. -/
theorem owned_below (hleaves : ∀ a ∈ f.leaves, Dag.Reaches d.table.operands a id → Owned g d id)
    (hfills : d.table.check (·.isRowScalar) id = true)
    (reached : Dag.Reaches d.table.operands n id) (hne : id ≠ n) : Owned g d id := by
  obtain ⟨c, hc, hreached⟩ := reaches_operand made reached hne
  have becomes : Becomes g d h f := made.becomes
  rcases becomes.admits_or_rowAndCell with hadmits | ⟨_, _, _, _, _, _, _, _, rfl⟩
  · exact owned_of_computes hleaves hfills hadmits made.computes (.head hc hreached)
  · -- The top fills a row, but neither of its parts does.
    obtain ⟨u, v, hu, hv, htop⟩ := made.computes
    rw [NodeTable.operands_of_node? htop, NodeTable.binary_op] at hc
    rcases List.mem_pair.1 hc with rfl | rfl
    · exact owned_of_computes (fun a ha => hleaves a (List.mem_append_left _ ha)) hfills trivial hu
        hreached
    · exact owned_of_computes (fun a ha => hleaves a (List.mem_append_right _ ha)) hfills
        (admits_readColumn fun _ _ => rfl) hv hreached

/-- A lowered hop whose node fills a row scales rows, if its leaves do not hide a row. -/
theorem fills_of_isRowScalar {before : List Binding}
    (hbindings : before ++ [⟨h.id, n, false⟩] <+: d.bindings)
    (hyounger : (∀ a, f ≠ .node a) → ∀ c ∈ before, c.node < n)
    (hleaves : ∀ a ∈ f.leaves, d.table.check (·.isRowScalar) a = true → Owned g d a)
    (hfills : d.table.check (·.isRowScalar) n = true) : Fills g d ⟨h.id, n, false⟩ := by
  have becomes : Becomes g d h f := made.becomes
  rcases becomes.admits_or_rowAndCell with hadmits | ⟨_, _, _, _, _, hkind, hx, hgenuine, rfl⟩
  · refine absurd hfills (not_isRowScalar_of_admits made hadmits fun a ha hrow => ?_)
    obtain ⟨b, hb, rfl⟩ := hleaves a ha hrow
    exact hb.isMatrix
  · exact fills_of_rowAndCell made hkind hx hgenuine hbindings (hyounger (by simp))

end Made

/-- What fills a row and lies below the node of a bound hop is the node of a hop that scales rows,
and of the bound hop itself if it is the node of that: by induction on the number of the hop, since
its fragment is made from what lies below the nodes of earlier hops. -/
theorem exists_fills (wf : g.WellFormed)
    (hd : Draft.ofRegion .rowAgg g memo config table root = .ok d) :
    ∀ {x : HopId} {n id : NodeId}, d.node? x = some n → Dag.Reaches d.table.operands n id →
      d.table.check (·.isRowScalar) id = true →
      ∃ b, Fills g d b ∧ b.node = id ∧ (id = n → b.hop = x) := by
  intro x
  induction x using Nat.strong_induction_on with
  | _ x ih =>
  intro n id hn reached hfills
  rcases Draft.mem_lowered_or_mem_boundary ⟨n, hn⟩ with hlowered | hboundary
  · obtain ⟨h, e, f, top, n', before, rfl, made, _, hbindings, hyounger⟩ :=
      Draft.exists_made_after wf hd hlowered
    obtain rfl : n = n' := Option.some.inj (hn.symm.trans made.node)
    have leaf {a id : NodeId} (ha : a ∈ f.leaves) (hfills : d.table.check (·.isRowScalar) id = true)
        (reached : Dag.Reaches d.table.operands a id) : Owned g d id := by
      have becomes : Becomes g d h f := made.becomes
      obtain ⟨i, y, m, hy, hm, hreaches⟩ := becomes.leaves_fromOperand made.hop a ha
      have hlt : y < h.id := Template.operandHop?_lt wf made.hop hy
      obtain ⟨b, hb, hnode, _⟩ := ih y hlt hm (hreaches.trans reached) hfills
      exact ⟨b, hb, hnode⟩
    by_cases hid : id = n
    · subst hid
      have fills := fills_of_isRowScalar made hbindings hyounger
        (fun a ha hrow => leaf ha hrow .refl) hfills
      exact ⟨_, fills, rfl, fun _ => rfl⟩
    · obtain ⟨b, hb, hnode⟩ := owned_below made (fun a ha => leaf ha hfills) hfills reached hid
      exact ⟨b, hb, hnode, fun heq => absurd heq hid⟩
  · obtain ⟨h, n', _, hn', hnode⟩ :=
      (Draft.accounted_of_ofRegion wf hd).node?_of_mem_boundary hboundary
    obtain rfl : n = n' := Option.some.inj (hn.symm.trans hn')
    exact absurd hfills (not_isRowScalar_of_boundary hnode rfl reached)

/-- Whatever is bound to a node that fills a row is a hop that scales rows. -/
theorem fills_of_mem (wf : g.WellFormed)
    (hd : Draft.ofRegion .rowAgg g memo config table root = .ok d) {b : Binding}
    (hb : b ∈ d.bindings) (hfills : d.table.check (·.isRowScalar) b.node = true) : Fills g d b := by
  have acc := Draft.accounted_of_ofRegion wf hd
  obtain ⟨c, hc, hnode, hsame⟩ := exists_fills wf hd (acc.node?_of_mem hb) .refl hfills
  rwa [← acc.eq_of_hop hc.mem hb (hsame rfl)]

end RowAgg

/-! ## Counting rows -/

/-- The body has the node, and it fills a temporary row. -/
def Plan.FillsRow (p : Plan) (n : NodeId) : Prop :=
  Dag.Reaches p.table.operands p.output n ∧ p.table.check (·.isRowScalar) n = true

/-- The temporary rows of a row kernel are those of some lowered hops, one for each. -/
structure Plan.RowsOf (g : Graph) (memo : Memo) (root : HopId) (d : Draft) (p : Plan)
    (owners : List Binding) : Prop where
  /-- The owners are all that is bound to nodes of the body that fill rows. -/
  mem_iff {b : Binding} : b ∈ owners ↔ b ∈ d.bindings ∧ p.FillsRow b.node
  /-- They are lowered binary operators of the region with a genuine matrix on their left. -/
  lowered {b : Binding} : b ∈ owners → b.isBoundary = false ∧
    memo.InRegion .rowAgg g root b.hop ∧ RowAgg.ScalesRows g b.hop
  /-- Each node that fills a row has an owner, -/
  mem_nodes_iff {n : NodeId} : n ∈ owners.map (·.node) ↔ p.FillsRow n
  /-- and no two owners, -/
  nodup_nodes : (owners.map (·.node)).Nodup
  /-- and no hop owns two of them. -/
  nodup_hops : (owners.map (·.hop)).Nodup
  /-- So there are as many temporary rows as owners. -/
  form : p.form = .rowAgg owners.length

namespace RowAgg

variable {g : Graph} {d : Draft} {memo : Memo} {config : Config} {table : NodeTable}
  {root : HopId} {plan : Plan}

theorem form_of_plan (hplan : RowAgg.plan g d root = .ok plan) :
    plan.form = .rowAgg (plan.table.temporaryRows plan.output) := by
  obtain ⟨output, _, hplan⟩ := bind_eq_ok_iff.1 hplan
  obtain ⟨arguments, _, hplan⟩ := bind_eq_ok_iff.1 hplan
  obtain rfl := pure_eq_ok_iff.1 hplan
  rfl

/-- The nodes of the body that fill rows, each once. -/
def rowNodes (p : Plan) : List NodeId :=
  (p.table.reachable p.output).filter (p.table.check (·.isRowScalar))

/-- What is bound to these nodes. -/
def owners (d : Draft) (p : Plan) : List Binding := d.bindings.filter fun b => b.node ∈ rowNodes p

section Owners

variable (wf : g.WellFormed) (hd : Draft.ofRegion .rowAgg g memo config table root = .ok d)
  (laidOver : plan.LaidOver d root) {b : Binding} {n : NodeId}
include wf hd laidOver

theorem mem_rowNodes_iff : n ∈ rowNodes plan ↔ plan.FillsRow n := by
  obtain ⟨laid, hwithin⟩ := laidOver.within (Draft.accounted_of_ofRegion wf hd).laid
  rw [rowNodes, List.mem_filter, (laid.reachable_spec hwithin).2, Plan.FillsRow]

theorem nodup_rowNodes : (rowNodes plan).Nodup := by
  obtain ⟨laid, hwithin⟩ := laidOver.within (Draft.accounted_of_ofRegion wf hd).laid
  exact (laid.reachable_spec hwithin).1.filter _

theorem mem_owners_iff : b ∈ owners d plan ↔ b ∈ d.bindings ∧ plan.FillsRow b.node := by
  rw [owners, List.mem_filter, decide_eq_true_eq, mem_rowNodes_iff wf hd laidOver]

theorem fills_of_mem_owners (hb : b ∈ owners d plan) : Fills g d b := by
  obtain ⟨hmem, _, hrow⟩ := (mem_owners_iff wf hd laidOver).1 hb
  exact fills_of_mem wf hd hmem (laidOver.table ▸ hrow)

theorem mem_nodes_owners_iff : n ∈ (owners d plan).map (·.node) ↔ plan.FillsRow n := by
  rw [List.mem_map]
  constructor
  · rintro ⟨b, hb, rfl⟩
    exact ((mem_owners_iff wf hd laidOver).1 hb).2
  · intro hfills
    have ⟨hreached, hrow⟩ := hfills
    rw [laidOver.table] at hreached hrow
    obtain ⟨b, hb, rfl, _⟩ := exists_fills wf hd laidOver.output hreached hrow
    exact ⟨b, (mem_owners_iff wf hd laidOver).2 ⟨hb.mem, hfills⟩, rfl⟩

omit laidOver in
theorem nodup_hops_owners : ((owners d plan).map (·.hop)).Nodup :=
  (List.filter_sublist.map _).nodup (Draft.accounted_of_ofRegion wf hd).nodup

theorem nodup_nodes_owners : ((owners d plan).map (·.node)).Nodup := by
  refine List.Nodup.map_on (fun b hb c hc heq => ?_) (.of_map _ (nodup_hops_owners wf hd))
  exact (fills_of_mem_owners wf hd laidOver hb).unique (fills_of_mem_owners wf hd laidOver hc) heq

theorem length_owners : (owners d plan).length = plan.table.temporaryRows plan.output := by
  have same : ((owners d plan).map (·.node)).Perm (rowNodes plan) :=
    (List.perm_ext_iff_of_nodup (nodup_nodes_owners wf hd laidOver)
      (nodup_rowNodes wf hd laidOver)).2 fun n =>
        (mem_nodes_owners_iff wf hd laidOver).trans (mem_rowNodes_iff wf hd laidOver).symm
  obtain ⟨laid, hwithin⟩ := laidOver.within (Draft.accounted_of_ofRegion wf hd).laid
  rw [← List.length_map (·.node), same.length_eq, rowNodes,
    NodeTable.temporaryRows_eq (laid.descendingFrom hwithin)]

end Owners

/-- The plan of a lowered region counts the hops that scale rows and are part of its body. -/
theorem rowsOf_owners (wf : g.WellFormed)
    (hd : Draft.ofRegion .rowAgg g memo config table root = .ok d)
    (hplan : RowAgg.plan g d root = .ok plan) : plan.RowsOf g memo root d (owners d plan) := by
  obtain ⟨laidOver, _⟩ := of_plan_eq_ok hplan
  refine ⟨mem_owners_iff wf hd laidOver, fun hb => ?_, mem_nodes_owners_iff wf hd laidOver,
    nodup_nodes_owners wf hd laidOver, nodup_hops_owners wf hd, ?_⟩
  · have fills := fills_of_mem_owners wf hd laidOver hb
    have hmem := Draft.mem_lowered_iff.2 ⟨_, fills.mem, fills.lowered, rfl⟩
    obtain ⟨_, _, _, _, _, hregion, _⟩ := Draft.ofRegion_lowered wf hd hmem
    exact ⟨fills.lowered, hregion, fills.scales⟩
  · rw [form_of_plan hplan, length_owners wf hd laidOver]

/-- In a typed graph what has several rows and several columns is a matrix. -/
theorem ScalesRows.isGenuineMatrix {x : HopId} (scales : ScalesRows g x) (typed : g.IsTyped) :
    ∃ left, g.input? x 0 = some left ∧ left.isGenuineMatrix = true := by
  obtain ⟨h, _, left, hh, _, hleft, hgenuine⟩ := scales
  obtain ⟨y, _, hy⟩ := (Graph.input?_iff_of_hop? hh).1 hleft
  exact ⟨left, hleft, typed.isGenuineMatrix hy hgenuine⟩

end RowAgg

/-- In a plan of the row template, whatever the memo, each node that fills a temporary row is that of
one lowered binary operator with a genuine matrix on its left, different nodes are those of
different hops, and the plan counts these hops, of which the region has at least as many. -/
theorem Plan.rowAgg_temporaryRows {g : Graph} (built : g.IsBuilt) {memo : Memo} {config : Config}
    {table : NodeTable} {root : HopId} {plan : Plan}
    (hplan : Plan.construct .rowAgg g memo config table root = .ok plan) :
    ∃ d owners, Draft.ofRegion .rowAgg g memo config table root = .ok d ∧
      plan.RowsOf g memo root d owners ∧
      (g.IsTyped → ∀ b ∈ owners, ∃ left, g.input? b.hop 0 = some left ∧
        left.isGenuineMatrix = true) ∧
      ∀ region : List HopId,
        (∀ x, memo.InRegion .rowAgg g root x → RowAgg.ScalesRows g x → x ∈ region) →
          owners.length ≤ region.length := by
  obtain ⟨d, hd, hplan⟩ := bind_eq_ok_iff.1 hplan
  have rowsOf := RowAgg.rowsOf_owners built.wellFormed hd hplan
  refine ⟨d, _, hd, rowsOf, fun typed b hb => ?_, fun region hregion => ?_⟩
  · obtain ⟨_, _, scales⟩ := rowsOf.lowered hb
    exact scales.isGenuineMatrix typed
  · rw [← List.length_map (·.hop)]
    refine (List.subperm_of_subset rowsOf.nodup_hops fun x hx => ?_).length_le
    obtain ⟨b, hb, rfl⟩ := List.mem_map.1 hx
    obtain ⟨_, hinner, scales⟩ := rowsOf.lowered hb
    exact hregion b.hop hinner scales

/-- The rows of a matrix are divided by their sums and multiplied by what they sum to then. -/
def Plan.rescaled : Graph :=
  Graph.empty.build [.data "X" 100 20, .rowSums 0, .binary .div 0 1, .rowSums 2, .binary .mult 2 3,
    .rowSums 4]

/-- The plan for the sums of these rows. -/
def Plan.ofRescaled : Plan :=
  (Plan.construct .rowAgg rescaled (Memo.empty.explore rescaled .default [5]).1 .default .empty
    5).toOption.getD ⟨[], .empty, [], 0, .rowAgg 0⟩

/-- The divided row is read both where it is summed and where it is multiplied, and needs one
temporary row; the multiplied row needs another. -/
theorem Plan.rowAgg_temporaryRows_rescaled :
    Plan.construct .rowAgg rescaled (Memo.empty.explore rescaled .default [5]).1 .default .empty 5 =
        .ok ofRescaled ∧
      ∃ d owners, Draft.ofRegion .rowAgg rescaled (Memo.empty.explore rescaled .default [5]).1
          .default .empty 5 = .ok d ∧
        ofRescaled.RowsOf rescaled (Memo.empty.explore rescaled .default [5]).1 5 d owners ∧
        owners.length = 2 := by
  have hplan : Plan.construct .rowAgg rescaled (Memo.empty.explore rescaled .default [5]).1 .default
      .empty 5 = .ok ofRescaled := by decide +kernel
  obtain ⟨d, owners, hd, rowsOf, _⟩ := rowAgg_temporaryRows ⟨_, rfl⟩ hplan
  have hform : ofRescaled.form = .rowAgg 2 := by decide +kernel
  exact ⟨hplan, d, owners, hd, rowsOf, KernelForm.rowAgg.inj (rowsOf.form.symm.trans hform)⟩

end OpFusion
