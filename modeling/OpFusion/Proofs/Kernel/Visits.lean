import Mathlib.Data.Set.Card
import OpFusion.Kernel.Body
import OpFusion.Proofs.Dag.Walk
import OpFusion.Proofs.Kernel.Table

/-!
# Visiting the nodes of a body

Where nodes read earlier nodes, whatever is gathered from the nodes below a node is gathered along
one list: what the node reaches, each node once and after its operands, however the nodes are shared
(`NodeTable.forEachNode_visits`). Two nodes may be kernel inputs for one hop, and the hop is noted at
the first of them (`NodeTable.MeetsInOrder`); two nodes may compute the same, and both are counted.
-/

namespace OpFusion.Kernel.NodeTable

variable {t : NodeTable} {root id : NodeId} {nodes : List NodeId} {hops : List HopId} {x : HopId}

/-! ## What is visited -/

/-- Nodes read earlier nodes, as far as the table goes. -/
theorem descending_iff :
    Dag.Descending t.operands ↔ ∀ id < t.size, ∀ c ∈ t.operands id, c < id := by
  refine ⟨fun desc id _ => desc id, fun desc id c hc => ?_⟩
  by_cases hid : id < t.size
  · exact desc id hid c hc
  · have absent : t.node? id = none := Array.getElem?_eq_none (Nat.not_lt.1 hid)
    rw [operands, absent] at hc
    exact absurd hc List.not_mem_nil

instance : Decidable (Dag.Descending t.operands) := decidable_of_iff _ descending_iff.symm

/-- What a node reaches, each node once and after its operands. -/
structure OrdersBelow (t : NodeTable) (root : NodeId) (order : List NodeId) : Prop where
  /-- Everything that the node reaches is listed, and nothing else. -/
  mem_iff (id : NodeId) : id ∈ order ↔ Dag.Reaches t.operands root id
  nodup : order.Nodup
  /-- The operands of a node stand before it. -/
  operands_before {before after : List NodeId} {id : NodeId} :
    order = before ++ id :: after → ∀ c ∈ t.operands id, c ∈ before

theorem reachable_eq (desc : Dag.DescendingFrom t.operands root) :
    t.reachable root = Dag.postOrder t.operands [root] := by
  rw [reachable, forEachNode, Dag.gather_eq_foldl desc, List.foldl_append_eq_append,
    List.nil_append]
  exact List.flatMap_singleton' _

theorem ordersBelow_reachable (desc : Dag.DescendingFrom t.operands root) :
    t.OrdersBelow root (t.reachable root) := by
  have below : ∀ r ∈ [root], Dag.DescendingFrom t.operands r := fun r hr =>
    List.mem_singleton.1 hr ▸ desc
  obtain ⟨first, mem⟩ := Dag.postOrder_spec below
  rw [reachable_eq desc]
  refine ⟨fun id => ?_, first.nodup, fun hsplit => first.mem_before hsplit⟩
  rw [mem]
  simp [Dag.ReachedFrom]

/-- Whatever takes note of the nodes sees them in the order in which they are listed. -/
theorem forEachNode_eq_foldl (desc : Dag.DescendingFrom t.operands root) {σ : Type}
    (note : σ → NodeId → σ) (start : σ) :
    t.forEachNode root note start = (t.reachable root).foldl note start := by
  rw [reachable_eq desc]
  exact Dag.gather_eq_foldl desc

/-! ## The hops that are read -/

/-- The hops that some nodes are kernel inputs for, each once and in the order of the first of these
nodes. -/
structure MeetsInOrder (t : NodeTable) (nodes : List NodeId) (hops : List HopId) : Prop where
  mem_iff (x : HopId) : x ∈ hops ↔ ∃ id ∈ nodes, t.source? id = some x
  ascending : hops.Pairwise fun x y =>
    nodes.findIdx (t.source? · = some x) < nodes.findIdx (t.source? · = some y)

theorem MeetsInOrder.nodup (meets : t.MeetsInOrder nodes hops) : hops.Nodup := by
  refine List.Pairwise.imp ?_ meets.ascending
  rintro x y hlt rfl
  exact Nat.lt_irrefl _ hlt

/-- A further node changes nothing about where a hop was first met. -/
theorem MeetsInOrder.findIdx_snoc (meets : t.MeetsInOrder nodes hops) (hx : x ∈ hops)
    (id : NodeId) :
    (nodes ++ [id]).findIdx (t.source? · = some x) = nodes.findIdx (t.source? · = some x) := by
  have met : nodes.findIdx (t.source? · = some x) < nodes.length := by
    simpa [List.findIdx_lt_length] using (meets.mem_iff x).1 hx
  rw [List.findIdx_append, if_pos met]

theorem MeetsInOrder.skip (meets : t.MeetsInOrder nodes hops)
    (hid : ∀ x, t.source? id = some x → x ∈ hops) : t.MeetsInOrder (nodes ++ [id]) hops := by
  refine ⟨fun x => ?_, meets.ascending.imp_of_mem fun hx hy hlt => ?_⟩
  · rw [meets.mem_iff]
    constructor
    · rintro ⟨a, ha, hax⟩
      exact ⟨a, List.mem_append_left _ ha, hax⟩
    · rintro ⟨a, ha, hax⟩
      rcases List.mem_append.1 ha with ha | ha
      · exact ⟨a, ha, hax⟩
      · rw [List.mem_singleton.1 ha] at hax
        exact (meets.mem_iff x).1 (hid x hax)
  · rw [meets.findIdx_snoc hx, meets.findIdx_snoc hy]
    exact hlt

theorem MeetsInOrder.snoc (meets : t.MeetsInOrder nodes hops) (hid : t.source? id = some x)
    (hx : x ∉ hops) : t.MeetsInOrder (nodes ++ [id]) (hops ++ [x]) := by
  have unmet : ¬ nodes.findIdx (t.source? · = some x) < nodes.length := by
    simpa [List.findIdx_lt_length] using mt (meets.mem_iff x).2 hx
  refine ⟨fun y => ?_, ?_⟩
  · rw [List.mem_append, meets.mem_iff, List.mem_singleton]
    simp only [List.mem_append, List.mem_singleton, or_and_right, exists_or, exists_eq_left, hid,
      Option.some.injEq]
    exact or_congr_right eq_comm
  · refine List.pairwise_append.2 ⟨meets.ascending.imp_of_mem fun ha hb hlt => ?_,
      List.pairwise_singleton _ _, fun y hy z hz => ?_⟩
    · rw [meets.findIdx_snoc ha, meets.findIdx_snoc hb]
      exact hlt
    · obtain rfl := List.mem_singleton.1 hz
      have met : nodes.findIdx (t.source? · = some y) < nodes.length := by
        simpa [List.findIdx_lt_length] using (meets.mem_iff y).1 hy
      rw [meets.findIdx_snoc hy, List.findIdx_append, if_neg unmet]
      exact Nat.lt_of_lt_of_le met (Nat.le_add_left _ _)

theorem MeetsInOrder.noteSource (meets : t.MeetsInOrder nodes hops) (id : NodeId) :
    t.MeetsInOrder (nodes ++ [id]) (t.noteSource hops id) := by
  unfold NodeTable.noteSource
  split
  · rename_i x hid
    split
    · rename_i hx
      exact meets.skip fun y hy => Option.some.inj (hid.symm.trans hy) ▸ hx
    · exact meets.snoc hid ‹_›
  · rename_i hid
    exact meets.skip fun y hy => nomatch hid.symm.trans hy

theorem meetsInOrder_foldl (nodes : List NodeId) :
    t.MeetsInOrder nodes (nodes.foldl t.noteSource []) := by
  induction nodes using List.reverseRecOn with
  | nil => exact ⟨by simp, .nil⟩
  | append_singleton nodes id ih =>
    rw [List.foldl_append, List.foldl_cons, List.foldl_nil]
    exact ih.noteSource id

theorem meetsInOrder_hopsRead (desc : Dag.DescendingFrom t.operands root) :
    t.MeetsInOrder (t.reachable root) (t.hopsRead root) := by
  rw [hopsRead, forEachNode_eq_foldl desc]
  exact meetsInOrder_foldl _

/-! ## The temporary rows -/

theorem foldl_count (p : NodeId → Bool) (nodes : List NodeId) (start : Nat) :
    nodes.foldl (fun rows id => if p id then rows + 1 else rows) start =
      start + (nodes.filter p).length := by
  induction nodes generalizing start with
  | nil => rfl
  | cons id rest ih =>
    rw [List.foldl_cons, ih]
    cases hp : p id
    · simp [hp]
    · simp [hp]
      omega

theorem temporaryRows_eq (desc : Dag.DescendingFrom t.operands root) :
    t.temporaryRows root = ((t.reachable root).filter (t.check (·.isRowScalar))).length := by
  rw [temporaryRows, forEachNode_eq_foldl desc, foldl_count, Nat.zero_add]

/-- Along the nodes below a node, each visited once and after its operands, whatever is gathered from
a body is gathered: the hops that it reads, in the order of the first kernel inputs for them, and how
many of its nodes fill a temporary row. -/
theorem forEachNode_visits (desc : Dag.DescendingFrom t.operands root) :
    t.OrdersBelow root (t.reachable root) ∧
      (∀ (σ : Type) (note : σ → NodeId → σ) (start : σ),
        t.forEachNode root note start = (t.reachable root).foldl note start) ∧
      (t.hopsRead root).Nodup ∧
      (∀ x, x ∈ t.hopsRead root ↔ ∃ id, Dag.Reaches t.operands root id ∧ t.source? id = some x) ∧
      (t.hopsRead root).Pairwise (fun x y =>
        (t.reachable root).findIdx (t.source? · = some x) <
          (t.reachable root).findIdx (t.source? · = some y)) ∧
      t.temporaryRows root =
        {id | Dag.Reaches t.operands root id ∧ t.check (·.isRowScalar) id = true}.ncard := by
  have orders := ordersBelow_reachable desc
  have meets := meetsInOrder_hopsRead desc
  have fillers : {id | Dag.Reaches t.operands root id ∧ t.check (·.isRowScalar) id = true} =
      ↑((t.reachable root).filter (t.check (·.isRowScalar))).toFinset := by
    ext id
    simp [orders.mem_iff]
  refine ⟨orders, fun _ => forEachNode_eq_foldl desc, meets.nodup, fun x => ?_, meets.ascending, ?_⟩
  · rw [meets.mem_iff]
    simp [orders.mem_iff]
  · rw [fillers, Set.ncard_coe_finset, List.toFinset_card_of_nodup (orders.nodup.filter _)]
    exact temporaryRows_eq desc

/-- A body in which two nodes are kernel inputs for one hop, two nodes scale it alike, and one of
these is read twice. -/
def scaledAlike : NodeTable :=
  ⟨#[⟨.data 4 "X", .matrix, ⟨some 100, some 20⟩⟩, ⟨.data 2 "s", .scalar, .scalar⟩,
    ⟨.binary (.rowScalar .mult) 0 1, .matrix, ⟨some 100, some 20⟩⟩,
    ⟨.data 4 "X", .matrix, ⟨some 100, some 20⟩⟩,
    ⟨.binary (.rowScalar .mult) 3 1, .matrix, ⟨some 100, some 20⟩⟩,
    ⟨.binary (.cell .plus) 4 2, .matrix, ⟨some 100, some 20⟩⟩,
    ⟨.binary (.cell .mult) 5 4, .matrix, ⟨some 100, some 20⟩⟩]⟩

theorem forEachNode_visits_scaledAlike :
    Dag.Descending scaledAlike.operands ∧
      scaledAlike.OrdersBelow 6 [3, 1, 4, 0, 2, 5, 6] ∧
      (∀ (σ : Type) (note : σ → NodeId → σ) (start : σ),
        scaledAlike.forEachNode 6 note start = [3, 1, 4, 0, 2, 5, 6].foldl note start) ∧
      scaledAlike.hopsRead 6 = [4, 2] ∧ scaledAlike.temporaryRows 6 = 2 ∧
      {id | Dag.Reaches scaledAlike.operands 6 id ∧
        scaledAlike.check (·.isRowScalar) id = true}.ncard = 2 := by
  have desc : Dag.Descending scaledAlike.operands := by decide
  have order : scaledAlike.reachable 6 = [3, 1, 4, 0, 2, 5, 6] := by decide
  have rows : scaledAlike.temporaryRows 6 = 2 := by decide
  obtain ⟨orders, sees, _, _, _, hrows⟩ := forEachNode_visits (desc.descendingFrom 6)
  rw [order] at orders sees
  exact ⟨desc, orders, sees, by decide, rows, hrows.symm.trans rows⟩

end OpFusion.Kernel.NodeTable
