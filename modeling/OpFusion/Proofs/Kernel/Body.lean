import OpFusion.Proofs.Kernel.Table
import OpFusion.Proofs.Kernel.Visits

/-!
# What a kernel reads

A kernel body reads a hop when a kernel input for it lies below the node of its result. Where a
table is laid, the body is acyclic, so `hopsRead` lists exactly these hops
(`Laid.mem_hopsRead_iff`), and what is allowed of kernel inputs holds of each of them
(`Laid.allows_reads`).
-/

namespace OpFusion.Kernel

/-- Only a kernel input stands for a hop. -/
theorem Node.sourceHop?_eq_some_iff {n : Node} {x : HopId} :
    n.sourceHop? = some x ↔ ∃ name, n.op = .data x name := by
  unfold sourceHop?
  cases n.op <;> simp

namespace NodeTable

variable {t : NodeTable} {root base : Nat} {allowed : NodeOp → Bool} {x : HopId}

/-- A kernel input for the hop lies below a node, or is the node itself. -/
def Reads (t : NodeTable) (root : NodeId) (x : HopId) : Prop :=
  ∃ id n, Dag.Reaches t.operands root id ∧ t.node? id = some n ∧ n.sourceHop? = some x

/-- The nodes of a kernel read earlier nodes only. -/
theorem Laid.descendingFrom (laid : t.Laid base allowed) (hroot : t.Within base root) :
    Dag.DescendingFrom t.operands root := by
  intro id reached c hc
  have hid : t.Within base id := laid.within_of_reaches (.refl t) hroot reached
  obtain ⟨n, hn⟩ := exists_node? hid.2
  rw [operands_of_node? hn] at hc
  exact (laid.operands hid.1 hn c hc).2

/-- The nodes of a body are listed once each, and all of them. -/
theorem Laid.reachable_spec (laid : t.Laid base allowed) (hroot : t.Within base root) :
    (t.reachable root).Nodup ∧ ∀ id, id ∈ t.reachable root ↔ Dag.Reaches t.operands root id := by
  have orders := ordersBelow_reachable (laid.descendingFrom hroot)
  exact ⟨orders.nodup, orders.mem_iff⟩

/-- The hops that a kernel is found to read are those it has inputs for. -/
theorem Laid.mem_hopsRead_iff (laid : t.Laid base allowed) (hroot : t.Within base root) :
    x ∈ t.hopsRead root ↔ t.Reads root x := by
  have reachable := (laid.reachable_spec hroot).2
  rw [(meetsInOrder_hopsRead (laid.descendingFrom hroot)).mem_iff]
  constructor
  · rintro ⟨id, hid, hx⟩
    obtain ⟨n, hn, hx⟩ := Option.bind_eq_some_iff.1 hx
    exact ⟨id, n, (reachable id).1 hid, hn, hx⟩
  · rintro ⟨id, n, reached, hn, hx⟩
    exact ⟨id, (reachable id).2 reached, by rw [source?, hn, Option.bind_some, hx]⟩

/-- A kernel reads only what is allowed to it. -/
theorem Laid.allows_reads (laid : t.Laid base allowed) (hroot : t.Within base root)
    (hreads : t.Reads root x) : ∃ name, allowed (.data x name) := by
  obtain ⟨id, n, reached, hn, hx⟩ := hreads
  obtain ⟨name, hop⟩ := Node.sourceHop?_eq_some_iff.1 hx
  have hid : t.Within base id := laid.within_of_reaches (.refl t) hroot reached
  refine ⟨name, ?_⟩
  rw [← hop]
  exact laid.allows hid.1 hn

end NodeTable

end OpFusion.Kernel
