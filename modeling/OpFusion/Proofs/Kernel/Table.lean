import OpFusion.Kernel.Fragment
import OpFusion.Proofs.Dag.Reachability

/-!
# Growing node tables

Node tables only grow (`Keeps`). A table is `Laid` from a number on when every node from there on
reads earlier nodes from there on and computes something that is allowed. Emitting a fragment over
such nodes, and fitting the result to a hop, keep a table laid (`Laid.emit`, `Laid.fitTo`), so what
one kernel reaches in a table stays inside the nodes that were made for it.
-/

namespace OpFusion.Kernel

/-- The operation adds to the output row. -/
def NodeOp.accumulates : NodeOp → Bool
  | .binary prim _ _ => prim.isRowAdd
  | _ => false

/-- The operation is a kernel input. -/
def NodeOp.isData : NodeOp → Bool
  | .data _ _ => true
  | _ => false

/-- The operation reads no hop but those in a list. -/
def NodeOp.readsOnly (hops : List HopId) : NodeOp → Bool
  | .data hop _ => hop ∈ hops
  | _ => true

namespace Fragment

/-- The existing nodes that a fragment reads. -/
def leaves : Fragment → List NodeId
  | .node id => [id]
  | .literal _ => []
  | .unary _ a => a.leaves
  | .binary _ a b => a.leaves ++ b.leaves
  | .ternary _ a b c => a.leaves ++ b.leaves ++ c.leaves

/-- The new nodes of a fragment compute what is allowed, whatever numbers their operands get. -/
def Admits (allowed : NodeOp → Bool) : Fragment → Prop
  | .node _ => True
  | .literal value => allowed (.literal value)
  | .unary prim a => (∀ x, allowed (.unary prim x)) ∧ a.Admits allowed
  | .binary prim a b => (∀ x y, allowed (.binary prim x y)) ∧ a.Admits allowed ∧ b.Admits allowed
  | .ternary prim a b c =>
    (∀ x y z, allowed (.ternary prim x y z)) ∧ a.Admits allowed ∧ b.Admits allowed ∧
      c.Admits allowed

/-- A fragment adds no kernel input, so whatever allows all else admits it. -/
theorem admits_of_isData {allowed : NodeOp → Bool} (h : ∀ op, op.isData = false → allowed op) :
    ∀ f : Fragment, f.Admits allowed
  | .node _ => trivial
  | .literal _ => h _ rfl
  | .unary _ a => ⟨fun _ => h _ rfl, admits_of_isData h a⟩
  | .binary _ a b => ⟨fun _ _ => h _ rfl, admits_of_isData h a, admits_of_isData h b⟩
  | .ternary _ a b c =>
    ⟨fun _ _ _ => h _ rfl, admits_of_isData h a, admits_of_isData h b, admits_of_isData h c⟩

end Fragment

namespace Node

@[simp] theorem data_op {h : Hop} : (data h).op = .data h.id h.kernelName := rfl

@[simp] theorem literal_op {value : Literal} : (literal value).op = .literal value := rfl

@[simp] theorem reshaped_op {n : Node} {s : Shape} : (n.reshaped s).op = n.op := by
  unfold reshaped
  split <;> rfl

end Node

namespace NodeTable

variable {t t' t'' : NodeTable} {id base : Nat} {n : Node} {allowed : NodeOp → Bool}

@[simp] theorem unary_op {prim : UnaryPrim} {a : NodeId} : (t.unary prim a).op = .unary prim a := by
  unfold unary
  split
  · split <;> rfl
  · rfl

@[simp] theorem cellwise_op {op : NodeOp} : (t.cellwise op).op = op := by
  unfold cellwise
  split <;> rfl

@[simp] theorem binary_op {prim : BinaryPrim} {a b : NodeId} :
    (t.binary prim a b).op = .binary prim a b := by
  cases prim with
  | dotProduct | rowAdd | rowScalar => rfl
  | cell op => exact cellwise_op

@[simp] theorem ternary_op {prim : TernaryPrim} {a b c : NodeId} :
    (t.ternary prim a b c).op = .ternary prim a b c := by
  unfold ternary
  split
  · rfl
  · exact cellwise_op

/-! ## Tables that keep their nodes -/

theorem lt_size_of_node? (hn : t.node? id = some n) : id < t.size :=
  (Array.getElem?_eq_some_iff.1 hn).1

theorem exists_node? (hid : id < t.size) : ∃ n, t.node? id = some n :=
  ⟨t.nodes[id], Array.getElem?_eq_getElem hid⟩

theorem operands_of_node? (hn : t.node? id = some n) : t.operands id = n.op.operands := by
  rw [NodeTable.operands, hn]

/-- Every node of one table is in the other under its number. -/
def Keeps (t t' : NodeTable) : Prop := ∀ ⦃id n⦄, t.node? id = some n → t'.node? id = some n

theorem keeps_iff : t.Keeps t' ↔ ∀ id < t.size, t'.node? id = t.node? id := by
  constructor
  · intro keeps id hid
    obtain ⟨n, hn⟩ := exists_node? hid
    rw [hn, keeps hn]
  · intro h id n hn
    rw [h id (lt_size_of_node? hn), hn]

instance : Decidable (t.Keeps t') := decidable_of_iff _ keeps_iff.symm

theorem Keeps.refl (t : NodeTable) : t.Keeps t := fun _ _ hn => hn

theorem Keeps.trans (h : t.Keeps t') (h' : t'.Keeps t'') : t.Keeps t'' := fun _ _ hn => h' (h hn)

theorem Keeps.size_le (h : t.Keeps t') : t.size ≤ t'.size := by
  rcases Nat.eq_zero_or_pos t.size with hzero | hpos
  · omega
  · obtain ⟨n, hn⟩ := exists_node? (Nat.sub_lt hpos Nat.zero_lt_one)
    have hlast : t.size - 1 < t'.size := lt_size_of_node? (h hn)
    omega

theorem node?_push : (t.push n).1.node? id = if id = t.size then some n else t.node? id :=
  Array.getElem?_push

@[simp] theorem push_snd : (t.push n).2 = t.size := rfl

@[simp] theorem size_push : (t.push n).1.size = t.size + 1 := Array.size_push _

theorem keeps_push : t.Keeps (t.push n).1 := by
  intro id m hm
  have hne : id ≠ t.size := Nat.ne_of_lt (lt_size_of_node? hm)
  rw [node?_push, if_neg hne]
  exact hm

theorem keeps_emit (f : Fragment) : ∀ t : NodeTable, t.Keeps (t.emit f).1 := by
  induction f with
  | node => exact Keeps.refl
  | literal => exact fun t => keeps_push
  | unary prim a iha => exact fun t => (iha t).trans keeps_push
  | binary prim a b iha ihb => exact fun t => ((iha t).trans (ihb _)).trans keeps_push
  | ternary prim a b c iha ihb ihc =>
    exact fun t => (((iha t).trans (ihb _)).trans (ihc _)).trans keeps_push

theorem keeps_fitTo {h : Hop} : t.Keeps (t.fitTo h id).1 := by
  unfold fitTo
  split
  · split
    · exact keeps_push
    · exact Keeps.refl t
  · exact Keeps.refl t

/-! ## Laid tables -/

/-- The number is that of a node from `base` on. -/
def Within (t : NodeTable) (base id : Nat) : Prop := base ≤ id ∧ id < t.size

theorem Within.keeps (h : t.Within base id) (keeps : t.Keeps t') : t'.Within base id :=
  ⟨h.1, Nat.lt_of_lt_of_le h.2 keeps.size_le⟩

/-- From `base` on, nodes read only earlier nodes from `base` on and compute what is allowed. -/
structure Laid (base : Nat) (allowed : NodeOp → Bool) (t : NodeTable) : Prop where
  base_le : base ≤ t.size
  operands : ∀ ⦃id n⦄, base ≤ id → t.node? id = some n → ∀ c ∈ n.op.operands, base ≤ c ∧ c < id
  allows : ∀ ⦃id n⦄, base ≤ id → t.node? id = some n → allowed n.op

/-- Nothing has been laid from the end of a table on. -/
theorem Laid.start (t : NodeTable) (allowed : NodeOp → Bool) : t.Laid t.size allowed := by
  have none ⦃id n⦄ (hid : t.size ≤ id) : t.node? id ≠ some n := fun hn =>
    absurd (lt_size_of_node? hn) (Nat.not_lt.2 hid)
  exact ⟨Nat.le_refl _, fun _ _ hid hn => absurd hn (none hid), fun _ _ hid hn =>
    absurd hn (none hid)⟩

theorem Laid.mono {allowed' : NodeOp → Bool} (laid : t.Laid base allowed)
    (h : ∀ op, allowed op → allowed' op) : t.Laid base allowed' :=
  ⟨laid.base_le, laid.operands, fun _ _ hid hn => h _ (laid.allows hid hn)⟩

theorem Laid.push (laid : t.Laid base allowed) (hop : ∀ c ∈ n.op.operands, t.Within base c)
    (hallowed : allowed n.op) : (t.push n).1.Laid base allowed := by
  refine ⟨?_, ?_, ?_⟩
  · have := laid.base_le
    rw [size_push]
    omega
  · intro id m hid hm c hc
    rw [node?_push] at hm
    split at hm
    · rename_i heq
      obtain rfl : n = m := Option.some.inj hm
      exact heq ▸ hop c hc
    · exact laid.operands hid hm c hc
  · intro id m hid hm
    rw [node?_push] at hm
    split at hm
    · obtain rfl : n = m := Option.some.inj hm
      exact hallowed
    · exact laid.allows hid hm

theorem Laid.within_push (laid : t.Laid base allowed) : (t.push n).1.Within base t.size :=
  ⟨laid.base_le, by rw [size_push]; omega⟩

/-- Emitting an admitted fragment over laid nodes keeps the table laid, and its top is in there. -/
theorem Laid.emit {f : Fragment} : ∀ {t : NodeTable}, t.Laid base allowed → f.Admits allowed →
    (∀ a ∈ f.leaves, t.Within base a) →
    (t.emit f).1.Laid base allowed ∧ (t.emit f).1.Within base (t.emit f).2 := by
  induction f with
  | node id =>
    intro t laid _ hleaves
    exact ⟨laid, hleaves id List.mem_cons_self⟩
  | literal value =>
    intro t laid hadmits _
    exact ⟨laid.push (by simp [NodeOp.operands]) hadmits, laid.within_push⟩
  | unary prim a iha =>
    intro t laid hadmits hleaves
    obtain ⟨laidA, hA⟩ := iha laid hadmits.2 hleaves
    refine ⟨laidA.push ?_ ?_, laidA.within_push⟩
    · simpa [NodeOp.operands] using hA
    · rw [unary_op]
      exact hadmits.1 _
  | binary prim a b iha ihb =>
    intro t laid hadmits hleaves
    -- The second operand is emitted behind the first, which stays where it is.
    obtain ⟨hprim, hadmitsA, hadmitsB⟩ := hadmits
    obtain ⟨laidA, hA⟩ := iha laid hadmitsA fun x hx => hleaves x (List.mem_append_left _ hx)
    obtain ⟨laidB, hB⟩ := ihb laidA hadmitsB fun x hx =>
      (hleaves x (List.mem_append_right _ hx)).keeps (keeps_emit a t)
    refine ⟨laidB.push ?_ ?_, laidB.within_push⟩
    · simpa [NodeOp.operands] using ⟨hA.keeps (keeps_emit b _), hB⟩
    · rw [binary_op]
      exact hprim _ _
  | ternary prim a b c iha ihb ihc =>
    intro t laid hadmits hleaves
    obtain ⟨hprim, hadmitsA, hadmitsB, hadmitsC⟩ := hadmits
    have leaf {x : NodeId} (hx : x ∈ a.leaves ∨ x ∈ b.leaves ∨ x ∈ c.leaves) : t.Within base x :=
      hleaves x (by simpa [Fragment.leaves] using hx)
    obtain ⟨laidA, hA⟩ := iha laid hadmitsA fun x hx => leaf (.inl hx)
    obtain ⟨laidB, hB⟩ := ihb laidA hadmitsB fun x hx =>
      (leaf (.inr (.inl hx))).keeps (keeps_emit a t)
    obtain ⟨laidC, hC⟩ := ihc laidB hadmitsC fun x hx =>
      ((leaf (.inr (.inr hx))).keeps (keeps_emit a t)).keeps (keeps_emit b _)
    refine ⟨laidC.push ?_ ?_, laidC.within_push⟩
    · have hA' := (hA.keeps (keeps_emit b _)).keeps (keeps_emit c _)
      have hB' := hB.keeps (keeps_emit c _)
      simpa [NodeOp.operands] using ⟨hA', hB', hC⟩
    · rw [ternary_op]
      exact hprim _ _ _

/-- Fitting a laid node to a hop keeps the table laid: a copy reads and computes the same. -/
theorem Laid.fitTo {h : Hop} (laid : t.Laid base allowed) (hid : t.Within base id) :
    (t.fitTo h id).1.Laid base allowed ∧ (t.fitTo h id).1.Within base (t.fitTo h id).2 := by
  unfold NodeTable.fitTo
  split
  · rename_i n hn
    split
    · refine ⟨laid.push ?_ ?_, laid.within_push⟩
      · intro c hc
        rw [Node.reshaped_op] at hc
        obtain ⟨hbase, hlt⟩ := laid.operands hid.1 hn c hc
        exact ⟨hbase, Nat.lt_trans hlt hid.2⟩
      · rw [Node.reshaped_op]
        exact laid.allows hid.1 hn
    · exact ⟨laid, hid⟩
  · exact ⟨laid, hid⟩

/-- Fitting a node to a hop does not change what it computes. -/
theorem fitTo_op {h : Hop} (hn : t.node? id = some n) :
    ∃ m, (t.fitTo h id).1.node? (t.fitTo h id).2 = some m ∧ m.op = n.op := by
  simp only [NodeTable.fitTo, hn]
  split
  · exact ⟨n.reshaped h.shape, by rw [push_snd, node?_push, if_pos rfl], Node.reshaped_op⟩
  · exact ⟨n, hn, rfl⟩

/-- What a node of a laid table reaches, also later on, was laid with it. -/
theorem Laid.within_of_reaches (laid : t.Laid base allowed) (keeps : t.Keeps t') {root : Nat}
    (hroot : t.Within base root) (reached : Dag.Reaches t'.operands root id) :
    t.Within base id := by
  induction reached with
  | refl => exact hroot
  | @tail b c _ hc ih =>
    obtain ⟨n, hn⟩ := exists_node? ih.2
    rw [operands_of_node? (keeps hn)] at hc
    obtain ⟨hbase, hlt⟩ := laid.operands ih.1 hn c hc
    exact ⟨hbase, Nat.lt_trans hlt ih.2⟩

end NodeTable

end OpFusion.Kernel
