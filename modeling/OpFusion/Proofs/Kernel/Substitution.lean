import OpFusion.Proofs.Kernel.Body

/-!
# Writing constants into a kernel

Some of the hops that a kernel reads may be constants. Substitution writes them into the nodes from
`base` on: an input node for such a hop becomes the constant, a replacement whose pattern has become
a NaN becomes the primitive that replaces NaNs, and every other node stays as it is. Numbers,
operands, types and extents do not change, so a table can be substituted in before or after nodes
are added to it (`substitute_push`, `substitute_emit`, `substitute_fitTo`).
-/

namespace OpFusion.Kernel

variable {value : HopId → Option Literal} {t t' : NodeTable} {base : Nat} {n : Node}
  {allowed : NodeOp → Bool} {id a b c : NodeId}

/-! ## Substitution -/

/-- The constant that a node is once constants are written into it. -/
def Node.constant? (value : HopId → Option Literal) (n : Node) : Option Literal :=
  match n.op with
  | .literal v => some v
  | .data hop _ => value hop
  | _ => none

namespace NodeTable

/-- The node will be a constant NaN. -/
def becomesNaN (value : HopId → Option Literal) (t : NodeTable) (id : NodeId) : Bool :=
  t.check (fun n => (n.constant? value).any (·.isNaN)) id

end NodeTable

/-- The replacement of a pattern that is, or is not, a NaN. -/
def TernaryPrim.substitute (isNaN : Bool) (prim : TernaryPrim) : TernaryPrim :=
  if prim = .replace ∧ isNaN = true then .replaceNaN else prim

/-- The operation with constants written into it, in a table that has its operands. -/
def NodeOp.substitute (value : HopId → Option Literal) (t : NodeTable) : NodeOp → NodeOp
  | .data hop name =>
    match value hop with
    | some v => .literal v
    | none => .data hop name
  | .ternary prim a b c => .ternary (prim.substitute (t.becomesNaN value b)) a b c
  | op => op

/-- The node with constants written into it. -/
def Node.substitute (value : HopId → Option Literal) (t : NodeTable) (n : Node) : Node :=
  { n with op := n.op.substitute value t }

/-- The table with constants written into the nodes from `base` on. -/
def NodeTable.substitute (value : HopId → Option Literal) (base : Nat) (t : NodeTable) :
    NodeTable :=
  ⟨t.nodes.mapIdx fun id n => if base ≤ id then n.substitute value t else n⟩

namespace Fragment

/-- The top of the fragment will be a constant NaN. -/
def becomesNaN (value : HopId → Option Literal) (t : NodeTable) : Fragment → Bool
  | .node id => t.becomesNaN value id
  | .literal v => v.isNaN
  | _ => false

/-- The fragment with constants written into it, over nodes of a table. -/
def substitute (value : HopId → Option Literal) (t : NodeTable) : Fragment → Fragment
  | .node id => .node id
  | .literal v => .literal v
  | .unary prim a => .unary prim (a.substitute value t)
  | .binary prim a b => .binary prim (a.substitute value t) (b.substitute value t)
  | .ternary prim a b c =>
    .ternary (prim.substitute (b.becomesNaN value t)) (a.substitute value t)
      (b.substitute value t) (c.substitute value t)

end Fragment

/-! ## What substitution keeps -/

@[simp] theorem NodeOp.operands_substitute {op : NodeOp} :
    (op.substitute value t).operands = op.operands := by
  cases op with
  | data hop name =>
    show NodeOp.operands (match value hop with | some v => .literal v | none => .data hop name) = []
    cases value hop <;> rfl
  | _ => rfl

@[simp] theorem Node.isMatrix_substitute : (n.substitute value t).isMatrix = n.isMatrix := rfl

@[simp] theorem Node.isRowScalar_substitute :
    (n.substitute value t).isRowScalar = n.isRowScalar := by
  obtain ⟨op, dataType, shape⟩ := n
  cases op with
  | data hop name =>
    show Node.isRowScalar ⟨match value hop with | some v => .literal v | none => .data hop name,
      dataType, shape⟩ = false
    cases value hop <;> rfl
  | _ => rfl

theorem Node.reshaped_substitute {s : Shape} :
    (n.substitute value t).reshaped s = (n.reshaped s).substitute value t := by
  unfold Node.reshaped
  rw [isMatrix_substitute]
  split <;> rfl

theorem Node.substitute_eq_self (h : n.op.substitute value t = n.op) : n.substitute value t = n := by
  rw [Node.substitute, h]

/-- A substituted node is a literal NaN exactly if it was to become one. -/
theorem Node.isNaN_substitute :
    (n.substitute value t).literal?.any (·.isNaN) = (n.constant? value).any (·.isNaN) := by
  obtain ⟨op, dataType, shape⟩ := n
  cases op with
  | data hop name =>
    simp only [Node.substitute, NodeOp.substitute, Node.literal?, Node.constant?]
    cases value hop <;> rfl
  | _ => rfl

/-- An input node that is no constant stays. -/
theorem Node.sourceHop?_substitute {x : HopId} :
    (n.substitute value t).sourceHop? = some x ↔ n.sourceHop? = some x ∧ value x = none := by
  obtain ⟨op, dataType, shape⟩ := n
  cases op with
  | data hop name =>
    simp only [Node.substitute, NodeOp.substitute, Node.sourceHop?, Option.some.injEq]
    constructor
    · intro h
      cases hvalue : value hop with
      | some v => simp [hvalue] at h
      | none =>
        obtain rfl : hop = x := by simpa [hvalue] using h
        exact ⟨rfl, hvalue⟩
    · rintro ⟨rfl, hvalue⟩
      simp [hvalue]
  | _ => simp [Node.substitute, NodeOp.substitute, Node.sourceHop?]

namespace NodeTable

/-- Two tables are the same if their nodes are. -/
theorem ext_node? (h : ∀ id, t.node? id = t'.node? id) : t = t' := by
  obtain ⟨nodes⟩ := t
  obtain ⟨nodes'⟩ := t'
  congr 1
  exact Array.ext_getElem? h

@[simp] theorem node?_substitute : (t.substitute value base).node? id =
    (t.node? id).map fun n => if base ≤ id then n.substitute value t else n :=
  Array.getElem?_mapIdx

@[simp] theorem size_substitute : (t.substitute value base).size = t.size := Array.size_mapIdx

@[simp] theorem operands_substitute :
    (t.substitute value base).operands = t.operands := by
  funext id
  simp only [operands, node?_substitute]
  cases t.node? id with
  | none => rfl
  | some n =>
    show NodeOp.operands (if base ≤ id then n.substitute value t else n).op = n.op.operands
    split
    · exact NodeOp.operands_substitute
    · rfl

@[simp] theorem reachable_substitute {root : NodeId} :
    (t.substitute value base).reachable root = t.reachable root := by
  rw [reachable, reachable, forEachNode, forEachNode, operands_substitute]

/-- What is asked of types and extents alone, substitution does not change. -/
theorem check_substitute {property : Node → Bool}
    (h : ∀ n, property (n.substitute value t) = property n) :
    (t.substitute value base).check property id = t.check property id := by
  simp only [check, node?_substitute]
  cases t.node? id with
  | none => rfl
  | some n =>
    show property (if base ≤ id then n.substitute value t else n) = property n
    split
    · exact h n
    · rfl

/-- The literals of a substituted table are those that it had and the constants written into it. -/
theorem check_isNaN_substitute (hid : base ≤ id) :
    (t.substitute value base).check (fun n => n.literal?.any (·.isNaN)) id =
      t.becomesNaN value id := by
  simp only [check, becomesNaN, node?_substitute, if_pos hid]
  cases t.node? id with
  | none => rfl
  | some n => exact Node.isNaN_substitute

/-- A literal NaN stays one. -/
theorem becomesNaN_of_check (h : t.check (fun n => n.literal?.any (·.isNaN)) id = true) :
    t.becomesNaN value id = true := by
  obtain ⟨n, hn, hnan⟩ := (Option.any_eq_true ..).1 h
  obtain ⟨op, dataType, shape⟩ := n
  cases op with
  | literal v =>
    simp only [becomesNaN, check, hn]
    exact hnan
  | _ => exact Bool.noConfusion hnan

theorem leadingMatrixShape?_substitute {ids : List NodeId} :
    (t.substitute value base).leadingMatrixShape? ids = t.leadingMatrixShape? ids := by
  unfold leadingMatrixShape?
  congr 1
  funext id
  rw [node?_substitute]
  cases t.node? id with
  | none => rfl
  | some n =>
    show ((some (if base ≤ id then n.substitute value t else n)).filter (·.isMatrix)).map (·.shape) =
      ((some n).filter (·.isMatrix)).map (·.shape)
    split
    · rw [Option.filter_some, Option.filter_some, Node.isMatrix_substitute]
      split <;> rfl
    · rfl

/-- A cellwise operation over a substituted table has the type and the extents that it had. -/
theorem cellwise_substitute {o o' : NodeOp} (h : o'.operands = o.operands) :
    (t.substitute value base).cellwise o' = { t.cellwise o with op := o' } := by
  unfold cellwise
  rw [leadingMatrixShape?_substitute, h]
  split <;> rfl

theorem unary_substitute {prim : UnaryPrim} :
    (t.substitute value base).unary prim a = t.unary prim a := by
  unfold unary
  rw [node?_substitute]
  cases t.node? a with
  | none => rfl
  | some n =>
    by_cases ha : base ≤ a
    · simp [ha, Node.substitute]
    · simp [ha]

theorem binary_substitute {prim : BinaryPrim} :
    (t.substitute value base).binary prim a b = t.binary prim a b := by
  cases prim with
  | dotProduct => rfl
  | rowAdd op | rowScalar op =>
    unfold binary
    rw [leadingMatrixShape?_substitute]
  | cell op =>
    show (t.substitute value base).cellwise (.binary (.cell op) a b) = t.cellwise (.binary (.cell op) a b)
    rw [cellwise_substitute (o := .binary (.cell op) a b) rfl]
    unfold cellwise
    split <;> rfl

theorem ternary_substitute {prim : TernaryPrim} {isNaN : Bool} :
    (t.substitute value base).ternary (prim.substitute isNaN) a b c =
      { t.ternary prim a b c with op := .ternary (prim.substitute isNaN) a b c } := by
  by_cases hprim : prim = .lookupColumn
  · subst hprim
    rfl
  · have hsubstitute : prim.substitute isNaN ≠ .lookupColumn := by
      unfold TernaryPrim.substitute
      split
      · simp
      · exact hprim
    rw [ternary, if_neg hsubstitute, ternary, if_neg hprim]
    exact cellwise_substitute rfl

/-! ## Substituting in growing tables -/

/-- Whether a node becomes a NaN does not change when nodes are added. -/
theorem becomesNaN_keeps (value : HopId → Option Literal) (keeps : t.Keeps t') (ha : a < t.size) :
    t'.becomesNaN value a = t.becomesNaN value a := by
  obtain ⟨n, hn⟩ := exists_node? ha
  simp only [becomesNaN, check, hn, keeps hn]

end NodeTable

/-- What is written into an operation does not change when nodes are added behind its operands. -/
theorem NodeOp.substitute_keeps (keeps : t.Keeps t') {op : NodeOp}
    (hop : ∀ c ∈ op.operands, c < t.size) : op.substitute value t' = op.substitute value t := by
  cases op with
  | ternary prim a b c =>
    have hb : b < t.size := hop b (by simp [operands])
    simp only [substitute, NodeTable.becomesNaN_keeps value keeps hb]
  | _ => rfl

namespace NodeTable

/-- A node may be added to a laid table before or after constants are written into it. -/
theorem substitute_push (value : HopId → Option Literal) (laid : t.Laid base allowed)
    (hop : ∀ c ∈ n.op.operands, c < t.size) :
    (t.substitute value base).push (n.substitute value t) =
      ((t.push n).1.substitute value base, (t.push n).2) := by
  refine Prod.ext ?_ size_substitute
  symm
  refine ext_node? fun id => ?_
  rw [node?_substitute, node?_push, node?_push, size_substitute, node?_substitute]
  by_cases hid : id = t.size
  · subst hid
    have hbase := laid.base_le
    rw [if_pos rfl, if_pos rfl]
    show some (if base ≤ t.size then n.substitute value (t.push n).1 else n) = _
    rw [if_pos hbase, Node.substitute, NodeOp.substitute_keeps keeps_push hop]
    rfl
  · rw [if_neg hid, if_neg hid]
    cases hm : t.node? id with
    | none => rfl
    | some m =>
      show some (if base ≤ id then m.substitute value (t.push n).1 else m) =
        some (if base ≤ id then m.substitute value t else m)
      by_cases hbase : base ≤ id
      · have hlt := lt_size_of_node? hm
        have hoperands : ∀ c ∈ m.op.operands, c < t.size := by
          intro c hc
          exact Nat.lt_trans (laid.operands hbase hm c hc).2 hlt
        rw [if_pos hbase, if_pos hbase, Node.substitute, NodeOp.substitute_keeps keeps_push hoperands]
        rfl
      · rw [if_neg hbase, if_neg hbase]

end NodeTable

namespace Fragment

theorem becomesNaN_keeps (value : HopId → Option Literal) (keeps : t.Keeps t') {f : Fragment}
    (hf : ∀ a ∈ f.leaves, a < t.size) :
    f.becomesNaN value t' = f.becomesNaN value t := by
  cases f with
  | node id => exact NodeTable.becomesNaN_keeps value keeps (hf id (List.mem_singleton_self id))
  | _ => rfl

theorem substitute_keeps (keeps : t.Keeps t') {f : Fragment} (hf : ∀ a ∈ f.leaves, a < t.size) :
    f.substitute value t' = f.substitute value t := by
  induction f with
  | node | literal => rfl
  | unary prim a iha => simp only [substitute, iha hf]
  | binary prim a b iha ihb =>
    have ha := iha fun x hx => hf x (List.mem_append_left _ hx)
    have hb := ihb fun x hx => hf x (List.mem_append_right _ hx)
    simp only [substitute, ha, hb]
  | ternary prim a b c iha ihb ihc =>
    have leaf {x : NodeId} (hx : x ∈ a.leaves ∨ x ∈ b.leaves ∨ x ∈ c.leaves) : x < t.size :=
      hf x (by simpa [leaves] using hx)
    have ha := iha fun x hx => leaf (.inl hx)
    have hb := ihb fun x hx => leaf (.inr (.inl hx))
    have hc := ihc fun x hx => leaf (.inr (.inr hx))
    have hnan := becomesNaN_keeps value keeps fun x hx => leaf (.inr (.inl hx))
    simp only [substitute, ha, hb, hc, hnan]

/-- The top of an emitted fragment becomes a NaN exactly if that of the fragment does. -/
theorem becomesNaN_emit {f : Fragment} :
    (t.emit f).1.becomesNaN value (t.emit f).2 = f.becomesNaN value t := by
  have pushed {t : NodeTable} {n : Node} :
      (t.push n).1.becomesNaN value (t.push n).2 = (n.constant? value).any (·.isNaN) := by
    simp [NodeTable.becomesNaN, NodeTable.check, NodeTable.node?_push]
  cases f with
  | node id => rfl
  | literal v => exact pushed
  | unary prim a =>
    rw [NodeTable.emit, pushed, Node.constant?, NodeTable.unary_op]
    rfl
  | binary prim a b =>
    rw [NodeTable.emit, pushed, Node.constant?, NodeTable.binary_op]
    rfl
  | ternary prim a b c =>
    rw [NodeTable.emit, pushed, Node.constant?, NodeTable.ternary_op]
    rfl

end Fragment

namespace NodeTable

/-- A fragment may be emitted before or after constants are written into it and its table. -/
theorem substitute_emit (value : HopId → Option Literal) {f : Fragment} : ∀ {t : NodeTable}, t.Laid base allowed →
    f.Admits allowed → (∀ a ∈ f.leaves, t.Within base a) →
    (t.substitute value base).emit (f.substitute value t) =
      ((t.emit f).1.substitute value base, (t.emit f).2) := by
  induction f with
  | node => exact fun _ _ _ => rfl
  | literal v =>
    intro t laid _ _
    exact substitute_push value (n := .literal v) laid (by simp [NodeOp.operands])
  | unary prim a iha =>
    intro t laid hadmits hleaves
    obtain ⟨laidA, hA⟩ := laid.emit hadmits.2 hleaves
    have pushed := substitute_push value (n := (t.emit a).1.unary prim (t.emit a).2) laidA
      (by simpa [NodeOp.operands] using hA.2)
    rw [Node.substitute_eq_self (by rw [unary_op]; rfl)] at pushed
    show (let first := (t.substitute value base).emit (a.substitute value t)
      first.1.push (first.1.unary prim first.2)) = _
    rw [iha laid hadmits.2 hleaves]
    show ((t.emit a).1.substitute value base).push
      (((t.emit a).1.substitute value base).unary prim (t.emit a).2) = _
    rw [unary_substitute]
    exact pushed
  | binary prim a b iha ihb =>
    intro t laid hadmits hleaves
    obtain ⟨_, hadmitsA, hadmitsB⟩ := hadmits
    have leavesA : ∀ x ∈ a.leaves, t.Within base x := fun x hx =>
      hleaves x (List.mem_append_left _ hx)
    have leavesB : ∀ x ∈ b.leaves, t.Within base x := fun x hx =>
      hleaves x (List.mem_append_right _ hx)
    have keepsA := keeps_emit a t
    obtain ⟨laidA, hA⟩ := laid.emit hadmitsA leavesA
    have leavesB' : ∀ x ∈ b.leaves, (t.emit a).1.Within base x := fun x hx =>
      (leavesB x hx).keeps keepsA
    obtain ⟨laidB, hB⟩ := laidA.emit hadmitsB leavesB'
    have first := iha laid hadmitsA leavesA
    have second := ihb laidA hadmitsB leavesB'
    rw [Fragment.substitute_keeps keepsA fun x hx => (leavesB x hx).2] at second
    have hA' := hA.keeps (keeps_emit b _)
    have pushed := substitute_push value
      (n := ((t.emit a).1.emit b).1.binary prim (t.emit a).2 ((t.emit a).1.emit b).2) laidB
      (by simpa [NodeOp.operands] using ⟨hA'.2, hB.2⟩)
    rw [Node.substitute_eq_self (by rw [binary_op]; rfl)] at pushed
    simp only [Fragment.substitute, NodeTable.emit, first, second, binary_substitute]
    exact pushed
  | ternary prim a b c iha ihb ihc =>
    intro t laid hadmits hleaves
    obtain ⟨_, hadmitsA, hadmitsB, hadmitsC⟩ := hadmits
    have leaf {x : NodeId} (hx : x ∈ a.leaves ∨ x ∈ b.leaves ∨ x ∈ c.leaves) : t.Within base x :=
      hleaves x (by simpa [Fragment.leaves] using hx)
    have keepsA := keeps_emit a t
    have keepsB := keeps_emit b (t.emit a).1
    have keepsC := keeps_emit c ((t.emit a).1.emit b).1
    have leavesA : ∀ x ∈ a.leaves, t.Within base x := fun x hx => leaf (.inl hx)
    have leavesB : ∀ x ∈ b.leaves, (t.emit a).1.Within base x := fun x hx =>
      (leaf (.inr (.inl hx))).keeps keepsA
    have leavesC : ∀ x ∈ c.leaves, ((t.emit a).1.emit b).1.Within base x := fun x hx =>
      (leaf (.inr (.inr hx))).keeps (keepsA.trans keepsB)
    obtain ⟨laidA, hA⟩ := laid.emit hadmitsA leavesA
    obtain ⟨laidB, hB⟩ := laidA.emit hadmitsB leavesB
    obtain ⟨laidC, hC⟩ := laidB.emit hadmitsC leavesC
    have first := iha laid hadmitsA leavesA
    have second := ihb laidA hadmitsB leavesB
    rw [Fragment.substitute_keeps keepsA fun x hx => (leaf (.inr (.inl hx))).2] at second
    have third := ihc laidB hadmitsC leavesC
    rw [Fragment.substitute_keeps (keepsA.trans keepsB) fun x hx => (leaf (.inr (.inr hx))).2]
      at third
    -- Whether the pattern becomes a NaN was settled when it was emitted.
    have pattern : (((t.emit a).1.emit b).1.emit c).1.becomesNaN value ((t.emit a).1.emit b).2 =
        b.becomesNaN value t := by
      rw [becomesNaN_keeps value keepsC hB.2, Fragment.becomesNaN_emit,
        Fragment.becomesNaN_keeps value keepsA fun x hx => (leaf (.inr (.inl hx))).2]
    have hA' := (hA.keeps keepsB).keeps keepsC
    have hB' := hB.keeps keepsC
    have pushed := substitute_push value
      (n := (((t.emit a).1.emit b).1.emit c).1.ternary prim (t.emit a).2 ((t.emit a).1.emit b).2
        (((t.emit a).1.emit b).1.emit c).2) laidC
      (by simpa [NodeOp.operands] using ⟨hA'.2, hB'.2, hC.2⟩)
    simp only [Node.substitute, ternary_op, NodeOp.substitute, pattern] at pushed
    simp only [Fragment.substitute, NodeTable.emit, first, second, third, ternary_substitute]
    exact pushed

/-- A node may be fitted to a hop before or after constants are written into its table. -/
theorem substitute_fitTo (value : HopId → Option Literal) {h : Hop} (laid : t.Laid base allowed) (hid : t.Within base id) :
    (t.substitute value base).fitTo h id =
      ((t.fitTo h id).1.substitute value base, (t.fitTo h id).2) := by
  obtain ⟨n, hn⟩ := exists_node? hid.2
  have hsubstituted : (t.substitute value base).node? id = some (n.substitute value t) := by
    rw [node?_substitute, hn]
    exact congrArg some (if_pos hid.1)
  have hoperands : ∀ c ∈ (n.reshaped h.shape).op.operands, c < t.size := by
    intro c hc
    rw [Node.reshaped_op] at hc
    exact Nat.lt_trans (laid.operands hid.1 hn c hc).2 hid.2
  simp only [fitTo, hn, hsubstituted, Node.isMatrix_substitute]
  show (if h.isMatrix ∧ n.isMatrix ∧ n.shape ≠ h.shape then _ else _) = _
  split
  · rw [Node.reshaped_substitute]
    exact substitute_push value laid hoperands
  · rfl

/-- A table in which nothing has been laid from its end on stays as it is. -/
theorem substitute_from_size : t.substitute value t.size = t := by
  refine ext_node? fun id => ?_
  rw [node?_substitute]
  cases hn : t.node? id with
  | none => rfl
  | some n =>
    have hlt := lt_size_of_node? hn
    exact congrArg some (if_neg (Nat.not_le.2 hlt))

/-! ## Reading a substituted table -/

theorem Laid.substitute (laid : t.Laid base allowed) :
    (t.substitute value base).Laid base fun _ => true := by
  refine ⟨size_substitute (t := t) ▸ laid.base_le, ?_, fun _ _ _ _ => rfl⟩
  intro id n hid hn c hc
  rw [node?_substitute] at hn
  obtain ⟨m, hm, rfl⟩ := Option.map_eq_some_iff.1 hn
  rw [if_pos hid] at hc
  exact laid.operands hid hm c ((NodeOp.operands_substitute : (m.op.substitute value t).operands = _) ▸ hc)

/-- A substituted kernel reads what it read before, but for the constants. -/
theorem mem_hopsRead_substitute {root : NodeId} (laid : t.Laid base allowed)
    (hroot : t.Within base root) {x : HopId} :
    x ∈ (t.substitute value base).hopsRead root ↔ x ∈ t.hopsRead root ∧ value x = none := by
  have hroot' : (t.substitute value base).Within base root :=
    ⟨hroot.1, size_substitute (t := t) ▸ hroot.2⟩
  rw [laid.substitute.mem_hopsRead_iff hroot', laid.mem_hopsRead_iff hroot]
  have base_le {id : NodeId} (reached : Dag.Reaches t.operands root id) : base ≤ id :=
    (laid.within_of_reaches (.refl t) hroot reached).1
  constructor
  · rintro ⟨id, n, reached, hn, hx⟩
    rw [operands_substitute] at reached
    rw [node?_substitute] at hn
    obtain ⟨m, hm, rfl⟩ := Option.map_eq_some_iff.1 hn
    rw [if_pos (base_le reached)] at hx
    obtain ⟨hx, hvalue⟩ := Node.sourceHop?_substitute.1 hx
    exact ⟨⟨id, m, reached, hm, hx⟩, hvalue⟩
  · rintro ⟨⟨id, n, reached, hn, hx⟩, hvalue⟩
    refine ⟨id, n.substitute value t, ?_, ?_, Node.sourceHop?_substitute.2 ⟨hx, hvalue⟩⟩
    · rw [operands_substitute]
      exact reached
    · rw [node?_substitute, hn]
      exact congrArg some (if_pos (base_le reached))

@[simp] theorem temporaryRows_substitute {root : NodeId} :
    (t.substitute value base).temporaryRows root = t.temporaryRows root := by
  have same : (t.substitute value base).check (·.isRowScalar) = t.check (·.isRowScalar) := by
    funext id
    exact check_substitute fun _ => Node.isRowScalar_substitute
  rw [temporaryRows, temporaryRows, forEachNode, forEachNode, operands_substitute, same]

end NodeTable

end OpFusion.Kernel
