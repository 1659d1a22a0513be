import OpFusion.Proofs.Kernel.Body

/-!
# What lies below a node

An emitted fragment is found again in every later table: its top computes what the fragment says
(`Computes`, `computes_emit`). Which operations lie below that top (`Has`) is then a matter of the
fragment: they are among its own, or lie below one of the nodes that it was built on
(`Computes.has_iff`). A copy with other extents has below it what the original has.
-/

namespace OpFusion.Kernel

/-- The operation is the kernel input for a hop. -/
def NodeOp.reads (x : HopId) : NodeOp → Bool
  | .data hop _ => hop = x
  | _ => false

theorem Node.reads_iff {n : Node} {x : HopId} : n.op.reads x = true ↔ n.sourceHop? = some x := by
  unfold NodeOp.reads sourceHop?
  cases n.op <;> simp

/-- The node as it stands for a hop: a matrix has the extents of the hop. -/
def Node.fitted (n : Node) (h : Hop) : Node := if h.isMatrix then n.reshaped h.shape else n

@[simp] theorem Node.fitted_op {n : Node} {h : Hop} : (n.fitted h).op = n.op := by
  unfold fitted
  split
  · exact reshaped_op
  · rfl

namespace NodeTable

variable {t t' : NodeTable} {n m : Node} {id : NodeId} {p : NodeOp → Bool}

/-! ## Fragments in later tables -/

/-- The node is the top of a fragment: it has the primitive of the fragment, applied to the tops of
the parts. -/
def Computes (t : NodeTable) : Fragment → NodeId → Prop
  | .node a, id => id = a ∧ a < t.size
  | .literal value, id => t.node? id = some (.literal value)
  | .unary prim a, id => ∃ x, t.Computes a x ∧ t.node? id = some (t.unary prim x)
  | .binary prim a b, id =>
    ∃ x y, t.Computes a x ∧ t.Computes b y ∧ t.node? id = some (t.binary prim x y)
  | .ternary prim a b c, id =>
    ∃ x y z, t.Computes a x ∧ t.Computes b y ∧ t.Computes c z ∧
      t.node? id = some (t.ternary prim x y z)

theorem Computes.lt {f : Fragment} (computes : t.Computes f id) : id < t.size := by
  cases f with
  | node a => exact computes.1 ▸ computes.2
  | literal value => exact lt_size_of_node? computes
  | unary prim a =>
    obtain ⟨_, _, hn⟩ := computes
    exact lt_size_of_node? hn
  | binary prim a b =>
    obtain ⟨_, _, _, _, hn⟩ := computes
    exact lt_size_of_node? hn
  | ternary prim a b c =>
    obtain ⟨_, _, _, _, _, _, hn⟩ := computes
    exact lt_size_of_node? hn

theorem leadingMatrixShape?_keeps (keeps : t.Keeps t') {ids : List NodeId}
    (hids : ∀ a ∈ ids, a < t.size) : t'.leadingMatrixShape? ids = t.leadingMatrixShape? ids := by
  induction ids with
  | nil => rfl
  | cons a rest ih =>
    have hrest := ih fun b hb => hids b (List.mem_cons_of_mem _ hb)
    unfold leadingMatrixShape? at hrest ⊢
    rw [List.findSome?_cons, List.findSome?_cons, keeps_iff.1 keeps a (hids a List.mem_cons_self),
      hrest]

theorem cellwise_keeps (keeps : t.Keeps t') {op : NodeOp} (hop : ∀ a ∈ op.operands, a < t.size) :
    t'.cellwise op = t.cellwise op := by
  unfold cellwise
  rw [leadingMatrixShape?_keeps keeps hop]

/-- A primitive applied to nodes that are kept gives the same node. -/
theorem unary_keeps (keeps : t.Keeps t') {prim : UnaryPrim} {a : NodeId} (ha : a < t.size) :
    t'.unary prim a = t.unary prim a := by
  unfold unary
  rw [keeps_iff.1 keeps a ha]

theorem binary_keeps (keeps : t.Keeps t') {prim : BinaryPrim} {a b : NodeId} (ha : a < t.size)
    (hb : b < t.size) : t'.binary prim a b = t.binary prim a b := by
  have hop : ∀ x ∈ [a, b], x < t.size := by simp [ha, hb]
  cases prim with
  | dotProduct => rfl
  | rowAdd op | rowScalar op =>
    unfold binary
    rw [leadingMatrixShape?_keeps keeps hop]
  | cell op => exact cellwise_keeps keeps hop

theorem ternary_keeps (keeps : t.Keeps t') {prim : TernaryPrim} {a b c : NodeId} (ha : a < t.size)
    (hb : b < t.size) (hc : c < t.size) : t'.ternary prim a b c = t.ternary prim a b c := by
  have hop : ∀ x ∈ [a, b, c], x < t.size := by simp [ha, hb, hc]
  unfold ternary
  split
  · rfl
  · exact cellwise_keeps keeps hop

/-- What a node computes, it computes in every later table. -/
theorem Computes.keeps {f : Fragment} (keeps : t.Keeps t') :
    ∀ {id : NodeId}, t.Computes f id → t'.Computes f id := by
  induction f with
  | node a => exact fun ⟨heq, ha⟩ => ⟨heq, Nat.lt_of_lt_of_le ha keeps.size_le⟩
  | literal value => exact fun hn => keeps hn
  | unary prim a iha =>
    rintro id ⟨x, hx, hn⟩
    exact ⟨x, iha hx, by rw [unary_keeps keeps hx.lt, keeps hn]⟩
  | binary prim a b iha ihb =>
    rintro id ⟨x, y, hx, hy, hn⟩
    exact ⟨x, y, iha hx, ihb hy, by rw [binary_keeps keeps hx.lt hy.lt, keeps hn]⟩
  | ternary prim a b c iha ihb ihc =>
    rintro id ⟨x, y, z, hx, hy, hz, hn⟩
    exact ⟨x, y, z, iha hx, ihb hy, ihc hz, by
      rw [ternary_keeps keeps hx.lt hy.lt hz.lt, keeps hn]⟩

theorem node?_push_self : (t.push n).1.node? (t.push n).2 = some n := by
  rw [push_snd, node?_push, if_pos rfl]

/-- The top of an emitted fragment computes it. -/
theorem computes_emit {f : Fragment} : ∀ {t : NodeTable}, (∀ a ∈ f.leaves, a < t.size) →
    (t.emit f).1.Computes f (t.emit f).2 := by
  induction f with
  | node a => exact fun hleaves => ⟨rfl, hleaves a List.mem_cons_self⟩
  | literal value => exact fun _ => node?_push_self
  | unary prim a iha =>
    intro t hleaves
    have hA := iha hleaves
    refine ⟨_, hA.keeps keeps_push, node?_push_self.trans ?_⟩
    exact congrArg some (unary_keeps keeps_push hA.lt).symm
  | binary prim a b iha ihb =>
    intro t hleaves
    have hA := iha fun x hx => hleaves x (List.mem_append_left _ hx)
    have hB := ihb (t := (t.emit a).1) fun x hx =>
      Nat.lt_of_lt_of_le (hleaves x (List.mem_append_right _ hx)) (keeps_emit a t).size_le
    have hA' := hA.keeps (keeps_emit b _)
    refine ⟨_, _, hA'.keeps keeps_push, hB.keeps keeps_push, node?_push_self.trans ?_⟩
    exact congrArg some (binary_keeps keeps_push hA'.lt hB.lt).symm
  | ternary prim a b c iha ihb ihc =>
    intro t hleaves
    have leaf {x : NodeId} (hx : x ∈ a.leaves ∨ x ∈ b.leaves ∨ x ∈ c.leaves) : x < t.size :=
      hleaves x (by simpa [Fragment.leaves] using hx)
    have keepsA := keeps_emit a t
    have keepsB := keeps_emit b (t.emit a).1
    have hA := iha fun x hx => leaf (.inl hx)
    have hB := ihb (t := (t.emit a).1) fun x hx =>
      Nat.lt_of_lt_of_le (leaf (.inr (.inl hx))) keepsA.size_le
    have hC := ihc (t := ((t.emit a).1.emit b).1) fun x hx =>
      Nat.lt_of_lt_of_le (leaf (.inr (.inr hx))) (keepsA.trans keepsB).size_le
    have hA' := (hA.keeps keepsB).keeps (keeps_emit c _)
    have hB' := hB.keeps (keeps_emit c _)
    refine ⟨_, _, _, hA'.keeps keeps_push, hB'.keeps keeps_push, hC.keeps keeps_push,
      node?_push_self.trans ?_⟩
    exact congrArg some (ternary_keeps keeps_push hA'.lt hB'.lt hC.lt).symm

/-- The node that stands for a hop is the given one, fitted to the hop. -/
theorem node?_fitTo {h : Hop} (hn : t.node? id = some n) :
    (t.fitTo h id).1.node? (t.fitTo h id).2 = some (n.fitted h) := by
  simp only [fitTo, hn, Node.fitted]
  by_cases hmatrix : h.isMatrix = true ∧ n.isMatrix = true ∧ n.shape ≠ h.shape
  · rw [if_pos hmatrix, if_pos hmatrix.1, node?_push_self]
  · rw [if_neg hmatrix, hn]
    by_cases hh : h.isMatrix = true
    · rw [if_pos hh, Node.reshaped]
      by_cases hn' : n.isMatrix = true
      · have hshape : n.shape = h.shape :=
          Decidable.not_not.1 fun hne => hmatrix ⟨hh, hn', hne⟩
        rw [if_pos hn', ← hshape]
      · rw [if_neg hn']
    · rw [if_neg hh]

/-! ## New nodes -/

/-- If a fragment has a primitive at all, its top is a new node. -/
theorem size_le_emit {f : Fragment} (hnew : ∀ a, f ≠ .node a) : t.size ≤ (t.emit f).2 := by
  cases f with
  | node a => exact absurd rfl (hnew a)
  | literal value => exact Nat.le_refl _
  | unary prim a => exact (keeps_emit a t).size_le
  | binary prim a b => exact ((keeps_emit a t).trans (keeps_emit b _)).size_le
  | ternary prim a b c =>
    exact (((keeps_emit a t).trans (keeps_emit b _)).trans (keeps_emit c _)).size_le

/-- Fitting a new node takes it as it is or makes another new one. -/
theorem le_fitTo {base : Nat} {h : Hop} (hid : base ≤ id) (hsize : base ≤ t.size) :
    base ≤ (t.fitTo h id).2 := by
  unfold fitTo
  split
  · split
    · exact hsize
    · exact hid
  · exact hid

/-! ## Operations below a node -/

/-- An operation of a kind lies below a node, or is that of the node itself. -/
def Has (t : NodeTable) (p : NodeOp → Bool) (root : NodeId) : Prop :=
  ∃ id n, Dag.Reaches t.operands root id ∧ t.node? id = some n ∧ p n.op = true

theorem has_iff (hn : t.node? id = some n) :
    t.Has p id ↔ p n.op = true ∨ ∃ c ∈ n.op.operands, t.Has p c := by
  constructor
  · rintro ⟨id', n', reached, hn', hp⟩
    rcases Dag.reaches_iff_child.1 reached with rfl | ⟨c, hc, hrest⟩
    · obtain rfl : n = n' := Option.some.inj (hn.symm.trans hn')
      exact .inl hp
    · rw [operands_of_node? hn] at hc
      exact .inr ⟨c, hc, id', n', hrest, hn', hp⟩
  · rintro (hp | ⟨c, hc, id', n', hrest, hn', hp⟩)
    · exact ⟨id, n, .refl, hn, hp⟩
    · refine ⟨id', n', Dag.reaches_iff_child.2 (.inr ⟨c, ?_, hrest⟩), hn', hp⟩
      rwa [operands_of_node? hn]

/-- Nodes with the same operation have the same below them. -/
theorem has_congr {id' : NodeId} (hn : t.node? id = some n) (hm : t.node? id' = some m)
    (heq : m.op = n.op) : t.Has p id' ↔ t.Has p id := by
  rw [has_iff hn, has_iff hm, heq]

/-- Both nodes are there and have the same operation, perhaps with other extents. -/
def SameOp (t : NodeTable) (a b : NodeId) : Prop :=
  ∃ n m, t.node? a = some n ∧ t.node? b = some m ∧ n.op = m.op

theorem SameOp.refl {a : NodeId} (ha : a < t.size) : t.SameOp a a := by
  obtain ⟨n, hn⟩ := exists_node? ha
  exact ⟨n, n, hn, hn, rfl⟩

theorem SameOp.symm {a b : NodeId} (same : t.SameOp a b) : t.SameOp b a := by
  obtain ⟨n, m, hn, hm, heq⟩ := same
  exact ⟨m, n, hm, hn, heq.symm⟩

theorem SameOp.trans {a b c : NodeId} (same : t.SameOp a b) (same' : t.SameOp b c) :
    t.SameOp a c := by
  obtain ⟨n, m, hn, hm, heq⟩ := same
  obtain ⟨m', k, hm', hk, heq'⟩ := same'
  obtain rfl : m = m' := Option.some.inj (hm.symm.trans hm')
  exact ⟨n, k, hn, hk, heq.trans heq'⟩

theorem SameOp.has_iff {a b : NodeId} (same : t.SameOp a b) : t.Has p a ↔ t.Has p b := by
  obtain ⟨n, m, hn, hm, heq⟩ := same
  exact has_congr hm hn heq

/-- An operation of a kind lies below a node, that of the node itself not counted. -/
def HasBelow (t : NodeTable) (p : NodeOp → Bool) (root : NodeId) : Prop :=
  ∃ c ∈ t.operands root, t.Has p c

theorem SameOp.hasBelow_iff {a b : NodeId} (same : t.SameOp a b) :
    t.HasBelow p a ↔ t.HasBelow p b := by
  obtain ⟨n, m, hn, hm, heq⟩ := same
  rw [HasBelow, HasBelow, operands_of_node? hn, operands_of_node? hm, heq]

theorem HasBelow.has (hbelow : t.HasBelow p id) : t.Has p id := by
  obtain ⟨c, hc, id', n, reached, hn, hp⟩ := hbelow
  exact ⟨id', n, .head hc reached, hn, hp⟩

/-- Where operands descend, what lies below a node lies below it at another node. -/
theorem hasBelow_iff (desc : Dag.DescendingFrom t.operands id) :
    t.HasBelow p id ↔
      ∃ id' n, Dag.Reaches t.operands id id' ∧ t.node? id' = some n ∧ p n.op = true ∧ id' ≠ id := by
  constructor
  · rintro ⟨c, hc, id', n, reached, hn, hp⟩
    have hlt : id' < id := Nat.lt_of_le_of_lt ((desc.child hc).le reached) (desc id .refl c hc)
    exact ⟨id', n, .head hc reached, hn, hp, Nat.ne_of_lt hlt⟩
  · rintro ⟨id', n, reached, hn, hp, hne⟩
    rcases Dag.reaches_iff_child.1 reached with heq | ⟨c, hc, hrest⟩
    · exact absurd heq hne
    · exact ⟨c, hc, id', n, hrest, hn, hp⟩

theorem has_reads_iff {x : HopId} : t.Has (NodeOp.reads x) id ↔ t.Reads id x := by
  simp only [Has, Reads, Node.reads_iff]

/-- The top of a fragment lies above the nodes that the fragment is built on. -/
theorem Computes.reaches_of_leaf {f : Fragment} : ∀ {id : NodeId}, t.Computes f id →
    ∀ {a : NodeId}, a ∈ f.leaves → Dag.Reaches t.operands id a := by
  induction f with
  | node a =>
    rintro id ⟨rfl, _⟩ b hb
    rw [List.mem_singleton.1 hb]
    exact .refl
  | literal value =>
    intro id _ a ha
    simp [Fragment.leaves] at ha
  | unary prim a iha =>
    rintro id ⟨x, hx, hn⟩ b hb
    have hoperands : t.operands id = [x] := by rw [operands_of_node? hn, unary_op]; rfl
    exact .head (by simp [hoperands]) (iha hx hb)
  | binary prim a b iha ihb =>
    rintro id ⟨x, y, hx, hy, hn⟩ c hc
    have hoperands : t.operands id = [x, y] := by rw [operands_of_node? hn, binary_op]; rfl
    rcases List.mem_append.1 hc with hc | hc
    · exact .head (by simp [hoperands]) (iha hx hc)
    · exact .head (by simp [hoperands]) (ihb hy hc)
  | ternary prim a b c iha ihb ihc =>
    rintro id ⟨x, y, z, hx, hy, hz, hn⟩ w hw
    have hoperands : t.operands id = [x, y, z] := by rw [operands_of_node? hn, ternary_op]; rfl
    simp only [Fragment.leaves, List.mem_append] at hw
    rcases hw with (hw | hw) | hw
    · exact .head (by simp [hoperands]) (iha hx hw)
    · exact .head (by simp [hoperands]) (ihb hy hw)
    · exact .head (by simp [hoperands]) (ihc hz hw)

/-- What lies below a node that a fragment is built on lies below its top. -/
theorem Computes.has_of_leaf {f : Fragment} (computes : t.Computes f id) {a : NodeId}
    (ha : a ∈ f.leaves) (hhas : t.Has p a) : t.Has p id := by
  obtain ⟨id', n, reached, hn, hp⟩ := hhas
  exact ⟨id', n, (computes.reaches_of_leaf ha).trans reached, hn, hp⟩

/-- If a fragment has a primitive at all, what lies below a leaf lies strictly below its top. -/
theorem Computes.hasBelow_of_leaf {f : Fragment} (computes : t.Computes f id)
    (hnew : ∀ a, f ≠ .node a) {a : NodeId} (ha : a ∈ f.leaves) (hhas : t.Has p a) :
    t.HasBelow p id := by
  cases f with
  | node a => exact absurd rfl (hnew a)
  | literal value => simp [Fragment.leaves] at ha
  | unary prim b =>
    obtain ⟨x, hx, hn⟩ := computes
    refine ⟨x, ?_, hx.has_of_leaf ha hhas⟩
    simp [operands_of_node? hn, NodeOp.operands]
  | binary prim b c =>
    obtain ⟨x, y, hx, hy, hn⟩ := computes
    have hoperands : t.operands id = [x, y] := by rw [operands_of_node? hn, binary_op]; rfl
    rw [HasBelow, hoperands]
    rcases List.mem_append.1 ha with ha | ha
    · exact ⟨x, by simp, hx.has_of_leaf ha hhas⟩
    · exact ⟨y, by simp, hy.has_of_leaf ha hhas⟩
  | ternary prim b c e =>
    obtain ⟨x, y, z, hx, hy, hz, hn⟩ := computes
    have hoperands : t.operands id = [x, y, z] := by rw [operands_of_node? hn, ternary_op]; rfl
    rw [HasBelow, hoperands]
    simp only [Fragment.leaves, List.mem_append] at ha
    rcases ha with (ha | ha) | ha
    · exact ⟨x, by simp, hx.has_of_leaf ha hhas⟩
    · exact ⟨y, by simp, hy.has_of_leaf ha hhas⟩
    · exact ⟨z, by simp, hz.has_of_leaf ha hhas⟩

/-- A node of a kind that lies below the top of a fragment without such nodes lies below a leaf. -/
theorem Computes.reaches_leaf {f : Fragment} (hm : t.node? id = some m) (hp : p m.op = true) :
    ∀ {top : NodeId}, t.Computes f top → f.Admits (fun op => !p op) →
      Dag.Reaches t.operands top id → ∃ a ∈ f.leaves, Dag.Reaches t.operands a id := by
  -- A new node is not of the kind, so whatever is and lies below it lies below an operand.
  have operand {top : NodeId} {n : Node} (hn : t.node? top = some n) (hnot : (!p n.op) = true)
      (reached : Dag.Reaches t.operands top id) :
      ∃ c ∈ n.op.operands, Dag.Reaches t.operands c id := by
    rcases Dag.reaches_iff_child.1 reached with rfl | below
    · rw [← Option.some.inj (hm.symm.trans hn), hp] at hnot
      exact Bool.noConfusion hnot
    · rwa [operands_of_node? hn] at below
  induction f with
  | node a =>
    rintro top ⟨rfl, _⟩ _ reached
    exact ⟨top, List.mem_singleton_self top, reached⟩
  | literal value =>
    intro top hn hadmits reached
    obtain ⟨c, hc, _⟩ := operand hn hadmits reached
    simp [NodeOp.operands] at hc
  | unary prim a iha =>
    rintro top ⟨x, hx, hn⟩ ⟨hprim, hadmits⟩ reached
    obtain ⟨c, hc, reached⟩ := operand hn (by rw [unary_op]; exact hprim x) reached
    obtain rfl : c = x := by simpa [NodeOp.operands] using hc
    exact iha hx hadmits reached
  | binary prim a b iha ihb =>
    rintro top ⟨x, y, hx, hy, hn⟩ ⟨hprim, hadmitsA, hadmitsB⟩ reached
    obtain ⟨c, hc, reached⟩ := operand hn (by rw [binary_op]; exact hprim x y) reached
    simp only [binary_op, NodeOp.operands, List.mem_cons, List.not_mem_nil, or_false] at hc
    simp only [Fragment.leaves, List.mem_append]
    rcases hc with rfl | rfl
    · obtain ⟨w, hw, reached⟩ := iha hx hadmitsA reached
      exact ⟨w, .inl hw, reached⟩
    · obtain ⟨w, hw, reached⟩ := ihb hy hadmitsB reached
      exact ⟨w, .inr hw, reached⟩
  | ternary prim a b c iha ihb ihc =>
    rintro top ⟨x, y, z, hx, hy, hz, hn⟩ ⟨hprim, hadmitsA, hadmitsB, hadmitsC⟩ reached
    obtain ⟨u, hu, reached⟩ := operand hn (by rw [ternary_op]; exact hprim x y z) reached
    simp only [ternary_op, NodeOp.operands, List.mem_cons, List.not_mem_nil, or_false] at hu
    simp only [Fragment.leaves, List.mem_append]
    rcases hu with rfl | rfl | rfl
    · obtain ⟨w, hw, reached⟩ := iha hx hadmitsA reached
      exact ⟨w, .inl (.inl hw), reached⟩
    · obtain ⟨w, hw, reached⟩ := ihb hy hadmitsB reached
      exact ⟨w, .inl (.inr hw), reached⟩
    · obtain ⟨w, hw, reached⟩ := ihc hz hadmitsC reached
      exact ⟨w, .inr hw, reached⟩

/-- If the top of a fragment without operations of a kind has one, it was there already. -/
theorem Computes.eq_node {f : Fragment} (computes : t.Computes f id)
    (hadmits : f.Admits fun op => !p op) (hn : t.node? id = some n) (hp : p n.op = true) :
    f = .node id := by
  have admitted {op : NodeOp} (hop : n.op = op) (hnot : (!p op) = true) : False := by
    subst hop
    simp [hp] at hnot
  cases f with
  | node a => rw [computes.1]
  | literal value =>
    obtain rfl := Option.some.inj (hn.symm.trans computes)
    exact (admitted rfl hadmits).elim
  | unary prim a =>
    obtain ⟨x, _, htop⟩ := computes
    obtain rfl := Option.some.inj (hn.symm.trans htop)
    exact (admitted unary_op (hadmits.1 x)).elim
  | binary prim a b =>
    obtain ⟨x, y, _, _, htop⟩ := computes
    obtain rfl := Option.some.inj (hn.symm.trans htop)
    exact (admitted binary_op (hadmits.1 x y)).elim
  | ternary prim a b c =>
    obtain ⟨x, y, z, _, _, _, htop⟩ := computes
    obtain rfl := Option.some.inj (hn.symm.trans htop)
    exact (admitted ternary_op (hadmits.1 x y z)).elim

/-- Below the top of a fragment without operations of a kind, these lie below its leaves only. -/
theorem Computes.exists_leaf {f : Fragment} (computes : t.Computes f id)
    (hadmits : f.Admits (fun op => !p op)) (hhas : t.Has p id) : ∃ a ∈ f.leaves, t.Has p a := by
  obtain ⟨id', n, reached, hn, hp⟩ := hhas
  obtain ⟨a, ha, reached⟩ := Computes.reaches_leaf hn hp computes hadmits reached
  exact ⟨a, ha, id', n, reached, hn, hp⟩

/-- Below the top of a fragment without operations of a kind lie those that lie below its leaves. -/
theorem Computes.has_iff {f : Fragment} (computes : t.Computes f id)
    (hadmits : f.Admits (fun op => !p op)) : t.Has p id ↔ ∃ a ∈ f.leaves, t.Has p a := by
  constructor
  · exact computes.exists_leaf hadmits
  · rintro ⟨a, ha, hhas⟩
    exact computes.has_of_leaf ha hhas

end NodeTable

end OpFusion.Kernel
