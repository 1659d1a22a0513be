import OpFusion.Graph.Classify
import OpFusion.Proofs.Graph.Parents

/-!
# Growing graphs

A graph grows as further requests are carried out. Its hops stay, and nothing of them changes but
their parents, to which new ones are appended (`GrowsTo`). So a question about a hop and what lies
below it is answered as before, unless it is about parents. The parents of a hop are the hops that
read it (`IsBuilt.mem_parents_iff`), and whoever comes first among them stays first
(`GrowsTo.firstParent?_eq`).
-/

namespace OpFusion

theorem Option.any_congr {α : Type} {o : Option α} {p q : α → Bool} (h : ∀ a ∈ o, p a = q a) :
    o.any p = o.any q := by
  cases o with
  | none => rfl
  | some a => exact h a rfl

namespace Graph

variable {g g' g'' : Graph} {id : HopId} {h : Hop}

/-- Every hop of `g` is in `g'` too, with further parents perhaps. -/
def GrowsTo (g g' : Graph) : Prop :=
  ∀ id h, g.hop? id = some h → ∃ more, g'.hop? id = some { h with parents := h.parents ++ more }

theorem GrowsTo.refl (g : Graph) : g.GrowsTo g := fun _ _ hh => ⟨[], by simpa using hh⟩

theorem GrowsTo.trans (first : g.GrowsTo g') (second : g'.GrowsTo g'') : g.GrowsTo g'' := by
  intro id h hh
  obtain ⟨more, hh'⟩ := first id h hh
  obtain ⟨further, hh''⟩ := second id _ hh'
  exact ⟨more ++ further, by rw [hh'', ← List.append_assoc]⟩

theorem growsTo_extend (g : Graph) (spec : HopSpec) : g.GrowsTo (g.extend spec) := by
  intro id h hh
  rw [hop?_extend_of_hop? spec hh]
  unfold adopt
  split
  · exact ⟨[g.size], rfl⟩
  · exact ⟨[], by simp⟩

/-- Requests make a graph grow, whether they succeed or fail. -/
theorem growsTo_build (g : Graph) (requests : List HopRequest) : g.GrowsTo (g.build requests) :=
  build_induction (fun g' grows _ _ spec _ _ => grows.trans (growsTo_extend g' spec)) (.refl g)

theorem IsBuilt.build (built : g.IsBuilt) (requests : List HopRequest) :
    (g.build requests).IsBuilt := by
  obtain ⟨before, rfl⟩ := built
  exact ⟨before ++ requests, List.foldl_append⟩

/-! ## Questions about a hop and what it reads -/

/-- The hop with the parents that it has in the graph. -/
def regrown (g : Graph) (h : Hop) : Hop :=
  { h with parents := (g.hop? h.id).elim [] (·.parents) }

section Lookups

variable (grows : g.GrowsTo g') (wf : g.WellFormed)

include grows wf

theorem GrowsTo.hop?_of_hop? (hh : g.hop? id = some h) : g'.hop? id = some (g'.regrown h) := by
  obtain ⟨more, hh'⟩ := grows id h hh
  obtain rfl := wf.id_eq hh
  have parents : (g'.hop? h.id).elim [] (·.parents) = h.parents ++ more := by
    rw [hh', Option.elim_some]
  rw [hh', regrown, parents]

theorem GrowsTo.hop?_eq (hid : id < g.size) : g'.hop? id = (g.hop? id).map g'.regrown := by
  obtain ⟨h, hh⟩ := exists_hop?_iff.2 hid
  rw [grows.hop?_of_hop? wf hh, hh, Option.map_some]

theorem GrowsTo.inputs_eq (hid : id < g.size) : g'.inputs id = g.inputs id := by
  obtain ⟨h, hh⟩ := exists_hop?_iff.2 hid
  rw [inputs_of_hop? hh, inputs_of_hop? (grows.hop?_of_hop? wf hh)]
  rfl

theorem GrowsTo.input?_eq (hid : id < g.size) {i : Nat} :
    g'.input? id i = (g.input? id i).map g'.regrown := by
  obtain ⟨h, hh⟩ := exists_hop?_iff.2 hid
  simp only [input?, hh, grows.hop?_of_hop? wf hh, Option.bind_eq_bind, Option.bind_some]
  show (h.input? i).bind _ = _
  cases hx : h.input? i with
  | none => rfl
  | some x =>
    have hlt : x < id := wf.input?_lt hh hx
    exact grows.hop?_eq wf (Nat.lt_trans hlt hid)

theorem GrowsTo.binaryOperands?_eq (hid : id < g.size) :
    g'.binaryOperands? id = (g.binaryOperands? id).map (Prod.map g'.regrown g'.regrown) := by
  obtain ⟨h, hh⟩ := exists_hop?_iff.2 hid
  simp only [binaryOperands?, hh, grows.hop?_of_hop? wf hh, grows.input?_eq wf hid,
    Option.bind_eq_bind, Option.bind_some]
  rw [show (g'.regrown h).kind = h.kind from rfl]
  cases h.kind with
  | binary => cases g.input? id 0 <;> cases g.input? id 1 <;> rfl
  | _ => rfl

/-! The classes of a hop look at its kind and at the types and shapes of its operands. -/

theorem GrowsTo.any_hop?_eq (hid : id < g.size) {p : Hop → Bool}
    (hp : ∀ h, p (g'.regrown h) = p h) : (g'.hop? id).any p = (g.hop? id).any p := by
  rw [grows.hop?_eq wf hid, Option.any_map]
  exact congrArg (fun p => (g.hop? id).any p) (funext hp)

theorem GrowsTo.any_input?_eq (hid : id < g.size) {i : Nat} {p : Hop → Bool}
    (hp : ∀ h, p (g'.regrown h) = p h) : (g'.input? id i).any p = (g.input? id i).any p := by
  rw [grows.input?_eq wf hid, Option.any_map]
  exact congrArg (fun p => (g.input? id i).any p) (funext hp)

theorem GrowsTo.any_binaryOperands?_eq (hid : id < g.size) {p : Hop × Hop → Bool}
    (hp : ∀ a b, p (g'.regrown a, g'.regrown b) = p (a, b)) :
    (g'.binaryOperands? id).any p = (g.binaryOperands? id).any p := by
  rw [grows.binaryOperands?_eq wf hid, Option.any_map]
  exact congrArg (fun p => (g.binaryOperands? id).any p) (funext fun ⟨a, b⟩ => hp a b)

theorem GrowsTo.isMatmul_eq (hid : id < g.size) : g'.isMatmul id = g.isMatmul id :=
  grows.any_hop?_eq wf hid fun _ => rfl

theorem GrowsTo.isBinary_eq (hid : id < g.size) (ops : List BinaryOp) :
    g'.isBinary id ops = g.isBinary id ops := grows.any_hop?_eq wf hid fun _ => rfl

theorem GrowsTo.isMatrixScalar_eq (hid : id < g.size) :
    g'.isMatrixScalar id = g.isMatrixScalar id := grows.any_binaryOperands?_eq wf hid fun _ _ => rfl

theorem GrowsTo.isMatrixMatrix_eq (hid : id < g.size) :
    g'.isMatrixMatrix id = g.isMatrixMatrix id := grows.any_binaryOperands?_eq wf hid fun _ _ => rfl

theorem GrowsTo.isMatrixColVectorRight_eq (hid : id < g.size) :
    g'.isMatrixColVectorRight id = g.isMatrixColVectorRight id :=
  grows.any_binaryOperands?_eq wf hid fun _ _ => rfl

theorem GrowsTo.isMatrixColVector_eq (hid : id < g.size) :
    g'.isMatrixColVector id = g.isMatrixColVector id :=
  grows.any_binaryOperands?_eq wf hid fun _ _ => rfl

theorem GrowsTo.isMatrixRowVector_eq (hid : id < g.size) :
    g'.isMatrixRowVector id = g.isMatrixRowVector id :=
  grows.any_binaryOperands?_eq wf hid fun _ _ => rfl

theorem GrowsTo.isOuterProductLike_eq (hid : id < g.size) :
    g'.isOuterProductLike id = g.isOuterProductLike id := by
  unfold isOuterProductLike
  rw [grows.hop?_eq wf hid, grows.input?_eq wf hid, grows.input?_eq wf hid]
  cases g.hop? id <;> cases g.input? id 0 <;> cases g.input? id 1 <;> rfl

theorem GrowsTo.isEqualSize_eq {a b : HopId} (ha : a < g.size) (hb : b < g.size) :
    g'.isEqualSize a b = g.isEqualSize a b := by
  unfold isEqualSize
  rw [grows.hop?_eq wf ha, grows.hop?_eq wf hb]
  cases g.hop? a <;> cases g.hop? b <;> rfl

/-- What a hop of the smaller graph reaches, it reaches in the larger one. -/
theorem GrowsTo.reaches {root : HopId} (hroot : root < g.size)
    (hid : Dag.Reaches g.inputs root id) : Dag.Reaches g'.inputs root id := by
  induction hid with
  | refl => exact .refl
  | @tail a b ha hb ih =>
    have hlt : a < g.size := Nat.lt_of_le_of_lt (Dag.Reaches.le wf.descending ha) hroot
    exact ih.tail (grows.inputs_eq wf hlt ▸ hb)

end Lookups

/-! ## Parents -/

/-- The first parent stays the first. -/
theorem GrowsTo.firstParent?_eq (grows : g.GrowsTo g') (built : g.IsBuilt)
    (hh : g.hop? id = some h) (hread : h.parents ≠ []) :
    g'.firstParent? id = (g.firstParent? id).map g'.regrown := by
  obtain ⟨more, hh'⟩ := grows id h hh
  obtain ⟨p, rest, hparents⟩ := List.exists_cons_of_ne_nil hread
  -- The parent reads the hop, so it is in the graph.
  have hp : id ∈ g.inputs p := (built.mem_parents_iff hh).1 (hparents ▸ List.mem_cons_self)
  have hlt : p < g.size := lt_size_of_mem_inputs hp
  simp only [firstParent?, hh, hh', hparents, List.cons_append, List.head?_cons,
    Option.bind_eq_bind, Option.bind_some]
  exact grows.hop?_eq built.wellFormed hlt

end Graph

end OpFusion
