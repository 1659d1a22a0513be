import OpFusion.Proofs.Dag.Reachability
import OpFusion.Proofs.Graph.Addition

/-!
# Built graphs

A graph is built when requests have made it from nothing, and typed when none of them was raw.
Built graphs are well formed (`IsBuilt.wellFormed`): hops know their numbers, read earlier hops
only, and have as many inputs as their kind and its parameters ask for. In a typed graph each hop
is still what a typed request for it would infer (`IsTyped.request`), because later requests change
nothing of a hop but its parents.
-/

namespace OpFusion

/-- The request leaves type and shape to be inferred. -/
def HopRequest.isTyped : HopRequest → Bool
  | raw _ => false
  | _ => true

/-- All of a hop but its number and its parents. -/
def Hop.spec (h : Hop) : HopSpec := ⟨h.kind, h.dataType, h.valueType, h.shape, h.inputs⟩

namespace Graph

/-- Requests have made the graph from nothing. -/
def IsBuilt (g : Graph) : Prop := ∃ requests, Graph.empty.build requests = g

/-- Typed requests have made the graph from nothing. -/
def IsTyped (g : Graph) : Prop :=
  ∃ requests, (∀ request ∈ requests, request.isTyped) ∧ Graph.empty.build requests = g

theorem IsTyped.isBuilt {g : Graph} (typed : g.IsTyped) : g.IsBuilt :=
  let ⟨requests, _, h⟩ := typed
  ⟨requests, h⟩

/-- What every request keeps true of a graph. -/
structure WellFormed (g : Graph) : Prop where
  /-- A hop is found under its own number. -/
  id_eq {id : HopId} {h : Hop} : g.hop? id = some h → h.id = id
  /-- A hop reads earlier hops. -/
  input_lt {id : HopId} {h : Hop} : g.hop? id = some h → ∀ x ∈ h.inputs, x < id
  /-- The kind of a hop settles how many inputs it has, unless their number may vary. -/
  arity {id : HopId} {h : Hop} {n : Nat} :
    g.hop? id = some h → h.kind.arity = some n → h.inputs.length = n
  /-- A named parameter stands for an input. -/
  param_lt {id : HopId} {h : Hop} {name : String} {position : Nat} :
    g.hop? id = some h → (name, position) ∈ h.kind.params → position < h.inputs.length

/-! ## Looking up hops -/

theorem hop?_eq_none_iff {g : Graph} {id : HopId} : g.hop? id = none ↔ g.size ≤ id :=
  List.getElem?_eq_none_iff

theorem lt_size_of_hop? {g : Graph} {id : HopId} {h : Hop} (hh : g.hop? id = some h) :
    id < g.size :=
  (List.getElem?_eq_some_iff.1 hh).1

theorem exists_hop?_iff {g : Graph} {id : HopId} : (∃ h, g.hop? id = some h) ↔ id < g.size :=
  ⟨fun ⟨_, hh⟩ => lt_size_of_hop? hh, fun h => ⟨_, List.getElem?_eq_getElem h⟩⟩

theorem contains_iff {g : Graph} {id : HopId} : g.contains id = true ↔ ∃ h, g.hop? id = some h := by
  rw [exists_hop?_iff, contains, decide_eq_true_eq]

@[simp] theorem hop_eq_ok_iff {g : Graph} {id : HopId} {h : Hop} :
    g.hop id = .ok h ↔ g.hop? id = some h := by
  unfold hop
  cases g.hop? id <;> simp

theorem input?_eq_some_iff {g : Graph} {id : HopId} {position : Nat} {x : Hop} :
    g.input? id position = some x ↔
      ∃ h input, g.hop? id = some h ∧ h.input? position = some input ∧ g.hop? input = some x := by
  simp [input?, Option.bind_eq_some_iff]

/-- Where the hop is known, its inputs are looked up in it. -/
theorem input?_iff_of_hop? {g : Graph} {id : HopId} {position : Nat} {h x : Hop}
    (hh : g.hop? id = some h) :
    g.input? id position = some x ↔
      ∃ input, h.input? position = some input ∧ g.hop? input = some x := by
  simp [input?, hh, Option.bind_eq_some_iff]

theorem inputs_of_hop? {g : Graph} {id : HopId} {h : Hop} (hh : g.hop? id = some h) :
    g.inputs id = h.inputs := by
  simp [inputs, hh]

/-- A named parameter is an operand. -/
theorem exists_input?_of_paramInput {g : Graph} {id x : HopId} {h : Hop} (hh : g.hop? id = some h)
    {name : String} (hx : g.paramInput id name = .ok x) : ∃ i, h.input? i = some x := by
  unfold paramInput at hx
  obtain ⟨h', hh', hx⟩ := bind_eq_ok_iff.1 hx
  obtain rfl : h = h' := Option.some.inj (hh.symm.trans (hop_eq_ok_iff.1 hh'))
  split at hx
  · simp at hx
  · rename_i i _
    split at hx
    · simp at hx
    · rename_i input hinput
      obtain rfl := Except.ok.inj hx
      exact ⟨i, hinput⟩

/-- Every position of a well-formed hop has a hop of the graph. -/
theorem WellFormed.exists_input {g : Graph} (wf : g.WellFormed) {id x : HopId} {h : Hop}
    (hh : g.hop? id = some h) (hx : x ∈ h.inputs) : ∃ hx, g.hop? x = some hx :=
  exists_hop?_iff.2 (Nat.lt_trans (wf.input_lt hh x hx) (lt_size_of_hop? hh))

/-- What a hop reads at a position is an earlier hop. -/
theorem WellFormed.input?_lt {g : Graph} (wf : g.WellFormed) {id x : HopId} {h : Hop} {i : Nat}
    (hh : g.hop? id = some h) (hx : h.input? i = some x) : x < id :=
  wf.input_lt hh x (List.mem_of_getElem? hx)

theorem WellFormed.input?_lt_size {g : Graph} (wf : g.WellFormed) {id x : HopId} {h : Hop} {i : Nat}
    (hh : g.hop? id = some h) (hx : h.input? i = some x) : x < g.size :=
  Nat.lt_trans (wf.input?_lt hh hx) (lt_size_of_hop? hh)

/-- The hop at a position is one of the inputs. -/
theorem WellFormed.id_mem_inputs {g : Graph} (wf : g.WellFormed) {id : HopId} {h x : Hop} {i : Nat}
    (hh : g.hop? id = some h) (hx : g.input? id i = some x) : x.id ∈ h.inputs := by
  obtain ⟨y, hy, hhy⟩ := (input?_iff_of_hop? hh).1 hx
  rw [wf.id_eq hhy]
  exact List.mem_of_getElem? hy

/-- Inputs descend. -/
theorem WellFormed.descending {g : Graph} (wf : g.WellFormed) : Dag.Descending g.inputs := by
  intro id x hx
  unfold inputs at hx
  split at hx
  · rename_i h hh
    exact wf.input_lt hh x hx
  · simp at hx

/-! ## One request -/

/-- A hop after another hop was added: the new one may have become a parent of it. -/
def adopt (g : Graph) (spec : HopSpec) (h : Hop) : Hop :=
  if h.id ∈ spec.inputs then { h with parents := h.parents ++ [g.size] } else h

/-- The hop that a request adds. -/
def newHop (g : Graph) (spec : HopSpec) : Hop :=
  ⟨g.size, spec.kind, spec.dataType, spec.valueType, spec.shape, spec.inputs, []⟩

@[simp] theorem adopt_id {g : Graph} {spec : HopSpec} {h : Hop} : (g.adopt spec h).id = h.id := by
  unfold adopt
  split <;> rfl

@[simp] theorem adopt_spec {g : Graph} {spec : HopSpec} {h : Hop} :
    (g.adopt spec h).spec = h.spec := by
  unfold adopt
  split <;> rfl

section Adopt

variable {g : Graph} {spec : HopSpec} {h : Hop}

@[simp] theorem adopt_kind : (g.adopt spec h).kind = h.kind :=
  congrArg HopSpec.kind adopt_spec

@[simp] theorem adopt_dataType : (g.adopt spec h).dataType = h.dataType :=
  congrArg HopSpec.dataType adopt_spec

@[simp] theorem adopt_valueType : (g.adopt spec h).valueType = h.valueType :=
  congrArg HopSpec.valueType adopt_spec

@[simp] theorem adopt_shape : (g.adopt spec h).shape = h.shape :=
  congrArg HopSpec.shape adopt_spec

@[simp] theorem adopt_inputs : (g.adopt spec h).inputs = h.inputs :=
  congrArg HopSpec.inputs adopt_spec

@[simp] theorem adopt_isMatrix : (g.adopt spec h).isMatrix = h.isMatrix := by
  simp [Hop.isMatrix]

@[simp] theorem adopt_literal? : (g.adopt spec h).literal? = h.literal? := by
  simp [Hop.literal?]

end Adopt

theorem hop?_extend {g : Graph} {spec : HopSpec} {id : HopId} :
    (g.extend spec).hop? id =
      if id = g.size then some (g.newHop spec) else (g.hop? id).map (g.adopt spec) := by
  have hops : (g.extend spec).hops = g.hops.map (g.adopt spec) ++ [g.newHop spec] := rfl
  rw [hop?, hops, List.getElem?_append, List.length_map]
  split
  · rename_i hlt
    rw [if_neg (show id ≠ g.size from Nat.ne_of_lt hlt), List.getElem?_map, hop?]
  · rename_i hge
    split
    · rename_i heq
      simp [heq, size]
    · rename_i hne
      have hpast : g.hops.length < id := Nat.lt_of_le_of_ne (Nat.le_of_not_lt hge) (Ne.symm hne)
      rw [hop?_eq_none_iff.2 (Nat.le_of_lt hpast), List.getElem?_eq_none (by simp; omega)]
      rfl

/-- A hop of a grown graph is one of the old hops or the new one. -/
theorem hop?_extend_cases {g : Graph} {spec : HopSpec} {id : HopId} {h : Hop}
    (hh : (g.extend spec).hop? id = some h) :
    (id = g.size ∧ h = g.newHop spec) ∨ ∃ old, g.hop? id = some old ∧ h = g.adopt spec old := by
  rw [hop?_extend] at hh
  split at hh
  · rename_i heq
    exact .inl ⟨heq, (Option.some.inj hh).symm⟩
  · obtain ⟨old, hold, rfl⟩ := Option.map_eq_some_iff.1 hh
    exact .inr ⟨old, hold, rfl⟩

/-- A hop stays in a growing graph, with other parents perhaps. -/
theorem hop?_extend_of_hop? {g : Graph} (spec : HopSpec) {id : HopId} {h : Hop}
    (hh : g.hop? id = some h) : (g.extend spec).hop? id = some (g.adopt spec h) := by
  rw [hop?_extend, if_neg (Nat.ne_of_lt (lt_size_of_hop? hh)), hh]
  rfl

/-! ## Runs of requests -/

/-- What holds of the empty graph and is kept by every successful request of a run holds after it. -/
theorem build_induction {P : Graph → Prop} {requests : List HopRequest}
    (step : ∀ g, P g → ∀ request ∈ requests, ∀ spec, request.spec g = .ok spec →
      g.refusal? spec = none → P (g.extend spec)) :
    ∀ {g}, P g → P (g.build requests) := by
  induction requests with
  | nil => exact fun h => h
  | cons request rest ih =>
    intro g hg
    refine ih (fun g hg request' hmem => step g hg request' (List.mem_cons_of_mem _ hmem)) ?_
    show P (g.after request)
    rcases after_cases g request with hafter | ⟨spec, hspec, accepted, hafter⟩
    · rwa [hafter]
    · rw [hafter]
      exact step g hg request List.mem_cons_self spec hspec accepted

/-- A well-formed graph stays so when an accepted hop is added. -/
theorem WellFormed.extend {g : Graph} (wf : g.WellFormed) {spec : HopSpec}
    (accepted : g.refusal? spec = none) : (g.extend spec).WellFormed := by
  obtain ⟨arity, params, inputs⟩ := refusal?_eq_none_iff.1 accepted
  refine ⟨?_, ?_, ?_, ?_⟩
  · intro id h hh
    rcases hop?_extend_cases hh with ⟨rfl, rfl⟩ | ⟨old, hold, rfl⟩
    · rfl
    · rw [adopt_id, wf.id_eq hold]
  · intro id h hh x hx
    rcases hop?_extend_cases hh with ⟨rfl, rfl⟩ | ⟨old, hold, rfl⟩
    · exact inputs x hx
    · exact wf.input_lt hold x (adopt_inputs ▸ hx)
  · intro id h n hh hn
    rcases hop?_extend_cases hh with ⟨rfl, rfl⟩ | ⟨old, hold, rfl⟩
    · exact arity n hn
    · rw [adopt_inputs, wf.arity hold (adopt_kind ▸ hn)]
  · intro id h name position hh hmem
    rcases hop?_extend_cases hh with ⟨rfl, rfl⟩ | ⟨old, hold, rfl⟩
    · exact params (name, position) hmem
    · rw [adopt_inputs]
      exact wf.param_lt hold (adopt_kind ▸ hmem)

/-- Built graphs are well formed. -/
theorem IsBuilt.wellFormed {g : Graph} (built : g.IsBuilt) : g.WellFormed := by
  obtain ⟨requests, rfl⟩ := built
  refine build_induction (fun g wf _ _ spec _ accepted => wf.extend accepted) ?_
  have nothing (id : HopId) (h : Hop) : Graph.empty.hop? id ≠ some h := by simp [hop?, empty]
  exact ⟨fun hh => absurd hh (nothing _ _), fun hh => absurd hh (nothing _ _),
    fun hh => absurd hh (nothing _ _), fun hh => absurd hh (nothing _ _)⟩

/-! ## Typed graphs -/

/-- The result of an elementwise operation depends on the types and shapes of its operands only. -/
theorem elementwiseResult_map_adopt (g : Graph) (spec : HopSpec) (operands : List Hop) :
    elementwiseResult (operands.map (g.adopt spec)) = elementwiseResult operands := by
  have matrices : (operands.map (g.adopt spec)).filter (·.isMatrix) =
      (operands.filter (·.isMatrix)).map (g.adopt spec) := by
    rw [List.filter_map]
    congr 2
    funext h
    simp
  unfold elementwiseResult
  rw [matrices]
  cases operands.filter (·.isMatrix) with
  | nil => rfl
  | cons first rest => simp [List.foldl_map]

/-- What a request stands for does not change when the graph grows. -/
theorem spec_extend {g : Graph} {request : HopRequest} {spec : HopSpec} (added : HopSpec)
    (h : request.spec g = .ok spec) : request.spec (g.extend added) = .ok spec := by
  have keep {x : HopId} {hx : Hop} : g.hop? x = some hx →
      (g.extend added).hop? x = some (g.adopt added hx) := hop?_extend_of_hop? added
  -- Each operand is found again, and adopting a parent changes nothing that the request reads.
  cases request with
  | data | dataUnknown | scalar | literal | raw => exact h
  | unary op x =>
    simp only [HopRequest.spec, bind_eq_ok_iff, hop_eq_ok_iff, pure_eq_ok_iff] at h ⊢
    obtain ⟨hx, hhx, rfl⟩ := h
    exact ⟨_, keep hhx, by simp⟩
  | binary op a b =>
    simp only [HopRequest.spec, bind_eq_ok_iff, hop_eq_ok_iff, pure_eq_ok_iff] at h ⊢
    obtain ⟨ha, hha, hb, hhb, rfl⟩ := h
    exact ⟨_, keep hha, _, keep hhb,
      by simp [← elementwiseResult_map_adopt g added [ha, hb]]⟩
  | ternary op a b c =>
    simp only [HopRequest.spec, bind_eq_ok_iff, hop_eq_ok_iff, pure_eq_ok_iff] at h ⊢
    obtain ⟨ha, hha, hb, hhb, hc, hhc, rfl⟩ := h
    exact ⟨_, keep hha, _, keep hhb, _, keep hhc,
      by simp [← elementwiseResult_map_adopt g added [ha, hb, hc]]⟩
  | aggUnary op direction x =>
    simp only [HopRequest.spec, bind_eq_ok_iff, hop_eq_ok_iff, pure_eq_ok_iff] at h ⊢
    obtain ⟨hx, hhx, rfl⟩ := h
    exact ⟨_, keep hhx, by simp⟩
  | matmul a b =>
    simp only [HopRequest.spec, bind_eq_ok_iff, hop_eq_ok_iff, pure_eq_ok_iff] at h ⊢
    obtain ⟨ha, hha, hb, hhb, rfl⟩ := h
    exact ⟨_, keep hha, _, keep hhb, by simp⟩
  | reorg op x =>
    simp only [HopRequest.spec, bind_eq_ok_iff, hop_eq_ok_iff, pure_eq_ok_iff] at h ⊢
    obtain ⟨hx, hhx, rfl⟩ := h
    exact ⟨_, keep hhx, by simp⟩
  | rightIndex target rowLower rowUpper colLower colUpper =>
    simp only [HopRequest.spec, bind_eq_ok_iff, hop_eq_ok_iff, pure_eq_ok_iff] at h ⊢
    obtain ⟨h₁, hh₁, h₂, hh₂, h₃, hh₃, h₄, hh₄, h₅, hh₅, rfl⟩ := h
    exact ⟨_, keep hh₁, _, keep hh₂, _, keep hh₃, _, keep hh₄, _, keep hh₅,
      by simp [indexExtent]⟩
  | builtin op params =>
    simp only [HopRequest.spec] at h ⊢
    split at h
    · simp at h
    · simp only [bind_eq_ok_iff, hop_eq_ok_iff] at h ⊢
      obtain ⟨hx, hhx, h⟩ := h
      refine ⟨_, keep hhx, ?_⟩
      cases op <;> simpa using h

/-- Each hop of a typed graph is what a typed request still asks for. -/
theorem IsTyped.request {g : Graph} (typed : g.IsTyped) {id : HopId} {h : Hop}
    (hh : g.hop? id = some h) :
    ∃ request : HopRequest, request.isTyped ∧ request.spec g = .ok h.spec := by
  obtain ⟨requests, typed, rfl⟩ := typed
  suffices all : ∀ id h, (Graph.empty.build requests).hop? id = some h →
      ∃ request : HopRequest, request.isTyped ∧ request.spec (Graph.empty.build requests) = .ok h.spec
    from all id h hh
  refine build_induction (P := fun g => ∀ id h, g.hop? id = some h →
    ∃ request : HopRequest, request.isTyped ∧ request.spec g = .ok h.spec) ?_ ?_
  · intro g old request hmem spec hspec _ id h hh
    rcases hop?_extend_cases hh with ⟨rfl, rfl⟩ | ⟨before, hbefore, rfl⟩
    · exact ⟨request, typed request hmem, spec_extend spec hspec⟩
    · obtain ⟨request', typed', hspec'⟩ := old id before hbefore
      exact ⟨request', typed', adopt_spec (g := g) (h := before) ▸ spec_extend spec hspec'⟩
  · intro id h hh
    simp [hop?, empty] at hh

end Graph

end OpFusion
