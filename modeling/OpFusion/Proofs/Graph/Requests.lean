import OpFusion.Proofs.Graph.Parents

/-!
# What a request does

A request is carried out in full or not at all. When a hop is refused, the reason is the first that
there is, in the order arity, parameters, inputs (`Graph.Refuses`); when it is accepted, it comes
last and becomes the last parent of what it reads, and nothing else changes (`Graph.Gains`). A typed
request settles arity and positions of parameters itself. So all that can be wrong with it is a hop
that is not in the graph, or a builtin without a target (`HopRequest.FailsWith`).
-/

namespace OpFusion

/-! ## The first element with a property -/

section IsFirst

variable {α β : Type} {p : α → Prop} {l : List α} {a b : α}

/-- The element has the property, and none before it in the list does. -/
def IsFirst (p : α → Prop) (l : List α) (a : α) : Prop :=
  ∃ before after, l = before ++ a :: after ∧ (∀ b ∈ before, ¬ p b) ∧ p a

@[simp] theorem not_isFirst_nil : ¬ IsFirst p [] a := by
  rintro ⟨before, after, h, -⟩
  simp at h

theorem isFirst_cons_iff : IsFirst p (b :: l) a ↔ (p b ∧ a = b) ∨ (¬ p b ∧ IsFirst p l a) := by
  constructor
  · rintro ⟨_ | ⟨b', before⟩, after, h, hbefore, ha⟩
    · obtain ⟨rfl, rfl⟩ := List.cons.inj h
      exact .inl ⟨ha, rfl⟩
    · obtain ⟨rfl, rfl⟩ := List.cons.inj h
      exact .inr ⟨hbefore b List.mem_cons_self, before, after, rfl,
        fun c hc => hbefore c (List.mem_cons_of_mem _ hc), ha⟩
  · rintro (⟨hb, rfl⟩ | ⟨hb, before, after, rfl, hbefore, ha⟩)
    · exact ⟨[], l, rfl, by simp, hb⟩
    · exact ⟨b :: before, after, rfl, List.forall_mem_cons.2 ⟨hb, hbefore⟩, ha⟩

theorem IsFirst.mem (h : IsFirst p l a) : a ∈ l := by
  obtain ⟨before, after, rfl, -⟩ := h
  exact List.mem_append_right _ List.mem_cons_self

theorem IsFirst.holds (h : IsFirst p l a) : p a := by
  obtain ⟨before, after, -, -, ha⟩ := h
  exact ha

/-- If any element has the property, one is the first. -/
theorem exists_isFirst (hl : ∃ a ∈ l, p a) : ∃ a, IsFirst p l a := by
  induction l with
  | nil => simp at hl
  | cons b rest ih =>
    by_cases hb : p b
    · exact ⟨b, isFirst_cons_iff.2 (.inl ⟨hb, rfl⟩)⟩
    · obtain ⟨a, hmem, ha⟩ := hl
      have hrest : a ∈ rest := (List.mem_cons.1 hmem).resolve_left fun h => hb (h ▸ ha)
      obtain ⟨first, hfirst⟩ := ih ⟨a, hrest, ha⟩
      exact ⟨first, isFirst_cons_iff.2 (.inr ⟨hb, hfirst⟩)⟩

/-- A search that passes over elements as they should be ends at the first that is not. -/
theorem findSome?_unless_iff {q : α → Prop} [DecidablePred q] {reason : α → β} {e : β} :
    l.findSome? (fun a => if q a then none else some (reason a)) = some e ↔
      ∃ a, IsFirst (fun a => ¬ q a) l a ∧ e = reason a := by
  induction l with
  | nil => simp
  | cons b rest ih =>
    rw [List.findSome?_cons]
    by_cases hb : q b
    · simp [isFirst_cons_iff, hb, ih]
    · simp [isFirst_cons_iff, hb, eq_comm]

end IsFirst

variable {g grown : Graph} {spec : HopSpec} {id : HopId} {request : HopRequest} {e : GraphError}

namespace Graph

/-! ## Adding a hop -/

/-- Nothing is wrong with a hop. -/
structure Accepts (g : Graph) (spec : HopSpec) : Prop where
  arity : TakesInputs spec
  params : NamesInputs spec
  inputs : ∀ x ∈ spec.inputs, x < g.size

/-- What is wrong with a hop first. -/
inductive Refuses (g : Graph) (spec : HopSpec) : GraphError → Prop
  | arity {expected : Nat} (kind : spec.kind.arity = some expected)
      (wrong : spec.inputs.length ≠ expected) :
      Refuses g spec (.inputArity spec.kind expected spec.inputs.length)
  | param {name : String} {position : Nat} (arity : TakesInputs spec)
      (first : IsFirst (fun param => spec.inputs.length ≤ param.2) spec.kind.params
        (name, position)) :
      Refuses g spec (.parameterOutOfRange spec.kind name position spec.inputs.length)
  | input {x : HopId} (arity : TakesInputs spec) (params : NamesInputs spec)
      (first : IsFirst (fun x => g.size ≤ x) spec.inputs x) :
      Refuses g spec (.unknownHop x)

/-- What one more hop changes in a graph. -/
structure Gains (g : Graph) (spec : HopSpec) (grown : Graph) : Prop where
  size_eq : grown.size = g.size + 1
  /-- The hop comes last, and nothing reads it yet. -/
  hop?_new : grown.hop? g.size =
    some ⟨g.size, spec.kind, spec.dataType, spec.valueType, spec.shape, spec.inputs, []⟩
  /-- Of the others, those that it reads have it as their last parent. -/
  hop?_old {id : HopId} {h : Hop} : g.hop? id = some h → grown.hop? id =
    some { h with parents := if id ∈ spec.inputs then h.parents ++ [g.size] else h.parents }

theorem accepts_iff : g.Accepts spec ↔ g.refusal? spec = none := by
  rw [refusal?_eq_none_iff]
  exact ⟨fun h => ⟨h.arity, h.params, h.inputs⟩, fun h => ⟨h.1, h.2.1, h.2.2⟩⟩

theorem arityRefusal?_eq_some_iff :
    arityRefusal? spec = some e ↔ ∃ expected, spec.kind.arity = some expected ∧
      spec.inputs.length ≠ expected ∧ e = .inputArity spec.kind expected spec.inputs.length := by
  rw [arityRefusal?, Option.bind_eq_some_iff]
  refine exists_congr fun expected => and_congr_right fun _ => ?_
  split <;> simp_all [eq_comm]

theorem paramRefusal?_eq_some_iff :
    paramRefusal? spec = some e ↔ ∃ param,
      IsFirst (fun param => spec.inputs.length ≤ param.2) spec.kind.params param ∧
        e = .parameterOutOfRange spec.kind param.1 param.2 spec.inputs.length := by
  rw [paramRefusal?, findSome?_unless_iff]
  simp only [Nat.not_lt]

theorem inputRefusal?_eq_some_iff :
    g.inputRefusal? spec = some e ↔
      ∃ x, IsFirst (fun x => g.size ≤ x) spec.inputs x ∧ e = .unknownHop x := by
  simp only [inputRefusal?, findSome?_unless_iff, contains, decide_eq_true_eq, Nat.not_lt]

theorem refuses_iff : g.Refuses spec e ↔ g.refusal? spec = some e := by
  rw [refusal?, Option.or_eq_some_iff, Option.or_eq_some_iff, arityRefusal?_eq_none_iff,
    arityRefusal?_eq_some_iff, paramRefusal?_eq_none_iff, paramRefusal?_eq_some_iff,
    inputRefusal?_eq_some_iff]
  constructor
  · rintro (⟨kind, wrong⟩ | ⟨arity, first⟩ | ⟨arity, params, first⟩)
    · exact .inl ⟨_, kind, wrong, rfl⟩
    · exact .inr ⟨arity, .inl ⟨_, first, rfl⟩⟩
    · exact .inr ⟨arity, .inr ⟨params, _, first, rfl⟩⟩
  · rintro (⟨_, kind, wrong, rfl⟩ | ⟨arity, ⟨⟨_, _⟩, first, rfl⟩ | ⟨params, _, first, rfl⟩⟩)
    · exact .arity kind wrong
    · exact .param arity first
    · exact .input arity params first

theorem WellFormed.gains_extend (wf : g.WellFormed) (spec : HopSpec) :
    g.Gains spec (g.extend spec) where
  size_eq := size_extend
  hop?_new := by
    rw [hop?_extend, if_pos rfl]
    rfl
  hop?_old := by
    intro id h hh
    obtain rfl := wf.id_eq hh
    rw [hop?_extend_of_hop? spec hh, adopt]
    split <;> rfl

/-! ## Looking up hops one after another -/

/-- One of the hops is not in the graph, and the error names the first. -/
def Misses (g : Graph) (ids : List HopId) (e : GraphError) : Prop :=
  ∃ x, IsFirst (fun x => g.size ≤ x) ids x ∧ e = .unknownHop x

/-- What looks up a hop and then others fails at the first that is missing. -/
theorem hop_bind_eq_error_iff {α : Type} {f : Hop → Except GraphError α} {x : HopId}
    {ids : List HopId} (rest : ∀ h, g.hop? x = some h → (f h = .error e ↔ g.Misses ids e)) :
    (g.hop x >>= f) = .error e ↔ g.Misses (x :: ids) e := by
  unfold hop
  cases hh : g.hop? x with
  | none =>
    have hx : g.size ≤ x := hop?_eq_none_iff.1 hh
    simp [Misses, isFirst_cons_iff, hx, bind, Except.bind, eq_comm]
  | some h =>
    have hx : ¬ g.size ≤ x := Nat.not_le.2 (lt_size_of_hop? hh)
    simpa [Misses, isFirst_cons_iff, hx, bind, Except.bind] using rest h hh

/-- A hop whose kind is in order is refused only for what it reads. -/
theorem vet_eq_error_iff_misses (arity : TakesInputs spec) (params : NamesInputs spec) :
    g.vet spec = .error e ↔ g.Misses spec.inputs e := by
  rw [vet_eq_error_iff, ← refuses_iff]
  constructor
  · rintro (⟨kind, wrong⟩ | ⟨-, before, after, hparams, -, hout⟩ | ⟨-, -, first⟩)
    · exact absurd (arity _ kind) wrong
    · exact absurd hout (Nat.not_le.2 (params _ (hparams ▸ by simp)))
    · exact ⟨_, first, rfl⟩
  · rintro ⟨x, first, rfl⟩
    exact .input arity params first

/-- Where the number of inputs is settled, no parameter is named. -/
theorem vet_eq_error_iff_of_arity (arity : spec.kind.arity = some spec.inputs.length) :
    g.vet spec = .error e ↔ g.Misses spec.inputs e := by
  refine vet_eq_error_iff_misses (fun expected h => Option.some.inj (arity.symm.trans h)) ?_
  have params : spec.kind.params = [] := by
    cases hkind : spec.kind with
    | builtin => simp [hkind, Operator.arity] at arity
    | _ => rfl
  simp [NamesInputs, params]

/-- Nothing is missing among hops of the graph. -/
theorem misses_iff_of_known {ids : List HopId} (known : ∀ x ∈ ids, ∃ h, g.hop? x = some h) :
    g.Misses ids e ↔ g.Misses [] e := by
  refine iff_of_false ?_ ?_
  · rintro ⟨x, ⟨before, after, rfl, -, hx⟩, -⟩
    exact absurd hx (Nat.not_le.2 (exists_hop?_iff.1 (known x (by simp))))
  · rintro ⟨x, first, -⟩
    exact not_isFirst_nil first

end Graph

/-! ## Typed requests -/

namespace HopRequest

/-- The hops that a request names, in the order in which it asks for them. A builtin asks for its
target before it asks for all of its parameters. -/
def lookups : HopRequest → List HopId
  | data .. | dataUnknown .. | scalar .. | literal .. => []
  | unary _ x | aggUnary _ _ x | reorg _ x => [x]
  | binary _ a b | matmul a b => [a, b]
  | ternary _ a b c => [a, b, c]
  | rightIndex target rowLower rowUpper colLower colUpper =>
    [rowLower, rowUpper, colLower, colUpper, target]
  | builtin _ params => (params.lookup "target").toList ++ params.map (·.2)
  | raw spec => spec.inputs

/-- The request names a target, if it asks for a builtin. -/
def HasTarget (request : HopRequest) : Prop :=
  ∀ op params, request = builtin op params → "target" ∈ params.map (·.1)

/-- What is wrong with a typed request first. -/
inductive FailsWith (g : Graph) : HopRequest → GraphError → Prop
  | target {op : BuiltinOp} {params : List (String × HopId)}
      (missing : "target" ∉ params.map (·.1)) :
      FailsWith g (builtin op params)
        (.missingParameter (.builtin op (params.map (·.1)).zipIdx) "target")
  | lookup {request : HopRequest} {x : HopId} (target : request.HasTarget)
      (first : IsFirst (fun x => g.size ≤ x) request.lookups x) :
      FailsWith g request (.unknownHop x)

theorem failsWith_iff (target : request.HasTarget) :
    request.FailsWith g e ↔ g.Misses request.lookups e := by
  constructor
  · rintro (⟨missing⟩ | ⟨-, first⟩)
    · exact absurd (target _ _ rfl) missing
    · exact ⟨_, first, rfl⟩
  · rintro ⟨x, first, rfl⟩
    exact .lookup target first

/-- A builtin that has a target finds it among its parameters. -/
theorem HasTarget.exists_lookup {op : BuiltinOp} {params : List (String × HopId)}
    (target : (builtin op params).HasTarget) : ∃ x, params.lookup "target" = some x := by
  obtain ⟨⟨name, x⟩, hmem, rfl⟩ := List.mem_map.1 (target op params rfl)
  exact Option.isSome_iff_exists.1 (List.lookup_isSome_iff.2 ⟨_, hmem, beq_self_eq_true _⟩)

theorem lookup_eq_none_of_not_mem {params : List (String × HopId)} {name : String}
    (missing : name ∉ params.map (·.1)) : params.lookup name = none :=
  List.lookup_eq_none_iff.2 fun _ hparam =>
    bne_iff_ne.2 fun h => missing (h ▸ List.mem_map_of_mem hparam)

/-- The positions of the parameters of a builtin are those of their names. -/
theorem zipIdx_names (params : List (String × HopId)) :
    params.zipIdx.map (fun ((name, _), position) => (name, position)) =
      (params.map (·.1)).zipIdx :=
  List.zipIdx_map.symm

end HopRequest

namespace Graph

/-- The parameters of a builtin stand for its inputs, each for the one that it names. -/
theorem vet_builtin_eq_error_iff {op : BuiltinOp} {params : List (String × HopId)}
    {dataType : DataType} {valueType : ValueType} {shape : Shape} :
    g.vet ⟨.builtin op (params.map (·.1)).zipIdx, dataType, valueType, shape, params.map (·.2)⟩ =
      .error e ↔ g.Misses (params.map (·.2)) e := by
  refine vet_eq_error_iff_misses (by simp [TakesInputs, Operator.arity]) fun param hparam => ?_
  have hlt := List.snd_lt_of_mem_zipIdx hparam
  rwa [Nat.add_zero, List.length_map, ← List.length_map (·.2)] at hlt

theorem spec_builtin_of_missing {op : BuiltinOp} {params : List (String × HopId)}
    (missing : "target" ∉ params.map (·.1)) :
    HopRequest.spec g (.builtin op params) =
      .error (.missingParameter (.builtin op (params.map (·.1)).zipIdx) "target") := by
  simp only [HopRequest.spec, HopRequest.zipIdx_names,
    HopRequest.lookup_eq_none_of_not_mem missing]

/-- A typed request that has its target looks up hops, and then nothing is wrong with its kind. -/
theorem spec_bind_vet_eq_error_iff (typed : request.isTyped) (target : request.HasTarget) :
    (request.spec g >>= g.vet) = .error e ↔ g.Misses request.lookups e := by
  cases request with
  | raw => simp [HopRequest.isTyped] at typed
  | data | dataUnknown | scalar | literal =>
    simp only [HopRequest.spec, ok_bind]
    exact vet_eq_error_iff_of_arity rfl
  | unary | aggUnary | reorg =>
    simp only [HopRequest.spec, bind_assoc, pure_bind]
    refine hop_bind_eq_error_iff fun h hh => ?_
    exact (vet_eq_error_iff_of_arity rfl).trans (misses_iff_of_known (by simp [hh]))
  | binary | matmul =>
    simp only [HopRequest.spec, bind_assoc, pure_bind]
    refine hop_bind_eq_error_iff fun left hleft => hop_bind_eq_error_iff fun right hright => ?_
    exact (vet_eq_error_iff_of_arity rfl).trans (misses_iff_of_known (by simp [hleft, hright]))
  | ternary =>
    simp only [HopRequest.spec, bind_assoc, pure_bind]
    refine hop_bind_eq_error_iff fun a ha => hop_bind_eq_error_iff fun b hb =>
      hop_bind_eq_error_iff fun c hc => ?_
    exact (vet_eq_error_iff_of_arity rfl).trans (misses_iff_of_known (by simp [ha, hb, hc]))
  | rightIndex =>
    simp only [HopRequest.spec, bind_assoc, pure_bind]
    refine hop_bind_eq_error_iff fun rl hrl => hop_bind_eq_error_iff fun ru hru =>
      hop_bind_eq_error_iff fun cl hcl => hop_bind_eq_error_iff fun cu hcu =>
      hop_bind_eq_error_iff fun x hx => ?_
    exact (vet_eq_error_iff_of_arity rfl).trans
      (misses_iff_of_known (by simp [hrl, hru, hcl, hcu, hx]))
  | builtin op params =>
    obtain ⟨x, hlookup⟩ := target.exists_lookup
    rw [HopRequest.lookups, hlookup]
    simp only [HopRequest.spec, HopRequest.zipIdx_names, hlookup, bind_assoc]
    refine hop_bind_eq_error_iff fun h hh => ?_
    -- The other parameters are looked up only when the hop is added.
    cases op <;> exact vet_builtin_eq_error_iff

/-- A typed request fails when a hop is not in the graph, or a builtin lacks its target. -/
theorem apply_eq_error_iff_failsWith (typed : request.isTyped) :
    g.apply request = .error e ↔ request.FailsWith g e := by
  rw [apply_eq_error_iff]
  by_cases target : request.HasTarget
  · rw [spec_bind_vet_eq_error_iff typed target, HopRequest.failsWith_iff target]
  · simp only [HopRequest.HasTarget, not_forall] at target
    obtain ⟨op, params, rfl, missing⟩ := target
    rw [spec_builtin_of_missing missing]
    constructor
    · rintro ⟨⟩
      exact .target missing
    · rintro (_ | ⟨target, -⟩)
      · rfl
      · exact absurd (target op params rfl) missing

/-! ## All or nothing -/

theorem exists_add_eq_ok_iff : (∃ id grown, (add spec).run g = .ok id grown) ↔ g.Accepts spec := by
  rw [accepts_iff]
  constructor
  · rintro ⟨id, grown, hadd⟩
    exact (add_eq_ok_iff.1 hadd).1
  · exact fun accepted => ⟨_, _, add_eq_ok_iff.2 ⟨accepted, rfl, rfl⟩⟩

/-- A hop is added to a built graph exactly when nothing is wrong with it, else the first thing that
is wrong is reported and the graph is what it was. A request that succeeds adds one hop and makes it
a parent of what it reads; a request that fails leaves nothing behind; a typed request fails for a
hop that is not there or for want of a target only. -/
theorem request_allOrNothing (built : g.IsBuilt) :
    (∀ spec, ((∃ id grown, (add spec).run g = .ok id grown) ↔ g.Accepts spec) ∧
      ∀ e left, (add spec).run g = .error e left ↔ g.Refuses spec e ∧ left = g) ∧
    (∀ request grown id, g.apply request = .ok (grown, id) →
      id = g.size ∧ g.build [request] = grown ∧
        ∃ spec, request.spec g = .ok spec ∧ g.Gains spec grown) ∧
    (∀ request e left, request.carryOut.run g = .error e left →
      left = g ∧ g.apply request = .error e ∧ g.build [request] = g) ∧
    ∀ request : HopRequest, request.isTyped →
      ∀ e, g.apply request = .error e ↔ request.FailsWith g e := by
  refine ⟨fun spec => ⟨exists_add_eq_ok_iff, fun e left => ?_⟩, ?_, ?_,
    fun request typed e => apply_eq_error_iff_failsWith typed⟩
  · rw [add_eq_error_iff, refuses_iff]
  · intro request grown id happly
    have hrun := apply_eq_ok_iff.1 happly
    obtain ⟨spec, hspec, _, rfl, rfl⟩ := carryOut_eq_ok_iff.1 hrun
    have hafter : g.build [request] = g.extend spec := by
      simp only [build, List.foldl_cons, List.foldl_nil, after, hrun]
    exact ⟨rfl, hafter, spec, hspec, built.wellFormed.gains_extend spec⟩
  · intro request e left hrun
    obtain ⟨hvet, rfl⟩ := carryOut_eq_error_iff.1 hrun
    have hafter : left.build [request] = left := by
      simp only [build, List.foldl_cons, List.foldl_nil, after, hrun]
    exact ⟨rfl, apply_eq_error_iff.2 hvet, hafter⟩

/-- Of what is wrong with a raw builtin the parameter is reported, not the input that is not in the
graph; a typed builtin reports that input, for it settles the positions of its parameters. -/
theorem request_allOrNothing_twoScalars :
    let g := Graph.empty.build [.scalar "x", .scalar "y"]
    let misplaced : HopSpec :=
      ⟨.builtin .replace [("target", 0), ("pattern", 2)], .scalar, .fp64, .scalar, [0, 9]⟩
    (add misplaced).run g = .error (.parameterOutOfRange misplaced.kind "pattern" 2 2) g ∧
      g.apply (.replace 1 9 0) = .error (.unknownHop 9) ∧
      (HopRequest.replace 1 9 0).carryOut.run g = .error (.unknownHop 9) g ∧
      g.build [.replace 1 9 0] = g := by
  intro g misplaced
  obtain ⟨adds, -, failing, typed⟩ := request_allOrNothing (g := g) ⟨_, rfl⟩
  have unknown : g.apply (.replace 1 9 0) = .error (.unknownHop 9) :=
    (typed _ rfl _).2 (.lookup (by rintro _ _ ⟨⟩; decide)
      ⟨[1, 1], [0], by decide, by decide, by decide⟩)
  have left : (HopRequest.replace 1 9 0).carryOut.run g = .error (.unknownHop 9) g :=
    carryOut_eq_error_iff.2 ⟨apply_eq_error_iff.1 unknown, rfl⟩
  refine ⟨((adds misplaced).2 _ _).2 ⟨.param ?_ ?_, rfl⟩, unknown, left, (failing _ _ _ left).2.2⟩
  · exact nofun
  · exact ⟨[("target", 0)], [], rfl, by decide, by decide⟩

end Graph

end OpFusion
