import Mathlib.Data.List.Induction
import OpFusion.Graph.Builder
import OpFusion.Proofs.Outcome

/-!
# What adding a hop comes to

Adding a hop is a run of checks and then a run of updates. Checks leave the graph alone, so in
sequence they are one check, for the first reason to refuse the hop (`Graph.refusal?`). Updates do
not fail, and together they extend the graph by the hop (`Graph.extend`). So either all is done or
nothing is (`Graph.run_add`), and the same holds of a request, which looks up hops before it adds one
(`Graph.run_carryOut`).
-/

namespace OpFusion

namespace Graph

variable {α : Type} {g grown left : Graph} {spec : HopSpec} {request : HopRequest} {id : HopId}
  {e : GraphError}

/-! ## Reasons to refuse a hop -/

/-- The kind takes another number of inputs. -/
def arityRefusal? (spec : HopSpec) : Option GraphError :=
  spec.kind.arity.bind fun expected =>
    if spec.inputs.length = expected then none
    else some (.inputArity spec.kind expected spec.inputs.length)

/-- A parameter stands for no input. -/
def paramRefusal? (spec : HopSpec) : Option GraphError :=
  spec.kind.params.findSome? fun param =>
    if param.2 < spec.inputs.length then none
    else some (.parameterOutOfRange spec.kind param.1 param.2 spec.inputs.length)

/-- An input is not in the graph. -/
def inputRefusal? (g : Graph) (spec : HopSpec) : Option GraphError :=
  spec.inputs.findSome? fun x => if g.contains x then none else some (.unknownHop x)

/-- The first reason to refuse a hop: a wrong number of inputs, then a parameter that stands for
no input, then an input that is not in the graph. -/
def refusal? (g : Graph) (spec : HopSpec) : Option GraphError :=
  (arityRefusal? spec).or ((paramRefusal? spec).or (g.inputRefusal? spec))

/-- The kind takes as many inputs as are given. -/
def TakesInputs (spec : HopSpec) : Prop :=
  ∀ expected, spec.kind.arity = some expected → spec.inputs.length = expected

/-- The named parameters stand for inputs. -/
def NamesInputs (spec : HopSpec) : Prop :=
  ∀ param ∈ spec.kind.params, param.2 < spec.inputs.length

theorem arityRefusal?_eq_none_iff : arityRefusal? spec = none ↔ TakesInputs spec := by
  simp [arityRefusal?, TakesInputs, Option.bind_eq_none_iff]

theorem paramRefusal?_eq_none_iff : paramRefusal? spec = none ↔ NamesInputs spec := by
  simp [paramRefusal?, NamesInputs]

theorem inputRefusal?_eq_none_iff :
    g.inputRefusal? spec = none ↔ ∀ x ∈ spec.inputs, x < g.size := by
  simp [inputRefusal?, contains]

/-- An accepted hop has the inputs that its kind asks for, and they are in the graph. -/
theorem refusal?_eq_none_iff : g.refusal? spec = none ↔
    TakesInputs spec ∧ NamesInputs spec ∧ ∀ x ∈ spec.inputs, x < g.size := by
  rw [refusal?, Option.or_eq_none_iff, Option.or_eq_none_iff, arityRefusal?_eq_none_iff,
    paramRefusal?_eq_none_iff, inputRefusal?_eq_none_iff]

/-! ## Checks -/

namespace Change

/-- Fails if there is a reason to. -/
def failFor : Option GraphError → Change Unit
  | none => pure ()
  | some e => throw e

theorem require_eq_failFor {condition : Prop} [Decidable condition] {e : GraphError} :
    require condition e = failFor (if condition then none else some e) := by
  unfold require
  split <;> rfl

theorem forM_option_failFor {o : Option α} {reason : α → Option GraphError} :
    o.forM (fun a => failFor (reason a)) = failFor (o.bind reason) := by
  cases o <;> rfl

/-- Checks in sequence fail for the first reason that there is, for they all look at one graph. -/
theorem run_forM_failFor {l : List α} {reason : Graph → α → Option GraphError} :
    (l.forM fun a => do failFor (reason (← get) a)).run g =
      (failFor (l.findSome? (reason g))).run g := by
  induction l with
  | nil => rfl
  | cons a rest ih =>
    show (do failFor (reason (← get) a); rest.forM fun a => do failFor (reason (← get) a)).run g = _
    rw [List.findSome?_cons]
    simp only [EStateM.run_bind, EStateM.run_get]
    cases reason g a with
    | none => exact ih
    | some e => rfl

/-- Of two checks in sequence the first decides if it fails, and else the second. -/
theorem run_seq_failFor {first second : Change Unit} {a b : Option GraphError}
    (hfirst : first.run g = (failFor a).run g) (hsecond : second.run g = (failFor b).run g) :
    (do first; second).run g = (failFor (a.or b)).run g := by
  rw [EStateM.run_bind, hfirst]
  cases a with
  | none => exact hsecond
  | some e => rfl

end Change

/-- Inspection fails for the first reason to refuse the hop, and changes nothing. -/
theorem run_inspect : (inspect spec).run g = (Change.failFor (g.refusal? spec)).run g := by
  refine Change.run_seq_failFor ?arity (Change.run_seq_failFor ?params ?inputs)
  case arity =>
    simp only [Change.require_eq_failFor, Change.forM_option_failFor]
    rfl
  case params =>
    simp only [Change.require_eq_failFor]
    exact Change.run_forM_failFor
  case inputs =>
    simp only [Change.require_eq_failFor]
    exact Change.run_forM_failFor

/-! ## Updates -/

/-- The graph with one more hop, which becomes the last parent of every hop it reads. -/
def extend (g : Graph) (spec : HopSpec) : Graph :=
  let id := g.size
  let adopted := g.hops.map fun h =>
    if h.id ∈ spec.inputs then { h with parents := h.parents ++ [id] } else h
  ⟨adopted ++ [⟨id, spec.kind, spec.dataType, spec.valueType, spec.shape, spec.inputs, []⟩]⟩

/-- Updates in sequence succeed, and each goes on from what the one before made. -/
theorem run_forM_modify {l : List α} {update : α → Graph → Graph} :
    (l.forM fun a => (modify (update a) : Change Unit)).run g =
      .ok () (l.foldl (fun g a => update a g) g) := by
  induction l generalizing g with
  | nil => rfl
  | cons a rest ih => exact ih

/-- Parents are registered once with each hop that is read, however often that is. -/
theorem foldl_addParent {ids : List HopId} {parent : HopId} :
    ids.eraseDups.foldl (fun g x => g.addParent x parent) g =
      ⟨g.hops.map fun h =>
        if h.id ∈ ids then { h with parents := h.parents ++ [parent] } else h⟩ := by
  induction ids using List.reverseRecOn with
  | nil => simp
  | append_singleton ids x ih =>
    by_cases hx : x ∈ ids
    · have skipped : (ids ++ [x]).eraseDups = ids.eraseDups := by
        simp [List.eraseDups_append, List.removeAll, hx]
      have known (y : HopId) : y ∈ ids ++ [x] ↔ y ∈ ids := by
        rw [List.mem_append, List.mem_singleton]
        exact or_iff_left_of_imp fun h => h ▸ hx
      simp only [skipped, ih, known]
    · have appended : (ids ++ [x]).eraseDups = ids.eraseDups ++ [x] := by
        simp [List.eraseDups_append, List.eraseDups_cons, List.removeAll, hx]
      rw [appended, List.foldl_append, ih, List.foldl_cons, List.foldl_nil, addParent, List.map_map]
      congr 2
      funext h
      by_cases hid : h.id = x
      · simp [hid, hx]
      · by_cases hmem : h.id ∈ ids <;> simp [hid, hmem]

/-! ## One hop -/

/-- Entering a hop extends the graph by it. -/
theorem run_enter : (enter spec).run g = .ok g.size (g.extend spec) := by
  unfold enter
  simp only [EStateM.run_bind, EStateM.run_get, run_forM_modify, foldl_addParent]
  rfl

/-- A hop that there is a reason to refuse is not added, and nothing is changed; else the graph is
extended by it. -/
theorem run_add : (add spec).run g =
    match g.refusal? spec with
    | none => .ok g.size (g.extend spec)
    | some e => .error e g := by
  rw [add, EStateM.run_bind, run_inspect]
  cases g.refusal? spec with
  | none => exact run_enter
  | some e => rfl

/-- A hop is added exactly when nothing speaks against it. -/
theorem add_eq_ok_iff : (add spec).run g = .ok id grown ↔
    g.refusal? spec = none ∧ id = g.size ∧ grown = g.extend spec := by
  rw [run_add]
  cases g.refusal? spec <;> simp [eq_comm]

theorem add_eq_error_iff : (add spec).run g = .error e left ↔
    g.refusal? spec = some e ∧ left = g := by
  rw [run_add]
  cases g.refusal? spec <;> simp [eq_comm]

/-! ## One request -/

/-- The hop itself if nothing is wrong with it, or else what is wrong first. -/
def vet (g : Graph) (spec : HopSpec) : Except GraphError HopSpec :=
  match g.refusal? spec with
  | none => .ok spec
  | some e => .error e

theorem vet_eq_ok_iff {spec' : HopSpec} :
    g.vet spec = .ok spec' ↔ g.refusal? spec = none ∧ spec = spec' := by
  unfold vet
  cases g.refusal? spec <;> simp

theorem vet_eq_error_iff : g.vet spec = .error e ↔ g.refusal? spec = some e := by
  unfold vet
  cases g.refusal? spec <;> simp

/-- A request adds the hop that it stands for, if that hop can be added, or changes nothing. -/
theorem run_carryOut : request.carryOut.run g =
    match request.spec g >>= g.vet with
    | .ok spec => .ok g.size (g.extend spec)
    | .error e => .error e g := by
  unfold HopRequest.carryOut
  simp only [EStateM.run_bind, EStateM.run_get]
  cases request.spec g with
  | error e => rfl
  | ok spec =>
    show (add spec).run g = _
    rw [run_add, ok_bind, vet]
    cases g.refusal? spec <;> rfl

theorem carryOut_eq_ok_iff : request.carryOut.run g = .ok id grown ↔
    ∃ spec, request.spec g = .ok spec ∧ g.refusal? spec = none ∧ id = g.size ∧
      grown = g.extend spec := by
  rw [run_carryOut]
  constructor
  · intro h
    split at h
    · rename_i spec hspec
      obtain ⟨spec', hspec', hvet⟩ := bind_eq_ok_iff.1 hspec
      obtain ⟨accepted, rfl⟩ := vet_eq_ok_iff.1 hvet
      obtain ⟨rfl, rfl⟩ := EStateM.Result.ok.inj h
      exact ⟨_, hspec', accepted, rfl, rfl⟩
    · simp at h
  · rintro ⟨spec, hspec, accepted, rfl, rfl⟩
    rw [hspec, ok_bind, vet_eq_ok_iff.2 ⟨accepted, rfl⟩]

theorem carryOut_eq_error_iff : request.carryOut.run g = .error e left ↔
    (request.spec g >>= g.vet) = .error e ∧ left = g := by
  rw [run_carryOut]
  cases request.spec g >>= g.vet <;> simp [eq_comm]

theorem apply_eq_ok_iff : g.apply request = .ok (grown, id) ↔
    request.carryOut.run g = .ok id grown := by
  unfold apply
  cases request.carryOut.run g <;> simp [and_comm]

theorem apply_eq_error_iff :
    g.apply request = .error e ↔ (request.spec g >>= g.vet) = .error e := by
  rw [apply, run_carryOut]
  cases request.spec g >>= g.vet <;> simp

/-- A request leaves the graph as it is, or extended by the hop that the request stands for. -/
theorem after_cases (g : Graph) (request : HopRequest) : g.after request = g ∨
    ∃ spec, request.spec g = .ok spec ∧ g.refusal? spec = none ∧
      g.after request = g.extend spec := by
  unfold after
  cases h : request.carryOut.run g with
  | error e left => exact .inl (carryOut_eq_error_iff.1 h).2
  | ok id grown =>
    obtain ⟨spec, hspec, accepted, _, hgrown⟩ := carryOut_eq_ok_iff.1 h
    exact .inr ⟨spec, hspec, accepted, hgrown⟩

end Graph

end OpFusion
