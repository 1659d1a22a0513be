import OpFusion.Plan.Lowering
import OpFusion.Proofs.Kernel.Table
import OpFusion.Proofs.Memo.Regions

/-!
# Runs of the plan builder

Lowering a region is a sequence of two kinds of steps: a hop from outside is bound to a kernel input
(`Step.outer`), or a hop of the region is bound to what it is lowered to, once it is `Ready`
(`Step.inner`). `lowerBelow_lowers` takes a successful call apart: the steps below a hop come first,
and the hop itself is lowered last. What each step keeps, every run keeps (`Run.preserves`).
-/

namespace OpFusion

open Kernel

@[simp] theorem PlanError.ofGraph_eq_ok_iff {α : Type} {x : Except GraphError α} {a : α} :
    PlanError.ofGraph x = .ok a ↔ x = .ok a := by
  cases x <;> simp [PlanError.ofGraph]

@[simp] theorem Memo.best_eq_ok_iff {m : Memo} {id : HopId} {t : Template} {e : MemoEntry} :
    m.best id t = .ok e ↔ m.best? id t = some e := by
  unfold best
  cases m.best? id t <;> simp

namespace Draft

variable {t : Template} {g : Graph} {memo : Memo} {config : Config} {d d' d'' : Draft}
  {id root : HopId} {h : Hop} {n : NodeId}

/-! ## Bound hops -/

/-- The hop has a node. -/
def Binds (d : Draft) (id : HopId) : Prop := ∃ n, d.node? id = some n

theorem node?_of_not_binds (hnew : ¬ d.Binds id) : d.node? id = none := by
  cases hn : d.node? id with
  | none => rfl
  | some n => exact absurd ⟨n, hn⟩ hnew

@[simp] theorem node_eq_ok_iff : d.node id = .ok n ↔ d.node? id = some n := by
  unfold node
  cases d.node? id <;> simp

theorem operand_eq_ok_iff {i : Nat} :
    d.operand h i = .ok n ↔ ∃ x, h.input? i = some x ∧ d.node? x = some n := by
  unfold operand
  cases h.input? i <;> simp

theorem operandHop_eq_ok_iff {i : Nat} {hx : Hop} :
    operandHop g h i = .ok hx ↔ ∃ x, h.input? i = some x ∧ g.hop? x = some hx := by
  unfold operandHop
  cases h.input? i <;> simp

/-- The hop found at a position is the one that the graph has there. -/
theorem operandHop_eq_ok_iff_input? (hh : g.hop? h.id = some h) {i : Nat} {hx : Hop} :
    operandHop g h i = .ok hx ↔ g.input? h.id i = some hx :=
  operandHop_eq_ok_iff.trans (Graph.input?_iff_of_hop? hh).symm

theorem node?_snoc {table : NodeTable} {b : Binding} :
    node? ⟨table, d.bindings ++ [b]⟩ id =
      (d.node? id).or (if b.hop = id then some b.node else none) := by
  unfold node?
  rw [List.find?_append, Option.map_or]
  congr 1
  by_cases heq : b.hop = id
  · simp [heq]
  · simp [heq]

/-- The node of a hop is that of one of the bindings. -/
theorem exists_mem_of_node? (hn : d.node? id = some n) :
    ∃ b ∈ d.bindings, b.hop = id ∧ b.node = n := by
  obtain ⟨b, hb, rfl⟩ := Option.map_eq_some_iff.1 hn
  exact ⟨b, List.mem_of_find?_eq_some hb, by simpa using List.find?_some hb, rfl⟩

theorem binds_iff : d.Binds id ↔ id ∈ d.bindings.map (·.hop) := by
  rw [Binds, ← Option.isSome_iff_exists, node?, Option.isSome_map, List.find?_isSome]
  simp

theorem mem_lowered_iff : id ∈ d.lowered ↔ ∃ b ∈ d.bindings, b.isBoundary = false ∧ b.hop = id := by
  simp [lowered, and_assoc]

theorem mem_boundary_iff : id ∈ d.boundary ↔ ∃ b ∈ d.bindings, b.isBoundary = true ∧ b.hop = id := by
  simp [boundary, and_assoc]

theorem binds_of_mem_boundary (hid : id ∈ d.boundary) : d.Binds id := by
  obtain ⟨b, hb, _, rfl⟩ := mem_boundary_iff.1 hid
  exact binds_iff.2 (List.mem_map_of_mem hb)

/-- One draft was there before the other: nothing of it has changed since. -/
def Precedes (d d' : Draft) : Prop := d.table.Keeps d'.table ∧ d.bindings <+: d'.bindings

instance : Decidable (d.Precedes d') := inferInstanceAs (Decidable (_ ∧ _))

theorem Precedes.refl (d : Draft) : d.Precedes d := ⟨.refl _, List.prefix_refl _⟩

theorem Precedes.trans (h : d.Precedes d') (h' : d'.Precedes d'') : d.Precedes d'' :=
  ⟨h.1.trans h'.1, h.2.trans h'.2⟩

theorem Precedes.node? (h : d.Precedes d') (hn : d.node? id = some n) : d'.node? id = some n := by
  obtain ⟨more, hmore⟩ := h.2
  obtain ⟨b, hb, rfl⟩ := Option.map_eq_some_iff.1 hn
  rw [Draft.node?, ← hmore, List.find?_append, hb]
  rfl

theorem Precedes.binds (h : d.Precedes d') (hid : d.Binds id) : d'.Binds id :=
  hid.imp fun _ hn => h.node? hn

theorem Precedes.lowered (h : d.Precedes d') (hid : id ∈ d.lowered) : id ∈ d'.lowered := by
  obtain ⟨b, hb, hinner, rfl⟩ := mem_lowered_iff.1 hid
  exact mem_lowered_iff.2 ⟨b, h.2.subset hb, hinner, rfl⟩

/-! ## Steps -/

/-- The draft in which a hop from outside is bound as well. -/
def bindOuter (config : Config) (d : Draft) (h : Hop) : Draft :=
  ⟨(d.table.push (boundaryNode config h)).1, d.bindings ++ [⟨h.id, d.table.size, true⟩]⟩

theorem precedes_bindOuter : d.Precedes (d.bindOuter config h) :=
  ⟨NodeTable.keeps_push, List.prefix_append _ _⟩

theorem precedes_bindLowered {f : Fragment} : d.Precedes (d.bindLowered h f) :=
  ⟨(NodeTable.keeps_emit f _).trans NodeTable.keeps_fitTo, List.prefix_append _ _⟩

theorem binds_bindOuter_iff : (d.bindOuter config h).Binds id ↔ d.Binds id ∨ id = h.id := by
  simp only [Binds, bindOuter, node?_snoc]
  by_cases heq : h.id = id
  · simp [heq]
  · simp [heq, Ne.symm heq]

theorem binds_bindLowered_iff {f : Fragment} :
    (d.bindLowered h f).Binds id ↔ d.Binds id ∨ id = h.id := by
  simp only [Binds, bindLowered, node?_snoc]
  by_cases heq : h.id = id
  · simp [heq]
  · simp [heq, Ne.symm heq]

@[simp] theorem boundary_bindOuter : (d.bindOuter config h).boundary = d.boundary ++ [h.id] := by
  simp [boundary, bindOuter]

@[simp] theorem lowered_bindOuter : (d.bindOuter config h).lowered = d.lowered := by
  simp [lowered, bindOuter]

@[simp] theorem boundary_bindLowered {f : Fragment} :
    (d.bindLowered h f).boundary = d.boundary := by
  simp [boundary, bindLowered]

@[simp] theorem lowered_bindLowered {f : Fragment} :
    (d.bindLowered h f).lowered = d.lowered ++ [h.id] := by
  simp [lowered, bindLowered]

/-- The node of a hop that was just lowered is the fitted top of its fragment. -/
theorem node?_bindLowered {f : Fragment} (hnew : ¬ d.Binds h.id) :
    (d.bindLowered h f).node? h.id =
      some ((d.table.emit f).1.fitTo h (d.table.emit f).2).2 := by
  rw [bindLowered, node?_snoc, node?_of_not_binds hnew]
  simp

/-- Everything a hop is lowered from is there. -/
structure Ready (t : Template) (g : Graph) (memo : Memo) (d : Draft) (h : Hop) (e : MemoEntry)
    (f : Fragment) : Prop where
  hop : g.hop? h.id = some h
  best : memo.best? h.id t = some e
  fresh : ¬ d.Binds h.id
  inputs : ∀ x ∈ h.inputs, d.Binds x
  absorbed : ∀ x ∈ t.absorbed g h, d.Binds x
  fragment : t.fragment g d h = .ok f

/-- A multiply absorbs earlier hops. -/
theorem absorbed_lt (wf : g.WellFormed) (hh : g.hop? h.id = some h) {x : HopId}
    (hx : x ∈ t.absorbed g h) : x < h.id := by
  have below {positions : List Nat} (hx : x ∈ belowTransposes g h positions) : x < h.id := by
    obtain ⟨i, _, hi⟩ := List.mem_filterMap.1 hx
    obtain ⟨hy, hinput, hinner⟩ := Option.bind_eq_some_iff.1 hi
    obtain ⟨y, hy', hhy⟩ := (Graph.input?_iff_of_hop? hh).1 hinput
    have hxy : x < y :=
      wf.input_lt hhy x (List.mem_of_getElem? (Hop.transposed?_eq_some_iff.1 hinner).2)
    exact Nat.lt_trans hxy (wf.input?_lt hh hy')
  cases t with
  | outerProduct =>
    simp only [Template.absorbed, OuterProduct.absorbed] at hx
    split at hx
    · exact below hx
    · simp at hx
  | rowAgg =>
    simp only [Template.absorbed, RowAgg.absorbed] at hx
    split at hx
    · exact below hx
    · simp at hx

/-- The region below `root` borders on a hop: one of its hops has it as an operand that the best
entry leaves outside, or takes over its transpose. -/
def Borders (t : Template) (g : Graph) (memo : Memo) (root x : HopId) : Prop :=
  ∃ h e, memo.InRegion t g root h.id ∧ g.hop? h.id = some h ∧ memo.best? h.id t = some e ∧
    ((∃ i, h.input? i = some x ∧ e.refersTo i = false) ∨ x ∈ t.absorbed g h)

/-- A region borders on hops before its root only. -/
theorem Borders.lt (wf : g.WellFormed) (hid : Borders t g memo root id) : id < root := by
  obtain ⟨h, e, hregion, hh, _, hread⟩ := hid
  have hlt : id < h.id := by
    rcases hread with ⟨i, hi, _⟩ | habsorbed
    · exact wf.input?_lt hh hi
    · exact absorbed_lt wf hh habsorbed
  exact Nat.lt_of_lt_of_le hlt (Memo.InRegion.le wf hregion)

/-- What the region below a hop borders on, every larger region borders on. -/
theorem Borders.widen {below : HopId} (hbelow : memo.InRegion t g root below)
    (hid : Borders t g memo below id) : Borders t g memo root id := by
  obtain ⟨h, e, hregion, rest⟩ := hid
  exact ⟨h, e, hbelow.trans hregion, rest⟩

/-- One step below a root: a hop is bound that was not bound before. -/
inductive Step (t : Template) (g : Graph) (memo : Memo) (config : Config) (root : HopId) :
    Draft → Draft → Prop
  /-- The hop lies outside the region. -/
  | outer {d : Draft} {h : Hop} : g.hop? h.id = some h → ¬ d.Binds h.id →
      Borders t g memo root h.id → Step t g memo config root d (d.bindOuter config h)
  /-- The hop belongs to the region. -/
  | inner {d : Draft} {h : Hop} {e : MemoEntry} {f : Fragment} : Ready t g memo d h e f →
      memo.Below t g root h.id → Step t g memo config root d (d.bindLowered h f)

/-- Any number of steps below a root. -/
def Run (t : Template) (g : Graph) (memo : Memo) (config : Config) (root : HopId) :
    Draft → Draft → Prop :=
  Relation.ReflTransGen (Step t g memo config root)

theorem Step.precedes (step : Step t g memo config root d d') : d.Precedes d' := by
  cases step with
  | outer => exact precedes_bindOuter
  | inner => exact precedes_bindLowered

theorem Run.precedes (run : Run t g memo config root d d') : d.Precedes d' := by
  induction run with
  | refl => exact .refl d
  | tail _ step ih => exact ih.trans step.precedes

/-- What holds of a draft and is kept by each step holds after any number of them. -/
theorem Run.preserves {P : Draft → Prop} (run : Run t g memo config root d d')
    (step : ∀ {d d'}, Step t g memo config root d d' → P d → P d') (h : P d) : P d' := by
  induction run with
  | refl => exact h
  | tail _ hstep ih => exact step hstep ih

/-- Steps below a hop of the region are steps below its root. -/
theorem Step.widen (hid : memo.Below t g root id)
    (step : Step t g memo config id d d') : Step t g memo config root d d' := by
  cases step with
  | outer hh hnew hborders => exact .outer hh hnew (hborders.widen hid.to_reflTransGen)
  | inner hready hbelow => exact .inner hready (Relation.TransGen.trans hid hbelow)

theorem Run.widen (hid : memo.Below t g root id)
    (run : Run t g memo config id d d') : Run t g memo config root d d' :=
  Relation.ReflTransGen.mono (fun _ _ step => step.widen hid) _ _ run

/-- Steps below a root bind neither the root nor a later hop. -/
theorem Run.binds_of_le (wf : g.WellFormed) (run : Run t g memo config root d d')
    (hle : root ≤ id) (hid : d'.Binds id) : d.Binds id := by
  induction run with
  | refl => exact hid
  | tail _ step ih =>
    refine ih ?_
    cases step with
    | @outer h hh hnew hborders =>
      rcases binds_bindOuter_iff.1 hid with hid | rfl
      · exact hid
      · exact absurd (hborders.lt wf) (Nat.not_lt.2 hle)
    | @inner h e f hready hbelow =>
      rcases binds_bindLowered_iff.1 hid with hid | rfl
      · exact hid
      · exact absurd (hbelow.lt wf) (Nat.not_lt.2 hle)

/-! ## Calls as runs -/

/-- A call to bind a hop from outside does nothing if the hop is bound, and else takes one step. -/
theorem bindBoundary_cases (wf : g.WellFormed) (hcall : bindBoundary g config d id = .ok d') :
    (d.Binds id ∧ d' = d) ∨
      ∃ h, g.hop? id = some h ∧ h.id = id ∧ ¬ d.Binds id ∧ d' = d.bindOuter config h := by
  unfold bindBoundary at hcall
  split at hcall
  · rename_i n hn
    exact .inl ⟨⟨n, hn⟩, (Except.ok.inj hcall).symm⟩
  · rename_i hn
    simp only [bind_eq_ok_iff, PlanError.ofGraph_eq_ok_iff, Graph.hop_eq_ok_iff, pure_eq_ok_iff]
      at hcall
    obtain ⟨h, hh, rfl⟩ := hcall
    obtain rfl := wf.id_eq hh
    exact .inr ⟨h, hh, rfl, by simp [Binds, hn], rfl⟩

theorem bindBoundary_run (wf : g.WellFormed) (hborders : Borders t g memo root id)
    (hcall : bindBoundary g config d id = .ok d') :
    Run t g memo config root d d' ∧ d'.Binds id := by
  rcases bindBoundary_cases wf hcall with ⟨hid, rfl⟩ | ⟨h, hh, rfl, hnew, rfl⟩
  · exact ⟨.refl, hid⟩
  · exact ⟨.single (.outer hh hnew hborders), binds_bindOuter_iff.2 (.inr rfl)⟩

/-- Calls in sequence are runs in sequence, and what one of them binds stays bound. -/
theorem foldlM_run {α : Type} {l : List α} {f : Draft → α → Except PlanError Draft}
    {target : α → HopId}
    (hf : ∀ a ∈ l, ∀ {d d'}, f d a = .ok d' → Run t g memo config root d d' ∧ d'.Binds (target a))
    (hcall : l.foldlM f d = .ok d') :
    Run t g memo config root d d' ∧ ∀ a ∈ l, d'.Binds (target a) := by
  induction l generalizing d with
  | nil =>
    obtain rfl : d = d' := by simpa [pure, Except.pure] using hcall
    exact ⟨.refl, by simp⟩
  | cons a rest ih =>
    rw [List.foldlM_cons, bind_eq_ok_iff] at hcall
    obtain ⟨d₁, hfirst, hrest⟩ := hcall
    obtain ⟨run, hbound⟩ := hf a List.mem_cons_self hfirst
    obtain ⟨run', hbound'⟩ := ih (fun b hb => hf b (List.mem_cons_of_mem _ hb)) hrest
    refine ⟨run.trans run', fun b hb => ?_⟩
    rcases List.mem_cons.1 hb with rfl | hb
    · exact run'.precedes.binds hbound
    · exact hbound' b hb

/-- The inputs of a hop lowered or bound from outside, as an entry says. -/
def lowerInputs (t : Template) (g : Graph) (memo : Memo) (config : Config) (depth : Nat)
    (d : Draft) (h : Hop) (e : MemoEntry) : Except PlanError Draft :=
  h.inputs.zipIdx.foldlM (fun d (input, position) =>
    if e.refersTo position then lowerBelow t g memo config depth d input
    else bindBoundary g config d input) d

theorem lowerBelow_of_binds {depth : Nat} (hid : d.Binds id) :
    lowerBelow t g memo config (depth + 1) d id = .ok d := by
  obtain ⟨n, hn⟩ := hid
  simp only [lowerBelow, hn]

theorem lowerBelow_of_unknown {depth : Nat} (hnew : ¬ d.Binds id) (hh : g.hop? id = none) :
    lowerBelow t g memo config (depth + 1) d id = .error (.graph (.unknownHop id)) := by
  have hhop : g.hop id = .error (.unknownHop id) := by simp only [Graph.hop, hh]
  simp only [lowerBelow, node?_of_not_binds hnew, hhop]
  rfl

theorem lowerBelow_of_unmatched {depth : Nat} (hnew : ¬ d.Binds id) (hh : g.hop? id = some h)
    (he : memo.best? id t = none) :
    lowerBelow t g memo config (depth + 1) d id = .error (.missingMemoEntry id t) := by
  simp only [lowerBelow, node?_of_not_binds hnew, Graph.hop_eq_ok_iff.2 hh, PlanError.ofGraph,
    ok_bind, Memo.best, he]
  rfl

/-- Lowering below a hop that is not bound lowers its inputs and then the hop itself. -/
theorem lowerBelow_of_not_binds {depth : Nat} {e : MemoEntry} (hnew : ¬ d.Binds id)
    (hh : g.hop? id = some h) (he : memo.best? id t = some e) :
    lowerBelow t g memo config (depth + 1) d id =
      lowerInputs t g memo config depth d h e >>= fun d => lower t g config d h := by
  simp only [lowerBelow, node?_of_not_binds hnew, Graph.hop_eq_ok_iff.2 hh, PlanError.ofGraph,
    ok_bind, Memo.best, he]
  rfl

/-- What a call to lower below a hop comes to: nothing if the hop is bound, and otherwise steps below
the hop until it is ready, and then the step that lowers it. -/
def Lowers (t : Template) (g : Graph) (memo : Memo) (config : Config) (id : HopId)
    (d d' : Draft) : Prop :=
  (d.Binds id ∧ d' = d) ∨ ∃ h e d₁ f, h.id = id ∧ ¬ d.Binds id ∧
    Run t g memo config id d d₁ ∧ Ready t g memo d₁ h e f ∧ d' = d₁.bindLowered h f

theorem Lowers.run (hid : memo.Below t g root id)
    (lowers : Lowers t g memo config id d d') : Run t g memo config root d d' ∧ d'.Binds id := by
  rcases lowers with ⟨hbound, rfl⟩ | ⟨h, e, d₁, f, rfl, _, run, ready, rfl⟩
  · exact ⟨.refl, hbound⟩
  · exact ⟨(run.widen hid).tail (.inner ready hid), binds_bindLowered_iff.2 (.inr rfl)⟩

/-- One input is lowered or bound from outside, and then it is bound. -/
theorem lowerInput_run (wf : g.WellFormed) {depth i : Nat} {x : HopId} {e : MemoEntry}
    (hlowers : ∀ {x d d'}, lowerBelow t g memo config depth d x = .ok d' →
      Lowers t g memo config x d d')
    (hh : g.hop? h.id = some h) (he : memo.best? h.id t = some e) (hx : h.input? i = some x)
    (hcall : (if e.refersTo i then lowerBelow t g memo config depth d x
      else bindBoundary g config d x) = .ok d') :
    Run t g memo config h.id d d' ∧ d'.Binds x := by
  by_cases hrefers : e.refersTo i = true
  · rw [if_pos hrefers] at hcall
    exact (hlowers hcall).run (.single ⟨h, e, i, hh, he, hx, hrefers⟩)
  · rw [if_neg hrefers] at hcall
    have hborders : Borders t g memo h.id x :=
      ⟨h, e, .refl, hh, he, .inl ⟨i, hx, by simpa using hrefers⟩⟩
    exact bindBoundary_run wf hborders hcall

/-- Lowering the inputs of a hop takes steps below it and leaves all of them bound. -/
theorem lowerInputs_run (wf : g.WellFormed) {depth : Nat} {e : MemoEntry}
    (hlowers : ∀ {x d d'}, lowerBelow t g memo config depth d x = .ok d' →
      Lowers t g memo config x d d')
    (hh : g.hop? h.id = some h) (he : memo.best? h.id t = some e)
    (hcall : lowerInputs t g memo config depth d h e = .ok d') :
    Run t g memo config h.id d d' ∧ ∀ x ∈ h.inputs, d'.Binds x := by
  have each : ∀ a ∈ h.inputs.zipIdx, ∀ {d d' : Draft},
      (if e.refersTo a.2 then lowerBelow t g memo config depth d a.1
        else bindBoundary g config d a.1) = .ok d' →
      Run t g memo config h.id d d' ∧ d'.Binds a.1 := by
    rintro ⟨x, i⟩ ha d d' hcall
    exact lowerInput_run wf hlowers hh he (List.mk_mem_zipIdx_iff_getElem?.1 ha) hcall
  obtain ⟨run, hbound⟩ := foldlM_run each hcall
  refine ⟨run, fun x hx => ?_⟩
  obtain ⟨i, hi⟩ := List.getElem?_of_mem hx
  exact hbound (x, i) (List.mk_mem_zipIdx_iff_getElem?.2 hi)

theorem bindAbsorbed_run (wf : g.WellFormed) {e : MemoEntry} (hh : g.hop? h.id = some h)
    (he : memo.best? h.id t = some e)
    (hcall : (t.absorbed g h).foldlM (bindBoundary g config) d = .ok d') :
    Run t g memo config h.id d d' ∧ ∀ x ∈ t.absorbed g h, d'.Binds x :=
  foldlM_run (fun _ hx {_ _} hcall =>
    bindBoundary_run wf ⟨h, e, .refl, hh, he, .inr hx⟩ hcall) hcall

/-- What is lowered and was not bound before is in the graph and has a best entry. -/
theorem matched_of_lowerBelow {depth : Nat} (hnew : ¬ d.Binds id)
    (hcall : lowerBelow t g memo config depth d id = .ok d') :
    ∃ h, g.hop? id = some h ∧ ∃ e, memo.best? id t = some e := by
  cases depth with
  | zero => simp [lowerBelow] at hcall
  | succ depth =>
    unfold lowerBelow at hcall
    split at hcall
    · exact absurd ⟨_, ‹_›⟩ hnew
    · obtain ⟨h, hh, hcall⟩ := bind_eq_ok_iff.1 hcall
      obtain ⟨e, he, _⟩ := bind_eq_ok_iff.1 hcall
      exact ⟨h, by simpa using hh, e, Memo.best_eq_ok_iff.1 he⟩

/-- Lowering below a hop takes steps below the hop until it is ready, and then lowers it. -/
theorem lowerBelow_lowers (wf : g.WellFormed) {depth : Nat} :
    ∀ {d d' : Draft} {id : HopId}, lowerBelow t g memo config depth d id = .ok d' →
      Lowers t g memo config id d d' := by
  induction depth with
  | zero =>
    intro d d' id hcall
    simp [lowerBelow] at hcall
  | succ depth ih =>
    intro d d' id hcall
    by_cases hnew : d.Binds id
    · rw [lowerBelow_of_binds hnew] at hcall
      exact .inl ⟨hnew, (Except.ok.inj hcall).symm⟩
    · obtain ⟨h, hh, e, he⟩ := matched_of_lowerBelow hnew hcall
      rw [lowerBelow_of_not_binds hnew hh he] at hcall
      obtain rfl := wf.id_eq hh
      obtain ⟨d₁, hinputs, hcall⟩ := bind_eq_ok_iff.1 hcall
      obtain ⟨d₂, habsorbed, hcall⟩ := bind_eq_ok_iff.1 hcall
      obtain ⟨f, hf, hcall⟩ := bind_eq_ok_iff.1 hcall
      obtain rfl := pure_eq_ok_iff.1 hcall
      obtain ⟨run, hbound⟩ := lowerInputs_run wf ih hh he hinputs
      obtain ⟨run', hbound'⟩ := bindAbsorbed_run wf hh he habsorbed
      have all : Run t g memo config h.id d d₂ := run.trans run'
      have fresh : ¬ d₂.Binds h.id := fun hid => hnew (all.binds_of_le wf (Nat.le_refl _) hid)
      exact .inr ⟨h, e, d₂, f, rfl, hnew, all, ⟨hh, he, fresh,
        fun x hx => run'.precedes.binds (hbound x hx), hbound', hf⟩, rfl⟩

/-- Lowering a region takes steps below its root until the root is ready, and then lowers it. -/
theorem ofRegion_cases (wf : g.WellFormed) {table : NodeTable}
    (hcall : ofRegion t g memo config table root = .ok d) :
    ∃ h e d₁ f, h.id = root ∧ Run t g memo config root ⟨table, []⟩ d₁ ∧
      Ready t g memo d₁ h e f ∧ d = d₁.bindLowered h f := by
  rcases lowerBelow_lowers wf hcall with ⟨⟨n, hn⟩, _⟩ | ⟨h, e, d₁, f, hid, _, run, ready, hd⟩
  · simp [node?] at hn
  · exact ⟨h, e, d₁, f, hid, run, ready, hd⟩

/-- Each hop that steps have lowered was ready in an earlier draft. -/
theorem Run.lowered (run : Run t g memo config root d d') (hid : id ∈ d'.lowered) :
    id ∈ d.lowered ∨ ∃ h e d₀ f, h.id = id ∧ memo.Below t g root id ∧
      Run t g memo config root d d₀ ∧ Ready t g memo d₀ h e f ∧
      (d₀.bindLowered h f).Precedes d' := by
  induction run with
  | refl => exact .inl hid
  | @tail d₁ d₂ run step ih =>
    have earlier (hid : id ∈ d₁.lowered) : id ∈ d.lowered ∨ ∃ h e d₀ f, h.id = id ∧
        memo.Below t g root id ∧ Run t g memo config root d d₀ ∧ Ready t g memo d₀ h e f ∧
        (d₀.bindLowered h f).Precedes d₂ := by
      rcases ih hid with hid | ⟨h, e, d₀, f, hh, hbelow, run₀, ready, precedes⟩
      · exact .inl hid
      · exact .inr ⟨h, e, d₀, f, hh, hbelow, run₀, ready, precedes.trans step.precedes⟩
    cases step with
    | outer => exact earlier (by simpa using hid)
    | inner ready hbelow =>
      rw [lowered_bindLowered] at hid
      rcases List.mem_append.1 hid with hid | hid
      · exact earlier hid
      · obtain rfl := List.mem_singleton.1 hid
        exact .inr ⟨_, _, d₁, _, rfl, hbelow, run, ready, .refl _⟩

/-- Each lowered hop of a region belongs to it and was ready in an earlier draft. -/
theorem ofRegion_lowered (wf : g.WellFormed) {table : NodeTable}
    (hcall : ofRegion t g memo config table root = .ok d) (hid : id ∈ d.lowered) :
    ∃ h e d₀ f, h.id = id ∧ memo.InRegion t g root id ∧
      Run t g memo config root ⟨table, []⟩ d₀ ∧ Ready t g memo d₀ h e f ∧
      (d₀.bindLowered h f).Precedes d := by
  obtain ⟨h, e, d₁, f, rfl, run, ready, rfl⟩ := ofRegion_cases wf hcall
  rw [lowered_bindLowered] at hid
  rcases List.mem_append.1 hid with hid | hid
  · rcases run.lowered hid with hid | ⟨h', e', d₀, f', rfl, hbelow, run₀, ready₀, precedes⟩
    · simp [Draft.lowered] at hid
    · exact ⟨h', e', d₀, f', rfl, hbelow.to_reflTransGen, run₀, ready₀,
        precedes.trans precedes_bindLowered⟩
  · obtain rfl := List.mem_singleton.1 hid
    exact ⟨h, e, d₁, f, rfl, .refl, run, ready, .refl _⟩

/-- Whatever steps bind from outside, the region borders on. -/
theorem Run.borders (run : Run t g memo config root d d') (hid : id ∈ d'.boundary) :
    id ∈ d.boundary ∨ Borders t g memo root id := by
  induction run with
  | refl => exact .inl hid
  | tail _ step ih =>
    cases step with
    | outer _ _ hborders =>
      rw [boundary_bindOuter] at hid
      rcases List.mem_append.1 hid with hid | hid
      · exact ih hid
      · exact .inr (List.mem_singleton.1 hid ▸ hborders)
    | inner =>
      rw [boundary_bindLowered] at hid
      exact ih hid

/-- Whatever a lowered region has bound from outside, it borders on. -/
theorem borders_of_mem_boundary (wf : g.WellFormed) {table : NodeTable}
    (hcall : ofRegion t g memo config table root = .ok d) (hid : id ∈ d.boundary) :
    Borders t g memo root id := by
  obtain ⟨h, e, d₁, f, rfl, run, _, rfl⟩ := ofRegion_cases wf hcall
  rw [boundary_bindLowered] at hid
  rcases run.borders hid with hnone | hborders
  · simp [boundary] at hnone
  · exact hborders

/-- The root of a region is lowered. -/
theorem mem_lowered_of_ofRegion (wf : g.WellFormed) {table : NodeTable}
    (hcall : ofRegion t g memo config table root = .ok d) : root ∈ d.lowered := by
  obtain ⟨h, e, d₁, f, rfl, _, _, rfl⟩ := ofRegion_cases wf hcall
  rw [lowered_bindLowered]
  exact List.mem_append_right _ (List.mem_singleton_self h.id)

theorem binds_of_mem_lowered (hid : id ∈ d.lowered) : d.Binds id := by
  obtain ⟨b, hb, _, rfl⟩ := mem_lowered_iff.1 hid
  exact binds_iff.2 (List.mem_map_of_mem hb)

/-- A bound hop is lowered unless it comes from outside. -/
theorem mem_lowered_or_mem_boundary (hid : d.Binds id) : id ∈ d.lowered ∨ id ∈ d.boundary := by
  obtain ⟨b, hb, rfl⟩ := List.mem_map.1 (binds_iff.1 hid)
  cases hboundary : b.isBoundary with
  | false => exact .inl (mem_lowered_iff.2 ⟨b, hb, hboundary, rfl⟩)
  | true => exact .inr (mem_boundary_iff.2 ⟨b, hb, hboundary, rfl⟩)

/-- A hop of the region is lowered unless the region borders on it or on a hop above it. -/
theorem mem_lowered_or_borders (wf : g.WellFormed) {table : NodeTable}
    (hcall : ofRegion t g memo config table root = .ok d) {x : HopId}
    (hx : memo.InRegion t g root x) :
    x ∈ d.lowered ∨ ∃ y, memo.InRegion t g root y ∧ memo.InRegion t g y x ∧
      Borders t g memo root y := by
  induction hx with
  | refl => exact .inl (mem_lowered_of_ofRegion wf hcall)
  | @tail y z hy hrefers ih =>
    have hregion : memo.InRegion t g root z := hy.tail hrefers
    rcases ih with hlowered | ⟨w, hw, hwy, hborders⟩
    · -- The hop above is lowered, so this one is bound.
      obtain ⟨h, e, d₀, f, rfl, _, _, ready, precedes⟩ := ofRegion_lowered wf hcall hlowered
      obtain ⟨h', e', i, hh', _, hz, _⟩ := hrefers
      obtain rfl : h = h' := Option.some.inj (ready.hop.symm.trans hh')
      have hbound : d.Binds z :=
        (precedes_bindLowered.trans precedes).binds (ready.inputs z (List.mem_of_getElem? hz))
      refine (mem_lowered_or_mem_boundary hbound).imp_right fun hboundary => ?_
      exact ⟨z, hregion, .refl, borders_of_mem_boundary wf hcall hboundary⟩
    · exact .inr ⟨w, hw, hwy.tail hrefers, hborders⟩

/-! ## Who refers to a lowered hop -/

/-- Whatever is lowered since a draft is referred to by a lowered hop, or by the hop `id` that is
still to be lowered. -/
def LowersReferred (t : Template) (g : Graph) (memo : Memo) (id : HopId) (d d' : Draft) : Prop :=
  ∀ x ∈ d'.lowered, x ∈ d.lowered ∨ memo.Refers t g id x ∨ ∃ y ∈ d'.lowered, memo.Refers t g y x

theorem LowersReferred.bindBoundary (wf : g.WellFormed) {x : HopId}
    (lowers : LowersReferred t g memo id d d') (hcall : bindBoundary g config d' x = .ok d'') :
    LowersReferred t g memo id d d'' := by
  rcases bindBoundary_cases wf hcall with ⟨_, rfl⟩ | ⟨_, _, _, _, rfl⟩
  · exact lowers
  · simpa [LowersReferred] using lowers

/-- What a call newly lowers is its own hop, or one that another lowered hop refers to. -/
theorem referred_of_lowerBelow (wf : g.WellFormed) {depth : Nat} :
    ∀ {d d' : Draft} {id : HopId}, lowerBelow t g memo config depth d id = .ok d' →
      ∀ x ∈ d'.lowered, x ∈ d.lowered ∨ x = id ∨ ∃ y ∈ d'.lowered, memo.Refers t g y x := by
  induction depth with
  | zero =>
    intro d d' id hcall
    simp [lowerBelow] at hcall
  | succ depth ih =>
    intro d d' id hcall x hx
    by_cases hnew : d.Binds id
    · rw [lowerBelow_of_binds hnew] at hcall
      exact .inl (Except.ok.inj hcall ▸ hx)
    · obtain ⟨h, hh, e, he⟩ := matched_of_lowerBelow hnew hcall
      rw [lowerBelow_of_not_binds hnew hh he] at hcall
      obtain rfl := wf.id_eq hh
      obtain ⟨d₁, hinputs, hcall⟩ := bind_eq_ok_iff.1 hcall
      obtain ⟨d₂, habsorbed, hcall⟩ := bind_eq_ok_iff.1 hcall
      obtain ⟨f, _, hcall⟩ := bind_eq_ok_iff.1 hcall
      obtain rfl := pure_eq_ok_iff.1 hcall
      have each : ∀ b ∈ h.inputs.zipIdx, ∀ {a a' : Draft},
          (if e.refersTo b.2 then lowerBelow t g memo config depth a b.1
            else bindBoundary g config a b.1) = .ok a' →
          LowersReferred t g memo h.id d a → LowersReferred t g memo h.id d a' := by
        rintro ⟨z, i⟩ hz a a' hcall ha
        have hinput := List.mk_mem_zipIdx_iff_getElem?.1 hz
        by_cases hi : e.refersTo i = true
        · have hrefers : memo.Refers t g h.id z := ⟨h, e, i, hh, he, hinput, hi⟩
          rw [if_pos hi] at hcall
          obtain ⟨run, _⟩ := (lowerBelow_lowers wf hcall).run (.single hrefers)
          intro w hw
          rcases ih hcall w hw with hold | rfl | hreferred
          · refine (ha w hold).imp_right (Or.imp_right fun ⟨y, hy, hyw⟩ => ?_)
            exact ⟨y, run.precedes.lowered hy, hyw⟩
          · exact .inr (.inl hrefers)
          · exact .inr (.inr hreferred)
        · rw [if_neg hi] at hcall
          exact ha.bindBoundary wf hcall
      have h₁ : LowersReferred t g memo h.id d d₁ :=
        foldlM_preserves each hinputs fun _ hx => .inl hx
      have h₂ : LowersReferred t g memo h.id d d₂ :=
        foldlM_preserves (fun _ _ {_ _} hcall ha => ha.bindBoundary wf hcall) habsorbed h₁
      rw [lowered_bindLowered] at hx ⊢
      rcases List.mem_append.1 hx with hx | hx
      · rcases h₂ x hx with hold | hrefers | ⟨y, hy, hyx⟩
        · exact .inl hold
        · exact .inr (.inr ⟨h.id, by simp, hrefers⟩)
        · exact .inr (.inr ⟨y, List.mem_append_left _ hy, hyx⟩)
      · exact .inr (.inl (List.mem_singleton.1 hx))

/-- Every lowered hop but the root is one that another lowered hop refers to. -/
theorem referred_of_mem_lowered (wf : g.WellFormed) {table : NodeTable}
    (hcall : ofRegion t g memo config table root = .ok d) (hid : id ∈ d.lowered) :
    id = root ∨ ∃ y ∈ d.lowered, memo.Refers t g y id := by
  rcases referred_of_lowerBelow wf hcall id hid with hnone | hcases
  · simp [lowered] at hnone
  · exact hcases

end Draft

end OpFusion
