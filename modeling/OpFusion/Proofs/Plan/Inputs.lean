import OpFusion.Proofs.Kernel.Body
import OpFusion.Proofs.Plan.Boundary

/-!
# Kernel inputs

Which hops the kernel of a lowered region reads, and through which nodes. They are all bound from
outside (`Plan.LaidOver.mem_boundary_of_reads`), and each of them to its own kernel input
(`Plan.LaidOver.bindsInput_of_reads`): what is written into the kernel instead is not read.
-/

namespace OpFusion

open Kernel

/-- The last element of a list that is related to anything is related to the given one. -/
def IsLatest {α β : Type} (R : α → β → Prop) (l : List α) : Option β → Prop
  | none => ∀ a ∈ l, ∀ b, ¬ R a b
  | some b => ∃ before a after, l = before ++ a :: after ∧ R a b ∧ ∀ c ∈ after, ∀ b', ¬ R c b'

/-- Searching from the end finds what the last related element is related to. -/
theorem isLatest_findSome? {α β : Type} {R : α → β → Prop} {l : List α} {f : α → Option β}
    (hf : ∀ a ∈ l, ∀ b, f a = some b ↔ R a b) : IsLatest R l (l.reverse.findSome? f) := by
  cases hfound : l.reverse.findSome? f with
  | none =>
    intro a ha b hR
    have hnone := List.findSome?_eq_none_iff.1 hfound a (List.mem_reverse.2 ha)
    rw [(hf a ha b).2 hR] at hnone
    simp at hnone
  | some b =>
    obtain ⟨after, a, before, hsplit, ha, hnone⟩ := List.findSome?_eq_some_iff.1 hfound
    have hl : l = before.reverse ++ a :: after.reverse := by
      rw [← List.reverse_reverse l, hsplit]
      simp
    refine ⟨before.reverse, a, after.reverse, hl, (hf a (by simp [hl]) b).1 ha, ?_⟩
    intro c hc b' hR
    have hc' := hnone c (List.mem_reverse.1 hc)
    have hmem : c ∈ l := by
      rw [hl]
      exact List.mem_append_right _ (List.mem_cons_of_mem _ hc)
    rw [(hf c hmem b').2 hR] at hc'
    simp at hc'

/-- A kernel input is for a hop that is not written into the kernel. -/
def Kernel.NodeOp.isInput (g : Graph) (config : Config) : NodeOp → Bool
  | .data x _ => (g.hop? x).any fun h => Draft.boundaryNode config h = .data h
  | _ => true

namespace Draft

variable {t : Template} {g : Graph} {memo : Memo} {config : Config} {d : Draft}
  {root x : HopId} {h : Hop} {table : NodeTable} {base : Nat}

/-- The hop is bound to its own kernel input. -/
def BindsInput (g : Graph) (d : Draft) (x : HopId) : Prop :=
  ∃ h n, g.hop? x = some h ∧ d.node? x = some n ∧ d.table.node? n = some (.data h)

/-- A hop from outside that is no literal is bound to its kernel input, and so is a literal that is
not written into the kernel. -/
theorem Accounted.bindsInput (acc : Accounted g config base d) (hx : x ∈ d.boundary)
    (hh : g.hop? x = some h) (hnode : boundaryNode config h = .data h) : d.BindsInput g x := by
  obtain ⟨h', n, hh', hn, hbound⟩ := acc.node?_of_mem_boundary hx
  obtain rfl : h = h' := Option.some.inj (hh.symm.trans hh')
  exact ⟨h, n, hh, hn, by rw [hbound, hnode]⟩

theorem Accounted.nodup_boundary (acc : Accounted g config base d) : d.boundary.Nodup :=
  (List.filter_sublist.map _).nodup acc.nodup

/-- The nodes of a lowered region are kernel inputs for hops that are not written into it. -/
theorem laid_isInput (wf : g.WellFormed) (hd : ofRegion t g memo config table root = .ok d) :
    d.Laid table.size (NodeOp.isInput g config) := by
  refine laid_of_ofRegion wf (fun op hop => ?_) (fun h hh => ?_) hd
  · cases op with
    | data => simp [NodeOp.isData] at hop
    | _ => rfl
  · rcases boundaryNode_cases config h with hnode | ⟨value, hnode⟩
    · rw [hnode, Node.data_op]
      simp [NodeOp.isInput, hh, hnode]
    · rw [hnode]
      rfl

/-- A bound hop that is no literal is bound to its kernel input unless it has been lowered. -/
theorem bindsInput_of_not_lowered (wf : g.WellFormed)
    (hd : ofRegion t g memo config table root = .ok d) (hbound : d.Binds x) (hnot : x ∉ d.lowered)
    (hh : g.hop? x = some h) (hliteral : h.literal? = none) : d.BindsInput g x := by
  have hboundary := (mem_lowered_or_mem_boundary hbound).resolve_left hnot
  exact (accounted_of_ofRegion wf hd).bindsInput hboundary hh (boundaryNode_eq_data hliteral)

end Draft

namespace Plan

variable {t : Template} {g : Graph} {memo : Memo} {config : Config} {d : Draft} {root x : HopId}
  {table : NodeTable} {p : Plan}

/-! ## What a plan reads -/

/-- The plan keeps the table of a draft, its output is the node of the root, and its arguments are
the nodes of its inputs. -/
structure LaidOver (p : Plan) (d : Draft) (root : HopId) : Prop where
  table : p.table = d.table
  output : d.node? root = some p.output
  arguments : p.inputs.mapM d.node = .ok p.arguments

/-- The output lies in the kernel. -/
theorem LaidOver.within {base : Nat} {allowed : NodeOp → Bool} (laidOver : p.LaidOver d root)
    (laid : d.Laid base allowed) : p.table.Laid base allowed ∧ p.table.Within base p.output := by
  rw [laidOver.table]
  exact ⟨laid.table, laid.node laidOver.output⟩

/-- The hops that the body is found to read are those it has kernel inputs for. -/
theorem LaidOver.mem_hopsRead_iff (laidOver : p.LaidOver d root) (wf : g.WellFormed)
    (hd : Draft.ofRegion t g memo config table root = .ok d) :
    x ∈ p.hopsRead ↔ p.table.Reads p.output x := by
  obtain ⟨laid, hroot⟩ := laidOver.within (Draft.laid_isInput wf hd)
  exact laid.mem_hopsRead_iff hroot

/-- The body reads hops from outside only. -/
theorem LaidOver.mem_boundary_of_reads (laidOver : p.LaidOver d root) (wf : g.WellFormed)
    (hd : Draft.ofRegion t g memo config table root = .ok d) (hreads : p.table.Reads p.output x) :
    x ∈ d.boundary := by
  obtain ⟨laid, hroot⟩ := laidOver.within (Draft.accounted_of_ofRegion wf hd).laid
  obtain ⟨name, hallowed⟩ := laid.allows_reads hroot hreads
  exact of_decide_eq_true hallowed

/-- The body reads each hop through the kernel input that the hop is bound to. -/
theorem LaidOver.bindsInput_of_reads (laidOver : p.LaidOver d root) (wf : g.WellFormed)
    (hd : Draft.ofRegion t g memo config table root = .ok d) (hreads : p.table.Reads p.output x) :
    d.BindsInput g x := by
  obtain ⟨laid, hroot⟩ := laidOver.within (Draft.laid_isInput wf hd)
  obtain ⟨name, hallowed⟩ := laid.allows_reads hroot hreads
  obtain ⟨h, hh, hnode⟩ := (Option.any_eq_true ..).1 hallowed
  have hboundary := laidOver.mem_boundary_of_reads wf hd hreads
  exact (Draft.accounted_of_ofRegion wf hd).bindsInput hboundary hh (of_decide_eq_true hnode)

/-! ## What a plan passes -/

/-- The arguments of a kernel are its inputs for the hops that are passed, position by position. -/
def BindsInputs (g : Graph) (p : Plan) : Prop :=
  List.Forall₂ (fun x n => ∃ h, g.hop? x = some h ∧ p.table.node? n = some (.data h))
    p.inputs p.arguments

/-- Hops that are bound to their inputs are passed as these. -/
theorem LaidOver.bindsInputs (laidOver : p.LaidOver d root)
    (hbound : ∀ x ∈ p.inputs, d.BindsInput g x) : p.BindsInputs g := by
  have hnodes := (List.forall₂_and_left _ _).2 ⟨hbound, mapM_eq_ok_iff.1 laidOver.arguments⟩
  refine hnodes.imp ?_
  rintro x n ⟨⟨h, n', hh, hn', hnode⟩, hn⟩
  obtain rfl : n' = n := Option.some.inj (hn'.symm.trans (Draft.node_eq_ok_iff.1 hn))
  exact ⟨h, hh, laidOver.table ▸ hnode⟩

/-- The argument at a position is the node of the hop that is passed there. -/
theorem LaidOver.getElem?_arguments (laidOver : p.LaidOver d root) {i : Nat}
    (hx : p.inputs[i]? = some x) : p.arguments[i]? = d.node? x := by
  have hnodes := mapM_eq_ok_iff.1 laidOver.arguments
  obtain ⟨hi, rfl⟩ := List.getElem?_eq_some_iff.1 hx
  have hi' : i < p.arguments.length := hnodes.length_eq ▸ hi
  have hn : d.node p.inputs[i] = .ok p.arguments[i] := hnodes.get hi hi'
  rw [List.getElem?_eq_getElem hi', Draft.node_eq_ok_iff.1 hn]

/-- The argument at a position is the kernel input for the hop that is passed there. -/
theorem BindsInputs.node?_argument (binds : p.BindsInputs g) {i : Nat} {n : NodeId}
    (hx : p.inputs[i]? = some x) (hn : p.arguments[i]? = some n) :
    ∃ h, g.hop? x = some h ∧ p.table.node? n = some (.data h) := by
  obtain ⟨hi, rfl⟩ := List.getElem?_eq_some_iff.1 hx
  obtain ⟨hi', rfl⟩ := List.getElem?_eq_some_iff.1 hn
  exact List.Forall₂.get binds hi hi'

theorem exists_inputPosition? (hx : x ∈ p.inputs) : ∃ i, p.inputPosition? x = some i := by
  rw [← Option.isSome_iff_exists, inputPosition?, List.isSome_idxOf?]
  exact hx

/-- Every position of a hop is the one at which it is found exactly if no hop is passed twice. -/
theorem nodup_inputs_iff :
    p.inputs.Nodup ↔ ∀ i x, p.inputs[i]? = some x → p.inputPosition? x = some i := by
  constructor
  · intro nodup i x hx
    obtain ⟨hi, rfl⟩ := List.getElem?_eq_some_iff.1 hx
    refine List.idxOf?_eq_some_iff.2 ⟨hi, rfl, fun j hj heq => ?_⟩
    exact absurd (nodup.getElem_inj_iff.1 heq) (Nat.ne_of_lt hj)
  · intro hposition
    rw [List.nodup_iff_getElem?_ne_getElem?]
    intro i j hij hj heq
    have hx := List.getElem?_eq_getElem hj
    have hi := hposition i _ (heq.trans hx)
    rw [hposition j _ hx] at hi
    exact absurd (Option.some.inj hi).symm (Nat.ne_of_lt hij)

end Plan

end OpFusion
