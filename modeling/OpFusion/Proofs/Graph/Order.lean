import OpFusion.Graph.Order
import OpFusion.Proofs.Graph.Requests

/-!
# Topological order

The walk behind `Graph.topologicalOrder` marks a hop when it enters it, and looks it up only then.
Inputs are earlier hops, so nothing below a hop can meet the marks of the hops above it. From known
roots the walk therefore lists what a depth-first order lists (`topologicalOrder_of_known`), and at
an unknown root it stops (`topologicalOrder_of_unknown`). Parents are later hops, so going from hop
to parent ends at a hop without parents: these reach the whole graph (`IsBuilt.reachedFrom_roots`).
-/

namespace OpFusion.Graph

variable {g : Graph} {id root : HopId} {path order roots before rest : List HopId} {depth : Nat}

namespace Traversal

variable {w : Traversal}

/-- Exactly the hops that are listed and those on the path, whose inputs are still being passed, are
marked as entered. -/
def Marks (w : Traversal) (path : List HopId) : Prop :=
  ∀ x, x ∈ w.entered ↔ x ∈ w.order ∨ x ∈ path

/-- The walk has gone on to list `order`, and is below the same path as before. -/
def Lists (result : Except GraphError Traversal) (path order : List HopId) : Prop :=
  ∃ w, result = .ok w ∧ w.order = order ∧ w.Marks path

/-- What one call lists, calls in turn list. -/
theorem lists_foldlM {f : Traversal → HopId → Except GraphError Traversal}
    {visit : List HopId → HopId → List HopId} {ids : List HopId}
    (hf : ∀ id ∈ ids, ∀ w : Traversal, w.Marks path → Lists (f w id) path (visit w.order id))
    (hw : w.Marks path) : Lists (ids.foldlM f w) path (ids.foldl visit w.order) := by
  induction ids generalizing w with
  | nil => exact ⟨w, rfl, rfl, hw⟩
  | cons id rest ih =>
    obtain ⟨next, hnext, horder, hmarks⟩ := hf id List.mem_cons_self w hw
    rw [List.foldlM_cons, hnext, ok_bind, List.foldl_cons, ← horder]
    exact ih (fun x hx => hf x (List.mem_cons_of_mem _ hx)) hmarks

theorem Marks.enter (hw : w.Marks path) (id : HopId) :
    Marks { w with entered := id :: w.entered } (id :: path) := by
  intro x
  show x ∈ id :: w.entered ↔ x ∈ w.order ∨ x ∈ id :: path
  rw [List.mem_cons, List.mem_cons, hw x]
  exact or_left_comm

theorem Marks.leave (hw : w.Marks (id :: path)) :
    Marks { w with order := w.order ++ [id] } path := by
  intro x
  show x ∈ w.entered ↔ x ∈ w.order ++ [id] ∨ x ∈ path
  rw [hw x, List.mem_cons, List.mem_append, List.mem_singleton, or_assoc]

/-- Passing a known hop lists what a depth-first visit lists. The hops on the path have larger
numbers, so that they are marked makes no difference below them. -/
theorem lists_pass (wf : g.WellFormed) :
    ∀ {id : HopId} {path : List HopId} {w : Traversal}, id < depth → id < g.size →
      (∀ p ∈ path, id < p) → w.Marks path →
      Lists (pass g depth w id) path (Dag.visit g.inputs depth w.order id) := by
  induction depth with
  | zero =>
    intro id path w hdepth
    exact absurd hdepth (Nat.not_lt_zero id)
  | succ depth ih =>
    intro id path w hdepth hsize above hw
    have entered : id ∈ w.entered ↔ id ∈ w.order := by
      rw [hw id]
      exact or_iff_left fun hmem => Nat.lt_irrefl id (above id hmem)
    by_cases hid : id ∈ w.order
    · rw [pass, if_pos (entered.2 hid), Dag.visit, if_pos hid]
      exact ⟨w, rfl, rfl, hw⟩
    · obtain ⟨h, hh⟩ := exists_hop?_iff.2 hsize
      have inputs : Lists (h.inputs.foldlM (pass g depth) { w with entered := id :: w.entered })
          (id :: path) (h.inputs.foldl (Dag.visit g.inputs depth) w.order) := by
        refine lists_foldlM (fun x hx w' hw' => ?_) (hw.enter id)
        have hlt : x < id := wf.input_lt hh x hx
        refine ih (Nat.lt_of_lt_of_le hlt (Nat.le_of_lt_succ hdepth)) (Nat.lt_trans hlt hsize)
          (fun p hp => ?_) hw'
        rcases List.mem_cons.1 hp with rfl | hp
        · exact hlt
        · exact Nat.lt_trans hlt (above p hp)
      obtain ⟨below, hbelow, horder, hmarks⟩ := inputs
      rw [pass, if_neg (mt entered.1 hid), hop_eq_ok_iff.2 hh, ok_bind, hbelow, ok_bind, Dag.visit,
        if_neg hid, inputs_of_hop? hh, ← horder]
      exact ⟨_, rfl, rfl, hmarks.leave⟩

/-- From known roots the walk lists what they reach, and nothing else is marked in the end. -/
theorem lists_roots (wf : g.WellFormed) (known : ∀ root ∈ roots, root < g.size) :
    Lists (roots.foldlM (fun w root => pass g (root + 1) w root) ⟨[], []⟩) []
      (Dag.postOrder g.inputs roots) := by
  have start : Marks ⟨[], []⟩ [] := fun x => (or_self_iff).symm
  refine lists_foldlM (fun root hroot w hw => ?_) start
  exact lists_pass wf (Nat.lt_succ_self root) (known root hroot) (fun p hp => nomatch hp) hw

end Traversal

/-- The order of known roots is depth-first. -/
theorem topologicalOrder_of_known (wf : g.WellFormed) (known : ∀ root ∈ roots, root < g.size) :
    g.topologicalOrder roots = .ok (Dag.postOrder g.inputs roots) := by
  obtain ⟨w, hw, horder, _⟩ := Traversal.lists_roots wf known
  rw [topologicalOrder, hw, ok_bind, horder]
  rfl

/-- What known roots reach is known. -/
theorem WellFormed.lt_size_of_reachedFrom (wf : g.WellFormed)
    (known : ∀ root ∈ roots, root < g.size) (hid : Dag.ReachedFrom g.inputs roots id) :
    id < g.size := by
  obtain ⟨root, hroot, reached⟩ := hid
  have hle : id ≤ root := reached.le wf.descending
  exact Nat.lt_of_le_of_lt hle (known root hroot)

/-- At the first root that is unknown the walk stops. -/
theorem topologicalOrder_of_unknown (wf : g.WellFormed) (known : ∀ x ∈ before, x < g.size)
    (unknown : g.size ≤ root) :
    g.topologicalOrder (before ++ root :: rest) = .error (.unknownHop root) := by
  obtain ⟨w, hw, horder, hmarks⟩ := Traversal.lists_roots wf known
  -- Only what known roots reach is marked by then.
  have fresh : root ∉ w.entered := by
    rw [hmarks root, horder, Dag.mem_postOrder wf.descending]
    rintro (reached | hmem)
    · have hlt : root < g.size := wf.lt_size_of_reachedFrom known reached
      exact absurd hlt (Nat.not_lt.2 unknown)
    · exact List.not_mem_nil hmem
  have absent : g.hop root = .error (.unknownHop root) := by
    rw [hop, hop?_eq_none_iff.2 unknown]
  rw [topologicalOrder, List.foldlM_append, hw, ok_bind, List.foldlM_cons, Traversal.pass,
    if_neg fresh, absent]
  rfl

/-! ## What the order lists -/

/-- What some roots reach, each hop once and after its inputs. -/
structure OrdersBelow (g : Graph) (roots order : List HopId) : Prop where
  /-- Everything that the roots reach is listed, and nothing else. -/
  mem_iff (id : HopId) : id ∈ order ↔ Dag.ReachedFrom g.inputs roots id
  nodup : order.Nodup
  /-- The inputs of a hop stand before it. -/
  inputs_before {before after : List HopId} {id : HopId} :
    order = before ++ id :: after → ∀ x ∈ g.inputs id, x ∈ before

theorem WellFormed.ordersBelow_postOrder (wf : g.WellFormed) (roots : List HopId) :
    g.OrdersBelow roots (Dag.postOrder g.inputs roots) := by
  have first := Dag.childrenFirst_postOrder wf.descending roots
  exact ⟨fun _ => Dag.mem_postOrder wf.descending, first.nodup, fun hsplit => first.mem_before hsplit⟩

/-- From known roots the order lists what they reach, each hop once and after its inputs. If not all
roots are known, the first unknown one is the error, and nothing else is. -/
theorem topologicalOrder_outcome (built : g.IsBuilt) (roots : List HopId) :
    ((∀ root ∈ roots, g.contains root = true) →
      ∃ order, g.topologicalOrder roots = .ok order ∧ g.OrdersBelow roots order) ∧
      ∀ e, g.topologicalOrder roots = .error e ↔ g.Misses roots e := by
  have wf := built.wellFormed
  refine ⟨fun known => ?_, fun e => ?_⟩
  · have known : ∀ root ∈ roots, root < g.size := fun root hroot =>
      exists_hop?_iff.1 (contains_iff.1 (known root hroot))
    exact ⟨_, topologicalOrder_of_known wf known, wf.ordersBelow_postOrder roots⟩
  · have stops : ∀ e, g.Misses roots e → g.topologicalOrder roots = .error e := by
      rintro e ⟨root, ⟨before, rest, rfl, hbefore, unknown⟩, rfl⟩
      exact topologicalOrder_of_unknown wf (fun x hx => Nat.not_le.1 (hbefore x hx)) unknown
    constructor
    · intro failed
      by_cases known : ∀ root ∈ roots, root < g.size
      · rw [topologicalOrder_of_known wf known] at failed
        cases failed
      · have missing : ∃ root ∈ roots, g.size ≤ root := by simpa using known
        obtain ⟨root, hfirst⟩ := exists_isFirst missing
        have stopped := stops _ ⟨root, hfirst, rfl⟩
        exact ⟨root, hfirst, Except.error.inj (failed.symm.trans stopped)⟩
    · exact stops e

/-- A matrix that two hops read which one hop reads, and that another hop reads twice. -/
def shared : Graph :=
  Graph.empty.build [.data "X" 10 10, .unary .exp 0, .unary .log 0, .binary .plus 1 2,
    .binary .mult 0 0]

/-- Roots may repeat and lie below each other. Of two unknown roots the first is reported, although
a known one comes before it. -/
theorem topologicalOrder_outcome_shared :
    (∀ root ∈ [1, 3, 1], shared.contains root = true) ∧
      shared.topologicalOrder [1, 3, 1] = .ok [0, 1, 2, 3] ∧
      shared.OrdersBelow [1, 3, 1] [0, 1, 2, 3] ∧
      shared.Misses [3, 9, 1, 8] (.unknownHop 9) ∧
      shared.topologicalOrder [3, 9, 1, 8] = .error (.unknownHop 9) := by
  have built : shared.IsBuilt := ⟨_, rfl⟩
  have known : ∀ root ∈ [1, 3, 1], shared.contains root = true := by decide
  have misses : shared.Misses [3, 9, 1, 8] (.unknownHop 9) :=
    ⟨9, ⟨[3], [1, 8], rfl, by decide, by decide⟩, rfl⟩
  obtain ⟨order, horder, orders⟩ := (topologicalOrder_outcome built [1, 3, 1]).1 known
  have computed : shared.topologicalOrder [1, 3, 1] = .ok [0, 1, 2, 3] := by decide
  obtain rfl : order = [0, 1, 2, 3] := Except.ok.inj (horder.symm.trans computed)
  exact ⟨known, horder, orders, misses, ((topologicalOrder_outcome built _).2 _).2 misses⟩

/-! ## Hops without parents -/

theorem WellFormed.mem_roots_iff (wf : g.WellFormed) :
    id ∈ g.roots ↔ ∃ h, g.hop? id = some h ∧ h.parents = [] := by
  rw [roots, List.mem_map]
  constructor
  · rintro ⟨h, hmem, rfl⟩
    obtain ⟨hhops, hparents⟩ := List.mem_filter.1 hmem
    obtain ⟨i, hi⟩ := List.getElem?_of_mem hhops
    obtain rfl : h.id = i := wf.id_eq hi
    exact ⟨h, hi, List.isEmpty_iff.1 hparents⟩
  · rintro ⟨h, hh, hparents⟩
    refine ⟨h, List.mem_filter.2 ⟨List.mem_of_getElem? hh, ?_⟩, wf.id_eq hh⟩
    rw [hparents]
    rfl

/-- Every hop lies below one without parents. The induction is on how far the hop is from the end of
the graph, since its parents are later hops. -/
theorem IsBuilt.reachedFrom_roots (built : g.IsBuilt) :
    ∀ {id : HopId}, id < g.size → Dag.ReachedFrom g.inputs g.roots id := by
  have wf := built.wellFormed
  intro id
  induction hgap : g.size - id using Nat.strongRecOn generalizing id with
  | ind gap ih =>
    intro hid
    obtain ⟨h, hh⟩ := exists_hop?_iff.2 hid
    cases hparents : h.parents with
    | nil => exact ⟨id, wf.mem_roots_iff.2 ⟨h, hh, hparents⟩, .refl⟩
    | cons p rest =>
      have hread : id ∈ g.inputs p := (built.mem_parents_iff hh).1 (hparents ▸ List.mem_cons_self)
      have hlt : id < p := wf.descending p id hread
      have hp : p < g.size := lt_size_of_mem_inputs hread
      obtain ⟨root, hroot, reached⟩ := ih (g.size - p) (hgap ▸ Nat.sub_lt_sub_left hid hlt) rfl hp
      exact ⟨root, hroot, reached.tail hread⟩

/-- From the hops without parents the order lists each hop of the graph once, since every hop lies
below one of them. -/
theorem roots_cover (built : g.IsBuilt) :
    (∃ order, g.topologicalOrder g.roots = .ok order ∧ order.Perm g.ids) ∧
      ∀ id, g.contains id = true → ∃ root h, g.hop? root = some h ∧ h.parents = [] ∧
        Dag.Reaches g.inputs root id := by
  have wf := built.wellFormed
  have known : ∀ root ∈ g.roots, root < g.size := by
    intro root hroot
    obtain ⟨h, hh, _⟩ := wf.mem_roots_iff.1 hroot
    exact lt_size_of_hop? hh
  constructor
  · have orders := wf.ordersBelow_postOrder g.roots
    refine ⟨_, topologicalOrder_of_known wf known, ?_⟩
    refine (List.perm_ext_iff_of_nodup orders.nodup List.nodup_range).2 fun id => ?_
    rw [orders.mem_iff, List.mem_range]
    exact ⟨wf.lt_size_of_reachedFrom known, built.reachedFrom_roots⟩
  · intro id hid
    obtain ⟨root, hroot, reached⟩ :=
      built.reachedFrom_roots (exists_hop?_iff.1 (contains_iff.1 hid))
    obtain ⟨h, hh, hparents⟩ := wf.mem_roots_iff.1 hroot
    exact ⟨root, h, hh, hparents, reached⟩

theorem roots_cover_shared :
    shared.roots = [3, 4] ∧ shared.contains 0 = true ∧
      (∃ order, shared.topologicalOrder [3, 4] = .ok order ∧ order.Perm [0, 1, 2, 3, 4]) ∧
      ∃ root h, shared.hop? root = some h ∧ h.parents = [] ∧ Dag.Reaches shared.inputs root 0 := by
  have hroots : shared.roots = [3, 4] := by decide
  have known : shared.contains 0 = true := by decide
  obtain ⟨ordered, below⟩ := roots_cover (g := shared) ⟨_, rfl⟩
  rw [hroots] at ordered
  exact ⟨hroots, known, ordered, below 0 known⟩

end OpFusion.Graph
