import OpFusion.Proofs.Graph.WellFormed

/-!
# Inputs and parents

A hop names the hops that it reads and those that read it. The two are kept apart, the first by the
hop itself and the second by every hop that is added later, and they agree: the parents of a hop are
the hops that have it among their inputs (`IsBuilt.parents_eq`), each once and in the order in which
they were added, however often they read it. So whatever requests are carried out, and whichever of
them fail, the graph is well formed and linked both ways (`build_wellFormed_linked`).
-/

namespace OpFusion.Graph

variable {g : Graph} {spec : HopSpec} {id p : HopId} {h : Hop}

/-- The hops that read a hop, ascending. -/
def readers (g : Graph) (id : HopId) : List HopId := g.ids.filter fun p => id ∈ g.inputs p

theorem lt_size_of_mem_inputs (hid : id ∈ g.inputs p) : p < g.size := by
  unfold inputs at hid
  split at hid
  · exact lt_size_of_hop? ‹_›
  · exact absurd hid List.not_mem_nil

@[simp] theorem mem_readers_iff : p ∈ g.readers id ↔ id ∈ g.inputs p := by
  rw [readers, List.mem_filter, decide_eq_true_eq, and_iff_right_iff_imp, ids, List.mem_range]
  exact lt_size_of_mem_inputs

theorem pairwise_readers : (g.readers id).Pairwise (· < ·) := List.pairwise_lt_range.filter _

theorem inputs_extend :
    (g.extend spec).inputs p = if p = g.size then spec.inputs else g.inputs p := by
  unfold inputs
  rw [hop?_extend]
  by_cases hp : p = g.size
  · rw [if_pos hp, if_pos hp]
    rfl
  · rw [if_neg hp, if_neg hp]
    cases g.hop? p with
    | none => rfl
    | some h => exact adopt_inputs

@[simp] theorem size_extend : (g.extend spec).size = g.size + 1 := by
  simp [extend, size]

/-- A new hop is the last to read what it reads. -/
theorem readers_extend :
    (g.extend spec).readers id =
      if id ∈ spec.inputs then g.readers id ++ [g.size] else g.readers id := by
  have old : (List.range g.size).filter (fun p => id ∈ (g.extend spec).inputs p) =
      g.readers id := by
    refine List.filter_congr fun p hp => ?_
    rw [inputs_extend, if_neg (Nat.ne_of_lt (List.mem_range.1 hp))]
  have new : id ∈ (g.extend spec).inputs g.size ↔ id ∈ spec.inputs := by
    rw [inputs_extend, if_pos rfl]
  rw [readers, ids, size_extend, List.range_succ, List.filter_append, old]
  by_cases hid : id ∈ spec.inputs <;> simp [hid, new]

/-- The parents of a hop are the hops that read it, in the order in which they were added. -/
theorem IsBuilt.parents_eq (built : g.IsBuilt) (hh : g.hop? id = some h) :
    h.parents = g.readers id := by
  obtain ⟨requests, rfl⟩ := built
  suffices all : (Graph.empty.build requests).WellFormed ∧ ∀ id h,
      (Graph.empty.build requests).hop? id = some h →
        h.parents = (Graph.empty.build requests).readers id from all.2 id h hh
  refine build_induction (P := fun g => g.WellFormed ∧ ∀ id h, g.hop? id = some h →
    h.parents = g.readers id) ?_ ⟨IsBuilt.wellFormed ⟨[], rfl⟩, fun id h hh => ?_⟩
  · rintro g ⟨wf, parents⟩ _ _ spec _ accepted
    have wf' := wf.extend accepted
    refine ⟨wf', fun id h hh => ?_⟩
    rcases hop?_extend_cases hh with ⟨rfl, rfl⟩ | ⟨old, hold, rfl⟩
    · -- No hop reads the new one, since hops read earlier hops only.
      refine Eq.symm (List.eq_nil_iff_forall_not_mem.2 fun p hp => ?_)
      rw [mem_readers_iff] at hp
      have hlt : g.size < p := wf'.descending p _ hp
      have hsize : p < g.size + 1 := size_extend ▸ lt_size_of_mem_inputs hp
      exact absurd hsize (Nat.not_lt.2 hlt)
    · obtain rfl := wf.id_eq hold
      rw [readers_extend, ← parents old.id old hold, adopt]
      split <;> rfl
  · simp [hop?, empty] at hh

theorem IsBuilt.mem_parents_iff (built : g.IsBuilt) (hh : g.hop? id = some h) :
    p ∈ h.parents ↔ id ∈ g.inputs p := by
  rw [built.parents_eq hh, mem_readers_iff]

/-- A hop that is read has a parent. -/
theorem IsBuilt.parents_ne_nil (built : g.IsBuilt) (hh : g.hop? id = some h)
    (hp : id ∈ g.inputs p) : h.parents ≠ [] :=
  List.ne_nil_of_mem ((built.mem_parents_iff hh).2 hp)

/-- The hops of a graph name each other both ways. -/
structure Linked (g : Graph) : Prop where
  /-- The parents of a hop are the hops that read it. -/
  mem_parents_iff {id p : HopId} {h : Hop} : g.hop? id = some h →
    (p ∈ h.parents ↔ ∃ reader, g.hop? p = some reader ∧ id ∈ reader.inputs)
  /-- Each parent is named once, and earlier hops come first. -/
  ascending {id : HopId} {h : Hop} : g.hop? id = some h → h.parents.Pairwise (· < ·)

theorem IsBuilt.linked (built : g.IsBuilt) : g.Linked := by
  constructor
  · intro id p h hh
    rw [built.mem_parents_iff hh]
    constructor
    · intro hid
      obtain ⟨reader, hreader⟩ := exists_hop?_iff.2 (lt_size_of_mem_inputs hid)
      exact ⟨reader, hreader, inputs_of_hop? hreader ▸ hid⟩
    · rintro ⟨reader, hreader, hid⟩
      exact inputs_of_hop? hreader ▸ hid
  · intro id h hh
    rw [built.parents_eq hh]
    exact pairwise_readers

/-- Whatever requests are carried out, raw ones included, and whichever of them fail: hops know their
numbers, read earlier hops only, have as many inputs as their kind and its parameters ask for, and
are named as parents by nothing but what they read. -/
theorem build_wellFormed_linked (requests : List HopRequest) :
    (Graph.empty.build requests).WellFormed ∧ (Graph.empty.build requests).Linked :=
  have built : (Graph.empty.build requests).IsBuilt := ⟨requests, rfl⟩
  ⟨built.wellFormed, built.linked⟩

/-- A hop that is read twice by one hop has it as a parent once, and a request that fails, here for
want of its operand, makes no parent. -/
example : ((Graph.empty.build [.scalar "x", .binary .mult 0 0, .binary .plus 0 7,
    .binary .plus 1 0]).hop? 0).map (·.parents) = some [1, 2] := by decide

end OpFusion.Graph
