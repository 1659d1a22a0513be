import OpFusion.Proofs.Memo.RegionRule

/-!
# Exploration as a walk

`Memo.explore` works out beforehand which hops to pass and which root is unknown. A walk that looks
at the graph as it goes (`Walk.through`) does the same: it marks a hop as entered before it knows
whether the graph has it, passes the inputs, matches every template there, and stops for good at a
hop that the graph does not have, with the memo as it stands by then (`explore_eq_through`). So a
failure shows the first unknown root, the memo is that of the roots before it, and what the roots do
not reach is never touched (`explore_outcome`).
-/

namespace OpFusion.Memo

/-- How far a walk over a graph has come. -/
structure Walk where
  /-- The memo, with what was matched at the hops passed so far. -/
  memo : Memo
  /-- The hops entered so far. Those whose inputs the walk is still passing are among them. -/
  entered : List HopId
  /-- What stopped the walk. -/
  failure : Option GraphError
deriving DecidableEq

namespace Walk

/-- Notes that a hop was entered. -/
def mark (w : Walk) (id : HopId) : Walk := { w with entered := id :: w.entered }

def stop (w : Walk) (e : GraphError) : Walk := { w with failure := some e }

/-- Matches every template at a hop, unless the walk has stopped. -/
def leave (g : Graph) (config : Config) (w : Walk) (id : HopId) : Walk :=
  if w.failure.isSome then w else { w with memo := exploreHop g config w.memo id }

/-- Enters a hop that was not entered before, passes its inputs and leaves it again. A walk that has
stopped goes nowhere. The first argument limits the depth; any number above `id` is enough, since
inputs descend. -/
def enter (g : Graph) (config : Config) : Nat → Walk → HopId → Walk
  | 0, w, _ => w
  | depth + 1, w, id =>
    if w.failure.isSome ∨ id ∈ w.entered then w
    else
      match g.hop? id with
      | none => (w.mark id).stop (.unknownHop id)
      | some h => leave g config (h.inputs.foldl (enter g config depth) (w.mark id)) id

/-- Walks through everything that the roots reach. -/
def through (g : Graph) (config : Config) (memo : Memo) (roots : List HopId) : Walk :=
  roots.foldl (fun w root => enter g config (root + 1) w root) ⟨memo, [], none⟩

variable {g : Graph} {config : Config} {memo : Memo} {w : Walk} {path done ids : List HopId}
  {depth : Nat} {id : HopId}

/-- The walk has left the hops in `done`, in this order, and is below those on `path`. -/
structure Tracks (w : Walk) (g : Graph) (config : Config) (memo : Memo)
    (path done : List HopId) : Prop where
  memo_eq : w.memo = done.foldl (exploreHop g config) memo
  mem_entered_iff (id : HopId) : id ∈ w.entered ↔ id ∈ done ∨ id ∈ path
  running : w.failure = none

theorem Tracks.mark (hw : w.Tracks g config memo path done) (id : HopId) :
    (w.mark id).Tracks g config memo (id :: path) done := by
  refine ⟨hw.memo_eq, fun x => ?_, hw.running⟩
  show x ∈ id :: w.entered ↔ _
  rw [List.mem_cons, List.mem_cons, hw.mem_entered_iff]
  exact or_left_comm

theorem Tracks.leave (hw : w.Tracks g config memo (id :: path) done) :
    (leave g config w id).Tracks g config memo path (done ++ [id]) := by
  have running : w.failure.isSome = false := by rw [hw.running, Option.isSome_none]
  rw [Walk.leave, running, if_neg Bool.false_ne_true]
  refine ⟨?_, fun x => ?_, hw.running⟩
  · show exploreHop g config w.memo id = _
    rw [List.foldl_append, List.foldl_cons, List.foldl_nil, hw.memo_eq]
  · rw [hw.mem_entered_iff, List.mem_cons, List.mem_append, List.mem_singleton, or_assoc]

/-- What one visit keeps track of, visits in turn keep track of. -/
theorem Tracks.foldl {f : Walk → HopId → Walk} {visit : List HopId → HopId → List HopId}
    (hf : ∀ id ∈ ids, ∀ {w done}, Tracks w g config memo path done →
      (f w id).Tracks g config memo path (visit done id))
    (hw : w.Tracks g config memo path done) :
    (ids.foldl f w).Tracks g config memo path (ids.foldl visit done) := by
  induction ids generalizing w done with
  | nil => exact hw
  | cons id rest ih =>
    exact ih (fun x hx => hf x (List.mem_cons_of_mem _ hx)) (hf id List.mem_cons_self hw)

/-- Entering a hop passes what a depth-first visit lists. The hops on the path have larger numbers,
so that they are marked makes no difference below them. -/
theorem Tracks.enter (wf : g.WellFormed) (hdepth : id < depth) (known : g.contains id = true)
    (above : ∀ p ∈ path, id < p) (hw : w.Tracks g config memo path done) :
    (enter g config depth w id).Tracks g config memo path
      (Dag.visit g.inputs depth done id) := by
  induction depth generalizing id w path done with
  | zero => exact absurd hdepth (Nat.not_lt_zero id)
  | succ depth ih =>
    have offPath : id ∉ path := fun hmem => Nat.lt_irrefl id (above id hmem)
    have entered : id ∈ w.entered ↔ id ∈ done := by
      rw [hw.mem_entered_iff, or_iff_left offPath]
    by_cases hdone : id ∈ done
    · rw [Walk.enter, Dag.visit, if_pos hdone, if_pos (.inr (entered.2 hdone))]
      exact hw
    · have goesOn : ¬ (w.failure.isSome = true ∨ id ∈ w.entered) := by
        simp [hw.running, entered, hdone]
      obtain ⟨h, hh⟩ := Graph.contains_iff.1 known
      rw [Walk.enter, Dag.visit, if_neg hdone, if_neg goesOn, hh, Graph.inputs_of_hop? hh]
      refine Tracks.leave (Tracks.foldl (fun x hx w done hw => ?_) (hw.mark id))
      have hlt : x < id := wf.input_lt hh x hx
      refine ih (Nat.lt_of_lt_of_le hlt (Nat.le_of_lt_succ hdepth)) (Graph.contains_iff.2 (wf.exists_input hh hx)) ?_ hw
      intro p hp
      rcases List.mem_cons.1 hp with rfl | hp
      · exact hlt
      · exact Nat.lt_trans hlt (above p hp)

/-- From known roots the walk passes everything that they reach, inputs first. -/
theorem tracks_through (wf : g.WellFormed) {roots : List HopId}
    (known : ∀ root ∈ roots, g.contains root = true) :
    (through g config memo roots).Tracks g config memo [] (Dag.postOrder g.inputs roots) := by
  have start : Tracks ⟨memo, [], none⟩ g config memo [] [] := ⟨rfl, by simp, rfl⟩
  exact start.foldl fun root hroot _ _ hw =>
    hw.enter wf (Nat.lt_succ_self root) (known root hroot) (by simp)

/-- A walk that has stopped goes nowhere. -/
theorem enter_of_stopped (stopped : w.failure.isSome = true) :
    enter g config depth w id = w := by
  cases depth with
  | zero => rfl
  | succ depth => rw [enter, if_pos (.inl stopped)]

/-- At the first root that is unknown the walk stops, with the memo as it is. -/
theorem through_of_unknown (wf : g.WellFormed) {before rest : List HopId} {root : HopId}
    (known : ∀ root ∈ before, g.contains root = true) (unknown : g.contains root = false) :
    through g config memo (before ++ root :: rest) =
      ((through g config memo before).mark root).stop (.unknownHop root) := by
  have tracks : (through g config memo before).Tracks g config memo [] _ := tracks_through wf known
  have absent : g.hop? root = none := by
    refine Option.eq_none_iff_forall_ne_some.2 fun h hh => ?_
    rw [Graph.contains_iff.2 ⟨h, hh⟩] at unknown
    exact Bool.noConfusion unknown
  -- What known roots reach is known, so the walk has not come across this root yet.
  have fresh : root ∉ (through g config memo before).entered := by
    rw [tracks.mem_entered_iff, or_iff_left List.not_mem_nil, Dag.mem_postOrder wf.descending]
    intro reached
    obtain ⟨h, hh⟩ := exists_hop?_of_reachedFrom wf known reached
    simp [absent] at hh
  have stops : enter g config (root + 1) (through g config memo before) root =
      ((through g config memo before).mark root).stop (.unknownHop root) := by
    rw [enter, if_neg (by simp [tracks.running, fresh]), absent]
  have stays (w : Walk) (stopped : w.failure.isSome = true) :
      rest.foldl (fun w root => enter g config (root + 1) w root) w = w := by
    induction rest with
    | nil => rfl
    | cons next rest ih => rw [List.foldl_cons, enter_of_stopped stopped, ih]
  rw [through, List.foldl_append, List.foldl_cons]
  show rest.foldl _ (enter g config (root + 1) (through g config memo before) root) = _
  rw [stops, stays _ rfl]

end Walk

variable {g : Graph} {config : Config} {memo : Memo} {roots before rest : List HopId} {root : HopId}

/-- From known roots, everything that they reach is matched. -/
theorem explore_of_known (known : ∀ root ∈ roots, g.contains root = true) :
    memo.explore g config roots =
      ((Dag.postOrder g.inputs roots).foldl (exploreHop g config) memo, none) := by
  have none : roots.find? (fun root => !g.contains root) = none :=
    List.find?_eq_none.2 fun root hroot => by simp [known root hroot]
  rw [explore, List.takeWhile_eq_self_iff.2 known, none, Option.map_none]

/-- The first unknown root is the error, and the memo is that of the roots before it. -/
theorem explore_of_unknown (known : ∀ root ∈ before, g.contains root = true)
    (unknown : g.contains root = false) :
    memo.explore g config (before ++ root :: rest) =
      ((memo.explore g config before).1, some (.unknownHop root)) := by
  have taken : (before ++ root :: rest).takeWhile g.contains = before := by
    rw [List.takeWhile_append_of_pos known, List.takeWhile_cons_of_neg (by simp [unknown]),
      List.append_nil]
  have found : (before ++ root :: rest).find? (fun root => !g.contains root) = some root := by
    refine List.find?_eq_some_iff_append.2 ⟨by simp [unknown], before, rest, rfl, ?_⟩
    exact fun x hx => by simp [known x hx]
  rw [explore_of_known known, explore, taken, found, Option.map_some]

/-- Exploration is the walk. -/
theorem explore_eq_through (wf : g.WellFormed) (memo : Memo) (config : Config)
    (roots : List HopId) :
    memo.explore g config roots =
      ((Walk.through g config memo roots).memo, (Walk.through g config memo roots).failure) := by
  cases hfind : roots.find? fun root => !g.contains root with
  | none =>
    have known : ∀ root ∈ roots, g.contains root = true := fun root hroot => by
      simpa using List.find?_eq_none.1 hfind root hroot
    have tracks : (Walk.through g config memo roots).Tracks g config memo [] _ :=
      Walk.tracks_through wf known
    rw [explore_of_known known, tracks.memo_eq, tracks.running]
  | some root =>
    obtain ⟨hroot, before, rest, rfl, hbefore⟩ := List.find?_eq_some_iff_append.1 hfind
    have known : ∀ root ∈ before, g.contains root = true := fun x hx => by
      simpa using hbefore x hx
    have unknown : g.contains root = false := by simpa using hroot
    have tracks : (Walk.through g config memo before).Tracks g config memo [] _ :=
      Walk.tracks_through wf known
    rw [explore_of_unknown known unknown, explore_of_known known,
      Walk.through_of_unknown wf known unknown, ← tracks.memo_eq]
    rfl

/-- What the roots do not reach keeps its entries. -/
theorem entries_explore_of_not_reached (wf : g.WellFormed) {id : HopId}
    (hid : ¬ Dag.ReachedFrom g.inputs roots id) :
    (memo.explore g config roots).1.entries id = memo.entries id := by
  refine (revises_explore wf memo config roots).outside fun _ _ hmem => hid ?_
  obtain ⟨root, hroot, hreaches⟩ := (Dag.mem_postOrder wf.descending).1 hmem
  exact ⟨root, (List.takeWhile_sublist g.contains).subset hroot, hreaches⟩

/-- Exploration is a walk that looks at the graph as it goes, whatever the memo holds before. It
leaves alone what the roots do not reach. It succeeds if the graph has all roots. If not, the first
root that the graph does not have is the error, and the memo is the one that exploring the roots
before it gives, which succeeds. -/
theorem explore_outcome (built : g.IsBuilt) (memo : Memo) (config : Config) (roots : List HopId) :
    memo.explore g config roots =
        ((Walk.through g config memo roots).memo, (Walk.through g config memo roots).failure) ∧
      (∀ id, ¬ Dag.ReachedFrom g.inputs roots id →
        (memo.explore g config roots).1.entries id = memo.entries id) ∧
      ((∀ root ∈ roots, g.contains root = true) → (memo.explore g config roots).2 = none) ∧
      ∀ before root rest, roots = before ++ root :: rest →
        (∀ earlier ∈ before, g.contains earlier = true) → g.contains root = false →
        (memo.explore g config before).2 = none ∧
          memo.explore g config roots =
            ((memo.explore g config before).1, some (.unknownHop root)) := by
  have wf := built.wellFormed
  refine ⟨explore_eq_through wf memo config roots, fun id => entries_explore_of_not_reached wf,
    fun known => by rw [explore_of_known known], ?_⟩
  rintro before root rest rfl known unknown
  exact ⟨by rw [explore_of_known known], explore_of_unknown known unknown⟩

/-- A memo that holds entries before it is explored. -/
def ofStrangers : Memo :=
  (empty.add 3 (.ofRefs .outerProduct [0])).add 2 (.ofRefs .rowAgg [0])

/-- The root 9 is unknown, and nothing from there on is explored. -/
theorem explore_outcome_quotient :
    ¬ Dag.ReachedFrom quotient.inputs [4, 9, 3] 5 ∧
      (∀ root ∈ [4], quotient.contains root = true) ∧ quotient.contains 9 = false ∧
      (ofStrangers.explore quotient .default [4, 9, 3]).1.entries 5 = ofStrangers.entries 5 ∧
      (ofStrangers.explore quotient .default [4]).2 = none ∧
      ofStrangers.explore quotient .default [4, 9, 3] =
        ((ofStrangers.explore quotient .default [4]).1, some (.unknownHop 9)) := by
  have built : quotient.IsBuilt := ⟨quotientRequests, rfl⟩
  have known : ∀ root ∈ [4], quotient.contains root = true := by decide
  have unknown : quotient.contains 9 = false := by decide
  have apart : ¬ Dag.ReachedFrom quotient.inputs [4, 9, 3] 5 := by
    rw [← Dag.mem_postOrder built.wellFormed.descending]
    decide
  obtain ⟨-, frame, -, stopped⟩ := explore_outcome built ofStrangers .default [4, 9, 3]
  obtain ⟨-, -, succeeds, -⟩ := explore_outcome built ofStrangers .default [4]
  exact ⟨apart, known, unknown, frame 5 apart, succeeds known,
    (stopped [4] 9 [3] rfl known unknown).2⟩

end OpFusion.Memo
