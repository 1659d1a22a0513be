import OpFusion.Dag.Walk
import OpFusion.Proofs.Dag.Reachability

/-!
# Gathering on a walk

A walk marks a node when it enters it, and a depth-first order lists it when it leaves it. The nodes
in between are those above the one that is being passed, and where children descend, these are never
met again. So a walk gathers its notes along the depth-first order (`gather_eq_foldl`).
-/

namespace OpFusion.Dag

variable {σ : Type} {children : Nat → List Nat} {note : σ → Nat → σ} {start : σ} {w : Walk σ}
  {path done ids : List Nat} {depth id root : Nat}

namespace Walk

/-- The walk has left the nodes in `done`, in this order, and is below those on `path`. -/
structure Tracks (note : σ → Nat → σ) (start : σ) (path done : List Nat) (w : Walk σ) : Prop where
  notes_eq : w.notes = done.foldl note start
  mem_entered_iff (id : Nat) : id ∈ w.entered ↔ id ∈ done ∨ id ∈ path

theorem Tracks.enter (hw : w.Tracks note start path done) (id : Nat) :
    Tracks note start (id :: path) done { w with entered := id :: w.entered } := by
  refine ⟨hw.notes_eq, fun x => ?_⟩
  rw [List.mem_cons, List.mem_cons, hw.mem_entered_iff]
  exact or_left_comm

theorem Tracks.leave (hw : w.Tracks note start (id :: path) done) :
    Tracks note start path (done ++ [id]) { w with notes := note w.notes id } := by
  refine ⟨?_, fun x => ?_⟩
  · rw [hw.notes_eq, List.foldl_append, List.foldl_cons, List.foldl_nil]
  · rw [hw.mem_entered_iff, List.mem_cons, List.mem_append, List.mem_singleton, or_assoc]

/-- What one call keeps track of, calls in turn keep track of. -/
theorem Tracks.foldl {f : Walk σ → Nat → Walk σ} {visit : List Nat → Nat → List Nat}
    (hf : ∀ id ∈ ids, ∀ {w : Walk σ} {done}, w.Tracks note start path done →
      (f w id).Tracks note start path (visit done id))
    (hw : w.Tracks note start path done) :
    (ids.foldl f w).Tracks note start path (ids.foldl visit done) := by
  induction ids generalizing w done with
  | nil => exact hw
  | cons id rest ih =>
    exact ih (fun x hx => hf x (List.mem_cons_of_mem _ hx)) (hf id List.mem_cons_self hw)

/-- Passing a node leaves what a depth-first visit lists. The nodes on the path have larger numbers,
so that they are marked makes no difference below them. -/
theorem Tracks.pass (desc : DescendingFrom children id) (hdepth : id < depth)
    (above : ∀ p ∈ path, id < p) (hw : w.Tracks note start path done) :
    (pass children note depth w id).Tracks note start path (visit children depth done id) := by
  induction depth generalizing id w path done with
  | zero => exact absurd hdepth (Nat.not_lt_zero id)
  | succ depth ih =>
    have offPath : id ∉ path := fun hmem => Nat.lt_irrefl id (above id hmem)
    have entered : id ∈ w.entered ↔ id ∈ done := by
      rw [hw.mem_entered_iff, or_iff_left offPath]
    by_cases hdone : id ∈ done
    · rw [Walk.pass, visit, if_pos hdone, if_pos (entered.2 hdone)]
      exact hw
    · rw [Walk.pass, visit, if_neg hdone, if_neg (mt entered.1 hdone)]
      refine Tracks.leave (Tracks.foldl (fun c hc w done hw => ?_) (hw.enter id))
      have hlt : c < id := desc id .refl c hc
      refine ih (desc.child hc) (Nat.lt_of_lt_of_le hlt (Nat.le_of_lt_succ hdepth)) ?_ hw
      intro p hp
      rcases List.mem_cons.1 hp with rfl | hp
      · exact hlt
      · exact Nat.lt_trans hlt (above p hp)

end Walk

/-- Notes are gathered along the depth-first order. -/
theorem gather_eq_foldl (desc : DescendingFrom children root) :
    gather children root note start = (postOrder children [root]).foldl note start := by
  have begin : Walk.Tracks note start [] [] ⟨[], start⟩ := ⟨rfl, by simp⟩
  exact (begin.pass desc (Nat.lt_succ_self root) (by simp)).notes_eq

end OpFusion.Dag
