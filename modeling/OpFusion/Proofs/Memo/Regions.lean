import OpFusion.Proofs.Memo.Best

/-!
# Regions in a memo

The best entries lead from a hop to those of its inputs that belong to the same region, and so on
down (`Memo.InRegion`). In an explored memo every hop of a region but its root has an open region of
its own (`ExploredBy.hasOpen_of_refers`), so the template does not end a region below its root.
-/

namespace OpFusion.Memo

variable {memo : Memo} {t : Template} {g : Graph} {a b c : HopId}

/-- The best entry at `a` takes the hop `b` into the region. -/
def Refers (memo : Memo) (t : Template) (g : Graph) (a b : HopId) : Prop :=
  ∃ h e i, g.hop? a = some h ∧ memo.best? a t = some e ∧ h.input? i = some b ∧
    e.refersTo i = true

/-- `b` belongs to the region below `a`. -/
def InRegion (memo : Memo) (t : Template) (g : Graph) (a b : HopId) : Prop :=
  Relation.ReflTransGen (memo.Refers t g) a b

/-- `b` belongs to the region below `a` and is not `a` itself. -/
def Below (memo : Memo) (t : Template) (g : Graph) (a b : HopId) : Prop :=
  Relation.TransGen (memo.Refers t g) a b

theorem Refers.lt (wf : g.WellFormed) (h : memo.Refers t g a b) : b < a := by
  obtain ⟨h, e, i, hh, _, hb, _⟩ := h
  exact wf.input?_lt hh hb

theorem Below.lt (wf : g.WellFormed) (h : memo.Below t g a b) : b < a := by
  induction h with
  | single h => exact h.lt wf
  | tail _ h ih => exact Nat.lt_trans (h.lt wf) ih

theorem InRegion.le (wf : g.WellFormed) (h : memo.InRegion t g a b) : b ≤ a := by
  rcases Relation.reflTransGen_iff_eq_or_transGen.1 h with rfl | hbelow
  · exact Nat.le_refl _
  · exact Nat.le_of_lt (Below.lt wf hbelow)

/-- A hop below the root is referred to by one of the region. -/
theorem Below.referred (h : memo.Below t g a b) :
    ∃ c, memo.InRegion t g a c ∧ memo.Refers t g c b := by
  obtain ⟨c, hc, hb⟩ := Relation.TransGen.tail'_iff.1 h
  exact ⟨c, hc, hb⟩

variable {config : Config} {done : List HopId}

/-- What a best entry takes in has an open region. -/
theorem ExploredBy.hasOpen_of_refers (explored : memo.ExploredBy g config done)
    (h : memo.Refers t g a b) : memo.hasOpen b t = true := by
  obtain ⟨h, e, i, hh, hbest, hb, hi⟩ := h
  obtain ⟨x, hx, hopen⟩ := (explored.justified_of_best hh hbest).refers hi
  rwa [Option.some.inj (hb.symm.trans hx)]

/-- The template does not end a region below its root. -/
theorem ExploredBy.stillOpen_of_below (explored : memo.ExploredBy g config done)
    (h : memo.Below t g a b) :
    ∃ h, g.hop? b = some h ∧ Matcher.closing ⟨t, false, config⟩ g h.id = .stillOpen := by
  obtain ⟨c, _, hc⟩ := h.referred
  exact explored.stillOpen (explored.hasOpen_of_refers hc)

end OpFusion.Memo
