import OpFusion.Proofs.Memo.Best

/-!
# Exploring again

A memo that is explored may hold entries already, of any kind. Settling a hop treats the entries of
each template apart (`Revises.entriesOf_eq`). Where a template ends its regions, exploring the hop
again matches them anew and closes them once more, so entries are repeated (`exists_settle_settle`).
Nothing else changes when the same exploration is carried out a second time, and whatever is asked
of the memo is answered as before (`reexplored_observes_same`).
-/

namespace OpFusion

namespace Matcher

variable {m : Matcher} {g : Graph} {memo : Memo} {h : Hop} {before : List MemoEntry} {t : Template}

/-- Settling a template leaves the entries of the others alone. -/
theorem filter_settle_of_ne (hne : m.template ≠ t) :
    (m.settle g memo h before).filter (·.template = t) = before.filter (·.template = t) := by
  have others : ((m.grown g memo h).filter (· ∉ before)).filter (·.template = t) = [] := by
    refine List.filter_eq_nil_iff.2 fun e he => ?_
    rw [template_of_mem_grown (List.mem_filter.1 he).1, decide_eq_true_eq]
    exact hne
  have all : (before ++ (m.grown g memo h).filter (· ∉ before)).filter (·.template = t) =
      before.filter (·.template = t) := by
    rw [List.filter_append, others, List.append_nil]
  unfold settle
  split
  · exact all
  · rw [MemoEntry.filter_map_closeIf, all]
    refine (List.map_congr_left fun e he => ?_).trans (List.map_id _)
    have ht : e.template = t := of_decide_eq_true (List.mem_filter.1 he).2
    exact MemoEntry.closeIf_of_ne (ht ▸ hne.symm)
  · rw [List.filter_filter, ← all]
    refine List.filter_congr fun e _ => ?_
    by_cases ht : e.template = t
    · simp [ht, hne.symm]
    · simp [ht]

/-- Settling a template looks at its own entries only. -/
theorem filter_settle_self (ht : m.template = t) :
    (m.settle g memo h before).filter (·.template = t) =
      m.settle g memo h (before.filter (·.template = t)) := by
  subst ht
  have own : ((m.grown g memo h).filter (· ∉ before)).filter (·.template = m.template) =
      (m.grown g memo h).filter (· ∉ before.filter (·.template = m.template)) := by
    rw [List.filter_filter]
    refine List.filter_congr fun e he => ?_
    simp [template_of_mem_grown he]
  unfold settle
  split
  · rw [List.filter_append, own]
  · rw [MemoEntry.filter_map_closeIf, List.filter_append, own]
  · rw [← own, ← List.filter_append, List.filter_comm]

/-- Settling a hop a second time repeats some of its entries at most. -/
theorem exists_settle_settle :
    ∃ more, m.settle g memo h (m.settle g memo h before) = m.settle g memo h before ++ more ∧
      ∀ e ∈ more, e ∈ m.settle g memo h before := by
  -- Everything that grows at the hop is there after it was settled once, if the region goes on.
  have hall : ∀ e ∈ m.grown g memo h, e ∈ before ++ (m.grown g memo h).filter (· ∉ before) :=
    fun e he => Memo.mem_append_filter_iff.2 (.inr he)
  generalize hsettled : m.settle g memo h before = settled
  simp only [settle] at hsettled ⊢
  generalize before ++ (m.grown g memo h).filter (· ∉ before) = all at hall hsettled
  cases hclosing : m.closing g h.id with
  | stillOpen =>
    simp only [hclosing] at hsettled ⊢
    subst hsettled
    have nothing : (m.grown g memo h).filter (· ∉ all) = [] :=
      List.filter_eq_nil_iff.2 fun e he => by simpa using hall e he
    exact ⟨[], by rw [nothing], by simp⟩
  | valid =>
    simp only [hclosing] at hsettled ⊢
    subst hsettled
    refine ⟨((m.grown g memo h).filter (· ∉ all.map (·.closeIf m.template))).map
      (·.closeIf m.template), ?_, fun e he => ?_⟩
    · rw [List.map_append, List.map_map]
      congr 1
      exact List.map_congr_left fun e _ => MemoEntry.closeIf_closeIf
    · obtain ⟨e', he', rfl⟩ := List.mem_map.1 he
      exact List.mem_map_of_mem (hall e' (List.mem_filter.1 he').1)
  | invalid =>
    simp only [hclosing] at hsettled ⊢
    subst hsettled
    refine ⟨[], ?_, by simp⟩
    have nothing : ((m.grown g memo h).filter (· ∉ all.filter (·.template ≠ m.template))).filter
        (·.template ≠ m.template) = [] := by
      refine List.filter_eq_nil_iff.2 fun e he => ?_
      simp [template_of_mem_grown (List.mem_filter.1 he).1]
    rw [List.filter_append, nothing, List.filter_filter]
    simp

end Matcher

namespace Memo

variable {g : Graph} {config : Config} {memo before after : Memo} {done : List HopId} {id : HopId}
  {t : Template} {h : Hop}

/-- Exploration settles the entries of each template apart. -/
theorem Revises.entriesOf_eq (revises : before.Revises after g config done) (hid : id ∈ done)
    (hh : g.hop? id = some h) :
    after.entriesOf id t =
      Matcher.settle ⟨t, false, config⟩ g after h (before.entriesOf id t) := by
  rw [entriesOf, revises.inside hid hh, settled, entriesOf]
  cases t with
  | outerProduct =>
    rw [Matcher.filter_settle_of_ne (by simp), Matcher.filter_settle_self (t := .outerProduct) rfl]
  | rowAgg =>
    rw [Matcher.filter_settle_self (t := .rowAgg) rfl, Matcher.filter_settle_of_ne (by simp)]

theorem hasOpen_iff : memo.hasOpen id t = true ↔ ∃ e ∈ memo.entriesOf id t, e.closed = false := by
  simp [hasOpen, mem_entriesOf_iff, and_assoc]

/-- Entries that only repeat others do not show in whether a region is open. -/
theorem hasOpen_of_repeats {more : List MemoEntry}
    (hentries : after.entriesOf id t = before.entriesOf id t ++ more)
    (hmore : ∀ e ∈ more, e ∈ before.entriesOf id t) :
    after.hasOpen id t = before.hasOpen id t := by
  rw [Bool.eq_iff_iff, hasOpen_iff, hasOpen_iff, hentries]
  constructor
  · rintro ⟨e, he, hclosed⟩
    rcases List.mem_append.1 he with he | he
    · exact ⟨e, he, hclosed⟩
    · exact ⟨e, hmore e he, hclosed⟩
  · rintro ⟨e, he, hclosed⟩
    exact ⟨e, List.mem_append_left _ he, hclosed⟩

/-- Nor do they show in which entry is the best. -/
theorem best?_of_repeats {more : List MemoEntry}
    (hentries : after.entriesOf id t = before.entriesOf id t ++ more)
    (hmore : ∀ e ∈ more, e ∈ before.entriesOf id t) :
    after.best? id t = before.best? id t := by
  cases hbest : before.best? id t with
  | some e =>
    exact best?_of_append hentries hbest fun x hx => refCount_le_of_best? hbest (hmore x hx)
  | none =>
    obtain rfl : more = [] := List.eq_nil_iff_forall_not_mem.2 fun e he => by
      obtain ⟨hmem, ht⟩ := mem_entriesOf_iff.1 (hmore e he)
      obtain ⟨best, h⟩ := exists_best? hmem ht
      simp [hbest] at h
    rw [best?_eq_foldl, hentries, List.append_nil, ← best?_eq_foldl, hbest]

/-! ## The same exploration twice -/

/-- At each hop, exploring a second time repeats some entries at most: by induction on the number of
the hop, since whether regions are open at its inputs has then not changed. -/
theorem Revises.repeats (wf : g.WellFormed) {once twice : Memo}
    (first : before.Revises once g config done) (second : once.Revises twice g config done)
    (t : Template) (id : HopId) :
    ∃ more, twice.entriesOf id t = once.entriesOf id t ++ more ∧
      ∀ e ∈ more, e ∈ once.entriesOf id t := by
  induction id using Nat.strong_induction_on with
  | _ id ih =>
    by_cases hexplored : ∃ h, g.hop? id = some h ∧ id ∈ done
    · obtain ⟨h, hh, hid⟩ := hexplored
      have hopen : ∀ x ∈ h.inputs, twice.hasOpen x t = once.hasOpen x t := by
        intro x hx
        obtain ⟨more, hentries, hmore⟩ := ih x (wf.input_lt hh x hx)
        exact hasOpen_of_repeats hentries hmore
      rw [second.entriesOf_eq hid hh, first.entriesOf_eq hid hh, Matcher.settle_congr hopen]
      exact Matcher.exists_settle_settle
    · have hentries : twice.entries id = once.entries id :=
        second.outside fun h hh hid => hexplored ⟨h, hh, hid⟩
      exact ⟨[], by rw [entriesOf, entriesOf, hentries, List.append_nil], by simp⟩

/-- Exploring once more with the same roots and settings changes no answer of the memo, whatever it
held at first: at every hop and for every template, whether the template matches, whether a region
is open and which entry is the best are the same as before, and so is the set of entries. -/
theorem reexplored_observes_same (built : g.IsBuilt) (config : Config) (roots : List HopId)
    (memo : Memo) :
    let once := (memo.explore g config roots).1
    let twice := (once.explore g config roots).1
    (∀ id t, twice.contains id t = once.contains id t ∧ twice.hasOpen id t = once.hasOpen id t ∧
      twice.best? id t = once.best? id t) ∧
      ∀ id e, e ∈ twice.entries id ↔ e ∈ once.entries id := by
  intro once twice
  have wf := built.wellFormed
  have repeats (id : HopId) (t : Template) := (revises_explore wf memo config roots).repeats wf
    (revises_explore wf once config roots) t id
  constructor
  · intro id t
    obtain ⟨more, hentries, hmore⟩ := repeats id t
    have hbest : twice.best? id t = once.best? id t := best?_of_repeats hentries hmore
    refine ⟨?_, hasOpen_of_repeats hentries hmore, hbest⟩
    rw [Bool.eq_iff_iff, contains_iff, contains_iff, hbest]
  · intro id e
    obtain ⟨more, hentries, hmore⟩ := repeats id e.template
    have hmem (m : Memo) : e ∈ m.entries id ↔ e ∈ m.entriesOf id e.template := by
      simp [mem_entriesOf_iff]
    rw [hmem, hmem, hentries, List.mem_append]
    exact ⟨fun h => h.elim (fun h => h) (hmore e), .inl⟩

/-- Two entries at the quotient of the sample that no exploration makes, one of them closed. -/
def foreign : Memo :=
  (empty.add 5 (MemoEntry.ofRefs .rowAgg [0, 7]).close).add 6 (.ofRefs .outerProduct [3])

theorem reexplored_observes_same_quotient :
    quotient.IsBuilt ∧
      let once := (foreign.explore quotient .default [6]).1
      let twice := (once.explore quotient .default [6]).1
      (once.entries 6).length = 3 ∧ (twice.entries 6).length = 5 ∧
        twice.best? 6 .rowAgg = once.best? 6 .rowAgg ∧
        ∀ e, e ∈ twice.entries 6 ↔ e ∈ once.entries 6 := by
  have built : quotient.IsBuilt := ⟨quotientRequests, rfl⟩
  have same := reexplored_observes_same built .default [6] foreign
  exact ⟨built, by decide, by decide, (same.1 6 .rowAgg).2.2, same.2 6⟩

end Memo

end OpFusion
