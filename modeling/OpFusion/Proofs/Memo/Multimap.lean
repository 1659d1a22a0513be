import Mathlib.Algebra.BigOperators.Group.Finset.Basic
import OpFusion.Proofs.Memo.History

/-!
# The memo as an ordered multimap

Seen from outside, a memo is a list of entries for each hop. As long as entries are only added and
removed, the list of a hop can be read off the changes (`Memo.standing`): it has the entries that
were added there and not removed since, each where it was first added. The size and emptiness are
not kept per hop, but they agree with the lists: a hop that has a list has an entry
(`Memo.Filled`), and exploration, which takes templates away on its own, keeps that as well.
-/

namespace OpFusion

namespace Memo

namespace Change

/-- The hop at which entries are added or removed; an exploration is not bound to one. -/
def hop? : Change → Option HopId
  | add id _ => some id
  | remove id _ => some id
  | explore _ _ _ => none

/-- What the change adds at a hop, if anything. -/
def added (id : HopId) : Change → List MemoEntry
  | add id' e => if id' = id then [e] else []
  | _ => []

/-- The change is the removal of a template at a hop. -/
def Removes (id : HopId) (t : Template) : Change → Prop
  | remove id' t' => id' = id ∧ t' = t
  | _ => False

instance {id : HopId} {t : Template} : DecidablePred (Removes id t)
  | remove id' t' => inferInstanceAs (Decidable (id' = id ∧ t' = t))
  | add _ _ => inferInstanceAs (Decidable False)
  | explore _ _ _ => inferInstanceAs (Decidable False)

variable {id : HopId} {t : Template} {e : MemoEntry} {c : Change}

theorem mem_added_iff : e ∈ c.added id ↔ c = .add id e := by
  cases c with
  | remove | explore => simp [added]
  | add id' e' =>
    rw [added]
    split
    · simp [*, eq_comm]
    · simp [*]

theorem nodup_added : (c.added id).Nodup := by
  cases c with
  | remove | explore => exact .nil
  | add id' e =>
    rw [added]
    split
    · exact List.nodup_singleton e
    · exact .nil

/-- A change at another hop adds nothing. -/
theorem added_of_ne (h : c.hop? ≠ some id) : c.added id = [] := by
  refine List.eq_nil_iff_forall_not_mem.2 fun e he => h ?_
  rw [mem_added_iff.1 he, hop?]

/-- A change at another hop removes nothing. -/
theorem Removes.hop?_eq (h : c.Removes id t) : c.hop? = some id := by
  cases c with
  | remove id' t' => exact congrArg some h.1
  | add | explore => exact h.elim

end Change

/-- The entries that are added at a hop and not removed later, in the order of the additions. -/
def additions (id : HopId) : List Change → List MemoEntry
  | [] => []
  | c :: rest =>
    (c.added id).filter (fun e => ∀ later ∈ rest, ¬ later.Removes id e.template) ++
      additions id rest

/-- What adding and removing leaves at a hop: each entry once, where it was first added of the
times that it was not removed later. -/
def standing (id : HopId) (changes : List Change) : List MemoEntry :=
  (additions id changes).eraseDups

variable {m : Memo} {id : HopId} {t : Template} {e : MemoEntry} {g : Graph} {config : Config}
  {roots : List HopId} {changes front : List Change} {c last : Change}

/-! ## The entries at a hop -/

/-- An entry stands at a hop if it was added there and its template not removed there later. -/
theorem mem_standing_iff :
    e ∈ standing id changes ↔
      ∃ done rest, changes = done ++ .add id e :: rest ∧
        ∀ later ∈ rest, ¬ later.Removes id e.template := by
  rw [standing, List.mem_eraseDups]
  induction changes with
  | nil => simp [additions]
  | cons c rest ih =>
    rw [additions, List.mem_append, List.mem_filter, Change.mem_added_iff, ih]
    constructor
    · rintro (⟨rfl, hlater⟩ | ⟨done, rest', rfl, hlater⟩)
      · exact ⟨[], rest, rfl, of_decide_eq_true hlater⟩
      · exact ⟨c :: done, rest', rfl, hlater⟩
    · rintro ⟨done, rest', heq, hlater⟩
      rcases List.cons_eq_append_iff.1 heq with ⟨rfl, hhead⟩ | ⟨done', rfl, rfl⟩
      · obtain ⟨rfl, rfl⟩ := List.cons_eq_cons.1 hhead
        exact .inl ⟨rfl, decide_eq_true hlater⟩
      · exact .inr ⟨done', rest', rfl, hlater⟩

/-- One more change takes away what it removes and adds what it adds. -/
theorem additions_snoc :
    additions id (front ++ [last]) =
      (additions id front).filter (fun e => ¬ last.Removes id e.template) ++ last.added id := by
  induction front with
  | nil => simp [additions]
  | cons c rest ih =>
    rw [List.cons_append, additions, additions, ih, List.filter_append, List.filter_filter,
      List.append_assoc]
    congr 1
    refine List.filter_congr fun e _ => ?_
    rw [← Bool.decide_and, decide_eq_decide, List.forall_mem_append, List.forall_mem_singleton,
      and_comm]

/-- Changes at other hops make no difference to what stands at a hop. -/
theorem standing_filter :
    standing id (changes.filter (·.hop? = some id)) = standing id changes := by
  rw [standing, standing]
  congr 1
  induction changes with
  | nil => rfl
  | cons c rest ih =>
    by_cases hhop : c.hop? = some id
    · rw [List.filter_cons_of_pos (by simpa using hhop), additions, additions, ih]
      congr 1
      refine List.filter_congr fun e _ => decide_eq_decide.2 ?_
      refine ⟨fun h later hlater hremoves => h later ?_ hremoves,
        fun h later hlater => h later (List.mem_filter.1 hlater).1⟩
      exact List.mem_filter.2 ⟨hlater, decide_eq_true hremoves.hop?_eq⟩
    · rw [List.filter_cons_of_neg (by simpa using hhop), additions, ih, Change.added_of_ne hhop,
        List.filter_nil, List.nil_append]

theorem eraseDups_filter (l : List MemoEntry) (p : MemoEntry → Bool) :
    (l.filter p).eraseDups = l.eraseDups.filter p := by
  induction l using List.reverseRecOn with
  | nil => rfl
  | append_singleton front e ih =>
    rw [List.filter_append, List.eraseDups_append, List.eraseDups_append, List.filter_append, ih]
    congr 1
    by_cases hp : p e <;> by_cases hmem : e ∈ front <;>
      simp [List.removeAll, hp, hmem, List.eraseDups_cons]

/-- After one more change, what it does not remove still stands, and what it adds stands last
unless it did already. -/
theorem standing_snoc :
    standing id (front ++ [last]) =
      (standing id front).filter (fun e => ¬ last.Removes id e.template) ++
        (last.added id).removeAll
          ((standing id front).filter fun e => ¬ last.Removes id e.template) := by
  rw [standing, additions_snoc, List.eraseDups_append, eraseDups_filter, ← standing]
  congr 1
  -- At most one entry is added, and whether it is there does not depend on repetitions.
  cases last with
  | remove | explore => rfl
  | add id' e =>
    by_cases hid : id' = id
    · by_cases hmem : e ∈ additions id front <;>
        simp [Change.added, Change.Removes, standing, List.removeAll, List.eraseDups_cons, hid,
          hmem]
    · simp [Change.added, hid]

/-- No entry stands twice. -/
theorem nodup_standing : (standing id changes).Nodup := by
  induction changes using List.reverseRecOn with
  | nil => exact .nil
  | append_singleton front last ih =>
    rw [standing_snoc, List.nodup_append]
    refine ⟨ih.filter _, Change.nodup_added.filter _, fun e he e' he' heq => ?_⟩
    have hnew := (List.mem_filter.1 he').2
    rw [← heq] at hnew
    simp only [List.elem_eq_contains, List.contains_iff_mem.2 he] at hnew
    exact Bool.noConfusion hnew

/-- An addition or removal at some hop takes away what it removes and appends what it adds, unless
it is there. -/
theorem entries_apply (edit : c.hop? ≠ none) :
    (c.apply m).entries id =
      (m.entries id).filter (fun e => ¬ c.Removes id e.template) ++
        (c.added id).removeAll ((m.entries id).filter fun e => ¬ c.Removes id e.template) := by
  cases c with
  | explore => exact absurd rfl edit
  | remove id' t' =>
    rw [Change.apply, entries_remove]
    by_cases hid : id = id'
    · subst hid
      simp [Change.Removes, Change.added, List.removeAll, @eq_comm _ t']
    · simp [Change.Removes, Change.added, List.removeAll, hid, Ne.symm hid]
  | add id' e =>
    rw [Change.apply, entries_add]
    by_cases hid : id = id'
    · subst hid
      by_cases hmem : e ∈ m.entries id <;>
        simp [Change.Removes, Change.added, List.removeAll, hmem]
    · simp [Change.Removes, Change.added, List.removeAll, hid, Ne.symm hid]

/-- After additions and removals only, the entries at a hop are those that stand there. -/
theorem entries_after (edits : ∀ c ∈ changes, c.hop? ≠ none) :
    (empty.after changes).entries id = standing id changes := by
  induction changes using List.reverseRecOn with
  | nil => rfl
  | append_singleton front last ih =>
    have hlast : last.hop? ≠ none := edits last (by simp)
    rw [after_snoc, entries_apply hlast, standing_snoc,
      ih fun c hc => edits c (List.mem_append_left _ hc)]

/-! ## Lists that are not empty -/

/-- Every hop that has a list has an entry. -/
def Filled (m : Memo) : Prop := ∀ row ∈ m.lists, row.2 ≠ []

theorem Filled.erase (filled : m.Filled) : (m.erase id).Filled :=
  fun row hrow => filled row (List.mem_filter.1 hrow).1

theorem Filled.put {l : List MemoEntry} (filled : m.Filled) (hl : l ≠ []) :
    (m.put id l).Filled := by
  intro row hrow
  rcases List.mem_append.1 hrow with hrow | hrow
  · exact filled.erase row hrow
  · rw [List.mem_singleton.1 hrow]
    exact hl

theorem Filled.add (filled : m.Filled) : (m.add id e).Filled := by
  refine filled.put ?_
  split
  · exact List.ne_nil_of_mem ‹_›
  · exact List.append_ne_nil_of_right_ne_nil _ (List.cons_ne_nil _ _)

theorem Filled.list?_ne_nil {l : List MemoEntry} (filled : m.Filled) (h : m.list? id = some l) :
    l ≠ [] := by
  obtain ⟨row, hrow, rfl⟩ := Option.map_eq_some_iff.1 h
  exact filled row (List.mem_of_find?_eq_some hrow)

theorem Filled.remove (filled : m.Filled) : (m.remove id t).Filled := by
  cases hlist : m.list? id with
  | none => simpa only [Memo.remove, hlist]
  | some present =>
    simp only [Memo.remove, hlist]
    split
    · exact filled.erase
    · rename_i hkept
      exact filled.put fun hnone => hkept (List.isEmpty_iff.2 hnone)

theorem Filled.close (filled : m.Filled) : (m.close id t).Filled := by
  cases hlist : m.list? id with
  | none => simpa only [Memo.close, hlist]
  | some present =>
    simp only [Memo.close, hlist]
    exact filled.put fun hnone => filled.list?_ne_nil hlist (List.map_eq_nil_iff.1 hnone)

section Keeps

variable {P : Memo → Prop} (add : ∀ {m : Memo} {id e}, P m → P (m.add id e))
  (close : ∀ {m : Memo} {id t}, P m → P (m.close id t))
  (remove : ∀ {m : Memo} {id t}, P m → P (m.remove id t))

include add close remove

theorem matcher_explore_keeps {matcher : Matcher} {h : Hop} (hm : P m) :
    P (matcher.explore g m h) := by
  have hgrown : P ((matcher.proposals g h.id (matcher.openInputs m h)).foldl (·.add h.id) m) :=
    List.foldlRecOn _ _ hm fun _ hm _ _ => add hm
  unfold Matcher.explore
  split
  · exact hgrown
  · exact close hgrown
  · exact remove hgrown

theorem exploreHop_keeps (hm : P m) : P (exploreHop g config m id) := by
  unfold exploreHop
  split
  · exact hm
  · exact List.foldlRecOn _ _ hm fun _ hm _ _ => matcher_explore_keeps add close remove hm

/-- Exploration only adds, closes and removes, so it keeps what these keep. -/
theorem explore_keeps (hm : P m) : P (m.explore g config roots).1 :=
  List.foldlRecOn _ _ hm fun _ hm _ _ => exploreHop_keeps add close remove hm

end Keeps

theorem Filled.after (filled : m.Filled) : (m.after changes).Filled := by
  refine List.foldlRecOn _ _ filled fun m hm c _ => ?_
  cases c with
  | add => exact hm.add
  | remove => exact hm.remove
  | explore => exact explore_keeps Filled.add Filled.close Filled.remove hm

theorem filled_empty : empty.Filled := fun _ h => (List.not_mem_nil h).elim

/-! ## Size and emptiness -/

/-- The hops that have a list. -/
def hops (m : Memo) : Finset HopId := (m.lists.map (·.1)).toFinset

theorem entries_of_mem {row : HopId × List MemoEntry} (hrow : row ∈ m.lists) :
    m.entries row.1 = row.2 := by
  obtain ⟨found, hfound⟩ : ∃ found, m.lists.find? (·.1 == row.1) = some found :=
    Option.isSome_iff_exists.1 (List.find?_isSome.2 ⟨row, hrow, beq_self_eq_true _⟩)
  have hsame : found = row :=
    List.inj_on_of_nodup_map m.distinct (List.mem_of_find?_eq_some hfound) hrow
      (by simpa using List.find?_some hfound)
  rw [entries, list?, hfound, hsame, Option.map_some, Option.getD_some]

/-- The size is the total length of the lists. -/
theorem size_eq_sum : m.size = ∑ id ∈ m.hops, (m.entries id).length := by
  have hsize : m.size = (m.lists.map fun row => row.2.length).sum := by
    rw [size, List.sum, List.foldr_map]
  rw [hsize, hops, List.sum_toFinset _ m.distinct, List.map_map]
  congr 1
  exact List.map_congr_left fun row hrow => by rw [Function.comp_apply, entries_of_mem hrow]

theorem Filled.mem_hops_iff (filled : m.Filled) : id ∈ m.hops ↔ m.entries id ≠ [] := by
  rw [hops, List.mem_toFinset, List.mem_map]
  constructor
  · rintro ⟨row, hrow, rfl⟩
    rw [entries_of_mem hrow]
    exact filled row hrow
  · intro hentries
    cases hlist : m.list? id with
    | none => exact absurd (entries_of_list? hlist) hentries
    | some l =>
      obtain ⟨row, hrow, -⟩ := Option.map_eq_some_iff.1 hlist
      exact ⟨row, List.mem_of_find?_eq_some hrow, by simpa using List.find?_some hrow⟩

/-- Without empty lists, a memo of size zero has no list at all. -/
theorem Filled.isEmpty_iff (filled : m.Filled) : m.isEmpty = true ↔ m.size = 0 := by
  have hlists : m.isEmpty = true ↔ m.hops = ∅ := by
    rw [isEmpty, List.isEmpty_iff, hops, List.toFinset_eq_empty_iff, List.map_eq_nil_iff]
  rw [hlists, size_eq_sum, Finset.sum_eq_zero_iff, Finset.eq_empty_iff_forall_notMem]
  refine forall_congr' fun id => ⟨fun hnone hid => absurd hid hnone, fun hzero hid => ?_⟩
  exact filled.mem_hops_iff.1 hid (List.length_eq_zero_iff.1 (hzero hid))

/-! ## What a memo shows -/

theorem contains_iff_entries : m.contains id t = true ↔ ∃ e ∈ m.entries id, e.template = t := by
  rw [contains, List.any_eq_true]
  simp only [decide_eq_true_eq]

theorem hasOpen_iff_entries :
    m.hasOpen id t = true ↔ ∃ e ∈ m.entries id, e.template = t ∧ e.closed = false := by
  rw [hasOpen_iff]
  simp only [mem_entriesOf_iff, and_assoc]

/-- After additions and removals from the empty memo, the entries at a hop are those that were added
there and not removed since, each once and where it was first added since then, whatever was done at
other hops. The other questions are answered from the entries, and that a memo is empty means that
it counts none, also after explorations. -/
theorem refines_multimap (changes : List Change) :
    ((∀ c ∈ changes, c.hop? ≠ none) → ∀ id,
      (empty.after changes).entries id = standing id changes ∧
        (empty.after (changes.filter (·.hop? = some id))).entries id = standing id changes ∧
        (standing id changes).Nodup ∧
        ∀ e, e ∈ standing id changes ↔
          ∃ done rest, changes = done ++ .add id e :: rest ∧
            ∀ later ∈ rest, ¬ later.Removes id e.template) ∧
      (∀ id t,
        ((empty.after changes).contains id t = true ↔
          ∃ e ∈ (empty.after changes).entries id, e.template = t) ∧
        ((empty.after changes).hasOpen id t = true ↔
          ∃ e ∈ (empty.after changes).entries id, e.template = t ∧ e.closed = false)) ∧
      (∃ hops : Finset HopId, (∀ id, id ∈ hops ↔ (empty.after changes).entries id ≠ []) ∧
        (empty.after changes).size = ∑ id ∈ hops, ((empty.after changes).entries id).length) ∧
      ((empty.after changes).isEmpty = true ↔ (empty.after changes).size = 0) := by
  have filled : (empty.after changes).Filled := filled_empty.after
  refine ⟨fun edits id => ⟨entries_after edits, ?_, nodup_standing, fun _ => mem_standing_iff⟩,
    fun id t => ⟨contains_iff_entries, hasOpen_iff_entries⟩,
    ⟨_, fun _ => filled.mem_hops_iff, size_eq_sum⟩, filled.isEmpty_iff⟩
  rw [entries_after fun c hc => edits c (List.mem_filter.1 hc).1, standing_filter]

/-- An entry that is added twice, removed and added again, and others added in between. -/
def Change.readded : List Change :=
  [.add 1 (.ofRefs .rowAgg [0]), .add 1 (.ofRefs .rowAgg [0]), .add 2 (.starting .rowAgg),
    .add 1 (.starting .outerProduct), .remove 1 .rowAgg, .add 1 (.ofRefs .rowAgg [0])]

/-- The entry that was removed stands after the one that was not. -/
theorem refines_multimap_readded :
    (∀ c ∈ Change.readded, c.hop? ≠ none) ∧
      (empty.after Change.readded).entries 1 = [.starting .outerProduct, .ofRefs .rowAgg [0]] := by
  have edits : ∀ c ∈ Change.readded, c.hop? ≠ none := by decide
  have hstanding : standing 1 Change.readded = [.starting .outerProduct, .ofRefs .rowAgg [0]] := by
    decide
  exact ⟨edits, ((refines_multimap Change.readded).1 edits 1).1.trans hstanding⟩

end Memo

end OpFusion
