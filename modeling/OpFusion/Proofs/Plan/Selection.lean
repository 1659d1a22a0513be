import OpFusion.Proofs.Plan.Run

/-!
# The entry that planning goes by

A hop may have many entries, of both templates. Planning goes by the best one of its template, which
is the first of those that take in the most inputs (`Memo.best_iff`). Since an entry that is added
comes last, it takes over exactly if it takes in more than the best one so far, and nothing that is
added of another template or at another hop shows (`Memo.best_firstLargest`).
-/

namespace OpFusion.Memo

variable {memo memo' : Memo} {id other : HopId} {t : Template} {e e' : MemoEntry}

/-- Of the entries of its template at a hop, those before the entry take in fewer inputs, and those
after it no more. -/
def IsFirstLargest (memo : Memo) (id : HopId) (e : MemoEntry) : Prop :=
  ∃ before after, memo.entries id = before ++ e :: after ∧
    (∀ x ∈ before, x.template = e.template → x.refCount < e.refCount) ∧
    ∀ x ∈ after, x.template = e.template → x.refCount ≤ e.refCount

theorem IsFirstLargest.mem (first : memo.IsFirstLargest id e) : e ∈ memo.entries id := by
  obtain ⟨before, after, hsplit, _, _⟩ := first
  rw [hsplit]
  exact List.mem_append_right _ List.mem_cons_self

/-- No two entries of a template are the first largest. -/
theorem IsFirstLargest.unique (first : memo.IsFirstLargest id e)
    (first' : memo.IsFirstLargest id e') (ht : e.template = e'.template) : e = e' := by
  obtain ⟨before, after, hsplit, hbefore, hafter⟩ := first
  obtain ⟨before', after', hsplit', hbefore', hafter'⟩ := first'
  rcases List.append_eq_append_iff.1 (hsplit.symm.trans hsplit') with
    ⟨between, hlonger, hrest⟩ | ⟨between, hlonger, hrest⟩
  · cases between with
    | nil => exact (List.cons.inj hrest).1
    | cons x rest =>
      -- The one stands before the other, which would have to be both larger and no larger.
      obtain ⟨rfl, rfl⟩ := List.cons.inj hrest
      have hlt := hbefore' e (by simp [hlonger]) ht
      have hle := hafter e' (by simp) ht.symm
      omega
  · cases between with
    | nil => exact (List.cons.inj hrest).1.symm
    | cons x rest =>
      obtain ⟨rfl, rfl⟩ := List.cons.inj hrest
      have hlt := hbefore e' (by simp [hlonger]) ht.symm
      have hle := hafter' e (by simp) ht
      omega

/-- The best entry is the first largest one also among the entries of both templates. -/
theorem isFirstLargest_of_best? (hbest : memo.best? id t = some e) : memo.IsFirstLargest id e := by
  obtain ⟨_, ht⟩ := best?_mem hbest
  obtain ⟨before, after, hsplit, hbefore, hafter⟩ := best?_split hbest
  obtain ⟨front, back, hentries, hfront, hback⟩ := List.filter_eq_append_iff.1 hsplit
  obtain ⟨skipped, rest, rfl, hskipped, _, hrest⟩ := List.filter_eq_cons_iff.1 hback
  refine ⟨front ++ skipped, rest, by rw [hentries, List.append_assoc], fun x hx htx => ?_,
    fun x hx htx => hafter x ?_⟩
  · have hxt : x.template = t := htx.trans ht
    rcases List.mem_append.1 hx with hx | hx
    · exact hbefore x (hfront ▸ List.mem_filter.2 ⟨hx, decide_eq_true hxt⟩)
    · exact absurd (decide_eq_true hxt) (hskipped x hx)
  · exact hrest ▸ List.mem_filter.2 ⟨hx, decide_eq_true (htx.trans ht)⟩

theorem best_iff : memo.best id t = .ok e ↔ e.template = t ∧ memo.IsFirstLargest id e := by
  rw [best_eq_ok_iff]
  constructor
  · exact fun hbest => ⟨(best?_mem hbest).2, isFirstLargest_of_best? hbest⟩
  · rintro ⟨rfl, first⟩
    obtain ⟨b, hbest⟩ := exists_best? first.mem rfl
    rw [hbest, (isFirstLargest_of_best? hbest).unique first (best?_mem hbest).2]

theorem best_eq_error_iff :
    memo.best id t = .error (.missingMemoEntry id t) ↔ ∀ e ∈ memo.entries id, e.template ≠ t := by
  have hnone : memo.best id t = .error (.missingMemoEntry id t) ↔ memo.best? id t = none := by
    unfold best
    cases memo.best? id t <;> simp
  rw [hnone]
  constructor
  · intro hbest e he ht
    obtain ⟨b, hb⟩ := exists_best? he ht
    simp [hbest] at hb
  · intro hother
    refine Option.eq_none_iff_forall_ne_some.2 fun e hbest => ?_
    obtain ⟨he, ht⟩ := best?_mem hbest
    exact hother e he ht

/-! ## Adding an entry -/

theorem best_eq_best_iff :
    memo'.best id t = memo.best id t ↔ memo'.best? id t = memo.best? id t := by
  unfold best
  cases memo'.best? id t <;> cases memo.best? id t <;> simp

/-- An entry that takes in more inputs than all others of its template takes over. -/
theorem best?_add_self
    (hlarger : ∀ b, memo.best? id e.template = some b → b.refCount < e.refCount) :
    (memo.add id e).best? id e.template = some e := by
  have hnew : e ∉ memo.entriesOf id e.template := by
    intro hmem
    obtain ⟨b, hbest⟩ := exists_best? (mem_entriesOf_iff.1 hmem).1 rfl
    exact absurd (refCount_le_of_best? hbest hmem) (Nat.not_le_of_lt (hlarger b hbest))
  rw [best?_eq_foldl, entriesOf_add, if_pos ⟨rfl, rfl, hnew⟩, List.foldl_append, ← best?_eq_foldl]
  cases hbest : memo.best? id e.template with
  | none => rfl
  | some b => exact if_neg (Nat.not_le_of_lt (hlarger b hbest))

/-- An entry that is added at a hop leaves the best one where it is exactly if that takes in as many
inputs. -/
theorem best?_add_iff :
    (memo.add id e).best? id e.template = memo.best? id e.template ↔
      ∃ b, memo.best? id e.template = some b ∧ e.refCount ≤ b.refCount := by
  constructor
  · intro hsame
    by_contra hnone
    have hlarger : ∀ b, memo.best? id e.template = some b → b.refCount < e.refCount :=
      fun b hbest => Nat.lt_of_not_le fun hle => hnone ⟨b, hbest, hle⟩
    rw [best?_add_self hlarger] at hsame
    exact hnone ⟨e, hsame.symm, Nat.le_refl _⟩
  · rintro ⟨b, hbest, hle⟩
    by_cases hnew : e ∈ memo.entriesOf id e.template
    · rw [best?, entriesOf_add, if_neg fun h => h.2.2 hnew, best?]
    · have hadd :
          (memo.add id e).entriesOf id e.template = memo.entriesOf id e.template ++ [e] := by
        rw [entriesOf_add, if_pos ⟨rfl, rfl, hnew⟩]
      rw [hbest, best?_of_append hadd hbest (by simpa using hle)]

/-- Of the entries of a template at a hop, the best one is the first of those that take in the most
inputs; it is an error exactly if there are none. An entry that is added changes the answer exactly
if it is of the template, at the hop, and takes in more inputs than the best entry does, or is the
first one there. -/
theorem best_firstLargest (memo : Memo) (id : HopId) (t : Template) :
    (memo.best id t = .error (.missingMemoEntry id t) ↔
        ∀ e ∈ memo.entries id, e.template ≠ t) ∧
      ((∃ e ∈ memo.entries id, e.template = t) → ∃ e, memo.best id t = .ok e) ∧
      (∀ e, memo.best id t = .ok e ↔ e.template = t ∧ memo.IsFirstLargest id e) ∧
      ∀ other e, (memo.add other e).best id t = memo.best id t ↔
        other ≠ id ∨ e.template ≠ t ∨ ∃ b, memo.best id t = .ok b ∧ e.refCount ≤ b.refCount := by
  refine ⟨best_eq_error_iff, ?_, fun e => best_iff, fun other e => ?_⟩
  · rintro ⟨e, he, ht⟩
    obtain ⟨b, hbest⟩ := exists_best? he ht
    exact ⟨b, best_eq_ok_iff.2 hbest⟩
  · simp only [best_eq_best_iff, best_eq_ok_iff]
    by_cases hat : other = id ∧ e.template = t
    · obtain ⟨rfl, rfl⟩ := hat
      simpa using best?_add_iff
    · have apart : (memo.add other e).entriesOf id t = memo.entriesOf id t := by
        rw [entriesOf_add, if_neg fun h => hat ⟨h.1.symm, h.2.1⟩]
      rw [best?, apart, ← best?, ← or_assoc, ← not_and_or]
      exact iff_of_true rfl (.inl hat)

/-- Three entries of the row template at a hop, and a larger one of the other template. -/
def ofVariants : Memo :=
  (((empty.add 4 (.ofRefs .rowAgg [1])).add 4 (.ofRefs .rowAgg [0, 2])).add 4
    (.ofRefs .outerProduct [0, 1, 2])).add 4 (.ofRefs .rowAgg [0, 1])

/-- The second entry is the first of the two that take in two inputs. One more such does not change
that, and one that takes in three does. -/
theorem best_firstLargest_variants :
    (∃ e, ofVariants.best 4 .rowAgg = .ok e) ∧
      ofVariants.IsFirstLargest 4 (.ofRefs .rowAgg [0, 2]) ∧
      ofVariants.best 3 .rowAgg = .error (.missingMemoEntry 3 .rowAgg) ∧
      (ofVariants.add 4 (.ofRefs .rowAgg [1, 2])).best 4 .rowAgg = ofVariants.best 4 .rowAgg ∧
      (ofVariants.add 4 (.ofRefs .rowAgg [0, 1, 2])).best 4 .rowAgg ≠
        ofVariants.best 4 .rowAgg := by
  obtain ⟨-, exists_best, best, added⟩ := best_firstLargest ofVariants 4 .rowAgg
  have hbest : ofVariants.best 4 .rowAgg = .ok (.ofRefs .rowAgg [0, 2]) := by decide +kernel
  refine ⟨exists_best ⟨.ofRefs .rowAgg [1], by decide +kernel, rfl⟩, ((best _).1 hbest).2,
    (best_firstLargest ofVariants 3 .rowAgg).1.2 (by decide +kernel),
    (added 4 _).2 (.inr (.inr ⟨_, hbest, by decide⟩)), fun hsame => ?_⟩
  rcases (added 4 _).1 hsame with hne | hne | ⟨b, hb, hle⟩
  · exact hne rfl
  · exact hne rfl
  · obtain rfl := Except.ok.inj (hbest.symm.trans hb)
    exact absurd hle (by decide)

end OpFusion.Memo
