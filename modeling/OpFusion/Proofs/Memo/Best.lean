import Mathlib.Data.List.Induction
import OpFusion.Proofs.Memo.RegionRule
import OpFusion.Proofs.Region.Rules

/-!
# The best entry of an explored memo

The best entry at a hop takes in the most inputs, and is the oldest of those that do
(`best?_split`). In an explored memo its positions hold open regions which the hop extends, an entry
without positions starts a region, and the template decides whether it is closed
(`ExploredBy.best`). Only a hop at which the template leaves regions open has an open one
(`ExploredBy.stillOpen`), so whatever an entry refers to does not end a region.
-/

namespace OpFusion

namespace Memo

variable {memo : Memo} {id : HopId} {t : Template} {e : MemoEntry}

/-- The better of the best entry so far and the next one; of two equally good ones, the older. -/
def better (best : Option MemoEntry) (e : MemoEntry) : Option MemoEntry :=
  match best with
  | some b => if e.refCount ≤ b.refCount then some b else some e
  | none => some e

theorem best?_eq_foldl : memo.best? id t = (memo.entriesOf id t).foldl better none := rfl

/-- Some entry is better than none. -/
theorem exists_better (best : Option MemoEntry) (e : MemoEntry) : ∃ b, better best e = some b := by
  cases best with
  | none => exact ⟨e, rfl⟩
  | some b =>
    by_cases hle : e.refCount ≤ b.refCount
    · exact ⟨b, if_pos hle⟩
    · exact ⟨e, if_neg hle⟩

/-- The best entry is the first of those that take in the most inputs. -/
theorem foldl_better_split {l : List MemoEntry} (h : l.foldl better none = some e) :
    ∃ before after, l = before ++ e :: after ∧
      (∀ x ∈ before, x.refCount < e.refCount) ∧ ∀ x ∈ after, x.refCount ≤ e.refCount := by
  -- From the right: the last entry is compared with the best of those before it.
  induction l using List.reverseRecOn generalizing e with
  | nil => simp at h
  | append_singleton l last ih =>
    rw [List.foldl_append, List.foldl_cons, List.foldl_nil] at h
    cases l using List.reverseRecOn with
    | nil =>
      obtain rfl : last = e := by simpa [better] using h
      exact ⟨[], [], rfl, by simp, by simp⟩
    | append_singleton front x =>
      obtain ⟨best, hbest⟩ : ∃ best, (front ++ [x]).foldl better none = some best := by
        rw [List.foldl_append]
        exact exists_better _ _
      obtain ⟨before, after, hsplit, hbefore, hafter⟩ := ih hbest
      rw [hbest] at h
      rw [hsplit]
      by_cases hle : last.refCount ≤ best.refCount
      · obtain rfl : best = e := by simpa [better, hle] using h
        refine ⟨before, after ++ [last], by simp, hbefore, fun x hx => ?_⟩
        rcases List.mem_append.1 hx with hx | hx
        · exact hafter x hx
        · rwa [List.mem_singleton.1 hx]
      · obtain rfl : last = e := by simpa [better, hle] using h
        refine ⟨before ++ best :: after, [], by simp, fun x hx => ?_, by simp⟩
        have hlt : best.refCount < last.refCount := Nat.lt_of_not_le hle
        rcases List.mem_append.1 hx with hx | hx
        · exact Nat.lt_trans (hbefore x hx) hlt
        · rcases List.mem_cons.1 hx with rfl | hx
          · exact hlt
          · exact Nat.lt_of_le_of_lt (hafter x hx) hlt

/-- The entries before the best one take in fewer inputs, those after it no more. -/
theorem best?_split (h : memo.best? id t = some e) :
    ∃ before after, memo.entriesOf id t = before ++ e :: after ∧
      (∀ x ∈ before, x.refCount < e.refCount) ∧ ∀ x ∈ after, x.refCount ≤ e.refCount :=
  foldl_better_split h

theorem best?_mem (h : memo.best? id t = some e) : e ∈ memo.entries id ∧ e.template = t := by
  obtain ⟨before, after, hsplit, _, _⟩ := best?_split h
  rw [← mem_entriesOf_iff, hsplit]
  simp

/-- A template that matches at a hop has a best entry there. -/
theorem exists_best? (he : e ∈ memo.entries id) (ht : e.template = t) :
    ∃ best, memo.best? id t = some best := by
  have hmem := mem_entriesOf_iff.2 ⟨he, ht⟩
  rw [best?_eq_foldl]
  cases hl : memo.entriesOf id t using List.reverseRecOn with
  | nil => simp [hl] at hmem
  | append_singleton front last =>
    rw [List.foldl_append]
    exact exists_better _ _

/-- A template matches at a hop exactly if it has a best entry there. -/
theorem contains_iff : memo.contains id t = true ↔ ∃ e, memo.best? id t = some e := by
  constructor
  · intro hcontains
    obtain ⟨e, he, ht⟩ := List.any_eq_true.1 hcontains
    exact exists_best? he (of_decide_eq_true ht)
  · rintro ⟨e, he⟩
    obtain ⟨hmem, ht⟩ := best?_mem he
    exact List.any_eq_true.2 ⟨e, hmem, decide_eq_true ht⟩

/-- No entry takes in more inputs than the best one. -/
theorem refCount_le_of_best? (h : memo.best? id t = some e) {x : MemoEntry}
    (hx : x ∈ memo.entriesOf id t) : x.refCount ≤ e.refCount := by
  obtain ⟨before, after, hsplit, hbefore, hafter⟩ := best?_split h
  rw [hsplit, List.mem_append, List.mem_cons] at hx
  rcases hx with hx | rfl | hx
  · exact Nat.le_of_lt (hbefore x hx)
  · exact Nat.le_refl _
  · exact hafter x hx

/-- Entries that come later and take in no more inputs do not replace the best one. -/
theorem best?_of_append {memo' : Memo} {more : List MemoEntry}
    (hentries : memo'.entriesOf id t = memo.entriesOf id t ++ more)
    (h : memo.best? id t = some e) (hle : ∀ x ∈ more, x.refCount ≤ e.refCount) :
    memo'.best? id t = some e := by
  have kept : more.foldl better (some e) = some e := by
    clear hentries
    induction more with
    | nil => rfl
    | cons x rest ih =>
      have hx : better (some e) x = some e := if_pos (hle x List.mem_cons_self)
      rw [List.foldl_cons, hx]
      exact ih fun y hy => hle y (List.mem_cons_of_mem _ hy)
  rw [best?_eq_foldl, hentries, List.foldl_append, ← best?_eq_foldl, h, kept]

/-- Changes that leave the entries their numbers of inputs leave the best one where it is. -/
theorem best?_of_map {memo' : Memo} {f : MemoEntry → MemoEntry}
    (hf : ∀ e, (f e).refCount = e.refCount)
    (hentries : memo'.entriesOf id t = (memo.entriesOf id t).map f) :
    memo'.best? id t = (memo.best? id t).map f := by
  have better_map (best : Option MemoEntry) (e : MemoEntry) :
      better (best.map f) (f e) = (better best e).map f := by
    cases best with
    | none => rfl
    | some b =>
      simp only [Option.map_some, better, hf]
      split <;> rfl
  rw [best?_eq_foldl, best?_eq_foldl, hentries, List.foldl_map]
  show List.foldl (fun best e => better best (f e)) (Option.map f none) _ = _
  exact List.foldl_hom (Option.map f) better_map

/-- Where a region is open, the template matches. -/
theorem exists_best?_of_hasOpen (hopen : memo.hasOpen id t = true) :
    ∃ best, memo.best? id t = some best := by
  simp only [hasOpen, List.any_eq_true, Bool.and_eq_true, decide_eq_true_eq] at hopen
  obtain ⟨e, he, ht, _⟩ := hopen
  exact exists_best? he ht

end Memo

namespace Matcher

variable {m : Matcher} {g : Graph} {memo : Memo} {h : Hop} {e : MemoEntry}

/-- The ways in which the rule comes to an entry. -/
inductive Grows (m : Matcher) (g : Graph) (memo : Memo) (h : Hop) : MemoEntry → Prop
  | extending {i : Nat} : m.fuses g h.id = true → i ∈ m.openPositions memo h →
      Grows m g memo h (.ofRefs m.template [i])
  | joining {a b : Nat} : m.joins g h a b = true → a ∈ m.openPositions memo h →
      b ∈ m.openPositions memo h → Grows m g memo h (.ofRefs m.template [a, b])
  | starting : m.opens g h.id = true → Grows m g memo h (.ofRefs m.template [])

theorem grows_of_mem_grown (he : e ∈ m.grown g memo h) : m.Grows g memo h e := by
  simp only [grown, List.mem_append, List.mem_map] at he
  rcases he with (⟨i, hi, rfl⟩ | ⟨⟨a, b⟩, hjoin, rfl⟩) | he
  · obtain ⟨hopen, hfuses⟩ := List.mem_filter.1 hi
    exact .extending hfuses hopen
  · have hfound := Option.mem_toList.1 hjoin
    obtain ⟨ha, hb⟩ := List.mem_product.1 (List.mem_of_find?_eq_some hfound)
    have hjoins : m.joins g h a b = true := by
      unfold firstJoin? at hfound
      simpa using List.find?_some hfound
    exact .joining hjoins ha hb
  · split at he
    · rename_i hopens
      rw [List.mem_singleton.1 he]
      exact .starting hopens
    · simp at he

theorem mem_openPositions_iff {i : Nat} :
    i ∈ m.openPositions memo h ↔
      ∃ x, h.input? i = some x ∧ memo.hasOpen x m.template = true := by
  simp only [openPositions, List.mem_filter, List.mem_range, Option.any_eq_true]
  constructor
  · exact fun h => h.2
  · rintro ⟨x, hx, hopen⟩
    exact ⟨(List.getElem?_eq_some_iff.1 hx).1, x, hx, hopen⟩

/-- Entries grow open. -/
theorem Grows.closed_eq (he : m.Grows g memo h e) : e.closed = false := by
  cases he <;> rfl

/-- An entry of the rule grew in one of three ways, and was closed if the template ends there. -/
theorem mem_region (he : e ∈ m.region g memo h) :
    m.closing g h.id ≠ .invalid ∧ (e.closed = true ↔ m.closing g h.id = .valid) ∧
      ∃ grown, m.Grows g memo h grown ∧ grown.refs = e.refs := by
  unfold region at he
  split at he
  · rename_i hclosing
    have hgrows := grows_of_mem_grown he
    exact ⟨by simp [hclosing], by simp [hclosing, hgrows.closed_eq], e, hgrows, rfl⟩
  · rename_i hclosing
    obtain ⟨grown, hgrown, rfl⟩ := List.mem_map.1 he
    exact ⟨by simp [hclosing], by simp [hclosing, MemoEntry.close], grown,
      grows_of_mem_grown hgrown, rfl⟩
  · simp at he

end Matcher

namespace Memo

variable {g : Graph} {config : Config} {memo : Memo} {done : List HopId} {id : HopId}
  {t : Template} {e : MemoEntry}

/-- What an explored memo says of an entry of a template at a hop. -/
structure Justified (memo : Memo) (g : Graph) (config : Config) (t : Template) (h : Hop)
    (e : MemoEntry) : Prop where
  /-- It refers to inputs with open regions. -/
  refers {i : Nat} : e.refersTo i = true →
    ∃ x, h.input? i = some x ∧ memo.hasOpen x t = true
  /-- A hop with references extends a region. -/
  fuses {i : Nat} : e.refersTo i = true → Matcher.fuses ⟨t, false, config⟩ g h.id = true
  /-- A hop without references starts one. -/
  opens : (∀ i, e.refersTo i = false) → Matcher.opens ⟨t, false, config⟩ g h.id = true
  /-- Two references join two regions. -/
  joins {a b : Nat} : e.refersTo a = true → e.refersTo b = true → a ≠ b →
    Matcher.joins ⟨t, false, config⟩ g h a b = true ∨ Matcher.joins ⟨t, false, config⟩ g h b a = true
  /-- The template decides whether the region ends. -/
  closed_iff : e.closed = true ↔ Matcher.closing ⟨t, false, config⟩ g h.id = .valid
  /-- A region that is given up leaves no entry. -/
  not_invalid : Matcher.closing ⟨t, false, config⟩ g h.id ≠ .invalid

/-- A justified entry starts a region, or refers to an input whose region the hop extends. -/
theorem Justified.cases {h : Hop} (justified : memo.Justified g config t h e) :
    Matcher.opens ⟨t, false, config⟩ g h.id = true ∨
      Matcher.fuses ⟨t, false, config⟩ g h.id = true ∧
        ∃ i x, e.refersTo i = true ∧ h.input? i = some x ∧ memo.hasOpen x t = true := by
  by_cases hrefers : ∃ i, e.refersTo i = true
  · obtain ⟨i, hi⟩ := hrefers
    obtain ⟨x, hx, hopen⟩ := justified.refers hi
    exact .inr ⟨justified.fuses hi, i, x, hi, hx, hopen⟩
  · left
    apply justified.opens
    intro i
    simpa using not_exists.1 hrefers i

theorem justified_of_mem_region {h : Hop} (he : e ∈ Matcher.region ⟨t, false, config⟩ g memo h) :
    memo.Justified g config t h e := by
  obtain ⟨hvalid, hclosed, grown, hgrows, hrefs⟩ := Matcher.mem_region he
  -- Closing an entry leaves it the references with which it grew.
  have refers (i : Nat) : e.refersTo i = grown.refersTo i := by
    rw [MemoEntry.refersTo, ← hrefs, MemoEntry.refersTo]
  have hopen {i : Nat} (hi : i ∈ Matcher.openPositions ⟨t, false, config⟩ memo h) :
      ∃ x, h.input? i = some x ∧ memo.hasOpen x t = true := Matcher.mem_openPositions_iff.1 hi
  have joined {a b : Nat} (hjoins : Matcher.joins ⟨t, false, config⟩ g h a b = true) :
      a ≠ b ∧ Matcher.fuses ⟨t, false, config⟩ g h.id = true := by
    simp only [Matcher.joins, Bool.and_eq_true, bne_iff_ne, ne_eq] at hjoins
    exact hjoins.1
  cases hgrows with
  | @extending a hfuses ha =>
    refine ⟨fun h => ?_, fun _ => hfuses, fun h => ?_, fun h h' hne => ?_, hclosed, hvalid⟩
    · rw [refers, MemoEntry.refersTo_ofRefs, List.mem_singleton] at h
      exact h ▸ hopen ha
    · exact absurd (h a) (by simp [refers])
    · rw [refers, MemoEntry.refersTo_ofRefs, List.mem_singleton] at h h'
      exact absurd (h.trans h'.symm) hne
  | @joining a b hjoins ha hb =>
    refine ⟨fun h => ?_, fun _ => (joined hjoins).2, fun h => ?_, fun h h' hne => ?_, hclosed,
      hvalid⟩
    · rw [refers, MemoEntry.refersTo_ofRefs, List.mem_pair] at h
      rcases h with rfl | rfl
      · exact hopen ha
      · exact hopen hb
    · exact absurd (h a) (by simp [refers])
    · rw [refers, MemoEntry.refersTo_ofRefs, List.mem_pair] at h h'
      rcases h with rfl | rfl <;> rcases h' with rfl | rfl
      · exact absurd rfl hne
      · exact .inl hjoins
      · exact .inr hjoins
      · exact absurd rfl hne
  | starting hopens =>
    refine ⟨fun h => ?_, fun h => ?_, fun _ => hopens, fun h => ?_, hclosed, hvalid⟩
    all_goals simp [refers] at h

/-- An entry of an explored memo is at a hop of the graph and is justified there. -/
theorem ExploredBy.justified (explored : memo.ExploredBy g config done)
    (he : e ∈ memo.entries id) :
    ∃ h, g.hop? id = some h ∧ memo.Justified g config e.template h e := by
  obtain ⟨h, hh, hid⟩ : ∃ h, g.hop? id = some h ∧ id ∈ done := by
    by_contra hnone
    rw [explored.outside fun h hh hid => hnone ⟨h, hh, hid⟩] at he
    simp at he
  refine ⟨h, hh, ?_⟩
  rw [explored.inside hid hh, regions, List.mem_append] at he
  rcases he with he | he
  · rw [Matcher.template_of_mem_region he]
    exact justified_of_mem_region he
  · rw [Matcher.template_of_mem_region he]
    exact justified_of_mem_region he

/-- The best entry of an explored memo is justified. -/
theorem ExploredBy.best (explored : memo.ExploredBy g config done)
    (hbest : memo.best? id t = some e) :
    ∃ h, g.hop? id = some h ∧ memo.Justified g config t h e := by
  obtain ⟨he, rfl⟩ := best?_mem hbest
  exact explored.justified he

theorem ExploredBy.justified_of_best {h : Hop} (explored : memo.ExploredBy g config done)
    (hh : g.hop? id = some h) (hbest : memo.best? id t = some e) :
    memo.Justified g config t h e := by
  obtain ⟨h', hh', justified⟩ := explored.best hbest
  rwa [Option.some.inj (hh.symm.trans hh')]

/-- Nothing starts or extends a region at a hop that reads nothing, so none has a best entry. -/
theorem ExploredBy.not_leaf {h : Hop} (explored : memo.ExploredBy g config done)
    (hh : g.hop? h.id = some h) (hbest : memo.best? h.id t = some e) : h.kind.arity ≠ some 0 := by
  intro hleaf
  rcases (explored.justified_of_best hh hbest).cases with hopens | ⟨hfuses, _⟩
  · rw [Matcher.opens_of_leaf hh hleaf] at hopens
    exact Bool.noConfusion hopens
  · rw [Matcher.fuses_of_leaf hh hleaf] at hfuses
    exact Bool.noConfusion hfuses

/-- The template leaves regions open wherever an explored memo has an open one. -/
theorem ExploredBy.stillOpen (explored : memo.ExploredBy g config done)
    (hopen : memo.hasOpen id t = true) :
    ∃ h, g.hop? id = some h ∧ Matcher.closing ⟨t, false, config⟩ g h.id = .stillOpen := by
  simp only [hasOpen, List.any_eq_true, Bool.and_eq_true, decide_eq_true_eq, Bool.not_eq_true']
    at hopen
  obtain ⟨e, he, rfl, hclosed⟩ := hopen
  obtain ⟨h, hh, justified⟩ := explored.justified he
  refine ⟨h, hh, ?_⟩
  cases hclosing : Matcher.closing ⟨e.template, false, config⟩ g h.id with
  | stillOpen => rfl
  | valid => simp [justified.closed_iff.2 hclosing] at hclosed
  | invalid => exact absurd hclosing justified.not_invalid

end Memo

end OpFusion
