import Mathlib.Algebra.BigOperators.Group.Finset.Basic
import Mathlib.Data.List.Induction
import OpFusion.Dag.Outline
import OpFusion.Proofs.Dag.Address

/-!
# What an outline shows

While an outline is written, some occurrences are still to come. The line for the first of them is
written next, and what is right below it comes before the others (`Prints`). Whatever one line
preserves the whole outline has (`Prints.preserves`), so that three things are kept apart: how nodes
are numbered (`Sheet.Numbers`), which occurrences get a line (`Unfolds`), and in which order
(`Ascends`). Together they make the outline of an acyclic graph complete without repetition
(`isOutline_outline`): every node below the root is shown in full exactly once, where a depth-first
walk comes to it first, and every other way to it ends in a reference.
-/

namespace OpFusion.Dag

/-- The positions of the children taken on the way to an occurrence. -/
def Occurrence.address (o : Occurrence) : List Nat := o.path.map (·.position)

/-- The items that show their node in full. -/
def inFull (items : List Item) : List Item := items.filter (!·.isReference)

/-- The address is that of a child of a node shown in full, seen from where it is shown. -/
def IsBelow (children : Nat → List Nat) (items : List Item) (a : List Nat) : Prop :=
  ∃ item ∈ inFull items, ∃ i < (children item.id).length, a = item.address ++ [i]

/-- Every node below the root is shown in full once, at its first occurrence, and all other
occurrences that are met are references with nothing below them. -/
structure IsOutline (children : Nat → List Nat) (root : Nat) (items : List Item) : Prop where
  /-- Items stand in depth-first order, and no occurrence has two. -/
  ascending : (items.map (·.address)).Pairwise (· < ·)
  /-- An item shows the node at its address. -/
  located {item : Item} : item ∈ items → nodeAt? children root item.address = some item.id
  /-- The root has an item, and below each node that is shown in full there is one for each of its
  children. There are no others. -/
  mem_addresses_iff {a : List Nat} :
    a ∈ items.map (·.address) ↔ a = [] ∨ IsBelow children items a
  /-- Nothing is listed below a reference. -/
  childless {item other : Item} : item ∈ items → item.isReference = true → other ∈ items →
    item.address <+: other.address → other = item
  /-- A node is shown in full at the first of its occurrences, of all that the graph has. -/
  inFull_iff {item : Item} : item ∈ items → (item.isReference = false ↔
    ∀ a, nodeAt? children root a = some item.id → ¬ a < item.address)
  /-- No node is shown in full twice. -/
  nodup : ((inFull items).map (·.id)).Nodup
  /-- What lies below the root is shown in full, and nothing else. -/
  mem_shown_iff {id : Nat} : id ∈ (inFull items).map (·.id) ↔ Reaches children root id
  /-- There is one item for the root and one for each child of each node that the root reaches. -/
  length_eq : ∃ reached : Finset Nat, (∀ id, id ∈ reached ↔ Reaches children root id) ∧
    items.length = 1 + ∑ id ∈ reached, (children id).length

/-- Nodes are numbered as they are shown, and references give the number of an earlier item. -/
structure IsNumbered (items : List Item) : Prop where
  /-- The items in full are numbered from zero on, in their order. -/
  numbers : (inFull items).map (·.number) = List.range (inFull items).length
  /-- Before a reference its node is shown in full, under the number that the reference gives. -/
  earlier {before after : List Item} {item : Item} : items = before ++ item :: after →
    item.isReference = true →
      ∃ full ∈ inFull before, full.id = item.id ∧ full.number = item.number

variable {children : Nat → List Nat} {s s' : Sheet} {o : Occurrence} {todo rest : List Occurrence}
  {items : List Item} {item : Item} {depth root id : Nat} {a : List Nat}

theorem mem_inFull_iff : item ∈ inFull items ↔ item ∈ items ∧ item.isReference = false := by
  simp [inFull]

theorem inFull_snoc :
    inFull (items ++ [item]) = if item.isReference then inFull items else inFull items ++ [item] := by
  cases h : item.isReference <;> simp [inFull, h]

theorem Sheet.isReference_item : (s.item o).isReference = true ↔ o.id ∈ s.shown :=
  decide_eq_true_iff

theorem Sheet.mem_items_write :
    item ∈ (s.write (s.item o)).items ↔ item ∈ s.items ∨ item = s.item o := by
  simp [Sheet.write]

theorem Sheet.shown_write_of_mem (h : o.id ∈ s.shown) : (s.write (s.item o)).shown = s.shown :=
  if_pos (Sheet.isReference_item.2 h)

theorem Sheet.shown_write_of_notMem (h : o.id ∉ s.shown) :
    (s.write (s.item o)).shown = s.shown ++ [o.id] :=
  if_neg (mt Sheet.isReference_item.1 h)

theorem Sheet.inFull_write_of_mem (h : o.id ∈ s.shown) :
    inFull (s.write (s.item o)).items = inFull s.items :=
  inFull_snoc.trans (if_pos (Sheet.isReference_item.2 h))

theorem Sheet.inFull_write_of_notMem (h : o.id ∉ s.shown) :
    inFull (s.write (s.item o)).items = inFull s.items ++ [s.item o] :=
  inFull_snoc.trans (if_neg (mt Sheet.isReference_item.1 h))

/-! ## Writing line by line -/

/-- From one sheet, with some occurrences to come, the writing ends with another. -/
inductive Prints (children : Nat → List Nat) : Sheet → List Occurrence → Sheet → Prop
  | done {s : Sheet} : Prints children s [] s
  | line {s s' : Sheet} {o : Occurrence} {todo : List Occurrence} :
    Prints children (s.write (s.item o)) ((s.item o).below children ++ todo) s' →
      Prints children s (o :: todo) s'

/-- What each line preserves, the outline has in the end. -/
theorem Prints.preserves {P : Sheet → List Occurrence → Prop} (h : Prints children s todo s')
    (step : ∀ {s o todo}, P s (o :: todo) →
      P (s.write (s.item o)) ((s.item o).below children ++ todo)) (start : P s todo) : P s' [] := by
  induction h with
  | done => exact start
  | line _ ih => exact ih (step start)

theorem prints_foldl {f : Sheet → Occurrence → Sheet} {os : List Occurrence}
    (hf : ∀ o ∈ os, ∀ {s todo}, Prints children (f s o) todo s' → Prints children s (o :: todo) s')
    (h : Prints children (os.foldl f s) todo s') : Prints children s (os ++ todo) s' := by
  induction os generalizing s with
  | nil => exact h
  | cons o os ih =>
    exact hf o List.mem_cons_self (ih (fun x hx => hf x (List.mem_cons_of_mem _ hx)) h)

/-- Only below an item in full there is something, namely the children of its node. -/
theorem exists_of_mem_below (h : o ∈ item.below children) :
    item.isReference = false ∧
      ∃ i, (children item.id)[i]? = some o.id ∧ o.address = item.address ++ [i] := by
  unfold Item.below at h
  split at h
  · exact absurd h List.not_mem_nil
  · rename_i hfull
    obtain ⟨i, hi, rfl⟩ := List.mem_mapIdx.1 h
    exact ⟨Bool.eq_false_iff.2 hfull, i, List.getElem?_eq_getElem hi,
      by simp [Occurrence.address]⟩

/-- The addresses right below an item, in order. -/
theorem addresses_below : (item.below children).map (·.address) =
    if item.isReference then []
    else (List.range (children item.id).length).map fun i => item.address ++ [i] := by
  cases h : item.isReference
  · simp only [Item.below, h, Bool.false_eq_true, if_false]
    refine List.ext_getElem (by simp) fun i _ _ => ?_
    simp [Occurrence.address]
  · simp [Item.below, h]

theorem length_below :
    (item.below children).length = if item.isReference then 0 else (children item.id).length := by
  unfold Item.below
  split <;> simp

theorem isBelow_snoc : IsBelow children (items ++ [item]) a ↔
    IsBelow children items a ∨ a ∈ (item.below children).map (·.address) := by
  rw [IsBelow, inFull_snoc, addresses_below, IsBelow]
  split
  · simp
  · simp [or_and_right, exists_or, eq_comm]

/-- The recursion over the children comes to writing line by line. -/
theorem prints_outlineBelow (desc : DescendingFrom children o.id) (hdepth : o.id < depth)
    (h : Prints children (outlineBelow children depth s o) todo s') :
    Prints children s (o :: todo) s' := by
  induction depth generalizing o s todo with
  | zero => exact absurd hdepth (Nat.not_lt_zero _)
  | succ depth ih =>
    rw [outlineBelow] at h
    refine .line (prints_foldl (fun c hc s todo hrest => ?_) h)
    obtain ⟨_, i, hid, _⟩ := exists_of_mem_below hc
    have hmem : c.id ∈ children o.id := List.mem_of_getElem? hid
    have hlt : c.id < o.id := desc o.id .refl c.id hmem
    exact ih (desc.child hmem) (Nat.lt_of_lt_of_le hlt (Nat.le_of_lt_succ hdepth)) hrest

theorem prints_outline (desc : DescendingFrom children root) :
    Prints children .empty [⟨root, []⟩]
      (outlineBelow children (root + 1) .empty ⟨root, []⟩) :=
  prints_outlineBelow desc (Nat.lt_succ_self root) .done

/-! ## Numbers -/

/-- The nodes shown in full are kept in their order, and every item has the number of its node. -/
structure Sheet.Numbers (s : Sheet) : Prop where
  shown_eq : s.shown = (inFull s.items).map (·.id)
  nodup : s.shown.Nodup
  listed {item : Item} : item ∈ s.items → item.id ∈ s.shown
  number_eq {item : Item} : item ∈ s.items → item.number = s.shown.idxOf item.id
  earlier {before after : List Item} {item : Item} : s.items = before ++ item :: after →
    item.isReference = true → ∃ full ∈ inFull before, full.id = item.id

theorem Sheet.numbers_empty : Sheet.empty.Numbers where
  shown_eq := rfl
  nodup := .nil
  listed hitem := absurd hitem List.not_mem_nil
  number_eq hitem := absurd hitem List.not_mem_nil
  earlier hsplit := by simp [Sheet.empty] at hsplit

/-- A new reference refers to what was shown before. -/
theorem Sheet.Numbers.earlier_write (numbers : s.Numbers) {before after : List Item}
    (hsplit : (s.write (s.item o)).items = before ++ item :: after)
    (href : item.isReference = true) : ∃ full ∈ inFull before, full.id = item.id := by
  rcases List.eq_nil_or_concat after with rfl | ⟨middle, last, rfl⟩
  · obtain ⟨rfl, hlast⟩ := List.append_inj' hsplit rfl
    obtain rfl : s.item o = item := by simpa using hlast
    have hshown : o.id ∈ s.shown := Sheet.isReference_item.1 href
    rw [numbers.shown_eq] at hshown
    exact List.mem_map.1 hshown
  · rw [List.concat_eq_append, ← List.cons_append, ← List.append_assoc] at hsplit
    exact numbers.earlier (List.append_inj' hsplit rfl).1 href

theorem Sheet.Numbers.write (numbers : s.Numbers) : (s.write (s.item o)).Numbers := by
  by_cases hid : o.id ∈ s.shown
  · have hshown := Sheet.shown_write_of_mem hid
    refine ⟨?_, hshown ▸ numbers.nodup, fun hitem => ?_, fun hitem => ?_, numbers.earlier_write⟩
    · rw [hshown, Sheet.inFull_write_of_mem hid, numbers.shown_eq]
    · rw [hshown]
      rcases Sheet.mem_items_write.1 hitem with hitem | rfl
      · exact numbers.listed hitem
      · exact hid
    · rw [hshown]
      rcases Sheet.mem_items_write.1 hitem with hitem | rfl
      · exact numbers.number_eq hitem
      · rfl
  · have hshown := Sheet.shown_write_of_notMem hid
    refine ⟨?_, ?_, fun hitem => ?_, fun hitem => ?_, numbers.earlier_write⟩
    · rw [hshown, Sheet.inFull_write_of_notMem hid, List.map_append, numbers.shown_eq]
      rfl
    · rw [hshown]
      exact List.nodup_append_comm.1 (List.nodup_cons.2 ⟨hid, numbers.nodup⟩)
    · rw [hshown, List.mem_append]
      rcases Sheet.mem_items_write.1 hitem with hitem | rfl
      · exact .inl (numbers.listed hitem)
      · exact .inr (List.mem_singleton_self _)
    · rw [hshown]
      rcases Sheet.mem_items_write.1 hitem with hitem | rfl
      · rw [List.idxOf_append_of_mem (numbers.listed hitem)]
        exact numbers.number_eq hitem
      · show s.shown.idxOf o.id = (s.shown ++ [o.id]).idxOf o.id
        rw [List.idxOf_append_of_notMem hid, List.idxOf_eq_length hid, List.idxOf_cons_self,
          Nat.add_zero]

theorem map_idxOf_self {l : List Nat} (nodup : l.Nodup) :
    l.map (l.idxOf ·) = List.range l.length := by
  refine List.ext_getElem (by simp) fun i _ _ => ?_
  simp [nodup.idxOf_getElem]

theorem Sheet.Numbers.isNumbered (numbers : s.Numbers) : IsNumbered s.items := by
  refine ⟨?_, fun hsplit href => ?_⟩
  · calc (inFull s.items).map (·.number)
        = (inFull s.items).map fun item => s.shown.idxOf item.id :=
          List.map_congr_left fun item hitem => numbers.number_eq (mem_inFull_iff.1 hitem).1
      _ = s.shown.map (s.shown.idxOf ·) := by
          conv_rhs => arg 2; rw [numbers.shown_eq]
          rw [List.map_map]
          rfl
      _ = List.range (inFull s.items).length := by
          rw [map_idxOf_self numbers.nodup, numbers.shown_eq, List.length_map]
  · obtain ⟨full, hfull, hid⟩ := numbers.earlier hsplit href
    refine ⟨full, hfull, hid, ?_⟩
    have hmem : full ∈ s.items := hsplit ▸ List.mem_append_left _ (mem_inFull_iff.1 hfull).1
    rw [numbers.number_eq hmem, numbers.number_eq (hsplit ▸ by simp), hid]

/-! ## Occurrences -/

/-- What has a line or is to come: the root, and what is right below the nodes shown in full. -/
structure Unfolds (children : Nat → List Nat) (root : Nat) (s : Sheet) (todo : List Occurrence) :
    Prop where
  located_item {item : Item} : item ∈ s.items → nodeAt? children root item.address = some item.id
  located {o : Occurrence} : o ∈ todo → nodeAt? children root o.address = some o.id
  mem_iff {a : List Nat} : a ∈ s.items.map (·.address) ∨ a ∈ todo.map (·.address) ↔
    a = [] ∨ IsBelow children s.items a
  length_eq :
    s.items.length + todo.length = 1 + ∑ id ∈ s.shown.toFinset, (children id).length

theorem unfolds_root : Unfolds children root .empty [⟨root, []⟩] where
  located_item hitem := absurd hitem List.not_mem_nil
  located ho := by rw [List.mem_singleton.1 ho]; rfl
  mem_iff := by simp [Sheet.empty, inFull, Occurrence.address, IsBelow]
  length_eq := rfl

theorem Unfolds.write (unfolds : Unfolds children root s (o :: todo)) :
    Unfolds children root (s.write (s.item o)) ((s.item o).below children ++ todo) := by
  have here : nodeAt? children root o.address = some o.id := unfolds.located List.mem_cons_self
  refine ⟨fun hitem => ?_, fun ho => ?_, fun {a} => ?_, ?_⟩
  · rcases Sheet.mem_items_write.1 hitem with hitem | rfl
    · exact unfolds.located_item hitem
    · exact here
  · rcases List.mem_append.1 ho with ho | ho
    · obtain ⟨_, i, hc, haddress⟩ := exists_of_mem_below ho
      rw [haddress, ← hc]
      exact nodeAt?_snoc here
    · exact unfolds.located (List.mem_cons_of_mem _ ho)
  · have old : a ∈ s.items.map (·.address) ∨ a ∈ (o :: todo).map (·.address) ↔
        a = [] ∨ IsBelow children s.items a := unfolds.mem_iff
    show a ∈ (s.items ++ [s.item o]).map (·.address) ∨ _ ↔
      a = [] ∨ IsBelow children (s.items ++ [s.item o]) a
    rw [isBelow_snoc, ← or_assoc, ← old]
    simp only [List.map_append, List.map_cons, List.map_nil, List.mem_append, List.mem_cons,
      List.not_mem_nil, or_false, or_assoc]
    exact or_congr_right (or_congr_right or_comm)
  · have old := unfolds.length_eq
    rw [List.length_cons] at old
    show (s.items ++ [s.item o]).length + _ = _
    rw [List.length_append, List.length_append, List.length_singleton, length_below]
    by_cases hid : o.id ∈ s.shown
    · rw [Sheet.shown_write_of_mem hid, if_pos (Sheet.isReference_item.2 hid)]
      omega
    · have fresh : o.id ∉ s.shown.toFinset := mt List.mem_toFinset.1 hid
      have added : (s.shown ++ [o.id]).toFinset = insert o.id s.shown.toFinset := by
        ext x
        simp
      rw [Sheet.shown_write_of_notMem hid, if_neg (mt Sheet.isReference_item.1 hid), added,
        Finset.sum_insert fresh]
      show _ + 1 + ((children o.id).length + _) = _
      omega

/-! ## Order -/

/-- Items stand in order, what is to come forks off later, and neither mixes with the other. -/
structure Ascends (s : Sheet) (todo : List Occurrence) : Prop where
  written : (s.items.map (·.address)).Pairwise (· < ·)
  ahead : (todo.map (·.address)).Pairwise Forks
  behind {item : Item} {o : Occurrence} : item ∈ s.items → o ∈ todo → item.address < o.address

theorem ascends_root : Ascends .empty [⟨root, []⟩] where
  written := .nil
  ahead := List.pairwise_singleton _ _
  behind hitem := absurd hitem List.not_mem_nil

theorem Ascends.write (ascends : Ascends s (o :: todo)) :
    Ascends (s.write (s.item o)) ((s.item o).below children ++ todo) := by
  obtain ⟨first, later⟩ := List.pairwise_cons.1 ascends.ahead
  have after {x : Occurrence} (hx : x ∈ (s.item o).below children ++ todo) :
      o.address < x.address := by
    rcases List.mem_append.1 hx with hx | hx
    · obtain ⟨_, i, _, haddress⟩ := exists_of_mem_below hx
      rw [haddress]
      exact lt_append_cons
    · exact (first _ (List.mem_map_of_mem hx)).lt
  refine ⟨?_, ?_, fun {item x} hitem hx => ?_⟩
  · show ((s.items ++ [s.item o]).map (·.address)).Pairwise (· < ·)
    rw [List.map_append]
    refine List.pairwise_append.2 ⟨ascends.written, List.pairwise_singleton _ _, ?_⟩
    intro a ha b hb
    obtain ⟨item, hitem, rfl⟩ := List.mem_map.1 ha
    obtain rfl := List.mem_singleton.1 hb
    exact ascends.behind hitem List.mem_cons_self
  · rw [List.map_append]
    refine List.pairwise_append.2 ⟨?_, later, fun a ha b hb => ?_⟩
    · rw [addresses_below]
      split
      · exact .nil
      · exact List.pairwise_map.2 (List.pairwise_lt_range.imp forks_snoc)
    · obtain ⟨x, hx, rfl⟩ := List.mem_map.1 ha
      obtain ⟨_, i, _, haddress⟩ := exists_of_mem_below hx
      rw [haddress]
      exact (first b hb).append_left [i]
  · rcases Sheet.mem_items_write.1 hitem with hitem | rfl
    · exact List.lt_trans (ascends.behind hitem List.mem_cons_self) (after hx)
    · exact after hx

/-! ## The whole outline -/

section Whole

variable {full other : Item}

theorem Ascends.eq_of_address_eq (ascends : Ascends s todo) (hitem : item ∈ s.items)
    (hother : other ∈ s.items) (h : item.address = other.address) : item = other := by
  have nodup : (s.items.map (·.address)).Nodup := by
    refine List.Pairwise.imp ?_ ascends.written
    rintro a b hlt rfl
    exact List.lt_irrefl a hlt
  exact List.inj_on_of_nodup_map nodup hitem hother h

theorem Sheet.Numbers.eq_of_id_eq (numbers : s.Numbers) (hfull : full ∈ inFull s.items)
    (hother : other ∈ inFull s.items) (h : full.id = other.id) : full = other :=
  List.inj_on_of_nodup_map (numbers.shown_eq ▸ numbers.nodup) hfull hother h

/-- What has an item is shown in full there or at a smaller address. -/
theorem exists_full (numbers : s.Numbers) (ascends : Ascends s todo) (hitem : item ∈ s.items) :
    ∃ full ∈ inFull s.items, full.id = item.id ∧
      (full = item ∨ full.address < item.address) := by
  cases href : item.isReference
  · exact ⟨item, mem_inFull_iff.2 ⟨hitem, href⟩, rfl, .inl rfl⟩
  · obtain ⟨before, after, hsplit⟩ := List.append_of_mem hitem
    obtain ⟨full, hfull, hid⟩ := numbers.earlier hsplit href
    obtain ⟨hmem, hnot⟩ := mem_inFull_iff.1 hfull
    have written := ascends.written
    rw [hsplit, List.map_append] at written
    have hlt : full.address < item.address :=
      (List.pairwise_append.1 written).2.2 _ (List.mem_map_of_mem hmem) _
        (List.mem_map_of_mem List.mem_cons_self)
    exact ⟨full, mem_inFull_iff.2 ⟨hsplit ▸ List.mem_append_left _ hmem, hnot⟩, hid, .inr hlt⟩

/-- Below a node shown in full each child has an item. -/
theorem Unfolds.exists_child (unfolds : Unfolds children root s []) (hfull : full ∈ inFull s.items)
    {i c : Nat} (hc : (children full.id)[i]? = some c) :
    ∃ item ∈ s.items, item.address = full.address ++ [i] ∧ item.id = c := by
  have hi : i < (children full.id).length := (List.getElem?_eq_some_iff.1 hc).1
  have listed : full.address ++ [i] ∈ s.items.map (·.address) := by
    simpa using unfolds.mem_iff.2 (.inr ⟨full, hfull, i, hi, rfl⟩)
  obtain ⟨item, hitem, haddress⟩ := List.mem_map.1 listed
  have there := unfolds.located_item hitem
  rw [haddress, nodeAt?_snoc (unfolds.located_item (mem_inFull_iff.1 hfull).1), hc] at there
  exact ⟨item, hitem, haddress, (Option.some.inj there).symm⟩

theorem Unfolds.exists_root (unfolds : Unfolds children root s []) :
    ∃ item ∈ s.items, item.address = [] ∧ item.id = root := by
  have listed : [] ∈ s.items.map (·.address) := by simpa using unfolds.mem_iff.2 (.inl rfl)
  obtain ⟨item, hitem, haddress⟩ := List.mem_map.1 listed
  have there := unfolds.located_item hitem
  rw [haddress, nodeAt?_nil] at there
  exact ⟨item, hitem, haddress, (Option.some.inj there).symm⟩

/-- No way to a node comes before the one at which it is shown in full. The induction is along the
way, from an item on: at a reference it goes on from where the node is shown in full, which is at a
smaller address, and since the two addresses fork what follows cannot make up for that. -/
theorem comes_first (desc : DescendingFrom children root) (numbers : s.Numbers)
    (unfolds : Unfolds children root s []) (ascends : Ascends s []) (hfull : full ∈ inFull s.items)
    (hitem : item ∈ s.items) (h : nodeAt? children item.id a = some full.id) :
    full.address = item.address ++ a ∨ full.address < item.address ++ a := by
  induction a generalizing item with
  | nil =>
    obtain ⟨shown, hshown, hid, hle⟩ := exists_full numbers ascends hitem
    obtain rfl : shown = full :=
      numbers.eq_of_id_eq hshown hfull (hid.trans (Option.some.inj h))
    rw [List.append_nil]
    exact hle.imp_left fun heq => by rw [heq]
  | cons i a ih =>
    obtain ⟨c, hc, hrest⟩ := nodeAt?_cons_eq_some_iff.1 h
    obtain ⟨shown, hshown, hid, hle⟩ := exists_full numbers ascends hitem
    obtain ⟨child, hchild, haddress, rfl⟩ := unfolds.exists_child hshown (hid ▸ hc)
    have fromShown := ih hchild hrest
    rw [haddress, List.append_assoc, List.singleton_append] at fromShown
    rcases hle with rfl | hlt
    · exact fromShown
    · have here := unfolds.located_item (mem_inFull_iff.1 hshown).1
      have forks := desc.forks_of_lt (hid ▸ here) (unfolds.located_item hitem) hlt
      have further : shown.address ++ i :: a < item.address ++ i :: a := (forks.append _ _).lt
      rcases fromShown with heq | hless
      · exact .inr (heq ▸ further)
      · exact .inr (List.lt_trans hless further)

theorem childless_of_isReference (unfolds : Unfolds children root s []) (ascends : Ascends s [])
    (hitem : item ∈ s.items) (href : item.isReference = true) (hother : other ∈ s.items)
    (h : item.address <+: other.address) : other = item := by
  obtain ⟨rest, hrest⟩ := h
  induction rest using List.reverseRecOn generalizing other with
  | nil => exact (ascends.eq_of_address_eq hitem hother (by simpa using hrest)).symm
  | append_singleton rest i ih =>
    rw [← List.append_assoc] at hrest
    have listed := unfolds.mem_iff.1 (.inl (List.mem_map_of_mem hother))
    rcases listed with hnil | ⟨full, hfull, j, _, haddress⟩
    · exact absurd (hrest.trans hnil) (by simp)
    · -- What is right above would be below the reference as well, but is shown in full.
      obtain ⟨hmem, hnot⟩ := mem_inFull_iff.1 hfull
      have above : item.address ++ rest = full.address :=
        (List.append_inj' (hrest.trans haddress) rfl).1
      rw [ih hmem above, href] at hnot
      exact absurd hnot Bool.noConfusion

theorem mem_shown_iff (numbers : s.Numbers) (unfolds : Unfolds children root s []) :
    id ∈ s.shown ↔ Reaches children root id := by
  constructor
  · intro hid
    rw [numbers.shown_eq] at hid
    obtain ⟨full, hfull, rfl⟩ := List.mem_map.1 hid
    exact reaches_of_nodeAt? (unfolds.located_item (mem_inFull_iff.1 hfull).1)
  · intro reached
    induction reached with
    | refl =>
      obtain ⟨item, hitem, _, rfl⟩ := unfolds.exists_root
      exact numbers.listed hitem
    | tail _ hc ih =>
      rw [numbers.shown_eq] at ih
      obtain ⟨full, hfull, rfl⟩ := List.mem_map.1 ih
      obtain ⟨i, hi⟩ := List.getElem?_of_mem hc
      obtain ⟨item, hitem, _, rfl⟩ := unfolds.exists_child hfull hi
      exact numbers.listed hitem

end Whole

theorem isOutline_of_unfolds (desc : DescendingFrom children root) (numbers : s.Numbers)
    (unfolds : Unfolds children root s []) (ascends : Ascends s []) :
    IsOutline children root s.items where
  ascending := ascends.written
  located := unfolds.located_item
  mem_addresses_iff {a} := by simpa using unfolds.mem_iff (a := a)
  childless := childless_of_isReference unfolds ascends
  inFull_iff {item} hitem := by
    constructor
    · intro hnot a ha hlt
      obtain ⟨top, htop, haddress, hid⟩ := unfolds.exists_root
      have first := comes_first desc numbers unfolds ascends (mem_inFull_iff.2 ⟨hitem, hnot⟩) htop
        (hid ▸ ha)
      rw [haddress, List.nil_append] at first
      rcases first with heq | hless
      · exact List.lt_irrefl a (heq ▸ hlt)
      · exact List.lt_irrefl a (List.lt_trans hlt hless)
    · intro first
      obtain ⟨full, hfull, hid, hle⟩ := exists_full numbers ascends hitem
      obtain ⟨hmem, hnot⟩ := mem_inFull_iff.1 hfull
      rcases hle with rfl | hlt
      · exact hnot
      · exact absurd hlt (first _ (hid ▸ unfolds.located_item hmem))
  nodup := numbers.shown_eq ▸ numbers.nodup
  mem_shown_iff := numbers.shown_eq ▸ mem_shown_iff numbers unfolds
  length_eq := by
    refine ⟨s.shown.toFinset, fun id => ?_, by simpa using unfolds.length_eq⟩
    rw [List.mem_toFinset, mem_shown_iff numbers unfolds]

/-- Where children descend, the outline shows what lies below the root, completely and without
repetition, and numbers it. -/
theorem isOutline_outline (desc : DescendingFrom children root) :
    IsOutline children root (outline children root) ∧ IsNumbered (outline children root) := by
  have prints := prints_outline desc
  have numbers : Sheet.Numbers _ :=
    prints.preserves (P := fun s _ => s.Numbers) (fun h => h.write) Sheet.numbers_empty
  have unfolds := prints.preserves Unfolds.write unfolds_root
  have ascends := prints.preserves Ascends.write ascends_root
  exact ⟨isOutline_of_unfolds desc numbers unfolds ascends, numbers.isNumbered⟩

end OpFusion.Dag
