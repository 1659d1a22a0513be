import Mathlib.Data.List.Nodup
import Mathlib.Logic.Relation
import OpFusion.Dag.PostOrder

/-!
# Reachability and depth-first order

`Reaches` says which nodes lie below a node, and `ChildrenFirst` which lists put the children of
each node before it. Where children descend, `postOrder` lists exactly what the roots reach, each
node once and after its children (`childrenFirst_postOrder`, `mem_postOrder`).
-/

namespace OpFusion.Dag

variable {children : Nat → List Nat}

/-- Every child has a smaller number than the node it belongs to. -/
def Descending (children : Nat → List Nat) : Prop := ∀ id, ∀ c ∈ children id, c < id

/-- `id` lies below `root` or is `root` itself. -/
def Reaches (children : Nat → List Nat) (root id : Nat) : Prop :=
  Relation.ReflTransGen (fun a b => b ∈ children a) root id

/-- `id` lies below one of the roots or is one of them. -/
def ReachedFrom (children : Nat → List Nat) (roots : List Nat) (id : Nat) : Prop :=
  ∃ root ∈ roots, Reaches children root id

/-- A list of distinct nodes in which the children of a node come before it. -/
inductive ChildrenFirst (children : Nat → List Nat) : List Nat → Prop
  | nil : ChildrenFirst children []
  | snoc {done : List Nat} {id : Nat} : ChildrenFirst children done → id ∉ done →
      (∀ c ∈ children id, c ∈ done) → ChildrenFirst children (done ++ [id])

/-- Children descend at `root` and at whatever lies below it. -/
def DescendingFrom (children : Nat → List Nat) (root : Nat) : Prop :=
  ∀ id, Reaches children root id → ∀ c ∈ children id, c < id

theorem Descending.descendingFrom (desc : Descending children) (root : Nat) :
    DescendingFrom children root := fun id _ => desc id

theorem DescendingFrom.child {root c : Nat} (desc : DescendingFrom children root)
    (hc : c ∈ children root) : DescendingFrom children c := fun id h => desc id (.head hc h)

theorem DescendingFrom.le {root id : Nat} (desc : DescendingFrom children root)
    (h : Reaches children root id) : id ≤ root := by
  induction h with
  | refl => exact Nat.le_refl _
  | tail hb hc ih => exact Nat.le_trans (Nat.le_of_lt (desc _ hb _ hc)) ih

/-- What lies below a node has no larger number. -/
theorem Reaches.le (desc : Descending children) {root id : Nat}
    (h : Reaches children root id) : id ≤ root := (desc.descendingFrom root).le h

/-- What lies below a node is the node itself or lies below one of its children. -/
theorem reaches_iff_child {root id : Nat} :
    Reaches children root id ↔ id = root ∨ ∃ c ∈ children root, Reaches children c id := by
  constructor
  · intro h
    rcases Relation.ReflTransGen.cases_head h with rfl | ⟨c, hc, hrest⟩
    · exact .inl rfl
    · exact .inr ⟨c, hc, hrest⟩
  · rintro (rfl | ⟨c, hc, hrest⟩)
    · exact .refl
    · exact .head hc hrest

/-- A list that puts children first holds whatever lies below its members. -/
theorem ChildrenFirst.closed {done : List Nat} (hdone : ChildrenFirst children done) {a b : Nat}
    (ha : a ∈ done) (h : Reaches children a b) : b ∈ done := by
  have child : ∀ a ∈ done, ∀ c ∈ children a, c ∈ done := by
    clear h ha
    induction hdone with
    | nil => simp
    | snoc _ _ hbelow ih =>
      intro a ha c hc
      rcases List.mem_append.1 ha with ha | ha
      · exact List.mem_append_left _ (ih a ha c hc)
      · rw [List.mem_singleton.1 ha] at hc
        exact List.mem_append_left _ (hbelow c hc)
  induction h with
  | refl => exact ha
  | tail _ hc ih => exact child _ ih _ hc

theorem ChildrenFirst.nodup {done : List Nat} (hdone : ChildrenFirst children done) :
    done.Nodup := by
  induction hdone with
  | nil => exact List.nodup_nil
  | snoc _ hnew _ ih =>
    exact List.nodup_append_comm.1 (List.nodup_cons.2 ⟨hnew, ih⟩)

/-- In a list that puts children first, those of a node stand before it. -/
theorem ChildrenFirst.mem_before {done before after : List Nat} {id : Nat}
    (hdone : ChildrenFirst children done) (hsplit : done = before ++ id :: after) :
    ∀ c ∈ children id, c ∈ before := by
  induction hdone generalizing after with
  | nil => simp at hsplit
  | @snoc done last _ _ hbelow ih =>
    rcases List.eq_nil_or_concat after with rfl | ⟨middle, x, rfl⟩
    · obtain ⟨rfl, hlast⟩ := List.append_inj' hsplit rfl
      obtain rfl : last = id := by simpa using hlast
      exact hbelow
    · rw [List.concat_eq_append, ← List.cons_append, ← List.append_assoc] at hsplit
      exact ih (List.append_inj' hsplit rfl).1

/-- One visit appends what lies below a node and is not listed yet, children first. -/
def Visits (children : Nat → List Nat) (f : List Nat → Nat → List Nat) (id : Nat) : Prop :=
  ∀ done, ChildrenFirst children done → ChildrenFirst children (f done id) ∧
    ∀ x, x ∈ f done id ↔ x ∈ done ∨ Reaches children id x

/-- Visiting several nodes in turn appends what lies below any of them. -/
theorem foldl_visits {f : List Nat → Nat → List Nat} {ids : List Nat}
    (hf : ∀ id ∈ ids, Visits children f id) {done : List Nat}
    (hdone : ChildrenFirst children done) :
    ChildrenFirst children (ids.foldl f done) ∧
      ∀ x, x ∈ ids.foldl f done ↔ x ∈ done ∨ ReachedFrom children ids x := by
  induction ids generalizing done with
  | nil => simpa [ReachedFrom] using hdone
  | cons id rest ih =>
    obtain ⟨hfirst, hmem⟩ := hf id List.mem_cons_self done hdone
    obtain ⟨hrest, hmem'⟩ := ih (fun c hc => hf c (List.mem_cons_of_mem _ hc)) hfirst
    refine ⟨hrest, fun x => ?_⟩
    rw [List.foldl_cons, hmem', hmem, or_assoc]
    simp [ReachedFrom]

/-- A visit that may go deep enough appends what lies below its node. -/
theorem visit_visits {depth id : Nat} (desc : DescendingFrom children id) (hdepth : id < depth) :
    Visits children (visit children depth) id := by
  induction depth generalizing id with
  | zero => omega
  | succ depth ih =>
    intro done hdone
    simp only [visit]
    split
    · rename_i hmem
      refine ⟨hdone, fun x => ⟨.inl, ?_⟩⟩
      rintro (hx | hx)
      · exact hx
      · exact hdone.closed hmem hx
    · rename_i hnew
      have below : ∀ c ∈ children id, Visits children (visit children depth) c := by
        intro c hc
        have hlt : c < id := desc id .refl c hc
        exact ih (desc.child hc) (by omega)
      obtain ⟨hfirst, hmem⟩ := foldl_visits below hdone
      have hid : id ∉ (children id).foldl (visit children depth) done := by
        rw [hmem]
        rintro (h | ⟨c, hc, h⟩)
        · exact hnew h
        · have hle : id ≤ c := (desc.child hc).le h
          have hlt : c < id := desc id .refl c hc
          omega
      refine ⟨.snoc hfirst hid fun c hc => (hmem c).2 (.inr ⟨c, hc, .refl⟩), fun x => ?_⟩
      rw [List.mem_append, hmem, List.mem_singleton, reaches_iff_child, or_assoc, ReachedFrom]
      exact or_congr_right or_comm

/-- The depth-first order puts children first and lists exactly what the roots reach, if children
descend there. -/
theorem postOrder_spec {roots : List Nat} (desc : ∀ root ∈ roots, DescendingFrom children root) :
    ChildrenFirst children (postOrder children roots) ∧
      ∀ id, id ∈ postOrder children roots ↔ ReachedFrom children roots id := by
  have visits : ∀ root ∈ roots,
      Visits children (fun done root => visit children (root + 1) done root) root :=
    fun root hroot done hdone => visit_visits (desc root hroot) (Nat.lt_succ_self root) done hdone
  obtain ⟨first, mem⟩ := foldl_visits visits .nil
  exact ⟨first, fun id => by rw [postOrder, mem]; simp⟩

/-- The depth-first order puts children first. -/
theorem childrenFirst_postOrder (desc : Descending children) (roots : List Nat) :
    ChildrenFirst children (postOrder children roots) :=
  (postOrder_spec fun root _ => desc.descendingFrom root).1

/-- The depth-first order lists exactly what the roots reach. -/
theorem mem_postOrder (desc : Descending children) {roots : List Nat} {id : Nat} :
    id ∈ postOrder children roots ↔ ReachedFrom children roots id :=
  (postOrder_spec fun root _ => desc.descendingFrom root).2 id

end OpFusion.Dag
