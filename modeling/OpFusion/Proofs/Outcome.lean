import Mathlib.Data.List.Forall2

/-!
# Computations that may fail

Planning and graph building are written with `Except`. How a computation in sequence with another
succeeds is read off its parts, and so is with which errors it may fail (`Ends`).
-/

namespace OpFusion

variable {ε α β : Type}

/-- A sequence succeeds when its first part does and the rest does on what the first part gives. -/
@[simp] theorem bind_eq_ok_iff {x : Except ε α} {f : α → Except ε β} {b : β} :
    (x >>= f) = .ok b ↔ ∃ a, x = .ok a ∧ f a = .ok b := by
  cases x <;> simp [bind, Except.bind]

@[simp] theorem ok_bind {a : α} {f : α → Except ε β} : (Except.ok a >>= f) = f a := rfl

@[simp] theorem pure_eq_ok_iff {a b : α} : (pure a : Except ε α) = .ok b ↔ a = b := by
  simp [pure, Except.pure]

/-- What each step of a successful fold keeps, the fold keeps. -/
theorem foldlM_preserves {P : α → Prop} {l : List β} {f : α → β → Except ε α} {a a' : α}
    (hf : ∀ b ∈ l, ∀ {a a'}, f a b = .ok a' → P a → P a') (hcall : l.foldlM f a = .ok a')
    (ha : P a) : P a' := by
  induction l generalizing a with
  | nil =>
    obtain rfl : a = a' := by simpa [pure, Except.pure] using hcall
    exact ha
  | cons b rest ih =>
    rw [List.foldlM_cons, bind_eq_ok_iff] at hcall
    obtain ⟨next, hfirst, hrest⟩ := hcall
    exact ih (fun c hc => hf c (List.mem_cons_of_mem _ hc)) hrest
      (hf b List.mem_cons_self hfirst ha)

/-- Folds with the same steps on what they fold over are the same. -/
theorem foldlM_congr {l : List β} {f f' : α → β → Except ε α}
    (hf : ∀ b ∈ l, ∀ a, f a b = f' a b) (a : α) : l.foldlM f a = l.foldlM f' a := by
  induction l generalizing a with
  | nil => rfl
  | cons b rest ih =>
    have hrest (a : α) := ih (fun c hc => hf c (List.mem_cons_of_mem _ hc)) a
    simp only [List.foldlM_cons, hf b List.mem_cons_self, hrest]

/-- Sequences are the same if they go on in the same way from what their first part gives. -/
theorem bind_congr_ok {x : Except ε α} {f f' : α → Except ε β} (hf : ∀ a, x = .ok a → f a = f' a) :
    (x >>= f) = x >>= f' := by
  cases x with
  | error e => rfl
  | ok a => exact hf a rfl

/-! ## Computations that correspond -/

section Correspond

variable {α' β' : Type}

/-- What follows the image of a result follows the result itself. -/
theorem map_bind {φ : α → α'} {x : Except ε α} {f : α' → Except ε β} :
    (x.map φ >>= f) = x >>= fun a => f (φ a) := by
  cases x <;> rfl

theorem bind_map_of {ψ : β → β'} {x : Except ε α} {f : α → Except ε β} {f' : α → Except ε β'}
    (h : ∀ a, x = .ok a → f' a = (f a).map ψ) : (x >>= f') = (x >>= f).map ψ := by
  cases x with
  | error e => rfl
  | ok a => exact h a rfl

/-- If the rest of a computation gives the image of what it gives elsewhere, so does the whole. -/
theorem map_bind_of {φ : α → α'} {ψ : β → β'} {x : Except ε α} {f : α → Except ε β}
    {f' : α' → Except ε β'} (h : ∀ a, x = .ok a → f' (φ a) = (f a).map ψ) :
    (x.map φ >>= f') = (x >>= f).map ψ := by
  rw [map_bind]
  exact bind_map_of h

/-- If each step of a fold gives the image of what it gives elsewhere, so does the fold. The steps
need to correspond only on what the fold comes by. -/
theorem foldlM_map_of {P : α → Prop} {φ : α → α'} {l : List β} {f : α → β → Except ε α}
    {f' : α' → β → Except ε α'} (hP : ∀ b ∈ l, ∀ {a a'}, f a b = .ok a' → P a → P a')
    (hf : ∀ b ∈ l, ∀ {a}, P a → f' (φ a) b = (f a b).map φ) :
    ∀ {a : α}, P a → l.foldlM f' (φ a) = (l.foldlM f a).map φ := by
  induction l with
  | nil => exact fun _ => rfl
  | cons b rest ih =>
    intro a ha
    rw [List.foldlM_cons, List.foldlM_cons, hf b List.mem_cons_self ha]
    refine map_bind_of fun a' hfirst => ?_
    exact ih (fun c hc => hP c (List.mem_cons_of_mem _ hc))
      (fun c hc => hf c (List.mem_cons_of_mem _ hc)) (hP b List.mem_cons_self hfirst ha)

end Correspond

/-- Elements are mapped one by one. -/
theorem mapM_eq_ok_iff {l : List α} {l' : List β} {f : α → Except ε β} :
    l.mapM f = .ok l' ↔ List.Forall₂ (fun a b => f a = .ok b) l l' := by
  induction l generalizing l' with
  | nil => simp [pure, Except.pure, eq_comm]
  | cons a rest ih =>
    simp only [List.mapM_cons, bind_eq_ok_iff, pure_eq_ok_iff, ih, List.forall₂_cons_left_iff,
      exists_and_left, eq_comm (b := l')]

/-- What some of the elements are mapped to is found beside them. -/
theorem mapM_filter {l : List α} {l' : List β} {f : α → Except ε β} (hl : l.mapM f = .ok l')
    (p : α → Bool) :
    (l.filter p).mapM f = .ok (((l.zip l').filter fun x => p x.1).map (·.2)) := by
  rw [mapM_eq_ok_iff] at hl ⊢
  induction hl with
  | nil => exact .nil
  | @cons a b rest rest' hab _ ih =>
    rw [List.filter_cons, List.zip_cons_cons, List.filter_cons]
    by_cases ha : p a = true
    · rw [if_pos ha, if_pos ha]
      exact .cons hab ih
    · rw [if_neg ha, if_neg ha]
      exact ih

/-- The computation gives a result or fails with one of the given errors. -/
def Ends (errors : ε → Prop) (x : Except ε α) : Prop :=
  (∃ a, x = .ok a) ∨ ∃ e, errors e ∧ x = .error e

theorem Ends.ok {errors : ε → Prop} (a : α) : Ends errors (.ok a : Except ε α) := .inl ⟨a, rfl⟩

theorem Ends.error {errors : ε → Prop} {e : ε} (he : errors e) :
    Ends errors (.error e : Except ε α) := .inr ⟨e, he, rfl⟩

theorem Ends.imp {errors errors' : ε → Prop} {x : Except ε α} (hx : Ends errors x)
    (h : ∀ e, errors e → errors' e) : Ends errors' x :=
  Or.imp_right (fun ⟨e, he, hx⟩ => ⟨e, h e he, hx⟩) hx

/-- A failure is with one of the given errors. -/
theorem Ends.of_error {errors : ε → Prop} {x : Except ε α} {e : ε} (hx : Ends errors x)
    (he : x = .error e) : errors e := by
  rcases hx with ⟨a, ha⟩ | ⟨e', he', hx⟩
  · rw [ha] at he
    simp at he
  · obtain rfl : e' = e := Except.error.inj (hx.symm.trans he)
    exact he'

/-- A sequence ends as its parts do, the second on what the first gives. -/
theorem Ends.bind {errors : ε → Prop} {x : Except ε α} {f : α → Except ε β} (hx : Ends errors x)
    (hf : ∀ a, x = .ok a → Ends errors (f a)) : Ends errors (x >>= f) := by
  rcases hx with ⟨a, ha⟩ | ⟨e, he, hx⟩
  · rw [ha, ok_bind]
    exact hf a ha
  · rw [hx]
    exact .error he

theorem Ends.foldlM {errors : ε → Prop} {l : List β} {f : α → β → Except ε α}
    (hf : ∀ b ∈ l, ∀ a, Ends errors (f a b)) (a : α) : Ends errors (l.foldlM f a) := by
  induction l generalizing a with
  | nil => exact .ok a
  | cons b rest ih =>
    rw [List.foldlM_cons]
    exact (hf b List.mem_cons_self a).bind fun a' _ =>
      ih (fun c hc => hf c (List.mem_cons_of_mem _ hc)) a'

end OpFusion
