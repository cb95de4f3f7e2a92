import Mathlib.Data.List.Basic

/-!
# What the last element decides

A fold in which some elements bring a property about, some end it and the others leave it alone
has the property at the end if an element that brings it about is not followed by one that ends it.
One in which some elements copy a property into another has the copy that the last of them made.
-/
namespace Library

variable {σ α : Type*}

/-- Some element that sets is not followed by one that clears. -/
def LastSets (Sets Clears : α → Prop) (xs : List α) : Prop :=
  ∃ front a back, xs = front ++ a :: back ∧ Sets a ∧ ∀ b ∈ back, ¬ Clears b

theorem not_lastSets_nil (Sets Clears : α → Prop) : ¬ LastSets Sets Clears [] := by
  rintro ⟨front, a, back, h, -⟩
  cases front <;> cases h

theorem lastSets_cons {Sets Clears : α → Prop} {x : α} {xs : List α} :
    LastSets Sets Clears (x :: xs) ↔
      LastSets Sets Clears xs ∨ Sets x ∧ ∀ b ∈ xs, ¬ Clears b := by
  constructor
  · rintro ⟨front, a, back, h, hset, hback⟩
    cases front with
    | nil =>
      cases h
      exact .inr ⟨hset, hback⟩
    | cons y front =>
      cases h
      exact .inl ⟨front, a, back, rfl, hset, hback⟩
  · rintro (⟨front, a, back, rfl, hset, hback⟩ | ⟨hset, hxs⟩)
    · exact ⟨x :: front, a, back, rfl, hset, hback⟩
    · exact ⟨[], x, xs, rfl, hset, hxs⟩

/-- The elements decide, and where none of them does, the state before them. -/
theorem foldl_iff_lastSets {step : σ → α → σ} {P : σ → Prop} {Sets Clears : α → Prop}
    (hset : ∀ s a, Sets a → P (step s a)) (hclear : ∀ s a, Clears a → ¬ P (step s a))
    (hkeep : ∀ s a, ¬ Sets a → ¬ Clears a → (P (step s a) ↔ P s)) (xs : List α) (s : σ) :
    P (xs.foldl step s) ↔ LastSets Sets Clears xs ∨ P s ∧ ∀ b ∈ xs, ¬ Clears b := by
  induction xs generalizing s with
  | nil =>
    have hnil := not_lastSets_nil Sets Clears
    constructor
    · intro h
      exact .inr ⟨h, fun b hb => absurd hb List.not_mem_nil⟩
    · rintro (h | ⟨h, -⟩)
      · exact absurd h hnil
      · exact h
  | cons x xs ih =>
    rw [List.foldl_cons, ih, lastSets_cons, List.forall_mem_cons]
    have hs := hset s x
    have hc := hclear s x
    have hk := hkeep s x
    grind

/-- The last element that copies decides, and where none does, the state before them. -/
theorem foldl_iff_copied {step : σ → α → σ} {P Q : σ → Prop} {Copies : α → Prop}
    (hcopy : ∀ s a, Copies a → (Q (step s a) ↔ P s))
    (hkeep : ∀ s a, ¬ Copies a → (Q (step s a) ↔ Q s)) (xs : List α) (s : σ) :
    Q (xs.foldl step s) ↔
      (∃ front a back, xs = front ++ a :: back ∧ Copies a ∧ (∀ b ∈ back, ¬ Copies b) ∧
        P (front.foldl step s)) ∨ Q s ∧ ∀ b ∈ xs, ¬ Copies b := by
  induction xs generalizing s with
  | nil => simp
  | cons x xs ih =>
    rw [List.foldl_cons, ih, List.forall_mem_cons]
    constructor
    · rintro (⟨front, a, back, rfl, ha, hback, hP⟩ | ⟨hQ, hxs⟩)
      · exact .inl ⟨x :: front, a, back, rfl, ha, hback, hP⟩
      · by_cases hx : Copies x
        · exact .inl ⟨[], x, xs, rfl, hx, hxs, (hcopy s x hx).mp hQ⟩
        · exact .inr ⟨(hkeep s x hx).mp hQ, hx, hxs⟩
    · rintro (⟨front, a, back, h, ha, hback, hP⟩ | ⟨hQ, hx, hxs⟩)
      · cases front with
        | nil =>
          cases h
          exact .inr ⟨(hcopy s _ ha).mpr hP, hback⟩
        | cons y front =>
          cases h
          exact .inl ⟨front, a, back, rfl, ha, hback, hP⟩
      · exact .inr ⟨(hkeep s x hx).mpr hQ, hxs⟩

end Library
