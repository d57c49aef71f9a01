import Mathlib.Tactic.ByContra

/-! A mutex with a set of possible holders: it is taken by at most one of them. -/
namespace Lock

variable {ι : Type*} {holds holds' : ι → Prop} {lock lock' : Bool} {i j : ι}

/-- The lock is taken while somebody holds it, and nobody shares it. -/
structure Exclusive (holds : ι → Prop) (lock : Bool) : Prop where
  held : ∀ i, holds i → lock = true
  unique : ∀ i j, holds i → holds j → i = j

/-- What one step may do: nobody new holds the lock, or one holder takes it while it is free, or
one holder gives it back. -/
inductive Move (holds holds' : ι → Prop) (lock lock' : Bool) : Prop
  | same (sub : ∀ i, holds' i → holds i) (hl : lock' = lock)
  | take (i : ι) (others : ∀ j, j ≠ i → holds' j → holds j) (hl : lock = false)
      (hl' : lock' = true)
  | release (i : ι) (hi : holds i) (hi' : ¬ holds' i) (others : ∀ j, j ≠ i → holds' j → holds j)
      (hl' : lock' = false)

/-- Nobody holds more than before, `i` and the others apart. -/
theorem Move.stay (others : ∀ j, j ≠ i → holds' j → holds j) (hself : holds' i → holds i)
    (hl : lock' = lock) : Move holds holds' lock lock' := by
  refine .same ?_ hl
  intro j hj
  by_cases hji : j = i
  · subst hji
    exact hself hj
  · exact others j hji hj

theorem Exclusive.not_held (h : Exclusive holds false) : ¬ holds i := by
  intro hi
  cases h.held i hi

theorem Exclusive.move (h : Exclusive holds lock) (hm : Move holds holds' lock lock') :
    Exclusive holds' lock' := by
  cases hm with
  | same sub hl =>
    subst hl
    exact ⟨fun i hi => h.held i (sub i hi), fun i j hi hj => h.unique i j (sub i hi) (sub j hj)⟩
  | take k others hl hl' =>
    subst hl hl'
    have honly : ∀ j, holds' j → j = k := by
      intro j hj
      by_contra hne
      exact h.not_held (others j hne hj)
    exact ⟨fun _ _ => rfl, fun i j hi hj => (honly i hi).trans (honly j hj).symm⟩
  | release k hk hk' others hl' =>
    have hnone : ∀ j, ¬ holds' j := by
      intro j hj
      by_cases hne : j = k
      · exact hk' (hne ▸ hj)
      · exact hne (h.unique j k (others j hne hj) hk)
    exact ⟨fun i hi => (hnone i hi).elim, fun i _ hi => (hnone i hi).elim⟩

/-- What one group of holders does is a move of all, while nobody new of the other group holds. -/
theorem Move.inl {κ : Type*} {others others' : κ → Prop} (h : Move holds holds' lock lock')
    (hothers : ∀ k, others' k → others k) :
    Move (Sum.elim holds others) (Sum.elim holds' others') lock lock' := by
  cases h with
  | same sub hl =>
    refine .same ?_ hl
    rintro (i | k) hk
    · exact sub i hk
    · exact hothers k hk
  | take i hsub hl hl' =>
    refine .take (.inl i) ?_ hl hl'
    rintro (j | k) hne hk
    · exact hsub j (fun hj => hne (congrArg Sum.inl hj)) hk
    · exact hothers k hk
  | release i hi hi' hsub hl' =>
    refine .release (.inl i) hi hi' ?_ hl'
    rintro (j | k) hne hk
    · exact hsub j (fun hj => hne (congrArg Sum.inl hj)) hk
    · exact hothers k hk

theorem Move.inr {κ : Type*} {others others' : κ → Prop} (h : Move holds holds' lock lock')
    (hothers : ∀ k, others' k → others k) :
    Move (Sum.elim others holds) (Sum.elim others' holds') lock lock' := by
  cases h with
  | same sub hl =>
    refine .same ?_ hl
    rintro (k | i) hk
    · exact hothers k hk
    · exact sub i hk
  | take i hsub hl hl' =>
    refine .take (.inr i) ?_ hl hl'
    rintro (k | j) hne hk
    · exact hothers k hk
    · exact hsub j (fun hj => hne (congrArg Sum.inr hj)) hk
  | release i hi hi' hsub hl' =>
    refine .release (.inr i) hi hi' ?_ hl'
    rintro (k | j) hne hk
    · exact hothers k hk
    · exact hsub j (fun hj => hne (congrArg Sum.inr hj)) hk

end Lock
