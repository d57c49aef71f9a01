import Mathlib.Data.Set.Card

/-! Counting with individuals: a number of items, and at least as many individuals that answer
for them. -/
namespace Cover

variable {ι : Type*} {due due' : ι → Prop} {n : ℕ} {i j : ι}

/-- At least `n` individuals are due. -/
def Covered (n : ℕ) (due : ι → Prop) : Prop := (n : ℕ∞) ≤ {i | due i}.encard

theorem Covered.zero (due : ι → Prop) : Covered 0 due := by simp [Covered]

theorem Covered.mono (h : Covered n due) (hsub : ∀ i, due i → due' i) : Covered n due' :=
  le_trans h (Set.encard_le_encard hsub)

/-- A new item comes with a new individual. -/
theorem Covered.gain (h : Covered n due) (hi : ¬ due i) (hi' : due' i)
    (hsub : ∀ j, due j → due' j) : Covered (n + 1) due' := by
  have hinsert : insert i {j | due j} ⊆ {j | due' j} :=
    Set.insert_subset hi' (fun j hj => hsub j hj)
  have hcard : (insert i {j | due j}).encard = {j | due j}.encard + 1 :=
    Set.encard_insert_of_notMem hi
  calc ((n + 1 : ℕ) : ℕ∞) = (n : ℕ∞) + 1 := by push_cast; rfl
    _ ≤ {j | due j}.encard + 1 := add_le_add_left h 1
    _ = (insert i {j | due j}).encard := hcard.symm
    _ ≤ {j | due' j}.encard := Set.encard_le_encard hinsert

/-- An item goes together with one individual. -/
theorem Covered.spend (h : Covered (n + 1) due) (hsub : ∀ j, j ≠ i → due j → due' j) :
    Covered n due' := by
  have hinsert : {j | due j} ⊆ insert i {j | due' j} := by
    intro j hj
    by_cases hji : j = i
    · exact Or.inl hji
    · exact Or.inr (hsub j hji hj)
  have hcard : ((n : ℕ∞) + 1) ≤ {j | due' j}.encard + 1 := by
    calc (n : ℕ∞) + 1 = ((n + 1 : ℕ) : ℕ∞) := by push_cast; rfl
      _ ≤ {j | due j}.encard := h
      _ ≤ (insert i {j | due' j}).encard := Set.encard_le_encard hinsert
      _ ≤ {j | due' j}.encard + 1 := Set.encard_insert_le _ _
  exact (ENat.add_le_add_iff_right ENat.one_ne_top).mp hcard

/-- One individual hands its item to another that had none. -/
theorem Covered.pass (h : Covered n due) (hj : ¬ due j) (hj' : due' j)
    (hsub : ∀ k, k ≠ i → due k → due' k) : Covered n due' := by
  have hgain : Covered (n + 1) (fun k => due k ∨ k = j) :=
    h.gain hj (Or.inr rfl) (fun _ => Or.inl)
  refine hgain.spend (i := i) ?_
  rintro k hk (hdue | rfl)
  · exact hsub k hk hdue
  · exact hj'

theorem Covered.exists_due (h : Covered n due) (hn : n ≠ 0) : ∃ i, due i := by
  have hpos : {i | due i}.encard ≠ 0 := by
    intro hzero
    rw [Covered, hzero] at h
    exact hn (by simpa using h)
  exact Set.encard_ne_zero.mp hpos

end Cover
