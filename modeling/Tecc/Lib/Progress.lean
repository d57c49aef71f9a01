import Tecc.Lib.Transition

/-! Progress by one actor: what its next steps bring about, whatever the others do in between. -/
namespace Transition

variable {σ α : Type*} {M : Lts σ α} {A : α → Bool} {G P : σ → Prop} {s t : σ} {xs : List α}
  {a : α}

/-- From `s` on, `k` steps of the actor `A` bring about `G`, and until then it can take one. -/
def Lts.Ensures (M : Lts σ α) (A : α → Bool) (G : σ → Prop) (k : Nat) (s : σ) : Prop :=
  ∀ xs t, M.Run s xs t → (k ≤ xs.countP A → G t) ∧ (G t ∨ ∃ a u, A a = true ∧ M.Step t a u)


/-- What remains to do for the actor while `G` does not hold: each of its steps makes the rank
smaller, and nobody makes it greater. -/
structure Lts.Ranking (M : Lts σ α) (A : α → Bool) (G P : σ → Prop) (rank : σ → Nat) :
    Prop where
  stable : ∀ s a t, G s → M.Step s a t → G t
  enabled : ∀ s, P s → ¬ G s → ∃ a t, A a = true ∧ M.Step s a t
  actor : ∀ s a t, P s → ¬ G s → M.Step s a t → A a = true → G t ∨ P t ∧ rank t < rank s
  other : ∀ s a t, P s → ¬ G s → M.Step s a t → A a = false → G t ∨ P t ∧ rank t ≤ rank s

variable {rank : σ → Nat}

theorem Lts.Ranking.run (h : M.Ranking A G P rank) (hrun : M.Run s xs t) (hP : P s) :
    G t ∨ P t ∧ rank t + xs.countP A ≤ rank s := by
  induction hrun with
  | refl => exact .inr ⟨hP, Nat.le_refl _⟩
  | @snoc t u xs a _ hstep ih =>
    by_cases hG : G t
    · exact .inl (h.stable t a u hG hstep)
    · obtain ⟨hPt, hle⟩ := ih.resolve_left hG
      cases ha : A a with
      | true =>
        refine (h.actor t a u hPt hG hstep ha).imp id ?_
        rintro ⟨hPu, hlt⟩
        refine ⟨hPu, ?_⟩
        rw [List.countP_append, List.countP_singleton, if_pos ha]
        omega
      | false =>
        refine (h.other t a u hPt hG hstep ha).imp id ?_
        rintro ⟨hPu, hle'⟩
        refine ⟨hPu, ?_⟩
        rw [List.countP_append, List.countP_singleton, if_neg (by simp [ha])]
        omega

/-- A goal that stays is brought about when it holds. -/
theorem Lts.Ensures.of_goal (stable : ∀ s a t, G s → M.Step s a t → G t) (hG : G s) (k : Nat) :
    M.Ensures A G k s := by
  intro xs t hrun
  have hgoal := hrun.stable stable hG
  exact ⟨fun _ => hgoal, .inl hgoal⟩

/-- The ranking rule. -/
theorem Lts.Ranking.ensures (h : M.Ranking A G P rank) (hP : P s) {k : Nat} (hk : rank s < k) :
    M.Ensures A G k s := by
  intro xs t hrun
  refine ⟨fun hcount => ?_, ?_⟩
  · refine (h.run hrun hP).resolve_right ?_
    rintro ⟨_, hle⟩
    omega
  · by_cases hG : G t
    · exact .inl hG
    · obtain ⟨hPt, _⟩ := (h.run hrun hP).resolve_left hG
      exact .inr (h.enabled t hPt hG)

end Transition
