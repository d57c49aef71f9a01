import Mathlib.Data.List.Count
import Mathlib.Data.List.Range

/-! Going round `n` places: each pick is the place behind the one before. -/
namespace RoundRobin

variable {n : Nat} {l : List Nat}

def GoesRound (n : Nat) (l : List Nat) : Prop :=
  ∀ i j k, l[i]? = some j → l[i + 1]? = some k → k = (j + 1) % n

/-- No place is picked twice more often than another. -/
def Balanced (n : Nat) (l : List Nat) : Prop :=
  ∀ j k, j < n → k < n → l.count j ≤ l.count k + 1

/-- The first picks, from place 0 on. -/
def rounds (n N : Nat) : List Nat := (List.range N).map (· % n)

theorem rounds_succ (n N : Nat) : rounds n (N + 1) = rounds n N ++ [N % n] := by
  simp [rounds, List.range_succ]

/-- In every round the places that had their turn are one ahead. -/
theorem count_rounds (hn : 0 < n) (N : Nat) :
    ∃ full, ∀ k, k < n → (rounds n N).count k = full + if k < N % n then 1 else 0 := by
  induction N with
  | zero => exact ⟨0, fun k _ => by simp [rounds]⟩
  | succ N ih =>
    obtain ⟨full, hfull⟩ := ih
    have hlt : N % n < n := Nat.mod_lt N hn
    have hnext : (N + 1) % n = (N % n + 1) % n := (Nat.mod_add_mod N n 1).symm
    by_cases hlast : N % n + 1 = n
    · -- The last place of a round.
      rw [hlast, Nat.mod_self] at hnext
      refine ⟨full + 1, ?_⟩
      intro k hk
      rw [rounds_succ, List.count_append, hfull k hk, hnext, List.count_singleton]
      by_cases hk' : k < N % n
      · have hne : N % n ≠ k := by omega
        simp [hk', hne]
      · have heq : N % n = k := by omega
        simp [heq]
    · have hstep : (N + 1) % n = N % n + 1 := hnext.trans (Nat.mod_eq_of_lt (by omega))
      refine ⟨full, ?_⟩
      intro k hk
      rw [rounds_succ, List.count_append, hfull k hk, hstep, List.count_singleton]
      by_cases heq : N % n = k
      · simp [heq]
      · have hiff : k < N % n + 1 ↔ k < N % n := by omega
        simp [heq, hiff]

theorem rounds_balanced (hn : 0 < n) (N : Nat) : Balanced n (rounds n N) := by
  intro j k hj hk
  obtain ⟨full, hfull⟩ := count_rounds hn N
  rw [hfull j hj, hfull k hk]
  split <;> split <;> omega

/-- A list that goes round from place 0 is the list of the first picks. -/
theorem goesRound_eq (h : GoesRound n l) (h0 : ∀ j, l[0]? = some j → j = 0) :
    l = rounds n l.length := by
  have hat : ∀ i j, l[i]? = some j → j = i % n := by
    intro i
    induction i with
    | zero =>
      intro j hj
      rw [h0 j hj, Nat.zero_mod]
    | succ i ih =>
      intro k hk
      have hi : i < l.length := by
        have hlt := (List.getElem?_eq_some_iff.mp hk).1
        omega
      rw [h i _ k (List.getElem?_eq_getElem hi) hk, ih _ (List.getElem?_eq_getElem hi),
        Nat.mod_add_mod]
  apply List.ext_getElem?
  intro i
  by_cases hi : i < l.length
  · rw [List.getElem?_eq_getElem hi, hat i _ (List.getElem?_eq_getElem hi)]
    simp [rounds, hi]
  · rw [List.getElem?_eq_none (by omega), List.getElem?_eq_none (by simp [rounds]; omega)]

theorem balanced_of_goesRound (hn : 0 < n) (h : GoesRound n l)
    (h0 : ∀ j, l[0]? = some j → j = 0) : Balanced n l := by
  rw [goesRound_eq h h0]
  exact rounds_balanced hn l.length

end RoundRobin
