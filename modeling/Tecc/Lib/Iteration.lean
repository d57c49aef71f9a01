import Mathlib.Data.List.Basic
import Tecc.Lib.Object

/-! Going through a list one item at a time, with the possibility to begin again. -/
namespace Iteration

variable {α : Type*} {order rest : List α}

inductive Call where
  | next
  | rewind
deriving DecidableEq, Repr

/-- One call: `rest` are the items that are still to come, and nothing comes after the last. -/
def step (order rest : List α) : Call → List α × Option α
  | .next => (rest.tail, rest.head?)
  | .rewind => (order.tail, order.head?)

/-- What `n` calls return that go through `items`. -/
def answers (items : List α) (n : Nat) : List (Option α) :=
  (items.map some ++ List.replicate n none).take n

theorem answers_succ (items : List α) (n : Nat) :
    answers items (n + 1) = items.head? :: answers items.tail n := by
  cases items with
  | nil => simp [answers, List.replicate_succ]
  | cons a items =>
    simp only [answers, List.map_cons, List.cons_append, List.take_succ_cons, List.head?_cons,
      List.tail_cons, List.cons.injEq, true_and]
    rw [List.replicate_succ', ← List.append_assoc, List.take_append_of_le_length]
    simp

/-- Every item comes once and in order, and then nothing. -/
theorem specRun_next (order rest : List α) (n : Nat) :
    (Object.specRun (step order) rest (List.replicate n .next)).2 = answers rest n := by
  induction n generalizing rest with
  | zero => simp [Object.specRun, answers]
  | succ n ih =>
    rw [answers_succ, ← ih rest.tail]
    rfl

/-- After a rewind the same items come again, whatever was called before. -/
theorem specRun_rewind (order rest : List α) (calls : List Call) (n : Nat) :
    (Object.specRun (step order) rest (calls ++ .rewind :: List.replicate n .next)).2 =
      (Object.specRun (step order) rest calls).2 ++ answers order (n + 1) := by
  rw [Object.specRun_append, answers_succ, ← specRun_next order order.tail n]
  rfl

end Iteration
