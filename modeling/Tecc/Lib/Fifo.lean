import Mathlib.Data.List.ReduceOption
import Tecc.Lib.Transition

/-! The first-in first-out discipline, and systems that keep it. -/
namespace Fifo

open Transition

variable {α σ β : Type*} {l l' : List α} {x : α}

/-- What an event does to one queue. -/
inductive Event (α : Type*) where
  | push (x : α)
  | pop (x : α)
  | other

inductive Step : List α → Event α → List α → Prop
  | push {l : List α} {x : α} : Step l (.push x) (l ++ [x])
  | pop {l : List α} {x : α} : Step (x :: l) (.pop x) l
  | other {l : List α} : Step l .other l

/-- The items pushed, oldest first. -/
def pushed (f : β → Event α) (xs : List β) : List α :=
  xs.filterMap fun b => match f b with
    | .push x => some x
    | _ => none

/-- The items popped, oldest first. -/
def popped (f : β → Event α) (xs : List β) : List α :=
  xs.filterMap fun b => match f b with
    | .pop x => some x
    | _ => none

@[simp] theorem pushed_nil (f : β → Event α) : pushed f [] = [] := rfl

@[simp] theorem popped_nil (f : β → Event α) : popped f [] = [] := rfl

theorem pushed_append (f : β → Event α) (xs ys : List β) :
    pushed f (xs ++ ys) = pushed f xs ++ pushed f ys := List.filterMap_append

theorem popped_append (f : β → Event α) (xs ys : List β) :
    popped f (xs ++ ys) = popped f xs ++ popped f ys := List.filterMap_append

/-- One event keeps the balance of pushed, popped and queued items. -/
theorem step_balance {f : β → Event α} {xs : List β} {b : β} (h : Step l (f b) l')
    (hb : pushed f xs = popped f xs ++ l) :
    pushed f (xs ++ [b]) = popped f (xs ++ [b]) ++ l' := by
  rw [pushed_append, popped_append, hb]
  generalize hf : f b = e at h
  cases h <;> simp [pushed, popped, hf]

/-- A system whose events act on a view of its state as on a queue loses, repeats and reorders
nothing: what was popped and what is still queued make up what was pushed. -/
theorem history_balance {M : Lts σ β} (f : β → Event α) (R : σ → List α → Prop)
    (init : ∀ s, M.Init s → R s [])
    (step : ∀ s l b t, R s l → M.Step s b t → ∃ l', R t l' ∧ Step l (f b) l')
    {xs : List β} {s : σ} (h : M.History xs s) :
    ∃ l, R s l ∧ pushed f xs = popped f xs ++ l := by
  refine h.induction (P := fun xs s => ∃ l, R s l ∧ pushed f xs = popped f xs ++ l) ?_ ?_
  · intro s hs
    exact ⟨[], init s hs, rfl⟩
  · rintro xs s b t _ ⟨l, hR, hb⟩ hstep
    obtain ⟨l', hR', hl⟩ := step s l b t hR hstep
    exact ⟨l', hR', step_balance hl hb⟩

theorem popped_prefix {f : β → Event α} {xs : List β} (h : pushed f xs = popped f xs ++ l) :
    popped f xs <+: pushed f xs := ⟨l, h.symm⟩

/-- The items ahead of the first `none`, the sign to stop. -/
def before_null : List (Option α) → List α
  | [] => []
  | none :: _ => []
  | some x :: q => x :: before_null q

theorem before_null_append (l : List α) (q : List (Option α)) :
    before_null (l.map some ++ q) = l ++ before_null q := by
  induction l with
  | nil => rfl
  | cons x l ih => simp [before_null, ih]

theorem before_null_start (q : List (Option α)) : (before_null q).map some <+: q := by
  induction q with
  | nil => exact List.prefix_rfl
  | cons head q ih =>
    cases head with
    | none => exact List.nil_prefix
    | some x => exact List.prefix_cons_inj _ |>.mpr ih

theorem before_null_sublist (q : List (Option α)) :
    (before_null q).Sublist q.reduceOption := by
  induction q with
  | nil => exact List.Sublist.slnil
  | cons head q ih =>
    cases head with
    | none => exact List.nil_sublist _
    | some x => exact ih.cons_cons x

end Fifo
