import Mathlib.Data.List.Perm.Basic
import Mathlib.Data.List.Count

/-! The threads of tecc_threads.h. -/
namespace Tecc

/-- The threads that a worker or a service worker may start. -/
inductive Thread where
  | worker
  | service
  | exit
deriving DecidableEq, Repr

/-- A handle. Where `t` is not a thread it is whatever the memory of the handle held. -/
structure TecThread where
  result : Int
  t : Option Thread

/-- What `TecThread_init` and `TecThread_join` leave in `result`. -/
def TecThread_none : Int := 22

def TecThread_init (self : TecThread) : TecThread := { self with result := TecThread_none }

def TecThread_ok (self : TecThread) : Prop := self.result = 0

instance (self : TecThread) : Decidable (TecThread_ok self) :=
  inferInstanceAs (Decidable (self.result = 0))

/-- `result` is what `pthread_create` returns. -/
def TecThread_create (self : TecThread) (result : Int) (t : Thread) : TecThread :=
  { self with result := result, t := if result = 0 then some t else self.t }

/-- The handle afterwards, and what `pthread_join` is invoked on. -/
def TecThread_join (self : TecThread) : TecThread × Option (Option Thread) :=
  if TecThread_ok self then ({ self with result := TecThread_none }, some self.t)
  else (self, none)

theorem TecThread_join_ok {self : TecThread} (h : TecThread_ok self) :
    TecThread_join self = ({ self with result := TecThread_none }, some self.t) := if_pos h

theorem TecThread_join_none {self : TecThread} (h : ¬ TecThread_ok self) :
    TecThread_join self = (self, none) := if_neg h

/-- Between `TecThread_create` and `TecThread_join` the handle is in use, and there is one more
thread created than joined. -/
def TecThread.Balanced (self : TecThread) (t : Thread) (created joined : Nat) : Prop :=
  TecThread_ok self ∧ self.t = some t ∧ created = joined + 1 ∨
    ¬ TecThread_ok self ∧ created = joined

variable {self : TecThread} {t : Thread} {created joined : Nat}

theorem not_ok_of_none (h : self.result = TecThread_none) : ¬ TecThread_ok self := by
  rw [TecThread_ok, h]
  decide

theorem balanced_created (self : TecThread) (t : Thread) (joined : Nat) :
    (TecThread_create self 0 t).Balanced t (joined + 1) joined := .inl ⟨rfl, rfl, rfl⟩

theorem balanced_create_failed {result : Int} (self : TecThread) (t : Thread) (joined : Nat)
    (h : result ≠ 0) : (TecThread_create self result t).Balanced t joined joined :=
  .inr ⟨h, rfl⟩

/-- A join is a join of the thread that was created, or there is nothing to join. -/
theorem balanced_join (h : self.Balanced t created joined) :
    (TecThread_join self).2 = some (some t) ∧
        (TecThread_join self).1.Balanced t created (joined + 1) ∨
      (TecThread_join self).2 = none ∧ (TecThread_join self).1.Balanced t created joined := by
  rcases h with ⟨hok, ht, hcount⟩ | ⟨hok, hcount⟩
  · rw [TecThread_join_ok hok, ht]
    exact .inl ⟨rfl, .inr ⟨not_ok_of_none rfl, hcount⟩⟩
  · rw [TecThread_join_none hok]
    exact .inr ⟨rfl, .inr ⟨hok, hcount⟩⟩

/-- After `TecThread_join` the handle is not in use. -/
theorem TecThread_join_not_ok (self : TecThread) : ¬ TecThread_ok (TecThread_join self).1 := by
  by_cases hok : TecThread_ok self
  · rw [TecThread_join_ok hok]
    exact not_ok_of_none rfl
  · rw [TecThread_join_none hok]
    exact hok

/-- `pthread_join` is invoked once for each creation of a thread, and on nothing else. -/
def JoinedOnce (created : List Thread) (joined : List (Option Thread)) : Prop :=
  joined.Perm (created.map some)

theorem joinedOnce_iff {created : List Thread} {joined : List (Option Thread)} :
    JoinedOnce created joined ↔ none ∉ joined ∧ ∀ t, joined.count (some t) = created.count t := by
  have hsome : ∀ t, (created.map some).count (some t) = created.count t := fun t =>
    List.count_map_of_injective created some (fun _ _ => Option.some.inj) t
  constructor
  · intro h
    refine ⟨fun hm => ?_, fun t => (h.count_eq (some t)).trans (hsome t)⟩
    obtain ⟨t, _, ht⟩ := List.mem_map.mp (h.subset hm)
    cases ht
  · rintro ⟨hnone, hcount⟩
    refine List.perm_iff_count.mpr ?_
    rintro (_ | t)
    · rw [List.count_eq_zero_of_not_mem hnone, List.count_eq_zero_of_not_mem]
      intro hm
      obtain ⟨t, _, ht⟩ := List.mem_map.mp hm
      cases ht
    · exact (hcount t).trans (hsome t).symm

end Tecc
