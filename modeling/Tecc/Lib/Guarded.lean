import Tecc.Lib.Transition
import Mathlib.Logic.Function.Basic

/-! Threads that work on a shared state under one lock. Whatever their interleaving, the state is as
if one section ran after the other, in the order in which they take the lock. -/
namespace Guarded

open Transition

/-- What a thread with the local state `L` does outside of the lock, on taking it, under it and on
giving it back. The lock is not looked at in between. -/
structure Program (L σ : Type*) where
  Inside : L → Prop
  Enter : L → L → Prop
  Inner : L → σ → L → σ → Prop
  Leave : L → L → Prop
  Outer : L → L → Prop
  enter : ∀ {l l'}, Enter l l' → ¬ Inside l ∧ Inside l'
  inner : ∀ {l x l' x'}, Inner l x l' x' → Inside l ∧ Inside l'
  leave : ∀ {l l'}, Leave l l' → Inside l ∧ ¬ Inside l'
  outer : ∀ {l l'}, Outer l l' → ¬ Inside l ∧ ¬ Inside l'

variable {T L σ : Type*} [DecidableEq T]

/-- `mtx` is the thread that holds the lock. -/
structure State (T L σ : Type*) where
  mtx : Option T
  loc : T → L
  shared : σ

/-- A thread takes the lock with what it has then, and leaves it with what it has behind it. -/
inductive Event (T L : Type*) where
  | lock (t : T) (l : L)
  | unlock (t : T) (l : L)
  | other (t : T)

inductive Step (P : Program L σ) : State T L σ → Event T L → State T L σ → Prop
  | lock {s : State T L σ} {t : T} {l : L} (hm : s.mtx = none) (h : P.Enter (s.loc t) l) :
      Step P s (.lock t (s.loc t)) ⟨some t, Function.update s.loc t l, s.shared⟩
  | inner {s : State T L σ} {t : T} {l : L} {x : σ} (h : P.Inner (s.loc t) s.shared l x) :
      Step P s (.other t) ⟨s.mtx, Function.update s.loc t l, x⟩
  | unlock {s : State T L σ} {t : T} {l : L} (h : P.Leave (s.loc t) l) :
      Step P s (.unlock t l) ⟨none, Function.update s.loc t l, s.shared⟩
  | outer {s : State T L σ} {t : T} {l : L} (h : P.Outer (s.loc t) l) :
      Step P s (.other t) ⟨s.mtx, Function.update s.loc t l, s.shared⟩

/-- The lock is free, and every thread is where `Start` says, outside of it. -/
def guardedLts (P : Program L σ) (Start : T → L → Prop) (Shared : σ → Prop) :
    Lts (State T L σ) (Event T L) where
  Init s := s.mtx = none ∧ (∀ t, Start t (s.loc t) ∧ ¬ P.Inside (s.loc t)) ∧ Shared s.shared
  Step := Step P

def Event.locked? : Event T L → Option (T × L)
  | .lock t l => some (t, l)
  | _ => none

def Event.unlocked? : Event T L → Option (T × L)
  | .unlock t l => some (t, l)
  | _ => none

/-- What a thread does under the lock. -/
inductive Program.Runs (P : Program L σ) : L → σ → L → σ → Prop
  | refl {l : L} {x : σ} : Runs P l x l x
  | snoc {l l' l'' : L} {x x' x'' : σ} (h : Runs P l x l' x') (k : P.Inner l' x' l'' x'') :
      Runs P l x l'' x''

/-- A section from the local state at the lock to the one behind the unlock. -/
def Program.Section (P : Program L σ) (before : L) (x : σ) (after : L) (x' : σ) : Prop :=
  ∃ l l', P.Enter before l ∧ P.Runs l x l' x' ∧ P.Leave l' after

/-- Sections one after the other, each with its thread and the local states at its ends. -/
inductive Serial (P : Program L σ) : σ → List (T × L × L) → σ → Prop
  | nil {x : σ} : Serial P x [] x
  | snoc {x x' x'' : σ} {cs : List (T × L × L)} {t : T} {before after : L}
      (h : Serial P x cs x') (k : P.Section before x' after x'') :
      Serial P x (cs ++ [(t, before, after)]) x''

variable {P : Program L σ} {s s' : State T L σ} {e : Event T L} {t u : T} {xs : List (Event T L)}
  {Start : T → L → Prop} {Shared : σ → Prop}

/-- The holder of the lock is the one thread inside. -/
def Held (P : Program L σ) (s : State T L σ) : Prop := ∀ t, s.mtx = some t ↔ P.Inside (s.loc t)

/-- A step of the thread `t` that keeps what it holds. -/
theorem Held.same {l : L} {x : σ} (h : Held P s) (hl : P.Inside l ↔ P.Inside (s.loc t)) :
    Held P ⟨s.mtx, Function.update s.loc t l, x⟩ := by
  intro u
  by_cases hut : u = t
  · subst hut
    simp only [Function.update_self]
    exact (h u).trans hl.symm
  · simp only [Function.update_of_ne hut]
    exact h u

theorem held_step (hs : Step P s e s') (h : Held P s) : Held P s' := by
  cases hs with
  | @lock t l hm hs =>
    intro u
    by_cases hut : u = t
    · subst hut
      simp only [Function.update_self]
      exact iff_of_true trivial (P.enter hs).2
    · simp only [Function.update_of_ne hut]
      refine iff_of_false (fun heq => hut (Option.some.inj heq).symm) ?_
      intro hin
      have hholds := (h u).mpr hin
      rw [hm] at hholds
      cases hholds
  | inner hs => exact h.same (iff_of_true (P.inner hs).2 (P.inner hs).1)
  | @unlock t l hs =>
    have hm := (h t).mpr (P.leave hs).1
    intro u
    by_cases hut : u = t
    · subst hut
      simp only [Function.update_self]
      exact iff_of_false (Option.some_ne_none u).symm (P.leave hs).2
    · simp only [Function.update_of_ne hut]
      refine iff_of_false (Option.some_ne_none u).symm ?_
      intro hin
      exact hut (Option.some.inj (((h u).mpr hin).symm.trans hm))
  | outer hs => exact h.same (iff_of_false (P.outer hs).2 (P.outer hs).1)

/-- The shared state is what the finished sections leave, and what the holder has done since. -/
def InProgress (P : Program L σ) (x : σ) (begun : List (T × L)) (s : State T L σ) : Prop :=
  match s.mtx with
  | none => begun = [] ∧ s.shared = x
  | some t => ∃ before l, begun = [(t, before)] ∧ P.Enter before l ∧
      P.Runs l x (s.loc t) s.shared

/-- Each finished section is in `cs`, and the lock has been taken for these and the one that goes
on. -/
structure Serialized (P : Program L σ) (x₀ : σ) (xs : List (Event T L)) (s : State T L σ)
    (cs : List (T × L × L)) (x : σ) (begun : List (T × L)) : Prop where
  serial : Serial P x₀ cs x
  unlocked : xs.filterMap Event.unlocked? = cs.map fun c => (c.1, c.2.2)
  locked : xs.filterMap Event.locked? = (cs.map fun c => (c.1, c.2.1)) ++ begun
  goes_on : InProgress P x begun s

variable {x x₀ : σ} {cs : List (T × L × L)} {begun : List (T × L)}

omit [DecidableEq T] in
theorem Serialized.other (h : Serialized P x₀ xs s cs x begun) (t : T)
    (hs : InProgress P x begun s') : Serialized P x₀ (xs ++ [.other t]) s' cs x begun := by
  refine ⟨h.serial, ?_, ?_, hs⟩
  · rw [List.filterMap_append, h.unlocked]
    exact List.append_nil _
  · rw [List.filterMap_append, h.locked]
    exact List.append_nil _

theorem serialized_step (hs : Step P s e s') (hheld : Held P s)
    (h : Serialized P x₀ xs s cs x begun) :
    ∃ cs' x' begun', Serialized P x₀ (xs ++ [e]) s' cs' x' begun' := by
  have hgoes := h.goes_on
  cases hs with
  | @lock t l hm hs =>
    rw [InProgress, hm] at hgoes
    obtain ⟨rfl, hshared⟩ := hgoes
    refine ⟨cs, x, [(t, s.loc t)], h.serial, ?_, ?_, ?_⟩
    · rw [List.filterMap_append, h.unlocked]
      exact List.append_nil _
    · rw [List.filterMap_append, h.locked, List.append_nil]
      rfl
    · refine ⟨s.loc t, l, rfl, hs, ?_⟩
      simp only [Function.update_self, hshared]
      exact .refl
  | @inner t l x' hs =>
    have hm := (hheld t).mpr (P.inner hs).1
    rw [InProgress, hm] at hgoes
    obtain ⟨before, l₀, hbegun, henter, hruns⟩ := hgoes
    refine ⟨cs, x, begun, h.other t ?_⟩
    rw [InProgress]
    simp only [hm, Function.update_self]
    exact ⟨before, l₀, hbegun, henter, hruns.snoc hs⟩
  | @unlock t l hs =>
    have hm := (hheld t).mpr (P.leave hs).1
    rw [InProgress, hm] at hgoes
    obtain ⟨before, l₀, rfl, henter, hruns⟩ := hgoes
    refine ⟨cs ++ [(t, before, l)], s.shared, [], h.serial.snoc ⟨l₀, _, henter, hruns, hs⟩, ?_, ?_,
      rfl, rfl⟩
    · rw [List.filterMap_append, h.unlocked, List.map_append]
      rfl
    · rw [List.filterMap_append, h.locked, List.map_append, List.append_nil]
      exact List.append_nil _
  | @outer t l hs =>
    refine ⟨cs, x, begun, h.other t ?_⟩
    have hm : s.mtx ≠ some t := fun hm => (P.outer hs).1 ((hheld t).mp hm)
    rw [InProgress] at hgoes ⊢
    cases hmtx : s.mtx with
    | none => simpa only [hmtx] using hgoes
    | some u =>
      have hut : u ≠ t := by
        rintro rfl
        exact hm hmtx
      simpa only [hmtx, Function.update_of_ne hut] using hgoes

/-- Every history is serial, in the order of the lock. -/
theorem history_serialized (h : (guardedLts P Start Shared).History xs s) :
    Held P s ∧ ∃ x₀ cs x begun, Shared x₀ ∧ Serialized P x₀ xs s cs x begun := by
  refine h.induction (P := fun xs s => Held P s ∧ ∃ x₀ cs x begun, Shared x₀ ∧
    Serialized P x₀ xs s cs x begun) ?_ ?_
  · rintro s ⟨hm, hout, hshared⟩
    constructor
    · intro t
      rw [hm]
      exact iff_of_false (Option.some_ne_none t).symm (hout t).2
    · refine ⟨s.shared, [], s.shared, [], hshared, .nil, rfl, rfl, ?_⟩
      rw [InProgress, hm]
      exact ⟨rfl, rfl⟩
  · rintro xs s e s' _ ⟨hheld, x₀, cs, x, begun, hshared, hser⟩ hs
    obtain ⟨cs', x', begun', hser'⟩ := serialized_step hs hheld hser
    exact ⟨held_step hs hheld, x₀, cs', x', begun', hshared, hser'⟩

end Guarded
