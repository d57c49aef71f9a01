import Tecc.Lib.Lock
import Tecc.Lib.Transition
import Mathlib.Logic.Function.Basic

/-! The signal of tecc_signal.c, set and waited for by any number of threads. A step is one atomic
access or one call of the mutex or the condition variable; a call that fails returns its error
without effect. -/
namespace Tecc.Signal

open Transition

variable {T : Type*} [DecidableEq T]

/-- Where a thread stands in `TecSignal_set` or `TecSignal_wait`. -/
inductive Pc where
  | idle
  | set_store
  | set_lock
  /-- `locked` tells whether the lock was taken. -/
  | set_broadcast (locked : Bool)
  | set_unlock (err : Int)
  | set_return (err : Int)
  | wait_load
  | wait_lock
  /-- The test of the loop. -/
  | wait_check
  | wait_sleep
  /-- In `TecCV_wait`, which has released the mutex. -/
  | asleep
  /-- About to take the mutex again, inside of `TecCV_wait`. -/
  | woken
  | wait_unlock (err : Int)
  | wait_return (err : Int)
deriving DecidableEq

/-- `mtx` tells whether the mutex is taken. -/
structure State (T : Type*) where
  value : Int
  mtx : Bool
  pc : T → Pc

def State.setPC (s : State T) (t : T) (pc : Pc) : State T :=
  { s with pc := Function.update s.pc t pc }

inductive Event (T : Type*) where
  | set (t : T)
  | store (t : T)
  | lock (t : T) (err : Int)
  | broadcast (t : T) (err : Int)
  | unlock (t : T)
  | set_returns (t : T) (err : Int)
  | wait (t : T)
  | load (t : T)
  | sleep (t : T) (err : Int)
  | wake (t : T)
  | wait_returns (t : T) (err : Int)

/-- `TecCV_broadcast` wakes all sleepers. -/
def State.wake_all (s : State T) : State T :=
  { s with pc := fun t => if s.pc t = .asleep then .woken else s.pc t }

def TecSignal_init (T : Type*) : State T := ⟨0, false, fun _ => .idle⟩

inductive SetStep (t : T) : State T → Event T → State T → Prop
  | set {s : State T} (ht : s.pc t = .idle) : SetStep t s (.set t) (s.setPC t .set_store)
  | store {s : State T} (ht : s.pc t = .set_store) :
      SetStep t s (.store t) { s.setPC t .set_lock with value := 1 }
  | lock {s : State T} (ht : s.pc t = .set_lock) (hm : s.mtx = false) :
      SetStep t s (.lock t 0) { s.setPC t (.set_broadcast true) with mtx := true }
  | lock_failed {s : State T} {err : Int} (ht : s.pc t = .set_lock) (herr : err ≠ 0) :
      SetStep t s (.lock t err) (s.setPC t (.set_broadcast false))
  | broadcast {s : State T} {locked : Bool} (ht : s.pc t = .set_broadcast locked) :
      SetStep t s (.broadcast t 0)
        (s.wake_all.setPC t (if locked then .set_unlock 0 else .set_return 0))
  | broadcast_failed {s : State T} {locked : Bool} {err : Int}
      (ht : s.pc t = .set_broadcast locked) (herr : err ≠ 0) :
      SetStep t s (.broadcast t err)
        (s.setPC t (if locked then .set_unlock err else .set_return err))
  | unlock {s : State T} {err : Int} (ht : s.pc t = .set_unlock err) :
      SetStep t s (.unlock t) { s.setPC t (.set_return err) with mtx := false }
  | returns {s : State T} {err : Int} (ht : s.pc t = .set_return err) :
      SetStep t s (.set_returns t err) (s.setPC t .idle)

inductive WaitStep (t : T) : State T → Event T → State T → Prop
  | wait {s : State T} (ht : s.pc t = .idle) : WaitStep t s (.wait t) (s.setPC t .wait_load)
  | load {s : State T} (ht : s.pc t = .wait_load) :
      WaitStep t s (.load t) (s.setPC t (if s.value = 1 then .wait_return 0 else .wait_lock))
  | lock {s : State T} (ht : s.pc t = .wait_lock) (hm : s.mtx = false) :
      WaitStep t s (.lock t 0) { s.setPC t .wait_check with mtx := true }
  | lock_failed {s : State T} {err : Int} (ht : s.pc t = .wait_lock) (herr : err ≠ 0) :
      WaitStep t s (.lock t err) (s.setPC t (.wait_return err))
  | check {s : State T} (ht : s.pc t = .wait_check) :
      WaitStep t s (.load t) (s.setPC t (if s.value = 1 then .wait_unlock 0 else .wait_sleep))
  | sleep {s : State T} (ht : s.pc t = .wait_sleep) :
      WaitStep t s (.sleep t 0) { s.setPC t .asleep with mtx := false }
  | sleep_failed {s : State T} {err : Int} (ht : s.pc t = .wait_sleep) (herr : err ≠ 0) :
      WaitStep t s (.sleep t err) (s.setPC t (.wait_unlock err))
  /-- A wakeup that no broadcast caused. -/
  | wake {s : State T} (ht : s.pc t = .asleep) : WaitStep t s (.wake t) (s.setPC t .woken)
  | relock {s : State T} (ht : s.pc t = .woken) (hm : s.mtx = false) :
      WaitStep t s (.lock t 0) { s.setPC t .wait_check with mtx := true }
  | unlock {s : State T} {err : Int} (ht : s.pc t = .wait_unlock err) :
      WaitStep t s (.unlock t) { s.setPC t (.wait_return err) with mtx := false }
  | returns {s : State T} {err : Int} (ht : s.pc t = .wait_return err) :
      WaitStep t s (.wait_returns t err) (s.setPC t .idle)

inductive Step : State T → Event T → State T → Prop
  | set {s s' : State T} {e : Event T} (t : T) (h : SetStep t s e s') : Step s e s'
  | wait {s s' : State T} {e : Event T} (t : T) (h : WaitStep t s e s') : Step s e s'

def signalLts (T : Type*) [DecidableEq T] : Lts (State T) (Event T) where
  Init s := s = TecSignal_init T
  Step := Step

/-- The call of the mutex or the condition variable returns 0. -/
def Succeeds (_ : State T) : Event T → Prop
  | .lock _ err | .broadcast _ err | .sleep _ err => err = 0
  | _ => True

/-- The thread holds the mutex. -/
def Pc.Holds : Pc → Prop
  | .set_broadcast true | .set_unlock _ | .wait_check | .wait_sleep | .wait_unlock _ => True
  | _ => False

/-- The thread has found the value unset and sleeps on it, or is about to. -/
def Pc.Unaware (pc : Pc) : Prop := pc = .wait_sleep ∨ pc = .asleep

/-- The thread has stored 1 and will still broadcast. -/
def Pc.Announcing : Pc → Prop
  | .set_lock | .set_broadcast _ => True
  | _ => False

/-- The thread is in a call of `TecSignal_set` that has not finished its broadcast. -/
def Pc.Setting : Pc → Prop
  | .set_store | .set_lock | .set_broadcast _ => True
  | _ => False

variable {s s' : State T} {e : Event T} {t u : T} {xs : List (Event T)} {pc : Pc}

@[simp] theorem setPC_self : (s.setPC t pc).pc t = pc := Function.update_self _ _ _

theorem setPC_other (h : u ≠ t) : (s.setPC t pc).pc u = s.pc u := Function.update_of_ne h _ _

theorem set_step_other (h : SetStep t s e s') (hu : u ≠ t) :
    s'.pc u = s.pc u ∨ s.pc u = .asleep ∧ s'.pc u = .woken := by
  cases h with
  | broadcast ht =>
    rw [setPC_other hu, State.wake_all]
    by_cases hsleep : s.pc u = .asleep
    · exact .inr ⟨hsleep, if_pos hsleep⟩
    · exact .inl (if_neg hsleep)
  | _ => exact .inl (setPC_other hu)

theorem wait_step_other (h : WaitStep t s e s') (hu : u ≠ t) : s'.pc u = s.pc u := by
  cases h <;> exact setPC_other hu

omit [DecidableEq T] in
/-- Nobody comes to hold the mutex by a step of another thread. -/
theorem holds_other (h : s'.pc u = s.pc u ∨ s.pc u = .asleep ∧ s'.pc u = .woken)
    (hu : (s'.pc u).Holds) : (s.pc u).Holds := by
  obtain h | ⟨_, h⟩ := h
  · rwa [h] at hu
  · rw [h] at hu
    exact hu.elim

theorem set_step_move (h : SetStep t s e s') :
    Lock.Move (fun u => (s.pc u).Holds) (fun u => (s'.pc u).Holds) s.mtx s'.mtx := by
  have hothers : ∀ u, u ≠ t → (s'.pc u).Holds → (s.pc u).Holds :=
    fun u hu hholds => holds_other (set_step_other h hu) hholds
  cases h with
  | lock ht hm => exact .take t hothers hm rfl
  | unlock ht =>
    refine .release t ?_ ?_ hothers rfl
    · rw [ht]
      trivial
    · simp [Pc.Holds]
  | @broadcast locked ht =>
    refine .stay hothers ?_ rfl
    rw [setPC_self, ht]
    cases locked <;> exact id
  | @broadcast_failed locked err ht herr =>
    refine .stay hothers ?_ rfl
    rw [setPC_self, ht]
    cases locked <;> exact id
  | _ => exact .stay hothers (by simp [Pc.Holds]) rfl

theorem wait_step_move (h : WaitStep t s e s') :
    Lock.Move (fun u => (s.pc u).Holds) (fun u => (s'.pc u).Holds) s.mtx s'.mtx := by
  have hothers : ∀ u, u ≠ t → (s'.pc u).Holds → (s.pc u).Holds :=
    fun u hu hholds => holds_other (.inl (wait_step_other h hu)) hholds
  cases h with
  | lock ht hm | relock ht hm => exact .take t hothers hm rfl
  | sleep ht | unlock ht =>
    refine .release t ?_ ?_ hothers rfl
    · rw [ht]
      trivial
    · simp [Pc.Holds]
  | check ht | sleep_failed ht =>
    refine .stay hothers ?_ rfl
    rw [ht]
    exact fun _ => trivial
  | load ht =>
    refine .stay hothers ?_ rfl
    rw [setPC_self]
    split <;> exact False.elim
  | _ => exact .stay hothers (by simp [Pc.Holds]) rfl

/-- The invariant of the runs in which all calls succeed. -/
structure Inv (s : State T) : Prop where
  exclusive : Lock.Exclusive (fun u => (s.pc u).Holds) s.mtx
  locked : ∀ t, s.pc t ≠ .set_broadcast false
  announced : s.value = 1 → ∀ u, (s.pc u).Unaware → ∃ t, (s.pc t).Announcing
  released : ∀ t err, s.pc t = .wait_unlock err ∨ s.pc t = .wait_return err → s.value = 1

theorem exclusive_step (h : Step s e s')
    (hx : Lock.Exclusive (fun u => (s.pc u).Holds) s.mtx) :
    Lock.Exclusive (fun u => (s'.pc u).Holds) s'.mtx := by
  cases h with
  | set t h => exact hx.move (set_step_move h)
  | wait t h => exact hx.move (wait_step_move h)

omit [DecidableEq T] in
theorem exclusive_initial :
    Lock.Exclusive (fun u => ((TecSignal_init T).pc u).Holds) (TecSignal_init T).mtx :=
  ⟨fun _ h => h.elim, fun _ _ h => h.elim⟩

theorem exclusive_reachable (h : (signalLts T).Reachable s) :
    Lock.Exclusive (fun u => (s.pc u).Holds) s.mtx := by
  refine h.invariant (P := fun s => Lock.Exclusive (fun u => (s.pc u).Holds) s.mtx) ?_ ?_
  · rintro s rfl
    exact exclusive_initial
  · exact fun s e s' hx hs => exclusive_step hs hx

theorem value_step (h : Step s e s') : s'.value = s.value ∨ ∃ t, e = .store t ∧ s'.value = 1 := by
  cases h with
  | set t h =>
    cases h with
    | store ht => exact .inr ⟨t, rfl, rfl⟩
    | _ => exact .inl rfl
  | wait t h => cases h <;> exact .inl rfl

/-- The value stays 1. -/
theorem value_stays (h : Step s e s') (hv : s.value = 1) : s'.value = 1 := by
  obtain hsame | ⟨_, _, hone⟩ := value_step h
  · rw [hsame, hv]
  · exact hone

theorem locked_step (h : Step s e s') (hc : Succeeds s e)
    (hl : ∀ t, s.pc t ≠ .set_broadcast false) : ∀ t, s'.pc t ≠ .set_broadcast false := by
  intro u hu
  cases h with
  | set t h =>
    by_cases hut : u = t
    · subst hut
      cases h with
      | lock_failed ht herr => exact herr hc
      | broadcast ht | broadcast_failed ht =>
        rw [setPC_self] at hu
        split at hu <;> cases hu
      | _ => cases setPC_self.symm.trans hu
    · obtain h | ⟨_, h⟩ := set_step_other h hut
      · exact hl u (h.symm.trans hu)
      · rw [h] at hu
        cases hu
  | wait t h =>
    by_cases hut : u = t
    · subst hut
      cases h with
      | load ht | check ht =>
        rw [setPC_self] at hu
        split at hu <;> cases hu
      | _ => cases setPC_self.symm.trans hu
    · exact hl u ((wait_step_other h hut).symm.trans hu)

/-- Nobody is left unaware by a broadcast under the mutex: the sleepers are woken, and the thread
that is about to sleep would hold the mutex too. -/
theorem broadcast_aware (hi : Inv s) (ht : s.pc t = .set_broadcast true) (hut : u ≠ t) :
    ¬ ((s.wake_all.setPC t pc).pc u).Unaware := by
  rw [setPC_other hut, State.wake_all]
  dsimp only
  by_cases hsleep : s.pc u = .asleep
  · rw [if_pos hsleep]
    rintro (h | h) <;> cases h
  · rw [if_neg hsleep]
    rintro (h | h)
    · exact hut (hi.exclusive.unique u t (by rw [h]; trivial) (by rw [ht]; trivial))
    · exact hsleep h

/-- Until its broadcast a thread goes on announcing. -/
theorem set_step_announcing (h : SetStep t s e s') (ha : (s.pc t).Announcing) :
    (s'.pc t).Announcing ∨ ∃ locked, s.pc t = .set_broadcast locked := by
  cases h with
  | lock ht hm | lock_failed ht => exact .inl (by simp [Pc.Announcing])
  | @broadcast locked ht | broadcast_failed ht => exact .inr ⟨_, ht⟩
  | set ht | store ht | unlock ht | returns ht =>
    rw [ht] at ha
    exact ha.elim

theorem announced_set_step (h : SetStep t s e s') (hc : Succeeds s e) (hi : Inv s)
    (hv : s'.value = 1) (hu : (s'.pc u).Unaware) : ∃ a, (s'.pc a).Announcing := by
  have hut : u ≠ t := by
    rintro rfl
    revert hu
    cases h with
    | broadcast ht | broadcast_failed ht =>
      rw [setPC_self]
      split <;> rintro (h | h) <;> cases h
    | _ => simp [Pc.Unaware]
  by_cases hb : ∃ locked, s.pc t = .set_broadcast locked
  · obtain ⟨locked, hb⟩ := hb
    cases locked with
    | false => exact absurd hb (hi.locked t)
    | true =>
      cases h with
      | broadcast ht => exact absurd hu (broadcast_aware hi hb hut)
      | broadcast_failed ht herr => exact absurd hc herr
      | _ ht => cases hb.symm.trans ht
  · by_cases hstore : s.pc t = .set_store
    · cases h with
      | store ht => exact ⟨t, by simp [Pc.Announcing]⟩
      | _ ht => cases hstore.symm.trans ht
    · have hold : (s.pc u).Unaware := by
        obtain h | ⟨_, h⟩ := set_step_other h hut
        · rwa [h] at hu
        · rw [h] at hu
          rcases hu with hu | hu <;> cases hu
      have hvalue : s.value = 1 := by
        cases h with
        | store ht => exact absurd ht hstore
        | _ => exact hv
      obtain ⟨a, ha⟩ := hi.announced hvalue u hold
      by_cases hat : a = t
      · subst hat
        exact ⟨a, (set_step_announcing h ha).resolve_right hb⟩
      · refine ⟨a, ?_⟩
        obtain h | ⟨h, _⟩ := set_step_other h hat
        · rwa [h]
        · rw [h] at ha
          exact ha.elim

theorem announced_wait_step (h : WaitStep t s e s') (hi : Inv s) (hv : s'.value = 1)
    (hu : (s'.pc u).Unaware) : ∃ a, (s'.pc a).Announcing := by
  have hvalue : s.value = 1 := by cases h <;> exact hv
  have hold : (s.pc u).Unaware := by
    by_cases hut : u = t
    · subst hut
      cases h with
      | sleep ht => exact .inl ht
      | load ht | check ht =>
        rw [setPC_self, if_pos hvalue] at hu
        rcases hu with hu | hu <;> cases hu
      | _ => simp [Pc.Unaware] at hu
    · rwa [wait_step_other h hut] at hu
  obtain ⟨a, ha⟩ := hi.announced hvalue u hold
  have hat : a ≠ t := by
    rintro rfl
    cases h <;> simp_all [Pc.Announcing]
  exact ⟨a, by rwa [wait_step_other h hat]⟩

theorem released_step (h : Step s e s') (hc : Succeeds s e) (hi : Inv s) :
    ∀ u err, s'.pc u = .wait_unlock err ∨ s'.pc u = .wait_return err → s'.value = 1 := by
  intro u err hu
  refine value_stays h ?_
  cases h with
  | set t h =>
    have hut : u ≠ t := by
      rintro rfl
      revert hu
      cases h with
      | broadcast ht | broadcast_failed ht =>
        rw [setPC_self]
        split <;> rintro (h | h) <;> cases h
      | _ => simp
    obtain h | ⟨_, h⟩ := set_step_other h hut
    · exact hi.released u err (by rwa [h] at hu)
    · rw [h] at hu
      rcases hu with hu | hu <;> cases hu
  | wait t h =>
    by_cases hut : u = t
    · subst hut
      cases h with
      | load ht | check ht =>
        rw [setPC_self] at hu
        by_contra hv
        rw [if_neg hv] at hu
        rcases hu with hu | hu <;> cases hu
      | lock_failed ht herr | sleep_failed ht herr => exact absurd hc herr
      | unlock ht => exact hi.released u _ (.inl ht)
      | _ => simp at hu
    · rw [wait_step_other h hut] at hu
      exact hi.released u err hu

omit [DecidableEq T] in
theorem inv_initial : Inv (TecSignal_init T) where
  exclusive := exclusive_initial
  locked _ h := by cases h
  announced h := by cases h
  released _ _ h := by rcases h with h | h <;> cases h

theorem inv_step (h : Step s e s') (hc : Succeeds s e) (hi : Inv s) : Inv s' where
  exclusive := exclusive_step h hi.exclusive
  locked := locked_step h hc hi.locked
  announced hv u hu := by
    cases h with
    | set t h => exact announced_set_step h hc hi hv hu
    | wait t h => exact announced_wait_step h hi hv hu
  released := released_step h hc hi

theorem inv_reachable (h : ((signalLts T).restrict Succeeds).Reachable s) : Inv s := by
  refine h.invariant ?_ ?_
  · rintro s rfl
    exact inv_initial
  · exact fun _ _ _ hi hs => inv_step hs.2 hs.1 hi

/-- The value is 1 only behind a store. -/
theorem stored (h : (signalLts T).History xs s) (hv : s.value = 1) : ∃ t, .store t ∈ xs := by
  revert hv
  refine h.induction (P := fun xs s => s.value = 1 → ∃ t, .store t ∈ xs) ?_ ?_
  · rintro s rfl hv
    cases hv
  · intro xs s e s' _ ih hs hv
    obtain hsame | ⟨t, rfl, _⟩ := value_step hs
    · obtain ⟨t, ht⟩ := ih (hsame ▸ hv)
      exact ⟨t, List.mem_append_left _ ht⟩
    · exact ⟨t, by simp⟩

theorem wait_returns_pc {err : Int} (h : Step s (.wait_returns t err) s') :
    s.pc t = .wait_return err := by
  cases h with
  | set u h => cases h
  | wait u h =>
    cases h with
    | returns ht => exact ht

/-- In the runs whose mutex and condition calls succeed, no wait returns before a store, the value
stays 1, and once every set that began has broadcast, nobody sleeps on a value that is 1. -/
theorem signal_no_lost_wakeup (xs : List (Event T)) (s : State T)
    (h : ((signalLts T).restrict Succeeds).History xs s) :
    (∀ ys t err zs, xs = ys ++ .wait_returns t err :: zs → ∃ u, .store u ∈ ys) ∧
      (∀ ys s', ((signalLts T).restrict Succeeds).Run s ys s' → s.value = 1 → s'.value = 1) ∧
      ¬ (s.value = 1 ∧ (∀ t, ¬ (s.pc t).Setting) ∧ ∃ u, s.pc u = .asleep) := by
  refine ⟨?_, ?_, ?_⟩
  · rintro ys t err zs rfl
    obtain ⟨s₁, s₂, hys, ⟨hc, hstep⟩, _⟩ := h.step_at
    have hv := (inv_reachable hys.reachable).released t err (.inr (wait_returns_pc hstep))
    exact stored hys.of_restrict hv
  · exact fun ys s' hrun hv => hrun.stable (fun _ _ _ hv hs => value_stays hs.2 hv) hv
  · rintro ⟨hv, hset, u, hu⟩
    obtain ⟨t, ht⟩ := (inv_reachable h.reachable).announced hv u (.inr hu)
    refine hset t ?_
    cases hpc : s.pc t <;> simp_all [Pc.Announcing, Pc.Setting]

/-- A waiter that sleeps before the store, and returns after the broadcast. -/
theorem signal_no_lost_wakeup_asleep :
    ∃ (xs : List (Event Nat)) (s : State Nat), ((signalLts Nat).restrict Succeeds).History
        (xs ++ [.wait_returns 0 0]) s ∧ s.value = 1 ∧ ∃ u, .store u ∈ xs := by
  have h0 : ((signalLts Nat).restrict Succeeds).History [] (TecSignal_init Nat) := .init rfl
  have h1 := h0.snoc_restrict (Step.wait 0 (.wait rfl)) trivial
  have h2 := h1.snoc_restrict (Step.wait 0 (.load rfl)) trivial
  have h3 := h2.snoc_restrict (Step.wait 0 (.lock rfl rfl)) rfl
  have h4 := h3.snoc_restrict (Step.wait 0 (.check rfl)) trivial
  have h5 := h4.snoc_restrict (Step.wait 0 (.sleep rfl)) rfl
  have h6 := h5.snoc_restrict (Step.set 1 (.set rfl)) trivial
  have h7 := h6.snoc_restrict (Step.set 1 (.store rfl)) trivial
  have h8 := h7.snoc_restrict (Step.set 1 (.lock rfl rfl)) rfl
  have h9 := h8.snoc_restrict (Step.set 1 (@SetStep.broadcast _ _ _ _ true rfl)) rfl
  have h10 := h9.snoc_restrict (Step.set 1 (@SetStep.unlock _ _ _ _ 0 rfl)) trivial
  have h11 := h10.snoc_restrict (Step.wait 0 (.relock rfl rfl)) rfl
  have h12 := h11.snoc_restrict (Step.wait 0 (.check rfl)) trivial
  have h13 := h12.snoc_restrict (Step.wait 0 (@WaitStep.unlock _ _ _ _ 0 rfl)) trivial
  have h14 := h13.snoc_restrict (Step.wait 0 (@WaitStep.returns _ _ _ _ 0 rfl)) trivial
  exact ⟨_, _, h14, rfl, (signal_no_lost_wakeup _ _ h14).1 _ 0 0 [] rfl⟩

end Tecc.Signal
