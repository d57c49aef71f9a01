import Tecc.Signal

/-! A handler that interrupts `TecSignal_wait` and sets the signal. Every thread has a second frame
for its handler, and the frame below does not move until the handler has returned. -/
namespace Tecc.Signal

open Transition

section Frames

variable {T : Type*}

def Event.thread : Event T → T
  | .set t | .store t | .lock t _ | .broadcast t _ | .unlock t | .set_returns t _ | .wait t
  | .load t | .sleep t _ | .wake t | .wait_returns t _ => t

/-- The thread is in a call of `TecSignal_wait`. -/
def Pc.Waiting : Pc → Prop
  | .wait_load | .wait_lock | .wait_check | .wait_sleep | .asleep | .woken | .wait_unlock _
  | .wait_return _ => True
  | _ => False

/-- Which frame may move: `inl t` is the thread `t` itself, `inr t` the handler that interrupts it,
in a call of `TecSignal_wait`, and calls `TecSignal_set`. -/
structure Suspends (s : State (T ⊕ T)) (e : Event (T ⊕ T)) : Prop where
  frame : ∀ t, e.thread = .inl t → s.pc (.inr t) = .idle
  during : ∀ t, e = .set (.inr t) → (s.pc (.inl t)).Waiting
  handler : ∀ t, e ≠ .wait (.inr t)

/-- No handler starts while the frame that it interrupts holds the mutex. -/
def NotHolding (s : State (T ⊕ T)) (e : Event (T ⊕ T)) : Prop :=
  ∀ t, e = .set (.inr t) → ¬ (s.pc (.inl t)).Holds

/-- The handler is acquiring the mutex that the frame it interrupted holds. -/
def SelfBlocked (s : State (T ⊕ T)) (t : T) : Prop :=
  s.pc (.inr t) = .set_lock ∧ (s.pc (.inl t)).Holds

variable {s : State (T ⊕ T)} {e : Event (T ⊕ T)} {t : T}

/-- A thread moves that no handler interrupts. -/
theorem suspends_frame (he : e.thread = .inl t) (hidle : s.pc (.inr t) = .idle) :
    Suspends s e := by
  refine ⟨fun u hu => ?_, fun u hu => ?_, fun u hu => ?_⟩
  · rw [he] at hu
    cases hu
    exact hidle
  · rw [hu] at he
    cases he
  · rw [hu] at he
    cases he

/-- A handler begins. -/
theorem suspends_set (hw : (s.pc (.inl t)).Waiting) : Suspends s (.set (.inr t)) := by
  refine ⟨fun u hu => ?_, fun u hu => ?_, fun u hu => ?_⟩
  · cases hu
  · cases hu
    exact hw
  · cases hu

end Frames

variable {T : Type*} [DecidableEq T]

def handlerLts (T : Type*) [DecidableEq T] : Lts (State (T ⊕ T)) (Event (T ⊕ T)) :=
  (signalLts (T ⊕ T)).restrict Suspends

/-- The handler can go on until it has returned. -/
def Completes (s : State (T ⊕ T)) (t : T) : Prop :=
  ∃ ys s', ((handlerLts T).restrict NotHolding).Run s ys s' ∧ s'.pc (.inr t) = .idle

section Steps

variable {s s' : State T} {e : Event T} {t u : T}

theorem step_thread (h : Step s e s') : SetStep e.thread s e s' ∨ WaitStep e.thread s e s' := by
  cases h with
  | set t h =>
    have he : e.thread = t := by cases h <;> rfl
    exact .inl (he ▸ h)
  | wait t h =>
    have he : e.thread = t := by cases h <;> rfl
    exact .inr (he ▸ h)

theorem step_other (h : Step s e s') (hu : u ≠ e.thread) :
    s'.pc u = s.pc u ∨ s.pc u = .asleep ∧ s'.pc u = .woken := by
  rcases step_thread h with h | h
  · exact set_step_other h hu
  · exact .inl (wait_step_other h hu)

/-- Only a sleeper is moved by others. -/
theorem step_other_pc (h : Step s e s') (hu : u ≠ e.thread) (hne : s.pc u ≠ .asleep) :
    s'.pc u = s.pc u := by
  rcases step_other h hu with heq | ⟨hsleep, _⟩
  · exact heq
  · exact absurd hsleep hne

/-- The mutex is taken by the thread that moves, or it was taken by another. -/
theorem step_mtx (h : Step s e s') (hm : s'.mtx = true) :
    (s'.pc e.thread).Holds ∨ s.mtx = true ∧ ¬ (s.pc e.thread).Holds := by
  rcases step_thread h with h | h
  · generalize e.thread = t at h ⊢
    cases h with
    | lock ht hm' => exact .inl (by simp [Pc.Holds])
    | @broadcast locked ht | @broadcast_failed locked err ht =>
      cases locked with
      | true => exact .inl (by simp [Pc.Holds])
      | false => exact .inr ⟨hm, by rw [ht]; exact id⟩
    | unlock ht => cases hm
    | _ ht => exact .inr ⟨hm, by rw [ht]; exact id⟩
  · generalize e.thread = t at h ⊢
    cases h with
    | lock ht hm' | relock ht hm' => exact .inl (by simp [Pc.Holds])
    | check ht =>
      refine .inl ?_
      rw [setPC_self]
      split <;> trivial
    | sleep ht | unlock ht => cases hm
    | sleep_failed ht => exact .inl (by simp [Pc.Holds])
    | _ ht => exact .inr ⟨hm, by rw [ht]; exact id⟩

/-- A thread that is in no call begins one. -/
theorem step_idle (h : Step s e s') (ht : s.pc e.thread = .idle) :
    e = .set e.thread ∨ e = .wait e.thread := by
  rcases step_thread h with h | h
  · generalize hthread : e.thread = t at h ht
    cases h with
    | set _ => exact .inl rfl
    | _ ht' => cases ht.symm.trans ht'
  · generalize hthread : e.thread = t at h ht
    cases h with
    | wait _ => exact .inr rfl
    | _ ht' => cases ht.symm.trans ht'

/-- A thread is in `TecSignal_wait` because it was, or because it has called it. -/
theorem step_waiting (h : Step s e s') (hw : (s'.pc e.thread).Waiting) :
    (s.pc e.thread).Waiting ∨ e = .wait e.thread := by
  rcases step_thread h with h | h
  · generalize e.thread = t at h hw
    cases h with
    | @broadcast locked ht | @broadcast_failed locked err ht =>
      cases locked <;> simp [Pc.Waiting] at hw
    | _ => simp [Pc.Waiting] at hw
  · generalize e.thread = t at h
    cases h with
    | wait ht => exact .inr rfl
    | _ ht => exact .inl (by rw [ht]; trivial)

end Steps

variable {s s' : State (T ⊕ T)} {e : Event (T ⊕ T)} {t : T} {i : T ⊕ T}

/-- The invariant of the runs in which no handler interrupts a holder of the mutex. -/
structure HandlerInv (s : State (T ⊕ T)) : Prop where
  exclusive : Lock.Exclusive (fun i => (s.pc i).Holds) s.mtx
  held : s.mtx = true → ∃ i, (s.pc i).Holds
  frozen : ∀ t, s.pc (.inr t) ≠ .idle → ¬ (s.pc (.inl t)).Holds
  setting : ∀ t, ¬ (s.pc (.inr t)).Waiting

theorem held_step (h : Step s e s') (hi : HandlerInv s) (hm : s'.mtx = true) :
    ∃ i, (s'.pc i).Holds := by
  rcases step_mtx h hm with hself | ⟨hm', hself⟩
  · exact ⟨_, hself⟩
  · obtain ⟨i, hholds⟩ := hi.held hm'
    have hne : i ≠ e.thread := by
      rintro rfl
      exact hself hholds
    refine ⟨i, ?_⟩
    rwa [step_other_pc h hne (by rintro hpc; rw [hpc] at hholds; exact hholds)]

theorem frozen_step (h : Step s e s') (hc : NotHolding s e) (hs : Suspends s e)
    (hi : HandlerInv s) (hne : s'.pc (.inr t) ≠ .idle) : ¬ (s'.pc (.inl t)).Holds := by
  intro hholds
  by_cases hframe : e.thread = .inl t
  · have hidle := hs.frame t hframe
    have hother : s'.pc (.inr t) = s.pc (.inr t) :=
      step_other_pc h (by rw [hframe]; simp) (by rw [hidle]; simp)
    exact hne (hother.trans hidle)
  · have hold := holds_other (step_other h (Ne.symm hframe)) hholds
    by_cases hidle : s.pc (.inr t) = .idle
    · by_cases hthread : e.thread = .inr t
      · rcases step_idle h (by rw [hthread, hidle]) with he | he
        · exact hc t (by rw [he, hthread]) hold
        · exact hs.handler t (by rw [he, hthread])
      · exact hne ((step_other_pc h (Ne.symm hthread) (by rw [hidle]; simp)).trans hidle)
    · exact hi.frozen t hidle hold

theorem setting_step (h : Step s e s') (hs : Suspends s e) (hi : HandlerInv s) :
    ¬ (s'.pc (.inr t)).Waiting := by
  intro hw
  by_cases hthread : e.thread = .inr t
  · rw [← hthread] at hw
    rcases step_waiting h hw with hold | he
    · rw [hthread] at hold
      exact hi.setting t hold
    · exact hs.handler t (by rw [he, hthread])
  · rcases step_other h (Ne.symm hthread) with heq | ⟨hsleep, _⟩
    · rw [heq] at hw
      exact hi.setting t hw
    · exact hi.setting t (by rw [hsleep]; trivial)

theorem handlerInv_step (h : Step s e s') (hc : NotHolding s e) (hs : Suspends s e)
    (hi : HandlerInv s) : HandlerInv s' where
  exclusive := exclusive_step h hi.exclusive
  held := held_step h hi
  frozen _ := frozen_step h hc hs hi
  setting _ := setting_step h hs hi

theorem handlerInv_reachable (h : ((handlerLts T).restrict NotHolding).Reachable s) :
    HandlerInv s := by
  refine h.invariant ?_ ?_
  · rintro s rfl
    exact
      { exclusive := exclusive_initial
        held := fun hm => by cases hm
        frozen := fun _ hne => absurd rfl hne
        setting := fun _ h => h }
  · rintro s e s' hi ⟨hc, hs, h⟩
    exact handlerInv_step h hc hs hi

omit [DecidableEq T] in
/-- A call that goes on is not the start of a handler. -/
theorem goes_on (hframe : ∀ t, e.thread = .inl t → s.pc (.inr t) = .idle)
    (hset : ∀ i, e ≠ .set i) (hwait : ∀ i, e ≠ .wait i) : NotHolding s e ∧ Suspends s e :=
  ⟨fun _ he => absurd he (hset _),
    ⟨hframe, fun _ he => absurd he (hset _), fun t => hwait (.inr t)⟩⟩

omit [DecidableEq T] in
/-- A holder of the mutex is not interrupted, so that it can go on. -/
theorem holder_goes_on (hi : HandlerInv s) (hholds : (s.pc e.thread).Holds)
    (hset : ∀ i, e ≠ .set i) (hwait : ∀ i, e ≠ .wait i) : NotHolding s e ∧ Suspends s e := by
  refine goes_on (fun t ht => ?_) hset hwait
  by_contra hne
  rw [ht] at hholds
  exact hi.frozen t hne hholds

/-- The last step of a holder. -/
theorem release_now (hi : HandlerInv s) (hpc : (∃ err, s.pc i = .set_unlock err) ∨
    (∃ err, s.pc i = .wait_unlock err) ∨ s.pc i = .wait_sleep) :
    ∃ e s', ((handlerLts T).restrict NotHolding).Step s e s' ∧ e.thread = i ∧ s'.mtx = false := by
  rcases hpc with ⟨err, hpc⟩ | ⟨err, hpc⟩ | hpc
  · obtain ⟨hc, hs⟩ := holder_goes_on (e := .unlock i) hi (by rw [Event.thread, hpc]; trivial)
      (by simp) (by simp)
    exact ⟨_, _, ⟨hc, hs, .set i (.unlock hpc)⟩, rfl, rfl⟩
  · obtain ⟨hc, hs⟩ := holder_goes_on (e := .unlock i) hi (by rw [Event.thread, hpc]; trivial)
      (by simp) (by simp)
    exact ⟨_, _, ⟨hc, hs, .wait i (.unlock hpc)⟩, rfl, rfl⟩
  · obtain ⟨hc, hs⟩ := holder_goes_on (e := .sleep i 0) hi (by rw [Event.thread, hpc]; trivial)
      (by simp) (by simp)
    exact ⟨_, _, ⟨hc, hs, .wait i (.sleep hpc)⟩, rfl, rfl⟩

/-- Before its last step a holder has at most one more. -/
theorem release_soon (hi : HandlerInv s) (hholds : (s.pc i).Holds) :
    ((∃ err, s.pc i = .set_unlock err) ∨ (∃ err, s.pc i = .wait_unlock err) ∨
      s.pc i = .wait_sleep) ∨
    ∃ e s', ((handlerLts T).restrict NotHolding).Step s e s' ∧ e.thread = i ∧
      ((∃ err, s'.pc i = .set_unlock err) ∨ (∃ err, s'.pc i = .wait_unlock err) ∨
        s'.pc i = .wait_sleep) := by
  cases hpc : s.pc i with
  | set_broadcast locked =>
    cases locked with
    | true =>
      obtain ⟨hc, hs⟩ := holder_goes_on (e := .broadcast i 0) hi hholds (by simp) (by simp)
      exact .inr ⟨_, _, ⟨hc, hs, .set i (.broadcast hpc)⟩, rfl, .inl ⟨0, setPC_self⟩⟩
    | false =>
      rw [hpc] at hholds
      exact hholds.elim
  | wait_check =>
    obtain ⟨hc, hs⟩ := holder_goes_on (e := .load i) hi hholds (by simp) (by simp)
    refine .inr ⟨_, _, ⟨hc, hs, .wait i (.check hpc)⟩, rfl, .inr ?_⟩
    rw [setPC_self]
    split
    · exact .inl ⟨0, rfl⟩
    · exact .inr rfl
  | set_unlock err => exact .inl (.inl ⟨err, rfl⟩)
  | wait_unlock err => exact .inl (.inr (.inl ⟨err, rfl⟩))
  | wait_sleep => exact .inl (.inr (.inr rfl))
  | _ =>
    rw [hpc] at hholds
    exact hholds.elim

/-- The mutex becomes free while a handler that asks for it waits. -/
theorem release_run (hi : HandlerInv s) (hpc : s.pc (.inr t) = .set_lock) :
    ∃ ys s', ((handlerLts T).restrict NotHolding).Run s ys s' ∧ s'.mtx = false ∧
      s'.pc (.inr t) = .set_lock := by
  cases hm : s.mtx with
  | false => exact ⟨[], s, .refl, hm, hpc⟩
  | true =>
    obtain ⟨i, hholds⟩ := hi.held hm
    have hne : .inr t ≠ i := by
      rintro rfl
      rw [hpc] at hholds
      exact hholds
    have hstays : ∀ {s e s'}, Step s e s' → e.thread = i → s.pc (.inr t) = .set_lock →
        s'.pc (.inr t) = .set_lock := by
      intro s e s' h he hpc
      rw [step_other_pc h (by rwa [he]) (by rw [hpc]; simp), hpc]
    rcases release_soon hi hholds with hlast | ⟨e, s₁, h, he, hlast⟩
    · obtain ⟨e, s', h, he, hfree⟩ := release_now hi hlast
      exact ⟨_, s', .single h, hfree, hstays h.2.2 he hpc⟩
    · have hi₁ := handlerInv_step h.2.2 h.1 h.2.1 hi
      obtain ⟨e', s', h', he', hfree⟩ := release_now hi₁ hlast
      exact ⟨_, s', .cons h (.single h'), hfree, hstays h'.2.2 he' (hstays h.2.2 he hpc)⟩

theorem completes_step (h : ((handlerLts T).restrict NotHolding).Step s e s')
    (hc : Completes s' t) : Completes s t := by
  obtain ⟨ys, s'', hrun, hidle⟩ := hc
  exact ⟨_, s'', hrun.cons h, hidle⟩

theorem completes_run {ys : List (Event (T ⊕ T))}
    (h : ((handlerLts T).restrict NotHolding).Run s ys s') (hc : Completes s' t) :
    Completes s t := by
  obtain ⟨zs, s'', hrun, hidle⟩ := hc
  exact ⟨_, s'', h.trans hrun, hidle⟩

omit [DecidableEq T] in
/-- A handler goes on whatever the other frames do. -/
theorem handler_goes_on (he : e.thread = .inr t) (hset : ∀ i, e ≠ .set i)
    (hwait : ∀ i, e ≠ .wait i) : NotHolding s e ∧ Suspends s e := by
  refine goes_on (fun u hu => ?_) hset hwait
  rw [he] at hu
  cases hu

theorem completes_return {err : Int} (hpc : s.pc (.inr t) = .set_return err) : Completes s t := by
  obtain ⟨hc, hs⟩ := handler_goes_on (s := s) (e := .set_returns (.inr t) err) rfl (by simp)
    (by simp)
  exact ⟨_, _, .single ⟨hc, hs, .set _ (.returns hpc)⟩, setPC_self⟩

theorem completes_unlock {err : Int} (hpc : s.pc (.inr t) = .set_unlock err) : Completes s t := by
  obtain ⟨hc, hs⟩ := handler_goes_on (s := s) (e := .unlock (.inr t)) rfl (by simp) (by simp)
  exact completes_step ⟨hc, hs, .set _ (.unlock hpc)⟩ (completes_return setPC_self)

theorem completes_broadcast {locked : Bool} (hpc : s.pc (.inr t) = .set_broadcast locked) :
    Completes s t := by
  obtain ⟨hc, hs⟩ := handler_goes_on (s := s) (e := .broadcast (.inr t) 0) rfl (by simp) (by simp)
  refine completes_step ⟨hc, hs, .set _ (.broadcast hpc)⟩ ?_
  cases locked with
  | true => exact completes_unlock setPC_self
  | false => exact completes_return setPC_self

theorem completes_lock (hi : HandlerInv s) (hpc : s.pc (.inr t) = .set_lock) : Completes s t := by
  obtain ⟨ys, s', hrun, hfree, hpc'⟩ := release_run hi hpc
  obtain ⟨hc, hs⟩ := handler_goes_on (s := s') (e := .lock (.inr t) 0) rfl (by simp) (by simp)
  exact completes_run hrun
    (completes_step ⟨hc, hs, .set _ (.lock hpc' hfree)⟩ (completes_broadcast setPC_self))

theorem completes (hi : HandlerInv s) (t : T) : Completes s t := by
  cases hpc : s.pc (.inr t) with
  | idle => exact ⟨[], s, .refl, hpc⟩
  | set_store =>
    obtain ⟨hc, hs⟩ := handler_goes_on (s := s) (e := .store (.inr t)) rfl (by simp) (by simp)
    have h : Step s (.store (.inr t)) _ := .set _ (.store hpc)
    exact completes_step ⟨hc, hs, h⟩
      (completes_lock (handlerInv_step h hc hs hi) setPC_self)
  | set_lock => exact completes_lock hi hpc
  | set_broadcast locked => exact completes_broadcast hpc
  | set_unlock err => exact completes_unlock hpc
  | set_return err => exact completes_return hpc
  | _ =>
    have hw := hi.setting t
    rw [hpc] at hw
    exact absurd trivial hw

/-- A frame below that holds the mutex does not move, and nobody else gives the mutex back. -/
theorem selfBlocked_step (h : (handlerLts T).Step s e s') (hc : Succeeds s e)
    (hx : Lock.Exclusive (fun i => (s.pc i).Holds) s.mtx) (hb : SelfBlocked s t) :
    SelfBlocked s' t := by
  obtain ⟨hs, h⟩ := h
  obtain ⟨hpc, hholds⟩ := hb
  have hheld := hx.held _ hholds
  have hframe : .inl t ≠ e.thread := by
    intro he
    cases hpc.symm.trans (hs.frame t he.symm)
  have hbelow : s'.pc (.inl t) = s.pc (.inl t) := by
    refine step_other_pc h hframe ?_
    intro hsleep
    rw [hsleep] at hholds
    exact hholds
  by_cases hthread : .inr t = e.thread
  · rw [hthread] at hpc
    rcases step_thread h with h | h
    · generalize e.thread = i at h hpc
      cases h with
      | lock ht hm => cases hheld.symm.trans hm
      | lock_failed ht herr => exact absurd hc herr
      | _ ht => cases hpc.symm.trans ht
    · generalize e.thread = i at h hpc
      cases h with
      | _ ht => cases hpc.symm.trans ht
  · refine ⟨?_, by rwa [hbelow]⟩
    rw [step_other_pc h hthread (by rw [hpc]; simp), hpc]

/-- While all calls succeed, the handler never gets the mutex. -/
theorem selfBlocked_run {ys : List (Event (T ⊕ T))}
    (hx : Lock.Exclusive (fun i => (s.pc i).Holds) s.mtx) (hb : SelfBlocked s t)
    (h : ((handlerLts T).restrict Succeeds).Run s ys s') : SelfBlocked s' t := by
  refine (h.stable (P := fun s => Lock.Exclusive (fun i => (s.pc i).Holds) s.mtx ∧
    SelfBlocked s t) ?_ ⟨hx, hb⟩).2
  rintro s e s' ⟨hx, hb⟩ ⟨hc, h⟩
  exact ⟨exclusive_step h.2 hx, selfBlocked_step h hc hx hb⟩

/-- A handler that interrupts a holder of the mutex stores 1 and then asks for this mutex. -/
theorem selfBlocked_of_holder (hidle : s.pc (.inr t) = .idle) (hw : (s.pc (.inl t)).Waiting)
    (hholds : (s.pc (.inl t)).Holds) :
    ∃ ys s', (handlerLts T).Run s ys s' ∧ SelfBlocked s' t := by
  have hset : (handlerLts T).Step s (.set (.inr t)) (s.setPC (.inr t) .set_store) :=
    ⟨suspends_set hw, .set _ (.set hidle)⟩
  have hstore : (handlerLts T).Step (s.setPC (.inr t) .set_store) (.store (.inr t))
      { (s.setPC (.inr t) .set_store).setPC (.inr t) .set_lock with value := 1 } :=
    ⟨(handler_goes_on rfl (by simp) (by simp)).2, .set _ (.store setPC_self)⟩
  refine ⟨_, _, .cons hset (.single hstore), setPC_self, ?_⟩
  change (((s.setPC (.inr t) .set_store).setPC (.inr t) .set_lock).pc (.inl t)).Holds
  rwa [setPC_other (by simp), setPC_other (by simp)]

/-- In every run in which no handler interrupts a holder of the mutex, no handler blocks on the
mutex of its own thread, and each can return. A handler that interrupts a holder can reach a state
from which it never gets the mutex. -/
theorem handler_completes (T : Type*) [DecidableEq T] :
    (∀ s, ((handlerLts T).restrict NotHolding).Reachable s → ∀ t,
      ¬ SelfBlocked s t ∧ Completes s t) ∧
    (∀ s, (handlerLts T).Reachable s → ∀ t, s.pc (.inr t) = .idle →
      (s.pc (.inl t)).Waiting → (s.pc (.inl t)).Holds →
      ∃ ys s', (handlerLts T).Run s ys s' ∧ SelfBlocked s' t ∧
        ∀ zs s'', ((handlerLts T).restrict Succeeds).Run s' zs s'' → SelfBlocked s'' t) := by
  constructor
  · intro s h t
    have hi := handlerInv_reachable h
    refine ⟨?_, completes hi t⟩
    rintro ⟨hpc, hholds⟩
    exact hi.frozen t (by rw [hpc]; simp) hholds
  · intro s h t hidle hw hholds
    obtain ⟨ys, s', hrun, hb⟩ := selfBlocked_of_holder hidle hw hholds
    obtain ⟨xs, hx⟩ := h
    have hex := exclusive_reachable (hx.run hrun).reachable.of_restrict
    exact ⟨ys, s', hrun, hb, fun zs s'' hrun' => selfBlocked_run hex hb hrun'⟩

/-- The handler begins while the thread is asleep in `TecCV_wait`, and returns. -/
theorem handler_completes_asleep :
    ∃ xs s, ((handlerLts Nat).restrict NotHolding).History xs s ∧ .set (.inr 0) ∈ xs ∧
      s.pc (.inl 0) = .asleep ∧ s.pc (.inr 0) = .set_store ∧ Completes s 0 := by
  have hkeeps : ∀ {s : State (Nat ⊕ Nat)} {e : Event (Nat ⊕ Nat)}, e.thread = .inl 0 →
      NotHolding s e := by
    rintro s e he t rfl
    cases he
  have h0 : ((handlerLts Nat).restrict NotHolding).History [] (TecSignal_init (Nat ⊕ Nat)) :=
    .init rfl
  have h1 := h0.snoc ⟨hkeeps rfl, suspends_frame rfl rfl, Step.wait (.inl 0) (.wait rfl)⟩
  have h2 := h1.snoc ⟨hkeeps rfl, suspends_frame rfl rfl, Step.wait (.inl 0) (.load rfl)⟩
  have h3 := h2.snoc ⟨hkeeps rfl, suspends_frame rfl rfl, Step.wait (.inl 0) (.lock rfl rfl)⟩
  have h4 := h3.snoc ⟨hkeeps rfl, suspends_frame rfl rfl, Step.wait (.inl 0) (.check rfl)⟩
  have h5 := h4.snoc ⟨hkeeps rfl, suspends_frame rfl rfl, Step.wait (.inl 0) (.sleep rfl)⟩
  have h6 := h5.snoc ⟨fun t ht hholds => (by cases ht; exact hholds),
    @suspends_set Nat _ 0 trivial, Step.set (.inr 0) (.set rfl)⟩
  exact ⟨_, _, h6, List.mem_concat_self, rfl, rfl,
    ((handler_completes Nat).1 _ h6.reachable 0).2⟩

/-- The thread has the mutex and is about to test the value again when the handler begins. -/
theorem handler_deadlocks :
    ¬ ∀ s, (handlerLts Nat).Reachable s → ∀ t, ¬ SelfBlocked s t := by
  intro hclaim
  have hblocks : ∀ {xs s}, (handlerLts Nat).History xs s → s.pc (.inr 0) = .idle →
      (s.pc (.inl 0)).Waiting → (s.pc (.inl 0)).Holds → False := by
    intro xs s h hidle hw hholds
    obtain ⟨ys, s', hrun, hb⟩ := selfBlocked_of_holder hidle hw hholds
    exact hclaim s' (h.run hrun).reachable 0 hb
  have h0 : (handlerLts Nat).History [] (TecSignal_init (Nat ⊕ Nat)) := .init rfl
  have h1 := h0.snoc ⟨suspends_frame rfl rfl, Step.wait (.inl 0) (.wait rfl)⟩
  have h2 := h1.snoc ⟨suspends_frame rfl rfl, Step.wait (.inl 0) (.load rfl)⟩
  have h3 := h2.snoc ⟨suspends_frame rfl rfl, Step.wait (.inl 0) (.lock rfl rfl)⟩
  exact hblocks h3 rfl trivial trivial

end Tecc.Signal
