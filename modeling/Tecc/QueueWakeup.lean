import Tecc.QueueFifo
import Tecc.Lib.Cover
import Tecc.Lib.Lock

/-! The wakeups of the queue, with the mutex taken apart: a producer links its node and signals
before it unlocks, and a consumer that wakes has to take the mutex before it looks again. -/
namespace Tecc.Queue.Wakeup

open Linked Transition Cover

variable {T α : Type*} [DecidableEq T]

/-- Where a thread stands in `TecQueue_push` or `TecQueue_pop`. -/
inductive Pc (α : Type*) where
  | idle
  | push_lock (node : Addr) (obj : α)
  | push_enqueue (node : Addr) (obj : α)
  /-- The node is linked, `TecCV_signal` comes next. -/
  | push_signal
  | push_unlock
  | pop_lock
  /-- The test of the loop. -/
  | pop_check
  | pop_sleep
  /-- In `TecCV_wait`, which has released the mutex. -/
  | asleep
  /-- About to take the mutex again, inside of `TecCV_wait`. -/
  | woken
  /-- Behind the loop. -/
  | pop_take
  | pop_unlock (head : Addr) (obj : α)
  | pop_free (head : Addr) (obj : α)

/-- `mtx` tells whether the mutex is taken. -/
structure State (T α : Type*) where
  q : TecQueue
  heap : Heap α
  mtx : Bool
  pc : T → Pc α

def State.setPC (s : State T α) (t : T) (pc : Pc α) : State T α :=
  { s with pc := Function.update s.pc t pc }

inductive Event (T α : Type*) where
  | malloc (t : T) (obj : α)
  | lock (t : T)
  | enqueue (t : T) (obj : α)
  | signal (t : T)
  | unlock (t : T)
  | enter (t : T)
  | check (t : T)
  | sleep (t : T)
  | wake (t : T)
  | take (t : T) (obj : α)
  | free (t : T)

/-- The same place with the locked section as one step: its effect on the nodes is in place or
still to come. -/
def Pc.view : Pc α → Queue.Pc α
  | .idle | .push_signal | .push_unlock => .idle
  | .push_lock node obj | .push_enqueue node obj => .pushing node obj
  | .pop_lock | .pop_check | .pop_sleep | .pop_take => .popping
  | .asleep => .asleep
  | .woken => .woken
  | .pop_unlock head obj | .pop_free head obj => .freeing head obj

def State.view (s : State T α) : Queue.State T α := ⟨s.q, s.heap, fun t => (s.pc t).view⟩

/-- `TecCV_signal` puts the chosen sleepers on their way to the mutex. -/
def State.wake (s : State T α) (woken : T → Bool) : State T α :=
  { s with pc := fun u => if woken u then .woken else s.pc u }

inductive PushStep (t : T) : State T α → Event T α → State T α → Prop
  | malloc {s : State T α} {obj : α} {node : Addr}
      (ht : s.pc t = .idle) (hfree : s.heap node = none) :
      PushStep t s (.malloc t obj)
        { s.setPC t (.push_lock node obj) with
          heap := Function.update s.heap node (some ⟨obj, none⟩) }
  | lock {s : State T α} {obj : α} {node : Addr}
      (ht : s.pc t = .push_lock node obj) (hm : s.mtx = false) :
      PushStep t s (.lock t) { s.setPC t (.push_enqueue node obj) with mtx := true }
  | enqueue {s : State T α} {obj : α} {node : Addr} {q : TecQueue} {heap : Heap α}
      (ht : s.pc t = .push_enqueue node obj)
      (hq : TecQueue_push s.q s.heap node = some (q, heap)) :
      PushStep t s (.enqueue t obj) { s.setPC t .push_signal with q := q, heap := heap }
  | signal {s : State T α} {woken : T → Bool}
      (ht : s.pc t = .push_signal) (hw : Signals s.view.pc woken) :
      PushStep t s (.signal t) ((s.wake woken).setPC t .push_unlock)
  | unlock {s : State T α} (ht : s.pc t = .push_unlock) :
      PushStep t s (.unlock t) { s.setPC t .idle with mtx := false }

inductive PopStep (t : T) : State T α → Event T α → State T α → Prop
  | enter {s : State T α} (ht : s.pc t = .idle) : PopStep t s (.enter t) (s.setPC t .pop_lock)
  | lock {s : State T α} (ht : s.pc t = .pop_lock) (hm : s.mtx = false) :
      PopStep t s (.lock t) { s.setPC t .pop_check with mtx := true }
  | check {s : State T α} (ht : s.pc t = .pop_check) :
      PopStep t s (.check t) (s.setPC t (if s.q.head = none then .pop_sleep else .pop_take))
  | sleep {s : State T α} (ht : s.pc t = .pop_sleep) :
      PopStep t s (.sleep t) { s.setPC t .asleep with mtx := false }
  /-- A wakeup that no signal caused. -/
  | wake {s : State T α} (ht : s.pc t = .asleep) : PopStep t s (.wake t) (s.setPC t .woken)
  | relock {s : State T α} (ht : s.pc t = .woken) (hm : s.mtx = false) :
      PopStep t s (.lock t) { s.setPC t .pop_check with mtx := true }
  | take {s : State T α} {obj : α} {head : Addr} {q : TecQueue} (ht : s.pc t = .pop_take)
      (hq : TecQueue_pop s.q s.heap = some (q, head, obj)) :
      PopStep t s (.take t obj) { s.setPC t (.pop_unlock head obj) with q := q }
  | unlock {s : State T α} {obj : α} {head : Addr} (ht : s.pc t = .pop_unlock head obj) :
      PopStep t s (.unlock t) { s.setPC t (.pop_free head obj) with mtx := false }
  | free {s : State T α} {obj : α} {head : Addr} (ht : s.pc t = .pop_free head obj) :
      PopStep t s (.free t) { s.setPC t .idle with heap := Function.update s.heap head none }

inductive Step : State T α → Event T α → State T α → Prop
  | push {s s' : State T α} {e : Event T α} (t : T) (h : PushStep t s e s') : Step s e s'
  | pop {s s' : State T α} {e : Event T α} (t : T) (h : PopStep t s e s') : Step s e s'

/-- The queue after `TecQueue_init`, with every thread outside of it. -/
def wakeupLts (T α : Type*) [DecidableEq T] : Lts (State T α) (Event T α) where
  Init s := s.q = TecQueue_init ∧ (∀ p, s.heap p = none) ∧ s.mtx = false ∧ ∀ t, s.pc t = .idle
  Step := Step

/-- The thread holds the mutex. -/
def Pc.Holds : Pc α → Prop
  | .push_enqueue _ _ | .push_signal | .push_unlock => True
  | .pop_check | .pop_sleep | .pop_take | .pop_unlock _ _ => True
  | _ => False

/-- The thread will look at the queue without having to be woken, or is about to wake one that
does. -/
def Pc.Due : Pc α → Prop
  | .woken | .push_signal | .pop_check | .pop_take => True
  | _ => False

variable {s s' : State T α} {e : Event T α} {t u : T} {pc : Pc α} {ps : List Addr} {n : ℕ}
  {woken : T → Bool}

@[simp] theorem setPC_pc : (s.setPC t pc).pc = Function.update s.pc t pc := rfl

/-- Where the nodes stand after a step is seen in the coarse state. -/
theorem view_nodes {q : TecQueue} {heap : Heap α} {mtx : Bool}
    (h : Inv ⟨q, heap, Function.update s.view.pc t pc.view⟩ ps) :
    Inv (State.view ⟨q, heap, mtx, Function.update s.pc t pc⟩) ps := by
  have hpc : (fun u => (Function.update s.pc t pc u).view) = Function.update s.view.pc t pc.view :=
    Function.comp_update Pc.view s.pc t pc
  rwa [State.view, hpc]

theorem view_move {mtx : Bool} (h : Inv s.view ps)
    (hpc : pc.view = (s.pc t).view ∨ pc.view.own = none) :
    Inv (State.view ⟨s.q, s.heap, mtx, Function.update s.pc t pc⟩) ps := by
  refine view_nodes (h.moves ?_)
  intro u
  by_cases hut : u = t
  · subst hut
    rwa [Function.update_self]
  · exact .inl (Function.update_of_ne hut _ _)

omit [DecidableEq T] in
theorem view_pc (h : s.pc u = pc) : s.view.pc u = pc.view := congrArg Pc.view h

omit [DecidableEq T] in
theorem view_asleep (h : s.view.pc u = .asleep) : s.pc u = .asleep := by
  cases hpc : s.pc u <;> simp_all [State.view, Pc.view]

omit [DecidableEq T] in
/-- Only sleepers are signalled. -/
theorem wake_pc (hw : Signals s.view.pc woken) (u : T) :
    (s.wake woken).pc u = s.pc u ∨ s.pc u = .asleep ∧ (s.wake woken).pc u = .woken := by
  cases h : woken u with
  | false => exact .inl (by simp [State.wake, h])
  | true => exact .inr ⟨view_asleep (hw.1 u h), by simp [State.wake, h]⟩

theorem push_step_other (h : PushStep t s e s') (hu : u ≠ t) :
    s'.pc u = s.pc u ∨ s.pc u = .asleep ∧ s'.pc u = .woken := by
  cases h with
  | signal ht hw =>
    rw [setPC_pc, Function.update_of_ne hu]
    exact wake_pc hw u
  | _ => exact .inl (Function.update_of_ne hu _ _)

theorem pop_step_other (h : PopStep t s e s') (hu : u ≠ t) : s'.pc u = s.pc u := by
  cases h <;> exact Function.update_of_ne hu _ _

/-! Mutual exclusion -/

theorem push_step_move (h : PushStep t s e s') :
    Lock.Move (fun u => (s.pc u).Holds) (fun u => (s'.pc u).Holds) s.mtx s'.mtx := by
  have hothers : ∀ u, u ≠ t → (s'.pc u).Holds → (s.pc u).Holds := by
    intro u hu hholds
    obtain hsame | ⟨_, hwoken⟩ := push_step_other h hu
    · rwa [hsame] at hholds
    · rw [hwoken] at hholds
      exact hholds.elim
  cases h with
  | malloc ht hfree => exact .stay hothers (by simp [Pc.Holds]) rfl
  | lock ht hm => exact .take t hothers hm rfl
  | enqueue ht hq | signal ht hw =>
    refine .stay hothers ?_ rfl
    rw [ht]
    exact fun _ => trivial
  | unlock ht =>
    refine .release t ?_ ?_ hothers rfl
    · rw [ht]
      trivial
    · simp [Pc.Holds]

theorem pop_step_move (h : PopStep t s e s') :
    Lock.Move (fun u => (s.pc u).Holds) (fun u => (s'.pc u).Holds) s.mtx s'.mtx := by
  have hothers : ∀ u, u ≠ t → (s'.pc u).Holds → (s.pc u).Holds := by
    intro u hu hholds
    rwa [pop_step_other h hu] at hholds
  cases h with
  | lock ht hm | relock ht hm => exact .take t hothers hm rfl
  | sleep ht | unlock ht =>
    refine .release t ?_ ?_ hothers rfl
    · rw [ht]
      trivial
    · simp [Pc.Holds]
  | check ht | take ht hq =>
    refine .stay hothers ?_ rfl
    rw [ht]
    exact fun _ => trivial
  | enter ht | wake ht | free ht => exact .stay hothers (by simp [Pc.Holds]) rfl

theorem exclusive_step (h : Step s e s') (hx : Lock.Exclusive (fun u => (s.pc u).Holds) s.mtx) :
    Lock.Exclusive (fun u => (s'.pc u).Holds) s'.mtx := by
  cases h with
  | push t h => exact hx.move (push_step_move h)
  | pop t h => exact hx.move (pop_step_move h)

/-! A consumer that is about to sleep has found the queue empty -/

theorem slept_step (h : Step s e s') (hx : Lock.Exclusive (fun u => (s.pc u).Holds) s.mtx)
    (hs : ∀ u, s.pc u = .pop_sleep → s.q.head = none) :
    ∀ u, s'.pc u = .pop_sleep → s'.q.head = none := by
  intro u hu
  -- a step that changes the queue is made by the holder of the mutex
  have hchanges : ∀ t, u ≠ t → s.pc u = .pop_sleep → ¬ (s.pc t).Holds := by
    intro t hut hsleep hholds
    exact hut (hx.unique u t (by rw [hsleep]; trivial) hholds)
  cases h with
  | push t h =>
    have hut : u ≠ t := by
      rintro rfl
      cases h <;> cases (Function.update_self u _ _).symm.trans hu
    have hsleep : s.pc u = .pop_sleep := by
      obtain hsame | ⟨_, hwoken⟩ := push_step_other h hut
      · exact hsame.symm.trans hu
      · rw [hwoken] at hu
        cases hu
    cases h with
    | enqueue ht hq => exact absurd (by rw [ht]; trivial) (hchanges t hut hsleep)
    | _ => exact hs u hsleep
  | pop t h =>
    by_cases hut : u = t
    · subst hut
      cases h with
      | check ht =>
        rw [setPC_pc, Function.update_self] at hu
        by_contra hne
        have hhead : s.q.head ≠ none := hne
        rw [if_neg hhead] at hu
        cases hu
      | _ => cases (Function.update_self u _ _).symm.trans hu
    · have hsleep : s.pc u = .pop_sleep := (pop_step_other h hut).symm.trans hu
      cases h with
      | take ht hq => exact absurd (by rw [ht]; trivial) (hchanges t hut hsleep)
      | _ => exact hs u hsleep

/-! The count -/

/-- While somebody sleeps, each of `n` objects has a thread of its own on the way to it. -/
def Wakeful (s : State T α) (n : ℕ) : Prop :=
  (∃ u, s.pc u = .asleep) → Covered n fun u => (s.pc u).Due

omit [DecidableEq T] in
theorem Wakeful.zero (s : State T α) : Wakeful s 0 := fun _ => .zero _

/-- A thread that does not fall asleep and stays due. -/
theorem Wakeful.move (h : Wakeful s n) (hpc : s'.pc = Function.update s.pc t pc)
    (hawake : pc ≠ .asleep) (hdue : (s.pc t).Due → pc.Due) : Wakeful s' n := by
  rintro ⟨u, hu⟩
  have hut : u ≠ t := by
    rintro rfl
    exact hawake (by rwa [hpc, Function.update_self] at hu)
  refine (h ⟨u, by rwa [hpc, Function.update_of_ne hut] at hu⟩).mono ?_
  intro v hv
  by_cases hvt : v = t
  · subst hvt
    rw [hpc, Function.update_self]
    exact hdue hv
  · rwa [hpc, Function.update_of_ne hvt]

/-- The producer of a new object is due for it until its signal. -/
theorem Wakeful.enqueue (h : Wakeful s n) (hpc : s'.pc = Function.update s.pc t .push_signal)
    (ht : ¬ (s.pc t).Due) : Wakeful s' (n + 1) := by
  rintro ⟨u, hu⟩
  have hut : u ≠ t := by
    rintro rfl
    rw [hpc, Function.update_self] at hu
    cases hu
  refine (h ⟨u, by rwa [hpc, Function.update_of_ne hut] at hu⟩).gain (i := t) ht ?_ ?_
  · rw [hpc, Function.update_self]
    trivial
  · intro v hv
    have hvt : v ≠ t := by
      rintro rfl
      exact ht hv
    rwa [hpc, Function.update_of_ne hvt]

/-- The signal passes the object of the producer on to a sleeper, if there is one. -/
theorem Wakeful.signal (h : Wakeful s n) (ht : s.pc t = .push_signal)
    (hw : Signals s.view.pc woken) : Wakeful ((s.wake woken).setPC t .push_unlock) n := by
  rintro ⟨u, hu⟩
  have hut : u ≠ t := by
    rintro rfl
    cases (Function.update_self u _ _).symm.trans hu
  have hsleep : s.pc u = .asleep := by
    rw [setPC_pc, Function.update_of_ne hut] at hu
    obtain hsame | ⟨_, hwoken⟩ := wake_pc hw u
    · exact hsame.symm.trans hu
    · rw [hwoken] at hu
      cases hu
  obtain ⟨v, hv⟩ := hw.2 ⟨u, by simp [State.view, Pc.view, hsleep]⟩
  have hvsleep : s.pc v = .asleep := view_asleep (hw.1 v hv)
  have hvt : v ≠ t := by
    rintro rfl
    cases hvsleep.symm.trans ht
  refine (h ⟨u, hsleep⟩).pass (i := t) (j := v) ?_ ?_ ?_
  · rw [hvsleep]
    exact id
  · rw [setPC_pc, Function.update_of_ne hvt]
    simp [State.wake, hv, Pc.Due]
  · intro w hwt hdue
    rw [setPC_pc, Function.update_of_ne hwt]
    obtain hsame | ⟨_, hwoken⟩ := wake_pc hw w
    · rwa [hsame]
    · rw [hwoken]
      trivial

/-- The consumer that takes an object was due for it. -/
theorem Wakeful.take (h : Wakeful s (n + 1)) (hpc : s'.pc = Function.update s.pc t pc)
    (hawake : pc ≠ .asleep) : Wakeful s' n := by
  rintro ⟨u, hu⟩
  have hut : u ≠ t := by
    rintro rfl
    exact hawake (by rwa [hpc, Function.update_self] at hu)
  refine (h ⟨u, by rwa [hpc, Function.update_of_ne hut] at hu⟩).spend (i := t) ?_
  intro v hvt hv
  rwa [hpc, Function.update_of_ne hvt]

/-- The nodes of the queue are `ps`, and they are covered. -/
structure Counted (s : State T α) (ps : List Addr) : Prop where
  nodes : Inv s.view ps
  wakeful : Wakeful s ps.length

omit [DecidableEq T] in
theorem Counted.empty (h : Inv s.view ps) (hh : s.q.head = none) : ps = [] :=
  List.head?_eq_none_iff.mp ((chain_head h.chain).symm.trans hh)

theorem push_step_counted (h : PushStep t s e s') (hc : Counted s ps) :
    ∃ ps', Counted s' ps' := by
  cases h with
  | @malloc obj node ht hfree =>
    have hidle : s.view.pc t = .idle := view_pc ht
    exact ⟨ps, view_nodes (hc.nodes.malloc hidle hfree),
      hc.wakeful.move rfl (by simp) (by rw [ht]; exact id)⟩
  | @lock obj node ht hm =>
    exact ⟨ps, view_move hc.nodes (.inl (by rw [ht]; rfl)),
      hc.wakeful.move rfl (by simp) (by rw [ht]; exact id)⟩
  | @enqueue obj node q heap ht hq =>
    have hpushing : s.view.pc t = .pushing node obj := view_pc ht
    have hpushed := (hc.nodes.push hpushing hq (fun _ => false)).1
    refine ⟨ps ++ [node], view_nodes hpushed, ?_⟩
    rw [List.length_append, List.length_singleton]
    exact hc.wakeful.enqueue rfl (by rw [ht]; exact id)
  | @signal woken ht hw =>
    refine ⟨ps, ?_, hc.wakeful.signal ht hw⟩
    have hwoken : Inv (s.wake woken).view ps := by
      refine hc.nodes.moves ?_
      intro u
      obtain hsame | ⟨_, hwoken⟩ := wake_pc hw u
      · exact .inl (congrArg Pc.view hsame)
      · exact .inr (by rw [hwoken]; rfl)
    exact view_move hwoken (.inr rfl)
  | unlock ht =>
    exact ⟨ps, view_move hc.nodes (.inr rfl), hc.wakeful.move rfl (by simp) (by rw [ht]; exact id)⟩

theorem pop_step_counted (h : PopStep t s e s') (hc : Counted s ps)
    (hsleep : s.pc t = .pop_sleep → s.q.head = none) : ∃ ps', Counted s' ps' := by
  cases h with
  | enter ht =>
    exact ⟨ps, view_move hc.nodes (.inr rfl), hc.wakeful.move rfl (by simp) (by rw [ht]; exact id)⟩
  | lock ht hm | relock ht hm =>
    exact ⟨ps, view_move hc.nodes (.inr rfl),
      hc.wakeful.move rfl (by simp) (fun _ => trivial)⟩
  | check ht =>
    by_cases hh : s.q.head = none
    · rw [if_pos hh]
      have hempty := Counted.empty hc.nodes hh
      subst hempty
      exact ⟨[], view_move hc.nodes (.inr rfl), .zero _⟩
    · rw [if_neg hh]
      exact ⟨ps, view_move hc.nodes (.inr rfl),
        hc.wakeful.move rfl (by simp) (fun _ => trivial)⟩
  | sleep ht =>
    have hempty := Counted.empty hc.nodes (hsleep ht)
    subst hempty
    exact ⟨[], view_move hc.nodes (.inr rfl), .zero _⟩
  | wake ht =>
    exact ⟨ps, view_move hc.nodes (.inr rfl),
      hc.wakeful.move rfl (by simp) (fun _ => trivial)⟩
  | @take obj head q ht hq =>
    obtain ⟨rest, hpopped, hobjs⟩ := hc.nodes.pop (t := t) hq
    have hlength : ps.length = rest.length + 1 := by
      have halive : ∀ p ∈ ps, (s.heap p).isSome := hc.nodes.alive
      have hrest : ∀ p ∈ rest, (s.heap p).isSome := hpopped.alive
      have hcount : (objs s.heap ps).length = (objs s.heap rest).length + 1 :=
        congrArg List.length hobjs
      rwa [objs_length halive, objs_length hrest] at hcount
    have hwakeful := hc.wakeful
    rw [hlength] at hwakeful
    exact ⟨rest, view_nodes hpopped, hwakeful.take rfl (by simp)⟩
  | @unlock obj head ht =>
    exact ⟨ps, view_move hc.nodes (.inl (by rw [ht]; rfl)),
      hc.wakeful.move rfl (by simp) (by rw [ht]; exact id)⟩
  | @free obj head ht =>
    have hfreeing : s.view.pc t = .freeing head obj := view_pc ht
    exact ⟨ps, view_nodes (hc.nodes.free hfreeing),
      hc.wakeful.move rfl (by simp) (by rw [ht]; exact id)⟩

/-- The invariant of all runs. -/
structure Safe (s : State T α) : Prop where
  exclusive : Lock.Exclusive (fun u => (s.pc u).Holds) s.mtx
  slept : ∀ u, s.pc u = .pop_sleep → s.q.head = none
  counted : ∃ ps, Counted s ps

theorem safe_initial (h : (wakeupLts T α).Init s) : Safe s := by
  obtain ⟨hq, hheap, hmtx, hpc⟩ := h
  have hview : (queueLts T α).Init s.view :=
    ⟨hq, hheap, fun t => view_pc (hpc t)⟩
  refine ⟨⟨?_, ?_⟩, ?_, [], inv_initial hview, .zero s⟩
  · intro u hu
    rw [hpc] at hu
    exact hu.elim
  · intro u v hu
    rw [hpc] at hu
    exact hu.elim
  · intro u hu
    cases (hpc u).symm.trans hu

theorem safe_step (h : Step s e s') (hs : Safe s) : Safe s' where
  exclusive := exclusive_step h hs.exclusive
  slept := slept_step h hs.exclusive hs.slept
  counted := by
    obtain ⟨ps, hc⟩ := hs.counted
    cases h with
    | push t h => exact push_step_counted h hc
    | pop t h => exact pop_step_counted h hc (hs.slept t)

theorem safe_reachable (h : (wakeupLts T α).Reachable s) : Safe s :=
  h.invariant (fun _ hi => safe_initial hi) (fun _ _ _ hs hstep => safe_step hstep hs)

omit [DecidableEq T] in
/-- With the mutex free, those that are due are the woken consumers. -/
theorem Safe.due_woken (h : Safe s) (hm : s.mtx = false) (hu : (s.pc u).Due) :
    s.pc u = .woken := by
  have hfree : ¬ (s.pc u).Holds := (hm ▸ h.exclusive).not_held
  cases hpc : s.pc u <;> simp_all [Pc.Due, Pc.Holds]

/-- No wakeup of the queue is lost. Whenever the mutex is free and some consumer sleeps, there is
for each queued object a consumer that was signalled or woke up and has not taken the mutex yet;
so an object is never queued while consumers sleep and nobody is on the way to it. -/
theorem queue_no_lost_wakeup (s : State T α) (h : (wakeupLts T α).Reachable s) :
    (s.mtx = false → (∃ t, s.pc t = .asleep) →
      ∃ ps, Chain (nextOf s.heap) s.q.head ps ∧
        (ps.length : ℕ∞) ≤ {t | s.pc t = .woken}.encard) ∧
      ¬ (s.q.head ≠ none ∧ (∃ t, s.pc t = .asleep) ∧ ∀ t, ¬ (s.pc t).Due) ∧
      ¬ (s.mtx = false ∧ s.q.head ≠ none ∧ (∃ t, s.pc t = .asleep) ∧ ∀ t, s.pc t ≠ .woken) := by
  have hsafe := safe_reachable h
  obtain ⟨ps, hc⟩ := hsafe.counted
  have hdue : s.q.head ≠ none → (∃ t, s.pc t = .asleep) → ∃ t, (s.pc t).Due := by
    intro hh hsleep
    refine (hc.wakeful hsleep).exists_due ?_
    intro hzero
    have hempty := chain_head hc.nodes.chain
    rw [List.length_eq_zero_iff.mp hzero] at hempty
    exact hh hempty
  refine ⟨?_, ?_, ?_⟩
  · intro hm hsleep
    exact ⟨ps, hc.nodes.chain, (hc.wakeful hsleep).mono fun u hu => hsafe.due_woken hm hu⟩
  · rintro ⟨hh, hsleep, hnone⟩
    obtain ⟨t, ht⟩ := hdue hh hsleep
    exact hnone t ht
  · rintro ⟨hm, hh, hsleep, hnone⟩
    obtain ⟨t, ht⟩ := hdue hh hsleep
    exact hnone t (hsafe.due_woken hm ht)

/-- Two consumers sleep, a producer pushes one object and signals one of them. -/
theorem queue_no_lost_wakeup_two_sleepers :
    ∃ s : State Nat Nat, (wakeupLts Nat Nat).Reachable s ∧ s.mtx = false ∧ s.pc 2 = .asleep ∧
      s.q.head ≠ none ∧ ∃ ps, Chain (nextOf s.heap) s.q.head ps ∧
        (ps.length : ℕ∞) ≤ {t | s.pc t = .woken}.encard := by
  have h0 : (wakeupLts Nat Nat).History []
      ⟨⟨none, none⟩, fun _ => none, false, fun _ => .idle⟩ :=
    .init ⟨rfl, fun _ => rfl, rfl, fun _ => rfl⟩
  have h1 := h0.snoc (Step.pop 1 (.enter rfl))
  have h2 := h1.snoc (Step.pop 1 (.lock rfl rfl))
  have h3 := h2.snoc (Step.pop 1 (.check rfl))
  have h4 := h3.snoc (Step.pop 1 (.sleep rfl))
  have h5 := h4.snoc (Step.pop 2 (.enter rfl))
  have h6 := h5.snoc (Step.pop 2 (.lock rfl rfl))
  have h7 := h6.snoc (Step.pop 2 (.check rfl))
  have h8 := h7.snoc (Step.pop 2 (.sleep rfl))
  have h9 := h8.snoc (Step.push 0 (@PushStep.malloc _ _ _ _ _ 7 4 rfl rfl))
  have h10 := h9.snoc (Step.push 0 (@PushStep.lock _ _ _ _ _ 7 4 rfl rfl))
  have h11 := h10.snoc (Step.push 0 (@PushStep.enqueue _ _ _ _ _ 7 4 _ _ rfl rfl))
  have h12 := h11.snoc (Step.push 0 (.signal rfl (@signals_one _ _ _ 1 _ rfl)))
  have h13 := h12.snoc (Step.push 0 (.unlock rfl))
  exact ⟨_, h13.reachable, rfl, rfl, by simp [State.setPC, State.wake],
    (queue_no_lost_wakeup _ h13.reachable).1 rfl ⟨2, rfl⟩⟩

end Tecc.Queue.Wakeup
