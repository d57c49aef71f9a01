import Tecc.Lib.Transition
import Tecc.Lib.Linked
import Mathlib.Logic.Function.Basic

/-! The thread-safe queue of tecc_queue.c: nodes on the heap, a head and a tail pointer, and
threads that push and pop. Each section that holds the mutex is one step. -/
namespace Tecc.Queue

variable {T α : Type*} [DecidableEq T]

abbrev Addr := Nat

structure TecQueueNode (α : Type*) where
  obj : α
  next : Option Addr

structure TecQueue where
  head : Option Addr
  tail : Option Addr

/-- The allocated nodes. -/
abbrev Heap (α : Type*) := Addr → Option (TecQueueNode α)

def TecQueue_init : TecQueue := ⟨none, none⟩

/-- The locked section of `TecQueue_push`; none when it would touch a freed node. -/
def TecQueue_push (q : TecQueue) (heap : Heap α) (node : Addr) : Option (TecQueue × Heap α) :=
  match q.tail with
  | some tail =>
    match heap tail with
    | some n => some (⟨q.head, some node⟩, Function.update heap tail (some ⟨n.obj, some node⟩))
    | none => none
  | none => some (⟨some node, some node⟩, heap)

/-- The locked section of `TecQueue_pop` behind its wait loop: the new queue, the node to be
freed and its object; none when there is no node or it is freed. -/
def TecQueue_pop (q : TecQueue) (heap : Heap α) : Option (TecQueue × Addr × α) :=
  match q.head with
  | some head =>
    match heap head with
    | some n => some (⟨n.next, if n.next = none then none else q.tail⟩, head, n.obj)
    | none => none
  | none => none

/-- Where a thread stands in a push or a pop. -/
inductive Pc (α : Type*) where
  | idle
  /-- The node is made and the mutex not yet held. -/
  | pushing (node : Addr) (obj : α)
  /-- Called, and the mutex not yet held. -/
  | popping
  /-- In `TecCV_wait`, which has released the mutex. -/
  | asleep
  /-- Out of the wait, about to hold the mutex again. -/
  | woken
  /-- The mutex is released, `TECC_FREE(head)` comes next. -/
  | freeing (head : Addr) (obj : α)

structure State (T α : Type*) where
  q : TecQueue
  heap : Heap α
  pc : T → Pc α

def State.setPC (s : State T α) (t : T) (pc : Pc α) : State T α :=
  { s with pc := Function.update s.pc t pc }

inductive Event (T α : Type*) where
  | malloc (t : T) (obj : α)
  | push (t : T) (obj : α)
  | enter (t : T)
  | sleep (t : T)
  | wake (t : T)
  | pop (t : T) (obj : α)
  | free (t : T)

/-- The threads that `TecCV_signal` wakes: sleepers only, and at least one if there is any. -/
def Signals (pc : T → Pc α) (woken : T → Bool) : Prop :=
  (∀ t, woken t = true → pc t = .asleep) ∧
    ((∃ t, pc t = .asleep) → ∃ t, woken t = true)

inductive Step : State T α → Event T α → State T α → Prop
  /-- `TECC_MALLOC` returns a block that is not in use. -/
  | malloc {s : State T α} {t : T} {obj : α} {node : Addr}
      (ht : s.pc t = .idle) (hfree : s.heap node = none) :
      Step s (.malloc t obj)
        { s.setPC t (.pushing node obj) with
          heap := Function.update s.heap node (some ⟨obj, none⟩) }
  | push {s : State T α} {t : T} {obj : α} {node : Addr} {q : TecQueue} {heap : Heap α}
      {woken : T → Bool} (ht : s.pc t = .pushing node obj)
      (hq : TecQueue_push s.q s.heap node = some (q, heap)) (hw : Signals s.pc woken) :
      Step s (.push t obj)
        ⟨q, heap, Function.update (fun u => if woken u then .woken else s.pc u) t .idle⟩
  | enter {s : State T α} {t : T} (ht : s.pc t = .idle) : Step s (.enter t) (s.setPC t .popping)
  | sleep {s : State T α} {t : T} (ht : s.pc t = .popping ∨ s.pc t = .woken)
      (hh : s.q.head = none) : Step s (.sleep t) (s.setPC t .asleep)
  /-- A wakeup that no signal caused. -/
  | wake {s : State T α} {t : T} (ht : s.pc t = .asleep) : Step s (.wake t) (s.setPC t .woken)
  | pop {s : State T α} {t : T} {obj : α} {head : Addr} {q : TecQueue}
      (ht : s.pc t = .popping ∨ s.pc t = .woken)
      (hq : TecQueue_pop s.q s.heap = some (q, head, obj)) :
      Step s (.pop t obj) { s.setPC t (.freeing head obj) with q := q }
  | free {s : State T α} {t : T} {obj : α} {head : Addr} (ht : s.pc t = .freeing head obj) :
      Step s (.free t) { s.setPC t .idle with heap := Function.update s.heap head none }

/-- The queue after `TecQueue_init`, with every thread outside of it. -/
def queueLts (T α : Type*) [DecidableEq T] : Transition.Lts (State T α) (Event T α) where
  Init s := s.q = TecQueue_init ∧ (∀ p, s.heap p = none) ∧ ∀ t, s.pc t = .idle
  Step := Step

end Tecc.Queue
