import Tecc.QueueWakeup

/-! `TecQueue_push` and `TecQueue_pop` taken apart into their single loads and stores. What
`TECC_MALLOC` returns is not initialized; a load of a member that nobody has stored, or of a freed
node, is not possible. -/
namespace Tecc.Queue.Fine

open Linked Transition

variable {T α : Type*} [DecidableEq T]

/-- A node in memory; `none` stands for a member that nobody has stored. -/
structure Cell (α : Type*) where
  obj : Option α
  next : Option (Option Addr)

/-- Where a thread stands in `TecQueue_push` or `TecQueue_pop`, with its local variables. -/
inductive Pc (α : Type*) where
  | idle
  /-- `node->obj = obj` comes next. -/
  | push_obj (node : Addr) (obj : α)
  | push_next (node : Addr) (obj : α)
  | push_lock (node : Addr) (obj : α)
  /-- The test of `q->tail`. -/
  | push_test (node : Addr) (obj : α)
  /-- `q->tail->next = node` -/
  | push_link (node : Addr) (obj : α)
  /-- `q->head = node` -/
  | push_head (node : Addr) (obj : α)
  /-- `q->tail = node` -/
  | push_tail (node : Addr)
  | push_signal
  | push_unlock
  | pop_lock
  /-- The test of the loop. -/
  | pop_check
  | pop_sleep
  | asleep
  | woken
  /-- `head = q->head` -/
  | pop_head
  /-- `obj = head->obj` -/
  | pop_obj (head : Addr)
  /-- The load of `q->head = head->next`. -/
  | pop_next (head : Addr) (obj : α)
  | pop_store (head : Addr) (obj : α) (next : Option Addr)
  /-- The test of `q->head` behind it. -/
  | pop_test (head : Addr) (obj : α)
  /-- `q->tail = NULL` -/
  | pop_tail (head : Addr) (obj : α)
  | pop_unlock (head : Addr) (obj : α)
  | pop_free (head : Addr) (obj : α)

/-- `mtx` is the thread that holds the mutex. -/
structure State (T α : Type*) where
  q : TecQueue
  heap : Addr → Option (Cell α)
  mtx : Option T
  pc : T → Pc α

def State.setPC (s : State T α) (t : T) (pc : Pc α) : State T α :=
  { s with pc := Function.update s.pc t pc }

def State.wake (s : State T α) (woken : T → Bool) : State T α :=
  { s with pc := fun u => if woken u then .woken else s.pc u }

inductive Event (T α : Type*) where
  | malloc (t : T) (node : Addr)
  /-- The node has both of its members. -/
  | made (t : T) (obj : α)
  | lock (t : T)
  /-- The store that makes the node one of the queue. -/
  | link (t : T) (obj : α)
  | signal (t : T)
  | unlock (t : T)
  | enter (t : T)
  | check (t : T)
  | sleep (t : T)
  | wake (t : T)
  /-- The store that takes the node out of the queue. -/
  | take (t : T) (obj : α)
  | free (t : T) (node : Addr)
  | other

/-- The threads that `TecCV_signal` wakes. -/
def Signals (pc : T → Pc α) (woken : T → Bool) : Prop :=
  (∀ t, woken t = true → pc t = .asleep) ∧
    ((∃ t, pc t = .asleep) → ∃ t, woken t = true)

inductive PushStep (t : T) : State T α → Event T α → State T α → Prop
  | malloc {s : State T α} {obj : α} {node : Addr}
      (ht : s.pc t = .idle) (hfree : s.heap node = none) :
      PushStep t s (.malloc t node)
        { s.setPC t (.push_obj node obj) with
          heap := Function.update s.heap node (some ⟨none, none⟩) }
  | obj {s : State T α} {obj : α} {node : Addr} {cell : Cell α}
      (ht : s.pc t = .push_obj node obj) (hcell : s.heap node = some cell) :
      PushStep t s .other
        { s.setPC t (.push_next node obj) with
          heap := Function.update s.heap node (some { cell with obj := some obj }) }
  | next {s : State T α} {obj : α} {node : Addr} {cell : Cell α}
      (ht : s.pc t = .push_next node obj) (hcell : s.heap node = some cell) :
      PushStep t s (.made t obj)
        { s.setPC t (.push_lock node obj) with
          heap := Function.update s.heap node (some { cell with next := some none }) }
  | lock {s : State T α} {obj : α} {node : Addr}
      (ht : s.pc t = .push_lock node obj) (hm : s.mtx = none) :
      PushStep t s (.lock t) { s.setPC t (.push_test node obj) with mtx := some t }
  | test {s : State T α} {obj : α} {node : Addr} (ht : s.pc t = .push_test node obj) :
      PushStep t s .other
        (s.setPC t (if s.q.tail = none then .push_head node obj else .push_link node obj))
  | link {s : State T α} {obj : α} {node tail : Addr} {cell : Cell α}
      (ht : s.pc t = .push_link node obj) (hq : s.q.tail = some tail)
      (hcell : s.heap tail = some cell) :
      PushStep t s (.link t obj)
        { s.setPC t (.push_tail node) with
          heap := Function.update s.heap tail (some { cell with next := some (some node) }) }
  | head {s : State T α} {obj : α} {node : Addr} (ht : s.pc t = .push_head node obj) :
      PushStep t s (.link t obj)
        { s.setPC t (.push_tail node) with q := { s.q with head := some node } }
  | tail {s : State T α} {node : Addr} (ht : s.pc t = .push_tail node) :
      PushStep t s .other
        { s.setPC t .push_signal with q := { s.q with tail := some node } }
  | signal {s : State T α} {woken : T → Bool}
      (ht : s.pc t = .push_signal) (hw : Signals s.pc woken) :
      PushStep t s (.signal t) ((s.wake woken).setPC t .push_unlock)
  | unlock {s : State T α} (ht : s.pc t = .push_unlock) :
      PushStep t s (.unlock t) { s.setPC t .idle with mtx := none }

inductive PopStep (t : T) : State T α → Event T α → State T α → Prop
  | enter {s : State T α} (ht : s.pc t = .idle) : PopStep t s (.enter t) (s.setPC t .pop_lock)
  | lock {s : State T α} (ht : s.pc t = .pop_lock) (hm : s.mtx = none) :
      PopStep t s (.lock t) { s.setPC t .pop_check with mtx := some t }
  | check {s : State T α} (ht : s.pc t = .pop_check) :
      PopStep t s (.check t) (s.setPC t (if s.q.head = none then .pop_sleep else .pop_head))
  | sleep {s : State T α} (ht : s.pc t = .pop_sleep) :
      PopStep t s (.sleep t) { s.setPC t .asleep with mtx := none }
  /-- A wakeup that no signal caused. -/
  | wake {s : State T α} (ht : s.pc t = .asleep) : PopStep t s (.wake t) (s.setPC t .woken)
  | relock {s : State T α} (ht : s.pc t = .woken) (hm : s.mtx = none) :
      PopStep t s (.lock t) { s.setPC t .pop_check with mtx := some t }
  | head {s : State T α} {head : Addr} (ht : s.pc t = .pop_head) (hq : s.q.head = some head) :
      PopStep t s .other (s.setPC t (.pop_obj head))
  | obj {s : State T α} {head : Addr} {cell : Cell α} {obj : α} (ht : s.pc t = .pop_obj head)
      (hcell : s.heap head = some cell) (hobj : cell.obj = some obj) :
      PopStep t s .other (s.setPC t (.pop_next head obj))
  | next {s : State T α} {head : Addr} {cell : Cell α} {obj : α} {next : Option Addr}
      (ht : s.pc t = .pop_next head obj) (hcell : s.heap head = some cell)
      (hnext : cell.next = some next) :
      PopStep t s .other (s.setPC t (.pop_store head obj next))
  | store {s : State T α} {head : Addr} {obj : α} {next : Option Addr}
      (ht : s.pc t = .pop_store head obj next) :
      PopStep t s (.take t obj)
        { s.setPC t (.pop_test head obj) with q := { s.q with head := next } }
  | test {s : State T α} {head : Addr} {obj : α} (ht : s.pc t = .pop_test head obj) :
      PopStep t s .other
        (s.setPC t (if s.q.head = none then .pop_tail head obj else .pop_unlock head obj))
  | tail {s : State T α} {head : Addr} {obj : α} (ht : s.pc t = .pop_tail head obj) :
      PopStep t s .other
        { s.setPC t (.pop_unlock head obj) with q := { s.q with tail := none } }
  | unlock {s : State T α} {head : Addr} {obj : α} (ht : s.pc t = .pop_unlock head obj) :
      PopStep t s (.unlock t) { s.setPC t (.pop_free head obj) with mtx := none }
  | free {s : State T α} {head : Addr} {obj : α} {cell : Cell α}
      (ht : s.pc t = .pop_free head obj) (hcell : s.heap head = some cell) :
      PopStep t s (.free t head)
        { s.setPC t .idle with heap := Function.update s.heap head none }

inductive Step : State T α → Event T α → State T α → Prop
  | push {s s' : State T α} {e : Event T α} (t : T) (h : PushStep t s e s') : Step s e s'
  | pop {s s' : State T α} {e : Event T α} (t : T) (h : PopStep t s e s') : Step s e s'

/-- The queue after `TecQueue_init`, with every thread outside of it. -/
def fineLts (T α : Type*) [DecidableEq T] : Lts (State T α) (Event T α) where
  Init s := s.q = TecQueue_init ∧ (∀ p, s.heap p = none) ∧ s.mtx = none ∧ ∀ t, s.pc t = .idle
  Step := Step

/-! The locked sections as a whole -/

/-- A node counts from when it has both of its members. -/
def Cell.complete (cell : Cell α) : Option (TecQueueNode α) :=
  match cell.obj, cell.next with
  | some obj, some next => some ⟨obj, next⟩
  | _, _ => none

/-- The tail as it is going to be when the locked section is done. -/
def Pc.tail (q : TecQueue) : Pc α → Option Addr
  | .push_tail node => some node
  | .pop_test _ _ | .pop_tail _ _ => if q.head = none then none else q.tail
  | _ => q.tail

/-- The same place where link and take are one step. -/
def Pc.view : Pc α → Wakeup.Pc α
  | .idle | .push_obj _ _ | .push_next _ _ => .idle
  | .push_lock node obj => .push_lock node obj
  | .push_test node obj | .push_link node obj | .push_head node obj => .push_enqueue node obj
  | .push_tail _ | .push_signal => .push_signal
  | .push_unlock => .push_unlock
  | .pop_lock => .pop_lock
  | .pop_check => .pop_check
  | .pop_sleep => .pop_sleep
  | .asleep => .asleep
  | .woken => .woken
  | .pop_head | .pop_obj _ | .pop_next _ _ | .pop_store _ _ _ => .pop_take
  | .pop_test head obj | .pop_tail head obj | .pop_unlock head obj => .pop_unlock head obj
  | .pop_free head obj => .pop_free head obj

def nodes (heap : Addr → Option (Cell α)) : Heap α := fun p => (heap p).bind Cell.complete

/-- Only who holds the mutex may have left the queue half changed. -/
def State.view (s : State T α) : Wakeup.State T α where
  q := ⟨s.q.head, (s.mtx.map s.pc).elim s.q.tail (Pc.tail s.q)⟩
  heap := nodes s.heap
  mtx := s.mtx.isSome
  pc t := (s.pc t).view

def Event.view : Event T α → Option (Wakeup.Event T α)
  | .malloc _ _ | .other => none
  | .made t obj => some (.malloc t obj)
  | .lock t => some (.lock t)
  | .link t obj => some (.enqueue t obj)
  | .signal t => some (.signal t)
  | .unlock t => some (.unlock t)
  | .enter t => some (.enter t)
  | .check t => some (.check t)
  | .sleep t => some (.sleep t)
  | .wake t => some (.wake t)
  | .take t obj => some (.take t obj)
  | .free t _ => some (.free t)

variable {s s' : State T α} {e : Event T α} {t u : T} {pc : Pc α} {ps : List Addr}
  {heap : Addr → Option (Cell α)} {q : TecQueue} {node p : Addr} {cell : Cell α}

/-! What a thread knows of the memory where it stands -/

/-- The node that the thread fills, as far as it is. -/
def Pc.fills : Pc α → Option (Addr × Cell α)
  | .push_obj node _ => some (node, ⟨none, none⟩)
  | .push_next node obj => some (node, ⟨some obj, none⟩)
  | _ => none

/-- The local variables agree with the queue. -/
def Pc.Reads (q : TecQueue) (heap : Heap α) : Pc α → Prop
  | .push_link _ _ => q.tail ≠ none
  | .push_head _ _ => q.tail = none
  | .pop_head => q.head ≠ none
  | .pop_obj head => q.head = some head
  | .pop_next head obj => q.head = some head ∧ ∃ next, heap head = some ⟨obj, next⟩
  | .pop_store head obj next => q.head = some head ∧ heap head = some ⟨obj, next⟩
  | .pop_tail _ _ => q.head = none
  | _ => True

structure Local (s : State T α) : Prop where
  held : ∀ t, s.mtx = some t ↔ (s.pc t).view.Holds
  filled : ∀ t node cell, (s.pc t).fills = some (node, cell) → s.heap node = some cell
  apart : ∀ t u node cell cell', (s.pc t).fills = some (node, cell) →
    (s.pc u).fills = some (node, cell') → t = u
  reads : ∀ t, (s.pc t).Reads s.q (nodes s.heap)

omit [DecidableEq T] in
theorem reads_of_not_holds (h : ¬ pc.view.Holds) (q : TecQueue) (heap : Heap α) :
    pc.Reads q heap := by
  cases pc <;> first | trivial | exact absurd trivial h

/-- Only the first node is read. -/
theorem reads_frame {heap heap' : Heap α} (hheap : ∀ p, q.head = some p → heap' p = heap p)
    (h : pc.Reads q heap) : pc.Reads q heap' := by
  cases pc with
  | pop_next head obj =>
    obtain ⟨hq, next, hnode⟩ := h
    exact ⟨hq, next, (hheap head hq).trans hnode⟩
  | pop_store head obj next => exact ⟨h.1, (hheap head h.1).trans h.2⟩
  | _ => exact h

theorem fills_incomplete {cell : Cell α} (h : pc.fills = some (node, cell)) :
    cell.complete = none := by
  cases pc with
  | push_obj | push_next =>
    cases h
    rfl
  | _ => cases h

omit [DecidableEq T] in
theorem node_complete (h : nodes heap p ≠ none) (hcell : heap p = some cell) :
    ∃ obj next, cell = ⟨some obj, some next⟩ ∧ nodes heap p = some ⟨obj, next⟩ := by
  obtain ⟨obj, next⟩ := cell
  cases obj with
  | none => exact absurd (by rw [nodes, hcell]; rfl) h
  | some obj =>
    cases next with
    | none => exact absurd (by rw [nodes, hcell]; rfl) h
    | some next => exact ⟨obj, next, rfl, by rw [nodes, hcell]; rfl⟩

theorem nodes_update (heap : Addr → Option (Cell α)) (p : Addr) (cell : Option (Cell α)) :
    nodes (Function.update heap p cell) =
      Function.update (nodes heap) p (cell.bind Cell.complete) :=
  Function.comp_update (fun cell : Option (Cell α) => cell.bind Cell.complete) heap p cell

/-- A step of the thread `t`, with what it does to the others. -/
theorem Local.update {mtx : Option T} (h : Local s)
    (hmtx : ∀ u, u ≠ t → (mtx = some u ↔ s.mtx = some u)) (hself : mtx = some t ↔ pc.view.Holds)
    (hheap : ∀ u node cell, u ≠ t → (s.pc u).fills = some (node, cell) →
      heap node = s.heap node)
    (hfilled : ∀ node cell, pc.fills = some (node, cell) → heap node = some cell)
    (happart : ∀ u node cell cell', u ≠ t → pc.fills = some (node, cell) →
      (s.pc u).fills ≠ some (node, cell'))
    (hreads : ∀ u, u ≠ t → (s.pc u).Reads s.q (nodes s.heap) → (s.pc u).Reads q (nodes heap))
    (hown : pc.Reads q (nodes heap)) : Local ⟨q, heap, mtx, Function.update s.pc t pc⟩ := by
  refine ⟨?_, ?_, ?_, ?_⟩
  · intro u
    by_cases hu : u = t
    · subst hu
      simpa using hself
    · simp only [Function.update_of_ne hu]
      exact (hmtx u hu).trans (h.held u)
  · intro u node cell hfills
    by_cases hu : u = t
    · subst hu
      simp only [Function.update_self] at hfills
      exact hfilled node cell hfills
    · simp only [Function.update_of_ne hu] at hfills
      exact (hheap u node cell hu hfills).trans (h.filled u node cell hfills)
  · intro u v node cell cell' hfu hfv
    by_cases hu : u = t <;> by_cases hv : v = t
    · exact hu.trans hv.symm
    · subst hu
      simp only [Function.update_self] at hfu
      simp only [Function.update_of_ne hv] at hfv
      exact absurd hfv (happart v node cell cell' hv hfu)
    · subst hv
      simp only [Function.update_self] at hfv
      simp only [Function.update_of_ne hu] at hfu
      exact absurd hfu (happart u node cell' cell hu hfv)
    · simp only [Function.update_of_ne hu] at hfu
      simp only [Function.update_of_ne hv] at hfv
      exact h.apart u v node cell cell' hfu hfv
  · intro u
    by_cases hu : u = t
    · subst hu
      simpa using hown
    · simp only [Function.update_of_ne hu]
      exact hreads u hu (h.reads u)

section Moves

variable (h : Local s)
include h

omit [DecidableEq T] in
theorem Local.not_holds (hm : s.mtx ≠ some t) : ¬ (s.pc t).view.Holds :=
  fun hholds => hm ((h.held t).mpr hholds)

omit [DecidableEq T] in
theorem Local.not_held (ht : ¬ (s.pc t).view.Holds) : s.mtx ≠ some t :=
  fun hm => ht ((h.held t).mp hm)

omit [DecidableEq T] in
theorem Local.holds (ht : (s.pc t).view.Holds) : s.mtx = some t := (h.held t).mpr ht

omit [DecidableEq T] in
theorem Local.unfilled (hnode : nodes s.heap node ≠ none) (u : T) (cell : Cell α) :
    (s.pc u).fills ≠ some (node, cell) := by
  intro hfills
  refine hnode ?_
  rw [nodes, h.filled u node cell hfills]
  exact fills_incomplete hfills

/-- The holder of the mutex may change the queue and complete nodes. -/
theorem Local.holder (hm : s.mtx = some t) (hpc : pc.view.Holds) (hfills : pc.fills = none)
    (hheap : ∀ p, nodes s.heap p = none → heap p = s.heap p) (hown : pc.Reads q (nodes heap)) :
    Local ⟨q, heap, some t, Function.update s.pc t pc⟩ := by
  refine h.update ?_ (iff_of_true rfl hpc) ?_ ?_ ?_ ?_ hown
  · intro u _
    rw [hm]
  · intro u node cell _ hu
    refine hheap node ?_
    by_contra hnode
    exact h.unfilled hnode u cell hu
  · intro node cell heq
    rw [hfills] at heq
    cases heq
  · intro u node cell cell' _ heq
    rw [hfills] at heq
    cases heq
  · intro u hu _
    refine reads_of_not_holds (h.not_holds ?_) q _
    rw [hm]
    exact fun heq => hu (Option.some.inj heq).symm

theorem Local.lock (hm : s.mtx = none) (hpc : pc.view.Holds) (hfills : pc.fills = none)
    (hown : pc.Reads s.q (nodes s.heap)) :
    Local ⟨s.q, s.heap, some t, Function.update s.pc t pc⟩ := by
  refine h.update ?_ (iff_of_true rfl hpc) (fun _ _ _ _ _ => rfl) ?_ ?_ (fun _ _ hr => hr) hown
  · intro u hu
    rw [hm]
    exact iff_of_false (fun heq => hu (Option.some.inj heq).symm) nofun
  · intro node cell heq
    rw [hfills] at heq
    cases heq
  · intro u node cell cell' _ heq
    rw [hfills] at heq
    cases heq

theorem Local.unlock (hm : s.mtx = some t) (hpc : ¬ pc.view.Holds) (hfills : pc.fills = none) :
    Local ⟨s.q, s.heap, none, Function.update s.pc t pc⟩ := by
  refine h.update ?_ (iff_of_false nofun hpc) (fun _ _ _ _ _ => rfl) ?_ ?_ (fun _ _ hr => hr)
    (reads_of_not_holds hpc _ _)
  · intro u hu
    rw [hm]
    exact iff_of_false nofun (fun heq => hu (Option.some.inj heq).symm)
  · intro node cell heq
    rw [hfills] at heq
    cases heq
  · intro u node cell cell' _ heq
    rw [hfills] at heq
    cases heq

/-- Without the mutex a thread changes memory that nobody else uses. -/
theorem Local.outside (hm : s.mtx ≠ some t) (hpc : ¬ pc.view.Holds)
    (hhead : ∀ p, s.q.head = some p → nodes heap p = nodes s.heap p)
    (hheap : ∀ u node cell, u ≠ t → (s.pc u).fills = some (node, cell) → heap node = s.heap node)
    (hfilled : ∀ node cell, pc.fills = some (node, cell) → heap node = some cell)
    (happart : ∀ u node cell cell', u ≠ t → pc.fills = some (node, cell) →
      (s.pc u).fills ≠ some (node, cell')) :
    Local ⟨s.q, heap, s.mtx, Function.update s.pc t pc⟩ :=
  h.update (fun _ _ => Iff.rfl) (iff_of_false hm hpc) hheap hfilled happart
    (fun _ _ => reads_frame hhead) (reads_of_not_holds hpc _ _)

end Moves

/-! What the nodes of the queue say -/

section Nodes

variable (h : Inv s.view.view ps)
include h

omit [DecidableEq T] in
theorem head_alive (hq : s.q.head = some p) : nodes s.heap p ≠ none := by
  have hhead : s.q.head = ps.head? := chain_head h.chain
  have hmem : p ∈ ps := List.mem_of_mem_head? (by rw [← hhead, hq]; rfl)
  exact Option.isSome_iff_ne_none.mp (h.alive p hmem)

omit [DecidableEq T] in
theorem tail_alive (hq : s.view.q.tail = some p) : nodes s.heap p ≠ none := by
  have htail : s.view.q.tail = ps.getLast? := h.tail
  have hmem : p ∈ ps := List.mem_of_getLast? (htail.symm.trans hq)
  exact Option.isSome_iff_ne_none.mp (h.alive p hmem)

omit [DecidableEq T] in
/-- The node that is about to be freed is not one of the queue any more. -/
theorem free_apart {obj : α} (ht : s.pc t = .pop_free p obj) :
    s.q.head ≠ some p ∧ nodes s.heap p ≠ none := by
  have hpc : s.view.view.pc t = .freeing p obj := by
    simp only [Wakeup.State.view, State.view, ht]
    rfl
  obtain ⟨halive, hout⟩ := h.owned t p (by rw [hpc]; rfl)
  refine ⟨?_, Option.isSome_iff_ne_none.mp halive⟩
  intro hq
  have hhead : s.q.head = ps.head? := chain_head h.chain
  exact hout (List.mem_of_mem_head? (by rw [← hhead, hq]; rfl))

end Nodes

omit [DecidableEq T] in
theorem view_tail (hm : s.mtx = some t) : s.view.q.tail = (s.pc t).tail s.q := by
  simp only [State.view, hm]
  rfl

omit [DecidableEq T] in
theorem Local.wake (h : Local s) {woken : T → Bool}
    (hw : ∀ u, woken u = true → s.pc u = .asleep) : Local (s.wake woken) := by
  have hcases : ∀ u, (s.wake woken).pc u = s.pc u ∨
      s.pc u = .asleep ∧ (s.wake woken).pc u = .woken := by
    intro u
    cases hu : woken u with
    | false => exact .inl (by simp [State.wake, hu])
    | true => exact .inr ⟨hw u hu, by simp [State.wake, hu]⟩
  have hfills : ∀ u, ((s.wake woken).pc u).fills = (s.pc u).fills := by
    intro u
    rcases hcases u with hsame | ⟨hold, hnew⟩
    · rw [hsame]
    · rw [hold, hnew]
      rfl
  refine ⟨?_, ?_, ?_, ?_⟩
  · intro u
    rw [show (s.wake woken).mtx = s.mtx from rfl, h.held u]
    rcases hcases u with hsame | ⟨hold, hnew⟩
    · rw [hsame]
    · rw [hold, hnew]
      exact iff_of_false id id
  · intro u node cell hu
    exact h.filled u node cell ((hfills u).symm.trans hu)
  · intro u v node cell cell' hu hv
    exact h.apart u v node cell cell' ((hfills u).symm.trans hu) ((hfills v).symm.trans hv)
  · intro u
    rcases hcases u with hsame | ⟨_, hnew⟩
    · rw [hsame]
      exact h.reads u
    · rw [hnew]
      trivial

omit [DecidableEq T] in
/-- A thread outside of the locked sections writes to a node that is not in the queue. -/
theorem nodes_apart {cell : Option (Cell α)} (hp : s.q.head ≠ some p) (r : Addr)
    (hr : s.q.head = some r) : nodes (Function.update s.heap p cell) r = nodes s.heap r := by
  rw [nodes_update]
  refine Function.update_of_ne ?_ _ _
  rintro rfl
  exact hp hr

theorem local_push_step (hs : PushStep t s e s') (h : Local s) (hn : Inv s.view.view ps) :
    Local s' := by
  have hhead : ∀ p, nodes s.heap p = none → s.q.head ≠ some p :=
    fun p hp hq => head_alive hn hq hp
  cases hs with
  | @malloc obj node ht hfree =>
    have hother : ∀ u cell, (s.pc u).fills ≠ some (node, cell) := by
      intro u cell hu
      rw [h.filled u node cell hu] at hfree
      cases hfree
    refine h.outside ?_ id ?_ ?_ ?_ ?_
    · rw [Ne, h.held, ht]
      exact id
    · exact fun r => nodes_apart (hhead node (by rw [nodes, hfree]; rfl)) r
    · intro u p cell _ hu
      refine Function.update_of_ne ?_ _ _
      rintro rfl
      exact hother u cell hu
    · rintro p cell heq
      cases heq
      exact Function.update_self _ _ _
    · rintro u p cell cell' _ heq
      cases heq
      exact hother u cell'
  | @obj obj node cell ht hcell =>
    have hfills : (s.pc t).fills = some (node, ⟨none, none⟩) := by rw [ht]; rfl
    cases hcell.symm.trans (h.filled t node _ hfills)
    have hother : ∀ u cell, u ≠ t → (s.pc u).fills ≠ some (node, cell) :=
      fun u cell hut hu => hut (h.apart u t node _ _ hu hfills)
    refine h.outside ?_ id ?_ ?_ ?_ ?_
    · rw [Ne, h.held, ht]
      exact id
    · exact fun r => nodes_apart (hhead node (by rw [nodes, hcell]; rfl)) r
    · intro u p cell hut hu
      refine Function.update_of_ne ?_ _ _
      rintro rfl
      exact hother u cell hut hu
    · rintro p cell heq
      cases heq
      exact Function.update_self _ _ _
    · rintro u p cell cell' hut heq
      cases heq
      exact hother u cell' hut
  | @next obj node cell ht hcell =>
    have hfills : (s.pc t).fills = some (node, ⟨some obj, none⟩) := by rw [ht]; rfl
    cases hcell.symm.trans (h.filled t node _ hfills)
    have hother : ∀ u cell, u ≠ t → (s.pc u).fills ≠ some (node, cell) :=
      fun u cell hut hu => hut (h.apart u t node _ _ hu hfills)
    refine h.outside ?_ id ?_ ?_ nofun nofun
    · rw [Ne, h.held, ht]
      exact id
    · exact fun r => nodes_apart (hhead node (by rw [nodes, hcell]; rfl)) r
    · intro u p cell hut hu
      refine Function.update_of_ne ?_ _ _
      rintro rfl
      exact hother u cell hut hu
  | lock ht hm => exact h.lock hm trivial rfl trivial
  | test ht =>
    have hm := h.holds (t := t) (by rw [ht]; trivial)
    show Local ⟨s.q, s.heap, s.mtx, _⟩
    rw [hm]
    by_cases hq : s.q.tail = none
    · rw [if_pos hq]
      exact h.holder hm trivial rfl (fun _ _ => rfl) hq
    · rw [if_neg hq]
      exact h.holder hm trivial rfl (fun _ _ => rfl) hq
  | @link obj node tail cell ht hq hcell =>
    have hm := h.holds (t := t) (by rw [ht]; trivial)
    have htail : s.view.q.tail = some tail := by
      rw [view_tail hm, ht]
      exact hq
    show Local ⟨s.q, _, s.mtx, _⟩
    rw [hm]
    refine h.holder hm trivial rfl ?_ trivial
    intro p hp
    refine Function.update_of_ne ?_ _ _
    rintro rfl
    exact tail_alive hn htail hp
  | head ht | tail ht =>
    have hm := h.holds (t := t) (by rw [ht]; trivial)
    show Local ⟨_, s.heap, s.mtx, _⟩
    rw [hm]
    exact h.holder hm trivial rfl (fun _ _ => rfl) trivial
  | @signal woken ht hw =>
    have hm := h.holds (t := t) (by rw [ht]; trivial)
    show Local ⟨s.q, s.heap, s.mtx, _⟩
    rw [hm]
    exact (h.wake hw.1).holder hm trivial rfl (fun _ _ => rfl) trivial
  | unlock ht => exact h.unlock (h.holds (by rw [ht]; trivial)) id rfl

theorem local_pop_step (hs : PopStep t s e s') (h : Local s) (hn : Inv s.view.view ps) :
    Local s' := by
  have hread := h.reads t
  have hholder : ∀ pc : Pc α, (s.pc t).view.Holds → pc.view.Holds → pc.fills = none →
      pc.Reads s.q (nodes s.heap) → Local (s.setPC t pc) := by
    intro pc ht hpc hfills hown
    have hm := h.holds ht
    show Local ⟨s.q, s.heap, s.mtx, _⟩
    rw [hm]
    exact h.holder hm hpc hfills (fun _ _ => rfl) hown
  have houtside : ∀ pc : Pc α, ¬ (s.pc t).view.Holds → ¬ pc.view.Holds → pc.fills = none →
      Local (s.setPC t pc) := by
    intro pc ht hpc hfills
    refine h.outside (fun hm => ht ((h.held t).mp hm)) hpc (fun _ _ => rfl) (fun _ _ _ _ _ => rfl)
      ?_ ?_ <;> simp [hfills]
  cases hs with
  | enter ht => exact houtside _ (by rw [ht]; exact id) id rfl
  | wake ht => exact houtside _ (by rw [ht]; exact id) id rfl
  | lock ht hm | relock ht hm => exact h.lock hm trivial rfl trivial
  | check ht =>
    by_cases hq : s.q.head = none
    · rw [if_pos hq]
      exact hholder _ (by rw [ht]; trivial) trivial rfl trivial
    · rw [if_neg hq]
      exact hholder _ (by rw [ht]; trivial) trivial rfl hq
  | sleep ht | unlock ht => exact h.unlock (h.holds (by rw [ht]; trivial)) id rfl
  | head ht hq => exact hholder _ (by rw [ht]; trivial) trivial rfl hq
  | @obj head cell obj ht hcell hobj =>
    rw [ht] at hread
    obtain ⟨obj', next, rfl, hnode⟩ := node_complete (head_alive hn hread) hcell
    cases hobj
    exact hholder _ (by rw [ht]; trivial) trivial rfl ⟨hread, next, hnode⟩
  | @next head cell obj next ht hcell hnext =>
    rw [ht] at hread
    obtain ⟨hq, next', hread⟩ := hread
    obtain ⟨obj', _, rfl, hnode⟩ := node_complete (head_alive hn hq) hcell
    cases hnext
    cases hnode.symm.trans hread
    exact hholder _ (by rw [ht]; trivial) trivial rfl ⟨hq, hnode⟩
  | store ht =>
    have hm := h.holds (t := t) (by rw [ht]; trivial)
    show Local ⟨_, s.heap, s.mtx, _⟩
    rw [hm]
    exact h.holder hm trivial rfl (fun _ _ => rfl) trivial
  | test ht =>
    by_cases hq : s.q.head = none
    · rw [if_pos hq]
      exact hholder _ (by rw [ht]; trivial) trivial rfl hq
    · rw [if_neg hq]
      exact hholder _ (by rw [ht]; trivial) trivial rfl trivial
  | tail ht =>
    have hm := h.holds (t := t) (by rw [ht]; trivial)
    show Local ⟨_, s.heap, s.mtx, _⟩
    rw [hm]
    exact h.holder hm trivial rfl (fun _ _ => rfl) trivial
  | @free head obj cell ht hcell =>
    obtain ⟨hhead, halive⟩ := free_apart hn ht
    refine h.outside ?_ id (fun r => nodes_apart hhead r) ?_ nofun nofun
    · rw [Ne, h.held, ht]
      exact id
    · intro u p cell _ hu
      refine Function.update_of_ne ?_ _ _
      rintro rfl
      exact h.unfilled halive u cell hu

theorem local_step (hs : Step s e s') (h : Local s) (hn : Inv s.view.view ps) : Local s' := by
  cases hs with
  | push t hs => exact local_push_step hs h hn
  | pop t hs => exact local_pop_step hs h hn

end Tecc.Queue.Fine
