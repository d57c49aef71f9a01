import Mathlib.Data.UInt
import Tecc.Arena
import Tecc.Threads

/-! The thread pool of tecc_thread_pool.c with its threads: the callers of `TecThrPool_enqueue`,
the threads of the nodes, and the callers of `TecThrPool_run` and `TecThrPool_done`. The critical
sections of queue and arena are atomic steps, a task record is filled field by field and a payload
is copied byte by byte. -/
namespace Tecc.ThrPool

open Machine Memory Arena

/-- What `TecThrPool_init` sets and nobody changes; 0 is the null pointer. -/
structure TecThrPool where
  nthreads : Nat
  buffer_size : Nat
  buffer_arena : Nat
  payload_size : Nat
  payload_arena : Nat

/-- `buffers` and `payloads` are what `TECC_CALLOC` returned for the two arenas. -/
def TecThrPool_init (nthreads buffer_size payload_size buffers payloads : Nat) : TecThrPool :=
  ⟨nthreads, buffer_size, if buffer_size ≠ 0 then buffers else 0, payload_size,
    if payload_size ≠ 0 then payloads else 0⟩

/-- The size of a `TecTask`, and where its members lie. -/
def TecTask_size : Nat := 48
def TecTask_buffer : Nat := 8
def TecTask_buffer_size : Nat := 16
def TecTask_payload : Nat := 24
def TecTask_args : Nat := 32
def TecTask_task_func : Nat := 40

/-- The arguments of one call of `TecThrPool_enqueue`. The payload is given by its bytes. -/
structure Request where
  task_func : UInt64
  payload : Option (Nat → UInt8)
  args : UInt64

/-- What a task function is called with. -/
structure TaskArgs where
  task_func : Nat
  payload : Nat
  buffer : Nat
  buffer_size : Nat
  args : Nat
deriving DecidableEq, Repr

/-- A pointer to a task. `call` records whose task it is, no step looks at it. -/
structure TaskRef where
  task : Nat
  call : Nat
deriving DecidableEq, Repr

/-- The position of a caller in `TecThrPool_enqueue`. -/
inductive EnqueuePc where
  | idle
  | allocate
  | buffer_size
  | buffer
  | payload
  | test_payload
  | memcpy (dest : Nat)
  | task_func
  | args
  | push
  | returned
deriving DecidableEq

/-- A call with its variables; `copied` are the bytes that `memcpy` is done with. -/
structure Call where
  pc : EnqueuePc
  ndx : Nat
  task : Nat
  copied : Nat → Bool

/-- The position of the thread of a node. -/
inductive ThreadPc where
  | absent
  | pop
  | test (task : TaskRef)
  | running (task : TaskRef)
  | release (task : TaskRef)
  | set_terminated
  | exited
deriving DecidableEq

/-- A node and its thread. `live` are the elements of the arena that are handed out. -/
structure TecTaskNode where
  thr : Int
  q : List (Option TaskRef)
  arena : TecArena
  sig_terminated : Bool
  live : List Nat
  pc : ThreadPc
  destroyed : Bool

def TecTaskNode_init (arena_nelems calloc : Nat) : TecTaskNode where
  thr := TecThread_none
  q := []
  arena := TecArena_init arena_nelems TecTask_size calloc
  sig_terminated := false
  live := []
  pc := .absent
  destroyed := false

/-- The position of the caller of `TecThrPool_run`. -/
inductive RunPc where
  | idle
  | create (n : Nat)
  | returned (ok : Bool)
deriving DecidableEq

/-- The position of the caller of `TecThrPool_done`. -/
inductive DonePc where
  | idle
  | node (n : Nat)
  | wait (n : Nat)
  | join (n : Nat)
  | destroy (n : Nat)
  | returned
deriving DecidableEq

structure State where
  next_thread_index : Int
  mem : Mem
  nodes : Nat → TecTaskNode
  calls : Nat → Call
  run : RunPc
  done : DonePc

def State.setNode (s : State) (n : Nat) (f : TecTaskNode → TecTaskNode) : State :=
  { s with nodes := Function.update s.nodes n (f (s.nodes n)) }

def State.setCall (s : State) (c : Nat) (f : Call → Call) : State :=
  { s with calls := Function.update s.calls c (f (s.calls c)) }

section Update

variable {s : State} {n k c d : Nat} {f : TecTaskNode → TecTaskNode} {g : Call → Call}

@[simp] theorem setNode_self : (s.setNode n f).nodes n = f (s.nodes n) :=
  Function.update_self _ _ _

theorem setNode_of_ne (h : k ≠ n) : (s.setNode n f).nodes k = s.nodes k :=
  Function.update_of_ne h _ _

@[simp] theorem setNode_calls : (s.setNode n f).calls = s.calls := rfl

@[simp] theorem setCall_self : (s.setCall c g).calls c = g (s.calls c) :=
  Function.update_self _ _ _

theorem setCall_of_ne (h : d ≠ c) : (s.setCall c g).calls d = s.calls d :=
  Function.update_of_ne h _ _

end Update

/-- The arena of a node in the common memory. -/
def State.view (s : State) (n : Nat) : Arena.State := ⟨(s.nodes n).arena, s.mem, (s.nodes n).live⟩

/-- What `TecThrPool_enqueue` assigns to a task of the node `ndx`. -/
def TecThrPool.task_buffer_size (self : TecThrPool) : Nat :=
  if self.buffer_arena ≠ 0 then self.buffer_size else 0

def TecThrPool.task_buffer (self : TecThrPool) (ndx : Nat) : Nat :=
  if self.buffer_arena ≠ 0 then self.buffer_arena + ndx * self.buffer_size else 0

def TecThrPool.task_payload (self : TecThrPool) (ndx : Nat) : Nat :=
  if self.payload_arena ≠ 0 then self.payload_arena + ndx * self.payload_size else 0

/-- The byte belongs to one of the blocks of the pool. -/
def TecThrPool.InBuffers (self : TecThrPool) (a : Nat) : Prop :=
  self.buffer_arena ≠ 0 ∧ self.buffer_arena ≤ a ∧
    a < self.buffer_arena + self.nthreads * self.buffer_size

def TecThrPool.InPayloads (self : TecThrPool) (a : Nat) : Prop :=
  self.payload_arena ≠ 0 ∧ self.payload_arena ≤ a ∧
    a < self.payload_arena + self.nthreads * self.payload_size

/-- What `TECC_CALLOC` may return for a task: null, or memory that no part of the pool has. -/
def State.Heap (self : TecThrPool) (s : State) (calloc : Nat) : Prop :=
  (∀ n, (s.view n).Heap calloc) ∧
    ∀ a, calloc ≤ a → a < calloc + TecTask_size → ¬ self.InBuffers a ∧ ¬ self.InPayloads a

/-- The members of a task that its function gets. -/
def TecTask_args_of (m : Mem) (task : Nat) : TaskArgs where
  task_func := load m (task + TecTask_task_func) 8
  payload := load m (task + TecTask_payload) 8
  buffer := load m (task + TecTask_buffer) 8
  buffer_size := load m (task + TecTask_buffer_size) 8
  args := load m (task + TecTask_args) 8

inductive Event where
  | create (n : Nat)
  /-- `TecThrPool_done` begins. -/
  | done
  | push (n : Nat) (task : Option TaskRef)
  | pop (n : Nat) (task : Option TaskRef)
  /-- The thread of the node calls the task function, which finds `bytes` at its payload. -/
  | call (n : Nat) (task : TaskRef) (args : TaskArgs) (bytes : List UInt8)
  | return (n : Nat) (task : TaskRef)
  /-- A byte is written by `memcpy` for the call `c`, or by its task function. -/
  | write (c : Nat) (a : Nat) (byte : UInt8)
  | other

variable (self : TecThrPool) (request : Nat → Request)

/-- The steps of the call `c` of `TecThrPool_enqueue`. -/
inductive EnqueueStep (c : Nat) : State → Event → State → Prop
  | fetch_add {s : State} (hc : (s.calls c).pc = .idle) :
      EnqueueStep c s .other
        { s.setCall c (fun call => { call with
            ndx := toSize s.next_thread_index % self.nthreads
            pc := .allocate }) with
          next_thread_index := toInt (s.next_thread_index + 1) }
  /-- An allocation from the heap succeeds. -/
  | allocate {s : State} {calloc task : Nat} {arena : TecArena} {m : Mem}
      (hc : (s.calls c).pc = .allocate) (hcalloc : s.Heap self calloc)
      (h : TecArena_allocate (s.nodes (s.calls c).ndx).arena s.mem calloc = (arena, m, task))
      (htask : task ≠ 0) :
      EnqueueStep c s .other
        { (s.setNode (s.calls c).ndx fun node =>
            { node with arena := arena, live := task :: node.live }).setCall c
              fun call => { call with task := task, pc := .buffer_size } with
          mem := m }
  | buffer_size {s : State} (hc : (s.calls c).pc = .buffer_size) :
      EnqueueStep c s .other
        { s.setCall c (fun call => { call with pc := .buffer }) with
          mem := store s.mem ((s.calls c).task + TecTask_buffer_size) 8 self.task_buffer_size }
  | buffer {s : State} (hc : (s.calls c).pc = .buffer) :
      EnqueueStep c s .other
        { s.setCall c (fun call => { call with pc := .payload }) with
          mem := store s.mem ((s.calls c).task + TecTask_buffer) 8
            (self.task_buffer (s.calls c).ndx) }
  | payload {s : State} (hc : (s.calls c).pc = .payload) :
      EnqueueStep c s .other
        { s.setCall c (fun call => { call with pc := .test_payload }) with
          mem := store s.mem ((s.calls c).task + TecTask_payload) 8
            (self.task_payload (s.calls c).ndx) }
  | test_payload {s : State} (hc : (s.calls c).pc = .test_payload) :
      EnqueueStep c s .other
        (s.setCall c fun call => { call with
          pc :=
            if (request c).payload.isSome ∧ load s.mem (call.task + TecTask_payload) 8 ≠ 0 then
              .memcpy (load s.mem (call.task + TecTask_payload) 8)
            else .task_func })
  /-- `memcpy` takes the bytes in any order. -/
  | copy {s : State} {dest i : Nat} {bytes : Nat → UInt8} (hc : (s.calls c).pc = .memcpy dest)
      (hbytes : (request c).payload = some bytes) (hi : i < self.payload_size)
      (hcopied : (s.calls c).copied i = false) :
      EnqueueStep c s (.write c (dest + i) (bytes i))
        { s.setCall c (fun call => { call with
            copied := Function.update call.copied i true }) with
          mem := Function.update s.mem (dest + i) (bytes i) }
  | copied {s : State} {dest : Nat} (hc : (s.calls c).pc = .memcpy dest)
      (hcopied : ∀ i < self.payload_size, (s.calls c).copied i = true) :
      EnqueueStep c s .other (s.setCall c fun call => { call with pc := .task_func })
  | task_func {s : State} (hc : (s.calls c).pc = .task_func) :
      EnqueueStep c s .other
        { s.setCall c (fun call => { call with pc := .args }) with
          mem := store s.mem ((s.calls c).task + TecTask_task_func) 8
            (request c).task_func.toNat }
  | args {s : State} (hc : (s.calls c).pc = .args) :
      EnqueueStep c s .other
        { s.setCall c (fun call => { call with pc := .push }) with
          mem := store s.mem ((s.calls c).task + TecTask_args) 8 (request c).args.toNat }
  | push {s : State} (hc : (s.calls c).pc = .push) :
      EnqueueStep c s (.push (s.calls c).ndx (some ⟨(s.calls c).task, c⟩))
        ((s.setNode (s.calls c).ndx fun node =>
          { node with q := node.q ++ [some ⟨(s.calls c).task, c⟩] }).setCall c
            fun call => { call with pc := .returned })

/-- The steps of `task_func`, the thread of the node `n`. -/
inductive ThreadStep (n : Nat) : State → Event → State → Prop
  | pop {s : State} {task : TaskRef} {q : List (Option TaskRef)} (hn : (s.nodes n).pc = .pop)
      (hq : (s.nodes n).q = some task :: q) :
      ThreadStep n s (.pop n (some task))
        (s.setNode n fun node => { node with q := q, pc := .test task })
  | pop_null {s : State} {q : List (Option TaskRef)} (hn : (s.nodes n).pc = .pop)
      (hq : (s.nodes n).q = none :: q) :
      ThreadStep n s (.pop n none)
        (s.setNode n fun node => { node with q := q, pc := .set_terminated })
  | call {s : State} {task : TaskRef} (hn : (s.nodes n).pc = .test task)
      (hfunc : load s.mem (task.task + TecTask_task_func) 8 ≠ 0) :
      ThreadStep n s
        (.call n task (TecTask_args_of s.mem task.task)
          ((List.range self.payload_size).map fun i =>
            s.mem (load s.mem (task.task + TecTask_payload) 8 + i)))
        (s.setNode n fun node => { node with pc := .running task })
  | skip {s : State} {task : TaskRef} (hn : (s.nodes n).pc = .test task)
      (hfunc : load s.mem (task.task + TecTask_task_func) 8 = 0) :
      ThreadStep n s .other (s.setNode n fun node => { node with pc := .release task })
  /-- A task function writes to memory that no arena of the tasks has. -/
  | write {s : State} {task : TaskRef} {a : Nat} {byte : UInt8}
      (hn : (s.nodes n).pc = .running task) (ha : ∀ k, ¬ (s.view k).Owned a) :
      ThreadStep n s (.write task.call a byte) { s with mem := Function.update s.mem a byte }
  | return {s : State} {task : TaskRef} (hn : (s.nodes n).pc = .running task) :
      ThreadStep n s (.return n task) (s.setNode n fun node => { node with pc := .release task })
  | release {s : State} {task : TaskRef} {arena : TecArena} {m : Mem} {freed : Option Nat}
      (hn : (s.nodes n).pc = .release task)
      (h : TecArena_release (s.nodes n).arena s.mem task.task = (arena, m, freed)) :
      ThreadStep n s .other
        { s.setNode n (fun node =>
            { node with arena := arena, live := node.live.erase task.task, pc := .pop }) with
          mem := m }
  | set_terminated {s : State} (hn : (s.nodes n).pc = .set_terminated) :
      ThreadStep n s .other
        (s.setNode n fun node => { node with sig_terminated := true, pc := .exited })

/-- The steps of the caller of `TecThrPool_run`. -/
inductive RunStep : State → Event → State → Prop
  | enter {s : State} (hr : s.run = .idle) : RunStep s .other { s with run := .create 0 }
  | create {s : State} {n : Nat} (hr : s.run = .create n) (hn : n < self.nthreads) :
      RunStep s (.create n)
        { s.setNode n (fun node => { node with thr := 0, pc := .pop }) with
          run := .create (n + 1) }
  | create_failed {s : State} {n : Nat} {result : Int} (hr : s.run = .create n)
      (hn : n < self.nthreads) (hresult : result ≠ 0) :
      RunStep s .other
        { s.setNode n (fun node => { node with thr := result }) with run := .returned false }
  | finish {s : State} {n : Nat} (hr : s.run = .create n) (hn : self.nthreads ≤ n) :
      RunStep s .other { s with run := .returned true }

/-- The steps of the caller of `TecThrPool_done`, after `TecThrPool_run`. -/
inductive DoneStep : State → Event → State → Prop
  | enter {s : State} {ok : Bool} (hd : s.done = .idle) (hr : s.run = .returned ok) :
      DoneStep s .done { s with done := .node 0 }
  | push {s : State} {n : Nat} (hd : s.done = .node n) (hn : n < self.nthreads)
      (hthr : (s.nodes n).thr = 0) :
      DoneStep s (.push n none)
        { s.setNode n (fun node => { node with q := node.q ++ [none] }) with done := .wait n }
  | no_thread {s : State} {n : Nat} (hd : s.done = .node n) (hn : n < self.nthreads)
      (hthr : (s.nodes n).thr ≠ 0) :
      DoneStep s .other { s with done := .destroy n }
  | wait {s : State} {n : Nat} (hd : s.done = .wait n)
      (hsig : (s.nodes n).sig_terminated = true) :
      DoneStep s .other { s with done := .join n }
  | join {s : State} {n : Nat} (hd : s.done = .join n) (hpc : (s.nodes n).pc = .exited) :
      DoneStep s .other
        { s.setNode n (fun node => { node with thr := TecThread_none }) with
          done := .destroy n }
  /-- `TecQueue_done`, `TecArena_done` and `TecSignal_done`. -/
  | destroy {s : State} {n : Nat} (hd : s.done = .destroy n) :
      DoneStep s .other
        { s.setNode n (fun node => { node with
            arena := { node.arena with buf := 0 }
            live := []
            destroyed := true }) with
          done := .node (n + 1) }
  | finish {s : State} {n : Nat} (hd : s.done = .node n) (hn : self.nthreads ≤ n) :
      DoneStep s .other { s with done := .returned }

inductive Step : State → Event → State → Prop
  /-- Nobody goes on with a call on a node that is destroyed. -/
  | enqueue {s t : State} {e : Event} (c : Nat) (h : EnqueueStep self request c s e t)
      (hopen : (s.calls c).pc ≠ .idle → (s.nodes (s.calls c).ndx).destroyed = false) :
      Step s e t
  | thread {s t : State} {e : Event} (n : Nat) (h : ThreadStep self n s e t) : Step s e t
  | run {s t : State} {e : Event} (h : RunStep self s e t) : Step s e t
  | done {s t : State} {e : Event} (h : DoneStep self s e t) : Step s e t

/-- What holds when `TecThrPool_init` returns. The blocks lie inside of the address space and
apart from each other. -/
structure Initial (pool : TecThrPool) (task_arena_nelems : Nat) (s : State) : Prop where
  nthreads : 0 < pool.nthreads
  init : ∃ buffers payloads, pool = TecThrPool_init pool.nthreads pool.buffer_size
    pool.payload_size buffers payloads
  buffers : pool.buffer_arena ≠ 0 →
    pool.buffer_arena + pool.nthreads * pool.buffer_size ≤ 18446744073709551616
  payloads : pool.payload_arena ≠ 0 →
    pool.payload_arena + pool.nthreads * pool.payload_size ≤ 18446744073709551616
  state : ∃ (m : Mem) (calloc : Nat → Nat), s = ⟨0, m,
    fun n => TecTaskNode_init task_arena_nelems (calloc n),
    fun _ => ⟨.idle, 0, 0, fun _ => false⟩, .idle, .idle⟩
  arenas : ∀ n, (arenaLts task_arena_nelems TecTask_size).Init (s.view n)
  apart : ∀ n k a, n ≠ k → (s.view n).Owned a → ¬ (s.view k).Owned a
  pool_apart : ∀ n a, (s.view n).Owned a → ¬ pool.InBuffers a ∧ ¬ pool.InPayloads a

/-- The states after `TecThrPool_init`. -/
def poolLts (task_arena_nelems : Nat) : Transition.Lts State Event where
  Init := Initial self task_arena_nelems
  Step := Step self request

end Tecc.ThrPool
