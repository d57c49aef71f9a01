import Tecc.ThrPoolPayload
import Tecc.Lib.Interleave

/-! The server of tecc_tcp_server.c with a thread pool: the thread in `poll_`, and the threads of
the pool that execute `dispatch_client_` on their payloads. The server without a pool is the
sequential function that it is compared with. -/
namespace Tecc.PooledServer

open Machine Memory Arena ThrPool Interleave

/-- The size of a `TecSocket`, and where its members lie. -/
def TecSocket_size : Nat := 128
def TecSocket_fd : Nat := 0
def TecSocket_pai : Nat := 72
def TecSocket_buf : Nat := 80

/-- The size of a `TecBuffer`, and where its members lie. -/
def TecBuffer_sizeof : Nat := 40
def TecBuffer_data : Nat := 0
def TecBuffer_size : Nat := 16
def TecBuffer_capacity : Nat := 24

/-- `sock->fd` -/
def fd (m : Mem) (sock : Nat) : Int := toInt (load m (sock + TecSocket_fd) 4)

/-- The bytes of the `buf` that `task_func` passes to the task function. -/
def buf (args : TaskArgs) : Mem :=
  store (store (store (fun _ => 0) TecBuffer_data 8 args.buffer) TecBuffer_size 8 args.buffer_size)
    TecBuffer_capacity 8 args.buffer_size

/-- What happens to the descriptor of a client, each with its value. -/
inductive ClientOp where
  | client_proc (fd : Int)
  | shutdown (fd : Int)
  | close (fd : Int)
deriving DecidableEq, Repr

def ClientOp.fd : ClientOp → Int
  | .client_proc fd | .shutdown fd | .close fd => fd

/-- `TecSocket_done` -/
def TecSocket_done (m : Mem) (sock : Nat) : List ClientOp :=
  if fd m sock ≠ -1 then [.shutdown (fd m sock), .close (fd m sock)] else []

/-- `dispatch_client_` where nobody else writes to the socket. -/
def dispatch_client_ (m : Mem) (sock : Nat) (buf : Mem) : List ClientOp :=
  let m : Mem := fun a =>
    if sock + TecSocket_buf ≤ a ∧ a < sock + TecSocket_buf + TecBuffer_sizeof then
      buf (a - (sock + TecSocket_buf))
    else m a
  .client_proc (fd m sock) :: TecSocket_done m sock

/-- The server and its clients. -/
structure Setup where
  dispatch_client : UInt64
  self : UInt64
  /-- The bytes of `self->buffer`. -/
  buffer : Mem
  /-- The bytes of the valid sockets that `TecSocket_accept` returns, in their order. -/
  cli : Nat → Mem
  dispatch : dispatch_client ≠ 0

def Setup.request (setup : Setup) (c : Nat) : Request :=
  ⟨setup.dispatch_client, some (setup.cli c), setup.self⟩

/-- The descriptor of a connection. -/
def Setup.fd (setup : Setup) (c : Nat) : Int := PooledServer.fd (setup.cli c) 0

/-- `poll_` without a pool: each of the first `n` connections is dispatched before the next. -/
def single (setup : Setup) (n : Nat) : List (Nat × ClientOp) :=
  sequential n fun c => dispatch_client_ (setup.cli c) 0 setup.buffer

/-- The position of a thread of the pool in `dispatch_client_`. -/
inductive DispatchPc where
  | idle
  | set_buf (i : Nat)
  | client_proc
  | processing
  | log
  | test_fd
  | shutdown
  | close
  | set_fd (i : Nat)
  | test_pai
  | free_pai
  | set_pai (i : Nat)
  | return
deriving DecidableEq

/-- The position together with the arguments. -/
structure Dispatch where
  pc : DispatchPc
  args : TaskArgs

/-- The position of the thread in `poll_`. -/
inductive PollPc where
  | accept
  | enqueue (c : Nat)
  | stopped
deriving DecidableEq

structure State where
  pool : ThrPool.State
  dispatch : Nat → Dispatch
  poll : PollPc
  accepted : Nat

/-- The thread of the node `n` goes on in `dispatch_client_`. -/
def State.goto (s : State) (n : Nat) (pc : DispatchPc) : State :=
  { s with dispatch := Function.update s.dispatch n { s.dispatch n with pc := pc } }

/-- The socket that the thread of the node `n` works on. -/
def State.sock (s : State) (n : Nat) : Nat := (s.dispatch n).args.payload

inductive Event where
  | accepted (c : Nat)
  | pool (e : ThrPool.Event)
  | client (c : Nat) (op : ClientOp)
  | other

def Event.poolEvent : Event → Option ThrPool.Event
  | .pool e => some e
  | _ => none

def Event.clientOp : Event → Option (Nat × ClientOp)
  | .client c op => some (c, op)
  | _ => none

/-- What happened to the descriptors, each with the connection whose task did it. -/
def clientOps (xs : List Event) : List (Nat × ClientOp) := xs.filterMap Event.clientOp

/-- The events of a pool thread outside of the task function. -/
def Outside : ThrPool.Event → Prop
  | .call _ _ _ _ | .return _ _ | .write _ _ _ => False
  | _ => True

variable (self : TecThrPool) (setup : Setup)

/-- The steps of `dispatch_client_` in the thread of the node `n`. Members are stored byte by
byte, and the functions of the user leave the payloads of the pool alone. -/
inductive DispatchStep (n : Nat) (task : TaskRef) : State → Event → State → Prop
  /-- `sock->buf = buf;` -/
  | set_buf {s : State} {i : Nat} {t : ThrPool.State} (hp : (s.dispatch n).pc = .set_buf i)
      (hi : i < TecBuffer_sizeof)
      (hw : ThreadStep self n s.pool
        (.write task.call (s.sock n + TecSocket_buf + i) (buf (s.dispatch n).args i)) t) :
      DispatchStep n task s
        (.pool (.write task.call (s.sock n + TecSocket_buf + i) (buf (s.dispatch n).args i)))
        { s.goto n (.set_buf (i + 1)) with pool := t }
  | buf_set {s : State} {i : Nat} (hp : (s.dispatch n).pc = .set_buf i)
      (hi : TecBuffer_sizeof ≤ i) :
      DispatchStep n task s .other (s.goto n .client_proc)
  | client_proc {s : State} (hp : (s.dispatch n).pc = .client_proc) :
      DispatchStep n task s (.client task.call (.client_proc (fd s.pool.mem (s.sock n))))
        (s.goto n .processing)
  | processing {s : State} {a : Nat} {byte : UInt8} {t : ThrPool.State}
      (hp : (s.dispatch n).pc = .processing) (ha : ¬ self.InPayloads a)
      (hw : ThreadStep self n s.pool (.write task.call a byte) t) :
      DispatchStep n task s (.pool (.write task.call a byte)) { s with pool := t }
  | processed {s : State} (hp : (s.dispatch n).pc = .processing) :
      DispatchStep n task s .other (s.goto n .log)
  | log {s : State} (hp : (s.dispatch n).pc = .log) :
      DispatchStep n task s .other (s.goto n .test_fd)
  /-- `if (sock->fd != -1)` -/
  | test_fd {s : State} (hp : (s.dispatch n).pc = .test_fd) :
      DispatchStep n task s .other
        (s.goto n (if fd s.pool.mem (s.sock n) ≠ -1 then .shutdown else .return))
  | shutdown {s : State} (hp : (s.dispatch n).pc = .shutdown) :
      DispatchStep n task s (.client task.call (.shutdown (fd s.pool.mem (s.sock n))))
        (s.goto n .close)
  | close {s : State} (hp : (s.dispatch n).pc = .close) :
      DispatchStep n task s (.client task.call (.close (fd s.pool.mem (s.sock n))))
        (s.goto n (.set_fd 0))
  /-- `sock->fd = -1;` -/
  | set_fd {s : State} {i : Nat} {t : ThrPool.State} (hp : (s.dispatch n).pc = .set_fd i)
      (hi : i < 4)
      (hw : ThreadStep self n s.pool (.write task.call (s.sock n + TecSocket_fd + i) 255) t) :
      DispatchStep n task s (.pool (.write task.call (s.sock n + TecSocket_fd + i) 255))
        { s.goto n (.set_fd (i + 1)) with pool := t }
  | fd_set {s : State} {i : Nat} (hp : (s.dispatch n).pc = .set_fd i) (hi : 4 ≤ i) :
      DispatchStep n task s .other (s.goto n .test_pai)
  /-- `if (sock->pai)` -/
  | test_pai {s : State} (hp : (s.dispatch n).pc = .test_pai) :
      DispatchStep n task s .other
        (s.goto n (if load s.pool.mem (s.sock n + TecSocket_pai) 8 ≠ 0 then .free_pai
          else .return))
  | free_pai {s : State} (hp : (s.dispatch n).pc = .free_pai) :
      DispatchStep n task s .other (s.goto n (.set_pai 0))
  /-- `sock->pai = NULL;` -/
  | set_pai {s : State} {i : Nat} {t : ThrPool.State} (hp : (s.dispatch n).pc = .set_pai i)
      (hi : i < 8)
      (hw : ThreadStep self n s.pool (.write task.call (s.sock n + TecSocket_pai + i) 0) t) :
      DispatchStep n task s (.pool (.write task.call (s.sock n + TecSocket_pai + i) 0))
        { s.goto n (.set_pai (i + 1)) with pool := t }
  | pai_set {s : State} {i : Nat} (hp : (s.dispatch n).pc = .set_pai i) (hi : 8 ≤ i) :
      DispatchStep n task s .other (s.goto n .return)
  | return {s : State} {t : ThrPool.State} (hp : (s.dispatch n).pc = .return)
      (hw : ThreadStep self n s.pool (.return n task) t) :
      DispatchStep n task s (.pool (.return n task)) { s.goto n .idle with pool := t }

inductive Step : State → Event → State → Prop
  | accept {s : State} (hp : s.poll = .accept) (hvalid : setup.fd s.accepted ≠ -1) :
      Step s (.accepted s.accepted)
        { s with poll := .enqueue s.accepted, accepted := s.accepted + 1 }
  /-- `TecSocket_accept` returns a socket that is not valid. -/
  | invalid {s : State} (hp : s.poll = .accept) : Step s .other s
  | enqueue {s : State} {c : Nat} {e : ThrPool.Event} {t : ThrPool.State}
      (hp : s.poll = .enqueue c) (h : EnqueueStep self setup.request c s.pool e t)
      (hopen : (s.pool.calls c).pc ≠ .idle →
        (s.pool.nodes (s.pool.calls c).ndx).destroyed = false) :
      Step s (.pool e) { s with pool := t }
  | enqueued {s : State} {c : Nat} (hp : s.poll = .enqueue c)
      (hc : (s.pool.calls c).pc = .returned) : Step s .other { s with poll := .accept }
  /-- `self->running` is false. -/
  | stop {s : State} (hp : s.poll = .accept) : Step s .other { s with poll := .stopped }
  | thread {s : State} (n : Nat) {e : ThrPool.Event} {t : ThrPool.State} (he : Outside e)
      (h : ThreadStep self n s.pool e t) : Step s (.pool e) { s with pool := t }
  | call {s : State} (n : Nat) {task : TaskRef} {args : TaskArgs} {bytes : List UInt8}
      {t : ThrPool.State} (h : ThreadStep self n s.pool (.call n task args bytes) t) :
      Step s (.pool (.call n task args bytes))
        { s with
          pool := t
          dispatch := Function.update s.dispatch n ⟨.set_buf 0, args⟩ }
  | dispatch {s t : State} {e : Event} (n : Nat) {task : TaskRef}
      (hn : (s.pool.nodes n).pc = .running task) (h : DispatchStep self n task s e t) : Step s e t
  | run {s : State} {e : ThrPool.Event} {t : ThrPool.State} (h : RunStep self s.pool e t) :
      Step s (.pool e) { s with pool := t }
  /-- `TecThrPool_done` is called after the server has stopped. -/
  | done {s : State} {e : ThrPool.Event} {t : ThrPool.State} (hp : s.poll = .stopped)
      (h : DoneStep self s.pool e t) : Step s (.pool e) { s with pool := t }

/-- The server before its first connection, with a pool that is initialized. -/
structure Initial (thr_pool : TecThrPool) (task_arena_nelems : Nat) (s : State) : Prop where
  pool : ThrPool.Initial thr_pool task_arena_nelems s.pool
  poll : s.poll = .accept
  accepted : s.accepted = 0

def serverLts (task_arena_nelems : Nat) : Transition.Lts State Event where
  Init := Initial self task_arena_nelems
  Step := Step self setup

/-- No task waits or runs, and none is being enqueued. -/
def State.Drained (s : State) : Prop :=
  (∀ c, s.poll ≠ .enqueue c) ∧ ∀ n c, ¬ s.pool.Unfinished n c

end Tecc.PooledServer
