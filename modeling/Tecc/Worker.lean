import Tecc.MapRefinement
import Tecc.Lib.Transition

/-! The worker of tecc_worker.c with its threads: the worker thread, the callers of
`TecDaemon_run`, `TecDaemon_terminate` and `TecDaemon_rpc`, and senders. The critical sections of
the message queue are atomic steps. The signal `sig_ready` of an RPC call is modelled step by step
with its mutex and condition variable, the two signals of the worker by their values. -/
namespace Tecc.Worker

open Map

/-- A normal message is told from others by its address. A `TecRPC` lives on the stack of its
caller and holds the tag of its request. -/
inductive TecMsg where
  | normal (address : Nat) (tag : String)
  | rpc (call : Nat) (request : String)
deriving DecidableEq, Repr

def TecRPC_msg_ : String := "TecRPC"

def TecMsg_tag : TecMsg → String
  | .normal _ tag => tag
  | .rpc _ _ => TecRPC_msg_

def TECC_ERR_HANDLER_NOT_FOUND : Int := -2

/-- The position of the worker thread. -/
inductive WorkerPc where
  | absent
  | on_init
  | set_running
  | test_error
  | pop
  | dispatch (msg : TecMsg)
  | on_msg (msg : TecMsg)
  | on_rpc (msg : TecMsg)
  | callback (msg : TecMsg)
  | free (msg : TecMsg)
  /-- `TecSignal_set(rpc->sig_ready)`: the store, then the steps on mutex and condition. -/
  | set_store (call : Nat)
  | set_lock (call : Nat)
  | set_broadcast (call : Nat)
  | set_unlock (call : Nat)
  | on_exit
  | set_terminated
  | exited
deriving DecidableEq

/-- The position of a caller in `TecWorker_rpc_`. -/
inductive CallPc where
  | idle
  | push (request : String)
  /-- The load in front of the lock. -/
  | wait_load
  | wait_lock
  /-- The load of the loop, under the mutex. -/
  | wait_check
  | wait_sleep
  | asleep
  | woken
  | wait_unlock
  | signal_done
  | return
  | returned (error : Int)
deriving DecidableEq

inductive Holder where
  | caller
  | setter
deriving DecidableEq

/-- A call with its signal `sig_ready` and the member `error` of its `TecRPC`. -/
structure Call where
  pc : CallPc
  value : Bool
  mtx : Option Holder
  destroyed : Bool
  error : Int

/-- The position of the caller of `TecDaemon_run`. -/
inductive RunPc where
  | idle
  | create
  | wait_running
  | join
  | unlock
  | create_failed (result : Int)
  | return
  | returned (error : Int)
deriving DecidableEq

/-- The position of a caller of `TecDaemon_terminate`. -/
inductive TerminatePc where
  | idle
  | push
  | wait_terminated
  | join
  | read
  | unlock (result : Int)
  | returned (result : Int)
deriving DecidableEq

variable {Cb : Type}

structure State (Cb : Type) where
  error : Int
  sig_running : Bool
  sig_terminated : Bool
  queue : List (Option TecMsg)
  callbacks : TecMap String Cb
  lock : Bool
  worker : WorkerPc
  run : RunPc
  terminate : Nat → TerminatePc
  calls : Nat → Call

/-- What the user sets up. The hooks are null or return a value. -/
structure Config where
  hash_str : String → Nat
  hash_table_size : Nat
  on_init : Option Int
  on_exit : Option Int

/-- `if (hook && !w->error) { w->error = hook(w); }` -/
def run_hook (hook : Option Int) (error : Int) : Int :=
  match hook with
  | some result => if error = 0 then result else error
  | none => error

def State.setCall (s : State Cb) (c : Nat) (f : Call → Call) : State Cb :=
  { s with calls := Function.update s.calls c (f (s.calls c)) }

inductive Event (Cb : Type) where
  | register (tag : String) (callback : Cb)
  | push (msg : Option TecMsg)
  | pop (msg : Option TecMsg)
  | dispatch (msg : TecMsg)
  | callback (callback : Cb) (msg : TecMsg)
  | free (msg : TecMsg)
  /-- `TecSignal_wait` of the call reads the value. -/
  | load (call : Nat)
  /-- `TecSignal_set` uses the mutex or the condition variable of the call. -/
  | access (call : Nat)
  | destroy (call : Nat)
  | other

/-- The steps of `worker_func` and of what it calls. -/
inductive WorkerStep (cfg : Config) : State Cb → Event Cb → State Cb → Prop
  | on_init {s : State Cb} (hw : s.worker = .on_init) :
      WorkerStep cfg s .other
        { s with error := run_hook cfg.on_init s.error, worker := .set_running }
  | set_running {s : State Cb} (hw : s.worker = .set_running) :
      WorkerStep cfg s .other { s with sig_running := true, worker := .test_error }
  | test_error {s : State Cb} (hw : s.worker = .test_error) :
      WorkerStep cfg s .other { s with worker := if s.error = 0 then .pop else .on_exit }
  | pop {s : State Cb} {msg : TecMsg} {q : List (Option TecMsg)} (hw : s.worker = .pop)
      (hq : s.queue = some msg :: q) :
      WorkerStep cfg s (.pop (some msg)) { s with queue := q, worker := .dispatch msg }
  | pop_null {s : State Cb} {q : List (Option TecMsg)} (hw : s.worker = .pop)
      (hq : s.queue = none :: q) :
      WorkerStep cfg s (.pop none) { s with queue := q, worker := .on_exit }
  | dispatch_rpc {s : State Cb} {msg : TecMsg} (hw : s.worker = .dispatch msg)
      (htag : TecMsg_tag msg = TecRPC_msg_) :
      WorkerStep cfg s (.dispatch msg) { s with worker := .on_rpc msg }
  | dispatch_msg {s : State Cb} {msg : TecMsg} (hw : s.worker = .dispatch msg)
      (htag : TecMsg_tag msg ≠ TecRPC_msg_) :
      WorkerStep cfg s (.dispatch msg) { s with worker := .on_msg msg }
  | on_msg {s : State Cb} {msg : TecMsg} {callback : Cb} (hw : s.worker = .on_msg msg)
      (hget : TecMap_get cfg.hash_str s.callbacks (TecMsg_tag msg) = .ok (some callback)) :
      WorkerStep cfg s (.callback callback msg) { s with worker := .callback msg }
  | on_msg_none {s : State Cb} {msg : TecMsg} (hw : s.worker = .on_msg msg)
      (hget : TecMap_get cfg.hash_str s.callbacks (TecMsg_tag msg) = .ok none) :
      WorkerStep cfg s .other { s with worker := .free msg }
  | msg_handled {s : State Cb} {address : Nat} {tag : String}
      (hw : s.worker = .callback (.normal address tag)) :
      WorkerStep cfg s .other { s with worker := .free (.normal address tag) }
  | free {s : State Cb} {msg : TecMsg} (hw : s.worker = .free msg) :
      WorkerStep cfg s (.free msg) { s with worker := .pop }
  | on_rpc {s : State Cb} {c : Nat} {request : String} {callback : Cb}
      (hw : s.worker = .on_rpc (.rpc c request))
      (hget : TecMap_get cfg.hash_str s.callbacks request = .ok (some callback)) :
      WorkerStep cfg s (.callback callback (.rpc c request))
        { s.setCall c (fun call => { call with error := 0 }) with
          worker := .callback (.rpc c request) }
  | on_rpc_none {s : State Cb} {c : Nat} {request : String}
      (hw : s.worker = .on_rpc (.rpc c request))
      (hget : TecMap_get cfg.hash_str s.callbacks request = .ok none) :
      WorkerStep cfg s .other
        { s.setCall c (fun call => { call with error := TECC_ERR_HANDLER_NOT_FOUND }) with
          worker := .set_store c }
  /-- The handler leaves some value in `rpc->error`. -/
  | rpc_handled {s : State Cb} {c : Nat} {request : String} {error : Int}
      (hw : s.worker = .callback (.rpc c request)) :
      WorkerStep cfg s .other
        { s.setCall c (fun call => { call with error := error }) with worker := .set_store c }
  | set_store {s : State Cb} {c : Nat} (hw : s.worker = .set_store c) :
      WorkerStep cfg s .other
        { s.setCall c (fun call => { call with value := true }) with worker := .set_lock c }
  | set_lock {s : State Cb} {c : Nat} (hw : s.worker = .set_lock c)
      (hmtx : (s.calls c).mtx = none) :
      WorkerStep cfg s (.access c)
        { s.setCall c (fun call => { call with mtx := some .setter }) with
          worker := .set_broadcast c }
  | set_broadcast {s : State Cb} {c : Nat} (hw : s.worker = .set_broadcast c) :
      WorkerStep cfg s (.access c)
        { s.setCall c (fun call => { call with
            pc := if call.pc = .asleep then .woken else call.pc }) with
          worker := .set_unlock c }
  | set_unlock {s : State Cb} {c : Nat} (hw : s.worker = .set_unlock c) :
      WorkerStep cfg s (.access c)
        { s.setCall c (fun call => { call with mtx := none }) with worker := .pop }
  | on_exit {s : State Cb} (hw : s.worker = .on_exit) :
      WorkerStep cfg s .other
        { s with error := run_hook cfg.on_exit s.error, worker := .set_terminated }
  | set_terminated {s : State Cb} (hw : s.worker = .set_terminated) :
      WorkerStep cfg s .other { s with sig_terminated := true, worker := .exited }

/-- The steps of the call `c` of `TecDaemon_rpc`. -/
inductive CallStep (c : Nat) : State Cb → Event Cb → State Cb → Prop
  /-- `TecSignal_init` and `TecRPC_init`. -/
  | init {s : State Cb} {request : String} (hc : (s.calls c).pc = .idle) :
      CallStep c s .other
        (s.setCall c fun _ => ⟨.push request, false, none, false, 0⟩)
  | push {s : State Cb} {request : String} (hc : (s.calls c).pc = .push request) :
      CallStep c s (.push (some (.rpc c request)))
        { s.setCall c (fun call => { call with pc := .wait_load }) with
          queue := s.queue ++ [some (.rpc c request)] }
  | wait_load {s : State Cb} (hc : (s.calls c).pc = .wait_load) :
      CallStep c s (.load c)
        (s.setCall c fun call =>
          { call with pc := if call.value then .signal_done else .wait_lock })
  | wait_lock {s : State Cb} (hc : (s.calls c).pc = .wait_lock) (hmtx : (s.calls c).mtx = none) :
      CallStep c s .other
        (s.setCall c fun call => { call with pc := .wait_check, mtx := some .caller })
  | wait_check {s : State Cb} (hc : (s.calls c).pc = .wait_check) :
      CallStep c s (.load c)
        (s.setCall c fun call =>
          { call with pc := if call.value then .wait_unlock else .wait_sleep })
  /-- `TecCV_wait` releases the mutex. -/
  | wait_sleep {s : State Cb} (hc : (s.calls c).pc = .wait_sleep) :
      CallStep c s .other (s.setCall c fun call => { call with pc := .asleep, mtx := none })
  /-- A wakeup that no broadcast caused. -/
  | wake {s : State Cb} (hc : (s.calls c).pc = .asleep) :
      CallStep c s .other (s.setCall c fun call => { call with pc := .woken })
  | woken {s : State Cb} (hc : (s.calls c).pc = .woken) (hmtx : (s.calls c).mtx = none) :
      CallStep c s .other
        (s.setCall c fun call => { call with pc := .wait_check, mtx := some .caller })
  | wait_unlock {s : State Cb} (hc : (s.calls c).pc = .wait_unlock) :
      CallStep c s .other (s.setCall c fun call => { call with pc := .signal_done, mtx := none })
  | signal_done {s : State Cb} (hc : (s.calls c).pc = .signal_done) :
      CallStep c s (.destroy c)
        (s.setCall c fun call => { call with pc := .return, destroyed := true })
  | return {s : State Cb} (hc : (s.calls c).pc = .return) :
      CallStep c s .other (s.setCall c fun call => { call with pc := .returned call.error })

/-- The steps of the caller of `TecDaemon_run`. -/
inductive RunStep : State Cb → Event Cb → State Cb → Prop
  | lock {s : State Cb} (hr : s.run = .idle) (hl : s.lock = false) :
      RunStep s .other { s with lock := true, run := .create }
  | create {s : State Cb} (hr : s.run = .create) :
      RunStep s .other { s with worker := .on_init, run := .wait_running }
  | create_failed {s : State Cb} {result : Int} (hr : s.run = .create) (hresult : result ≠ 0) :
      RunStep s .other { s with run := .create_failed result }
  | wait_running {s : State Cb} (hr : s.run = .wait_running) (hsig : s.sig_running = true) :
      RunStep s .other { s with run := if s.error = 0 then .unlock else .join }
  | join {s : State Cb} (hr : s.run = .join) (hw : s.worker = .exited) :
      RunStep s .other { s with run := .unlock }
  | unlock {s : State Cb} (hr : s.run = .unlock) :
      RunStep s .other { s with lock := false, run := .return }
  | return {s : State Cb} (hr : s.run = .return) :
      RunStep s .other { s with run := .returned s.error }
  | return_failed {s : State Cb} {result : Int} (hr : s.run = .create_failed result) :
      RunStep s .other { s with lock := false, run := .returned result }

def State.setTerminate (s : State Cb) (t : Nat) (pc : TerminatePc) : State Cb :=
  { s with terminate := Function.update s.terminate t pc }

/-- The steps of the caller `t` of `TecDaemon_terminate`. -/
inductive TerminateStep (t : Nat) : State Cb → Event Cb → State Cb → Prop
  | lock {s : State Cb} (ht : s.terminate t = .idle) (hl : s.lock = false) :
      TerminateStep t s .other { s.setTerminate t .push with lock := true }
  | push {s : State Cb} (ht : s.terminate t = .push) :
      TerminateStep t s (.push none)
        { s.setTerminate t .wait_terminated with queue := s.queue ++ [none] }
  | wait_terminated {s : State Cb} (ht : s.terminate t = .wait_terminated)
      (hsig : s.sig_terminated = true) :
      TerminateStep t s .other (s.setTerminate t .join)
  | join {s : State Cb} (ht : s.terminate t = .join) (hw : s.worker = .exited) :
      TerminateStep t s .other (s.setTerminate t .read)
  | read {s : State Cb} (ht : s.terminate t = .read) :
      TerminateStep t s .other (s.setTerminate t (.unlock s.error))
  | unlock {s : State Cb} {result : Int} (ht : s.terminate t = .unlock result) :
      TerminateStep t s .other { s.setTerminate t (.returned result) with lock := false }

/-- The steps of everyone else. -/
inductive UserStep (cfg : Config) : State Cb → Event Cb → State Cb → Prop
  /-- `TecWorker_register`, before the worker is run. -/
  | register {s : State Cb} {tag : String} {callback : Cb} {malloc : Map.Addr}
      {callbacks : TecMap String Cb} {old : Option Cb} (hr : s.run = .idle) (hl : s.lock = false)
      (hfree : s.callbacks.heap malloc = none)
      (hset : TecMap_set cfg.hash_str s.callbacks tag (some callback) malloc =
        .ok (callbacks, old)) :
      UserStep cfg s (.register tag callback) { s with callbacks := callbacks }
  /-- `TecDaemon_send` of a normal message, whose tag names a type of its own. -/
  | send {s : State Cb} {address : Nat} {tag : String} (htag : tag ≠ TecRPC_msg_) :
      UserStep cfg s (.push (some (.normal address tag)))
        { s with queue := s.queue ++ [some (.normal address tag)] }

inductive Step (cfg : Config) : State Cb → Event Cb → State Cb → Prop
  | worker {s t : State Cb} {e : Event Cb} (h : WorkerStep cfg s e t) : Step cfg s e t
  | call {s t : State Cb} {e : Event Cb} (c : Nat) (h : CallStep c s e t) : Step cfg s e t
  | run {s t : State Cb} {e : Event Cb} (h : RunStep s e t) : Step cfg s e t
  | terminate {s t : State Cb} {e : Event Cb} (n : Nat) (h : TerminateStep n s e t) :
      Step cfg s e t
  | user {s t : State Cb} {e : Event Cb} (h : UserStep cfg s e t) : Step cfg s e t

/-- The state after `TecWorker_init`. -/
def TecWorker_init (cfg : Config) : State Cb where
  error := 0
  sig_running := false
  sig_terminated := false
  queue := []
  callbacks := TecMap_init (fun _ => none) cfg.hash_table_size
  lock := false
  worker := .absent
  run := .idle
  terminate := fun _ => .idle
  calls := fun _ => ⟨.idle, false, none, false, 0⟩

def workerLts (Cb : Type) (cfg : Config) : Transition.Lts (State Cb) (Event Cb) where
  Init s := s = TecWorker_init cfg
  Step := Step cfg

end Tecc.Worker
