import Tecc.WorkerLife

/-! The service worker of tecc_service_worker.c: a worker whose `on_init` starts a service in a
thread of its own, and whose `on_exit` has another thread shut it down. -/
namespace Tecc.ServiceWorker

open Transition Worker

variable {Cb σ α : Type} {cfg : Config}

/-- What a thread does in `start`. -/
inductive StartAct (α : Type) where
  /-- `*error = value`. -/
  | error (value : Int)
  | sig_started
  /-- A step that only the service tells about. -/
  | step (a : α)
  | return

/-- What a thread does in `shutdown`. -/
inductive ShutdownAct (α : Type) where
  | sig_stopped
  | step (a : α)
  | return

/-- A `TecService`. The state covers the object, and the threads in `start` and `shutdown`. -/
structure Service (σ α : Type) where
  Init : σ → Prop
  start : σ → StartAct α → σ → Prop
  shutdown : σ → ShutdownAct α → σ → Prop

/-- The position of a thread that runs `start` or `shutdown`. -/
inductive ThreadPc where
  | absent
  | created
  | running
  | exited
deriving DecidableEq

/-- The position of the worker thread in `on_init` or `on_exit`. -/
inductive HookPc where
  | out
  | init_create
  | init_wait_started
  | init_test
  | init_join
  | init_set_stopped
  | init_read
  | init_return (result : Int)
  | exit_create
  | exit_join
  | exit_wait_stopped
  | exit_join_service
  | exit_read
  | exit_return (result : Int)
deriving DecidableEq

structure ServiceState (Cb σ : Type) where
  life : Life Cb
  error : Int
  sig_started : Bool
  sig_stopped : Bool
  service_thread : TecThread
  /-- The local variable of `on_exit`. -/
  exit_thread : TecThread
  hook : HookPc
  /-- The service thread. -/
  start : ThreadPc
  /-- The exit thread. -/
  shutdown : ThreadPc
  service : σ
  /-- What `start` has written into `*error` last. -/
  reported : Option Int
  /-- `TecServiceWorker_done_` is behind the join of the service thread. -/
  joined : Bool

inductive ServiceEvent (Cb α : Type) where
  | life (e : LifeEvent Cb)
  | service_create
  | service_create_failed (result : Int)
  | exit_create
  | exit_create_failed (result : Int)
  | start_called
  | start (a : StartAct α)
  | shutdown_called
  | shutdown (a : ShutdownAct α)
  /-- `pthread_join` on `t`, which is the service thread or the exit thread unless something is
  wrong. -/
  | join (t : Option Thread)
  | other

/-- What a thread finds when it joins: a thread that has ended. -/
def ServiceState.Joinable (s : ServiceState Cb σ) (thread : TecThread) : Prop :=
  match (TecThread_join thread).2 with
  | some (some .worker) => s.life.worker.worker = .exited
  | some (some .service) => s.start = .exited
  | some (some .exit) => s.shutdown = .exited
  | _ => True

def join_event (thread : TecThread) : ServiceEvent Cb α :=
  match (TecThread_join thread).2 with
  | some t => .join t
  | none => .other

/-- The steps of `on_init`. -/
inductive InitStep : ServiceState Cb σ → ServiceEvent Cb α → ServiceState Cb σ → Prop
  | create {s : ServiceState Cb σ} (hh : s.hook = .init_create) :
      InitStep s .service_create
        { s with
          service_thread := TecThread_create s.service_thread 0 .service
          start := .created
          hook := .init_wait_started }
  | create_failed {s : ServiceState Cb σ} {result : Int} (hh : s.hook = .init_create)
      (hresult : result ≠ 0) :
      InitStep s (.service_create_failed result)
        { s with
          service_thread := TecThread_create s.service_thread result .service
          hook := .init_return result }
  | wait_started {s : ServiceState Cb σ} (hh : s.hook = .init_wait_started)
      (hsig : s.sig_started = true) : InitStep s .other { s with hook := .init_test }
  | test {s : ServiceState Cb σ} (hh : s.hook = .init_test) :
      InitStep s .other { s with hook := if s.error = 0 then .init_read else .init_join }
  | join {s : ServiceState Cb σ} (hh : s.hook = .init_join) (hj : s.Joinable s.service_thread) :
      InitStep s (join_event s.service_thread)
        { s with
          service_thread := (TecThread_join s.service_thread).1
          hook := .init_set_stopped }
  | set_stopped {s : ServiceState Cb σ} (hh : s.hook = .init_set_stopped) :
      InitStep s .other { s with sig_stopped := true, hook := .init_read }
  | read {s : ServiceState Cb σ} (hh : s.hook = .init_read) :
      InitStep s .other { s with hook := .init_return s.error }

/-- The steps of `on_exit`. -/
inductive ExitStep : ServiceState Cb σ → ServiceEvent Cb α → ServiceState Cb σ → Prop
  | create {s : ServiceState Cb σ} (hh : s.hook = .exit_create) :
      ExitStep s .exit_create
        { s with
          exit_thread := TecThread_create (TecThread_init s.exit_thread) 0 .exit
          shutdown := .created
          hook := .exit_join }
  | create_failed {s : ServiceState Cb σ} {result : Int} (hh : s.hook = .exit_create)
      (hresult : result ≠ 0) :
      ExitStep s (.exit_create_failed result)
        { s with
          exit_thread := TecThread_create (TecThread_init s.exit_thread) result .exit
          hook := .exit_wait_stopped }
  | join {s : ServiceState Cb σ} (hh : s.hook = .exit_join) (hj : s.Joinable s.exit_thread) :
      ExitStep s (join_event s.exit_thread)
        { s with exit_thread := (TecThread_join s.exit_thread).1, hook := .exit_wait_stopped }
  | wait_stopped {s : ServiceState Cb σ} (hh : s.hook = .exit_wait_stopped)
      (hsig : s.sig_stopped = true) : ExitStep s .other { s with hook := .exit_join_service }
  | join_service {s : ServiceState Cb σ} (hh : s.hook = .exit_join_service)
      (hj : s.Joinable s.service_thread) :
      ExitStep s (join_event s.service_thread)
        { s with service_thread := (TecThread_join s.service_thread).1, hook := .exit_read }
  | read {s : ServiceState Cb σ} (hh : s.hook = .exit_read) :
      ExitStep s .other { s with hook := .exit_return s.error }

/-- What an act of `start` does to the service worker. -/
def ServiceState.afterStart (s : ServiceState Cb σ) : StartAct α → ServiceState Cb σ
  | .error value => { s with error := value, reported := some value }
  | .sig_started => { s with sig_started := true }
  | .step _ => s
  | .return => { s with start := .exited }

def ServiceState.afterShutdown (s : ServiceState Cb σ) : ShutdownAct α → ServiceState Cb σ
  | .sig_stopped => { s with sig_stopped := true }
  | .step _ => s
  | .return => { s with shutdown := .exited }

/-- The steps of the service thread. -/
inductive StartStep (S : Service σ α) :
    ServiceState Cb σ → ServiceEvent Cb α → ServiceState Cb σ → Prop
  | call {s : ServiceState Cb σ} (hs : s.start = .created) :
      StartStep S s .start_called { s with start := .running }
  | act {s : ServiceState Cb σ} {a : StartAct α} {v : σ} (hs : s.start = .running)
      (ha : S.start s.service a v) :
      StartStep S s (.start a) { s.afterStart a with service := v }

/-- The steps of the exit thread. -/
inductive ShutdownStep (S : Service σ α) :
    ServiceState Cb σ → ServiceEvent Cb α → ServiceState Cb σ → Prop
  | call {s : ServiceState Cb σ} (hs : s.shutdown = .created) :
      ShutdownStep S s .shutdown_called { s with shutdown := .running }
  | act {s : ServiceState Cb σ} {a : ShutdownAct α} {v : σ} (hs : s.shutdown = .running)
      (ha : S.shutdown s.service a v) :
      ShutdownStep S s (.shutdown a) { s.afterShutdown a with service := v }

/-- The hooks of a service worker are its own, with the results `init` and `exit`. -/
def hooked (cfg : Config) (init exit : Int) : Config :=
  { cfg with on_init := some init, on_exit := some exit }

/-- The worker calls a hook, or the hook returns. -/
def isHook : LifeEvent Cb → Bool
  | .on_init_called | .on_init_returned _ | .on_exit_called | .on_exit_returned _ => true
  | _ => false

/-- How the worker thread gets into a hook and back. -/
inductive HookMove : HookPc → LifeEvent Cb → HookPc → Prop
  | on_init_called : HookMove .out .on_init_called .init_create
  | on_init_returned {result : Int} :
      HookMove (.init_return result) (.on_init_returned result) .out
  | on_exit_called : HookMove .out .on_exit_called .exit_create
  | on_exit_returned {result : Int} :
      HookMove (.exit_return result) (.on_exit_returned result) .out
  | other {pc : HookPc} {e : LifeEvent Cb} (he : isHook e = false) : HookMove pc e pc

/-- `TecWorker_done_` comes behind the join of the service thread. -/
def ServiceState.Ready (s : ServiceState Cb σ) : LifeEvent Cb → Prop
  | .done_join _ | .done_skip => s.joined = true
  | _ => True

inductive ServiceStep (S : Service σ α) (cfg : Config) :
    ServiceState Cb σ → ServiceEvent Cb α → ServiceState Cb σ → Prop
  | life {s : ServiceState Cb σ} {init exit : Int} {e : LifeEvent Cb} {l : Life Cb} {pc : HookPc}
      (hs : LifeStep (hooked cfg init exit) s.life e l) (hm : HookMove s.hook e pc)
      (hready : s.Ready e) : ServiceStep S cfg s (.life e) { s with life := l, hook := pc }
  | init {s t : ServiceState Cb σ} {e : ServiceEvent Cb α} (hs : InitStep s e t) :
      ServiceStep S cfg s e t
  | exit {s t : ServiceState Cb σ} {e : ServiceEvent Cb α} (hs : ExitStep s e t) :
      ServiceStep S cfg s e t
  | start {s t : ServiceState Cb σ} {e : ServiceEvent Cb α} (hs : StartStep S s e t) :
      ServiceStep S cfg s e t
  | shutdown {s t : ServiceState Cb σ} {e : ServiceEvent Cb α} (hs : ShutdownStep S s e t) :
      ServiceStep S cfg s e t
  /-- `TecServiceWorker_done_` joins the service thread. -/
  | done {s : ServiceState Cb σ} (hd : s.life.done = .join) (hj : s.joined = false)
      (hjoin : s.Joinable s.service_thread) :
      ServiceStep S cfg s (join_event s.service_thread)
        { s with service_thread := (TecThread_join s.service_thread).1, joined := true }

/-- What `TecServiceWorker_init_` leaves in the memory it is given. -/
structure ServiceInitial (S : Service σ α) (cfg : Config) (s : ServiceState Cb σ) : Prop where
  life : LifeInitial cfg s.life
  error : s.error = 0
  sig_started : s.sig_started = false
  sig_stopped : s.sig_stopped = false
  service_thread : ∃ prior : TecThread, s.service_thread = TecThread_init prior
  hook : s.hook = .out
  start : s.start = .absent
  shutdown : s.shutdown = .absent
  service : S.Init s.service
  reported : s.reported = none
  joined : s.joined = false

def serviceLts (Cb : Type) (S : Service σ α) (cfg : Config) :
    Lts (ServiceState Cb σ) (ServiceEvent Cb α) where
  Init := ServiceInitial S cfg
  Step := ServiceStep S cfg

/-- The service that tecc_service.c installs by default: the state counts what is done. -/
inductive DefaultPc where
  | entered
  | reported
  | signalled
deriving DecidableEq

/-- `*error = 0; TecSignal_set(sig_started);` -/
inductive default_start : DefaultPc × DefaultPc → StartAct Empty → DefaultPc × DefaultPc → Prop
  | error {pc : DefaultPc} : default_start (.entered, pc) (.error 0) (.reported, pc)
  | sig_started {pc : DefaultPc} : default_start (.reported, pc) .sig_started (.signalled, pc)
  | return {pc : DefaultPc} : default_start (.signalled, pc) .return (.signalled, pc)

/-- `TecSignal_set(sig_stopped);` -/
inductive default_shutdown :
    DefaultPc × DefaultPc → ShutdownAct Empty → DefaultPc × DefaultPc → Prop
  | sig_stopped {pc : DefaultPc} : default_shutdown (pc, .entered) .sig_stopped (pc, .signalled)
  | return {pc : DefaultPc} : default_shutdown (pc, .signalled) .return (pc, .signalled)

def TecService_init_ : Service (DefaultPc × DefaultPc) Empty where
  Init v := v = (.entered, .entered)
  start := default_start
  shutdown := default_shutdown

end Tecc.ServiceWorker
