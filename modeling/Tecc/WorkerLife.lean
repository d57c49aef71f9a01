import Tecc.Threads
import Tecc.WorkerControl

/-! The whole life of a worker: `TecWorker_init`, `TecDaemon_run`, `TecDaemon_terminate` and
`TecDaemon_done`, with the handle of its thread and the calls of its hooks. -/
namespace Tecc.Worker

open Transition

variable {Cb : Type} {cfg : Config}

/-- The position of the caller of `TecDaemon_done`. -/
inductive DonePc where
  | idle
  | join
  | destroy
  | returned
deriving DecidableEq

structure Life (Cb : Type) where
  worker : State Cb
  worker_thread : TecThread
  /-- The worker thread is inside of `on_init` or `on_exit`. -/
  hook : Bool
  done : DonePc

inductive LifeEvent (Cb : Type) where
  /-- A step that the worker alone tells about. -/
  | event (e : Event Cb)
  | create
  | create_failed (result : Int)
  | on_init_called
  | on_init_returned (result : Int)
  /-- `sig_running` is set. -/
  | running
  | on_exit_called
  | on_exit_returned (result : Int)
  /-- `sig_terminated` is set. -/
  | terminated
  | run_returned (result : Int)
  /-- A caller of `TecDaemon_terminate` has taken the lock. -/
  | terminate_called (n : Nat)
  | terminate_returned (n : Nat) (result : Int)
  /-- `pthread_join` in `TecDaemon_run` or `TecDaemon_terminate`. -/
  | join (t : Option Thread)
  | done_called
  /-- `pthread_join` in `TecDaemon_done`. -/
  | done_join (t : Option Thread)
  | done_skip
  | done_returned

/-- The step of the worker that an event belongs to. -/
def LifeEvent.base : LifeEvent Cb → Option (Event Cb)
  | .event e => some e
  | .on_init_called | .on_exit_called | .done_called | .done_join _ | .done_skip
  | .done_returned => none
  | _ => some .other

/-- The result of the hook that the worker thread is about to call. -/
def State.hook (cfg : Config) (s : State Cb) : Option Int :=
  if s.error = 0 then
    match s.worker with
    | .on_init => cfg.on_init
    | .on_exit => cfg.on_exit
    | _ => none
  else none

def worker_label (cfg : Config) (s : State Cb) (e : Event Cb) : LifeEvent Cb :=
  match s.worker, s.hook cfg with
  | .on_init, some result => .on_init_returned result
  | .set_running, _ => .running
  | .on_exit, some result => .on_exit_returned result
  | .set_terminated, _ => .terminated
  | _, _ => .event e

/-- The steps of the worker thread. A hook is called and returns. -/
inductive LifeWorkerStep (cfg : Config) : Life Cb → LifeEvent Cb → Life Cb → Prop
  | on_init {l : Life Cb} (hw : l.worker.worker = .on_init) (hout : l.hook = false)
      (hhook : (l.worker.hook cfg).isSome) :
      LifeWorkerStep cfg l .on_init_called { l with hook := true }
  | on_exit {l : Life Cb} (hw : l.worker.worker = .on_exit) (hout : l.hook = false)
      (hhook : (l.worker.hook cfg).isSome) :
      LifeWorkerStep cfg l .on_exit_called { l with hook := true }
  | step {l : Life Cb} {e : Event Cb} {t : State Cb} (hs : WorkerStep cfg l.worker e t)
      (hin : l.hook = (l.worker.hook cfg).isSome) :
      LifeWorkerStep cfg l (worker_label cfg l.worker e) { l with worker := t, hook := false }

/-- What a join tells: a handle that is not in use is not joined. -/
def join_label (thread : TecThread) : LifeEvent Cb :=
  match (TecThread_join thread).2 with
  | some t => .join t
  | none => .event .other

def run_label (thread : TecThread) (s t : State Cb) : LifeEvent Cb :=
  match s.run, t.run with
  | .create, .wait_running => .create
  | .create, .create_failed result => .create_failed result
  | .join, _ => join_label thread
  | _, .returned result => .run_returned result
  | _, _ => .event .other

/-- What a step of `TecWorker_run_` does to the handle of the worker thread. -/
def run_thread (thread : TecThread) (s t : State Cb) : TecThread :=
  match s.run, t.run with
  | .create, .wait_running => TecThread_create thread 0 .worker
  | .create, .create_failed result => TecThread_create thread result .worker
  | .join, _ => (TecThread_join thread).1
  | _, _ => thread

inductive LifeRunStep : Life Cb → LifeEvent Cb → Life Cb → Prop
  | step {l : Life Cb} {e : Event Cb} {t : State Cb} (hs : RunStep l.worker e t) :
      LifeRunStep l (run_label l.worker_thread l.worker t)
        { l with worker := t, worker_thread := run_thread l.worker_thread l.worker t }

def terminate_label (n : Nat) (thread : TecThread) (s : State Cb) (e : Event Cb) (t : State Cb) :
    LifeEvent Cb :=
  match s.terminate n, t.terminate n with
  | .idle, _ => .terminate_called n
  | .join, _ => join_label thread
  | _, .returned result => .terminate_returned n result
  | _, _ => .event e

def terminate_thread (n : Nat) (thread : TecThread) (s : State Cb) : TecThread :=
  match s.terminate n with
  | .join => (TecThread_join thread).1
  | _ => thread

inductive LifeTerminateStep (n : Nat) : Life Cb → LifeEvent Cb → Life Cb → Prop
  | step {l : Life Cb} {e : Event Cb} {t : State Cb} (hs : TerminateStep n l.worker e t) :
      LifeTerminateStep n l (terminate_label n l.worker_thread l.worker e t)
        { l with worker := t, worker_thread := terminate_thread n l.worker_thread l.worker }

/-- The steps of `TecWorker_done_`, when everybody else is done with the worker. -/
inductive LifeDoneStep : Life Cb → LifeEvent Cb → Life Cb → Prop
  | call {l : Life Cb} (hd : l.done = .idle)
      (hrun : l.worker.run = .idle ∨ ∃ result, l.worker.run = .returned result)
      (hterminate : ∀ n, l.worker.terminate n = .idle ∨
        ∃ result, l.worker.terminate n = .returned result) :
      LifeDoneStep l .done_called { l with done := .join }
  /-- `pthread_join` returns when the thread has ended. -/
  | join {l : Life Cb} {t : Option Thread} (hd : l.done = .join)
      (ht : (TecThread_join l.worker_thread).2 = some t)
      (hw : t = some .worker → l.worker.worker = .exited) :
      LifeDoneStep l (.done_join t)
        { l with worker_thread := (TecThread_join l.worker_thread).1, done := .destroy }
  | skip {l : Life Cb} (hd : l.done = .join) (ht : (TecThread_join l.worker_thread).2 = none) :
      LifeDoneStep l .done_skip { l with done := .destroy }
  /-- `TecQueue_done` frees the nodes of the queue, and leaves the messages alone. -/
  | destroy {l : Life Cb} (hd : l.done = .destroy) :
      LifeDoneStep l .done_returned { l with done := .returned }

inductive LifeStep (cfg : Config) : Life Cb → LifeEvent Cb → Life Cb → Prop
  | worker {l l' : Life Cb} {e : LifeEvent Cb} (hs : LifeWorkerStep cfg l e l')
      (hd : l.done = .idle ∨ l.done = .join) : LifeStep cfg l e l'
  | run {l l' : Life Cb} {e : LifeEvent Cb} (hs : LifeRunStep l e l') (hd : l.done = .idle) :
      LifeStep cfg l e l'
  | terminate {l l' : Life Cb} {e : LifeEvent Cb} (n : Nat) (hs : LifeTerminateStep n l e l')
      (hd : l.done = .idle) : LifeStep cfg l e l'
  | call {l : Life Cb} {e : Event Cb} {t : State Cb} (c : Nat) (hs : CallStep c l.worker e t)
      (hd : l.done = .idle) : LifeStep cfg l (.event e) { l with worker := t }
  | user {l : Life Cb} {e : Event Cb} {t : State Cb} (hs : UserStep cfg l.worker e t)
      (hd : l.done = .idle) : LifeStep cfg l (.event e) { l with worker := t }
  | done {l l' : Life Cb} {e : LifeEvent Cb} (hs : LifeDoneStep l e l') : LifeStep cfg l e l'

/-- `TecWorker_init` leaves the handle of the thread as it finds it. -/
structure LifeInitial (cfg : Config) (l : Life Cb) : Prop where
  worker : l.worker = TecWorker_init cfg
  worker_thread : l.worker_thread.t = none
  hook : l.hook = false
  done : l.done = .idle

def lifeLts (Cb : Type) (cfg : Config) : Lts (Life Cb) (LifeEvent Cb) where
  Init := LifeInitial cfg
  Step := LifeStep cfg

/-- What happened to the worker itself. -/
def events (xs : List (LifeEvent Cb)) : List (Event Cb) := xs.filterMap LifeEvent.base

variable {l l' : Life Cb} {e : LifeEvent Cb} {xs : List (LifeEvent Cb)} {s t : State Cb} {n : Nat}

theorem join_label_base (thread : TecThread) :
    (join_label thread : LifeEvent Cb).base = some .other := by
  unfold join_label
  split <;> rfl

theorem worker_label_base {e : Event Cb} (hs : WorkerStep cfg s e t) :
    (worker_label cfg s e).base = some e := by
  unfold worker_label
  cases hs with
  | on_init hw => rw [hw]; cases s.hook cfg <;> rfl
  | set_running hw => rw [hw]; rfl
  | on_exit hw => rw [hw]; cases s.hook cfg <;> rfl
  | set_terminated hw => rw [hw]; rfl
  | test_error hw | pop hw _ | pop_null hw _ | dispatch_rpc hw _ | dispatch_msg hw _
  | on_msg hw _ | on_msg_none hw _ | msg_handled hw | free hw | on_rpc hw _ | on_rpc_none hw _
  | rpc_handled hw | set_store hw | set_lock hw _ | set_broadcast hw | set_unlock hw =>
    rw [hw]
    rfl

theorem run_label_base {e : Event Cb} (thread : TecThread) (hs : RunStep s e t) :
    (run_label thread s t).base = some e := by
  unfold run_label
  cases hs with
  | join hr hw =>
    rw [hr]
    exact join_label_base thread
  | wait_running hr hsig =>
    rw [hr]
    by_cases herror : s.error = 0 <;> simp [herror, LifeEvent.base]
  | lock hr _ | create hr | create_failed hr _ | unlock hr | «return» hr | return_failed hr =>
    rw [hr]
    rfl

theorem terminate_label_base {e : Event Cb} (thread : TecThread) (hs : TerminateStep n s e t) :
    (terminate_label n thread s e t).base = some e := by
  unfold terminate_label
  cases hs with
  | join ht hw =>
    rw [ht]
    exact join_label_base thread
  | lock ht _ | push ht | wait_terminated ht _ | read ht | unlock ht =>
    simp [ht, State.setTerminate, LifeEvent.base]

/-- A step of the life of a worker is a step of the worker, or one that leaves it alone. -/
theorem life_step_worker (hs : LifeStep cfg l e l') :
    (∃ b, e.base = some b ∧ Step cfg l.worker b l'.worker) ∨
      e.base = none ∧ l'.worker = l.worker := by
  cases hs with
  | worker hs hd =>
    cases hs with
    | on_init hw hout hhook => exact .inr ⟨rfl, rfl⟩
    | on_exit hw hout hhook => exact .inr ⟨rfl, rfl⟩
    | step hs hin => exact .inl ⟨_, worker_label_base hs, .worker hs⟩
  | run hs hd =>
    cases hs with
    | step hs => exact .inl ⟨_, run_label_base _ hs, .run hs⟩
  | terminate n hs hd =>
    cases hs with
    | step hs => exact .inl ⟨_, terminate_label_base _ hs, .terminate n hs⟩
  | call c hs hd => exact .inl ⟨_, rfl, .call c hs⟩
  | user hs hd => exact .inl ⟨_, rfl, .user hs⟩
  | done hs => cases hs <;> exact .inr ⟨rfl, rfl⟩

theorem events_snoc (xs : List (LifeEvent Cb)) (e : LifeEvent Cb) :
    events (xs ++ [e]) = events xs ++ e.base.toList := by
  cases h : e.base <;> simp [events, List.filterMap_append, h]

/-- The worker in the life of a worker is the worker alone. -/
theorem life_history (h : (lifeLts Cb cfg).History xs l) :
    (workerLts Cb cfg).History (events xs) l.worker := by
  refine h.induction (P := fun xs l => (workerLts Cb cfg).History (events xs) l.worker) ?_ ?_
  · intro l hi
    exact .init hi.worker
  · intro xs l e l' _ ih hs
    rw [events_snoc]
    rcases life_step_worker hs with ⟨b, hb, hstep⟩ | ⟨hb, hw⟩
    · rw [hb]
      exact ih.snoc hstep
    · rw [hb, hw, Option.toList_none, List.append_nil]
      exact ih

/-- What holds of every worker along its life. -/
theorem life_control (h : (lifeLts Cb cfg).History xs l) :
    PhaseInv l.worker ∧ Lock.Exclusive l.worker.Holds l.worker.lock := by
  refine (life_history h).reachable.invariant
    (P := fun s => PhaseInv s ∧ Lock.Exclusive s.Holds s.lock) ?_ ?_
  · intro s hs
    rw [show s = TecWorker_init cfg from hs]
    exact ⟨phaseInv_initial, lock_initial⟩
  · intro s e t hinv hs
    exact ⟨phaseInv_step hs hinv.1, hinv.2.move (lock_step hs)⟩

/-- The hooks return 0 and 5. -/
def hookConfig : Config := { bareConfig with on_init := some 0, on_exit := some 5 }

/-- `TecDaemon_run` of a worker without hooks starts its thread and returns. -/
theorem life_started {l : Life Cb} (hrun : l.worker.run = .idle) (hlock : l.worker.lock = false)
    (herror : l.worker.error = 0) (hhook : l.hook = false) (hdone : l.done = .idle) :
    (lifeLts Cb bareConfig).Run l
      [.event .other, .create, .event .other, .running, .event .other, .event .other,
        .event .other, .run_returned 0]
      { worker :=
          { l.worker with
            sig_running := true
            lock := false
            worker := .pop
            run := .returned 0 }
        worker_thread := TecThread_create l.worker_thread 0 .worker
        hook := false
        done := .idle } := by
  obtain ⟨⟨_, running, terminated, queue, callbacks, _, worker, _, terminate, calls⟩, thread, _, _⟩
    := l
  subst hrun hlock herror hhook hdone
  have r0 : (lifeLts Cb bareConfig).Run
      ⟨⟨0, running, terminated, queue, callbacks, false, worker, .idle, terminate, calls⟩, thread,
        false, .idle⟩ [] _ := .refl
  have r1 := r0.snoc (LifeStep.run (.step (.lock rfl rfl)) rfl)
  have r2 := r1.snoc (LifeStep.run (.step (.create rfl)) rfl)
  have r3 := r2.snoc (LifeStep.worker (.step (.on_init rfl) rfl) (.inl rfl))
  have r4 := r3.snoc (LifeStep.worker (.step (.set_running rfl) rfl) (.inl rfl))
  have r5 := r4.snoc (LifeStep.worker (.step (.test_error rfl) rfl) (.inl rfl))
  have r6 := r5.snoc (LifeStep.run (.step (.wait_running rfl rfl)) rfl)
  have r7 := r6.snoc (LifeStep.run (.step (.unlock rfl)) rfl)
  exact r7.snoc (LifeStep.run (.step (.return rfl)) rfl)

end Tecc.Worker
