import Tecc.Lib.Lock
import Tecc.WorkerDispatch

/-! How the threads that run and terminate a worker stand to the worker thread: who holds the
lock, which signals are set, and what is left to do for a thread that waits. The hooks may return
anything, so the results hold for every configuration. -/
namespace Tecc.Worker

open Transition

variable {Cb : Type} {cfg : Config} {s t : State Cb} {e : Event Cb} {c n m : Nat}

/-- The caller of `TecDaemon_run` has the lock. -/
def RunPc.Holds : RunPc → Prop
  | .create | .wait_running | .join | .unlock | .create_failed _ => True
  | _ => False

/-- The caller of `TecDaemon_terminate` has the lock. -/
def TerminatePc.Holds : TerminatePc → Prop
  | .push | .wait_terminated | .join | .read | .unlock _ => True
  | _ => False

/-- Who has the lock: the caller of `TecDaemon_run`, or a caller of `TecDaemon_terminate`. -/
def State.Holds (s : State Cb) : Option Nat → Prop
  | none => s.run.Holds
  | some n => (s.terminate n).Holds

theorem holds_run (h : t.run = s.run) (hi : t.Holds none) : s.Holds none := by
  rw [State.Holds, ← h]
  exact hi

theorem holds_terminate (h : t.terminate n = s.terminate n) (hi : t.Holds (some n)) :
    s.Holds (some n) := by
  rw [State.Holds, ← h]
  exact hi

theorem worker_step_control (hs : WorkerStep cfg s e t) :
    t.run = s.run ∧ t.terminate = s.terminate ∧ t.lock = s.lock := by
  cases hs <;> exact ⟨rfl, rfl, rfl⟩

theorem call_step_control (hs : CallStep c s e t) :
    t.run = s.run ∧ t.terminate = s.terminate ∧ t.lock = s.lock := by
  cases hs <;> exact ⟨rfl, rfl, rfl⟩

theorem user_step_control (hs : UserStep cfg s e t) :
    t.run = s.run ∧ t.terminate = s.terminate ∧ t.lock = s.lock := by
  cases hs <;> exact ⟨rfl, rfl, rfl⟩

theorem terminate_step_other (hs : TerminateStep n s e t) (hm : m ≠ n) :
    t.terminate m = s.terminate m := by
  cases hs <;> exact Function.update_of_ne hm _ _

theorem terminate_step_same (hs : TerminateStep n s e t) : t.run = s.run ∧ t.worker = s.worker := by
  cases hs <;> exact ⟨rfl, rfl⟩

theorem holds_same (hsame : t.run = s.run ∧ t.terminate = s.terminate ∧ t.lock = s.lock) :
    Lock.Move s.Holds t.Holds s.lock t.lock := by
  obtain ⟨hrun, hterminate, hlock⟩ := hsame
  refine .same ?_ hlock
  intro i hi
  cases i with
  | none => exact holds_run hrun hi
  | some n => exact holds_terminate (congrFun hterminate n) hi

theorem lock_terminate_step (hs : TerminateStep n s e t) :
    Lock.Move s.Holds t.Holds s.lock t.lock := by
  have hothers : ∀ i, i ≠ some n → t.Holds i → s.Holds i := by
    intro i hi hholds
    cases i with
    | none => exact holds_run (terminate_step_same hs).1 hholds
    | some m =>
      have hm : m ≠ n := fun h => hi (congrArg some h)
      exact holds_terminate (terminate_step_other hs hm) hholds
  have hkeep : (s.terminate n).Holds → t.lock = s.lock →
      Lock.Move s.Holds t.Holds s.lock t.lock := by
    intro hn hlock
    refine .same ?_ hlock
    intro i hi
    by_cases hin : i = some n
    · rw [hin]
      exact hn
    · exact hothers i hin hi
  cases hs with
  | lock ht hl => exact .take (some n) hothers hl rfl
  | push ht | wait_terminated ht _ | join ht _ | read ht => exact hkeep (by rw [ht]; trivial) rfl
  | unlock ht =>
    refine .release (some n) ?_ ?_ hothers rfl
    · rw [State.Holds, ht]
      trivial
    · simp [State.Holds, State.setTerminate, TerminatePc.Holds]

theorem lock_run_step (hs : RunStep s e t) : Lock.Move s.Holds t.Holds s.lock t.lock := by
  have hothers : ∀ i, i ≠ none → t.Holds i → s.Holds i := by
    intro i hi hholds
    have hsame : t.terminate = s.terminate := by cases hs <;> rfl
    cases i with
    | none => exact absurd rfl hi
    | some m => exact holds_terminate (congrFun hsame m) hholds
  have hkeep : s.run.Holds → t.lock = s.lock → Lock.Move s.Holds t.Holds s.lock t.lock := by
    intro hrun hlock
    refine .same ?_ hlock
    intro i hi
    cases i with
    | none => exact hrun
    | some m => exact hothers _ (by simp) hi
  cases hs with
  | lock hr hl => exact .take none hothers hl rfl
  | create hr | create_failed hr _ | wait_running hr _ | join hr _ =>
    exact hkeep (by rw [hr]; trivial) rfl
  | unlock hr => exact .release none (by rw [State.Holds, hr]; trivial) id hothers rfl
  | «return» hr =>
    refine .same ?_ rfl
    intro i hi
    cases i with
    | none => exact hi.elim
    | some m => exact hothers _ (by simp) hi
  | return_failed hr => exact .release none (by rw [State.Holds, hr]; trivial) id hothers rfl

theorem lock_step (hs : Step cfg s e t) : Lock.Move s.Holds t.Holds s.lock t.lock := by
  cases hs with
  | worker hs => exact holds_same (worker_step_control hs)
  | call c hs => exact holds_same (call_step_control hs)
  | run hs => exact lock_run_step hs
  | terminate n hs => exact lock_terminate_step hs
  | user hs => exact holds_same (user_step_control hs)

theorem lock_initial : Lock.Exclusive (TecWorker_init cfg : State Cb).Holds false := by
  refine ⟨?_, ?_⟩
  · intro i hi
    cases i <;> exact hi.elim
  · intro i _ hi
    cases i <;> exact hi.elim

/-- The worker thread is behind `TecSignal_set(&w->sig_running)`. -/
def WorkerPc.Running : WorkerPc → Prop
  | .absent | .on_init | .set_running => False
  | _ => True

/-- The worker thread is in its message loop. -/
def WorkerPc.Loop : WorkerPc → Prop
  | .pop | .dispatch _ | .on_msg _ | .on_rpc _ | .callback _ | .free _ | .set_store _
  | .set_lock _ | .set_broadcast _ | .set_unlock _ => True
  | _ => False

/-- The caller of `TecDaemon_run` has started the thread and seen `sig_running`. -/
def RunPc.Seen : RunPc → Prop
  | .join | .unlock | .return => True
  | _ => False

/-- The caller of `TecDaemon_terminate` has seen `sig_terminated`. -/
def TerminatePc.Seen : TerminatePc → Prop
  | .join | .read | .unlock _ | .returned _ => True
  | _ => False

/-- A step that leaves the signals and the queue alone. -/
structure Quiet (s t : State Cb) : Prop where
  running : t.sig_running = s.sig_running
  terminated : t.sig_terminated = s.sig_terminated
  queue : t.queue = s.queue

/-- The moves of the worker thread, with what they do to the signals and the queue. -/
inductive WorkerMove (cfg : Config) (s t : State Cb) : Prop
  | on_init (hw : s.worker = .on_init) (hw' : t.worker = .set_running) (hquiet : Quiet s t)
      (herror : t.error = run_hook cfg.on_init s.error)
  | set_running (hw : s.worker = .set_running) (hw' : t.worker = .test_error)
      (hrunning : t.sig_running = true) (hterminated : t.sig_terminated = s.sig_terminated)
      (hqueue : t.queue = s.queue) (herror : t.error = s.error)
  | enter (hw : s.worker = .test_error) (hw' : t.worker = .pop) (hquiet : Quiet s t)
      (herror : t.error = s.error) (hzero : s.error = 0)
  | skip (hw : s.worker = .test_error) (hw' : t.worker = .on_exit) (hquiet : Quiet s t)
      (herror : t.error = s.error) (hzero : s.error ≠ 0)
  | loop (hw : s.worker.Loop) (hw' : t.worker.Loop) (hrunning : t.sig_running = s.sig_running)
      (hterminated : t.sig_terminated = s.sig_terminated)
      (hqueue : t.queue = s.queue ∨ ∃ msg, s.queue = some msg :: t.queue)
      (herror : t.error = s.error)
  | leave (hw : s.worker = .pop) (hw' : t.worker = .on_exit)
      (hrunning : t.sig_running = s.sig_running)
      (hterminated : t.sig_terminated = s.sig_terminated) (hqueue : s.queue = none :: t.queue)
      (herror : t.error = s.error)
  | on_exit (hw : s.worker = .on_exit) (hw' : t.worker = .set_terminated) (hquiet : Quiet s t)
      (herror : t.error = run_hook cfg.on_exit s.error)
  | set_terminated (hw : s.worker = .set_terminated) (hw' : t.worker = .exited)
      (hrunning : t.sig_running = s.sig_running) (hterminated : t.sig_terminated = true)
      (hqueue : t.queue = s.queue) (herror : t.error = s.error)

theorem worker_step_move (hs : WorkerStep cfg s e t) : WorkerMove cfg s t := by
  cases hs with
  | on_init hw => exact .on_init hw rfl ⟨rfl, rfl, rfl⟩ rfl
  | set_running hw => exact .set_running hw rfl rfl rfl rfl rfl
  | test_error hw =>
    by_cases hzero : s.error = 0
    · exact .enter hw (if_pos hzero) ⟨rfl, rfl, rfl⟩ rfl hzero
    · exact .skip hw (if_neg hzero) ⟨rfl, rfl, rfl⟩ rfl hzero
  | pop hw hq => exact .loop (by rw [hw]; trivial) trivial rfl rfl (.inr ⟨_, hq⟩) rfl
  | pop_null hw hq => exact .leave hw rfl rfl rfl hq rfl
  | on_exit hw => exact .on_exit hw rfl ⟨rfl, rfl, rfl⟩ rfl
  | set_terminated hw => exact .set_terminated hw rfl rfl rfl rfl rfl
  | dispatch_rpc hw _ | dispatch_msg hw _ | on_msg hw _ | on_msg_none hw _ | msg_handled hw
  | free hw | on_rpc hw _ | on_rpc_none hw _ | rpc_handled hw | set_store hw | set_lock hw _
  | set_broadcast hw | set_unlock hw =>
    exact .loop (by rw [hw]; trivial) trivial rfl rfl (.inl rfl) rfl

theorem loop_running {pc : WorkerPc} (h : pc.Loop) : pc.Running := by
  cases pc <;> trivial

theorem loop_not_left {pc : WorkerPc} (h : pc.Loop) : ¬ pc.Left := by
  cases pc <;> first | exact id | exact h.elim

theorem loop_not_exited {pc : WorkerPc} (h : pc.Loop) : pc ≠ .exited := by
  rintro rfl
  exact h

/-- The signals tell where the worker thread is. -/
structure SignalInv (s : State Cb) : Prop where
  running : s.sig_running = true ↔ s.worker.Running
  terminated : s.sig_terminated = true ↔ s.worker = .exited
  loop : s.worker.Loop → s.error = 0

theorem SignalInv.of_same (h : SignalInv s) (hworker : t.worker = s.worker)
    (hrunning : t.sig_running = s.sig_running) (hterminated : t.sig_terminated = s.sig_terminated)
    (herror : t.error = s.error) : SignalInv t := by
  refine ⟨?_, ?_, ?_⟩
  · rw [hrunning, hworker]
    exact h.running
  · rw [hterminated, hworker]
    exact h.terminated
  · rw [hworker, herror]
    exact h.loop

theorem signalInv_move (hm : WorkerMove cfg s t) (h : SignalInv s) : SignalInv t := by
  have hrunning := h.running
  have hterminated := h.terminated
  cases hm with
  | on_init hw hw' hquiet herror =>
    rw [hw] at hrunning hterminated
    refine ⟨?_, ?_, fun hl => by rw [hw'] at hl; exact hl.elim⟩
    · rw [hw', hquiet.running]
      exact hrunning
    · rw [hw', hquiet.terminated]
      simpa using hterminated
  | set_running hw hw' hrunning' hterminated' hqueue herror =>
    rw [hw] at hterminated
    refine ⟨?_, ?_, fun hl => by rw [hw'] at hl; exact hl.elim⟩
    · rw [hw', hrunning']
      exact iff_of_true rfl trivial
    · rw [hw', hterminated']
      simpa using hterminated
  | enter hw hw' hquiet herror hzero =>
    rw [hw] at hrunning hterminated
    refine ⟨?_, ?_, fun _ => herror.trans hzero⟩
    · rw [hw', hquiet.running]
      exact hrunning
    · rw [hw', hquiet.terminated]
      simpa using hterminated
  | skip hw hw' hquiet herror hzero =>
    rw [hw] at hrunning hterminated
    refine ⟨?_, ?_, fun hl => by rw [hw'] at hl; exact hl.elim⟩
    · rw [hw', hquiet.running]
      exact hrunning
    · rw [hw', hquiet.terminated]
      simpa using hterminated
  | loop hw hw' hrunning' hterminated' hqueue herror =>
    refine ⟨?_, ?_, fun _ => herror.trans (h.loop hw)⟩
    · rw [hrunning']
      exact hrunning.trans (iff_of_true (loop_running hw) (loop_running hw'))
    · rw [hterminated']
      exact hterminated.trans (iff_of_false (loop_not_exited hw) (loop_not_exited hw'))
  | leave hw hw' hrunning' hterminated' hqueue herror =>
    rw [hw] at hrunning hterminated
    refine ⟨?_, ?_, fun hl => by rw [hw'] at hl; exact hl.elim⟩
    · rw [hw', hrunning']
      exact hrunning
    · rw [hw', hterminated']
      simpa using hterminated
  | on_exit hw hw' hquiet herror =>
    rw [hw] at hrunning hterminated
    refine ⟨?_, ?_, fun hl => by rw [hw'] at hl; exact hl.elim⟩
    · rw [hw', hquiet.running]
      exact hrunning
    · rw [hw', hquiet.terminated]
      simpa using hterminated
  | set_terminated hw hw' hrunning' hterminated' hqueue herror =>
    rw [hw] at hrunning
    refine ⟨?_, ?_, fun hl => by rw [hw'] at hl; exact hl.elim⟩
    · rw [hw', hrunning']
      exact hrunning
    · rw [hw', hterminated']
      exact iff_of_true rfl rfl

/-- The signals are never cleared. -/
theorem move_signals (hm : WorkerMove cfg s t) :
    (s.sig_running = true → t.sig_running = true) ∧
      (s.sig_terminated = true → t.sig_terminated = true) := by
  cases hm with
  | on_init hw hw' hquiet herror => rw [hquiet.running, hquiet.terminated]; exact ⟨id, id⟩
  | set_running hw hw' hrunning hterminated hqueue herror =>
    rw [hrunning, hterminated]
    exact ⟨fun _ => rfl, id⟩
  | enter hw hw' hquiet herror hzero => rw [hquiet.running, hquiet.terminated]; exact ⟨id, id⟩
  | skip hw hw' hquiet herror hzero => rw [hquiet.running, hquiet.terminated]; exact ⟨id, id⟩
  | loop hw hw' hrunning hterminated hqueue herror =>
    rw [hrunning, hterminated]
    exact ⟨id, id⟩
  | leave hw hw' hrunning hterminated hqueue herror =>
    rw [hrunning, hterminated]
    exact ⟨id, id⟩
  | on_exit hw hw' hquiet herror => rw [hquiet.running, hquiet.terminated]; exact ⟨id, id⟩
  | set_terminated hw hw' hrunning hterminated hqueue herror =>
    rw [hrunning, hterminated]
    exact ⟨id, fun _ => rfl⟩

theorem move_present (hm : WorkerMove cfg s t) : s.worker ≠ .absent ∧ t.worker ≠ .absent := by
  have hloop : ∀ {pc : WorkerPc}, pc.Loop → pc ≠ .absent := by
    rintro pc h rfl
    exact h
  cases hm with
  | loop hw hw' hrunning hterminated hqueue herror => exact ⟨hloop hw, hloop hw'⟩
  | on_init hw hw' | set_running hw hw' | enter hw hw' | skip hw hw' | leave hw hw'
  | on_exit hw hw' | set_terminated hw hw' =>
    rw [hw, hw']
    exact ⟨WorkerPc.noConfusion, WorkerPc.noConfusion⟩

/-- A NULL in the queue ends the loop, or waits for a worker that has left it. -/
theorem move_asked (hm : WorkerMove cfg s t) (h : none ∈ s.queue ∨ s.worker.Left) :
    none ∈ t.queue ∨ t.worker.Left := by
  cases hm with
  | on_init hw hw' hquiet herror =>
    rw [hw] at h
    rw [hquiet.queue]
    exact .inl (h.resolve_right id)
  | set_running hw hw' hrunning hterminated hqueue herror =>
    rw [hw] at h
    rw [hqueue]
    exact .inl (h.resolve_right id)
  | enter hw hw' hquiet herror hzero =>
    rw [hw] at h
    rw [hquiet.queue]
    exact .inl (h.resolve_right id)
  | loop hw hw' hrunning hterminated hqueue herror =>
    have hnull := h.resolve_right (loop_not_left hw)
    rcases hqueue with hqueue | ⟨msg, hqueue⟩
    · rw [hqueue]
      exact .inl hnull
    · rw [hqueue] at hnull
      exact .inl (by simpa using hnull)
  | skip hw hw' | leave hw hw' | on_exit hw hw' | set_terminated hw hw' =>
    rw [hw']
    exact .inr trivial

/-- How the worker thread stands to those who wait for it. -/
structure PhaseInv (s : State Cb) : Prop where
  created : Created s
  started : s.run = .wait_running → s.worker ≠ .absent
  failed : ∀ result, s.run = .create_failed result → s.worker = .absent ∧ result ≠ 0
  signal : SignalInv s
  seen : s.run.Seen → s.sig_running = true
  ended : ∀ n, (s.terminate n).Seen → s.sig_terminated = true
  asked : ∀ n, s.terminate n = .wait_terminated → none ∈ s.queue ∨ s.worker.Left

theorem phaseInv_worker_step (hs : WorkerStep cfg s e t) (h : PhaseInv s) : PhaseInv t := by
  have hm := worker_step_move hs
  obtain ⟨hrun, hterminate, _⟩ := worker_step_control hs
  refine ⟨created_worker_step hs h.created, fun _ => (move_present hm).2, ?_,
    signalInv_move hm h.signal, ?_, ?_, ?_⟩
  · intro result hfailed
    rw [hrun] at hfailed
    exact absurd (h.failed result hfailed).1 (move_present hm).1
  · rw [hrun]
    exact fun hseen => (move_signals hm).1 (h.seen hseen)
  · rw [hterminate]
    exact fun n hseen => (move_signals hm).2 (h.ended n hseen)
  · rw [hterminate]
    exact fun n hwait => move_asked hm (h.asked n hwait)

/-- A step that leaves the worker thread alone and takes nothing from the queue. -/
theorem PhaseInv.of_same (h : PhaseInv s) (hrun : t.run = s.run)
    (hterminate : t.terminate = s.terminate) (hworker : t.worker = s.worker)
    (hrunning : t.sig_running = s.sig_running) (hterminated : t.sig_terminated = s.sig_terminated)
    (herror : t.error = s.error) (hqueue : ∀ msg ∈ s.queue, msg ∈ t.queue) : PhaseInv t := by
  refine ⟨?_, ?_, ?_, h.signal.of_same hworker hrunning hterminated herror, ?_, ?_, ?_⟩
  · rw [Created, hrun, hworker]
    exact h.created
  · rw [hrun, hworker]
    exact h.started
  · rw [hrun, hworker]
    exact h.failed
  · rw [hrun, hrunning]
    exact h.seen
  · rw [hterminate, hterminated]
    exact h.ended
  · rw [hterminate, hworker]
    exact fun n hwait => (h.asked n hwait).imp_left (hqueue _)

theorem phaseInv_run_step (hs : RunStep s e t) (h : PhaseInv s) : PhaseInv t := by
  have hcreated : Created t := @created_control_step _ bareConfig _ _ _ (.inl hs) h.created
  cases hs with
  | lock hr hl =>
    exact ⟨hcreated, (by simp), (by simp), h.signal.of_same rfl rfl rfl rfl, fun hs => hs.elim,
      h.ended, h.asked⟩
  | create hr =>
    have habsent := h.created (.inr hr)
    have hrunning : ¬ s.sig_running = true := by
      rw [h.signal.running, habsent]
      exact id
    have hterminated : ¬ s.sig_terminated = true := by
      rw [h.signal.terminated, habsent]
      exact WorkerPc.noConfusion
    refine ⟨hcreated, fun _ => WorkerPc.noConfusion, (by simp), ⟨?_, ?_, fun hl => hl.elim⟩,
      fun hs => hs.elim, h.ended, ?_⟩
    · exact iff_of_false hrunning id
    · exact iff_of_false hterminated WorkerPc.noConfusion
    · intro n hwait
      have hasked := h.asked n hwait
      rw [habsent] at hasked
      exact .inl (hasked.resolve_right id)
  | create_failed hr hresult =>
    refine ⟨hcreated, (by simp), ?_, h.signal.of_same rfl rfl rfl rfl, fun hs => hs.elim, h.ended,
      h.asked⟩
    intro result hfailed
    cases hfailed
    exact ⟨h.created (.inr hr), hresult⟩
  | wait_running hr hsig =>
    by_cases herror : s.error = 0
    · refine ⟨hcreated, ?_, ?_, h.signal.of_same rfl rfl rfl rfl, fun _ => hsig, h.ended, h.asked⟩
      · intro hwait
        simp [herror] at hwait
      · intro result hfailed
        simp [herror] at hfailed
    · refine ⟨hcreated, ?_, ?_, h.signal.of_same rfl rfl rfl rfl, fun _ => hsig, h.ended, h.asked⟩
      · intro hwait
        simp [herror] at hwait
      · intro result hfailed
        simp [herror] at hfailed
  | join hr hw | unlock hr =>
    exact ⟨hcreated, (by simp), (by simp), h.signal.of_same rfl rfl rfl rfl,
      fun _ => h.seen (by rw [hr]; trivial), h.ended, h.asked⟩
  | «return» hr | return_failed hr =>
    exact ⟨hcreated, (by simp), (by simp), h.signal.of_same rfl rfl rfl rfl, fun hs => hs.elim,
      h.ended, h.asked⟩

theorem phaseInv_terminate_step (hs : TerminateStep n s e t) (h : PhaseInv s) : PhaseInv t := by
  have hcreated : Created t :=
    @created_control_step _ bareConfig _ _ _ (.inr (.inl ⟨n, hs⟩)) h.created
  have hsame : t.run = s.run ∧ t.worker = s.worker := terminate_step_same hs
  have hsignals : t.sig_running = s.sig_running ∧ t.sig_terminated = s.sig_terminated ∧
      t.error = s.error := by
    cases hs <;> exact ⟨rfl, rfl, rfl⟩
  have hqueue : ∀ msg ∈ s.queue, msg ∈ t.queue := by
    intro msg hmsg
    cases hs with
    | push ht => exact List.mem_append_left _ hmsg
    | _ => exact hmsg
  obtain ⟨hrun, hworker⟩ := hsame
  obtain ⟨hrunning, hterminated, herror⟩ := hsignals
  refine ⟨hcreated, ?_, ?_, h.signal.of_same hworker hrunning hterminated herror, ?_, ?_, ?_⟩
  · rw [hrun, hworker]
    exact h.started
  · rw [hrun, hworker]
    exact h.failed
  · rw [hrun, hrunning]
    exact h.seen
  · intro m hseen
    rw [hterminated]
    by_cases hm : m = n
    · subst hm
      cases hs with
      | lock ht hl | push ht => simp [State.setTerminate, TerminatePc.Seen] at hseen
      | wait_terminated ht hsig => exact hsig
      | join ht hw => exact h.ended m (by rw [ht]; trivial)
      | read ht => exact h.ended m (by rw [ht]; trivial)
      | unlock ht => exact h.ended m (by rw [ht]; trivial)
    · rw [terminate_step_other hs hm] at hseen
      exact h.ended m hseen
  · intro m hwait
    rw [hworker]
    by_cases hm : m = n
    · subst hm
      cases hs with
      | push ht => exact .inl (List.mem_append_right _ List.mem_cons_self)
      | _ => simp [State.setTerminate] at hwait
    · rw [terminate_step_other hs hm] at hwait
      exact (h.asked m hwait).imp_left (hqueue _)

theorem phaseInv_step (hs : Step cfg s e t) (h : PhaseInv s) : PhaseInv t := by
  cases hs with
  | worker hs => exact phaseInv_worker_step hs h
  | call c hs =>
    obtain ⟨hrun, hterminate, _⟩ := call_step_control hs
    refine h.of_same hrun hterminate (call_step_worker hs) ?_ ?_ ?_ ?_
    · cases hs <;> rfl
    · cases hs <;> rfl
    · cases hs <;> rfl
    · intro msg hmsg
      cases hs with
      | push hc => exact List.mem_append_left _ hmsg
      | _ => exact hmsg
  | run hs => exact phaseInv_run_step hs h
  | terminate n hs => exact phaseInv_terminate_step hs h
  | user hs =>
    cases hs with
    | register => exact h.of_same rfl rfl rfl rfl rfl rfl fun _ hmsg => hmsg
    | send htag =>
      exact h.of_same rfl rfl rfl rfl rfl rfl fun _ hmsg => List.mem_append_left _ hmsg

theorem phaseInv_initial : PhaseInv (TecWorker_init cfg : State Cb) where
  created _ := rfl
  started := nofun
  failed := nofun
  signal := ⟨iff_of_false nofun id, iff_of_false nofun WorkerPc.noConfusion, fun hl => hl.elim⟩
  seen hs := hs.elim
  ended _ hs := hs.elim
  asked := nofun

end Tecc.Worker
