import Tecc.ServerShutdown
import Tecc.ServiceView
import Mathlib.Data.Prod.Lex

/-! What the threads of a server wait for: the worker thread in its hooks for the service thread and
the exit thread, and the exit thread for the service thread. -/
namespace Tecc.TcpServer

open Transition Worker Socket ServiceWorker

variable {Cb : Type} {setup : Setup} {cfg : Config} {s t : ServiceState Cb TecTCPServer}
  {e : ServiceEvent Cb ServerAct} {xs : List (ServiceEvent Cb ServerAct)} {n : Nat}

/-- Who has to be scheduled. -/
inductive Actor where
  | worker
  | run
  | terminate (n : Nat)
  | call (c : Nat)
  | service
  | exit

/-- The steps of the worker thread, in its hooks and outside of them. -/
def WorkerThreadStep (cfg : Config) (s : ServiceState Cb TecTCPServer)
    (e : ServiceEvent Cb ServerAct) (t : ServiceState Cb TecTCPServer) : Prop :=
  InitStep s e t ∨ ExitStep s e t ∨
    ∃ x a b, e = .life x ∧ LifeWorkerStep (hooked cfg a b) s.life x t.life

/-- The steps that an actor takes. Nobody connects to the server on purpose: a service thread in
`accept` is relied on only when the socket is closed. -/
def Actor.steps (setup : Setup) (cfg : Config) (i : Actor) (s : ServiceState Cb TecTCPServer)
    (e : ServiceEvent Cb ServerAct) (t : ServiceState Cb TecTCPServer) : Prop :=
  (serverLts Cb setup cfg).Step s e t ∧
    match i with
    | .worker => WorkerThreadStep cfg s e t
    | .run => ∃ x, e = .life x ∧ LifeRunStep s.life x t.life ∧ s.life.worker.run ≠ .idle
    | .terminate n =>
      ∃ x, e = .life x ∧ LifeTerminateStep n s.life x t.life ∧ s.life.worker.terminate n ≠ .idle
    | .call c =>
      ∃ y, e = .life (.event y) ∧ CallStep c s.life.worker y t.life.worker ∧
        (s.life.worker.calls c).pc ≠ .idle ∧ (s.life.worker.calls c).pc ≠ .asleep
    | .service =>
      ofStart e = true ∧ (s.service.start = .accepting → s.service.closed = true)
    | .exit => ShutdownStep (TecTCPServer_init setup) s e t

/-! What the threads have come to -/

/-- `on_exit` has joined its thread. -/
def HookPc.Joined : HookPc → Prop
  | .exit_wait_stopped | .exit_join_service | .exit_read | .exit_return _ => True
  | _ => False

structure Settled (s : ServiceState Cb TecTCPServer) : Prop where
  start : s.service.start = .returned → s.start = .exited
  shutdown : s.service.shutdown = .returned → s.shutdown = .exited
  stopped : s.hook = .exit_join_service → s.sig_stopped = true
  joined : HookPc.Joined s.hook ∨ s.life.worker.worker.Ended →
    s.shutdown = .absent ∨ s.shutdown = .exited
  run : s.life.done ≠ .idle →
    s.life.worker.run = .idle ∨ ∃ result, s.life.worker.run = .returned result
  terminate : s.life.done ≠ .idle → ∀ n, s.life.worker.terminate n = .idle ∨
    ∃ result, s.life.worker.terminate n = .returned result

theorem hookMove_joined {pc pc' : HookPc} {x : LifeEvent Cb} (hm : HookMove pc x pc')
    (h : HookPc.Joined pc' ∨ pc' = .exit_join_service) : pc' = pc := by
  cases hm with
  | other => rfl
  | on_init_called | on_init_returned | on_exit_called | on_exit_returned =>
    rcases h with h | h
    · exact h.elim
    · cases h

theorem hookMove_exit {pc pc' : HookPc} {r : Int}
    (hm : HookMove pc (.on_exit_returned r : LifeEvent Cb) pc') : pc = .exit_return r := by
  cases hm with
  | on_exit_returned => rfl
  | other he => cases he

/-- Nobody is in `TecDaemon_run` or `TecDaemon_terminate` during `TecDaemon_done`. -/
theorem settled_done {l l' : Life Cb} {x : LifeEvent Cb} (hs : LifeStep cfg l x l')
    (hrun : l.done ≠ .idle → l.worker.run = .idle ∨ ∃ result, l.worker.run = .returned result)
    (hterminate : l.done ≠ .idle → ∀ n, l.worker.terminate n = .idle ∨
      ∃ result, l.worker.terminate n = .returned result) (hdone : l'.done ≠ .idle) :
    (l'.worker.run = .idle ∨ ∃ result, l'.worker.run = .returned result) ∧
      ∀ n, l'.worker.terminate n = .idle ∨ ∃ result, l'.worker.terminate n = .returned result := by
  cases hs with
  | worker hs hd =>
    cases hs with
    | on_init | on_exit => exact ⟨hrun hdone, hterminate hdone⟩
    | step hs hin =>
      dsimp only
      rw [(worker_step_control hs).1, (worker_step_control hs).2.1]
      exact ⟨hrun hdone, hterminate hdone⟩
  | run hs hd =>
    cases hs with
    | step hs => exact absurd hd hdone
  | terminate n hs hd =>
    cases hs with
    | step hs => exact absurd hd hdone
  | call c hs hd => exact absurd hd hdone
  | user hs hd => exact absurd hd hdone
  | done hs =>
    cases hs with
    | call hd hrun' hterminate' => exact ⟨hrun', hterminate'⟩
    | join hd | skip hd | destroy hd =>
      exact ⟨hrun (by rw [hd]; nofun), hterminate (by rw [hd]; nofun)⟩

/-- The worker thread ends behind `on_exit`, or has never called it. -/
theorem ended_step {a b : Int} {x : LifeEvent Cb} {l : Life Cb} {pc : HookPc}
    (hs : LifeStep (hooked cfg a b) s.life x l) (hm : HookMove s.hook x pc)
    (hstage : s.Stage s.hook) (hended : l.worker.worker.Ended) :
    HookPc.Joined s.hook ∨ s.life.worker.worker.Ended ∨ s.shutdown = .absent := by
  rcases life_step_cases hs with hs | ⟨_, _, hsame⟩
  · cases hs with
    | on_init hw hout hhook | on_exit hw hout hhook => exact .inr (.inl hended)
    | @step y w hstep hin =>
      cases worker_step_move hstep with
      | set_terminated hw hw' =>
        refine .inr (.inl ?_)
        rw [hw]
        trivial
      | on_exit hw hw' =>
        by_cases hzero : s.life.worker.error = 0
        · -- the hook returns
          have hlabel : worker_label (hooked cfg a b) s.life.worker y = .on_exit_returned b := by
            simp [worker_label, State.hook, hw, hzero, hooked]
          rw [hlabel] at hm
          left
          rw [hookMove_exit hm]
          trivial
        · -- the hook is not called after an error
          have hnone : s.life.worker.hook (hooked cfg a b) = none := by
            rw [State.hook, if_neg hzero]
          rw [hnone] at hin
          rw [stage_out hstage hin] at hstage
          have houtside := hstage.2
          rw [hw] at houtside
          exact .inr (.inr (ServiceState.Outcome.shutdown houtside))
      | loop hw hw' => exact absurd hended (loop_inited hw').2
      | on_init hw hw' | set_running hw hw' | enter hw hw' | skip hw hw' | leave hw hw' =>
        rw [show w.worker = _ from hw'] at hended
        exact hended.elim
  · rcases hsame with hw | ⟨y, ⟨c, hc⟩ | hu⟩
    · rw [hw] at hended
      exact .inr (.inl hended)
    · rw [call_step_worker hc] at hended
      exact .inr (.inl hended)
    · rcases control_step_worker hu with hw | ⟨hrun, hw⟩
      · rw [hw] at hended
        exact .inr (.inl hended)
      · rw [hw] at hended
        exact hended.elim

theorem settled_init_step (hs : InitStep s e t) (hinv : ServerInv s) (hstage : s.Stage s.hook)
    (h : Settled s) : Settled t := by
  cases hs with
  | create hh =>
    rw [hh] at hstage
    have hstart := hinv.fresh (.inl hstage.2.start)
    exact ⟨fun hpc => by (cases hstart.symm.trans hpc), h.shutdown, nofun,
      fun hjoined => h.joined (hjoined.imp (fun hj => hj.elim) id), h.run, h.terminate⟩
  | test hh =>
    refine ⟨h.start, h.shutdown, ?_, fun hjoined => h.joined (hjoined.imp ?_ id), h.run,
      h.terminate⟩
    · dsimp only
      split <;> nofun
    · dsimp only
      split <;> exact fun hj => hj.elim
  | create_failed hh hresult | wait_started hh hsig | join hh hj | set_stopped hh | read hh =>
    exact ⟨h.start, h.shutdown, nofun, fun hjoined => h.joined (hjoined.imp (fun hj => hj.elim) id),
      h.run, h.terminate⟩

theorem settled_exit_step (hs : ExitStep s e t) (hA : Assumed s e) (hinv : ServerInv s)
    (hstage : s.Stage s.hook) (hdown : ShutdownInv xs s) (h : Settled s) : Settled t := by
  cases hs with
  | create hh =>
    rw [hh] at hstage
    obtain ⟨hin, habsent, _⟩ := hstage
    have hshutdown := hinv.before (.inl habsent)
    refine ⟨h.start, fun hpc => by (cases hshutdown.symm.trans hpc), fun hpc => by (cases hpc), ?_,
      h.run, h.terminate⟩
    rintro (hjoined | hended)
    · exact hjoined.elim
    · dsimp only at hended
      rw [hin.worker] at hended
      exact hended.elim
  | create_failed hh hresult => exact hA.elim
  | join hh hj =>
    obtain ⟨_, hok, hthread⟩ := hdown.joining hh
    rw [ServiceState.Joinable, TecThread_join_ok hok, hthread] at hj
    exact ⟨h.start, h.shutdown, fun hpc => by (cases hpc), fun _ => .inr hj, h.run, h.terminate⟩
  | wait_stopped hh hsig =>
    exact ⟨h.start, h.shutdown, fun _ => hsig, fun _ => h.joined (.inl (by rw [hh]; trivial)),
      h.run, h.terminate⟩
  | join_service hh hj | read hh =>
    exact ⟨h.start, h.shutdown, fun hpc => by (cases hpc),
      fun _ => h.joined (.inl (by rw [hh]; trivial)), h.run, h.terminate⟩

theorem settled_start_step (hs : StartStep (TecTCPServer_init setup) s e t) (hinv : ServerInv s)
    (h : Settled s) : Settled t := by
  cases hs with
  | call hs =>
    have hstart := hinv.fresh (.inr hs)
    exact ⟨fun hpc => by (cases hstart.symm.trans hpc), h.shutdown, h.stopped, h.joined, h.run,
      h.terminate⟩
  | @act a v hs ha =>
    change start_ setup s.service a v at ha
    have hlife : (s.afterStart a).life = s.life ∧ (s.afterStart a).hook = s.hook ∧
        (s.afterStart a).shutdown = s.shutdown ∧ (s.afterStart a).sig_stopped = s.sig_stopped := by
      cases a <;> exact ⟨rfl, rfl, rfl, rfl⟩
    obtain ⟨hlife, hhook, hshutdown, hstopped⟩ := hlife
    have hreturned : v.start = .returned → (s.afterStart a).start = .exited := by
      intro hpc
      cases ha with
      | «return» hp => rfl
      | «open» hp | bind hp | error hp | running hp | accepting hp =>
        dsimp only at hpc
        split at hpc <;> cases hpc
      | _ => cases hpc
    refine ⟨hreturned, ?_, ?_, ?_, ?_, ?_⟩
    · dsimp only
      rw [hshutdown, (start_step_server ha).1.1]
      exact h.shutdown
    · dsimp only
      rw [hhook, hstopped]
      exact h.stopped
    · dsimp only
      rw [hhook, hlife, hshutdown]
      exact h.joined
    · dsimp only
      rw [hlife]
      exact h.run
    · dsimp only
      rw [hlife]
      exact h.terminate

theorem settled_shutdown_step (hs : ShutdownStep (TecTCPServer_init setup) s e t)
    (hinv : ServerInv s) (h : Settled s) : Settled t := by
  cases hs with
  | call hs =>
    have hshutdown := hinv.before (.inr hs)
    refine ⟨h.start, fun hpc => by (cases hshutdown.symm.trans hpc), h.stopped, ?_, h.run,
      h.terminate⟩
    intro hjoined
    rcases h.joined hjoined with habsent | hexited
    · cases hs.symm.trans habsent
    · cases hs.symm.trans hexited
  | @act a v hs ha =>
    change shutdown_ setup s.service a v at ha
    have hlife : (s.afterShutdown a).life = s.life ∧ (s.afterShutdown a).hook = s.hook ∧
        (s.afterShutdown a).start = s.start ∧
        (s.sig_stopped = true → (s.afterShutdown a).sig_stopped = true) := by
      cases a with
      | sig_stopped => exact ⟨rfl, rfl, rfl, fun _ => rfl⟩
      | _ => exact ⟨rfl, rfl, rfl, id⟩
    obtain ⟨hlife, hhook, hstart, hstopped⟩ := hlife
    have hreturned : v.shutdown = .returned → (s.afterShutdown a).shutdown = .exited := by
      intro hpc
      cases ha with
      | «return» hp => rfl
      | _ => cases hpc
    refine ⟨?_, hreturned, ?_, ?_, ?_, ?_⟩
    · dsimp only
      rw [hstart, (shutdown_start ha).1]
      exact h.start
    · dsimp only
      rw [hhook]
      exact fun hpc => hstopped (h.stopped hpc)
    · dsimp only
      rw [hhook, hlife]
      intro hjoined
      rcases h.joined hjoined with habsent | hexited
      · cases hs.symm.trans habsent
      · cases hs.symm.trans hexited
    · dsimp only
      rw [hlife]
      exact h.run
    · dsimp only
      rw [hlife]
      exact h.terminate

theorem settled_step (hs : ServiceStep (TecTCPServer_init setup) cfg s e t) (hA : Assumed s e)
    (hinv : ServerInv s) (hstage : s.Stage s.hook) (hdown : ShutdownInv xs s)
    (h : Settled s) : Settled t := by
  cases hs with
  | life hs hm hready =>
    refine ⟨h.start, h.shutdown, ?_, ?_, ?_, ?_⟩
    · intro hpc
      exact h.stopped ((hookMove_joined hm (.inr hpc)).symm.trans hpc)
    · rintro (hjoined | hended)
      · refine h.joined (.inl ?_)
        rw [← hookMove_joined hm (.inl hjoined)]
        exact hjoined
      · rcases ended_step hs hm hstage hended with hjoined | hended | habsent
        · exact h.joined (.inl hjoined)
        · exact h.joined (.inr hended)
        · exact .inl habsent
    · exact fun hdone => (settled_done hs h.run h.terminate hdone).1
    · exact fun hdone => (settled_done hs h.run h.terminate hdone).2
  | init hs => exact settled_init_step hs hinv hstage h
  | exit hs => exact settled_exit_step hs hA hinv hstage hdown h
  | start hs => exact settled_start_step hs hinv h
  | shutdown hs => exact settled_shutdown_step hs hinv h
  | done hd hj hjoinable =>
    exact ⟨h.start, h.shutdown, h.stopped, h.joined, h.run, h.terminate⟩

theorem settled_history (h : (serverLts Cb setup cfg).History xs s) : Settled s := by
  refine h.induction (P := fun _ s => Settled s) ?_ ?_
  · intro s hi
    obtain ⟨_, _, _, _, hstart, hshutdown⟩ := hi.service
    refine ⟨?_, ?_, ?_, fun _ => .inl hi.shutdown, ?_, ?_⟩
    · exact fun hpc => by cases hstart.symm.trans hpc
    · exact fun hpc => by cases hshutdown.symm.trans hpc
    · exact fun hpc => by cases hi.hook.symm.trans hpc
    · exact fun hdone => absurd hi.life.done hdone
    · exact fun hdone => absurd hi.life.done hdone
  · rintro xs s e t hxs ih ⟨hA, hs⟩
    exact settled_step hs hA (serverInv_history hxs) (reachable_inv hxs.reachable).2
      (shutdownInv_history (stops_history hxs)) ih

/-! The worker thread in its hooks -/

/-- The worker thread is where it calls a hook. -/
def Calling (s : ServiceState Cb TecTCPServer) : Prop :=
  s.life.worker.error = 0 ∧
    (s.life.worker.worker = .on_init ∨ s.life.worker.worker = .on_exit)

theorem calling_iff {a b : Int} : (s.life.worker.hook (hooked cfg a b)).isSome ↔ Calling s := by
  unfold State.hook Calling
  by_cases hzero : s.life.worker.error = 0
  · cases hw : s.life.worker.worker <;> simp [hzero, hooked]
  · simp [hzero]

/-- What holds of a server in every reachable state. -/
structure Facts (s : ServiceState Cb TecTCPServer) : Prop where
  server : ServerInv s
  stage : s.Stage s.hook
  settled : Settled s
  created : Created s.life.worker
  calling : s.life.hook = true → Calling s
  late : DoneLate s.life
  error : s.error = s.reported.getD 0
  down : s.shutdown ≠ .absent → s.reported = some 0 ∧ s.sig_started = true
  joining : s.hook = .exit_join →
    s.shutdown ≠ .absent ∧ TecThread_ok s.exit_thread ∧ s.exit_thread.t = some .exit
  stopped : s.hook = .exit_wait_stopped → s.sig_stopped = true

theorem facts_reachable (h : (serverLts Cb setup cfg).Reachable s) : Facts s := by
  obtain ⟨xs, hxs⟩ := h
  obtain ⟨hinv, a, b, hl⟩ := serviceInv_history (contract_history hxs)
  have hdown := shutdownInv_history (stops_history hxs)
  refine ⟨serverInv_history hxs, hinv.stage, settled_history hxs, hl.phase.created, ?_, hinv.done,
    hinv.told.error, ?_, hdown.joining, ?_⟩
  · exact fun hin => calling_iff.mp (hl.hook hin)
  · exact fun hne => ⟨(hinv.told.exit hne).1, (hinv.told.exit hne).2.1⟩
  · intro hh
    rcases hdown.waiting hh with hexited | ⟨result, hfailed⟩
    · exact hdown.stopped hexited
    · obtain ⟨u, hu⟩ := hxs.restrict_mem hfailed
      exact hu.elim

theorem life_event_move {x : LifeEvent Cb}
    (hs : ServiceStep (TecTCPServer_init setup) cfg s (.life x) t) : HookMove s.hook x t.hook := by
  generalize he : (.life x : ServiceEvent Cb ServerAct) = e at hs
  have hjoin : ∀ thread, e ≠ join_event thread := by
    rintro thread rfl
    cases (congrArg ServiceEvent.lifeEvent he).trans (join_event_life thread)
  cases hs with
  | life hs hm hready =>
    cases he
    exact hm
  | init hs =>
    cases hs with
    | join hh hj => exact absurd rfl (hjoin _)
    | _ => cases he
  | exit hs =>
    cases hs with
    | join hh hj | join_service hh hj => exact absurd rfl (hjoin _)
    | _ => cases he
  | start hs => cases hs <;> cases he
  | shutdown hs => cases hs <;> cases he
  | done hd hj hjoinable => exact absurd rfl (hjoin _)

theorem hookMove_init_called {pc pc' : HookPc}
    (hm : HookMove pc (.on_init_called : LifeEvent Cb) pc') : pc = .out ∧ pc' = .init_create := by
  cases hm with
  | on_init_called => exact ⟨rfl, rfl⟩
  | other he => cases he

theorem hookMove_exit_called {pc pc' : HookPc}
    (hm : HookMove pc (.on_exit_called : LifeEvent Cb) pc') : pc = .out ∧ pc' = .exit_create := by
  cases hm with
  | on_exit_called => exact ⟨rfl, rfl⟩
  | other he => cases he

/-- The steps that the worker thread needs until its hook returns. -/
def HookPc.steps : HookPc → Nat
  | .out => 8
  | .init_create | .exit_create => 7
  | .init_wait_started | .exit_join => 6
  | .init_test | .exit_wait_stopped => 5
  | .init_join | .exit_join_service => 4
  | .init_set_stopped => 3
  | .init_read | .exit_read => 2
  | .init_return _ | .exit_return _ => 1

/-- The worker thread takes a step that the worker tells about. -/
def Shows (cfg : Config) (s : ServiceState Cb TecTCPServer) (e : ServiceEvent Cb ServerAct)
    (t : ServiceState Cb TecTCPServer) : Prop :=
  ∃ x a b, e = .life x ∧ LifeWorkerStep (hooked cfg a b) s.life x t.life ∧ x.base ≠ none

/-- Each step brings the worker thread closer to the end of its hook. -/
theorem calling_worker_step (hstep : ServiceStep (TecTCPServer_init setup) cfg s e t)
    (hs : WorkerThreadStep cfg s e t) (h : Calling s) :
    Shows cfg s e t ∨ Calling t ∧ HookPc.steps t.hook < HookPc.steps s.hook := by
  rcases hs with hs | hs | ⟨x, a, b, rfl, hs⟩
  · right
    cases hs with
    | test hh =>
      refine ⟨h, ?_⟩
      rw [hh]
      dsimp only
      split <;> simp [HookPc.steps]
    | create hh | create_failed hh _ | wait_started hh _ | join hh _ | set_stopped hh | read hh =>
      exact ⟨h, by rw [hh]; simp [HookPc.steps]⟩
  · right
    cases hs with
    | create hh | create_failed hh _ | join hh _ | wait_stopped hh _ | join_service hh _
    | read hh => exact ⟨h, by rw [hh]; simp [HookPc.steps]⟩
  · by_cases hbase : x.base = none
    · right
      have hm := life_event_move hstep
      generalize hl : t.life = l at hs
      cases hs with
      | on_init hw hout hhook =>
        obtain ⟨hpc, hpc'⟩ := hookMove_init_called hm
        refine ⟨?_, by rw [hpc, hpc']; simp [HookPc.steps]⟩
        rw [Calling, hl]
        exact h
      | on_exit hw hout hhook =>
        obtain ⟨hpc, hpc'⟩ := hookMove_exit_called hm
        refine ⟨?_, by rw [hpc, hpc']; simp [HookPc.steps]⟩
        rw [Calling, hl]
        exact h
      | step hs hin => cases hbase.symm.trans (worker_label_base hs)
    · exact .inl ⟨x, a, b, rfl, hs, hbase⟩

/-- The others do not hold up the worker thread. -/
theorem calling_other_step (hs : ServiceStep (TecTCPServer_init setup) cfg s e t)
    (hnot : ¬ WorkerThreadStep cfg s e t) (hcreated : Created s.life.worker) (h : Calling s) :
    Calling t ∧ t.hook = s.hook := by
  cases hs with
  | life hs hm hready =>
    rcases life_step_cases hs with hs | ⟨⟨hother, _, hne⟩, _, hsame⟩
    · exact absurd (.inr (.inr ⟨_, _, _, rfl, hs⟩)) hnot
    · refine ⟨?_, hookMove_other hm (quiet_isHook hother hne)⟩
      unfold Calling
      dsimp only
      rcases hsame with hw | ⟨y, ⟨c, hc⟩ | hu⟩
      · rw [hw]
        exact h
      · rw [call_step_error hc, call_step_worker hc]
        exact h
      · rcases control_step_worker hu with hw | ⟨hrun, _⟩
        · rw [control_step_error hu, hw]
          exact h
        · have habsent := hcreated (.inr hrun)
          obtain ⟨_, hw | hw⟩ := h <;> cases habsent.symm.trans hw
  | init hs => exact absurd (.inl hs) hnot
  | exit hs => exact absurd (.inr (.inl hs)) hnot
  | start hs =>
    cases hs with
    | call hs => exact ⟨h, rfl⟩
    | @act a v hs ha => cases a <;> exact ⟨h, rfl⟩
  | shutdown hs =>
    cases hs with
    | call hs => exact ⟨h, rfl⟩
    | @act a v hs ha => cases a <;> exact ⟨h, rfl⟩
  | done hd hj hjoinable => exact ⟨h, rfl⟩

/-- What the worker thread waits for in its hook has come. -/
def HookReady (s : ServiceState Cb TecTCPServer) : Prop :=
  match s.hook with
  | .init_wait_started => s.sig_started = true
  | .init_join | .exit_join_service => s.start = .exited
  | .exit_join => s.shutdown = .exited
  | _ => True

theorem joinable_service (huse : s.InUse) (hexited : s.start = .exited) :
    s.Joinable s.service_thread := by
  rw [ServiceState.Joinable, TecThread_join_ok huse.ok, huse.thread]
  exact hexited

/-- Nobody is in `TecDaemon_done` while there is a worker thread. -/
theorem done_idle (h : DoneLate s.life) (hpresent : s.life.worker.worker ≠ .absent)
    (hexited : s.life.worker.worker ≠ .exited) : s.life.done = .idle := by
  by_contra hdone
  exact (h hdone).elim hpresent hexited

theorem worker_thread_enabled (hf : Facts s) (h : Calling s) (hready : HookReady s) :
    ∃ e t, Actor.steps setup cfg .worker s e t := by
  obtain ⟨hzero, hcalls⟩ := h
  have hdone : s.life.done = .idle := by
    refine done_idle hf.late ?_ ?_ <;> rcases hcalls with hw | hw <;> rw [hw] <;> nofun
  have hstage := hf.stage
  unfold HookReady at hready
  suffices hlive : ∃ e t, ServiceStep (TecTCPServer_init setup) cfg s e t ∧ Assumed s e ∧
      WorkerThreadStep cfg s e t by
    obtain ⟨e, t, hs, hA, hworker⟩ := hlive
    exact ⟨e, t, ⟨hA, hs⟩, hworker⟩
  have hinit : ∀ e t, InitStep s e t → Assumed s e → ∃ e t,
      ServiceStep (TecTCPServer_init setup) cfg s e t ∧ Assumed s e ∧ WorkerThreadStep cfg s e t :=
    fun e t hs hA => ⟨e, t, .init hs, hA, .inl hs⟩
  have hexit : ∀ e t, ExitStep s e t → Assumed s e → ∃ e t,
      ServiceStep (TecTCPServer_init setup) cfg s e t ∧ Assumed s e ∧ WorkerThreadStep cfg s e t :=
    fun e t hs hA => ⟨e, t, .exit hs, hA, .inr (.inl hs)⟩
  have hjoin : ∀ thread, Assumed s (join_event thread : ServiceEvent Cb ServerAct) := by
    intro thread
    unfold join_event
    split <;> trivial
  have hlife : ∀ x l pc, (∃ a b, LifeWorkerStep (hooked cfg a b) s.life x l) →
      HookMove s.hook x pc → Assumed s (.life x) → s.Ready x → ∃ e t,
      ServiceStep (TecTCPServer_init setup) cfg s e t ∧ Assumed s e ∧ WorkerThreadStep cfg s e t :=
    fun x l pc ⟨a, b, hs⟩ hm hA hready => ⟨.life x, { s with life := l, hook := pc },
      .life (.worker hs (.inl hdone)) hm hready, hA, .inr (.inr ⟨x, a, b, rfl, hs⟩)⟩
  cases hh : s.hook with
  | out =>
    rw [hh] at hstage
    obtain ⟨hout, _⟩ := hstage
    rcases hcalls with hw | hw
    · exact hlife .on_init_called _ .init_create
        ⟨0, 0, .on_init hw hout (calling_iff.mpr ⟨hzero, .inl hw⟩)⟩
        (by rw [hh]; exact .on_init_called) trivial trivial
    · exact hlife .on_exit_called _ .exit_create
        ⟨0, 0, .on_exit hw hout (calling_iff.mpr ⟨hzero, .inr hw⟩)⟩
        (by rw [hh]; exact .on_exit_called) trivial trivial
  | init_create => exact hinit _ _ (.create hh) trivial
  | init_wait_started =>
    rw [hh] at hready
    exact hinit _ _ (.wait_started hh hready) trivial
  | init_test => exact hinit _ _ (.test hh) trivial
  | init_join =>
    rw [hh] at hready hstage
    exact hinit _ _ (.join hh (joinable_service hstage.2.2.1 hready)) (hjoin _)
  | init_set_stopped => exact hinit _ _ (.set_stopped hh) trivial
  | init_read => exact hinit _ _ (.read hh) trivial
  | init_return r =>
    rw [hh] at hstage
    obtain ⟨hin, _⟩ := hstage
    have hs : WorkerStep (hooked cfg r 0) s.life.worker .other _ := .on_init hin.worker
    have hlabel : worker_label (hooked cfg r 0) s.life.worker .other = .on_init_returned r := by
      simp [worker_label, State.hook, hin.worker, hzero, hooked]
    have hreturn := LifeWorkerStep.step hs
      (hin.hook.trans (calling_iff.mpr ⟨hzero, hcalls⟩).symm)
    rw [hlabel] at hreturn
    exact hlife _ _ .out ⟨r, 0, hreturn⟩ (by rw [hh]; exact .on_init_returned) trivial trivial
  | exit_create => exact hexit _ _ (.create hh) trivial
  | exit_join =>
    rw [hh] at hready
    obtain ⟨_, hok, hthread⟩ := hf.joining hh
    refine hexit _ _ (.join hh ?_) (hjoin _)
    rw [ServiceState.Joinable, TecThread_join_ok hok, hthread]
    exact hready
  | exit_wait_stopped => exact hexit _ _ (.wait_stopped hh (hf.stopped hh)) trivial
  | exit_join_service =>
    rw [hh] at hready hstage
    exact hexit _ _ (.join_service hh (joinable_service hstage.2.toInUse hready)) (hjoin _)
  | exit_read => exact hexit _ _ (.read hh) trivial
  | exit_return r =>
    rw [hh] at hstage
    obtain ⟨hin, _⟩ := hstage
    have hs : WorkerStep (hooked cfg 0 r) s.life.worker .other _ := .on_exit hin.worker
    have hlabel : worker_label (hooked cfg 0 r) s.life.worker .other = .on_exit_returned r := by
      simp [worker_label, State.hook, hin.worker, hzero, hooked]
    have hreturn := LifeWorkerStep.step hs
      (hin.hook.trans (calling_iff.mpr ⟨hzero, hcalls⟩).symm)
    rw [hlabel] at hreturn
    exact hlife _ _ .out ⟨0, r, hreturn⟩ (by rw [hh]; exact .on_exit_returned) trivial trivial

end Tecc.TcpServer
