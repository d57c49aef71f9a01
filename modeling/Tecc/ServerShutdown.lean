import Tecc.Lib.Progress
import Tecc.ServiceShutdown
import Tecc.TcpServer
import Tecc.WorkerTerminate

/-! The shutdown of a server that a service worker runs: the poll loop is left before `sig_stopped`
is set, and every signal that a thread waits for is set by the path that the other one is on. -/
namespace Tecc.TcpServer

open Transition Worker Socket ServiceWorker

variable {Cb : Type} {setup : Setup} {cfg : Config} {s t : ServiceState Cb TecTCPServer}
  {e : ServiceEvent Cb ServerAct} {xs : List (ServiceEvent Cb ServerAct)}
  {self next : TecTCPServer}

/-- All threads can be created, and the worker is terminated and destroyed in order. -/
def Assumed (s : ServiceState Cb TecTCPServer) : ServiceEvent Cb ServerAct → Prop
  | .life (.create_failed _) | .service_create_failed _ | .exit_create_failed _ => False
  | .life x => Orderly s.life x
  | _ => True

def serverLts (Cb : Type) (setup : Setup) (cfg : Config) :
    Lts (ServiceState Cb TecTCPServer) (ServiceEvent Cb ServerAct) :=
  (serviceLts Cb (TecTCPServer_init setup) cfg).restrict Assumed

/-! The positions of the two threads -/

/-- `start_` has set `sig_started`. -/
def StartPc.Signalled : StartPc → Prop
  | .running | .accept | .accepting | .dispatch _ | .dispatching | .set_stopped | .return
  | .returned => True
  | _ => False

/-- `poll_` has left its loop, or is not entered: `sig_polling_stopped` is set. -/
def StartPc.Over : StartPc → Prop
  | .started_failed | .return | .returned => True
  | _ => False

/-- `start_` has failed and is about to set `sig_polling_stopped`. -/
def StartPc.Failing : StartPc → Prop
  | .log_failed | .set_failed => True
  | _ => False

/-- What `start_` has written into `*error`. -/
def StartPc.Reports : StartPc → Option Int → Prop
  | .log_connecting, reported | .open, reported | .set_options, reported | .bind, reported
  | .listen, reported | .error _, reported => reported = none
  | .log_failed, reported | .set_failed, reported | .started_failed, reported =>
    ∃ err, err ≠ 0 ∧ reported = some err
  | .return, reported | .returned, reported => reported ≠ none
  | _, reported => reported = some 0

/-- `shutdown_` is behind `TecSocket_close`. -/
def ShutdownPc.Closed : ShutdownPc → Prop
  | .store_running | .close | .clear => False
  | _ => True

/-- `shutdown_` is behind its wait for `sig_polling_stopped`. -/
def ShutdownPc.Waited : ShutdownPc → Prop
  | .set_stopped | .log | .return | .returned => True
  | _ => False

/-- `shutdown_` has set `sig_stopped`. -/
def ShutdownPc.Told : ShutdownPc → Prop
  | .log | .return | .returned => True
  | _ => False

/-! The service thread tells what its position says -/

structure StartInv (s : ServiceState Cb TecTCPServer) : Prop where
  signalled : s.sig_started = true ↔ s.service.start.Signalled
  reported : s.service.start.Reports s.reported
  stopped : s.service.sig_polling_stopped = true ↔ s.service.start.Over

theorem StartInv.congr (h : StartInv s) (hsig : t.sig_started = s.sig_started)
    (hreported : t.reported = s.reported) (hstart : t.service.start = s.service.start)
    (hstopped : t.service.sig_polling_stopped = s.service.sig_polling_stopped) : StartInv t := by
  refine ⟨?_, ?_, ?_⟩
  · rw [hsig, hstart]
    exact h.signalled
  · rw [hreported, hstart]
    exact h.reported
  · rw [hstopped, hstart]
    exact h.stopped

/-- `shutdown_` leaves the service thread alone. -/
theorem shutdown_start {a : ShutdownAct ServerAct} (hs : shutdown_ setup self a next) :
    next.start = self.start ∧ next.sig_polling_stopped = self.sig_polling_stopped := by
  cases hs <;> exact ⟨rfl, rfl⟩

theorem startInv_start_step (hs : StartStep (TecTCPServer_init setup) s e t) (h : StartInv s) :
    StartInv t := by
  obtain ⟨hsignalled, hreported, hstopped⟩ := h
  cases hs with
  | call hs => exact ⟨hsignalled, hreported, hstopped⟩
  | @act a v hs ha =>
    change start_ setup s.service a v at ha
    cases ha with
    | log_connecting hp | set_options hp | log_failed hp | init_buffer hp | log_ok hp | accept hp
    | dispatch hp | dispatching hp =>
      rw [hp] at hsignalled hreported hstopped
      exact ⟨hsignalled, hreported, hstopped⟩
    | @«open» answer hp =>
      rw [hp] at hsignalled hreported hstopped
      by_cases herr : (TecSocket_open answer s.service.sock).2 = 0
      · rw [if_pos herr]
        exact ⟨hsignalled, hreported, hstopped⟩
      · rw [if_neg herr]
        exact ⟨hsignalled, hreported, hstopped⟩
    | @bind answer hp =>
      rw [hp] at hsignalled hreported hstopped
      by_cases herr : TecSocket_bind answer s.service.sock = 0
      · rw [if_pos herr]
        exact ⟨hsignalled, hreported, hstopped⟩
      · rw [if_neg herr]
        exact ⟨hsignalled, hreported, hstopped⟩
    | listen hp =>
      rw [hp] at hsignalled hreported hstopped
      exact ⟨hsignalled, hreported, hstopped⟩
    | @error err hp =>
      rw [hp] at hsignalled hstopped
      by_cases herr : err ≠ 0
      · rw [if_pos herr]
        exact ⟨hsignalled, ⟨err, herr, rfl⟩, hstopped⟩
      · rw [if_neg herr]
        exact ⟨hsignalled, congrArg some (not_not.mp herr), hstopped⟩
    | set_failed hp =>
      rw [hp] at hsignalled hreported
      exact ⟨hsignalled, hreported, iff_of_true rfl trivial⟩
    | started_failed hp =>
      rw [hp] at hreported hstopped
      obtain ⟨err, _, hreported⟩ := hreported
      refine ⟨iff_of_true rfl trivial, ?_, hstopped⟩
      exact fun hnone => Option.some_ne_none err (hreported.symm.trans hnone)
    | started hp =>
      rw [hp] at hreported hstopped
      exact ⟨iff_of_true rfl trivial, hreported, hstopped⟩
    | running hp =>
      rw [hp] at hsignalled hreported hstopped
      cases hrunning : s.service.running <;> exact ⟨hsignalled, hreported, hstopped⟩
    | @accepting fd hp hfd =>
      rw [hp] at hsignalled hreported hstopped
      by_cases hvalid : fd ≠ -1
      · rw [if_pos hvalid]
        exact ⟨hsignalled, hreported, hstopped⟩
      · rw [if_neg hvalid]
        exact ⟨hsignalled, hreported, hstopped⟩
    | set_stopped hp =>
      rw [hp] at hsignalled hreported
      refine ⟨hsignalled, ?_, iff_of_true rfl trivial⟩
      exact fun hnone => Option.some_ne_none 0 (hreported.symm.trans hnone)
    | «return» hp =>
      rw [hp] at hsignalled hreported hstopped
      exact ⟨hsignalled, hreported, hstopped⟩

theorem startInv_step (hs : ServiceStep (TecTCPServer_init setup) cfg s e t) (h : StartInv s) :
    StartInv t := by
  cases hs with
  | life hs hm hready => exact h.congr rfl rfl rfl rfl
  | init hs => cases hs <;> exact h.congr rfl rfl rfl rfl
  | exit hs => cases hs <;> exact h.congr rfl rfl rfl rfl
  | start hs => exact startInv_start_step hs h
  | shutdown hs =>
    cases hs with
    | call hs => exact h.congr rfl rfl rfl rfl
    | @act a v hs ha =>
      obtain ⟨hstart, hstopped⟩ := shutdown_start ha
      cases a <;> exact h.congr rfl rfl hstart hstopped
  | done hd hj hjoinable => exact h.congr rfl rfl rfl rfl

theorem startInv_history (h : (serverLts Cb setup cfg).History xs s) : StartInv s := by
  refine h.induction (P := fun _ s => StartInv s) ?_ ?_
  · intro s hi
    obtain ⟨_, _, _, hstopped, hstart, _⟩ := hi.service
    refine ⟨?_, ?_, ?_⟩
    · rw [hi.sig_started, hstart]
      exact iff_of_false (by simp) id
    · rw [hi.reported, hstart]
      rfl
    · rw [hstopped, hstart]
      exact iff_of_false (by simp) id
  · rintro _ s e t _ ih ⟨_, hs⟩
    exact startInv_step hs ih

/-! The server keeps the contract of `start` -/

/-- The event is one of the service thread. -/
def ofStart : ServiceEvent Cb ServerAct → Bool
  | .start_called | .start _ => true
  | _ => false

theorem join_event_ofStart (thread : TecThread) :
    ofStart (join_event thread : ServiceEvent Cb ServerAct) = false := by
  unfold join_event
  split <;> rfl

theorem start_step_of (hs : ServiceStep (TecTCPServer_init setup) cfg s e t)
    (he : ofStart e = true) : StartStep (TecTCPServer_init setup) s e t := by
  cases hs with
  | life hs hm hready => cases he
  | init hs =>
    cases hs with
    | join hh hj =>
      rw [join_event_ofStart] at he
      cases he
    | _ => cases he
  | exit hs =>
    cases hs with
    | join hh hj | join_service hh hj =>
      rw [join_event_ofStart] at he
      cases he
    | _ => cases he
  | start hs => exact hs
  | shutdown hs => cases hs <;> cases he
  | done hd hj hjoinable =>
    rw [join_event_ofStart] at he
    cases he

/-- `*error` is written before `sig_started` is set, and only then. -/
theorem start_contract {a : StartAct ServerAct} (ha : start_ setup s.service a next)
    (h : StartInv s) : Contract s (.start a) := by
  have hsignalled := h.signalled
  have hreported := h.reported
  generalize s.service = self at ha hsignalled hreported
  cases ha with
  | error hp =>
    rw [hp] at hsignalled
    exact Bool.eq_false_iff.mpr hsignalled.mp
  | started_failed hp =>
    rw [hp] at hreported
    obtain ⟨err, _, hreported⟩ := hreported
    exact fun hnone => Option.some_ne_none err (hreported.symm.trans hnone)
  | started hp =>
    rw [hp] at hreported
    exact fun hnone => Option.some_ne_none 0 (hreported.symm.trans hnone)
  | _ => trivial

theorem contract_of_assumed (hs : ServiceStep (TecTCPServer_init setup) cfg s e t)
    (hA : Assumed s e) (h : StartInv s) : Contract s e := by
  cases e with
  | start a =>
    have hstart := start_step_of hs rfl
    generalize he : (.start a : ServiceEvent Cb ServerAct) = x at hstart
    cases hstart with
    | call hs => cases he
    | act hs ha =>
      cases he
      exact start_contract ha h
  | life x => cases x <;> first | exact hA | exact hA.elim
  | _ => trivial

theorem contract_history (h : (serverLts Cb setup cfg).History xs s) :
    ((serviceLts Cb (TecTCPServer_init setup) cfg).restrict Contract).History xs s := by
  refine h.induction (P := fun xs s =>
    ((serviceLts Cb (TecTCPServer_init setup) cfg).restrict Contract).History xs s) ?_ ?_
  · exact fun s hi => .init hi
  · rintro xs s e t hxs ih ⟨hA, hs⟩
    exact ih.snoc_restrict hs (contract_of_assumed hs hA (startInv_history hxs))

/-! The two threads and the worker thread -/

structure ServerInv (s : ServiceState Cb TecTCPServer) : Prop where
  start : StartInv s
  fresh : s.start = .absent ∨ s.start = .created → s.service.start = .log_connecting
  ended : s.start = .exited → s.service.start = .returned
  before : s.shutdown = .absent ∨ s.shutdown = .created → s.service.shutdown = .store_running
  running : s.service.shutdown ≠ .store_running → s.service.running = false
  /-- A server that listens has a descriptor, until `shutdown_` has closed it. -/
  opened : s.reported = some 0 ∨ s.service.start = .error 0 →
    s.service.sock.fd ≠ -1 ∨ s.service.shutdown.Closed
  closing : s.service.shutdown = .clear ∨ s.service.shutdown.Closed → s.service.closed = true
  waited : s.service.shutdown.Waited → s.service.start.Over
  told : s.service.shutdown.Told → s.sig_stopped = true
  stopped : s.sig_stopped = true → s.service.start.Over

/-- What the service thread and the exit thread leave of the server when they do not act. -/
theorem ServerInv.congr (h : ServerInv s) (hservice : t.service = s.service)
    (hsig : t.sig_started = s.sig_started) (hreported : t.reported = s.reported)
    (hstopped : t.sig_stopped = s.sig_stopped)
    (hfresh : t.start = .absent ∨ t.start = .created → s.start = .absent ∨ s.start = .created)
    (hended : t.start = .exited → s.start = .exited)
    (hbefore : t.shutdown = .absent ∨ t.shutdown = .created →
      s.shutdown = .absent ∨ s.shutdown = .created) : ServerInv t where
  start := h.start.congr hsig hreported (by rw [hservice]) (by rw [hservice])
  fresh := by
    rw [hservice]
    exact fun hpc => h.fresh (hfresh hpc)
  ended := by
    rw [hservice]
    exact fun hpc => h.ended (hended hpc)
  before := by
    rw [hservice]
    exact fun hpc => h.before (hbefore hpc)
  running := by
    rw [hservice]
    exact h.running
  opened := by
    rw [hservice, hreported]
    exact h.opened
  closing := by
    rw [hservice]
    exact h.closing
  waited := by
    rw [hservice]
    exact h.waited
  told := by
    rw [hservice, hstopped]
    exact h.told
  stopped := by
    rw [hservice, hstopped]
    exact h.stopped

theorem serverInv_init_step (hs : InitStep s e t) (hstage : s.Stage s.hook)
    (htold : ServiceTold xs s) (h : ServerInv s) : ServerInv t := by
  cases hs with
  | create hh =>
    rw [hh] at hstage
    have habsent : s.start = .absent := hstage.2.start
    exact h.congr rfl rfl rfl rfl (fun _ => .inl habsent) (by simp) id
  | set_stopped hh =>
    rw [hh] at hstage
    obtain ⟨_, _, hfailed, herror⟩ := hstage
    have hexited : s.start = .exited := by
      refine hfailed.ended.resolve_left fun habsent => ?_
      have hnone := h.start.reported
      rw [h.fresh (.inl habsent)] at hnone
      have hzero := htold.error
      rw [show s.reported = none from hnone] at hzero
      exact herror hzero
    have hover : s.service.start.Over := by
      rw [h.ended hexited]
      trivial
    exact { h with
      start := h.start.congr rfl rfl rfl rfl
      told := fun _ => rfl
      stopped := fun _ => hover }
  | create_failed hh hresult | wait_started hh hsig | test hh | join hh hj | read hh =>
    exact h.congr rfl rfl rfl rfl id id id

theorem serverInv_exit_step (hs : ExitStep s e t) (hstage : s.Stage s.hook) (h : ServerInv s) :
    ServerInv t := by
  cases hs with
  | create hh =>
    rw [hh] at hstage
    exact h.congr rfl rfl rfl rfl id id (fun _ => .inl hstage.2.1)
  | create_failed hh hresult | join hh hj | wait_stopped hh hsig | join_service hh hj | read hh =>
    exact h.congr rfl rfl rfl rfl id id id

/-- `start_` leaves what `shutdown_` works on alone, and does not come back to its loop. -/
theorem start_step_server {a : StartAct ServerAct} (hs : start_ setup self a next) :
    (next.shutdown = self.shutdown ∧ next.running = self.running ∧ next.closed = self.closed) ∧
      (self.start.Over → next.start.Over) := by
  cases hs with
  | log_connecting hp | «open» hp | set_options hp | bind hp | listen hp | error hp | log_failed hp
  | init_buffer hp | log_ok hp | started hp | running hp | accept hp | accepting hp _
  | dispatch hp | dispatching hp =>
    refine ⟨⟨rfl, rfl, rfl⟩, ?_⟩
    rw [hp]
    exact fun hover => hover.elim
  | set_failed hp | started_failed hp | set_stopped hp | «return» hp =>
    exact ⟨⟨rfl, rfl, rfl⟩, fun _ => trivial⟩

/-- Only a socket that has been opened listens. -/
theorem listen_open {answer : BindAnswer} {sock : TecSocket}
    (h : TecSocket_listen answer sock = 0) : sock.fd ≠ -1 := by
  intro hfd
  rw [TecSocket_listen, if_neg (not_not.mpr hfd)] at h
  exact absurd h (by decide)

theorem start_step_opened {a : StartAct ServerAct} (ha : start_ setup s.service a next)
    (h : ServerInv s)
    (hopened : (s.afterStart a).reported = some 0 ∨ next.start = .error 0) :
    next.sock.fd ≠ -1 ∨ next.shutdown.Closed := by
  have hreported := h.start.reported
  have hold := h.opened
  generalize s.service = self at ha hreported hold
  cases ha with
  | @error err hp =>
    rw [hp] at hold
    dsimp only [ServiceState.afterStart] at hopened ⊢
    by_cases herr : err ≠ 0
    · rw [if_pos herr] at hopened
      rcases hopened with hzero | hpc
      · exact absurd (Option.some.inj hzero) herr
      · cases hpc
    · rw [not_not.mp herr] at hold
      exact hold (.inr rfl)
  | @listen answer hp =>
    rw [hp] at hreported
    dsimp only [ServiceState.afterStart] at hopened ⊢
    rcases hopened with hzero | hpc
    · cases (show s.reported = none from hreported).symm.trans hzero
    · exact .inl (listen_open (StartPc.error.inj hpc))
  | @«open» answer hp =>
    rw [hp] at hreported
    dsimp only [ServiceState.afterStart] at hopened ⊢
    rcases hopened with hzero | hpc
    · cases (show s.reported = none from hreported).symm.trans hzero
    · by_cases herr : (TecSocket_open answer self.sock).2 = 0
      · rw [if_pos herr] at hpc
        cases hpc
      · rw [if_neg herr] at hpc
        exact absurd (StartPc.error.inj hpc) herr
  | @bind answer hp =>
    rw [hp] at hreported
    dsimp only [ServiceState.afterStart] at hopened ⊢
    rcases hopened with hzero | hpc
    · cases (show s.reported = none from hreported).symm.trans hzero
    · by_cases herr : TecSocket_bind answer self.sock = 0
      · rw [if_pos herr] at hpc
        cases hpc
      · rw [if_neg herr] at hpc
        exact absurd (StartPc.error.inj hpc) herr
  | running hp =>
    dsimp only [ServiceState.afterStart] at hopened ⊢
    refine hold (hopened.imp id ?_)
    cases self.running <;> simp
  | @accepting fd hp hfd =>
    dsimp only [ServiceState.afterStart] at hopened ⊢
    refine hold (hopened.imp id ?_)
    split <;> simp
  | log_connecting hp | set_options hp | log_failed hp | set_failed hp | started_failed hp
  | init_buffer hp | log_ok hp | started hp | accept hp | dispatch hp | dispatching hp
  | set_stopped hp | «return» hp => exact hold (hopened.imp id (by simp))

theorem serverInv_start_step (hs : StartStep (TecTCPServer_init setup) s e t) (h : ServerInv s) :
    ServerInv t := by
  have hstart := startInv_start_step hs h.start
  cases hs with
  | call hs => exact h.congr rfl rfl rfl rfl (by simp) (by simp) id
  | @act a v hs ha =>
    change start_ setup s.service a v at ha
    obtain ⟨⟨hshutdown, hrunning, hclosed⟩, hover⟩ := start_step_server ha
    have hopened := start_step_opened ha h
    have hsame : (s.afterStart a).shutdown = s.shutdown ∧
        (s.afterStart a).sig_stopped = s.sig_stopped ∧
        (s.afterStart a).start ≠ .absent ∧ (s.afterStart a).start ≠ .created := by
      cases a <;> simp [ServiceState.afterStart, hs]
    obtain ⟨hdown, hstopped, hne, hne'⟩ := hsame
    exact
      { start := hstart
        fresh := fun hpc => (hpc.elim hne hne').elim
        ended := by
          intro hexited
          cases a with
          | «return» =>
            cases ha with
            | «return» hp => rfl
          | error value | sig_started | step x => cases hs.symm.trans hexited
        before := by
          dsimp only
          rw [hdown, hshutdown]
          exact h.before
        running := by
          dsimp only
          rw [hrunning, hshutdown]
          exact h.running
        opened := hopened
        closing := by
          dsimp only
          rw [hclosed, hshutdown]
          exact h.closing
        waited := by
          dsimp only
          rw [hshutdown]
          exact fun hwaited => hover (h.waited hwaited)
        told := by
          dsimp only
          rw [hshutdown, hstopped]
          exact h.told
        stopped := by
          dsimp only
          rw [hstopped]
          exact fun hset => hover (h.stopped hset) }

/-- What a step of `shutdown_` leaves the invariant with: the position, and what it stands for. -/
theorem ServerInv.shutdown_act (h : ServerInv s) {pc : ShutdownPc}
    {u : ServiceState Cb TecTCPServer}
    (hstart : u.service.start = s.service.start)
    (hpolling : u.service.sig_polling_stopped = s.service.sig_polling_stopped)
    (hthread : u.start = s.start) (hsig : u.sig_started = s.sig_started)
    (hreported : u.reported = s.reported) (hpresent : u.shutdown = .running ∨ u.shutdown = .exited)
    (hpc : u.service.shutdown = pc) (hrunning : pc ≠ .store_running → u.service.running = false)
    (hopened : pc.Closed ∨ ¬ s.service.shutdown.Closed ∧ u.service.sock = s.service.sock)
    (hclosing : pc = .clear ∨ pc.Closed → u.service.closed = true)
    (hwaited : pc.Waited → s.service.start.Over) (htold : pc.Told → u.sig_stopped = true)
    (hstopped : u.sig_stopped = true → s.service.start.Over) : ServerInv u where
  start := h.start.congr hsig hreported hstart hpolling
  fresh := by
    rw [hthread, hstart]
    exact h.fresh
  ended := by
    rw [hthread, hstart]
    exact h.ended
  before := by
    intro hbefore
    rcases hpresent with hpresent | hpresent <;> rcases hbefore with hbefore | hbefore <;>
      cases hpresent.symm.trans hbefore
  running := by
    rw [hpc]
    exact hrunning
  opened := by
    rw [hreported, hstart, hpc]
    intro hopen
    rcases hopened with hclosed | ⟨hnot, hsock⟩
    · exact .inr hclosed
    · rw [hsock]
      exact .inl ((h.opened hopen).resolve_right hnot)
  closing := by
    rw [hpc]
    exact hclosing
  waited := by
    rw [hpc, hstart]
    exact hwaited
  told := by
    rw [hpc]
    exact htold
  stopped := by
    rw [hstart]
    exact hstopped

theorem serverInv_shutdown_step (hs : ShutdownStep (TecTCPServer_init setup) s e t)
    (htold : ServiceTold xs s) (h : ServerInv s) : ServerInv t := by
  cases hs with
  | call hs => exact h.congr rfl rfl rfl rfl id id (by simp [hs])
  | @act a v hs ha =>
    change shutdown_ setup s.service a v at ha
    have hrunning := h.running
    have hclosing := h.closing
    have hwaited := h.waited
    have hsaid := h.told
    cases ha with
    | store_running hp =>
      exact h.shutdown_act rfl rfl rfl rfl rfl (.inl hs) rfl (fun _ => rfl)
        (.inr ⟨by rw [hp]; exact id, rfl⟩) (fun hpc => by rcases hpc with hpc | hpc <;> cases hpc)
        (fun hpc => hpc.elim) (fun hpc => hpc.elim) h.stopped
    | close hp hfd =>
      exact h.shutdown_act rfl rfl rfl rfl rfl (.inl hs) rfl
        (fun _ => hrunning (by rw [hp]; simp)) (.inr ⟨by rw [hp]; exact id, rfl⟩) (fun _ => rfl)
        (fun hpc => hpc.elim) (fun hpc => hpc.elim) h.stopped
    | not_open hp hfd =>
      -- a service that is shut down has reported success, so that its socket is open
      have hreported := (htold.exit (by rw [hs]; simp)).1
      have hopened := h.opened (.inl hreported)
      rw [hp] at hopened
      exact absurd hfd (hopened.resolve_right id)
    | clear hp =>
      exact h.shutdown_act rfl rfl rfl rfl rfl (.inl hs) rfl
        (fun _ => hrunning (by rw [hp]; simp)) (.inl trivial) (fun _ => hclosing (.inl hp))
        (fun hpc => hpc.elim) (fun hpc => hpc.elim) h.stopped
    | wait_polling hp hsig =>
      exact h.shutdown_act rfl rfl rfl rfl rfl (.inl hs) rfl
        (fun _ => hrunning (by rw [hp]; simp)) (.inl trivial)
        (fun _ => hclosing (.inr (by rw [hp]; trivial))) (fun _ => h.start.stopped.mp hsig)
        (fun hpc => hpc.elim) h.stopped
    | set_stopped hp =>
      rw [hp] at hwaited
      exact h.shutdown_act rfl rfl rfl rfl rfl (.inl hs) rfl
        (fun _ => hrunning (by rw [hp]; simp)) (.inl trivial)
        (fun _ => hclosing (.inr (by rw [hp]; trivial))) (fun _ => hwaited trivial)
        (fun _ => rfl) (fun _ => hwaited trivial)
    | log hp =>
      rw [hp] at hwaited hsaid
      exact h.shutdown_act rfl rfl rfl rfl rfl (.inl hs) rfl
        (fun _ => hrunning (by rw [hp]; simp)) (.inl trivial)
        (fun _ => hclosing (.inr (by rw [hp]; trivial))) (fun _ => hwaited trivial)
        (fun _ => hsaid trivial) h.stopped
    | «return» hp =>
      rw [hp] at hwaited hsaid
      exact h.shutdown_act rfl rfl rfl rfl rfl (.inr rfl) rfl
        (fun _ => hrunning (by rw [hp]; simp)) (.inl trivial)
        (fun _ => hclosing (.inr (by rw [hp]; trivial))) (fun _ => hwaited trivial)
        (fun _ => hsaid trivial) h.stopped

theorem serverInv_step (hs : ServiceStep (TecTCPServer_init setup) cfg s e t)
    (hinv : ServiceInv xs s) (h : ServerInv s) : ServerInv t := by
  cases hs with
  | life hs hm hready => exact h.congr rfl rfl rfl rfl id id id
  | init hs => exact serverInv_init_step hs hinv.stage hinv.told h
  | exit hs => exact serverInv_exit_step hs hinv.stage h
  | start hs => exact serverInv_start_step hs h
  | shutdown hs => exact serverInv_shutdown_step hs hinv.told h
  | done hd hj hjoinable => exact h.congr rfl rfl rfl rfl id id id

theorem serverInv_history (h : (serverLts Cb setup cfg).History xs s) : ServerInv s := by
  refine h.induction (P := fun _ s => ServerInv s) ?_ ?_
  · intro s hi
    obtain ⟨_, _, _, hstopped, hstart, hshutdown⟩ := hi.service
    exact
      { start := startInv_history (.init hi)
        fresh := fun _ => hstart
        ended := fun hexited => by cases hi.start.symm.trans hexited
        before := fun _ => hshutdown
        running := fun hne => absurd hshutdown hne
        opened := by
          rw [hi.reported, hstart]
          exact fun hopen => by rcases hopen with hopen | hopen <;> cases hopen
        closing := by
          rw [hshutdown]
          exact fun hpc => by rcases hpc with hpc | hpc <;> cases hpc
        waited := by
          rw [hshutdown]
          exact fun hpc => hpc.elim
        told := by
          rw [hshutdown]
          exact fun hpc => hpc.elim
        stopped := by
          rw [hi.sig_stopped]
          exact fun hset => by cases hset }
  · rintro xs s e t hxs ih ⟨_, hs⟩
    exact serverInv_step hs (serviceInv_history (contract_history hxs)).1 ih

theorem stops_history (h : (serverLts Cb setup cfg).History xs s) :
    ((serviceLts Cb (TecTCPServer_init setup) cfg).restrict Stops).History xs s := by
  refine h.induction (P := fun xs s =>
    ((serviceLts Cb (TecTCPServer_init setup) cfg).restrict Stops).History xs s) ?_ ?_
  · exact fun s hi => .init hi
  · rintro xs s e t hxs ih ⟨_, hs⟩
    refine ih.snoc_restrict hs ?_
    have htold := (serverInv_history hxs).told
    have hjoin : ∀ thread, Stops s (join_event thread : ServiceEvent Cb ServerAct) := by
      intro thread
      unfold join_event
      split <;> trivial
    cases hs with
    | life hs hm hready => trivial
    | init hs => cases hs <;> first | trivial | exact hjoin _
    | exit hs => cases hs <;> first | trivial | exact hjoin _
    | start hs => cases hs <;> trivial
    | shutdown hs =>
      cases hs with
      | call hs => trivial
      | @act a v hs ha =>
        change shutdown_ setup s.service a v at ha
        cases ha with
        | «return» hp =>
          rw [hp] at htold
          exact htold trivial
        | _ => trivial
    | done hd hj hjoinable => exact hjoin _

/-! What the service thread brings about -/

/-- The steps that `start_` and `poll_` have ahead of them when `running` is false. -/
def StartPc.rank : StartPc → Nat
  | .log_connecting => 19
  | .open => 18
  | .set_options => 17
  | .bind => 16
  | .listen => 15
  | .error _ => 14
  | .log_failed | .init_buffer => 13
  | .set_failed | .log_ok => 12
  | .started_failed | .started => 11
  | .accept => 7
  | .accepting => 6
  | .dispatch _ => 5
  | .dispatching => 4
  | .running => 3
  | .set_stopped => 2
  | .return => 1
  | .returned => 0

theorem start_step_rank {a : StartAct ServerAct} (hs : start_ setup self a next)
    (hrunning : self.start = .running → self.running = false) :
    next.start.rank < self.start.rank := by
  cases hs with
  | running hp =>
    rw [hrunning hp, hp]
    simp [StartPc.rank]
  | «open» hp | bind hp | error hp | accepting hp =>
    rw [hp]
    dsimp only
    split <;> simp [StartPc.rank]
  | log_connecting hp | set_options hp | listen hp | log_failed hp | set_failed hp
  | started_failed hp | init_buffer hp | log_ok hp | started hp | accept hp | dispatch hp
  | dispatching hp | set_stopped hp | «return» hp =>
    rw [hp]
    simp [StartPc.rank]

/-- A thread in `start_` can go on, unless it waits in `accept`. -/
theorem start_enabled (hpc : self.start ≠ .returned)
    (haccept : self.start = .accepting → ∃ fd, setup.accepts self.closed fd) :
    ∃ a next, start_ setup self a next := by
  cases hp : self.start with
  | log_connecting => exact ⟨_, _, .log_connecting hp⟩
  | «open» => exact ⟨_, _, @start_.open _ _ ⟨0, 0, 0, 0⟩ hp⟩
  | set_options => exact ⟨_, _, .set_options hp⟩
  | bind => exact ⟨_, _, @start_.bind _ _ ⟨0, 0⟩ hp⟩
  | listen => exact ⟨_, _, @start_.listen _ _ ⟨0, 0⟩ hp⟩
  | error err => exact ⟨_, _, .error hp⟩
  | log_failed => exact ⟨_, _, .log_failed hp⟩
  | set_failed => exact ⟨_, _, .set_failed hp⟩
  | started_failed => exact ⟨_, _, .started_failed hp⟩
  | init_buffer => exact ⟨_, _, .init_buffer hp⟩
  | log_ok => exact ⟨_, _, .log_ok hp⟩
  | started => exact ⟨_, _, .started hp⟩
  | running => exact ⟨_, _, .running hp⟩
  | accept => exact ⟨_, _, .accept hp⟩
  | accepting =>
    obtain ⟨fd, hfd⟩ := haccept hp
    exact ⟨_, _, .accepting hp hfd⟩
  | dispatch fd => exact ⟨_, _, .dispatch hp⟩
  | dispatching => exact ⟨_, _, .dispatching hp⟩
  | set_stopped => exact ⟨_, _, .set_stopped hp⟩
  | «return» => exact ⟨_, _, .return hp⟩
  | returned => exact absurd hp hpc

/-- The rank of the service thread. -/
def thread_rank (s : ServiceState Cb TecTCPServer) : Nat :=
  s.service.start.rank + if s.start = .created then 1 else 0

/-- What the service thread is about to bring about: the goal, the condition that keeps it on its
way, and that it is not blocked there. -/
structure Way (setup : Setup) (cfg : Config) (G P : ServiceState Cb TecTCPServer → Prop) :
    Prop where
  stable : ∀ s e t, G s → ServiceStep (TecTCPServer_init setup) cfg s e t → G t
  kept : ∀ s e t, ServerInv s → P s → ¬ G s → ServiceStep (TecTCPServer_init setup) cfg s e t →
    G t ∨ P t
  ended : ∀ s, ServerInv s → s.service.start = .returned → P s → G s
  running : ∀ s, ServerInv s → P s → ¬ G s → s.service.start = .running →
    s.service.running = false
  accepting : ∀ s, ServerInv s → P s → ¬ G s → s.service.start = .accepting →
    ∃ fd, setup.accepts s.service.closed fd

/-- A step of another thread leaves the service thread where it is. -/
theorem other_step_start (hs : ServiceStep (TecTCPServer_init setup) cfg s e t)
    (he : ofStart e = false) (hstage : s.Stage s.hook) (hpresent : s.start ≠ .absent) :
    t.start = s.start ∧ t.service.start = s.service.start := by
  cases hs with
  | life hs hm hready => exact ⟨rfl, rfl⟩
  | init hs =>
    cases hs with
    | create hh =>
      rw [hh] at hstage
      exact absurd hstage.2.start hpresent
    | _ => exact ⟨rfl, rfl⟩
  | exit hs => cases hs <;> exact ⟨rfl, rfl⟩
  | start hs => cases hs <;> cases he
  | shutdown hs =>
    cases hs with
    | call hs => exact ⟨rfl, rfl⟩
    | @act a v hs ha =>
      obtain ⟨hstart, _⟩ := shutdown_start ha
      cases a <;> exact ⟨rfl, hstart⟩
  | done hd hj hjoinable => exact ⟨rfl, rfl⟩

theorem reachable_inv (h : (serverLts Cb setup cfg).Reachable s) :
    ServerInv s ∧ s.Stage s.hook := by
  obtain ⟨xs, hxs⟩ := h
  exact ⟨serverInv_history hxs, (serviceInv_history (contract_history hxs)).1.stage⟩

theorem reachable_step (h : (serverLts Cb setup cfg).Reachable s)
    (hs : (serverLts Cb setup cfg).Step s e t) : (serverLts Cb setup cfg).Reachable t := by
  obtain ⟨xs, hxs⟩ := h
  exact (hxs.snoc hs).reachable

variable {G P : ServiceState Cb TecTCPServer → Prop}

/-- A service thread that is on its way has a rank. -/
theorem Way.ranking (h : Way setup cfg G P) :
    (serverLts Cb setup cfg).Ranking ofStart G
      (fun s => (serverLts Cb setup cfg).Reachable s ∧ s.start ≠ .absent ∧ P s) thread_rank where
  stable s e t hG hs := h.stable s e t hG hs.2
  enabled := by
    rintro s ⟨hreach, hpresent, hP⟩ hG
    obtain ⟨hinv, _⟩ := reachable_inv hreach
    have hnot : s.service.start ≠ .returned := fun hpc => hG (h.ended s hinv hpc hP)
    cases hthread : s.start with
    | absent => exact absurd hthread hpresent
    | created => exact ⟨.start_called, _, rfl, trivial, .start (.call hthread)⟩
    | running =>
      obtain ⟨a, v, ha⟩ := start_enabled hnot (h.accepting s hinv hP hG)
      exact ⟨.start a, _, rfl, trivial, .start (.act hthread ha)⟩
    | exited => exact absurd (hinv.ended hthread) hnot
  actor := by
    rintro s e t ⟨hreach, hpresent, hP⟩ hG ⟨hA, hs⟩ he
    obtain ⟨hinv, _⟩ := reachable_inv hreach
    have hreach' := reachable_step hreach ⟨hA, hs⟩
    refine (h.kept s e t hinv hP hG hs).imp id fun hP' => ?_
    cases start_step_of hs he with
    | call hthread => exact ⟨⟨hreach', by simp, hP'⟩, by simp [thread_rank, hthread]⟩
    | @act a v hthread ha =>
      have hlt := start_step_rank ha (h.running s hinv hP hG)
      have hthread' : (s.afterStart a).start ≠ .absent ∧ (s.afterStart a).start ≠ .created := by
        cases a <;> simp [ServiceState.afterStart, hthread]
      refine ⟨⟨hreach', hthread'.1, hP'⟩, ?_⟩
      simpa [thread_rank, hthread, hthread'.2] using hlt
  other := by
    rintro s e t ⟨hreach, hpresent, hP⟩ hG ⟨hA, hs⟩ he
    obtain ⟨hinv, hstage⟩ := reachable_inv hreach
    have hreach' := reachable_step hreach ⟨hA, hs⟩
    obtain ⟨hthread, hstart⟩ := other_step_start hs he hstage hpresent
    refine (h.kept s e t hinv hP hG hs).imp id fun hP' => ?_
    refine ⟨⟨hreach', by rw [hthread]; exact hpresent, hP'⟩, ?_⟩
    rw [thread_rank, hthread, hstart, thread_rank]

theorem rank_lt (s : ServiceState Cb TecTCPServer) : thread_rank s < 21 := by
  have hle : s.service.start.rank ≤ 19 := by
    cases s.service.start <;> simp [StartPc.rank]
  unfold thread_rank
  split <;> omega

theorem Way.ensures (h : Way setup cfg G P) (hreach : (serverLts Cb setup cfg).Reachable s)
    (hpresent : s.start ≠ .absent) (hP : P s) :
    (serverLts Cb setup cfg).Ensures ofStart G 21 s :=
  h.ranking.ensures ⟨hreach, hpresent, hP⟩ (rank_lt s)

theorem service_step_cases (hs : ServiceStep (TecTCPServer_init setup) cfg s e t) :
    (t.service = s.service ∧ t.sig_started = s.sig_started) ∨
      (∃ a, start_ setup s.service a t.service ∧ (s.sig_started = true → t.sig_started = true)) ∨
      ∃ a, shutdown_ setup s.service a t.service ∧ t.sig_started = s.sig_started := by
  cases hs with
  | life hs hm hready => exact .inl ⟨rfl, rfl⟩
  | init hs => cases hs <;> exact .inl ⟨rfl, rfl⟩
  | exit hs => cases hs <;> exact .inl ⟨rfl, rfl⟩
  | start hs =>
    cases hs with
    | call hs => exact .inl ⟨rfl, rfl⟩
    | @act a v hs ha =>
      refine .inr (.inl ⟨a, ha, ?_⟩)
      cases a <;> first | exact id | exact fun _ => rfl
  | shutdown hs =>
    cases hs with
    | call hs => exact .inl ⟨rfl, rfl⟩
    | @act a v hs ha =>
      refine .inr (.inr ⟨a, ha, ?_⟩)
      cases a <;> rfl
  | done hd hj hjoinable => exact .inl ⟨rfl, rfl⟩

/-- `sig_started` is set on every path of `start_`. -/
theorem started_way (setup : Setup) (cfg : Config) :
    Way setup cfg (fun s : ServiceState Cb TecTCPServer => s.sig_started = true)
      (fun _ => True) where
  stable s e t hset hs := by
    rcases service_step_cases hs with ⟨_, hsame⟩ | ⟨_, _, hkept⟩ | ⟨_, _, hsame⟩
    · exact hsame.trans hset
    · exact hkept hset
    · exact hsame.trans hset
  kept _ _ _ _ _ _ _ := .inr trivial
  ended s hinv hpc _ := hinv.start.signalled.mpr (by rw [hpc]; trivial)
  running s hinv _ hunset hpc := absurd (hinv.start.signalled.mpr (by rw [hpc]; trivial)) hunset
  accepting s hinv _ hunset hpc := absurd (hinv.start.signalled.mpr (by rw [hpc]; trivial)) hunset

/-- `shutdown_` is behind `TecSocket_close`, or `start_` has failed. -/
def Quits (self : TecTCPServer) : Prop := self.shutdown.Closed ∨ self.start.Failing

theorem quits_start_step {a : StartAct ServerAct} (hs : start_ setup self a next)
    (h : Quits self) : next.sig_polling_stopped = true ∨ Quits next := by
  obtain ⟨⟨hshutdown, _⟩, _⟩ := start_step_server hs
  rcases h with hclosed | hfailing
  · right
    left
    rw [hshutdown]
    exact hclosed
  · cases hs with
    | log_failed hp => exact .inr (.inr trivial)
    | set_failed hp => exact .inl rfl
    | log_connecting hp | «open» hp | set_options hp | bind hp | listen hp | error hp
    | started_failed hp | init_buffer hp | log_ok hp | started hp | running hp | accept hp
    | accepting hp _ | dispatch hp | dispatching hp | set_stopped hp | «return» hp =>
      rw [hp] at hfailing
      exact hfailing.elim

theorem quits_shutdown_step {a : ShutdownAct ServerAct} (hs : shutdown_ setup self a next)
    (h : Quits self) : Quits next := by
  rcases h with hclosed | hfailing
  · left
    cases hs with
    | store_running hp | close hp _ | not_open hp _ | clear hp =>
      rw [hp] at hclosed
      exact hclosed.elim
    | wait_polling hp hsig | set_stopped hp | log hp | «return» hp => trivial
  · right
    rw [(shutdown_start hs).1]
    exact hfailing

theorem start_polling_stopped {a : StartAct ServerAct} (hs : start_ setup self a next)
    (h : self.sig_polling_stopped = true) : next.sig_polling_stopped = true := by
  cases hs <;> first | exact h | rfl

/-- `sig_polling_stopped` is set when `start_` has failed, and when the listening socket has been
closed. -/
theorem polling_way (hclosed : ∃ fd, setup.accepts true fd) :
    Way setup cfg (fun s : ServiceState Cb TecTCPServer => s.service.sig_polling_stopped = true)
      (fun s => Quits s.service) where
  stable s e t hset hs := by
    rcases service_step_cases hs with ⟨hsame, _⟩ | ⟨_, hs, _⟩ | ⟨_, hs, _⟩
    · rw [hsame]
      exact hset
    · exact start_polling_stopped hs hset
    · exact (shutdown_start hs).2.trans hset
  kept s e t _ hquits _ hs := by
    rcases service_step_cases hs with ⟨hsame, _⟩ | ⟨_, hs, _⟩ | ⟨_, hs, _⟩
    · rw [hsame]
      exact .inr hquits
    · exact quits_start_step hs hquits
    · exact .inr (quits_shutdown_step hs hquits)
  ended s hinv hpc _ := hinv.start.stopped.mpr (by rw [hpc]; trivial)
  running s hinv hquits _ hpc := by
    rcases hquits with hclosed | hfailing
    · refine hinv.running fun hstore => ?_
      rw [hstore] at hclosed
      exact hclosed
    · rw [hpc] at hfailing
      exact hfailing.elim
  accepting s hinv hquits _ hpc := by
    rcases hquits with hdown | hfailing
    · rw [hinv.closing (.inr hdown)]
      exact hclosed
    · rw [hpc] at hfailing
      exact hfailing.elim

/-! The shutdown -/

/-- When the worker thread has ended there is no service thread, and none is created. -/
theorem silent_step (h : (serverLts Cb setup cfg).Reachable s)
    (hexited : s.life.worker.worker = .exited) (hs : (serverLts Cb setup cfg).Step s e t) :
    ofStart e = false := by
  obtain ⟨_, hstage⟩ := reachable_inv h
  have hout : s.hook = .out := by
    cases hh : s.hook with
    | out => rfl
    | _ =>
      rw [hh] at hstage
      cases hstage.1.worker.symm.trans hexited
  rw [hout] at hstage
  have hgone := hstage.2
  rw [hexited] at hgone
  have hended : s.start = .absent ∨ s.start = .exited := ServiceState.Gone.ended hgone
  by_contra he
  cases start_step_of hs.2 (Bool.not_eq_false _ ▸ he) with
  | call hthread => rcases hended with hpc | hpc <;> cases hthread.symm.trans hpc
  | act hthread ha => rcases hended with hpc | hpc <;> cases hthread.symm.trans hpc

/-- `TecDaemon_terminate` returns behind the end of the worker thread. -/
theorem exited_of_terminated (h : (serverLts Cb setup cfg).History xs s) {n : Nat} {result : Int}
    (hm : .life (.terminate_returned n result) ∈ xs) : s.life.worker.worker = .exited := by
  obtain ⟨_, a, b, hl⟩ := serviceInv_history (contract_history h)
  have hreturned := hl.control.terminate n result (mem_lifes.mpr hm)
  exact hl.phase.signal.terminated.mp (hl.phase.ended n (by rw [hreturned]; trivial))

/-- `TecDaemon_terminate` waits for a worker thread that exists and finds its NULL. -/
theorem terminate_awaited_server (h : (serverLts Cb setup cfg).History xs s) {n : Nat}
    (hwait : s.life.worker.terminate n = .wait_terminated) : s.life.worker.Awaited := by
  obtain ⟨_, a, b, hl⟩ := serviceInv_history (contract_history h)
  refine awaited_of_present hl.phase hwait fun habsent => ?_
  have hrun : ∃ result, s.life.worker.run = .returned result := by
    by_contra hnone
    have hidle := hl.outcome.early (fun result hr => hnone ⟨result, hr⟩) n
    cases hwait.symm.trans hidle
  obtain ⟨result, hr⟩ := hrun
  obtain ⟨u, hu⟩ := h.restrict_mem (mem_lifes.mp (hl.control.outcome result hr habsent))
  exact hu

/-- The shutdown of a server is final, and nobody waits in it for a signal that is not set. -/
structure ShutdownFinal (setup : Setup) (cfg : Config) (xs : List (ServiceEvent Cb ServerAct))
    (s : ServiceState Cb TecTCPServer) : Prop where
  /-- `sig_stopped` is set only when `poll_` has left its loop or is not entered. -/
  stopped : s.sig_stopped = true → s.service.start.Over
  /-- When `TecDaemon_terminate` has returned the service thread does nothing more. -/
  silent : ∀ ys n result zs, xs = ys ++ .life (.terminate_returned n result) :: zs →
    ∀ e ∈ zs, ofStart e = false
  /-- Each path of `start_` sets `sig_started`. -/
  started : s.start ≠ .absent →
    (serverLts Cb setup cfg).Ensures ofStart (fun t => t.sig_started = true) 21 s
  /-- The path of an error sets `sig_polling_stopped`. -/
  failed : (∃ err, err ≠ 0 ∧ s.reported = some err) →
    (serverLts Cb setup cfg).Ensures ofStart (fun t => t.service.sig_polling_stopped = true) 21 s
  /-- So does the path of success, when `shutdown_` waits for it. -/
  polling : s.service.shutdown = .wait_polling →
    (serverLts Cb setup cfg).Ensures ofStart (fun t => t.service.sig_polling_stopped = true) 21 s
  /-- `on_exit` finds `sig_stopped` set. -/
  exiting : s.hook = .exit_wait_stopped → s.sig_stopped = true
  /-- `TecDaemon_terminate` waits for a worker thread that comes to set `sig_terminated`. -/
  terminating : ∀ n, s.life.worker.terminate n = .wait_terminated → s.life.worker.Awaited

/-- A service thread that has told something has been created. -/
theorem present_of_entered (hinv : ServerInv s) (h : s.service.start ≠ .log_connecting) :
    s.start ≠ .absent := fun habsent => h (hinv.fresh (.inl habsent))

/-- A service thread that has failed sets `sig_polling_stopped`, if it has not done so. -/
theorem ensures_failed (hclosed : ∃ fd, setup.accepts true fd)
    (hreach : (serverLts Cb setup cfg).Reachable s)
    (hfailed : ∃ err, err ≠ 0 ∧ s.reported = some err) :
    (serverLts Cb setup cfg).Ensures ofStart (fun t => t.service.sig_polling_stopped = true) 21
      s := by
  obtain ⟨err, hne, herr⟩ := hfailed
  obtain ⟨hinv, _⟩ := reachable_inv hreach
  have hway : Way setup cfg (fun t : ServiceState Cb TecTCPServer =>
      t.service.sig_polling_stopped = true) _ := polling_way hclosed
  have hreported := hinv.start.reported
  have hquits : s.service.start.Over ∨ s.service.start.Failing := by
    rw [herr] at hreported
    revert hreported
    cases s.service.start with
    | log_failed | set_failed => exact fun _ => .inr trivial
    | started_failed | «return» | returned => exact fun _ => .inl trivial
    | log_connecting | «open» | set_options | bind | listen | error _ =>
      exact fun hnone => (Option.some_ne_none err hnone).elim
    | init_buffer | log_ok | started | running | accept | accepting | dispatch _ | dispatching
    | set_stopped => exact fun hzero => (hne (Option.some.inj hzero)).elim
  rcases hquits with hover | hfailing
  · have hstable : ∀ u e v, u.service.sig_polling_stopped = true →
        (serverLts Cb setup cfg).Step u e v → v.service.sig_polling_stopped = true :=
      fun u e v hset hs => hway.stable u e v hset hs.2
    exact .of_goal hstable (hinv.start.stopped.mpr hover) 21
  · refine hway.ensures hreach (present_of_entered hinv fun hpc => ?_) (.inr hfailing)
    rw [hpc] at hfailing
    exact hfailing

/-- A service thread that has been created sets `sig_polling_stopped` when `shutdown_` waits. -/
theorem ensures_polling (hclosed : ∃ fd, setup.accepts true fd)
    (h : (serverLts Cb setup cfg).History xs s) (hwait : s.service.shutdown = .wait_polling) :
    (serverLts Cb setup cfg).Ensures ofStart (fun t => t.service.sig_polling_stopped = true) 21
      s := by
  have hinv := serverInv_history h
  have htold := (serviceInv_history (contract_history h)).1.told
  have hshutdown : s.shutdown ≠ .absent := by
    intro habsent
    cases (hinv.before (.inl habsent)).symm.trans hwait
  have hsignalled := hinv.start.signalled.mp (htold.exit hshutdown).2.1
  refine (polling_way hclosed).ensures h.reachable (present_of_entered hinv fun hpc => ?_) (.inl ?_)
  · rw [hpc] at hsignalled
    exact hsignalled
  · rw [hwait]
    trivial

/-- The shutdown of a server is final, whatever the system calls answer, when `accept` returns on
a descriptor that is closed. -/
theorem server_shutdown_final (setup : Setup) (cfg : Config)
    (hclosed : ∃ fd, setup.accepts true fd) (xs : List (ServiceEvent Cb ServerAct))
    (s : ServiceState Cb TecTCPServer) (h : (serverLts Cb setup cfg).History xs s) :
    ShutdownFinal setup cfg xs s := by
  have hreach : (serverLts Cb setup cfg).Reachable s := h.reachable
  refine ⟨(serverInv_history h).stopped, ?_, ?_, ensures_failed hclosed hreach,
    ensures_polling hclosed h, ?_, fun n => terminate_awaited_server h⟩
  · rintro ys n result zs rfl e he
    obtain ⟨zs₁, zs₂, rfl⟩ := List.append_of_mem he
    rw [← List.cons_append, ← List.append_assoc] at h
    obtain ⟨u, v, hu, hstep, _⟩ := h.step_at
    exact silent_step hu.reachable
      (exited_of_terminated hu (List.mem_append_right _ List.mem_cons_self)) hstep
  · exact fun hpresent => (started_way setup cfg).ensures hreach hpresent trivial
  · intro hh
    have hshutdown := shutdownInv_history (stops_history h)
    rcases hshutdown.waiting hh with hexited | ⟨result, hfailed⟩
    · exact hshutdown.stopped hexited
    · obtain ⟨u, hu⟩ := h.restrict_mem hfailed
      exact hu.elim

/-! A server to which nobody connects -/

/-- A server that logs, and to which nobody connects. -/
def idle_setup : Setup :=
  ⟨⟨SOCK_STREAM, 1024⟩, true, false, fun closed fd => closed = true ∧ fd = -1⟩

def idle_socket : TecSocket := ⟨-1, none, ⟨none, 0, 0, 0, 1024⟩, ⟨SOCK_STREAM, 1024⟩⟩

def idle_server : ServiceState Nat TecTCPServer :=
  ⟨⟨TecWorker_init bareConfig, ⟨0, none⟩, false, .idle⟩, 0, false, false,
    TecThread_init ⟨0, none⟩, ⟨0, none⟩, .out, .absent, .absent,
    ⟨idle_socket, false, true, false, .log_connecting, .store_running⟩, none, false⟩

/-- The server is in `accept`, and `TecDaemon_terminate` is called. -/
def accepting_server (calls : Nat → Call) : ServiceState Nat TecTCPServer where
  life :=
    { worker :=
        { TecWorker_init bareConfig with
          sig_running := true
          lock := true
          worker := .pop
          run := .returned 0
          terminate := Function.update (fun _ => .idle) 0 .push
          calls := calls }
      worker_thread := ⟨0, some .worker⟩
      hook := false
      done := .idle }
  error := 0
  sig_started := true
  sig_stopped := false
  service_thread := ⟨0, some .service⟩
  exit_thread := ⟨0, none⟩
  hook := .out
  start := .running
  shutdown := .absent
  service :=
    { sock := (TecSocket_open ⟨0, 1, 3, 0⟩ idle_socket).1
      closed := false
      running := true
      sig_polling_stopped := false
      start := .accepting
      shutdown := .store_running }
  reported := some 0
  joined := false

/-- Nothing is left of its threads. -/
def terminated_server (calls : Nat → Call) : ServiceState Nat TecTCPServer :=
  let server := accepting_server calls
  let terminate := Function.update server.life.worker.terminate 0 .wait_terminated
  let terminate := Function.update terminate 0 .join
  let terminate := Function.update terminate 0 .read
  let terminate := Function.update terminate 0 (.unlock 0)
  { server with
    life :=
      { worker :=
          { server.life.worker with
            sig_terminated := true
            lock := false
            worker := .exited
            terminate := Function.update terminate 0 (.returned 0) }
        worker_thread := ⟨TecThread_none, some .worker⟩
        hook := false
        done := .idle }
    sig_stopped := true
    service_thread := ⟨TecThread_none, some .service⟩
    exit_thread := ⟨TecThread_none, some .exit⟩
    start := .exited
    shutdown := .exited
    service :=
      { sock := TecSocket_close (TecSocket_open ⟨0, 1, 3, 0⟩ idle_socket).1
        closed := true
        running := false
        sig_polling_stopped := true
        start := .returned
        shutdown := .returned } }

section Idle

variable {C : ServiceState Nat TecTCPServer → ServiceEvent Nat ServerAct → Prop}
  {u v w : ServiceState Nat TecTCPServer} {x : ServiceEvent Nat ServerAct}
  {ys : List (ServiceEvent Nat ServerAct)}

/-- A condition that all steps meet that do not concern a call of `TecDaemon_rpc`. -/
def Quiet (C : ServiceState Nat TecTCPServer → ServiceEvent Nat ServerAct → Prop) : Prop :=
  ∀ u x v, ServiceStep (TecTCPServer_init idle_setup) bareConfig u x v →
    v.life.worker.calls = u.life.worker.calls → C u x

theorem snoc_step (h : ((serverLts Nat idle_setup bareConfig).restrict C).Run u ys v)
    (hs : ServiceStep (TecTCPServer_init idle_setup) bareConfig v x w) (hA : Assumed v x)
    (hC : C v x) : ((serverLts Nat idle_setup bareConfig).restrict C).Run u (ys ++ [x]) w :=
  h.snoc ⟨hC, hA, hs⟩

theorem snoc_quiet (h : ((serverLts Nat idle_setup bareConfig).restrict C).Run u ys v)
    (hC : Quiet C) (hs : ServiceStep (TecTCPServer_init idle_setup) bareConfig v x w)
    (hA : Assumed v x) (hcalls : w.life.worker.calls = v.life.worker.calls) :
    ((serverLts Nat idle_setup bareConfig).restrict C).Run u (ys ++ [x]) w :=
  snoc_step h hs hA (hC _ _ _ hs hcalls)

/-- From `TecDaemon_run` to the call of `TecDaemon_terminate`. -/
theorem accepting_history (hC : Quiet C) :
    ∃ xs, ((serverLts Nat idle_setup bareConfig).restrict C).History xs
      (accepting_server idle_server.life.worker.calls) := by
  have hinit : ((serverLts Nat idle_setup bareConfig).restrict C).Init idle_server :=
    ⟨⟨rfl, rfl, rfl, rfl⟩, rfl, rfl, rfl, ⟨_, rfl⟩, rfl, rfl, rfl,
      ⟨rfl, rfl, rfl, rfl, rfl, rfl⟩, rfl, rfl⟩
  have r0 : ((serverLts Nat idle_setup bareConfig).restrict C).Run idle_server [] _ := .refl
  have r1 := snoc_quiet r0 hC (.life (@LifeStep.run _ (hooked _ 0 0) _ _ _
    (.step (.lock rfl rfl)) rfl) (.other rfl) trivial) trivial rfl
  have r2 := snoc_quiet r1 hC (.life (@LifeStep.run _ (hooked _ 0 0) _ _ _
    (.step (.create rfl)) rfl) (.other rfl) trivial) trivial rfl
  have r3 := snoc_quiet r2 hC (.life (@LifeStep.worker _ (hooked _ 0 0) _ _ _
    (.on_init rfl rfl rfl) (.inl rfl)) .on_init_called trivial) trivial rfl
  have r4 := snoc_quiet r3 hC (.init (.create rfl)) trivial rfl
  have r5 := snoc_quiet r4 hC (.start (.call rfl)) trivial rfl
  have r6 := snoc_quiet r5 hC (.start (.act rfl (.log_connecting rfl))) trivial rfl
  have r7 := snoc_quiet r6 hC (.start (.act rfl (@start_.open _ _ ⟨0, 1, 3, 0⟩ rfl))) trivial rfl
  have r8 := snoc_quiet r7 hC (.start (.act rfl (.set_options rfl))) trivial rfl
  have r9 := snoc_quiet r8 hC (.start (.act rfl (@start_.bind _ _ ⟨0, 0⟩ rfl))) trivial rfl
  have r10 := snoc_quiet r9 hC (.start (.act rfl (@start_.listen _ _ ⟨0, 0⟩ rfl))) trivial rfl
  have r11 := snoc_quiet r10 hC (.start (.act rfl (@start_.error _ _ 0 rfl))) trivial rfl
  have r12 := snoc_quiet r11 hC (.start (.act rfl (.init_buffer rfl))) trivial rfl
  have r13 := snoc_quiet r12 hC (.start (.act rfl (.log_ok rfl))) trivial rfl
  have r14 := snoc_quiet r13 hC (.start (.act rfl (.started rfl))) trivial rfl
  have r15 := snoc_quiet r14 hC (.init (.wait_started rfl rfl)) trivial rfl
  have r16 := snoc_quiet r15 hC (.init (.test rfl)) trivial rfl
  have r17 := snoc_quiet r16 hC (.init (.read rfl)) trivial rfl
  have r18 := snoc_quiet r17 hC (.life (@LifeStep.worker _ (hooked _ 0 0) _ _ _
    (.step (.on_init rfl) rfl) (.inl rfl)) .on_init_returned trivial) trivial rfl
  have r19 := snoc_quiet r18 hC (.life (@LifeStep.worker _ (hooked _ 0 0) _ _ _
    (.step (.set_running rfl) rfl) (.inl rfl)) (.other rfl) trivial) trivial rfl
  have r20 := snoc_quiet r19 hC (.life (@LifeStep.worker _ (hooked _ 0 0) _ _ _
    (.step (.test_error rfl) rfl) (.inl rfl)) (.other rfl) trivial) trivial rfl
  have r21 := snoc_quiet r20 hC (.life (@LifeStep.run _ (hooked _ 0 0) _ _ _
    (.step (.wait_running rfl rfl)) rfl) (.other rfl) trivial) trivial rfl
  have r22 := snoc_quiet r21 hC (.life (@LifeStep.run _ (hooked _ 0 0) _ _ _
    (.step (.unlock rfl)) rfl) (.other rfl) trivial) trivial rfl
  have r23 := snoc_quiet r22 hC (.life (@LifeStep.run _ (hooked _ 0 0) _ _ _
    (.step (.return rfl)) rfl) (.other rfl) trivial) trivial rfl
  have r24 := snoc_quiet r23 hC (.start (.act rfl (.running rfl))) trivial rfl
  have r25 := snoc_quiet r24 hC (.start (.act rfl (.accept rfl))) trivial rfl
  have r26 := snoc_quiet r25 hC (.life (@LifeStep.terminate _ (hooked _ 0 0) _ _ _ 0
    (.step (.lock rfl rfl)) rfl) (.other rfl) trivial) ⟨0, rfl⟩ rfl
  exact ⟨_, idle_server, hinit, r26⟩

/-- To the end of `TecDaemon_terminate`. -/
theorem terminated_run (hC : Quiet C) (calls : Nat → Call) :
    ∃ xs, ((serverLts Nat idle_setup bareConfig).restrict C).Run (accepting_server calls)
      (xs ++ [.life (.terminate_returned 0 0)]) (terminated_server calls) := by
  have r26 : ((serverLts Nat idle_setup bareConfig).restrict C).Run (accepting_server calls) [] _ :=
    .refl
  have r27 := snoc_quiet r26 hC (.life (@LifeStep.terminate _ (hooked _ 0 0) _ _ _ 0
    (.step (.push rfl)) rfl) (.other rfl) trivial) trivial rfl
  have r28 := snoc_quiet r27 hC (.life (@LifeStep.worker _ (hooked _ 0 0) _ _ _
    (.step (.pop_null rfl rfl) rfl) (.inl rfl)) (.other rfl) trivial) trivial rfl
  have r29 := snoc_quiet r28 hC (.life (@LifeStep.worker _ (hooked _ 0 0) _ _ _
    (.on_exit rfl rfl rfl) (.inl rfl)) .on_exit_called trivial) trivial rfl
  have r30 := snoc_quiet r29 hC (.exit (.create rfl)) trivial rfl
  have r31 := snoc_quiet r30 hC (.shutdown (.call rfl)) trivial rfl
  have r32 := snoc_quiet r31 hC (.shutdown (.act rfl (.store_running rfl))) trivial rfl
  have r33 := snoc_quiet r32 hC
    (.shutdown (.act rfl (.close rfl (show (3 : Int) ≠ -1 by decide)))) trivial rfl
  have r34 := snoc_quiet r33 hC (.shutdown (.act rfl (.clear rfl))) trivial rfl
  have r35 := snoc_quiet r34 hC (.start (.act rfl (@start_.accepting _ _ (-1) rfl ⟨rfl, rfl⟩)))
    trivial rfl
  have r36 := snoc_quiet r35 hC (.start (.act rfl (.running rfl))) trivial rfl
  have r37 := snoc_quiet r36 hC (.start (.act rfl (.set_stopped rfl))) trivial rfl
  have r38 := snoc_quiet r37 hC (.shutdown (.act rfl (.wait_polling rfl rfl))) trivial rfl
  have r39 := snoc_quiet r38 hC (.shutdown (.act rfl (.set_stopped rfl))) trivial rfl
  have r40 := snoc_quiet r39 hC (.shutdown (.act rfl (.log rfl))) trivial rfl
  have r41 := snoc_quiet r40 hC (.shutdown (.act rfl (.return rfl))) trivial rfl
  have r42 := snoc_quiet r41 hC (.start (.act rfl (.return rfl))) trivial rfl
  have r43 := snoc_quiet r42 hC (.exit (.join rfl rfl)) trivial rfl
  have r44 := snoc_quiet r43 hC (.exit (.wait_stopped rfl rfl)) trivial rfl
  have r45 := snoc_quiet r44 hC (.exit (.join_service rfl rfl)) trivial rfl
  have r46 := snoc_quiet r45 hC (.exit (.read rfl)) trivial rfl
  have r47 := snoc_quiet r46 hC (.life (@LifeStep.worker _ (hooked _ 0 0) _ _ _
    (.step (.on_exit rfl) rfl) (.inl rfl)) .on_exit_returned trivial) trivial rfl
  have r48 := snoc_quiet r47 hC (.life (@LifeStep.worker _ (hooked _ 0 0) _ _ _
    (.step (.set_terminated rfl) rfl) (.inl rfl)) (.other rfl) trivial) trivial rfl
  have r49 := snoc_quiet r48 hC (.life (@LifeStep.terminate _ (hooked _ 0 0) _ _ _ 0
    (.step (.wait_terminated rfl rfl)) rfl) (.other rfl) trivial) trivial rfl
  have r50 := snoc_quiet r49 hC (.life (@LifeStep.terminate _ (hooked _ 0 0) _ _ _ 0
    (.step (.join rfl rfl)) rfl) (.other rfl) trivial) trivial rfl
  have r51 := snoc_quiet r50 hC (.life (@LifeStep.terminate _ (hooked _ 0 0) _ _ _ 0
    (.step (.read rfl)) rfl) (.other rfl) trivial) trivial rfl
  have r52 := snoc_quiet r51 hC (.life (@LifeStep.terminate _ (hooked _ 0 0) _ _ _ 0
    (.step (.unlock rfl)) rfl) (.other rfl) trivial) trivial rfl
  exact ⟨_, r52⟩

end Idle

/-- A server to which nobody connects, from `TecDaemon_run` to the end of `TecDaemon_terminate`. -/
theorem server_shutdown_final_idle :
    ∃ (setup : Setup) (cfg : Config) (xs : List (ServiceEvent Nat ServerAct))
      (s : ServiceState Nat TecTCPServer), (serverLts Nat setup cfg).History xs s ∧
      .life (.terminate_returned 0 0) ∈ xs ∧ ShutdownFinal setup cfg xs s := by
  have hquiet : Quiet fun _ _ => True := fun _ _ _ _ _ => trivial
  obtain ⟨xs, h⟩ := accepting_history hquiet
  obtain ⟨ys, hrun⟩ := terminated_run hquiet idle_server.life.worker.calls
  have hend := (h.run hrun).of_restrict
  refine ⟨idle_setup, bareConfig, _, _, hend, by simp, ?_⟩
  exact server_shutdown_final idle_setup bareConfig ⟨-1, rfl, rfl⟩ _ _ hend

end Tecc.TcpServer
