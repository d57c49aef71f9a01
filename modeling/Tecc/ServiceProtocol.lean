import Tecc.ServiceLife

/-! The protocol of the service worker: the threads that run `start` and `shutdown` of a service
stay behind the hooks of the worker thread. -/
namespace Tecc.ServiceWorker

open Transition Worker

variable {Cb σ α : Type} {S : Service σ α} {cfg : Config} {s t : ServiceState Cb σ}
  {e : ServiceEvent Cb α} {xs : List (ServiceEvent Cb α)} {r : Int}

/-- `TecDaemon_terminate` is called when `TecDaemon_run` has returned, and `TecDaemon_done` when
there is no worker thread. -/
def Orderly (l : Life Cb) : LifeEvent Cb → Prop
  | .done_called => l.worker.worker = .absent ∨ l.worker.worker = .exited
  | x => TerminateAfterRun l x

/-- `start` writes `*error` before it sets `sig_started`. -/
def Contract (s : ServiceState Cb σ) : ServiceEvent Cb α → Prop
  | .start (.error _) => s.sig_started = false
  | .start .sig_started => s.reported ≠ none
  | .life x => Orderly s.life x
  | _ => True

/-! Where the service stands at each position of the worker thread -/

/-- The service thread has been created and not been joined. -/
structure ServiceState.InUse (s : ServiceState Cb σ) : Prop where
  ok : TecThread_ok s.service_thread
  thread : s.service_thread.t = some .service
  present : s.start ≠ .absent

/-- There is no service thread, or it has been joined. -/
structure ServiceState.Gone (s : ServiceState Cb σ) : Prop where
  unused : ¬ TecThread_ok s.service_thread
  ended : s.start = .absent ∨ s.start = .exited

/-- Nothing has been started. -/
structure ServiceState.Fresh (s : ServiceState Cb σ) : Prop where
  unused : ¬ TecThread_ok s.service_thread
  start : s.start = .absent
  shutdown : s.shutdown = .absent

/-- `start` has reported success. -/
structure ServiceState.Serving (s : ServiceState Cb σ) : Prop extends s.InUse where
  started : s.sig_started = true
  error : s.error = 0

/-- There is no service, since there was no thread or `start` has reported an error. -/
structure ServiceState.Failed (s : ServiceState Cb σ) : Prop extends s.Gone where
  error : s.start = .exited → s.error ≠ 0

/-- What `on_init` has come to, with the result `r`. -/
structure ServiceState.Outcome (s : ServiceState Cb σ) (r : Int) : Prop where
  shutdown : s.shutdown = .absent
  serving : r = 0 → s.Serving
  failed : r ≠ 0 → s.Failed

/-- The worker thread is in the hook that it calls at `pc`. -/
structure ServiceState.In (s : ServiceState Cb σ) (pc : WorkerPc) : Prop where
  hook : s.life.hook = true
  worker : s.life.worker.worker = pc

def ServiceState.Outside (s : ServiceState Cb σ) : WorkerPc → Prop
  | .absent | .on_init => s.Fresh
  | .set_terminated | .exited => s.Gone
  | _ => s.Outcome s.life.worker.error

def ServiceState.Stage (s : ServiceState Cb σ) : HookPc → Prop
  | .out => s.life.hook = false ∧ s.Outside s.life.worker.worker
  | .init_create => s.In .on_init ∧ s.Fresh
  | .init_wait_started => s.In .on_init ∧ s.shutdown = .absent ∧ s.InUse
  | .init_test => s.In .on_init ∧ s.shutdown = .absent ∧ s.InUse ∧ s.sig_started = true
  | .init_join =>
    s.In .on_init ∧ s.shutdown = .absent ∧ s.InUse ∧ s.sig_started = true ∧ s.error ≠ 0
  | .init_set_stopped => s.In .on_init ∧ s.shutdown = .absent ∧ s.Failed ∧ s.error ≠ 0
  | .init_read => s.In .on_init ∧ s.Outcome s.error
  | .init_return r => s.In .on_init ∧ s.Outcome r
  | .exit_create => s.In .on_exit ∧ s.shutdown = .absent ∧ s.Serving
  | .exit_join | .exit_wait_stopped | .exit_join_service => s.In .on_exit ∧ s.Serving
  | .exit_read | .exit_return _ => s.In .on_exit ∧ s.Gone

/-! The steps of the service thread and the exit thread -/

/-- What the service thread and the exit thread leave alone. -/
structure Behind (s t : ServiceState Cb σ) : Prop where
  service_thread : t.service_thread = s.service_thread
  start : t.start = .absent ↔ s.start = .absent
  exited : s.start = .exited → t.start = .exited
  shutdown : t.shutdown = .absent ↔ s.shutdown = .absent
  started : s.sig_started = true → t.sig_started = true
  error : s.sig_started = true ∨ s.start = .absent ∨ s.start = .exited → t.error = s.error

theorem start_step_behind (hs : StartStep S s e t) (hC : Contract s e) : Behind s t := by
  cases hs with
  | call hs =>
    exact ⟨rfl, by simp [hs], by simp [hs], Iff.rfl, id, fun _ => rfl⟩
  | @act a v hs ha =>
    cases a with
    | error value =>
      have hunset : s.sig_started = false := hC
      refine ⟨rfl, Iff.rfl, id, Iff.rfl, id, ?_⟩
      rintro (hset | habsent | hexited)
      · cases hunset.symm.trans hset
      · cases hs.symm.trans habsent
      · cases hs.symm.trans hexited
    | sig_started => exact ⟨rfl, Iff.rfl, id, Iff.rfl, fun _ => rfl, fun _ => rfl⟩
    | step a => exact ⟨rfl, Iff.rfl, id, Iff.rfl, id, fun _ => rfl⟩
    | «return» =>
      exact ⟨rfl, by simp [ServiceState.afterStart, hs], fun _ => rfl, Iff.rfl, id,
        fun _ => rfl⟩

theorem shutdown_step_behind (hs : ShutdownStep S s e t) : Behind s t := by
  cases hs with
  | call hs => exact ⟨rfl, Iff.rfl, id, by simp [hs], id, fun _ => rfl⟩
  | @act a v hs ha =>
    cases a with
    | sig_stopped => exact ⟨rfl, Iff.rfl, id, Iff.rfl, id, fun _ => rfl⟩
    | step a => exact ⟨rfl, Iff.rfl, id, Iff.rfl, id, fun _ => rfl⟩
    | «return» =>
      exact ⟨rfl, Iff.rfl, id, by simp [ServiceState.afterShutdown, hs], id,
        fun _ => rfl⟩

theorem Behind.inUse (h : Behind s t) (hs : s.InUse) : t.InUse :=
  ⟨by rw [h.service_thread]; exact hs.ok, by rw [h.service_thread]; exact hs.thread,
    fun habsent => hs.present (h.start.mp habsent)⟩

theorem Behind.gone (h : Behind s t) (hs : s.Gone) : t.Gone :=
  ⟨by rw [h.service_thread]; exact hs.unused, hs.ended.imp h.start.mpr h.exited⟩

theorem Behind.fresh (h : Behind s t) (hs : s.Fresh) : t.Fresh :=
  ⟨by rw [h.service_thread]; exact hs.unused, h.start.mpr hs.start, h.shutdown.mpr hs.shutdown⟩

theorem Behind.serving (h : Behind s t) (hs : s.Serving) : t.Serving :=
  ⟨h.inUse hs.toInUse, h.started hs.started, (h.error (.inl hs.started)).trans hs.error⟩

theorem Behind.failed (h : Behind s t) (hs : s.Failed) : t.Failed := by
  refine ⟨h.gone hs.toGone, fun hexited => ?_⟩
  rw [h.error (.inr hs.ended)]
  rcases hs.ended with habsent | hexited'
  · cases (h.start.mpr habsent).symm.trans hexited
  · exact hs.error hexited'

theorem Behind.outcome (h : Behind s t) (hs : s.Outcome r) : t.Outcome r :=
  ⟨h.shutdown.mpr hs.shutdown, fun hr => h.serving (hs.serving hr),
    fun hr => h.failed (hs.failed hr)⟩

theorem Behind.outside {pc : WorkerPc} (h : Behind s t)
    (herror : t.life.worker.error = s.life.worker.error) (hs : s.Outside pc) : t.Outside pc := by
  have houtcome : s.Outcome s.life.worker.error → t.Outcome t.life.worker.error := by
    rw [herror]
    exact h.outcome
  cases pc <;>
    first
    | exact h.fresh hs
    | exact h.gone hs
    | exact houtcome hs

theorem ServiceState.In.moved {w : WorkerPc} (h : s.In w) (hhook : t.life.hook = s.life.hook)
    (hworker : t.life.worker.worker = s.life.worker.worker) : t.In w :=
  ⟨hhook.trans h.hook, hworker.trans h.worker⟩

/-- The service may go on while the worker thread stays where it is. -/
theorem Behind.stage {pc : HookPc} (h : Behind s t) (hhook : t.life.hook = s.life.hook)
    (hworker : t.life.worker.worker = s.life.worker.worker)
    (herror : t.life.worker.error = s.life.worker.error) (hs : s.Stage pc) : t.Stage pc := by
  revert hs
  cases pc with
  | out =>
    rintro ⟨hout, houtside⟩
    rw [ServiceState.Stage, hworker]
    exact ⟨hhook.trans hout, h.outside herror houtside⟩
  | init_create =>
    rintro ⟨hin, hfresh⟩
    exact ⟨hin.moved hhook hworker, h.fresh hfresh⟩
  | init_wait_started =>
    rintro ⟨hin, hdown, huse⟩
    exact ⟨hin.moved hhook hworker, h.shutdown.mpr hdown, h.inUse huse⟩
  | init_test =>
    rintro ⟨hin, hdown, huse, hset⟩
    exact ⟨hin.moved hhook hworker, h.shutdown.mpr hdown, h.inUse huse, h.started hset⟩
  | init_join =>
    rintro ⟨hin, hdown, huse, hset, hne⟩
    rw [← h.error (.inl hset)] at hne
    exact ⟨hin.moved hhook hworker, h.shutdown.mpr hdown, h.inUse huse, h.started hset, hne⟩
  | init_set_stopped =>
    rintro ⟨hin, hdown, hfailed, hne⟩
    rw [← h.error (.inr hfailed.ended)] at hne
    exact ⟨hin.moved hhook hworker, h.shutdown.mpr hdown, h.failed hfailed, hne⟩
  | init_read =>
    rintro ⟨hin, houtcome⟩
    have hsame : t.error = s.error := by
      by_cases hzero : s.error = 0
      · exact h.error (.inl (houtcome.serving hzero).started)
      · exact h.error (.inr (houtcome.failed hzero).ended)
    rw [ServiceState.Stage, hsame]
    exact ⟨hin.moved hhook hworker, h.outcome houtcome⟩
  | init_return r =>
    rintro ⟨hin, houtcome⟩
    exact ⟨hin.moved hhook hworker, h.outcome houtcome⟩
  | exit_create =>
    rintro ⟨hin, hdown, hserving⟩
    exact ⟨hin.moved hhook hworker, h.shutdown.mpr hdown, h.serving hserving⟩
  | exit_join | exit_wait_stopped | exit_join_service =>
    rintro ⟨hin, hserving⟩
    exact ⟨hin.moved hhook hworker, h.serving hserving⟩
  | exit_read | exit_return r =>
    rintro ⟨hin, hgone⟩
    exact ⟨hin.moved hhook hworker, h.gone hgone⟩

/-! The steps of the worker thread -/

/-- `TecThread_join` of the service thread waits for its end. -/
theorem ServiceState.InUse.joined (h : s.InUse) (hj : s.Joinable s.service_thread) :
    s.start = .exited := by
  rw [Joinable, TecThread_join_ok h.ok, h.thread] at hj
  exact hj

/-- The worker thread goes on while the service stays where it is. -/
theorem behind_worker (s : ServiceState Cb σ) (l : Life Cb) (pc : HookPc) :
    Behind s { s with life := l, hook := pc } :=
  ⟨rfl, Iff.rfl, id, Iff.rfl, id, fun _ => rfl⟩

theorem ServiceState.Serving.congr (h : s.Serving) (hthread : t.service_thread = s.service_thread)
    (hstart : t.start = s.start) (hsig : t.sig_started = s.sig_started)
    (herror : t.error = s.error) : t.Serving := by
  refine ⟨⟨?_, ?_, ?_⟩, ?_, ?_⟩
  · rw [hthread]
    exact h.ok
  · rw [hthread]
    exact h.thread
  · rw [hstart]
    exact h.present
  · rw [hsig]
    exact h.started
  · rw [herror]
    exact h.error

theorem init_step_stage (hs : InitStep s e t) (h : s.Stage s.hook) : t.Stage t.hook := by
  cases hs with
  | create hh =>
    rw [hh] at h
    obtain ⟨hin, hfresh⟩ := h
    exact ⟨hin.moved rfl rfl, hfresh.shutdown, ⟨rfl, rfl, by simp⟩⟩
  | @create_failed result hh hresult =>
    rw [hh] at h
    obtain ⟨hin, hfresh⟩ := h
    refine ⟨hin.moved rfl rfl, hfresh.shutdown, fun hzero => absurd hzero hresult, ?_⟩
    intro _
    refine ⟨⟨hresult, .inl hfresh.start⟩, ?_⟩
    intro hexited
    cases hfresh.start.symm.trans hexited
  | wait_started hh hsig =>
    rw [hh] at h
    obtain ⟨hin, hdown, huse⟩ := h
    exact ⟨hin.moved rfl rfl, hdown, (behind_worker s s.life .init_test).inUse huse, hsig⟩
  | test hh =>
    rw [hh] at h
    obtain ⟨hin, hdown, huse, hsig⟩ := h
    by_cases hzero : s.error = 0
    · have hb := behind_worker s s.life .init_read
      rw [if_pos hzero]
      exact ⟨hin.moved rfl rfl, hdown, fun _ => ⟨hb.inUse huse, hsig, hzero⟩,
        fun hne => absurd hzero hne⟩
    · have hb := behind_worker s s.life .init_join
      rw [if_neg hzero]
      exact ⟨hin.moved rfl rfl, hdown, hb.inUse huse, hsig, hzero⟩
  | join hh hj =>
    rw [hh] at h
    obtain ⟨hin, hdown, huse, hsig, herror⟩ := h
    have hexited := huse.joined hj
    exact ⟨hin.moved rfl rfl, hdown,
      ⟨⟨TecThread_join_not_ok _, .inr hexited⟩, fun _ => herror⟩, herror⟩
  | set_stopped hh =>
    rw [hh] at h
    obtain ⟨hin, hdown, hfailed, herror⟩ := h
    have hb : Behind s { s with sig_stopped := true, hook := .init_read } :=
      ⟨rfl, Iff.rfl, id, Iff.rfl, id, fun _ => rfl⟩
    exact ⟨hin.moved rfl rfl, hdown, fun hzero => absurd hzero herror, fun _ => hb.failed hfailed⟩
  | read hh =>
    rw [hh] at h
    exact (behind_worker s s.life (.init_return s.error)).stage rfl rfl rfl h

theorem exit_step_stage (hs : ExitStep s e t) (h : s.Stage s.hook) : t.Stage t.hook := by
  cases hs with
  | create hh | create_failed hh hresult =>
    rw [hh] at h
    obtain ⟨hin, _, hserving⟩ := h
    exact ⟨hin.moved rfl rfl, hserving.congr rfl rfl rfl rfl⟩
  | join hh hj =>
    rw [hh] at h
    obtain ⟨hin, hserving⟩ := h
    exact ⟨hin.moved rfl rfl, hserving.congr rfl rfl rfl rfl⟩
  | wait_stopped hh hsig =>
    rw [hh] at h
    exact (behind_worker s s.life .exit_join_service).stage rfl rfl rfl h
  | join_service hh hj =>
    rw [hh] at h
    obtain ⟨hin, hserving⟩ := h
    exact ⟨hin.moved rfl rfl, ⟨TecThread_join_not_ok _, .inr (hserving.joined hj)⟩⟩
  | read hh =>
    rw [hh] at h
    exact (behind_worker s s.life (.exit_return s.error)).stage rfl rfl rfl h

/-- A step that is not one of the worker thread tells nothing of the hooks. -/
theorem quiet_isHook {x : LifeEvent Cb} (h : x.ofWorker = false) (hne : x ≠ .on_init_called) :
    isHook x = false := by
  cases x <;> first | exact absurd rfl hne | rfl | cases h

theorem hookMove_other {pc pc' : HookPc} {x : LifeEvent Cb} (hm : HookMove pc x pc')
    (hx : isHook x = false) : pc' = pc := by
  cases hm with
  | other => rfl
  | on_init_called | on_init_returned | on_exit_called | on_exit_returned => cases hx

/-- Outside of the hooks the hook of the worker is not running. -/
theorem stage_out (h : s.Stage s.hook) (hout : s.life.hook = false) : s.hook = .out := by
  cases hh : s.hook with
  | out => rfl
  | _ =>
    rw [hh] at h
    cases hout.symm.trans h.1.hook

/-- The worker thread is outside of its hooks where it calls none. -/
theorem stage_outside {cfg' : Config} (h : s.Stage s.hook) (hin : HookInv cfg' s.life)
    (hnone : s.life.worker.hook cfg' = none) : s.Outside s.life.worker.worker := by
  have hout : s.life.hook = false := by
    cases hhook : s.life.hook with
    | false => rfl
    | true =>
      have hsome := hin hhook
      rw [hnone] at hsome
      cases hsome
  rw [stage_out h hout] at h
  exact h.2

theorem outside_loop {pc : WorkerPc} (h : pc.Loop) :
    s.Outside pc ↔ s.Outcome s.life.worker.error := by
  cases pc <;> first | exact Iff.rfl | exact h.elim

theorem worker_label_isHook {w : Worker.State Cb} {y : Event Cb} (h : w.hook cfg = none) :
    isHook (worker_label cfg w y) = false := by
  unfold worker_label
  rw [h]
  cases w.worker <;> rfl

/-- The hooks are called in places of their own. -/
theorem stage_worker_step {a b : Int} {x : LifeEvent Cb} {l : Life Cb} {pc : HookPc}
    (hs : LifeWorkerStep (hooked cfg a b) s.life x l) (hm : HookMove s.hook x pc)
    (herror : ¬ s.life.worker.worker.Inited → s.life.worker.error = 0) (h : s.Stage s.hook) :
    ({ s with life := l, hook := pc } : ServiceState Cb σ).Stage pc := by
  have hb := behind_worker s l pc
  cases hs with
  | on_init hw hout hhook =>
    have hpc := stage_out h hout
    rw [hpc] at h hm
    cases hm with
    | other he => cases he
    | on_init_called =>
      have hfresh : s.Fresh := by
        have houtside := h.2
        rwa [hw] at houtside
      exact ⟨⟨rfl, hw⟩, hb.fresh hfresh⟩
  | on_exit hw hout hhook =>
    have hpc := stage_out h hout
    have hzero : s.life.worker.error = 0 := by
      by_contra hne
      rw [State.hook, if_neg hne] at hhook
      cases hhook
    rw [hpc] at h hm
    cases hm with
    | other he => cases he
    | on_exit_called =>
      have houtcome : s.Outcome s.life.worker.error := by
        have houtside := h.2
        rwa [hw] at houtside
      exact ⟨⟨rfl, hw⟩, houtcome.shutdown, hb.serving (houtcome.serving hzero)⟩
  | @step y w hs hin =>
    have hquiet : s.life.worker.hook (hooked cfg a b) = none →
        ({ s with life := { s.life with worker := w, hook := false }, hook := pc } :
          ServiceState Cb σ).Outside w.worker →
        ({ s with life := { s.life with worker := w, hook := false }, hook := pc } :
          ServiceState Cb σ).Stage pc := by
      intro hnone houtside
      have hout : s.life.hook = false := by
        rw [hin, hnone]
        rfl
      have hpc : pc = .out :=
        (hookMove_other hm (worker_label_isHook hnone)).trans (stage_out h hout)
      subst hpc
      exact ⟨rfl, houtside⟩
    have hother : s.life.worker.worker ≠ .on_init → s.life.worker.worker ≠ .on_exit →
        s.life.worker.hook (hooked cfg a b) = none ∧ s.Outside s.life.worker.worker := by
      intro hinit hexit
      have hnone : s.life.worker.hook (hooked cfg a b) = none := hook_other hinit hexit
      refine ⟨hnone, ?_⟩
      have hpc := stage_out h (by rw [hin, hnone]; rfl)
      rw [hpc] at h
      exact h.2
    cases worker_step_move hs with
    | on_init hw hw' _ herror' =>
      have hzero : s.life.worker.error = 0 := herror (by rw [hw]; exact id)
      have hx : worker_label (hooked cfg a b) s.life.worker y = .on_init_returned a := by
        simp [worker_label, State.hook, hw, hzero, hooked]
      have herror' : w.error = a := by
        rw [herror', hzero, run_hook_zero]
        rfl
      rw [hx] at hm
      generalize s.hook = hook at hm h
      cases hm with
      | other he => cases he
      | on_init_returned =>
        refine ⟨rfl, ?_⟩
        dsimp only
        rw [hw']
        have houtcome := hb.outcome h.2
        rw [← herror'] at houtcome
        exact houtcome
    | on_exit hw hw' _ herror' =>
      by_cases hzero : s.life.worker.error = 0
      · have hx : worker_label (hooked cfg a b) s.life.worker y = .on_exit_returned b := by
          simp [worker_label, State.hook, hw, hzero, hooked]
        rw [hx] at hm
        generalize s.hook = hook at hm h
        cases hm with
        | other he => cases he
        | on_exit_returned =>
          refine ⟨rfl, ?_⟩
          dsimp only
          rw [hw']
          exact hb.gone h.2
      · have hnone : s.life.worker.hook (hooked cfg a b) = none := by
          rw [State.hook, if_neg hzero]
        refine hquiet hnone ?_
        have hpc := stage_out h (by rw [hin, hnone]; rfl)
        rw [hpc, ServiceState.Stage, hw] at h
        rw [hw']
        exact hb.gone (h.2.failed hzero).toGone
    | set_running hw hw' _ _ _ herror' | enter hw hw' _ herror' _ | skip hw hw' _ herror' _
    | leave hw hw' _ _ _ herror' =>
      obtain ⟨hnone, houtside⟩ := hother (by rw [hw]; simp) (by rw [hw]; simp)
      refine hquiet hnone ?_
      rw [hw] at houtside
      rw [hw']
      have houtcome := hb.outcome houtside
      rw [← herror'] at houtcome
      exact houtcome
    | loop hw hw' _ _ _ herror' =>
      obtain ⟨hnone, houtside⟩ := hother (by rintro hwi; rw [hwi] at hw; exact hw)
        (by rintro hwe; rw [hwe] at hw; exact hw)
      refine hquiet hnone ((outside_loop hw').mpr ?_)
      have houtcome := hb.outcome ((outside_loop hw).mp houtside)
      rw [← herror'] at houtcome
      exact houtcome
    | set_terminated hw hw' _ _ _ herror' =>
      obtain ⟨hnone, houtside⟩ := hother (by rw [hw]; simp) (by rw [hw]; simp)
      refine hquiet hnone ?_
      rw [hw] at houtside
      rw [hw']
      exact hb.gone houtside

theorem stage_life_step {a b : Int} {x : LifeEvent Cb} {l : Life Cb} {pc : HookPc}
    (hs : LifeStep (hooked cfg a b) s.life x l) (hm : HookMove s.hook x pc)
    (hcreated : Created s.life.worker)
    (herror : ¬ s.life.worker.worker.Inited → s.life.worker.error = 0) (h : s.Stage s.hook) :
    ({ s with life := l, hook := pc } : ServiceState Cb σ).Stage pc := by
  rcases life_step_cases hs with hs | ⟨⟨hother, _, hne⟩, hhook, hsame⟩
  · exact stage_worker_step hs hm herror h
  · have hpc := hookMove_other hm (quiet_isHook hother hne)
    subst hpc
    have hb := behind_worker s l s.hook
    have hkept : l.worker.worker = s.life.worker.worker → l.worker.error = s.life.worker.error →
        ({ s with life := l, hook := s.hook } : ServiceState Cb σ).Stage s.hook :=
      fun hworker herror => hb.stage hhook hworker herror h
    rcases hsame with hw | ⟨y, ⟨c, hc⟩ | hu⟩
    · exact hkept (by rw [hw]) (by rw [hw])
    · exact hkept (call_step_worker hc) (call_step_error hc)
    · rcases control_step_worker hu with hw | ⟨hrun, hw⟩
      · exact hkept hw (control_step_error hu)
      · -- the caller of `TecDaemon_run` creates the worker thread
        have habsent := hcreated (.inr hrun)
        have hpc : s.hook = .out := by
          cases hh : s.hook with
          | out => rfl
          | _ =>
            rw [hh] at h
            cases habsent.symm.trans h.1.worker
        rw [hpc, ServiceState.Stage, habsent] at h
        rw [hpc]
        refine ⟨hhook.trans h.1, ?_⟩
        dsimp only
        rw [hw]
        exact (behind_worker s l .out).fresh h.2

/-! What has been told -/

/-- The values that `start` has written into `*error`. -/
def reports (xs : List (ServiceEvent Cb α)) : List Int :=
  xs.filterMap fun e => match e with
    | .start (.error value) => some value
    | _ => none

/-- The events of the service thread and the exit thread have told what their positions say. -/
structure ServiceTold (xs : List (ServiceEvent Cb α)) (s : ServiceState Cb σ) : Prop where
  created : .service_create ∈ xs ↔ s.start ≠ .absent
  called : .start_called ∈ xs ↔ s.start = .running ∨ s.start = .exited
  returned : s.start = .exited → .start .return ∈ xs
  joined : s.start ≠ .absent → ¬ TecThread_ok s.service_thread → .join (some .service) ∈ xs
  reported : (reports xs).getLast? = s.reported
  error : s.error = s.reported.getD 0
  started : s.sig_started = true → .start .sig_started ∈ xs ∧ s.reported ≠ none
  shutdown : .shutdown_called ∈ xs ↔ s.shutdown = .running ∨ s.shutdown = .exited
  init : ∀ r, .life (.on_init_returned r) ∈ xs → (r = 0 ↔ s.start ≠ .absent ∧ s.reported = some 0)
  null : s.life.worker.worker = .on_exit → s.life.worker.error = 0 →
    .life (.event (.pop none)) ∈ xs
  exit : s.shutdown ≠ .absent →
    s.reported = some 0 ∧ s.sig_started = true ∧ .life (.event (.pop none)) ∈ xs

/-- The event is not one of the service thread or the exit thread. -/
def ServiceEvent.Quiet : ServiceEvent Cb α → Prop
  | .service_create | .start_called | .start _ | .shutdown_called => False
  | _ => True

theorem mem_quiet {x : ServiceEvent Cb α} (he : e.Quiet) (hx : ¬ x.Quiet) :
    x ∈ xs ++ [e] ↔ x ∈ xs := by
  rw [List.mem_append, List.mem_singleton]
  refine ⟨fun h => h.resolve_right ?_, .inl⟩
  rintro rfl
  exact hx he

theorem reports_quiet (he : e.Quiet) : reports (xs ++ [e]) = reports xs := by
  rw [reports, List.filterMap_append]
  cases e <;> first | exact List.append_nil _ | exact he.elim

/-- A step of the worker thread or of its users. -/
theorem ServiceTold.quiet (h : ServiceTold xs s) (he : e.Quiet)
    (hstart : t.start = s.start) (hreported : t.reported = s.reported) (herror : t.error = s.error)
    (hsig : t.sig_started = s.sig_started) (hshutdown : t.shutdown = s.shutdown)
    (hjoined : ¬ TecThread_ok t.service_thread →
      ¬ TecThread_ok s.service_thread ∨ e = .join (some .service))
    (hinit : ∀ r, e = .life (.on_init_returned r) →
      (r = 0 ↔ s.start ≠ .absent ∧ s.reported = some 0))
    (hnull : t.life.worker.worker = .on_exit → t.life.worker.error = 0 →
      s.life.worker.worker = .on_exit ∧ s.life.worker.error = 0 ∨
        e = .life (.event (.pop none))) : ServiceTold (xs ++ [e]) t where
  created := by
    rw [mem_quiet he id, hstart]
    exact h.created
  called := by
    rw [mem_quiet he id, hstart]
    exact h.called
  returned := by
    rw [mem_quiet he id, hstart]
    exact h.returned
  joined := by
    rw [hstart]
    intro hpresent hunused
    rcases hjoined hunused with hunused | rfl
    · exact List.mem_append_left _ (h.joined hpresent hunused)
    · exact List.mem_append_right _ List.mem_cons_self
  reported := by
    rw [reports_quiet he, hreported]
    exact h.reported
  error := by
    rw [herror, hreported]
    exact h.error
  started := by
    rw [mem_quiet he id, hsig, hreported]
    exact h.started
  shutdown := by
    rw [mem_quiet he id, hshutdown]
    exact h.shutdown
  init := by
    intro r hr
    rw [hstart, hreported]
    rcases List.mem_append.mp hr with hr | hr
    · exact h.init r hr
    · exact hinit r (List.mem_singleton.mp hr).symm
  null := by
    intro hw hzero
    rcases hnull hw hzero with ⟨hw, hzero⟩ | rfl
    · exact List.mem_append_left _ (h.null hw hzero)
    · exact List.mem_append_right _ List.mem_cons_self
  exit := by
    rw [hshutdown, hreported, hsig]
    intro hpresent
    obtain ⟨hreport, hset, hpop⟩ := h.exit hpresent
    exact ⟨hreport, hset, List.mem_append_left _ hpop⟩

/-- A step that leaves all that is told of alone. -/
theorem ServiceTold.same (h : ServiceTold xs s) (he : e.Quiet) (hlife : t.life = s.life)
    (hstart : t.start = s.start) (hreported : t.reported = s.reported) (herror : t.error = s.error)
    (hsig : t.sig_started = s.sig_started) (hshutdown : t.shutdown = s.shutdown)
    (hjoined : ¬ TecThread_ok t.service_thread →
      ¬ TecThread_ok s.service_thread ∨ e = .join (some .service))
    (hother : ∀ x, e ≠ .life x) : ServiceTold (xs ++ [e]) t := by
  refine h.quiet he hstart hreported herror hsig hshutdown hjoined ?_ ?_
  · exact fun r hr => absurd hr (hother _)
  · rw [hlife]
    exact fun hw hzero => .inl ⟨hw, hzero⟩

theorem join_event_inUse (h : s.InUse) :
    (join_event s.service_thread : ServiceEvent Cb α) = .join (some .service) := by
  rw [join_event, TecThread_join_ok h.ok, h.thread]

theorem join_event_quiet (thread : TecThread) :
    (join_event thread : ServiceEvent Cb α).Quiet ∧
      ∀ x, (join_event thread : ServiceEvent Cb α) ≠ .life x := by
  unfold join_event
  split <;> exact ⟨trivial, by simp⟩

theorem told_init_step (hs : InitStep s e t) (hstage : s.Stage s.hook)
    (hnone : s.life.worker.worker = .on_init → ∀ r, .life (.on_init_returned r) ∉ xs)
    (h : ServiceTold xs s) : ServiceTold (xs ++ [e]) t := by
  cases hs with
  | create hh =>
    rw [hh] at hstage
    obtain ⟨hin, hfresh⟩ := hstage
    have hcalled : .start_called ∉ xs := by
      rw [h.called, hfresh.start]
      simp
    exact
      { created := by simp
        called := by simp [hcalled]
        returned := by simp
        joined := fun _ hunused => absurd rfl hunused
        reported := by simpa [reports] using h.reported
        error := h.error
        started := fun hset => ⟨by simp [(h.started hset).1], (h.started hset).2⟩
        shutdown := by simpa using h.shutdown
        init := fun r hr => absurd (by simpa using hr) (hnone hin.worker r)
        null := fun hw _ => by cases hin.worker.symm.trans hw
        exit := fun hpresent => absurd hfresh.shutdown hpresent }
  | create_failed hh hresult =>
    rw [hh] at hstage
    exact h.same trivial rfl rfl rfl rfl rfl rfl (fun _ => .inl hstage.2.unused) (by simp)
  | join hh hj =>
    rw [hh] at hstage
    rw [join_event_inUse hstage.2.2.1]
    exact h.same trivial rfl rfl rfl rfl rfl rfl (fun _ => .inr rfl) (by simp)
  | wait_started hh hsig => exact h.same trivial rfl rfl rfl rfl rfl rfl .inl (by simp)
  | test hh => exact h.same trivial rfl rfl rfl rfl rfl rfl .inl (by simp)
  | set_stopped hh => exact h.same trivial rfl rfl rfl rfl rfl rfl .inl (by simp)
  | read hh => exact h.same trivial rfl rfl rfl rfl rfl rfl .inl (by simp)

/-- A service that serves has reported success. -/
theorem ServiceTold.serving (h : ServiceTold xs s) (hs : s.Serving) : s.reported = some 0 := by
  have herror := h.error
  have hne := (h.started hs.started).2
  rw [hs.error] at herror
  cases hr : s.reported with
  | none => exact absurd hr hne
  | some value =>
    rw [hr] at herror
    exact congrArg some herror.symm

theorem told_exit_step (hs : ExitStep s e t) (hstage : s.Stage s.hook)
    (hzero : s.life.hook = true → s.life.worker.error = 0) (h : ServiceTold xs s) :
    ServiceTold (xs ++ [e]) t := by
  cases hs with
  | create hh =>
    rw [hh] at hstage
    obtain ⟨hin, hdown, hserving⟩ := hstage
    have hsame : ServiceTold (xs ++ [.exit_create]) s :=
      h.same trivial rfl rfl rfl rfl rfl rfl .inl (by simp)
    have hcalled : .shutdown_called ∉ xs ++ [(.exit_create : ServiceEvent Cb α)] := by
      rw [hsame.shutdown, hdown]
      simp
    exact
      { hsame with
        shutdown := by simp [hcalled]
        exit := fun _ => ⟨hsame.serving hserving, hserving.started,
          hsame.null hin.worker (hzero hin.hook)⟩ }
  | create_failed hh hresult => exact h.same trivial rfl rfl rfl rfl rfl rfl .inl (by simp)
  | join hh hj =>
    exact h.same (join_event_quiet _).1 rfl rfl rfl rfl rfl rfl .inl (join_event_quiet _).2
  | wait_stopped hh hsig => exact h.same trivial rfl rfl rfl rfl rfl rfl .inl (by simp)
  | join_service hh hj =>
    rw [hh] at hstage
    rw [join_event_inUse hstage.2.toInUse]
    exact h.same trivial rfl rfl rfl rfl rfl rfl (fun _ => .inr rfl) (by simp)
  | read hh => exact h.same trivial rfl rfl rfl rfl rfl rfl .inl (by simp)

theorem told_start_step (hs : StartStep S s e t) (hC : Contract s e)
    (hsettled : ∀ r, .life (.on_init_returned r) ∈ xs →
      s.sig_started = true ∨ s.start = .absent ∨ s.start = .exited)
    (h : ServiceTold xs s) : ServiceTold (xs ++ [e]) t := by
  cases hs with
  | call hs =>
    exact
      { created := by simp [h.created, hs]
        called := by simp
        returned := by simp
        joined := fun _ hunused => by simp [h.joined (by simp [hs]) hunused]
        reported := by simpa [reports] using h.reported
        error := h.error
        started := fun hset => ⟨by simp [(h.started hset).1], (h.started hset).2⟩
        shutdown := by simpa using h.shutdown
        init := fun r hr => by simpa [hs] using h.init r (by simpa using hr)
        null := fun hw hzero => by simp [h.null hw hzero]
        exit := fun hpresent => by simpa using h.exit hpresent }
  | @act a v hs ha =>
    have hbase : reports (xs ++ [.start a]) = reports xs → ServiceTold (xs ++ [.start a]) s := by
      intro hreports
      exact
        { created := by simp [h.created, hs]
          called := by simp [h.called, hs]
          returned := fun hexited => by cases hs.symm.trans hexited
          joined := fun hpresent hunused => by simp [h.joined hpresent hunused]
          reported := hreports.symm ▸ h.reported
          error := h.error
          started := fun hset => ⟨by simp [(h.started hset).1], (h.started hset).2⟩
          shutdown := by simpa using h.shutdown
          init := fun r hr => h.init r (by simpa using hr)
          null := fun hw hzero => by simp [h.null hw hzero]
          exit := fun hpresent => by simpa using h.exit hpresent }
    cases a with
    | error value =>
      have hunset : s.sig_started = false := hC
      exact
        { created := by simp [h.created, ServiceState.afterStart, hs]
          called := by simp [h.called, ServiceState.afterStart, hs]
          returned := fun hexited => by cases hs.symm.trans hexited
          joined := fun hpresent hunused => by simp [h.joined hpresent hunused]
          reported := by simp [reports, ServiceState.afterStart]
          error := rfl
          started := fun hset => by cases hunset.symm.trans hset
          shutdown := by simpa [ServiceState.afterStart] using h.shutdown
          init := by
            intro r hr
            rcases hsettled r (by simpa using hr) with hset | habsent | hexited
            · cases hunset.symm.trans hset
            · cases hs.symm.trans habsent
            · cases hs.symm.trans hexited
          null := fun hw hzero => List.mem_append_left _ (h.null hw hzero)
          exit := fun hpresent => by cases hunset.symm.trans (h.exit hpresent).2.1 }
    | sig_started =>
      have hsame := hbase (by simp [reports])
      exact
        { hsame with
          started := fun _ => ⟨by simp, hC⟩
          exit := fun hpresent => ⟨(hsame.exit hpresent).1, rfl, (hsame.exit hpresent).2.2⟩ }
    | step a =>
      have hsame := hbase (by simp [reports])
      exact { hsame with }
    | «return» =>
      have hsame := hbase (by simp [reports])
      exact
        { hsame with
          created := by simp [hsame.created, ServiceState.afterStart, hs]
          called := by simp [hsame.called, ServiceState.afterStart, hs]
          returned := by simp
          joined := fun _ hunused => hsame.joined (by simp [hs]) hunused
          init := fun r hr => by simpa [hs, ServiceState.afterStart] using hsame.init r hr }

theorem told_shutdown_step (hs : ShutdownStep S s e t) (h : ServiceTold xs s) :
    ServiceTold (xs ++ [e]) t := by
  cases hs with
  | call hs =>
    exact
      { created := by simpa using h.created
        called := by simpa using h.called
        returned := fun hexited => List.mem_append_left _ (h.returned hexited)
        joined := fun hpresent hunused => List.mem_append_left _ (h.joined hpresent hunused)
        reported := by simpa [reports] using h.reported
        error := h.error
        started := fun hset => ⟨by simp [(h.started hset).1], (h.started hset).2⟩
        shutdown := by simp
        init := fun r hr => h.init r (by simpa using hr)
        null := fun hw hzero => List.mem_append_left _ (h.null hw hzero)
        exit := fun _ => by simpa using h.exit (by simp [hs]) }
  | @act a v hs ha =>
    have hsame : ServiceTold (xs ++ [.shutdown a]) s :=
      h.same trivial rfl rfl rfl rfl rfl rfl .inl (by simp)
    cases a with
    | sig_stopped | step a => exact { hsame with }
    | «return» =>
      have hcalled : .shutdown_called ∈ xs ++ [(.shutdown .return : ServiceEvent Cb α)] := by
        rw [hsame.shutdown, hs]
        simp
      exact
        { hsame with
          shutdown := by simp [hcalled, ServiceState.afterShutdown]
          exit := fun _ => hsame.exit (by simp [hs]) }

/-- Without an error the worker thread comes to `on_exit` when it receives NULL. -/
theorem worker_step_null {w w' : Worker.State Cb} {y : Event Cb} (hs : WorkerStep cfg w y w')
    (hw : w'.worker = .on_exit) (hzero : w'.error = 0) :
    worker_label cfg w y = .event (.pop none) := by
  cases hs with
  | test_error hwt =>
    have hzero : w.error = 0 := hzero
    dsimp only at hw
    rw [if_pos hzero] at hw
    cases hw
  | pop_null hwp hq => simp [worker_label, hwp]
  | _ => cases hw

theorem life_step_null {x : LifeEvent Cb} {l l' : Life Cb} (hs : LifeStep cfg l x l')
    (hw : l'.worker.worker = .on_exit) (hzero : l'.worker.error = 0) :
    l.worker.worker = .on_exit ∧ l.worker.error = 0 ∨ x = .event (.pop none) := by
  rcases life_step_cases hs with hworker | ⟨_, _, hsame⟩
  · cases hworker with
    | on_init => exact .inl ⟨hw, hzero⟩
    | on_exit => exact .inl ⟨hw, hzero⟩
    | step hstep hin => exact .inr (worker_step_null hstep hw hzero)
  · rcases hsame with hsame | ⟨y, ⟨c, hc⟩ | hu⟩
    · rw [hsame] at hw hzero
      exact .inl ⟨hw, hzero⟩
    · exact .inl ⟨(call_step_worker hc).symm.trans hw, (call_step_error hc).symm.trans hzero⟩
    · rcases control_step_worker hu with hsame | ⟨_, hinit⟩
      · exact .inl ⟨hsame.symm.trans hw, (control_step_error hu).symm.trans hzero⟩
      · cases hinit.symm.trans hw

theorem told_life_step {a b : Int} {x : LifeEvent Cb} {l : Life Cb} {pc : HookPc}
    (hs : LifeStep (hooked cfg a b) s.life x l) (hm : HookMove s.hook x pc)
    (hstage : s.Stage s.hook) (h : ServiceTold xs s) :
    ServiceTold (xs ++ [.life x]) { s with life := l, hook := pc } := by
  refine h.quiet trivial rfl rfl rfl rfl rfl .inl ?_ ?_
  · rintro r hr
    cases hr
    generalize s.hook = hook at hm hstage
    cases hm with
    | other he => cases he
    | on_init_returned =>
      obtain ⟨hin, houtcome⟩ := hstage
      constructor
      · intro hzero
        have hserving := houtcome.serving hzero
        exact ⟨hserving.present, h.serving hserving⟩
      · rintro ⟨hpresent, hreported⟩
        by_contra hne
        have hfailed := houtcome.failed hne
        have herror := h.error
        rw [hreported] at herror
        exact hfailed.error (hfailed.ended.resolve_left hpresent) herror
  · intro hw hzero
    exact (life_step_null hs hw hzero).imp id (congrArg ServiceEvent.life)

/-! The protocol -/

/-- Whoever calls `TecDaemon_done` finds no worker thread. -/
def DoneLate (l : Life Cb) : Prop :=
  l.done ≠ .idle → l.worker.worker = .absent ∨ l.worker.worker = .exited

theorem doneLate_step {x : LifeEvent Cb} {l l' : Life Cb} (hs : LifeStep cfg l x l')
    (hC : Orderly l x) (h : DoneLate l) : DoneLate l' := by
  cases hs with
  | worker hs hd =>
    intro hdone
    have hdone' : l.done ≠ .idle := by cases hs <;> exact hdone
    have hlate := h hdone'
    cases hs with
    | on_init => exact hlate
    | on_exit => exact hlate
    | step hs hin =>
      rcases hlate with habsent | hexited
      · exact absurd habsent (move_present (worker_step_move hs)).1
      · exact absurd hexited (worker_step_exited hs)
  | run hs hd =>
    cases hs with
    | step hs => exact fun hdone => absurd hd hdone
  | terminate n hs hd =>
    cases hs with
    | step hs => exact fun hdone => absurd hd hdone
  | call c hs hd => exact fun hdone => absurd hd hdone
  | user hs hd => exact fun hdone => absurd hd hdone
  | done hs =>
    cases hs with
    | call hd hrun hterminate => exact fun _ => hC
    | join hd ht hw => exact fun _ => h (by simp [hd])
    | skip hd ht => exact fun _ => h (by simp [hd])
    | destroy hd => exact fun _ => h (by simp [hd])

structure ServiceInv (xs : List (ServiceEvent Cb α)) (s : ServiceState Cb σ) : Prop where
  stage : s.Stage s.hook
  told : ServiceTold xs s
  done : DoneLate s.life

theorem stage_initial (hi : ServiceInitial S cfg s) : s.Stage s.hook := by
  obtain ⟨prior, hthread⟩ := hi.service_thread
  have hw : s.life.worker.worker = .absent := by
    rw [hi.life.worker]
    rfl
  rw [hi.hook, ServiceState.Stage, hw]
  refine ⟨hi.life.hook, ?_, hi.start, hi.shutdown⟩
  rw [hthread]
  exact not_ok_of_none rfl

theorem told_initial (hi : ServiceInitial S cfg s) :
    ServiceTold ([] : List (ServiceEvent Cb α)) s := by
  have hw : s.life.worker.worker = .absent := by
    rw [hi.life.worker]
    rfl
  exact
    { created := by simp [hi.start]
      called := by simp [hi.start]
      returned := by simp [hi.start]
      joined := by simp [hi.start]
      reported := by simp [reports, hi.reported]
      error := by simp [hi.error, hi.reported]
      started := by simp [hi.sig_started]
      shutdown := by simp [hi.shutdown]
      init := by simp
      null := by simp [hw]
      exit := by simp [hi.shutdown] }

/-- When the worker thread is behind `on_init`, `start` has come to `sig_started`, or there is no
service thread that runs. -/
theorem stage_settled (h : s.Stage s.hook) (hin : s.life.worker.worker.Inited) :
    s.sig_started = true ∨ s.start = .absent ∨ s.start = .exited := by
  have houtcome : ∀ r, s.Outcome r →
      s.sig_started = true ∨ s.start = .absent ∨ s.start = .exited := by
    intro r h
    by_cases hzero : r = 0
    · exact .inl (h.serving hzero).started
    · exact .inr (h.failed hzero).ended
  revert h
  cases s.hook with
  | out =>
    rintro ⟨_, houtside⟩
    revert houtside hin
    cases s.life.worker.worker <;>
      first
      | exact fun hin => hin.elim
      | exact fun _ hgone => .inr hgone.ended
      | exact fun _ => houtcome _
  | exit_create => exact fun h => .inl h.2.2.started
  | exit_join | exit_wait_stopped | exit_join_service => exact fun h => .inl h.2.started
  | exit_read | exit_return r => exact fun h => .inr h.2.ended
  | init_create | init_wait_started | init_test | init_join | init_set_stopped | init_read
  | init_return r =>
    intro h
    rw [h.1.worker] at hin
    exact hin.elim

/-- When the worker thread is not there, the handle of the service thread is not in use. -/
theorem stage_unused (h : s.Stage s.hook)
    (hw : s.life.worker.worker = .absent ∨ s.life.worker.worker = .exited) :
    ¬ TecThread_ok s.service_thread := by
  have hout : s.hook = .out := by
    cases hh : s.hook with
    | out => rfl
    | _ =>
      rw [hh] at h
      rw [h.1.worker] at hw
      rcases hw with hw | hw <;> cases hw
  rw [hout] at h
  obtain ⟨_, houtside⟩ := h
  rcases hw with hw | hw <;> rw [hw] at houtside
  · exact ServiceState.Fresh.unused houtside
  · exact ServiceState.Gone.unused houtside

theorem serviceInv_step {a b : Int} (hs : ServiceStep S cfg s e t) (hC : Contract s e)
    (hlife : LifecycleInv (hooked cfg a b) (lifes xs) s.life) (h : ServiceInv xs s) :
    ServiceInv (xs ++ [e]) t := by
  cases hs with
  | life hs hm hready =>
    have hstage := stage_life_step hs hm hlife.phase.created hlife.error.fresh h.stage
    exact ⟨hstage, told_life_step hs hm h.stage h.told, doneLate_step hs hC h.done⟩
  | init hs =>
    refine ⟨init_step_stage hs h.stage, told_init_step hs h.stage ?_ h.told, ?_⟩
    · intro hw r hr
      have hin := ((hlife.told.init r).mp (mem_lifes.mpr hr)).2
      rw [hw] at hin
      exact hin
    · cases hs <;> exact h.done
  | exit hs =>
    refine ⟨exit_step_stage hs h.stage, told_exit_step hs h.stage ?_ h.told, ?_⟩
    · intro hin
      have hsome := hlife.hook hin
      by_contra hne
      rw [State.hook, if_neg hne] at hsome
      cases hsome
    · cases hs <;> exact h.done
  | start hs =>
    have hb := start_step_behind hs hC
    have hsame : t.life = s.life ∧ t.hook = s.hook := by
      cases hs with
      | call hs => exact ⟨rfl, rfl⟩
      | @act a v hs ha => cases a <;> exact ⟨rfl, rfl⟩
    obtain ⟨hl, hh⟩ := hsame
    refine ⟨?_, told_start_step hs hC ?_ h.told, ?_⟩
    · rw [hh]
      exact hb.stage (by rw [hl]) (by rw [hl]) (by rw [hl]) h.stage
    · exact fun r hr => stage_settled h.stage ((hlife.told.init r).mp (mem_lifes.mpr hr)).2
    · rw [hl]
      exact h.done
  | shutdown hs =>
    have hb := shutdown_step_behind hs
    have hsame : t.life = s.life ∧ t.hook = s.hook := by
      cases hs with
      | call hs => exact ⟨rfl, rfl⟩
      | @act a v hs ha => cases a <;> exact ⟨rfl, rfl⟩
    obtain ⟨hl, hh⟩ := hsame
    refine ⟨?_, told_shutdown_step hs h.told, ?_⟩
    · rw [hh]
      exact hb.stage (by rw [hl]) (by rw [hl]) (by rw [hl]) h.stage
    · rw [hl]
      exact h.done
  | done hd hj hjoinable =>
    have hunused := stage_unused h.stage (h.done (by rw [hd]; simp))
    rw [TecThread_join_none hunused]
    have hb : Behind s { s with service_thread := s.service_thread, joined := true } :=
      ⟨rfl, Iff.rfl, id, Iff.rfl, id, fun _ => rfl⟩
    have hquiet : (join_event s.service_thread : ServiceEvent Cb α).Quiet := (join_event_quiet _).1
    have hnot : ∀ x, (join_event s.service_thread : ServiceEvent Cb α) ≠ .life x :=
      (join_event_quiet _).2
    exact ⟨hb.stage rfl rfl rfl h.stage,
      h.told.same hquiet rfl rfl rfl rfl rfl rfl .inl hnot, h.done⟩

theorem orderly_after_run {l : Life Cb} {x : LifeEvent Cb} (h : Orderly l x) :
    TerminateAfterRun l x := by
  cases x <;> first | exact h | trivial

theorem serviceInv_history (h : ((serviceLts Cb S cfg).restrict Contract).History xs s) :
    ServiceInv xs s ∧ ∃ a b, LifecycleInv (hooked cfg a b) (lifes xs) s.life := by
  have hlife : ∀ {xs : List (ServiceEvent Cb α)} {s : ServiceState Cb σ},
      ((serviceLts Cb S cfg).restrict Contract).History xs s →
        ∃ a b, LifecycleInv (hooked cfg a b) (lifes xs) s.life := by
    intro xs s h
    obtain ⟨a, b, hl⟩ := service_life (C := TerminateAfterRun)
      (fun _ _ hC => orderly_after_run hC) h
    exact ⟨a, b, lifecycleInv_history hl⟩
  refine ⟨h.induction (P := fun xs s => ServiceInv xs s) ?_ ?_, hlife h⟩
  · intro s hi
    refine ⟨stage_initial hi, told_initial hi, ?_⟩
    exact fun hdone => absurd hi.life.done hdone
  · rintro xs s e t hxs ih ⟨hC, hs⟩
    obtain ⟨a, b, hl⟩ := hlife hxs
    exact serviceInv_step hs hC hl ih

/-! Where a step that tells of a thread is taken -/

theorem join_event_cases (thread : TecThread) :
    (join_event thread : ServiceEvent Cb α) = .other ∨
      ∃ t, (join_event thread : ServiceEvent Cb α) = .join t := by
  unfold join_event
  split
  · exact .inr ⟨_, rfl⟩
  · exact .inl rfl

/-- A join tells of none of the calls. -/
theorem join_not_called (thread : TecThread) :
    (join_event thread : ServiceEvent Cb α) ≠ .start_called ∧
      (join_event thread : ServiceEvent Cb α) ≠ .shutdown_called ∧
      (join_event thread : ServiceEvent Cb α) ≠ .service_create := by
  have hcases : (join_event thread : ServiceEvent Cb α) = .other ∨
      ∃ t, (join_event thread : ServiceEvent Cb α) = .join t := join_event_cases thread
  rcases hcases with h | ⟨t, h⟩ <;> simp [h]

/-- Where the two callers and the hook stand when they say so. -/
theorem called_step (hstep : ServiceStep S cfg s e t) :
    (e = .start_called → s.start = .created) ∧ (e = .shutdown_called → s.shutdown = .created) ∧
      (e = .service_create → s.hook = .init_create) := by
  have hjoin : ∀ thread, e = join_event thread →
      e ≠ .start_called ∧ e ≠ .shutdown_called ∧ e ≠ .service_create := by
    rintro thread rfl
    exact join_not_called thread
  cases hstep with
  | life hs hm hready => simp
  | init hs =>
    cases hs with
    | create hh => simp [hh]
    | join hh hj => simp [hjoin _ rfl]
    | _ => simp
  | exit hs =>
    cases hs with
    | join hh hj | join_service hh hj => simp [hjoin _ rfl]
    | _ => simp
  | start hs =>
    cases hs with
    | call hs => simp [hs]
    | act hs ha => simp
  | shutdown hs =>
    cases hs with
    | call hs => simp [hs]
    | act hs ha => simp
  | done hd hj hjoinable => simp [hjoin _ rfl]

theorem life_event_step {x : LifeEvent Cb} (hstep : ServiceStep S cfg s (.life x) t) :
    ∃ a b, LifeStep (hooked cfg a b) s.life x t.life := by
  rcases service_step_life hstep with ⟨y, a, b, hy, hs⟩ | ⟨hnone, _⟩
  · cases hy
    exact ⟨a, b, hs⟩
  · cases hnone

/-- The protocol between the callers of a service worker and its threads. -/
structure ServiceProtocol (xs : List (ServiceEvent Cb α)) : Prop where
  /-- There is one service thread at most, and `start` is invoked at most once. -/
  create_once : ∀ ys zs, xs = ys ++ .service_create :: zs → .service_create ∉ ys
  start_once : ∀ ys zs, xs = ys ++ .start_called :: zs → .start_called ∉ ys
  /-- `TecDaemon_run` returns 0 exactly when the service thread was created and `start` has
  reported 0. -/
  run_result : ∀ ys result zs, xs = ys ++ .life (.run_returned result) :: zs →
    (result = 0 ↔ .service_create ∈ ys ∧ (reports ys).getLast? = some 0)
  /-- `shutdown` is invoked at most once, after `start` has reported success and the loop of the
  worker has received NULL. -/
  shutdown_once : ∀ ys zs, xs = ys ++ .shutdown_called :: zs → .shutdown_called ∉ ys
  shutdown_after : ∀ ys zs, xs = ys ++ .shutdown_called :: zs →
    (reports ys).getLast? = some 0 ∧ .start .sig_started ∈ ys ∧ .life (.event (.pop none)) ∈ ys
  /-- When `sig_terminated` is set the service thread has ended and has been joined. -/
  terminated : ∀ ys zs, xs = ys ++ .life .terminated :: zs → .service_create ∈ ys →
    .start .return ∈ ys ∧ .join (some .service) ∈ ys

/-- What `TecDaemon_run` has returned, when it has returned. -/
theorem run_outcome {a b : Int} (hl : LifecycleInv (hooked cfg a b) (lifes xs) s.life)
    (h : ServiceInv xs s) (hr : s.life.worker.run = .returned r) :
    r = 0 ↔ .service_create ∈ xs ∧ (reports xs).getLast? = some 0 := by
  rw [h.told.created, h.told.reported]
  by_cases hw : s.life.worker.worker = .absent
  · have hne := (hl.control.create_failed r (hl.control.outcome r hr hw)).1
    have hfresh : s.Fresh := by
      have houtside := stage_outside h.stage hl.hook (hook_absent hw)
      rwa [hw] at houtside
    exact iff_of_false hne (fun hpresent => hpresent.1 hfresh.start)
  · obtain ⟨hin, hresult⟩ := hl.outcome.run r hr hw
    have hreturned := mem_lifes.mp ((hl.told.init a).mpr ⟨rfl, hin⟩)
    rw [hresult]
    exact h.told.init a hreturned

theorem service_protocol (h : ((serviceLts Cb S cfg).restrict Contract).History xs s) :
    ServiceProtocol xs := by
  refine ⟨?_, ?_, ?_, ?_, ?_, ?_⟩
  · rintro ys zs rfl hm
    obtain ⟨s₀, s₁, hys, ⟨_, hstep⟩, _⟩ := h.step_at
    obtain ⟨hinv, _⟩ := serviceInv_history hys
    have hstage := hinv.stage
    rw [(called_step hstep).2.2 rfl] at hstage
    exact hinv.told.created.mp hm hstage.2.start
  · rintro ys zs rfl hm
    obtain ⟨s₀, s₁, hys, ⟨_, hstep⟩, _⟩ := h.step_at
    obtain ⟨hinv, _⟩ := serviceInv_history hys
    have hpc := hinv.told.called.mp hm
    rw [(called_step hstep).1 rfl] at hpc
    rcases hpc with hpc | hpc <;> cases hpc
  · rintro ys result zs rfl
    obtain ⟨s₀, s₁, hys, hstep, _⟩ := h.step_at
    obtain ⟨hinv, a, b, hl⟩ := serviceInv_history (hys.snoc hstep)
    have hr := hl.control.returned result (mem_lifes.mpr List.mem_concat_self)
    have hquiet : (.life (.run_returned result) : ServiceEvent Cb α).Quiet := trivial
    have houtcome := run_outcome hl hinv hr
    rwa [mem_quiet hquiet id, reports_quiet hquiet] at houtcome
  · rintro ys zs rfl hm
    obtain ⟨s₀, s₁, hys, ⟨_, hstep⟩, _⟩ := h.step_at
    obtain ⟨hinv, _⟩ := serviceInv_history hys
    have hpc := hinv.told.shutdown.mp hm
    rw [(called_step hstep).2.1 rfl] at hpc
    rcases hpc with hpc | hpc <;> cases hpc
  · rintro ys zs rfl
    obtain ⟨s₀, s₁, hys, ⟨_, hstep⟩, _⟩ := h.step_at
    obtain ⟨hinv, _⟩ := serviceInv_history hys
    have hpresent : s₀.shutdown ≠ .absent := by
      rw [(called_step hstep).2.1 rfl]
      simp
    obtain ⟨hreported, hset, hpop⟩ := hinv.told.exit hpresent
    exact ⟨hinv.told.reported.trans hreported, (hinv.told.started hset).1, hpop⟩
  · rintro ys zs rfl hm
    obtain ⟨s₀, s₁, hys, ⟨_, hstep⟩, _⟩ := h.step_at
    obtain ⟨hinv, a, b, hl⟩ := serviceInv_history hys
    obtain ⟨a', b', hlife⟩ := life_event_step hstep
    have hw := (terminated_step hlife).1
    have hgone : s₀.Gone := by
      have houtside := stage_outside hinv.stage hl.hook
        (hook_other (by rw [hw]; simp) (by rw [hw]; simp))
      rwa [hw] at houtside
    have hpresent := hinv.told.created.mp hm
    exact ⟨hinv.told.returned (hgone.ended.resolve_left hpresent),
      hinv.told.joined hpresent hgone.unused⟩

/-- The default service, in a worker that is run and terminated, when the worker calls `on_exit`. -/
def atExit : ServiceState Nat (DefaultPc × DefaultPc) where
  life :=
    { worker := { TecWorker_init bareConfig with
        sig_running := true
        lock := true
        worker := .on_exit
        run := .returned 0
        terminate := Function.update (Function.update (fun _ => .idle) 0 .push) 0 .wait_terminated }
      worker_thread := ⟨0, some .worker⟩
      hook := true
      done := .idle }
  error := 0
  sig_started := true
  sig_stopped := false
  service_thread := ⟨0, some .service⟩
  exit_thread := ⟨0, none⟩
  hook := .exit_create
  start := .exited
  shutdown := .absent
  service := (.signalled, .entered)
  reported := some 0
  joined := false

theorem default_at_exit :
    ∃ xs, ((serviceLts Nat TecService_init_ bareConfig).restrict Contract).History xs atExit ∧
      .life (.run_returned 0) ∈ xs ∧ ∀ a, .shutdown a ∉ xs := by
  let start : ServiceState Nat (DefaultPc × DefaultPc) :=
    ⟨⟨TecWorker_init bareConfig, ⟨0, none⟩, false, .idle⟩, 0, false, false,
      TecThread_init ⟨0, none⟩, ⟨0, none⟩, .out, .absent, .absent, (.entered, .entered), none,
      false⟩
  have h0 : ((serviceLts Nat TecService_init_ bareConfig).restrict Contract).History [] start :=
    .init ⟨⟨rfl, rfl, rfl, rfl⟩, rfl, rfl, rfl, ⟨_, rfl⟩, rfl, rfl, rfl, rfl, rfl, rfl⟩
  have h1 := h0.snoc_restrict (.life (@LifeStep.run _ (hooked _ 0 0) _ _ _
    (.step (.lock rfl rfl)) rfl) (.other rfl) trivial) trivial
  have h2 := h1.snoc_restrict (.life (@LifeStep.run _ (hooked _ 0 0) _ _ _
    (.step (.create rfl)) rfl) (.other rfl) trivial) trivial
  have h3 := h2.snoc_restrict (.life (@LifeStep.worker _ (hooked _ 0 0) _ _ _
    (.on_init rfl rfl rfl) (.inl rfl)) .on_init_called trivial) trivial
  have h4 := h3.snoc_restrict (.init (.create rfl)) trivial
  have h5 := h4.snoc_restrict (.start (.call rfl)) trivial
  have h6 := h5.snoc_restrict (.start (.act rfl .error)) rfl
  have h7 := h6.snoc_restrict (.start (.act rfl .sig_started)) (Option.some_ne_none 0)
  have h8 := h7.snoc_restrict (.init (.wait_started rfl rfl)) trivial
  have h9 := h8.snoc_restrict (.init (.test rfl)) trivial
  have h10 := h9.snoc_restrict (.init (.read rfl)) trivial
  have h11 := h10.snoc_restrict (.life (@LifeStep.worker _ (hooked _ 0 0) _ _ _
    (.step (.on_init rfl) rfl) (.inl rfl)) .on_init_returned trivial) trivial
  have h12 := h11.snoc_restrict (.life (@LifeStep.worker _ (hooked _ 0 0) _ _ _
    (.step (.set_running rfl) rfl) (.inl rfl)) (.other rfl) trivial) trivial
  have h13 := h12.snoc_restrict (.life (@LifeStep.worker _ (hooked _ 0 0) _ _ _
    (.step (.test_error rfl) rfl) (.inl rfl)) (.other rfl) trivial) trivial
  have h14 := h13.snoc_restrict (.start (.act rfl .return)) trivial
  have h15 := h14.snoc_restrict (.life (@LifeStep.run _ (hooked _ 0 0) _ _ _
    (.step (.wait_running rfl rfl)) rfl) (.other rfl) trivial) trivial
  have h16 := h15.snoc_restrict (.life (@LifeStep.run _ (hooked _ 0 0) _ _ _
    (.step (.unlock rfl)) rfl) (.other rfl) trivial) trivial
  have h17 := h16.snoc_restrict (.life (@LifeStep.run _ (hooked _ 0 0) _ _ _
    (.step (.return rfl)) rfl) (.other rfl) trivial) trivial
  have h18 := h17.snoc_restrict (.life (@LifeStep.terminate _ (hooked _ 0 0) _ _ _ 0
    (.step (.lock rfl rfl)) rfl) (.other rfl) trivial) ⟨0, rfl⟩
  have h19 := h18.snoc_restrict (.life (@LifeStep.terminate _ (hooked _ 0 0) _ _ _ 0
    (.step (.push rfl)) rfl) (.other rfl) trivial) trivial
  have h20 := h19.snoc_restrict (.life (@LifeStep.worker _ (hooked _ 0 0) _ _ _
    (.step (.pop_null rfl rfl) rfl) (.inl rfl)) (.other rfl) trivial) trivial
  have h21 := h20.snoc_restrict (.life (@LifeStep.worker _ (hooked _ 0 0) _ _ _
    (.on_exit rfl rfl rfl) (.inl rfl)) .on_exit_called trivial) trivial
  refine ⟨_, h21, ?_, by simp⟩
  iterate 4 apply List.mem_append_left
  exact List.mem_concat_self

/-- The same service when its threads have ended. -/
def atEnd : ServiceState Nat (DefaultPc × DefaultPc) :=
  { atExit with
    life :=
      { worker := { atExit.life.worker with
          sig_terminated := true
          worker := .exited }
        worker_thread := ⟨0, some .worker⟩
        hook := false
        done := .idle }
    sig_stopped := true
    service_thread := ⟨TecThread_none, some .service⟩
    exit_thread := ⟨TecThread_none, some .exit⟩
    hook := .out
    shutdown := .exited
    service := (.signalled, .signalled) }

/-- `on_exit` of the default service, to the end of the worker thread. -/
theorem default_ended :
    ∃ ys zs, ((serviceLts Nat TecService_init_ bareConfig).restrict Contract).Run atExit
      (ys ++ .shutdown_called :: zs ++ [.life .terminated]) atEnd := by
  have r0 : ((serviceLts Nat TecService_init_ bareConfig).restrict Contract).Run atExit [] _ :=
    .refl
  have r1 := r0.snoc_restrict (.exit (.create rfl)) trivial
  have r2 := r1.snoc_restrict (.shutdown (.call rfl)) trivial
  have r3 := r2.snoc_restrict (.shutdown (.act rfl .sig_stopped)) trivial
  have r4 := r3.snoc_restrict (.shutdown (.act rfl .return)) trivial
  have r5 := r4.snoc_restrict (.exit (.join rfl rfl)) trivial
  have r6 := r5.snoc_restrict (.exit (.wait_stopped rfl rfl)) trivial
  have r7 := r6.snoc_restrict (.exit (.join_service rfl rfl)) trivial
  have r8 := r7.snoc_restrict (.exit (.read rfl)) trivial
  have r9 := r8.snoc_restrict (.life (@LifeStep.worker _ (hooked _ 0 0) _ _ _
    (.step (.on_exit rfl) rfl) (.inl rfl)) .on_exit_returned trivial) trivial
  have r10 := r9.snoc_restrict (.life (@LifeStep.worker _ (hooked _ 0 0) _ _ _
    (.step (.set_terminated rfl) rfl) (.inl rfl)) (.other rfl) trivial) trivial
  exact ⟨[.exit_create], _, r10⟩

/-- The service that reports success at once, in a worker that is run and terminated. -/
theorem service_protocol_default :
    ∃ (S : Service (DefaultPc × DefaultPc) Empty) (cfg : Config)
      (xs : List (ServiceEvent Nat Empty)) (s : ServiceState Nat (DefaultPc × DefaultPc)),
      ((serviceLts Nat S cfg).restrict Contract).History xs s ∧ ServiceProtocol xs ∧
        .life (.run_returned 0) ∈ xs ∧ .shutdown_called ∈ xs ∧ .life .terminated ∈ xs := by
  obtain ⟨xs, h, hrun, _⟩ := default_at_exit
  obtain ⟨ys, zs, hend⟩ := default_ended
  have hlife := h.run hend
  exact ⟨_, _, _, _, hlife, service_protocol hlife, List.mem_append_left _ hrun, by simp, by simp⟩

end Tecc.ServiceWorker
