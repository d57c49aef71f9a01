import Tecc.WorkerLife

/-! The order of the events in the life of a worker: initialization, dispatch, exit, and what
`TecDaemon_run` and `TecDaemon_terminate` return. -/
namespace Tecc.Worker

open Transition

variable {Cb : Type} {cfg : Config} {l l' : Life Cb} {e : LifeEvent Cb} {xs : List (LifeEvent Cb)}
  {s t : State Cb} {n : Nat}

/-- The result of the initialization, 0 without `on_init`. -/
def Config.init_result (cfg : Config) : Int := cfg.on_init.getD 0

/-- What `w->error` is in the end. -/
def Config.final_result (cfg : Config) : Int :=
  if cfg.init_result = 0 then cfg.on_exit.getD 0 else cfg.init_result

/-- The worker thread is behind its initialization. -/
def WorkerPc.Inited : WorkerPc → Prop
  | .absent | .on_init => False
  | _ => True

/-- The worker thread is behind `on_exit`. -/
def WorkerPc.Ended : WorkerPc → Prop
  | .set_terminated | .exited => True
  | _ => False

/-- The value of `w->error` follows the worker thread. -/
structure ErrorInv (cfg : Config) (s : State Cb) : Prop where
  fresh : ¬ s.worker.Inited → s.error = 0
  inited : s.worker.Inited → ¬ s.worker.Ended → s.error = cfg.init_result
  ended : s.worker.Ended → s.error = cfg.final_result

theorem run_hook_zero (hook : Option Int) : run_hook hook 0 = hook.getD 0 := by
  cases hook <;> rfl

theorem run_hook_of_ne {error : Int} (hook : Option Int) (h : error ≠ 0) :
    run_hook hook error = error := by
  cases hook with
  | none => rfl
  | some result => exact if_neg h

theorem loop_inited {pc : WorkerPc} (h : pc.Loop) : pc.Inited ∧ ¬ pc.Ended := by
  cases pc <;> first | exact ⟨trivial, id⟩ | exact h.elim

theorem errorInv_move (hm : WorkerMove cfg s t) (h : ErrorInv cfg s) : ErrorInv cfg t := by
  have hfresh := h.fresh
  have hinited := h.inited
  cases hm with
  | on_init hw hw' hquiet herror =>
    rw [hw] at hfresh
    rw [hfresh id, run_hook_zero] at herror
    exact ⟨fun hn => by rw [hw'] at hn; exact absurd trivial hn, fun _ _ => herror,
      fun he => by rw [hw'] at he; exact he.elim⟩
  | set_running hw hw' _ _ _ herror | enter hw hw' _ herror _ | skip hw hw' _ herror _
  | leave hw hw' _ _ _ herror =>
    rw [hw] at hinited
    exact ⟨fun hn => by rw [hw'] at hn; exact absurd trivial hn,
      fun _ _ => herror.trans (hinited trivial id), fun he => by rw [hw'] at he; exact he.elim⟩
  | loop hw hw' _ _ _ herror =>
    have hin := loop_inited hw
    have hin' := loop_inited hw'
    exact ⟨fun hn => absurd hin'.1 hn, fun _ _ => herror.trans (hinited hin.1 hin.2),
      fun he => absurd he hin'.2⟩
  | on_exit hw hw' hquiet herror =>
    rw [hw] at hinited
    rw [hinited trivial id] at herror
    refine ⟨fun hn => by rw [hw'] at hn; exact absurd trivial hn,
      fun _ hn => by rw [hw'] at hn; exact absurd trivial hn, fun _ => ?_⟩
    rw [herror, Config.final_result]
    by_cases hzero : cfg.init_result = 0
    · rw [if_pos hzero, hzero, run_hook_zero]
    · rw [if_neg hzero, run_hook_of_ne _ hzero]
  | set_terminated hw hw' _ _ _ herror =>
    refine ⟨fun hn => by rw [hw'] at hn; exact absurd trivial hn,
      fun _ hn => by rw [hw'] at hn; exact absurd trivial hn,
      fun _ => herror.trans (h.ended (by rw [hw]; trivial))⟩

theorem call_step_error {b : Event Cb} {c : Nat} (hs : CallStep c s b t) : t.error = s.error := by
  cases hs <;> rfl

theorem control_step_error {b : Event Cb} (hs : ControlStep cfg s b t) : t.error = s.error := by
  rcases hs with hs | ⟨n, hs⟩ | hs <;> cases hs <;> rfl

theorem errorInv_step {b : Event Cb} (hs : Step cfg s b t) (hcreated : Created s)
    (h : ErrorInv cfg s) : ErrorInv cfg t := by
  have hsame : t.worker = s.worker → t.error = s.error → ErrorInv cfg t := by
    intro hworker herror
    refine ⟨?_, ?_, ?_⟩
    · rw [hworker, herror]
      exact h.fresh
    · rw [hworker, herror]
      exact h.inited
    · rw [hworker, herror]
      exact h.ended
  rcases step_cases hs with hw | ⟨c, hc⟩ | hu
  · exact errorInv_move (worker_step_move hw) h
  · exact hsame (call_step_worker hc) (call_step_error hc)
  · have herror := control_step_error hu
    rcases control_step_worker hu with hw | ⟨hrun, hw⟩
    · exact hsame hw herror
    · have hzero : s.error = 0 := h.fresh (by rw [hcreated (.inr hrun)]; exact id)
      exact ⟨fun _ => herror.trans hzero, fun hin => by rw [hw] at hin; exact hin.elim,
        fun hend => by rw [hw] at hend; exact hend.elim⟩

/-- What the worker thread tells of its way. -/
def LifeEvent.ofWorker : LifeEvent Cb → Bool
  | .event (.dispatch _) | .on_init_returned _ | .running | .on_exit_called
  | .on_exit_returned _ => true
  | _ => false

theorem mem_snoc_of_ne {x : LifeEvent Cb} (h : x ≠ e) : x ∈ xs ++ [e] ↔ x ∈ xs := by
  rw [List.mem_append, List.mem_singleton]
  exact ⟨fun hx => hx.resolve_right h, .inl⟩

theorem mem_of_snoc {x : LifeEvent Cb} (hx : x ∈ xs ++ [e]) (h : x ≠ e) : x ∈ xs :=
  (mem_snoc_of_ne h).mp hx

theorem mem_snoc_self : e ∈ xs ++ [e] := List.mem_append_right _ List.mem_cons_self

/-- The worker thread has told what its position says. -/
structure WorkerTold (cfg : Config) (xs : List (LifeEvent Cb)) (l : Life Cb) : Prop where
  init : ∀ result, .on_init_returned result ∈ xs ↔
    cfg.on_init = some result ∧ l.worker.worker.Inited
  running : .running ∈ xs ↔ l.worker.worker.Running
  dispatch : ∀ msg, .event (.dispatch msg) ∈ xs → cfg.init_result = 0 ∧ l.worker.worker.Inited
  exit_called : .on_exit_called ∈ xs ↔ cfg.on_exit.isSome ∧ cfg.init_result = 0 ∧
    (l.worker.worker = .on_exit ∧ l.hook = true ∨ l.worker.worker.Ended)
  exit_returned : ∀ result, .on_exit_returned result ∈ xs ↔
    cfg.on_exit = some result ∧ cfg.init_result = 0 ∧ l.worker.worker.Ended

/-- A step that tells nothing of the worker thread and moves it within one of its phases. -/
theorem WorkerTold.of_other (h : WorkerTold cfg xs l)
    (he : ∀ x : LifeEvent Cb, x.ofWorker = true → x ∈ xs ++ [e] → x ∈ xs)
    (hinited : l'.worker.worker.Inited ↔ l.worker.worker.Inited)
    (hrunning : l'.worker.worker.Running ↔ l.worker.worker.Running)
    (hexit : (l'.worker.worker = .on_exit ∧ l'.hook = true ∨ l'.worker.worker.Ended) ↔
      (l.worker.worker = .on_exit ∧ l.hook = true ∨ l.worker.worker.Ended))
    (hended : l'.worker.worker.Ended ↔ l.worker.worker.Ended) :
    WorkerTold cfg (xs ++ [e]) l' := by
  have hmem : ∀ x : LifeEvent Cb, x.ofWorker = true → (x ∈ xs ++ [e] ↔ x ∈ xs) :=
    fun x hx => ⟨he x hx, List.mem_append_left _⟩
  refine ⟨?_, ?_, ?_, ?_, ?_⟩
  · intro result
    rw [hmem _ rfl, hinited]
    exact h.init result
  · rw [hmem _ rfl, hrunning]
    exact h.running
  · intro msg hmsg
    rw [hinited]
    exact h.dispatch msg (he _ rfl hmsg)
  · rw [hmem _ rfl, hexit]
    exact h.exit_called
  · intro result
    rw [hmem _ rfl, hended]
    exact h.exit_returned result

theorem not_mem_of_other (he : e.ofWorker = false) (x : LifeEvent Cb) (hx : x.ofWorker = true)
    (h : x ∈ xs ++ [e]) : x ∈ xs := by
  refine (mem_snoc_of_ne ?_).mp h
  rintro rfl
  cases he.symm.trans hx

theorem hook_on_init (hw : s.worker = .on_init) (herror : s.error = 0) :
    s.hook cfg = cfg.on_init := by
  simp [State.hook, hw, herror]

theorem hook_on_exit (hw : s.worker = .on_exit) (herror : s.error = cfg.init_result) :
    s.hook cfg = if cfg.init_result = 0 then cfg.on_exit else none := by
  simp [State.hook, hw, herror]

theorem hook_other (hinit : s.worker ≠ .on_init) (hexit : s.worker ≠ .on_exit) :
    s.hook cfg = none := by
  unfold State.hook
  split
  · cases hw : s.worker <;> first | rfl | exact absurd hw hinit | exact absurd hw hexit
  · rfl

theorem worker_step_dispatch {msg : TecMsg} (hs : WorkerStep cfg s (.dispatch msg) t) :
    s.worker = .dispatch msg := by
  cases hs <;> assumption

/-- Only the loop dispatches. -/
theorem event_ofWorker {b : Event Cb} (hs : WorkerStep cfg s b t)
    (hw : ∀ msg, s.worker ≠ .dispatch msg) : (LifeEvent.event b).ofWorker = false := by
  cases b with
  | dispatch msg => exact absurd (worker_step_dispatch hs) (hw msg)
  | _ => rfl

/-- A step that ends a hook tells the result of the hook, or nothing of the worker thread. -/
theorem mem_hook_label {b : Event Cb} {hook : Option Int} {returned : Int → LifeEvent Cb}
    {x : LifeEvent Cb} (hs : WorkerStep cfg l.worker b t)
    (hw : ∀ msg, l.worker.worker ≠ .dispatch msg)
    (hlabel : worker_label cfg l.worker b = hook.elim (.event b) returned)
    (hx : x.ofWorker = true) (hne : ∀ result, x ≠ returned result) :
    x ∈ xs ++ [worker_label cfg l.worker b] ↔ x ∈ xs := by
  refine mem_snoc_of_ne ?_
  rw [hlabel]
  cases hook with
  | some result => exact hne result
  | none =>
    rintro rfl
    cases (event_ofWorker hs hw).symm.trans hx

/-- The initialization is over, and `on_init` has told its result if there is one. -/
theorem told_on_init {b : Event Cb} (hs : WorkerStep cfg l.worker b t)
    (hw : l.worker.worker = .on_init) (hw' : t.worker = .set_running) (herror : l.worker.error = 0)
    (h : WorkerTold cfg xs l) :
    WorkerTold cfg (xs ++ [worker_label cfg l.worker b]) { l with worker := t, hook := false } := by
  have hhook : l.worker.hook cfg = cfg.on_init := hook_on_init hw herror
  have hinit := h.init
  have hrunning := h.running
  have hcalled := h.exit_called
  have hreturned := h.exit_returned
  have hdispatch := h.dispatch
  simp only [hw] at hinit hrunning hcalled hreturned hdispatch
  have hlabel : worker_label cfg l.worker b = cfg.on_init.elim (.event b) .on_init_returned := by
    cases hon : cfg.on_init <;> simp [worker_label, hw, hhook, hon]
  have hmem : ∀ x : LifeEvent Cb, x.ofWorker = true → (∀ result, x ≠ .on_init_returned result) →
      (x ∈ xs ++ [worker_label cfg l.worker b] ↔ x ∈ xs) := by
    intro x hx hne
    exact mem_hook_label hs (fun msg => by rw [hw]; exact WorkerPc.noConfusion) hlabel hx hne
  refine ⟨?_, ?_, ?_, ?_, ?_⟩
  · intro result
    simp only [hw', WorkerPc.Inited, and_true]
    have hfresh : .on_init_returned result ∉ xs := fun hm => ((hinit result).mp hm).2
    rw [List.mem_append, List.mem_singleton, hlabel]
    cases hon : cfg.on_init with
    | none => simp [hfresh]
    | some result' => simp [hfresh, eq_comm]
  · rw [hmem .running rfl (by simp), hrunning, hw']
    rfl
  · intro msg hmsg
    exact (hdispatch msg ((hmem (.event (.dispatch msg)) rfl (by simp)).mp hmsg)).2.elim
  · rw [hmem .on_exit_called rfl (by simp), hcalled, hw']
    simp [WorkerPc.Ended]
  · intro result
    rw [hmem (.on_exit_returned result) rfl (by simp), hreturned, hw']
    simp [WorkerPc.Ended]

/-- `on_exit` was called and has told its result, or it is skipped. -/
theorem told_on_exit {b : Event Cb} (hs : WorkerStep cfg l.worker b t)
    (hw : l.worker.worker = .on_exit) (hw' : t.worker = .set_terminated)
    (hin : l.hook = (l.worker.hook cfg).isSome)
    (herror : l.worker.error = cfg.init_result) (h : WorkerTold cfg xs l) :
    WorkerTold cfg (xs ++ [worker_label cfg l.worker b]) { l with worker := t, hook := false } := by
  have hhook := hook_on_exit hw herror
  have hinit := h.init
  have hrunning := h.running
  have hcalled := h.exit_called
  have hreturned := h.exit_returned
  have hdispatch := h.dispatch
  simp only [hw] at hinit hrunning hcalled hreturned hdispatch
  have hlabel : worker_label cfg l.worker b =
      (l.worker.hook cfg).elim (.event b) .on_exit_returned := by
    cases hon : l.worker.hook cfg <;> simp [worker_label, hw, hon]
  have hmem : ∀ x : LifeEvent Cb, x.ofWorker = true → (∀ result, x ≠ .on_exit_returned result) →
      (x ∈ xs ++ [worker_label cfg l.worker b] ↔ x ∈ xs) := by
    intro x hx hne
    exact mem_hook_label hs (fun msg => by rw [hw]; exact WorkerPc.noConfusion) hlabel hx hne
  refine ⟨?_, ?_, ?_, ?_, ?_⟩
  · intro result
    rw [hmem (.on_init_returned result) rfl (by simp), hinit, hw']
    rfl
  · rw [hmem .running rfl (by simp), hrunning, hw']
    rfl
  · intro msg hmsg
    exact ⟨(hdispatch msg ((hmem (.event (.dispatch msg)) rfl (by simp)).mp hmsg)).1,
      by rw [hw']; trivial⟩
  · rw [hmem .on_exit_called rfl (by simp), hcalled, hw', hin, hhook]
    by_cases hzero : cfg.init_result = 0 <;> simp [hzero, WorkerPc.Ended]
  · intro result
    simp only [hw', WorkerPc.Ended, and_true]
    have hfresh : .on_exit_returned result ∉ xs := fun hm => ((hreturned result).mp hm).2.2
    rw [List.mem_append, List.mem_singleton, hlabel, hhook]
    by_cases hzero : cfg.init_result = 0
    · rw [if_pos hzero]
      cases hon : cfg.on_exit with
      | none => simp [hfresh]
      | some result' => simp [hfresh, hzero, eq_comm]
    · simp [hfresh, hzero]

/-- The worker thread goes on in its loop. -/
theorem told_loop {b : Event Cb} (hs : WorkerStep cfg l.worker b t) (hw : l.worker.worker.Loop)
    (hw' : t.worker.Loop) (herror : l.worker.error = cfg.init_result) (hzero : l.worker.error = 0)
    (h : WorkerTold cfg xs l) :
    WorkerTold cfg (xs ++ [worker_label cfg l.worker b]) { l with worker := t, hook := false } := by
  have hlabel : worker_label cfg l.worker b = .event b := by
    unfold worker_label
    cases hpc : l.worker.worker <;> first | rfl | (rw [hpc] at hw; exact hw.elim)
  have hnot : ∀ pc : WorkerPc, pc.Loop → pc ≠ .on_exit := by
    rintro pc hpc rfl
    exact hpc
  have hmem : ∀ x : LifeEvent Cb, x.ofWorker = true → (∀ msg, x ≠ .event (.dispatch msg)) →
      (x ∈ xs ++ [worker_label cfg l.worker b] ↔ x ∈ xs) := by
    intro x hx hne
    refine mem_snoc_of_ne ?_
    rw [hlabel]
    rintro rfl
    cases b with
    | dispatch msg => exact hne msg rfl
    | _ => cases hx
  obtain ⟨hin, hend⟩ := loop_inited hw
  obtain ⟨hin', hend'⟩ := loop_inited hw'
  refine ⟨?_, ?_, ?_, ?_, ?_⟩
  · intro result
    rw [hmem (.on_init_returned result) rfl (by simp), h.init]
    simp only [hin, hin']
  · rw [hmem .running rfl (by simp), h.running]
    exact iff_of_true (loop_running hw) (loop_running hw')
  · intro msg _
    exact ⟨herror.symm.trans hzero, hin'⟩
  · rw [hmem .on_exit_called rfl (by simp), h.exit_called]
    simp [hnot _ hw, hnot _ hw', hend, hend']
  · intro result
    rw [hmem (.on_exit_returned result) rfl (by simp), h.exit_returned]
    simp [hend, hend']

theorem told_worker_step {b : Event Cb} (hs : WorkerStep cfg l.worker b t)
    (hin : l.hook = (l.worker.hook cfg).isSome) (herr : ErrorInv cfg l.worker)
    (hsig : SignalInv l.worker) (h : WorkerTold cfg xs l) :
    WorkerTold cfg (xs ++ [worker_label cfg l.worker b]) { l with worker := t, hook := false } := by
  have hquiet : (worker_label cfg l.worker b = .event b ∧
      (∀ msg, l.worker.worker ≠ .dispatch msg)) →
      ∀ x : LifeEvent Cb, x.ofWorker = true → x ∈ xs ++ [worker_label cfg l.worker b] → x ∈ xs := by
    rintro ⟨hlabel, hne⟩
    rw [hlabel]
    exact not_mem_of_other (event_ofWorker hs hne)
  cases worker_step_move hs with
  | on_init hw hw' _ herror => exact told_on_init hs hw hw' (herr.fresh (by rw [hw]; exact id)) h
  | set_running hw hw' hrunning hterminated hqueue herror =>
    have hlabel : worker_label cfg l.worker b = .running := by simp [worker_label, hw]
    rw [hlabel]
    have hmem : ∀ x : LifeEvent Cb, x ≠ .running → (x ∈ xs ++ [.running] ↔ x ∈ xs) :=
      fun x hx => mem_snoc_of_ne hx
    refine ⟨?_, ?_, ?_, ?_, ?_⟩
    · intro result
      rw [hmem (.on_init_returned result) (by simp), h.init, hw, hw']
      rfl
    · exact iff_of_true mem_snoc_self (by rw [hw']; trivial)
    · intro msg hmsg
      have hold := h.dispatch msg ((hmem (.event (.dispatch msg)) (by simp)).mp hmsg)
      exact ⟨hold.1, by rw [hw']; trivial⟩
    · rw [hmem .on_exit_called (by simp), h.exit_called, hw, hw']
      simp [WorkerPc.Ended]
    · intro result
      rw [hmem (.on_exit_returned result) (by simp), h.exit_returned, hw, hw']
      rfl
  | enter hw hw' _ _ _ | skip hw hw' _ _ _ | leave hw hw' _ _ _ _ =>
    have hlabel : worker_label cfg l.worker b = .event b := by simp [worker_label, hw]
    refine h.of_other (hquiet ⟨hlabel, fun msg => by rw [hw]; exact WorkerPc.noConfusion⟩)
      ?_ ?_ ?_ ?_
    all_goals simp [hw, hw', WorkerPc.Inited, WorkerPc.Running, WorkerPc.Ended]
  | loop hw hw' _ _ _ _ =>
    obtain ⟨hin', hend⟩ := loop_inited hw
    exact told_loop hs hw hw' (herr.inited hin' hend) (hsig.loop hw) h
  | on_exit hw hw' _ herror =>
    exact told_on_exit hs hw hw' hin (herr.inited (by rw [hw]; trivial) (by rw [hw]; exact id)) h
  | set_terminated hw hw' _ _ _ _ =>
    have hlabel : worker_label cfg l.worker b = .terminated := by simp [worker_label, hw]
    refine h.of_other (not_mem_of_other (by rw [hlabel]; rfl)) ?_ ?_ ?_ ?_
    all_goals simp [hw, hw', WorkerPc.Inited, WorkerPc.Running, WorkerPc.Ended]

/-- The worker thread is in a hook only where it calls one. -/
def HookInv (cfg : Config) (l : Life Cb) : Prop := l.hook = true → (l.worker.hook cfg).isSome

theorem hook_absent (hw : s.worker = .absent) : s.hook cfg = none :=
  hook_other (by rw [hw]; exact WorkerPc.noConfusion) (by rw [hw]; exact WorkerPc.noConfusion)

theorem hook_congr (hworker : t.worker = s.worker) (herror : t.error = s.error) :
    t.hook cfg = s.hook cfg := by
  rw [State.hook, State.hook, hworker, herror]

/-- The steps of a life that are not steps of the worker thread. -/
theorem life_step_cases (hs : LifeStep cfg l e l') :
    LifeWorkerStep cfg l e l' ∨
    ((e.ofWorker = false ∧ e ≠ .terminated ∧ e ≠ .on_init_called) ∧ l'.hook = l.hook ∧
      (l'.worker = l.worker ∨ ∃ b, (∃ c, CallStep c l.worker b l'.worker) ∨
        ControlStep cfg l.worker b l'.worker)) := by
  cases hs with
  | worker hs hd => exact .inl hs
  | run hs hd =>
    cases hs with
    | step hs =>
      refine .inr ⟨?_, rfl, .inr ⟨_, .inr (.inl hs)⟩⟩
      unfold run_label join_label
      split <;> try exact ⟨rfl, (by simp)⟩
      split <;> exact ⟨rfl, (by simp)⟩
  | terminate n hs hd =>
    cases hs with
    | step hs =>
      refine .inr ⟨?_, rfl, .inr ⟨_, .inr (.inr (.inl ⟨n, hs⟩))⟩⟩
      unfold terminate_label join_label
      split <;> try exact ⟨rfl, (by simp)⟩
      · split <;> exact ⟨rfl, (by simp)⟩
      · cases hs <;> exact ⟨rfl, (by simp)⟩
  | call c hs hd => exact .inr ⟨by cases hs <;> exact ⟨rfl, (by simp)⟩, rfl, .inr ⟨_, .inl ⟨c, hs⟩⟩⟩
  | user hs hd =>
    exact .inr ⟨by cases hs <;> exact ⟨rfl, (by simp)⟩, rfl, .inr ⟨_, .inr (.inr (.inr hs))⟩⟩
  | done hs => cases hs <;> exact .inr ⟨⟨rfl, (by simp)⟩, rfl, .inl rfl⟩

theorem hookInv_step (hs : LifeStep cfg l e l') (hcreated : Created l.worker)
    (h : HookInv cfg l) : HookInv cfg l' := by
  rcases life_step_cases hs with hs | ⟨_, hhook, hw | ⟨b, ⟨c, hc⟩ | hu⟩⟩
  · cases hs with
    | on_init hw hout hhook => exact fun _ => hhook
    | on_exit hw hout hhook => exact fun _ => hhook
    | step hs hin => exact nofun
  · rw [HookInv, hhook, hw]
    exact h
  · rw [HookInv, hhook, hook_congr (call_step_worker hc) (call_step_error hc)]
    exact h
  · intro hin
    rw [hhook] at hin
    have hsome := h hin
    rcases control_step_worker hu with hw | ⟨hrun, hw⟩
    · rw [hook_congr hw (control_step_error hu)]
      exact hsome
    · rw [hook_absent (hcreated (.inr hrun))] at hsome
      cases hsome

theorem told_life_step (hstep : LifeStep cfg l e l') (hcreated : Created l.worker)
    (herr : ErrorInv cfg l.worker) (hsig : SignalInv l.worker) (h : WorkerTold cfg xs l) :
    WorkerTold cfg (xs ++ [e]) l' := by
  rcases life_step_cases hstep with hs | ⟨⟨hother, _⟩, hhook, hw | ⟨b, ⟨c, hc⟩ | hu⟩⟩
  · cases hs with
    | on_init hw hout hhook =>
      refine h.of_other (not_mem_of_other rfl) Iff.rfl Iff.rfl ?_ Iff.rfl
      simp [hw]
    | on_exit hw hout hhook =>
      rw [hook_on_exit hw (herr.inited (by rw [hw]; trivial) (by rw [hw]; exact id))] at hhook
      have hmem : ∀ x : LifeEvent Cb, x ≠ .on_exit_called →
          (x ∈ xs ++ [.on_exit_called] ↔ x ∈ xs) :=
        fun x hx => mem_snoc_of_ne hx
      refine ⟨?_, ?_, ?_, ?_, ?_⟩
      · intro result
        rw [hmem (.on_init_returned result) (by simp)]
        exact h.init result
      · rw [hmem .running (by simp)]
        exact h.running
      · intro msg hmsg
        exact h.dispatch msg ((hmem (.event (.dispatch msg)) (by simp)).mp hmsg)
      · by_cases hzero : cfg.init_result = 0
        · rw [if_pos hzero] at hhook
          exact iff_of_true mem_snoc_self ⟨hhook, hzero, .inl ⟨hw, rfl⟩⟩
        · rw [if_neg hzero] at hhook
          cases hhook
      · intro result
        rw [hmem (.on_exit_returned result) (by simp)]
        exact h.exit_returned result
    | step hs hin => exact told_worker_step hs hin herr hsig h
  · exact h.of_other (not_mem_of_other hother) (by rw [hw]) (by rw [hw]) (by rw [hw, hhook])
      (by rw [hw])
  · have hw := call_step_worker hc
    exact h.of_other (not_mem_of_other hother) (by rw [hw]) (by rw [hw]) (by rw [hw, hhook])
      (by rw [hw])
  · rcases control_step_worker hu with hw | ⟨hrun, hw⟩
    · exact h.of_other (not_mem_of_other hother) (by rw [hw]) (by rw [hw]) (by rw [hw, hhook])
        (by rw [hw])
    · have habsent := hcreated (.inr hrun)
      refine h.of_other (not_mem_of_other hother) ?_ ?_ ?_ ?_
      all_goals simp [hw, habsent, WorkerPc.Inited, WorkerPc.Running, WorkerPc.Ended]

/-- What `TecDaemon_terminate` finds when it is called after `TecDaemon_run` has returned. -/
structure OutcomeInv (cfg : Config) (s : State Cb) : Prop where
  early : (∀ result, s.run ≠ .returned result) → ∀ n, s.terminate n = .idle
  quiet : (∀ n, s.terminate n = .idle) →
    none ∉ s.queue ∧ (cfg.init_result = 0 → ¬ s.worker.Left)
  run : ∀ result, s.run = .returned result → s.worker ≠ .absent →
    s.worker.Inited ∧ result = cfg.init_result
  read : ∀ n result, s.terminate n = .unlock result ∨ s.terminate n = .returned result →
    result = cfg.final_result

theorem ended_left {pc : WorkerPc} (h : pc.Ended) : pc.Left := by
  cases pc <;> trivial

/-- The worker thread leaves its loop only at a NULL. -/
theorem move_quiet (hm : WorkerMove cfg s t) (herr : ErrorInv cfg s)
    (h : none ∉ s.queue ∧ (cfg.init_result = 0 → ¬ s.worker.Left)) :
    none ∉ t.queue ∧ (cfg.init_result = 0 → ¬ t.worker.Left) := by
  obtain ⟨hqueue, hleft⟩ := h
  cases hm with
  | on_init hw hw' hquiet _ =>
    rw [hquiet.queue, hw']
    exact ⟨hqueue, fun _ => id⟩
  | set_running hw hw' _ _ hq _ =>
    rw [hq, hw']
    exact ⟨hqueue, fun _ => id⟩
  | enter hw hw' hquiet _ _ =>
    rw [hquiet.queue, hw']
    exact ⟨hqueue, fun _ => id⟩
  | skip hw hw' hquiet _ hzero =>
    rw [hquiet.queue]
    refine ⟨hqueue, fun hinit => absurd ?_ hzero⟩
    exact (herr.inited (by rw [hw]; trivial) (by rw [hw]; exact id)).trans hinit
  | loop hw hw' _ _ hq _ =>
    refine ⟨?_, fun _ => loop_not_left hw'⟩
    rcases hq with hq | ⟨msg, hq⟩
    · rw [hq]
      exact hqueue
    · rw [hq] at hqueue
      exact fun hmem => hqueue (List.mem_cons_of_mem _ hmem)
  | leave hw hw' _ _ hq _ =>
    rw [hq] at hqueue
    exact absurd List.mem_cons_self hqueue
  | on_exit hw hw' hquiet _ =>
    rw [hw] at hleft
    rw [hquiet.queue]
    exact ⟨hqueue, fun hinit => (hleft hinit trivial).elim⟩
  | set_terminated hw hw' _ _ hq _ =>
    rw [hw] at hleft
    rw [hq]
    exact ⟨hqueue, fun hinit => (hleft hinit trivial).elim⟩

theorem move_inited (hm : WorkerMove cfg s t) : t.worker.Inited := by
  cases hm with
  | loop hw hw' => exact (loop_inited hw').1
  | on_init hw hw' | set_running hw hw' | enter hw hw' | skip hw hw' | leave hw hw'
  | on_exit hw hw' | set_terminated hw hw' =>
    rw [hw']
    trivial

theorem outcomeInv_run_step {b : Event Cb} (hs : RunStep s b t) (hphase : PhaseInv s)
    (herr : ErrorInv cfg s) (h : OutcomeInv cfg s) : OutcomeInv cfg t := by
  have hterminate : t.terminate = s.terminate := by cases hs <;> rfl
  have hqueue : t.queue = s.queue := by cases hs <;> rfl
  have hnot : ∀ result, s.run ≠ .returned result := by
    intro result hr
    cases hs <;> simp_all
  refine ⟨?_, ?_, ?_, ?_⟩
  · rw [hterminate]
    exact fun _ => h.early hnot
  · rw [hterminate, hqueue]
    intro hidle
    refine ⟨(h.quiet hidle).1, ?_⟩
    cases hs with
    | create hr => exact fun _ => id
    | _ => exact (h.quiet hidle).2
  · intro result hr hw
    cases hs with
    | «return» hrun =>
      cases hr
      have hrunning := hphase.signal.running.mp (hphase.seen (by rw [hrun]; trivial))
      have hinited : s.worker.Inited := by
        cases hpc : s.worker <;> rw [hpc] at hrunning <;> trivial
      refine ⟨hinited, ?_⟩
      by_cases hend : s.worker.Ended
      · have hne : cfg.init_result ≠ 0 := by
          intro hzero
          exact (h.quiet (h.early hnot)).2 hzero (ended_left hend)
        exact (herr.ended hend).trans (if_neg hne)
      · exact herr.inited hinited hend
    | return_failed hrun => exact absurd (hphase.failed _ hrun).1 hw
    | wait_running hrun hsig => simp only at hr; split at hr <;> cases hr
    | _ => cases hr
  · rw [hterminate]
    exact h.read

theorem outcomeInv_terminate_step {b : Event Cb} (hs : TerminateStep n s b t)
    (hafter : s.terminate n = .idle → ∃ result, s.run = .returned result) (hphase : PhaseInv s)
    (herr : ErrorInv cfg s) (h : OutcomeInv cfg s) : OutcomeInv cfg t := by
  obtain ⟨hrun, hworker⟩ := terminate_step_same hs
  have hreturned : ∃ result, s.run = .returned result := by
    by_cases hidle : s.terminate n = .idle
    · exact hafter hidle
    · by_contra hnot
      exact hidle (h.early (fun result hr => hnot ⟨result, hr⟩) n)
  have hbusy : t.terminate n ≠ .idle := by
    cases hs <;> simp [State.setTerminate]
  refine ⟨?_, fun hidle => absurd (hidle n) hbusy, ?_, ?_⟩
  · rw [hrun]
    intro hnot
    obtain ⟨result, hr⟩ := hreturned
    exact absurd hr (hnot result)
  · rw [hrun, hworker]
    exact h.run
  · intro m result hm
    by_cases hmn : m = n
    · subst hmn
      cases hs with
      | read ht =>
        have hexited := hphase.signal.terminated.mp (hphase.ended m (by rw [ht]; trivial))
        have hfinal := herr.ended (by rw [hexited]; trivial)
        simp [State.setTerminate] at hm
        exact hm.symm.trans hfinal
      | unlock ht =>
        simp [State.setTerminate] at hm
        exact h.read m result (.inl (by rw [ht, hm]))
      | _ => simp [State.setTerminate] at hm
    · rw [terminate_step_other hs hmn] at hm
      exact h.read m result hm

theorem outcomeInv_step {b : Event Cb} (hs : Step cfg s b t)
    (hafter : ∀ n, s.terminate n = .idle → t.terminate n ≠ .idle →
      ∃ result, s.run = .returned result)
    (hphase : PhaseInv s) (herr : ErrorInv cfg s) (h : OutcomeInv cfg s) : OutcomeInv cfg t := by
  have hsame : t.run = s.run ∧ t.terminate = s.terminate ∧ t.lock = s.lock →
      t.worker = s.worker → (none ∈ t.queue → none ∈ s.queue) → OutcomeInv cfg t := by
    rintro ⟨hrun, hterminate, _⟩ hworker hqueue
    refine ⟨?_, ?_, ?_, ?_⟩
    · rw [hrun, hterminate]
      exact h.early
    · rw [hterminate, hworker]
      exact fun hidle => ⟨fun hmem => (h.quiet hidle).1 (hqueue hmem), (h.quiet hidle).2⟩
    · rw [hrun, hworker]
      exact h.run
    · rw [hterminate]
      exact h.read
  cases hs with
  | worker hs =>
    obtain ⟨hrun, hterminate, _⟩ := worker_step_control hs
    have hm := worker_step_move hs
    refine ⟨?_, ?_, ?_, ?_⟩
    · rw [hrun, hterminate]
      exact h.early
    · rw [hterminate]
      exact fun hidle => move_quiet hm herr (h.quiet hidle)
    · rw [hrun]
      intro result hr _
      obtain ⟨_, hresult⟩ := h.run result hr (move_present hm).1
      exact ⟨move_inited hm, hresult⟩
    · rw [hterminate]
      exact h.read
  | call c hs =>
    refine hsame (call_step_control hs) (call_step_worker hs) ?_
    cases hs with
    | push hc =>
      intro hmem
      simpa using hmem
    | _ => exact id
  | run hs => exact outcomeInv_run_step hs hphase herr h
  | terminate n hs =>
    refine outcomeInv_terminate_step hs (fun hidle => hafter n hidle ?_) hphase herr h
    cases hs <;> simp [State.setTerminate]
  | user hs =>
    refine hsame (user_step_control hs) (by cases hs <;> rfl) ?_
    cases hs with
    | register => exact id
    | send htag =>
      intro hmem
      simpa using hmem

/-- The callers of `TecDaemon_run` and `TecDaemon_terminate` have told what their positions say. -/
structure ControlTold (xs : List (LifeEvent Cb)) (l : Life Cb) : Prop where
  create : .create ∈ xs → l.worker.worker ≠ .absent
  create_failed : ∀ result, .create_failed result ∈ xs → result ≠ 0 ∧
    l.worker.worker = .absent ∧
    (l.worker.run = .create_failed result ∨ l.worker.run = .returned result)
  failed : ∀ result, l.worker.run = .create_failed result → .create_failed result ∈ xs
  outcome : ∀ result, l.worker.run = .returned result → l.worker.worker = .absent →
    .create_failed result ∈ xs
  returned : ∀ result, .run_returned result ∈ xs → l.worker.run = .returned result
  terminate : ∀ n result, .terminate_returned n result ∈ xs →
    l.worker.terminate n = .returned result

def LifeEvent.ofControl : LifeEvent Cb → Bool
  | .create | .create_failed _ | .run_returned _ | .terminate_returned _ _ => true
  | _ => false

theorem ControlTold.of_other (h : ControlTold xs l) (he : e.ofControl = false)
    (hrun : ∀ result, l'.worker.run = .create_failed result ∨ l'.worker.run = .returned result ↔
      l.worker.run = .create_failed result ∨ l.worker.run = .returned result)
    (hreturned : ∀ result, l'.worker.run = .returned result ↔ l.worker.run = .returned result)
    (hterminate : ∀ n result, l.worker.terminate n = .returned result →
      l'.worker.terminate n = .returned result)
    (hworker : l'.worker.worker = .absent ↔ l.worker.worker = .absent) :
    ControlTold (xs ++ [e]) l' := by
  have hmem : ∀ x : LifeEvent Cb, x.ofControl = true → (x ∈ xs ++ [e] ↔ x ∈ xs) := by
    intro x hx
    refine mem_snoc_of_ne ?_
    rintro rfl
    cases he.symm.trans hx
  refine ⟨?_, ?_, ?_, ?_, ?_, ?_⟩
  · rw [hmem .create rfl, Ne, hworker]
    exact h.create
  · intro result
    rw [hmem (.create_failed result) rfl, hworker, hrun]
    exact h.create_failed result
  · intro result hfailed
    rw [hmem (.create_failed result) rfl]
    rcases (hrun result).mp (.inl hfailed) with hold | hold
    · exact h.failed result hold
    · rw [(hreturned result).mpr hold] at hfailed
      cases hfailed
  · intro result
    rw [hmem (.create_failed result) rfl, hworker, hreturned]
    exact h.outcome result
  · intro result
    rw [hmem (.run_returned result) rfl, hreturned]
    exact h.returned result
  · intro n result
    rw [hmem (.terminate_returned n result) rfl]
    exact fun hmem => hterminate n result (h.terminate n result hmem)

theorem join_label_ofControl (thread : TecThread) :
    (join_label thread : LifeEvent Cb).ofControl = false := by
  unfold join_label
  split <;> rfl

theorem controlTold_run_step {b : Event Cb} (hs : RunStep l.worker b t) (hphase : PhaseInv l.worker)
    (thread : TecThread) (h : ControlTold xs l) :
    ControlTold (xs ++ [run_label l.worker_thread l.worker t])
      { l with worker := t, worker_thread := thread } := by
  have hterminate : t.terminate = l.worker.terminate := by cases hs <;> rfl
  have hnot : ∀ result, .create_failed result ∈ xs →
      l.worker.run = .create_failed result ∨ l.worker.run = .returned result :=
    fun result hm => (h.create_failed result hm).2.2
  have hreturned := h.returned
  have hfresh : l.worker.run = .create ∨ l.worker.run.Seen →
      (∀ result, .create_failed result ∉ xs) ∧ ∀ result, .run_returned result ∉ xs := by
    intro hr
    refine ⟨fun result hm => ?_, fun result hm => ?_⟩
    · rcases hr with hr | hr <;> rcases hnot result hm with hold | hold <;> rw [hold] at hr <;>
        cases hr
    · rcases hr with hr | hr <;> rw [hreturned result hm] at hr <;> cases hr
  have hseen : l.worker.run.Seen → l.worker.worker ≠ .absent := by
    intro hr habsent
    have hrunning := hphase.signal.running.mp (hphase.seen hr)
    rw [habsent] at hrunning
    exact hrunning
  cases hs with
  | lock hr hl =>
    have hlabel : run_label l.worker_thread l.worker
        { l.worker with lock := true, run := .create } = .event .other := by simp [run_label, hr]
    exact h.of_other (by rw [hlabel]; rfl) (by simp [hr]) (by simp [hr]) (fun _ _ ht => ht) Iff.rfl
  | create hr =>
    have hlabel : run_label l.worker_thread l.worker
        { l.worker with worker := .on_init, run := .wait_running } = .create := by
      simp [run_label, hr]
    obtain ⟨hnofail, hnoreturn⟩ := hfresh (.inl hr)
    rw [hlabel]
    refine ⟨fun _ => WorkerPc.noConfusion, ?_, (by simp), (by simp), ?_, ?_⟩
    · intro result hm
      exact absurd (mem_of_snoc hm (by simp)) (hnofail result)
    · intro result hm
      exact absurd (mem_of_snoc hm (by simp)) (hnoreturn result)
    · intro n result hm
      exact h.terminate n result (mem_of_snoc hm (by simp))
  | @create_failed result hr hresult =>
    have hlabel : run_label l.worker_thread l.worker
        { l.worker with run := .create_failed result } = .create_failed result := by
      simp [run_label, hr]
    obtain ⟨hnofail, hnoreturn⟩ := hfresh (.inl hr)
    rw [hlabel]
    refine ⟨?_, ?_, ?_, (by simp), ?_, ?_⟩
    · exact fun hm => h.create (mem_of_snoc hm (by simp))
    · intro result' hm
      rcases List.mem_append.mp hm with hm | hm
      · exact absurd hm (hnofail result')
      · cases List.mem_singleton.mp hm
        exact ⟨hresult, hphase.created (.inr hr), .inl rfl⟩
    · intro result' hfailed
      cases hfailed
      exact mem_snoc_self
    · intro result' hm
      exact absurd (mem_of_snoc hm (by simp)) (hnoreturn result')
    · intro n result' hm
      exact h.terminate n result' (mem_of_snoc hm (by simp))
  | wait_running hr hsig =>
    by_cases herror : l.worker.error = 0
    · have hlabel : run_label l.worker_thread l.worker
          { l.worker with run := if l.worker.error = 0 then .unlock else .join } =
            .event .other := by simp [run_label, hr, herror]
      exact h.of_other (by rw [hlabel]; rfl) (by simp [hr, herror]) (by simp [hr, herror])
        (fun _ _ ht => ht) Iff.rfl
    · have hlabel : run_label l.worker_thread l.worker
          { l.worker with run := if l.worker.error = 0 then .unlock else .join } =
            .event .other := by simp [run_label, hr, herror]
      exact h.of_other (by rw [hlabel]; rfl) (by simp [hr, herror]) (by simp [hr, herror])
        (fun _ _ ht => ht) Iff.rfl
  | join hr hw =>
    have hlabel : run_label l.worker_thread l.worker { l.worker with run := .unlock } =
        join_label l.worker_thread := by simp [run_label, hr]
    exact h.of_other (by rw [hlabel]; exact join_label_ofControl _) (by simp [hr]) (by simp [hr])
      (fun _ _ ht => ht) Iff.rfl
  | unlock hr =>
    have hlabel : run_label l.worker_thread l.worker
        { l.worker with lock := false, run := .return } = .event .other := by
      simp [run_label, hr]
    exact h.of_other (by rw [hlabel]; rfl) (by simp [hr]) (by simp [hr]) (fun _ _ ht => ht) Iff.rfl
  | «return» hr =>
    have hlabel : run_label l.worker_thread l.worker
        { l.worker with run := .returned l.worker.error } = .run_returned l.worker.error := by
      simp [run_label, hr]
    have hin : l.worker.run.Seen := by rw [hr]; trivial
    obtain ⟨hnofail, hnoreturn⟩ := hfresh (.inr hin)
    rw [hlabel]
    refine ⟨fun _ => hseen hin, ?_, (by simp), fun _ _ habsent => absurd habsent (hseen hin),
      ?_, ?_⟩
    · intro result hm
      exact absurd (mem_of_snoc hm (by simp)) (hnofail result)
    · intro result hm
      rcases List.mem_append.mp hm with hm | hm
      · exact absurd hm (hnoreturn result)
      · cases List.mem_singleton.mp hm
        rfl
    · intro n result hm
      exact h.terminate n result (mem_of_snoc hm (by simp))
  | @return_failed result hr =>
    have hlabel : run_label l.worker_thread l.worker
        { l.worker with lock := false, run := .returned result } = .run_returned result := by
      simp [run_label, hr]
    obtain ⟨habsent, hresult⟩ := hphase.failed result hr
    rw [hlabel]
    refine ⟨?_, ?_, (by simp), ?_, ?_, ?_⟩
    · exact fun hm => h.create (mem_of_snoc hm (by simp))
    · intro result' hm
      have hold := mem_of_snoc hm (by simp)
      rcases hnot result' hold with hrun | hrun
      · cases hr.symm.trans hrun
        exact ⟨hresult, habsent, .inr rfl⟩
      · cases hr.symm.trans hrun
    · intro result' hrun _
      cases hrun
      exact List.mem_append_left _ (h.failed result hr)
    · intro result' hm
      rcases List.mem_append.mp hm with hm | hm
      · cases hr.symm.trans (hreturned result' hm)
      · cases List.mem_singleton.mp hm
        rfl
    · intro n result' hm
      exact h.terminate n result' (mem_of_snoc hm (by simp))

theorem controlTold_terminate_step {b : Event Cb} (hs : TerminateStep n l.worker b t)
    (thread : TecThread) (h : ControlTold xs l) :
    ControlTold (xs ++ [terminate_label n l.worker_thread l.worker b t])
      { l with worker := t, worker_thread := thread } := by
  obtain ⟨hrun, hworker⟩ := terminate_step_same hs
  have hkept : ∀ m result, l.worker.terminate m = .returned result →
      t.terminate m = .returned result := by
    intro m result hm
    have hmn : m ≠ n := by
      rintro rfl
      cases hs <;> simp_all
    rw [terminate_step_other hs hmn]
    exact hm
  have hother : (terminate_label n l.worker_thread l.worker b t).ofControl = false →
      ControlTold (xs ++ [terminate_label n l.worker_thread l.worker b t])
        { l with worker := t, worker_thread := thread } :=
    fun he => h.of_other he (by simp [hrun]) (by simp [hrun]) hkept (by simp [hworker])
  cases hs with
  | @unlock result ht =>
    have hlabel : terminate_label n l.worker_thread l.worker .other
        { l.worker.setTerminate n (.returned result) with lock := false } =
          .terminate_returned n result := by
      simp [terminate_label, ht, State.setTerminate]
    rw [hlabel]
    refine ⟨?_, ?_, ?_, ?_, ?_, ?_⟩
    · exact fun hm => h.create (mem_of_snoc hm (by simp))
    · exact fun result' hm => h.create_failed result' (mem_of_snoc hm (by simp))
    · exact fun result' hr => List.mem_append_left _ (h.failed result' hr)
    · exact fun result' hr hw => List.mem_append_left _ (h.outcome result' hr hw)
    · exact fun result' hm => h.returned result' (mem_of_snoc hm (by simp))
    · intro m result' hm
      rcases List.mem_append.mp hm with hm | hm
      · exact hkept m result' (h.terminate m result' hm)
      · cases List.mem_singleton.mp hm
        exact Function.update_self _ _ _
  | join ht hw =>
    refine hother ?_
    simp [terminate_label, ht, join_label_ofControl]
  | lock ht _ | push ht | wait_terminated ht _ | read ht =>
    refine hother ?_
    simp [terminate_label, ht, State.setTerminate, LifeEvent.ofControl]

theorem controlTold_step (hstep : LifeStep cfg l e l') (hphase : PhaseInv l.worker)
    (h : ControlTold xs l) : ControlTold (xs ++ [e]) l' := by
  cases hstep with
  | run hs hd =>
    cases hs with
    | step hs => exact controlTold_run_step hs hphase _ h
  | terminate n hs hd =>
    cases hs with
    | step hs => exact controlTold_terminate_step hs _ h
  | worker hs hd =>
    cases hs with
    | on_init hw hout hhook =>
      exact h.of_other rfl (fun _ => Iff.rfl) (fun _ => Iff.rfl) (fun _ _ ht => ht) Iff.rfl
    | on_exit hw hout hhook =>
      exact h.of_other rfl (fun _ => Iff.rfl) (fun _ => Iff.rfl) (fun _ _ ht => ht) Iff.rfl
    | step hs hin =>
      obtain ⟨hrun, hterminate, _⟩ := worker_step_control hs
      obtain ⟨hpresent, hpresent'⟩ := move_present (worker_step_move hs)
      refine h.of_other ?_ (by simp [hrun]) (by simp [hrun]) (by simp [hterminate])
        (iff_of_false hpresent' hpresent)
      unfold worker_label
      split <;> rfl
  | call c hs hd =>
    obtain ⟨hrun, hterminate, _⟩ := call_step_control hs
    exact h.of_other rfl (by simp [hrun]) (by simp [hrun]) (by simp [hterminate])
      (by rw [call_step_worker hs])
  | user hs hd =>
    obtain ⟨hrun, hterminate, _⟩ := user_step_control hs
    exact h.of_other rfl (by simp [hrun]) (by simp [hrun]) (by simp [hterminate])
      (by cases hs <;> rfl)
  | done hs =>
    cases hs <;>
      exact h.of_other rfl (fun _ => Iff.rfl) (fun _ => Iff.rfl) (fun _ _ ht => ht) Iff.rfl

theorem controlTold_initial (hi : LifeInitial cfg l) : ControlTold [] l := by
  obtain ⟨worker, thread, hook, done⟩ := l
  obtain ⟨rfl, _, rfl, rfl⟩ := hi
  have hnone : ∀ x : LifeEvent Cb, x ∉ ([] : List (LifeEvent Cb)) := fun _ hx => by cases hx
  exact ⟨fun hm => absurd hm (hnone _), fun _ hm => absurd hm (hnone _), nofun, nofun,
    fun _ hm => absurd hm (hnone _), fun _ _ hm => absurd hm (hnone _)⟩

theorem controlTold_history (h : (lifeLts Cb cfg).History xs l) : ControlTold xs l := by
  refine h.induction (P := fun xs l => ControlTold xs l) ?_ ?_
  · exact fun l hi => controlTold_initial hi
  · exact fun xs l e l' hhist ih hs => controlTold_step hs (life_control hhist).1 ih

theorem workerTold_initial (hi : LifeInitial cfg l) :
    ErrorInv cfg l.worker ∧ WorkerTold cfg [] l := by
  obtain ⟨worker, thread, hook, done⟩ := l
  obtain ⟨rfl, _, rfl, rfl⟩ := hi
  have hnone : ∀ x : LifeEvent Cb, x ∉ ([] : List (LifeEvent Cb)) := fun _ hx => by cases hx
  refine ⟨⟨fun _ => rfl, fun hin => hin.elim, fun hend => hend.elim⟩, ⟨?_, ?_, ?_, ?_, ?_⟩⟩
  · exact fun result => iff_of_false (hnone _) fun hin => hin.2
  · exact iff_of_false (hnone _) id
  · exact fun msg hm => absurd hm (hnone _)
  · refine iff_of_false (hnone _) ?_
    rintro ⟨_, _, ⟨hw, _⟩ | hend⟩
    · cases hw
    · exact hend
  · exact fun result => iff_of_false (hnone _) fun hend => hend.2.2

theorem errorInv_life_step (hs : LifeStep cfg l e l') (hcreated : Created l.worker)
    (h : ErrorInv cfg l.worker) : ErrorInv cfg l'.worker := by
  rcases life_step_worker hs with ⟨b, _, hstep⟩ | ⟨_, hw⟩
  · exact errorInv_step hstep hcreated h
  · rw [hw]
    exact h

theorem workerTold_history (h : (lifeLts Cb cfg).History xs l) :
    ErrorInv cfg l.worker ∧ WorkerTold cfg xs l := by
  refine h.induction (P := fun xs l => ErrorInv cfg l.worker ∧ WorkerTold cfg xs l) ?_ ?_
  · exact fun l hi => workerTold_initial hi
  · rintro xs l e l' hhist ⟨herror, htold⟩ hs
    have hphase := (life_control hhist).1
    exact ⟨errorInv_life_step hs hphase.created herror,
      told_life_step hs hphase.created herror hphase.signal htold⟩

/-- `TecDaemon_terminate` takes the lock only when `TecDaemon_run` has returned. -/
def TerminateAfterRun (l : Life Cb) : LifeEvent Cb → Prop
  | .terminate_called _ => ∃ result, l.worker.run = .returned result
  | _ => True

/-- What holds of a worker along its life, and of what it has told. -/
structure LifecycleInv (cfg : Config) (xs : List (LifeEvent Cb)) (l : Life Cb) : Prop where
  phase : PhaseInv l.worker
  error : ErrorInv cfg l.worker
  hook : HookInv cfg l
  told : WorkerTold cfg xs l
  control : ControlTold xs l
  outcome : OutcomeInv cfg l.worker

theorem terminate_called_of (hs : LifeStep cfg l e l')
    (hafter : TerminateAfterRun l e) (hidle : l.worker.terminate n = .idle)
    (hbusy : l'.worker.terminate n ≠ .idle) : ∃ result, l.worker.run = .returned result := by
  have hsame : l'.worker.terminate = l.worker.terminate → False :=
    fun h => hbusy ((congrFun h n).trans hidle)
  cases hs with
  | worker hs hd =>
    cases hs with
    | step hs hin => exact (hsame (worker_step_control hs).2.1).elim
    | _ => exact (hsame rfl).elim
  | run hs hd =>
    cases hs with
    | step hs => exact (hsame (by cases hs <;> rfl)).elim
  | terminate m hs hd =>
    cases hs with
    | step hs =>
      by_cases hm : n = m
      · subst hm
        have hlabel : ∀ b t, (terminate_label n l.worker_thread l.worker b t : LifeEvent Cb) =
            .terminate_called n := by
          intro b t
          simp [terminate_label, hidle]
        rw [hlabel] at hafter
        exact hafter
      · exact absurd ((terminate_step_other hs hm).trans hidle) hbusy
  | call c hs hd => exact (hsame (call_step_control hs).2.1).elim
  | user hs hd => exact (hsame (user_step_control hs).2.1).elim
  | done hs => exact (hsame (by cases hs <;> rfl)).elim

theorem lifecycleInv_initial (hi : LifeInitial cfg l) : LifecycleInv cfg [] l := by
  have hcontrol := controlTold_initial hi
  obtain ⟨herror, htold⟩ := workerTold_initial hi
  obtain ⟨worker, thread, hook, done⟩ := l
  obtain ⟨rfl, _, rfl, rfl⟩ := hi
  refine ⟨phaseInv_initial, herror, nofun, htold, hcontrol, ⟨fun _ _ => rfl, ?_, nofun, ?_⟩⟩
  · exact fun _ => ⟨(by cases ·), fun _ => id⟩
  · intro n result hm
    rcases hm with hm | hm <;> cases hm

theorem lifecycleInv_history
    (h : ((lifeLts Cb cfg).restrict TerminateAfterRun).History xs l) : LifecycleInv cfg xs l := by
  refine h.induction (P := fun xs l => LifecycleInv cfg xs l) ?_ ?_
  · exact fun l hi => lifecycleInv_initial hi
  · rintro xs l e l' _ ⟨hphase, herror, hhook, htold, hcontrol, houtcome⟩ ⟨hafter, hs⟩
    have hbase := life_step_worker hs
    refine ⟨?_, errorInv_life_step hs hphase.created herror, hookInv_step hs hphase.created hhook,
      told_life_step hs hphase.created herror hphase.signal htold,
      controlTold_step hs hphase hcontrol, ?_⟩
    · rcases hbase with ⟨b, _, hstep⟩ | ⟨_, hw⟩
      · exact phaseInv_step hstep hphase
      · rw [hw]
        exact hphase
    · rcases hbase with ⟨b, _, hstep⟩ | ⟨_, hw⟩
      · exact outcomeInv_step hstep (fun n => terminate_called_of hs hafter) hphase herror houtcome
      · rw [hw]
        exact houtcome

/-- The run failed: there is no thread, or `on_init` has returned an error. -/
def Failed (xs : List (LifeEvent Cb)) : Prop :=
  (∃ result, .create_failed result ∈ xs) ∨ ∃ result, result ≠ 0 ∧ .on_init_returned result ∈ xs

/-- The order of events in the life of a worker. -/
structure Lifecycle (cfg : Config) (xs : List (LifeEvent Cb)) : Prop where
  /-- No message is dispatched before `on_init` has returned 0. -/
  dispatch_after_init : ∀ ys msg zs, xs = ys ++ .event (.dispatch msg) :: zs →
    cfg.on_init.isSome → .on_init_returned 0 ∈ ys
  /-- `TecDaemon_run` returns after `sig_running` is set, if there is a thread. -/
  return_after_running : ∀ ys result zs, xs = ys ++ .run_returned result :: zs →
    .create ∈ ys → .running ∈ ys
  /-- It returns an error exactly when the run has failed. -/
  run_result : ∀ result, .run_returned result ∈ xs → (result ≠ 0 ↔ Failed xs)
  /-- Nothing is dispatched by a worker whose run has failed, and `on_exit` is not called. -/
  failed_silent : Failed xs → (∀ msg, .event (.dispatch msg) ∉ xs) ∧ .on_exit_called ∉ xs
  /-- `on_exit` is called once, after the last dispatch. -/
  exit_last : ∀ ys zs, xs = ys ++ .on_exit_called :: zs →
    .on_exit_called ∉ zs ∧ ∀ msg, .event (.dispatch msg) ∉ zs
  /-- `sig_terminated` is set when `on_exit` has returned, if it is called at all. -/
  terminated_after_exit : ∀ ys zs, xs = ys ++ .terminated :: zs →
    .on_exit_called ∉ zs ∧ (.on_exit_called ∈ ys → ∃ result, .on_exit_returned result ∈ ys)
  /-- `TecDaemon_terminate` returns the error of `on_init` if there is one, otherwise the result
  of `on_exit`, or 0 without `on_exit`. -/
  terminate_result : ∀ n result, .terminate_returned n result ∈ xs →
    (result ≠ 0 ∧ .on_init_returned result ∈ xs) ∨
      (∀ error, .on_init_returned error ∈ xs → error = 0) ∧
        (.on_exit_returned result ∈ xs ∨ cfg.on_exit = none ∧ result = 0)

theorem dispatch_life_step {msg : TecMsg} (hs : LifeStep cfg l (.event (.dispatch msg)) l') :
    l.worker.worker = .dispatch msg := by
  rcases life_step_worker hs with ⟨b, hb, hstep⟩ | ⟨hb, _⟩
  · cases hb
    rcases step_cases hstep with hw | ⟨c, hc⟩ | hu
    · exact worker_step_dispatch hw
    · cases hc
    · rcases hu with hu | ⟨n, hu⟩ | hu <;> cases hu
  · cases hb

theorem on_exit_called_step (hstep : LifeStep cfg l .on_exit_called l') :
    l.worker.worker = .on_exit ∧ l.hook = false := by
  rcases life_step_cases hstep with hstep | ⟨⟨hother, _⟩, _⟩
  · generalize he : (LifeEvent.on_exit_called : LifeEvent Cb) = e at hstep
    cases hstep with
    | on_init hw hout hhook => cases he
    | on_exit hw hout hhook => exact ⟨hw, hout⟩
    | step hs hin =>
      have hbase := worker_label_base hs
      rw [← he] at hbase
      cases hbase
  · cases hother

theorem terminated_step (hstep : LifeStep cfg l .terminated l') :
    l.worker.worker = .set_terminated ∧ l'.worker.worker = .exited := by
  rcases life_step_cases hstep with hstep | ⟨⟨_, hne, _⟩, _⟩
  · generalize he : (LifeEvent.terminated : LifeEvent Cb) = e at hstep
    cases hstep with
    | on_init hw hout hhook => cases he
    | on_exit hw hout hhook => cases he
    | step hs hin =>
      have hw : l.worker.worker = .set_terminated := by
        unfold worker_label at he
        split at he <;> first | assumption | cases he
      cases worker_step_move hs with
      | set_terminated _ hw' => exact ⟨hw, hw'⟩
      | loop hloop =>
        rw [hw] at hloop
        exact hloop.elim
      | on_init hother | set_running hother | enter hother | skip hother | leave hother
      | on_exit hother => cases hother.symm.trans hw
  · exact absurd rfl hne

/-- The worker thread does not come back. -/
theorem exited_life_run {ys : List (LifeEvent Cb)} (h : (lifeLts Cb cfg).Run l ys l')
    (hw : l.worker.worker = .exited) (hcreated : Created l.worker) :
    l'.worker.worker = .exited := by
  refine (h.stable (P := fun l => l.worker.worker = .exited ∧ Created l.worker) ?_ ⟨hw, hcreated⟩).1
  rintro l e l' ⟨hw, hcreated⟩ hs
  rcases life_step_worker hs with ⟨b, _, hstep⟩ | ⟨_, hsame⟩
  · rcases step_cases hstep with hs | ⟨c, hc⟩ | hu
    · exact absurd hw (worker_step_exited hs)
    · exact ⟨(call_step_worker hc).trans hw, created_call_step hc hcreated⟩
    · exact ⟨control_step_exited hu hcreated hw, created_control_step hu hcreated⟩
  · rw [hsame]
    exact ⟨hw, hcreated⟩

/-- `TecDaemon_run` returns behind what it has seen, or without a thread. -/
theorem run_returned_step {result : Int} (hstep : LifeStep cfg l (.run_returned result) l') :
    l.worker.run = .return ∧ result = l.worker.error ∨ l.worker.run = .create_failed result := by
  generalize he : (LifeEvent.run_returned result : LifeEvent Cb) = e at hstep
  cases hstep with
  | worker hs hd =>
    cases hs with
    | on_init hw hout hhook => cases he
    | on_exit hw hout hhook => cases he
    | step hs hin =>
      unfold worker_label at he
      split at he <;> cases he
  | run hs hd =>
    cases hs with
    | step hs =>
      cases hs with
      | join hr hw =>
        simp only [run_label, hr, join_label] at he
        split at he <;> cases he
      | wait_running hr hsig =>
        by_cases herror : l.worker.error = 0 <;> simp [run_label, hr, herror] at he
      | «return» hr =>
        simp only [run_label, hr] at he
        cases he
        exact .inl ⟨hr, rfl⟩
      | return_failed hr =>
        simp only [run_label, hr] at he
        cases he
        exact .inr hr
      | lock hr _ | create hr | create_failed hr _ | unlock hr =>
        simp only [run_label, hr] at he
        cases he
  | terminate n hs hd =>
    cases hs with
    | step hs =>
      unfold terminate_label join_label at he
      split at he <;> try cases he
      split at he <;> cases he
  | call c hs hd => cases he
  | user hs hd => cases he
  | done hs => cases hs <;> cases he

/-- The run has failed where it left no thread or an error of `on_init`. -/
theorem failed_iff (h : LifecycleInv cfg xs l) {result : Int}
    (hr : l.worker.run = .returned result) : result ≠ 0 ↔ Failed xs := by
  by_cases hw : l.worker.worker = .absent
  · have hm := h.control.outcome result hr hw
    exact iff_of_true (h.control.create_failed result hm).1 (.inl ⟨result, hm⟩)
  · obtain ⟨hin, rfl⟩ := h.outcome.run result hr hw
    constructor
    · intro hne
      cases hon : cfg.on_init with
      | none =>
        rw [Config.init_result, hon] at hne
        exact absurd rfl hne
      | some error =>
        rw [Config.init_result, hon] at hne
        exact .inr ⟨error, hne, (h.told.init error).mpr ⟨hon, hin⟩⟩
    · rintro (⟨error, hm⟩ | ⟨error, herror, hm⟩)
      · exact absurd (h.control.create_failed error hm).2.1 hw
      · rw [Config.init_result, ((h.told.init error).mp hm).1]
        exact herror

theorem failed_init (h : LifecycleInv cfg xs l) (hfailed : Failed xs) :
    l.worker.worker = .absent ∨ cfg.init_result ≠ 0 := by
  rcases hfailed with ⟨result, hm⟩ | ⟨result, hresult, hm⟩
  · exact .inl (h.control.create_failed result hm).2.1
  · refine .inr ?_
    rw [Config.init_result, ((h.told.init result).mp hm).1]
    exact hresult

theorem exit_called_position (h : LifecycleInv cfg xs l) (hm : .on_exit_called ∈ xs) :
    l.worker.worker = .on_exit ∧ l.hook = true ∨ l.worker.worker.Ended :=
  (h.told.exit_called.mp hm).2.2

theorem lifecycle_result (h : LifecycleInv cfg xs l) {result : Int}
    (hm : .terminate_returned n result ∈ xs) :
    (result ≠ 0 ∧ .on_init_returned result ∈ xs) ∨
      (∀ error, .on_init_returned error ∈ xs → error = 0) ∧
        (.on_exit_returned result ∈ xs ∨ cfg.on_exit = none ∧ result = 0) := by
  have hpc := h.control.terminate n result hm
  have hread := h.outcome.read n result (.inr hpc)
  have hexited := h.phase.signal.terminated.mp (h.phase.ended n (by rw [hpc]; trivial))
  have hin : l.worker.worker.Inited := by rw [hexited]; trivial
  by_cases hzero : cfg.init_result = 0
  · rw [Config.final_result, if_pos hzero] at hread
    refine .inr ⟨?_, ?_⟩
    · intro error herror
      rw [Config.init_result, ((h.told.init error).mp herror).1] at hzero
      exact hzero
    · cases hon : cfg.on_exit with
      | none =>
        rw [hon] at hread
        exact .inr ⟨rfl, hread⟩
      | some error =>
        rw [hon] at hread
        refine .inl ((h.told.exit_returned result).mpr ⟨?_, hzero, by rw [hexited]; trivial⟩)
        rw [hon, hread, Option.getD_some]
  · rw [Config.final_result, if_neg hzero] at hread
    refine .inl ⟨by rw [hread]; exact hzero, (h.told.init result).mpr ⟨?_, hin⟩⟩
    cases hon : cfg.on_init with
    | none =>
      rw [Config.init_result, hon] at hzero
      exact absurd rfl hzero
    | some error => rw [hread, Config.init_result, hon, Option.getD_some]

theorem worker_lifecycle
    (h : ((lifeLts Cb cfg).restrict TerminateAfterRun).History xs l) : Lifecycle cfg xs := by
  have hinv := lifecycleInv_history h
  refine ⟨?_, ?_, ?_, ?_, ?_, ?_, ?_⟩
  · rintro ys msg zs rfl hon
    obtain ⟨l₀, l₁, hys, ⟨_, hstep⟩, _⟩ := h.step_at
    have hinv₀ := lifecycleInv_history hys
    have hw := dispatch_life_step hstep
    have hzero : l₀.worker.error = 0 := hinv₀.phase.signal.loop (by rw [hw]; trivial)
    have hinit := hinv₀.error.inited (by rw [hw]; trivial) (by rw [hw]; exact id)
    refine (hinv₀.told.init 0).mpr ⟨?_, by rw [hw]; trivial⟩
    obtain ⟨result, hon⟩ := Option.isSome_iff_exists.mp hon
    rw [hzero, Config.init_result, hon] at hinit
    rw [hon, hinit, Option.getD_some]
  · rintro ys result zs rfl hcreate
    obtain ⟨l₀, l₁, hys, ⟨_, hstep⟩, _⟩ := h.step_at
    have hinv₀ := lifecycleInv_history hys
    have hpresent := hinv₀.control.create hcreate
    refine hinv₀.told.running.mpr (hinv₀.phase.signal.running.mp (hinv₀.phase.seen ?_))
    rcases run_returned_step hstep with ⟨hr, _⟩ | hr
    · rw [hr]
      trivial
    · exact absurd (hinv₀.phase.failed result hr).1 hpresent
  · exact fun result hm => failed_iff hinv (hinv.control.returned result hm)
  · intro hfailed
    have hsilent := failed_init hinv hfailed
    refine ⟨fun msg hm => ?_, fun hm => ?_⟩
    · obtain ⟨hinit, hin⟩ := hinv.told.dispatch msg hm
      rcases hsilent with hw | hne
      · rw [hw] at hin
        exact hin
      · exact hne hinit
    · obtain ⟨_, hinit, hpc⟩ := hinv.told.exit_called.mp hm
      rcases hsilent with hw | hne
      · rw [hw] at hpc
        rcases hpc with ⟨hpc, _⟩ | hend
        · cases hpc
        · exact hend
      · exact hne hinit
  · rintro ys zs rfl
    -- every later event comes when the worker thread is in `on_exit` or behind it
    have hlater : ∀ e, e ∈ zs → ∃ l₀ l₁, LifeStep cfg l₀ e l₁ ∧
        (l₀.worker.worker = .on_exit ∧ l₀.hook = true ∨ l₀.worker.worker.Ended) := by
      intro e he
      obtain ⟨zs₁, zs₂, rfl⟩ := List.append_of_mem he
      rw [show ys ++ .on_exit_called :: (zs₁ ++ e :: zs₂) =
        (ys ++ .on_exit_called :: zs₁) ++ e :: zs₂ by simp] at h
      obtain ⟨l₀, l₁, hpre, ⟨_, hstep⟩, _⟩ := h.step_at
      refine ⟨l₀, l₁, hstep, exit_called_position (lifecycleInv_history hpre) ?_⟩
      exact List.mem_append_right _ List.mem_cons_self
    refine ⟨fun hm => ?_, fun msg hm => ?_⟩
    · obtain ⟨l₀, l₁, hstep, hpc⟩ := hlater _ hm
      obtain ⟨hw, hout⟩ := on_exit_called_step hstep
      rw [hw, hout] at hpc
      rcases hpc with ⟨_, hin⟩ | hend
      · cases hin
      · exact hend
    · obtain ⟨l₀, l₁, hstep, hpc⟩ := hlater _ hm
      rw [dispatch_life_step hstep] at hpc
      rcases hpc with ⟨hw, _⟩ | hend
      · cases hw
      · exact hend
  · rintro ys zs rfl
    obtain ⟨l₀, l₁, hys, ⟨_, hstep⟩, hrun⟩ := h.step_at
    have hinv₀ := lifecycleInv_history hys
    obtain ⟨hw, hw'⟩ := terminated_step hstep
    refine ⟨fun hm => ?_, fun hm => ?_⟩
    · obtain ⟨zs₁, zs₂, rfl⟩ := List.append_of_mem hm
      obtain ⟨l₂, l₃, hlater, ⟨_, hcalled⟩, _⟩ := hrun.step_at
      have hcreated := (life_control (hys.of_restrict.snoc hstep)).1.created
      have hexited := exited_life_run hlater.of_restrict hw' hcreated
      rw [(on_exit_called_step hcalled).1] at hexited
      cases hexited
    · obtain ⟨hsome, hinit, _⟩ := hinv₀.told.exit_called.mp hm
      obtain ⟨result, hon⟩ := Option.isSome_iff_exists.mp hsome
      exact ⟨result, (hinv₀.told.exit_returned result).mpr ⟨hon, hinit, by rw [hw]; trivial⟩⟩
  · exact fun n result hm => lifecycle_result hinv hm

/-- A worker whose hooks return 0 and 5, and who handles one message in between. -/
theorem worker_lifecycle_run :
    ∃ (xs : List (LifeEvent Nat)) (l : Life Nat),
      ((lifeLts Nat hookConfig).restrict TerminateAfterRun).History xs l ∧
        .terminate_returned 0 5 ∈ xs ∧ Lifecycle hookConfig xs := by
  let start : Life Nat := ⟨TecWorker_init hookConfig, ⟨0, none⟩, false, .idle⟩
  have h0 : ((lifeLts Nat hookConfig).restrict TerminateAfterRun).History [] start :=
    .init ⟨rfl, rfl, rfl, rfl⟩
  have h1 := h0.snoc_restrict (LifeStep.run (.step (.lock rfl rfl)) rfl) trivial
  have h2 := h1.snoc_restrict (LifeStep.run (.step (.create rfl)) rfl) trivial
  have h3 := h2.snoc_restrict (LifeStep.worker (.on_init rfl rfl rfl) (.inl rfl)) trivial
  have h4 := h3.snoc_restrict (LifeStep.worker (.step (.on_init rfl) rfl) (.inl rfl)) trivial
  have h5 := h4.snoc_restrict (LifeStep.worker (.step (.set_running rfl) rfl) (.inl rfl)) trivial
  have h6 := h5.snoc_restrict (LifeStep.user
    (@UserStep.send _ _ _ 1 "text" (by decide)) rfl) trivial
  have h7 := h6.snoc_restrict (LifeStep.run (.step (.wait_running rfl rfl)) rfl) trivial
  have h8 := h7.snoc_restrict (LifeStep.run (.step (.unlock rfl)) rfl) trivial
  have h9 := h8.snoc_restrict (LifeStep.run (.step (.return rfl)) rfl) trivial
  have h10 := h9.snoc_restrict (LifeStep.worker (.step (.test_error rfl) rfl) (.inl rfl)) trivial
  have h11 := h10.snoc_restrict (LifeStep.worker (.step (.pop rfl rfl) rfl) (.inl rfl)) trivial
  have h12 := h11.snoc_restrict (LifeStep.worker
    (.step (.dispatch_msg rfl (by decide)) rfl) (.inl rfl)) trivial
  have h13 := h12.snoc_restrict (LifeStep.worker
    (.step (.on_msg_none rfl rfl) rfl) (.inl rfl)) trivial
  have h14 := h13.snoc_restrict (LifeStep.worker (.step (.free rfl) rfl) (.inl rfl)) trivial
  have h15 := h14.snoc_restrict (LifeStep.terminate 0 (.step (.lock rfl rfl)) rfl) ⟨0, rfl⟩
  have h16 := h15.snoc_restrict (LifeStep.terminate 0 (.step (.push rfl)) rfl) trivial
  have h17 := h16.snoc_restrict (LifeStep.worker (.step (.pop_null rfl rfl) rfl) (.inl rfl)) trivial
  have h18 := h17.snoc_restrict (LifeStep.worker (.on_exit rfl rfl rfl) (.inl rfl)) trivial
  have h19 := h18.snoc_restrict (LifeStep.worker (.step (.on_exit rfl) rfl) (.inl rfl)) trivial
  have h20 := h19.snoc_restrict (LifeStep.worker
    (.step (.set_terminated rfl) rfl) (.inl rfl)) trivial
  have h21 := h20.snoc_restrict (LifeStep.terminate 0 (.step (.wait_terminated rfl rfl)) rfl)
    trivial
  have h22 := h21.snoc_restrict (LifeStep.terminate 0 (.step (.join rfl rfl)) rfl) trivial
  have h23 := h22.snoc_restrict (LifeStep.terminate 0 (.step (.read rfl)) rfl) trivial
  have h24 := h23.snoc_restrict (LifeStep.terminate 0 (.step (.unlock rfl)) rfl) trivial
  exact ⟨_, _, h24, mem_snoc_self, worker_lifecycle h24⟩

end Tecc.Worker
