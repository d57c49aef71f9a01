import Tecc.Worker

/-! The calls of `TecDaemon_rpc` that the worker has not answered yet. -/
namespace Tecc.Worker

open Transition

variable {Cb : Type} {cfg : Config} {s t : State Cb} {e : Event Cb} {c d : Nat}

/-- The call of an RPC message. -/
def TecMsg.call : TecMsg → Option Nat
  | .normal _ _ => none
  | .rpc c _ => some c

/-- The call whose message the worker holds and whose signal it has not set yet. -/
def WorkerPc.holds : WorkerPc → Option Nat
  | .dispatch msg | .on_msg msg | .on_rpc msg | .callback msg | .free msg => msg.call
  | .set_store c => some c
  | _ => none

/-- The call whose signal has its value and is still in use by `TecSignal_set`. -/
def WorkerPc.setting : WorkerPc → Option Nat
  | .set_lock c | .set_broadcast c | .set_unlock c => some c
  | _ => none

/-- The caller is inside of `TecSignal_wait` and has not read 1. -/
def CallPc.Waiting : CallPc → Prop
  | .wait_load | .wait_lock | .wait_check | .wait_sleep | .asleep | .woken => True
  | _ => False

/-- The caller is behind `TecSignal_done`. -/
def CallPc.Finished : CallPc → Prop
  | .return | .returned _ => True
  | _ => False

def rpcs (q : List (Option TecMsg)) : List Nat := q.filterMap fun msg => msg.bind TecMsg.call

/-- The calls that wait for the worker to set their signal. -/
def State.outstanding (s : State Cb) : List Nat := s.worker.holds.toList ++ rpcs s.queue

theorem rpcs_cons (msg : Option TecMsg) (q : List (Option TecMsg)) :
    rpcs (msg :: q) = (msg.bind TecMsg.call).toList ++ rpcs q := by
  cases h : msg.bind TecMsg.call <;> simp [rpcs, h]

theorem rpcs_snoc (q : List (Option TecMsg)) (msg : Option TecMsg) :
    rpcs (q ++ [msg]) = rpcs q ++ (msg.bind TecMsg.call).toList := by
  cases h : msg.bind TecMsg.call <;> simp [rpcs, List.filterMap_append, h]

/-- What the worker thread does to the call `d`: it may wake it or set its value, and it never
destroys its signal. -/
structure Touched (worker : WorkerPc) (d : Nat) (old new : Call) : Prop where
  destroyed : new.destroyed = old.destroyed
  pc : new.pc = old.pc ∨ old.pc = .asleep ∧ new.pc = .woken
  value : new.value = old.value ∨ worker = .set_store d ∧ new.value = true

theorem worker_step_call (hs : WorkerStep cfg s e t) (d : Nat) :
    Touched s.worker d (s.calls d) (t.calls d) := by
  have hset : ∀ c call, t.calls = Function.update s.calls c call →
      Touched s.worker c (s.calls c) call → Touched s.worker d (s.calls d) (t.calls d) := by
    intro c call hcalls htouched
    rw [hcalls]
    by_cases hd : d = c
    · subst hd
      rw [Function.update_self]
      exact htouched
    · rw [Function.update_of_ne hd]
      exact ⟨rfl, .inl rfl, .inl rfl⟩
  cases hs with
  | on_rpc hw hget => exact hset _ _ rfl ⟨rfl, .inl rfl, .inl rfl⟩
  | on_rpc_none hw hget => exact hset _ _ rfl ⟨rfl, .inl rfl, .inl rfl⟩
  | rpc_handled hw => exact hset _ _ rfl ⟨rfl, .inl rfl, .inl rfl⟩
  | set_store hw => exact hset _ _ rfl ⟨rfl, .inl rfl, .inr ⟨hw, rfl⟩⟩
  | set_lock hw hmtx => exact hset _ _ rfl ⟨rfl, .inl rfl, .inl rfl⟩
  | @set_broadcast c hw =>
    refine hset _ _ rfl ⟨rfl, ?_, .inl rfl⟩
    by_cases hasleep : (s.calls c).pc = .asleep
    · exact .inr ⟨hasleep, if_pos hasleep⟩
    · exact .inl (if_neg hasleep)
  | set_unlock hw => exact hset _ _ rfl ⟨rfl, .inl rfl, .inl rfl⟩
  | _ => exact ⟨rfl, .inl rfl, .inl rfl⟩

/-- A caller changes its own call only. -/
theorem call_step_other (hs : CallStep c s e t) (hd : d ≠ c) : t.calls d = s.calls d := by
  cases hs <;> exact Function.update_of_ne hd _ _

theorem call_step_worker (hs : CallStep c s e t) : t.worker = s.worker := by
  cases hs <;> rfl

/-- A step of a thread that runs or terminates the worker, or of another user of it. -/
def ControlStep (cfg : Config) (s : State Cb) (e : Event Cb) (t : State Cb) : Prop :=
  RunStep s e t ∨ (∃ n, TerminateStep n s e t) ∨ UserStep cfg s e t

theorem control_step (hs : ControlStep cfg s e t) : Step cfg s e t :=
  hs.elim .run fun hs => hs.elim (fun ⟨n, hs⟩ => .terminate n hs) .user

theorem step_cases (hs : Step cfg s e t) :
    WorkerStep cfg s e t ∨ (∃ c, CallStep c s e t) ∨ ControlStep cfg s e t := by
  cases hs with
  | worker hs => exact .inl hs
  | call c hs => exact .inr (.inl ⟨c, hs⟩)
  | run hs => exact .inr (.inr (.inl hs))
  | terminate n hs => exact .inr (.inr (.inr (.inl ⟨n, hs⟩)))
  | user hs => exact .inr (.inr (.inr (.inr hs)))

theorem control_step_calls (hs : ControlStep cfg s e t) : t.calls = s.calls := by
  rcases hs with hs | ⟨n, hs⟩ | hs <;> cases hs <;> rfl

theorem control_step_worker (hs : ControlStep cfg s e t) :
    t.worker = s.worker ∨ s.run = .create ∧ t.worker = .on_init := by
  rcases hs with hs | ⟨n, hs⟩ | hs
  · cases hs with
    | create hr => exact .inr ⟨hr, rfl⟩
    | _ => exact .inl rfl
  · cases hs <;> exact .inl rfl
  · cases hs <;> exact .inl rfl

theorem control_step_rpcs (hs : ControlStep cfg s e t) : rpcs t.queue = rpcs s.queue := by
  rcases hs with hs | ⟨n, hs⟩ | hs
  · cases hs <;> rfl
  · cases hs with
    | push ht => simp [rpcs_snoc]
    | _ => rfl
  · cases hs with
    | register => rfl
    | send htag => simp [rpcs_snoc, TecMsg.call]

theorem waiting_worker_step (hs : WorkerStep cfg s e t) (hw : (s.calls d).pc.Waiting) :
    (t.calls d).pc.Waiting := by
  rcases (worker_step_call hs d).pc with hpc | ⟨_, hpc⟩
  · rw [hpc]
    exact hw
  · rw [hpc]
    trivial

/-- Normal messages only are freed. -/
def Typed (s : State Cb) : Prop :=
  ∀ msg, s.worker = .on_msg msg ∨ s.worker = .free msg → msg.call = none

theorem typed_worker_step (hs : WorkerStep cfg s e t) (h : Typed s) : Typed t := by
  intro msg hmsg
  cases hs with
  | @dispatch_msg msg' hw htag =>
    rcases hmsg with hmsg | hmsg
    · cases hmsg
      cases msg with
      | normal address tag => rfl
      | rpc c request => exact absurd rfl htag
    · cases hmsg
  | on_msg_none hw hget =>
    rcases hmsg with hmsg | hmsg
    · cases hmsg
    · cases hmsg
      exact h _ (.inl hw)
  | msg_handled hw =>
    rcases hmsg with hmsg | hmsg
    · cases hmsg
    · cases hmsg
      rfl
  | test_error hw =>
    rcases hmsg with hmsg | hmsg <;> simp only at hmsg <;> split at hmsg <;> cases hmsg
  | _ => rcases hmsg with hmsg | hmsg <;> cases hmsg

/-- An outstanding call stays so until the worker stores its value. -/
theorem worker_step_outstanding (hs : WorkerStep cfg s e t) (htyped : Typed s) :
    (t.outstanding = s.outstanding ∧ ∀ c, s.worker ≠ .set_store c) ∨
      ∃ c, s.worker = .set_store c ∧ s.outstanding = c :: t.outstanding := by
  cases hs with
  | test_error hw =>
    left
    by_cases he : s.error = 0 <;> simp [State.outstanding, hw, WorkerPc.holds, he]
  | pop hw hq => exact .inl (by simp [State.outstanding, hw, WorkerPc.holds, hq, rpcs_cons])
  | pop_null hw hq => exact .inl (by simp [State.outstanding, hw, WorkerPc.holds, hq, rpcs_cons])
  | free hw =>
    have hnone := htyped _ (.inr hw)
    exact .inl (by simp [State.outstanding, hw, WorkerPc.holds, hnone])
  | on_rpc hw hget =>
    exact .inl (by simp [State.outstanding, State.setCall, hw, WorkerPc.holds])
  | on_rpc_none hw hget =>
    exact .inl (by simp [State.outstanding, State.setCall, hw, WorkerPc.holds, TecMsg.call])
  | rpc_handled hw =>
    exact .inl (by simp [State.outstanding, State.setCall, hw, WorkerPc.holds, TecMsg.call])
  | set_store hw =>
    exact .inr ⟨_, hw, by simp [State.outstanding, State.setCall, hw, WorkerPc.holds]⟩
  | set_lock hw hmtx =>
    exact .inl (by simp [State.outstanding, State.setCall, hw, WorkerPc.holds])
  | set_broadcast hw =>
    exact .inl (by simp [State.outstanding, State.setCall, hw, WorkerPc.holds])
  | set_unlock hw =>
    exact .inl (by simp [State.outstanding, State.setCall, hw, WorkerPc.holds])
  | on_init hw | set_running hw | dispatch_rpc hw _ | dispatch_msg hw _ | on_msg hw _
  | on_msg_none hw _ | msg_handled hw | on_exit hw | set_terminated hw =>
    exact .inl (by simp [State.outstanding, hw, WorkerPc.holds])

/-- The worker thread exists only after `TecThread_create`. -/
def Created (s : State Cb) : Prop := s.run = .idle ∨ s.run = .create → s.worker = .absent

theorem created_worker_step (hs : WorkerStep cfg s e t) (h : Created s) : Created t := by
  intro hrun
  have hsame : t.run = s.run := by cases hs <;> rfl
  have habsent := h (hsame ▸ hrun)
  cases hs <;> simp_all

theorem created_call_step (hs : CallStep c s e t) (h : Created s) : Created t := by
  intro hrun
  have hsame : t.run = s.run := by cases hs <;> rfl
  rw [call_step_worker hs]
  exact h (hsame ▸ hrun)

theorem created_control_step (hs : ControlStep cfg s e t) (h : Created s) : Created t := by
  intro hrun
  rcases hs with hs | ⟨n, hs⟩ | hs
  · cases hs with
    | lock hr hl => exact h (.inl hr)
    | wait_running hr hsig =>
      rcases hrun with hrun | hrun <;> simp only at hrun <;> split at hrun <;> cases hrun
    | _ => rcases hrun with hrun | hrun <;> cases hrun
  · cases hs <;> exact h hrun
  · cases hs <;> exact h hrun

/-- A call is outstanding once, and its caller waits for a value that is not there yet. -/
structure Pending (s : State Cb) : Prop where
  created : Created s
  typed : Typed s
  nodup : s.outstanding.Nodup
  waiting : ∀ c ∈ s.outstanding, (s.calls c).pc.Waiting
  unset : ∀ c ∈ s.outstanding, (s.calls c).value = false
  fresh : ∀ c request, (s.calls c).pc = .push request → (s.calls c).value = false

theorem pending_worker_step (hs : WorkerStep cfg s e t) (h : Pending s) : Pending t := by
  have hsub : t.outstanding.Sublist s.outstanding ∧
      ∀ c ∈ t.outstanding, s.worker ≠ .set_store c := by
    rcases worker_step_outstanding hs h.typed with ⟨hout, hne⟩ | ⟨c, hw, hout⟩
    · exact ⟨hout ▸ List.Sublist.refl _, fun c _ => hne c⟩
    · have hnodup := h.nodup
      rw [hout, List.nodup_cons] at hnodup
      refine ⟨hout ▸ List.sublist_cons_self c _, ?_⟩
      intro d hd hstore
      rw [hw] at hstore
      cases hstore
      exact hnodup.1 hd
  refine ⟨created_worker_step hs h.created, typed_worker_step hs h.typed,
    h.nodup.sublist hsub.1, ?_, ?_, ?_⟩
  · intro c hc
    exact waiting_worker_step hs (h.waiting c (hsub.1.subset hc))
  · intro c hc
    rcases (worker_step_call hs c).value with hvalue | ⟨hstore, _⟩
    · rw [hvalue]
      exact h.unset c (hsub.1.subset hc)
    · exact absurd hstore (hsub.2 c hc)
  · intro c request hpush
    have hpc : (s.calls c).pc = .push request := by
      rcases (worker_step_call hs c).pc with hpc | ⟨_, hwoken⟩
      · exact hpc.symm.trans hpush
      · rw [hwoken] at hpush
        cases hpush
    rcases (worker_step_call hs c).value with hvalue | ⟨hstore, _⟩
    · rw [hvalue]
      exact h.fresh c request hpc
    · have hwait := h.waiting c (by simp [State.outstanding, hstore, WorkerPc.holds])
      simp [hpc, CallPc.Waiting] at hwait

/-- What a caller does to its own call. A waiting caller goes on waiting until it reads 1. -/
theorem call_step_own (hs : CallStep c s e t) :
    (t.outstanding = s.outstanding ∧
      ((s.calls c).pc.Waiting → (s.calls c).value = false →
        (t.calls c).pc.Waiting ∧ (t.calls c).value = false) ∧
      (∀ request, (t.calls c).pc = .push request → (t.calls c).value = false)) ∨
    ∃ request, e = .push (some (.rpc c request)) ∧ (s.calls c).pc = .push request ∧
      t.outstanding = s.outstanding ++ [c] ∧ (t.calls c).pc = .wait_load ∧
      (t.calls c).value = (s.calls c).value := by
  cases hs with
  | push hc =>
    refine .inr ⟨_, rfl, hc, ?_, by simp [State.setCall], by simp [State.setCall]⟩
    simp [State.outstanding, State.setCall, rpcs_snoc, TecMsg.call]
  | wait_load hc =>
    refine .inl ⟨rfl, ?_, ?_⟩
    · intro _ hvalue
      simp [State.setCall, hvalue, CallPc.Waiting]
    · intro request hpush
      cases hv : (s.calls c).value <;> simp [State.setCall, hv] at hpush
  | wait_check hc =>
    refine .inl ⟨rfl, ?_, ?_⟩
    · intro _ hvalue
      simp [State.setCall, hvalue, CallPc.Waiting]
    · intro request hpush
      cases hv : (s.calls c).value <;> simp [State.setCall, hv] at hpush
  | _ => exact .inl ⟨rfl, by simp_all [State.setCall, CallPc.Waiting], by simp [State.setCall]⟩

theorem pending_call_step (hs : CallStep c s e t) (h : Pending s) : Pending t := by
  have hcreated := created_call_step hs h.created
  have htyped : Typed t := by
    rw [Typed, call_step_worker hs]
    exact h.typed
  rcases call_step_own hs with ⟨hout, hkept, hfresh⟩ | ⟨request, _, hpc, hout, hwait, hvalue⟩
  · refine ⟨hcreated, htyped, hout ▸ h.nodup, ?_, ?_, ?_⟩
    · intro d hd
      rw [hout] at hd
      by_cases hdc : d = c
      · subst hdc
        exact (hkept (h.waiting d hd) (h.unset d hd)).1
      · rw [call_step_other hs hdc]
        exact h.waiting d hd
    · intro d hd
      rw [hout] at hd
      by_cases hdc : d = c
      · subst hdc
        exact (hkept (h.waiting d hd) (h.unset d hd)).2
      · rw [call_step_other hs hdc]
        exact h.unset d hd
    · intro d request hpush
      by_cases hdc : d = c
      · subst hdc
        exact hfresh request hpush
      · rw [call_step_other hs hdc] at hpush ⊢
        exact h.fresh d request hpush
  · have hnew : c ∉ s.outstanding := by
      intro hmem
      have hwaiting := h.waiting c hmem
      simp [hpc, CallPc.Waiting] at hwaiting
    refine ⟨hcreated, htyped, ?_, ?_, ?_, ?_⟩
    · rw [hout]
      refine List.nodup_append.mpr ⟨h.nodup, List.nodup_singleton c, ?_⟩
      intro d hd c' hc' hdc
      rw [List.mem_singleton.mp hc'] at hdc
      exact hnew (hdc ▸ hd)
    · intro d hd
      rw [hout, List.mem_append, List.mem_singleton] at hd
      by_cases hdc : d = c
      · rw [hdc, hwait]
        trivial
      · rw [call_step_other hs hdc]
        exact h.waiting d (hd.resolve_right hdc)
    · intro d hd
      rw [hout, List.mem_append, List.mem_singleton] at hd
      by_cases hdc : d = c
      · rw [hdc, hvalue]
        exact h.fresh c request hpc
      · rw [call_step_other hs hdc]
        exact h.unset d (hd.resolve_right hdc)
    · intro d request' hpush
      by_cases hdc : d = c
      · rw [hdc, hwait] at hpush
        cases hpush
      · rw [call_step_other hs hdc] at hpush ⊢
        exact h.fresh d request' hpush

theorem control_step_outstanding (hs : ControlStep cfg s e t) (hcreated : Created s) :
    t.outstanding = s.outstanding := by
  rw [State.outstanding, State.outstanding, control_step_rpcs hs]
  rcases control_step_worker hs with hw | ⟨hrun, hw⟩
  · rw [hw]
  · rw [hw, hcreated (.inr hrun)]
    rfl

theorem pending_step (hs : Step cfg s e t) (h : Pending s) : Pending t := by
  rcases step_cases hs with hw | ⟨c, hc⟩ | hu
  · exact pending_worker_step hw h
  · exact pending_call_step hc h
  · have hcalls := control_step_calls hu
    have hout := control_step_outstanding hu h.created
    refine ⟨created_control_step hu h.created, ?_, ?_, ?_, ?_, ?_⟩
    · intro msg hmsg
      rcases control_step_worker hu with hw | ⟨_, hw⟩
      · rw [hw] at hmsg
        exact h.typed msg hmsg
      · rw [hw] at hmsg
        rcases hmsg with hmsg | hmsg <;> cases hmsg
    · rw [hout]
      exact h.nodup
    · rw [hout, hcalls]
      exact h.waiting
    · rw [hout, hcalls]
      exact h.unset
    · rw [hcalls]
      exact h.fresh

theorem pending_initial : Pending (TecWorker_init cfg : State Cb) where
  created _ := rfl
  typed msg hmsg := by rcases hmsg with hmsg | hmsg <;> cases hmsg
  nodup := List.nodup_nil
  waiting c hc := by cases hc
  unset c hc := by cases hc
  fresh _ _ _ := rfl

theorem pending_reachable (h : (workerLts Cb cfg).Reachable s) : Pending s :=
  h.invariant (fun _ hi => hi ▸ pending_initial) (fun _ _ _ hp hs => pending_step hs hp)

/-- The worker thread is behind its message loop. -/
def WorkerPc.Left : WorkerPc → Prop
  | .on_exit | .set_terminated | .exited => True
  | _ => False

/-- The initialization succeeds. -/
def Config.InitOk (cfg : Config) : Prop := cfg.on_init.getD 0 = 0

/-- No error before the loop is left. -/
def ErrorZero (s : State Cb) : Prop := ¬ s.worker.Left → s.error = 0

theorem errorZero_step (hinit : cfg.InitOk) (hs : Step cfg s e t) (hcreated : Created s)
    (h : ErrorZero s) : ErrorZero t := by
  rcases step_cases hs with hw | ⟨c, hc⟩ | hu
  · cases hw with
    | on_init hw =>
      intro _
      have hzero := h (by simp [hw, WorkerPc.Left])
      unfold Config.InitOk at hinit
      cases hi : cfg.on_init <;> simp_all [run_hook]
    | on_exit hw => exact fun hl => (hl trivial).elim
    | pop_null hw hq => exact fun hl => (hl trivial).elim
    | set_terminated hw => exact fun hl => (hl trivial).elim
    | _ => exact fun _ => h (by simp_all [WorkerPc.Left])
  · cases hc <;> exact h
  · rcases hu with hu | ⟨n, hu⟩ | hu
    · cases hu with
      | create hr => exact fun _ => h (by simp [hcreated (.inr hr), WorkerPc.Left])
      | _ => exact h
    · cases hu <;> exact h
    · cases hu <;> exact h

/-- `TecDaemon_run` starts the worker thread, whose initialization succeeds, and returns. -/
theorem run_started {C : State Cb → Event Cb → Prop} (hinit : cfg.InitOk)
    (hother : ∀ s, C s .other) (hrun : s.run = .idle) (hlock : s.lock = false)
    (herror : s.error = 0) :
    ((workerLts Cb cfg).restrict C).Run s (List.replicate 8 .other)
      { s with
        sig_running := true
        lock := false
        worker := .pop
        run := .returned 0 } := by
  obtain ⟨_, running, terminated, queue, callbacks, _, worker, _, terminate, calls⟩ := s
  subst hrun hlock herror
  have hzero : run_hook cfg.on_init 0 = 0 := by
    unfold Config.InitOk at hinit
    cases hi : cfg.on_init <;> simp_all [run_hook]
  have r0 : ((workerLts Cb cfg).restrict C).Run
      ⟨0, running, terminated, queue, callbacks, false, worker, .idle, terminate, calls⟩ [] _ :=
    .refl
  have r1 := r0.snoc_restrict (Step.run (.lock rfl rfl)) (hother _)
  have r2 := r1.snoc_restrict (Step.run (.create rfl)) (hother _)
  have r3 := r2.snoc_restrict (Step.worker (.on_init rfl)) (hother _)
  have r4 := r3.snoc_restrict (Step.worker (.set_running rfl)) (hother _)
  have r5 := r4.snoc_restrict (Step.worker (.test_error rfl)) (hother _)
  have r6 := r5.snoc_restrict (Step.run (.wait_running rfl rfl)) (hother _)
  simp only [hzero, if_true] at r6
  have r7 := r6.snoc_restrict (Step.run (.unlock rfl)) (hother _)
  exact r7.snoc_restrict (Step.run (.return rfl)) (hother _)

/-- A worker without handlers and hooks, with a table of one bucket. -/
def bareConfig : Config := ⟨fun _ => 0, 1, none, none⟩

end Tecc.Worker
