import Tecc.WorkerCalls

/-! The lifetime of `sig_ready`: the caller of `TecDaemon_rpc` destroys the signal as soon as a
load returns 1, and `TecSignal_set` stores 1 before it takes the lock. -/
namespace Tecc.Worker

open Transition

variable {Cb : Type} {cfg : Config} {s t : State Cb} {e : Event Cb} {c d : Nat}

theorem waiting_not_finished {pc : CallPc} (hw : pc.Waiting) (hf : pc.Finished) : False := by
  cases pc <;> first | exact hw | exact hf

/-- A destroyed signal belongs to a caller behind `TecSignal_done`. -/
def DestroyedLast (s : State Cb) : Prop :=
  ∀ d, (s.calls d).destroyed = true → (s.calls d).pc.Finished

theorem destroyedLast_step (hs : Step cfg s e t) (h : DestroyedLast s) : DestroyedLast t := by
  intro d hd
  rcases step_cases hs with hw | ⟨c, hc⟩ | hu
  · obtain ⟨hdestroyed, hpc, _⟩ := worker_step_call hw d
    have hf := h d (hdestroyed.symm.trans hd)
    rcases hpc with hpc | ⟨hasleep, _⟩
    · rw [hpc]
      exact hf
    · rw [hasleep] at hf
      exact hf.elim
  · by_cases hdc : d = c
    · subst hdc
      have hself := h d
      cases hc <;> simp_all [State.setCall, CallPc.Finished]
    · rw [call_step_other hc hdc] at hd ⊢
      exact h d hd
  · rw [control_step_calls hu] at hd ⊢
    exact h d hd

/-- No load returns 1 while the `TecSignal_set` that stored it has not released the mutex. -/
def Settled (s : State Cb) : Event Cb → Prop
  | .load c => (s.calls c).value = true → s.worker.setting ≠ some c
  | _ => True

/-- The caller stays in `TecSignal_wait` as long as the worker uses its signal. -/
def InUse (s : State Cb) : Prop := ∀ c, s.worker.setting = some c → (s.calls c).pc.Waiting

theorem setting_worker_step (hs : WorkerStep cfg s e t) (h : t.worker.setting = some c) :
    s.worker.setting = some c ∨ s.worker = .set_store c := by
  cases hs with
  | test_error hw => split at h <;> cases h
  | set_store hw =>
    cases h
    exact .inr hw
  | set_lock hw hmtx =>
    cases h
    exact .inl (by rw [hw]; rfl)
  | set_broadcast hw =>
    cases h
    exact .inl (by rw [hw]; rfl)
  | _ => cases h

theorem inUse_step (hs : Step cfg s e t) (hsettled : Settled s e) (hp : Pending s)
    (h : InUse s) : InUse t := by
  intro d hd
  rcases step_cases hs with hw | ⟨c, hc⟩ | hu
  · refine waiting_worker_step hw ?_
    rcases setting_worker_step hw hd with hset | hstore
    · exact h d hset
    · exact hp.waiting d (by simp [State.outstanding, hstore, WorkerPc.holds])
  · rw [call_step_worker hc] at hd
    have hwait := h d hd
    by_cases hdc : d = c
    · subst hdc
      cases hc <;> simp_all [State.setCall, CallPc.Waiting, Settled]
    · rw [call_step_other hc hdc]
      exact hwait
  · rw [control_step_calls hu]
    rcases control_step_worker hu with hw | ⟨_, hw⟩
    · rw [hw] at hd
      exact h d hd
    · rw [hw] at hd
      cases hd

theorem access_setting (hs : Step cfg s (.access c) t) : s.worker.setting = some c := by
  cases hs with
  | worker hs => cases hs <;> simp_all [WorkerPc.setting]
  | call d hs => cases hs
  | run hs => cases hs
  | terminate n hs => cases hs
  | user hs => cases hs

theorem settled_reachable (h : ((workerLts Cb cfg).restrict Settled).Reachable s) :
    Pending s ∧ DestroyedLast s ∧ InUse s := by
  refine h.invariant (P := fun s => Pending s ∧ DestroyedLast s ∧ InUse s) ?_ ?_
  · rintro s rfl
    refine ⟨pending_initial, ?_, ?_⟩
    · intro d hd
      cases hd
    · intro d hset
      cases hset
  · rintro s e t ⟨hp, hd, hu⟩ ⟨hsettled, hs⟩
    exact ⟨pending_step hs hp, destroyedLast_step hs hd, inUse_step hs hsettled hp hu⟩

/-- In the runs without an early load the setter never touches a destroyed signal. -/
theorem rpc_signal_alive (cfg : Config) (s : State Cb)
    (h : ((workerLts Cb cfg).restrict Settled).Reachable s) :
    ∀ c t, Step cfg s (.access c) t → (s.calls c).destroyed = false := by
  obtain ⟨_, hlast, huse⟩ := settled_reachable h
  intro c t hs
  have hwait := huse c (access_setting hs)
  cases hd : (s.calls c).destroyed with
  | false => rfl
  | true => exact (waiting_not_finished hwait (hlast c hd)).elim

/-- A call that sleeps until the worker answers it. -/
theorem rpc_signal_alive_asleep :
    ∃ s t : State Nat, ((workerLts Nat bareConfig).restrict Settled).Reachable s ∧
      Step bareConfig s (.access 0) t ∧ (s.calls 0).destroyed = false := by
  have h0 : ((workerLts Nat bareConfig).restrict Settled).History [] (TecWorker_init bareConfig) :=
    .init rfl
  have h1 := h0.snoc_restrict (Step.call 0 (@CallStep.init _ 0 _ "add" rfl)) trivial
  have h2 := h1.snoc_restrict (Step.call 0 (.push rfl)) trivial
  have h3 := h2.snoc_restrict (Step.call 0 (.wait_load rfl)) (fun hv => Bool.noConfusion hv)
  have h4 := h3.snoc_restrict (Step.call 0 (.wait_lock rfl rfl)) trivial
  have h5 := h4.snoc_restrict (Step.call 0 (.wait_check rfl)) (fun hv => Bool.noConfusion hv)
  have h6 := h5.snoc_restrict (Step.call 0 (.wait_sleep rfl)) trivial
  have h7 := h6.snoc_restrict (Step.run (.lock rfl rfl)) trivial
  have h8 := h7.snoc_restrict (Step.run (.create rfl)) trivial
  have h9 := h8.snoc_restrict (Step.worker (.on_init rfl)) trivial
  have h10 := h9.snoc_restrict (Step.worker (.set_running rfl)) trivial
  have h11 := h10.snoc_restrict (Step.worker (.test_error rfl)) trivial
  have h12 := h11.snoc_restrict (Step.worker (.pop rfl rfl)) trivial
  have h13 := h12.snoc_restrict (Step.worker (.dispatch_rpc rfl rfl)) trivial
  have h14 := h13.snoc_restrict (Step.worker (.on_rpc_none rfl rfl)) trivial
  have h15 := h14.snoc_restrict (Step.worker (.set_store rfl)) trivial
  exact ⟨_, _, h15.reachable, .worker (.set_lock rfl rfl),
    rpc_signal_alive bareConfig _ h15.reachable 0 _ (.worker (.set_lock rfl rfl))⟩

/-- The caller reads 1 before the setter takes the lock, and destroys it. -/
theorem rpc_signal_destroyed :
    ¬ ∀ (cfg : Config) (s : State Nat), (workerLts Nat cfg).Reachable s →
      ∀ c t, Step cfg s (.access c) t → (s.calls c).destroyed = false := by
  intro h
  have h0 : (workerLts Nat bareConfig).History [] (TecWorker_init bareConfig) := .init rfl
  have h1 := h0.snoc (Step.call 0 (@CallStep.init _ 0 _ "add" rfl))
  have h2 := h1.snoc (Step.call 0 (.push rfl))
  have h3 := h2.snoc (Step.run (.lock rfl rfl))
  have h4 := h3.snoc (Step.run (.create rfl))
  have h5 := h4.snoc (Step.worker (.on_init rfl))
  have h6 := h5.snoc (Step.worker (.set_running rfl))
  have h7 := h6.snoc (Step.worker (.test_error rfl))
  have h8 := h7.snoc (Step.worker (.pop rfl rfl))
  have h9 := h8.snoc (Step.worker (.dispatch_rpc rfl rfl))
  have h10 := h9.snoc (Step.worker (.on_rpc_none rfl rfl))
  have h11 := h10.snoc (Step.worker (.set_store rfl))
  have h12 := h11.snoc (Step.call 0 (.wait_load rfl))
  have h13 := h12.snoc (Step.call 0 (.signal_done rfl))
  have hfalse := h bareConfig _ h13.reachable 0 _ (.worker (.set_lock rfl rfl))
  cases hfalse

/-! Use after destruction -/

/-- A signal is not destroyed as long as `TecSignal_set` uses it. -/
def Outlives (s : State Cb) : Event Cb → Prop
  | .destroy c => s.worker.setting ≠ some c
  | _ => True

/-- The signal that `TecSignal_set` uses is not destroyed. -/
def Alive (s : State Cb) : Event Cb → Prop
  | .access c => (s.calls c).destroyed = false
  | _ => True

theorem destroy_signal (hs : Step cfg s (.destroy c) t) :
    (s.calls c).pc = .signal_done ∧ (t.calls c).pc = .return := by
  cases hs with
  | worker hs => cases hs
  | call d hs =>
    cases hs with
    | signal_done hc => exact ⟨hc, by simp [State.setCall]⟩
  | run hs => cases hs
  | terminate n hs => cases hs
  | user hs => cases hs

theorem outlives_of_calls (hs : Step cfg s e t) (hcalls : t.calls = s.calls) : Outlives s e := by
  cases e with
  | destroy c =>
    obtain ⟨hbefore, hafter⟩ := destroy_signal hs
    rw [hcalls, hbefore] at hafter
    cases hafter
  | _ => trivial

/-- Nobody destroys a signal too early who has not read 1 too early. -/
theorem outlives_of_settled (h : ((workerLts Cb cfg).restrict Settled).Reachable s)
    (hs : Step cfg s e t) : Outlives s e := by
  cases e with
  | destroy c =>
    intro hset
    have hwait := (settled_reachable h).2.2 c hset
    rw [(destroy_signal hs).1] at hwait
    exact hwait
  | _ => trivial

/-- The signal that is being set is not destroyed. -/
def SetAlive (s : State Cb) : Prop :=
  ∀ c, s.worker.setting = some c → (s.calls c).destroyed = false

theorem call_step_destroyed (hs : CallStep c s e t) :
    e = .destroy c ∨ ((s.calls c).destroyed = false → (t.calls c).destroyed = false) := by
  cases hs with
  | signal_done hc => exact .inl rfl
  | _ => exact .inr fun h => by simp [State.setCall, h]

theorem setAlive_step (hs : Step cfg s e t) (houtlives : Outlives s e) (hp : Pending s)
    (hlast : DestroyedLast s) (h : SetAlive s) : SetAlive t := by
  intro d hd
  rcases step_cases hs with hw | ⟨c, hc⟩ | hu
  · rw [(worker_step_call hw d).destroyed]
    rcases setting_worker_step hw hd with hset | hstore
    · exact h d hset
    · have hwait := hp.waiting d (by simp [State.outstanding, hstore, WorkerPc.holds])
      cases hdestroyed : (s.calls d).destroyed with
      | false => rfl
      | true => exact (waiting_not_finished hwait (hlast d hdestroyed)).elim
  · rw [call_step_worker hc] at hd
    by_cases hdc : d = c
    · subst hdc
      rcases call_step_destroyed hc with rfl | hkept
      · exact absurd hd houtlives
      · exact hkept (h d hd)
    · rw [call_step_other hc hdc]
      exact h d hd
  · rw [control_step_calls hu]
    rcases control_step_worker hu with hw | ⟨_, hw⟩
    · rw [hw] at hd
      exact h d hd
    · rw [hw] at hd
      cases hd

/-- Where each signal outlives its use, no step uses one that is destroyed. -/
theorem alive_of_outlives {cfg' : Config}
    (h : ((workerLts Cb cfg).restrict Outlives).Reachable s) (hs : Step cfg' s e t) :
    Alive s e := by
  have hinv : Pending s ∧ DestroyedLast s ∧ SetAlive s := by
    refine h.invariant (P := fun s => Pending s ∧ DestroyedLast s ∧ SetAlive s) ?_ ?_
    · rintro s rfl
      refine ⟨pending_initial, ?_, ?_⟩
      · intro d hd
        cases hd
      · intro d hset
        cases hset
    · rintro s e t ⟨hp, hd, ha⟩ ⟨houtlives, hs⟩
      exact ⟨pending_step hs hp, destroyedLast_step hs hd, setAlive_step hs houtlives hp hd ha⟩
  cases e with
  | access c => exact hinv.2.2 c (access_setting hs)
  | _ => trivial

end Tecc.Worker
