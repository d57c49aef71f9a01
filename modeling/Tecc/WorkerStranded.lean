import Tecc.WorkerCalls

/-! Callers of `TecDaemon_rpc` that nobody answers: the message loop ends at the first NULL, and
what lies behind it in the queue is never popped. -/
namespace Tecc.Worker

open Transition

variable {Cb : Type} {cfg : Config} {s t : State Cb} {e : Event Cb} {c d : Nat}

/-- The worker thread has exited, and no step of the system sets the signal of the call. -/
def Stranded (cfg : Config) (s : State Cb) (c : Nat) : Prop :=
  s.worker = .exited ∧ (s.calls c).pc.Waiting ∧
    ∀ xs t, (workerLts Cb cfg).Run s xs t → (t.calls c).value = false

/-- A `TecRPC` is pushed only while no NULL has been pushed: none is queued, and the worker has
not left its loop at one. -/
def PushedInTime (s : State Cb) : Event Cb → Prop
  | .push (some (.rpc _ _)) => none ∉ s.queue ∧ ¬ s.worker.Left
  | _ => True

/-- What lies behind the first NULL. -/
def behind_null : List (Option TecMsg) → List (Option TecMsg)
  | [] => []
  | none :: q => q
  | some _ :: q => behind_null q

theorem behind_null_snoc_of_mem {q : List (Option TecMsg)} (h : none ∈ q) (msg : Option TecMsg) :
    behind_null (q ++ [msg]) = behind_null q ++ [msg] := by
  induction q with
  | nil => cases h
  | cons m q ih =>
    cases m with
    | none => rfl
    | some m => exact ih (by simpa using h)

theorem behind_null_snoc_of_not_mem {q : List (Option TecMsg)} (h : none ∉ q)
    (msg : Option TecMsg) : behind_null (q ++ [msg]) = [] := by
  induction q with
  | nil => cases msg <;> rfl
  | cons m q ih =>
    cases m with
    | none => simp at h
    | some m => exact ih (by simpa using h)

theorem behind_null_sublist (q : List (Option TecMsg)) : (behind_null q).Sublist q := by
  induction q with
  | nil => exact List.Sublist.refl _
  | cons m q ih =>
    cases m with
    | none => exact List.sublist_cons_self none q
    | some m => exact ih.cons (some m)

/-- A push adds no call behind a NULL if it adds none at all or finds none in the queue. -/
theorem rpcs_behind_snoc {q : List (Option TecMsg)} {msg : Option TecMsg}
    (h : rpcs (behind_null q) = []) (hmsg : msg.bind TecMsg.call = none ∨ none ∉ q) :
    rpcs (behind_null (q ++ [msg])) = [] := by
  by_cases hnull : none ∈ q
  · have hcall := hmsg.resolve_right (fun hnot => hnot hnull)
    rw [behind_null_snoc_of_mem hnull, rpcs_snoc, h, hcall]
    rfl
  · rw [behind_null_snoc_of_not_mem hnull]
    rfl

/-- A caller that waits for its value is outstanding. -/
def Served (s : State Cb) : Prop :=
  ∀ c, (s.calls c).pc.Waiting → (s.calls c).value = false → c ∈ s.outstanding

theorem served_worker_step (hs : WorkerStep cfg s e t) (hp : Pending s) (h : Served s) :
    Served t := by
  intro c hwait hvalue
  have htouched := worker_step_call hs c
  have hwaits : (s.calls c).pc.Waiting := by
    rcases htouched.pc with hpc | ⟨hasleep, _⟩
    · rw [← hpc]
      exact hwait
    · rw [hasleep]
      trivial
  have hsame : (s.calls c).value = false ∧ s.worker ≠ .set_store c := by
    rcases htouched.value with hv | ⟨_, hv⟩
    · refine ⟨hv.symm.trans hvalue, ?_⟩
      intro hstore
      cases hs <;> simp_all [State.setCall]
    · rw [hv] at hvalue
      cases hvalue
  have hc := h c hwaits hsame.1
  rcases worker_step_outstanding hs hp.typed with ⟨hout, _⟩ | ⟨d, hstore, hout⟩
  · rw [hout]
    exact hc
  · rw [hout] at hc
    rcases List.mem_cons.mp hc with rfl | hc
    · exact absurd hstore hsame.2
    · exact hc

theorem served_call_step (hs : CallStep c s e t) (h : Served s) : Served t := by
  intro d hwait hvalue
  by_cases hdc : d = c
  · subst hdc
    cases hs with
    | push hc => simp [State.outstanding, State.setCall, rpcs_snoc, TecMsg.call]
    | init hc => simp [State.setCall, CallPc.Waiting] at hwait
    | wait_load hc =>
      refine h d (by simp [hc, CallPc.Waiting]) ?_
      simpa [State.setCall] using hvalue
    | wait_lock hc hmtx =>
      refine h d (by simp [hc, CallPc.Waiting]) ?_
      simpa [State.setCall] using hvalue
    | wait_check hc =>
      refine h d (by simp [hc, CallPc.Waiting]) ?_
      simpa [State.setCall] using hvalue
    | wait_sleep hc =>
      refine h d (by simp [hc, CallPc.Waiting]) ?_
      simpa [State.setCall] using hvalue
    | wake hc =>
      refine h d (by simp [hc, CallPc.Waiting]) ?_
      simpa [State.setCall] using hvalue
    | woken hc hmtx =>
      refine h d (by simp [hc, CallPc.Waiting]) ?_
      simpa [State.setCall] using hvalue
    | wait_unlock hc => simp [State.setCall, CallPc.Waiting] at hwait
    | signal_done hc => simp [State.setCall, CallPc.Waiting] at hwait
    | «return» hc => simp [State.setCall, CallPc.Waiting] at hwait
  · rw [call_step_other hs hdc] at hwait hvalue
    have hc := h d hwait hvalue
    rcases call_step_own hs with ⟨hout, _⟩ | ⟨_, _, _, hout, _⟩
    · rw [hout]
      exact hc
    · rw [hout]
      exact List.mem_append_left _ hc

theorem served_step (hs : Step cfg s e t) (hp : Pending s) (h : Served s) : Served t := by
  rcases step_cases hs with hw | ⟨c, hc⟩ | hu
  · exact served_worker_step hw hp h
  · exact served_call_step hc h
  · intro c
    rw [control_step_calls hu, control_step_outstanding hu hp.created]
    exact h c

/-- Nothing waits behind a NULL, and nothing waits for a worker that has left its loop. -/
structure InTime (s : State Cb) : Prop where
  behind : rpcs (behind_null s.queue) = []
  drained : s.worker.Left → rpcs s.queue = []

theorem inTime_worker_step (hs : WorkerStep cfg s e t) (hzero : ErrorZero s) (h : InTime s) :
    InTime t := by
  have hbehind := h.behind
  cases hs with
  | test_error hw =>
    refine ⟨hbehind, ?_⟩
    intro hl
    simp [hzero (by simp [hw, WorkerPc.Left]), WorkerPc.Left] at hl
  | pop hw hq =>
    rw [hq] at hbehind
    exact ⟨hbehind, fun hl => hl.elim⟩
  | @pop_null q hw hq =>
    rw [hq] at hbehind
    refine ⟨?_, fun _ => hbehind⟩
    have hsub := (behind_null_sublist q).filterMap fun msg => msg.bind TecMsg.call
    exact List.sublist_nil.mp (hbehind ▸ hsub)
  | on_exit hw => exact ⟨hbehind, fun _ => h.drained (by rw [hw]; trivial)⟩
  | set_terminated hw => exact ⟨hbehind, fun _ => h.drained (by rw [hw]; trivial)⟩
  | _ => exact ⟨hbehind, fun hl => hl.elim⟩

theorem inTime_step (hs : Step cfg s e t) (htime : PushedInTime s e) (hzero : ErrorZero s)
    (h : InTime s) : InTime t := by
  rcases step_cases hs with hw | ⟨c, hc⟩ | hu
  · exact inTime_worker_step hw hzero h
  · cases hc with
    | push hc =>
      obtain ⟨hnull, hleft⟩ := htime
      exact ⟨rpcs_behind_snoc h.behind (.inr hnull), fun hl => (hleft hl).elim⟩
    | _ => exact ⟨h.behind, h.drained⟩
  · rcases hu with hu | ⟨n, hu⟩ | hu
    · cases hu with
      | create hr => exact ⟨h.behind, fun hl => hl.elim⟩
      | _ => exact ⟨h.behind, h.drained⟩
    · cases hu with
      | push ht =>
        refine ⟨rpcs_behind_snoc h.behind (.inl rfl), ?_⟩
        intro hl
        rw [rpcs_snoc, h.drained hl]
        rfl
      | _ => exact ⟨h.behind, h.drained⟩
    · cases hu with
      | register => exact ⟨h.behind, h.drained⟩
      | send htag =>
        refine ⟨rpcs_behind_snoc h.behind (.inl rfl), ?_⟩
        intro hl
        rw [rpcs_snoc, h.drained hl]
        rfl

/-- In the runs that push every `TecRPC` ahead of the first NULL no caller is stranded. -/
theorem rpc_in_time_not_stranded (cfg : Config) (hinit : cfg.InitOk) (s : State Cb)
    (h : ((workerLts Cb cfg).restrict PushedInTime).Reachable s) (c : Nat) :
    ¬ Stranded cfg s c := by
  have hinv : Pending s ∧ ErrorZero s ∧ Served s ∧ InTime s := by
    refine h.invariant (P := fun s => Pending s ∧ ErrorZero s ∧ Served s ∧ InTime s) ?_ ?_
    · rintro s rfl
      refine ⟨pending_initial, fun _ => rfl, ?_, ⟨rfl, fun _ => rfl⟩⟩
      intro c hwait
      cases hwait
    · rintro s e t ⟨hp, hzero, hserved, hintime⟩ ⟨htime, hs⟩
      exact ⟨pending_step hs hp, errorZero_step hinit hs hp.created hzero,
        served_step hs hp hserved, inTime_step hs htime hzero hintime⟩
  obtain ⟨_, _, hserved, hintime⟩ := hinv
  rintro ⟨hexited, hwait, hunset⟩
  have hc := hserved c hwait (hunset [] s .refl)
  have hdrained := hintime.drained (by rw [hexited]; trivial)
  rw [State.outstanding, hexited, hdrained] at hc
  cases hc

/-- A worker that has exited never sets a signal again. -/
theorem exited_unset_step (hs : Step cfg s e t)
    (h : s.worker = .exited ∧ Created s ∧ (s.calls c).value = false) :
    t.worker = .exited ∧ Created t ∧ (t.calls c).value = false := by
  obtain ⟨hexited, hcreated, hvalue⟩ := h
  rcases step_cases hs with hw | ⟨d, hd⟩ | hu
  · cases hw <;> simp_all
  · refine ⟨(call_step_worker hd).trans hexited, created_call_step hd hcreated, ?_⟩
    by_cases hcd : c = d
    · subst hcd
      cases hd <;> simp_all [State.setCall]
    · rw [call_step_other hd hcd]
      exact hvalue
  · refine ⟨?_, created_control_step hu hcreated, ?_⟩
    · rcases control_step_worker hu with hw | ⟨hrun, _⟩
      · exact hw.trans hexited
      · rw [hcreated (.inr hrun)] at hexited
        cases hexited
    · rw [control_step_calls hu]
      exact hvalue

theorem stranded_of_exited (hp : Pending s) (hexited : s.worker = .exited)
    (hwait : (s.calls c).pc.Waiting) (hvalue : (s.calls c).value = false) : Stranded cfg s c := by
  refine ⟨hexited, hwait, ?_⟩
  intro xs t hrun
  have hkept := hrun.stable
    (P := fun s => s.worker = .exited ∧ Created s ∧ (s.calls c).value = false)
    (fun _ _ _ hs hstep => exited_unset_step hstep hs) ⟨hexited, hp.created, hvalue⟩
  exact hkept.2.2

theorem rpc_in_time_not_stranded_terminated :
    bareConfig.InitOk ∧ ∃ s : State Nat,
      ((workerLts Nat bareConfig).restrict PushedInTime).Reachable s ∧ s.worker = .exited ∧
        ¬ Stranded bareConfig s 0 := by
  have h0 : ((workerLts Nat bareConfig).restrict PushedInTime).History []
      (TecWorker_init bareConfig) := .init rfl
  have h1 := h0.snoc_restrict (Step.call 0 (@CallStep.init _ 0 _ "add" rfl)) trivial
  have h2 := h1.snoc_restrict (Step.call 0 (.push rfl))
    ⟨List.not_mem_nil, fun hl => hl.elim⟩
  have h3 := h2.snoc_restrict (Step.run (.lock rfl rfl)) trivial
  have h4 := h3.snoc_restrict (Step.run (.create rfl)) trivial
  have h5 := h4.snoc_restrict (Step.worker (.on_init rfl)) trivial
  have h6 := h5.snoc_restrict (Step.worker (.set_running rfl)) trivial
  have h7 := h6.snoc_restrict (Step.run (.wait_running rfl rfl)) trivial
  have h8 := h7.snoc_restrict (Step.run (.unlock rfl)) trivial
  have h9 := h8.snoc_restrict (Step.terminate 0 (.lock rfl rfl)) trivial
  have h10 := h9.snoc_restrict (Step.terminate 0 (.push rfl)) trivial
  have h11 := h10.snoc_restrict (Step.worker (.test_error rfl)) trivial
  have h12 := h11.snoc_restrict (Step.worker (.pop rfl rfl)) trivial
  have h13 := h12.snoc_restrict (Step.worker (.dispatch_rpc rfl rfl)) trivial
  have h14 := h13.snoc_restrict (Step.worker (.on_rpc_none rfl rfl)) trivial
  have h15 := h14.snoc_restrict (Step.worker (.set_store rfl)) trivial
  have h16 := h15.snoc_restrict (Step.worker (.set_lock rfl rfl)) trivial
  have h17 := h16.snoc_restrict (Step.worker (.set_broadcast rfl)) trivial
  have h18 := h17.snoc_restrict (Step.worker (.set_unlock rfl)) trivial
  have h19 := h18.snoc_restrict (Step.worker (.pop_null rfl rfl)) trivial
  have h20 := h19.snoc_restrict (Step.worker (.on_exit rfl)) trivial
  have h21 := h20.snoc_restrict (Step.worker (.set_terminated rfl)) trivial
  exact ⟨rfl, _, h21.reachable, rfl,
    rpc_in_time_not_stranded bareConfig rfl _ h21.reachable 0⟩

/-- A call that arrives behind the NULL of `TecDaemon_terminate`. -/
theorem rpc_stranded :
    ¬ ∀ (cfg : Config) (s : State Nat), cfg.InitOk → (workerLts Nat cfg).Reachable s →
      s.run = .returned 0 → ∀ c, ¬ Stranded cfg s c := by
  intro h
  have h0 : (workerLts Nat bareConfig).History [] (TecWorker_init bareConfig) := .init rfl
  have h1 := h0.snoc (Step.run (.lock rfl rfl))
  have h2 := h1.snoc (Step.run (.create rfl))
  have h3 := h2.snoc (Step.worker (.on_init rfl))
  have h4 := h3.snoc (Step.worker (.set_running rfl))
  have h5 := h4.snoc (Step.worker (.test_error rfl))
  have h6 := h5.snoc (Step.run (.wait_running rfl rfl))
  have h7 := h6.snoc (Step.run (.unlock rfl))
  have h8 := h7.snoc (Step.run (.return rfl))
  have h9 := h8.snoc (Step.terminate 0 (.lock rfl rfl))
  have h10 := h9.snoc (Step.terminate 0 (.push rfl))
  have h11 := h10.snoc (Step.call 0 (@CallStep.init _ 0 _ "add" rfl))
  have h12 := h11.snoc (Step.call 0 (.push rfl))
  have h13 := h12.snoc (Step.worker (.pop_null rfl rfl))
  have h14 := h13.snoc (Step.worker (.on_exit rfl))
  have h15 := h14.snoc (Step.worker (.set_terminated rfl))
  exact h bareConfig _ rfl h15.reachable rfl 0
    (stranded_of_exited (pending_reachable h15.reachable) rfl trivial rfl)

end Tecc.Worker
