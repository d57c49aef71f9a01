import Tecc.WorkerReturns

/-! A call of `TecDaemon_rpc` whose message is pushed in front of NULL is answered and returns. -/
namespace Tecc.Worker

open Transition

variable {Cb : Type} {cfg : Config} {s t : State Cb} {e : Event Cb} {c d n : Nat}
  {msg : TecMsg}

/-- The message is in the queue in front of NULL, and the worker thread is not behind its loop. -/
structure Coming (msg : TecMsg) (s : State Cb) : Prop where
  queued : some msg ∈ s.queue
  before : s.queue.idxOf (some msg) < s.queue.idxOf none
  stays : ¬ s.worker.Left

theorem idxOf_null_append {q new : List (Option TecMsg)} (hmem : some msg ∈ q)
    (hbefore : q.idxOf (some msg) < q.idxOf none) :
    (q ++ new).idxOf (some msg) < (q ++ new).idxOf none := by
  rw [List.idxOf_append_of_mem hmem]
  by_cases hnull : none ∈ q
  · rw [List.idxOf_append_of_mem hnull]
    exact hbefore
  · rw [List.idxOf_append_of_notMem hnull]
    have hlt := List.idxOf_lt_length_iff.mpr hmem
    omega

theorem Coming.of_stays (h : Coming msg s) (hqueue : s.queue <+: t.queue)
    (hleft : ¬ t.worker.Left) : Coming msg t := by
  obtain ⟨new, hq⟩ := hqueue
  refine ⟨?_, ?_, hleft⟩
  · rw [← hq]
    exact List.mem_append_left _ h.queued
  · rw [← hq]
    exact idxOf_null_append h.queued h.before

/-- The worker thread takes the message, or what is in front of it. -/
theorem coming_worker_step (hs : WorkerStep cfg s e t) (hzero : ErrorZero s) (h : Coming msg s) :
    t.worker = .dispatch msg ∨ Coming msg t := by
  cases hs with
  | test_error hw =>
    right
    have herror := hzero h.stays
    exact ⟨h.queued, h.before, by simp [herror, WorkerPc.Left]⟩
  | @pop m q hw hq =>
    by_cases hm : m = msg
    · subst hm
      exact .inl rfl
    · right
      have hne : some m ≠ some msg := fun heq => hm (Option.some.inj heq)
      have hqueued := h.queued
      have hbefore := h.before
      rw [hq] at hqueued
      rw [hq, List.idxOf_cons_ne _ hne, List.idxOf_cons_ne _ (by simp)] at hbefore
      exact ⟨(List.mem_cons.mp hqueued).resolve_left (Ne.symm hne),
        Nat.lt_of_succ_lt_succ hbefore, id⟩
  | pop_null hw hq =>
    have hbefore := h.before
    rw [hq, List.idxOf_cons_self] at hbefore
    exact absurd hbefore (Nat.not_lt_zero _)
  | on_exit hw | set_terminated hw =>
    have hstays := h.stays
    rw [hw] at hstays
    exact absurd trivial hstays
  | _ => exact .inr ⟨h.queued, h.before, id⟩

theorem coming_step (hs : Step cfg s e t) (hzero : ErrorZero s) (h : Coming msg s) :
    t.worker = .dispatch msg ∨ Coming msg t := by
  rcases stays_cases hs with hw | ⟨_, rfl⟩ | ⟨hstays, _⟩
  · exact coming_worker_step hw hzero h
  · exact .inr (h.of_stays List.prefix_rfl id)
  · exact .inr (h.of_stays hstays.queue (by rw [hstays.worker]; exact h.stays))

/-- Without a worker thread the message stays where it is. -/
theorem coming_absent_step (hs : Step cfg s e t) (habsent : s.worker = .absent)
    (h : Coming msg s) : Coming msg t := by
  rcases stays_cases hs with hw | ⟨_, rfl⟩ | ⟨hstays, _⟩
  · exact absurd habsent (move_present (worker_step_move hw)).1
  · exact h.of_stays List.prefix_rfl id
  · exact h.of_stays hstays.queue (by rw [hstays.worker]; exact h.stays)

theorem errorZero_reachable (hinit : cfg.InitOk) (h : (workerLts Cb cfg).Reachable s) :
    ErrorZero s := by
  obtain ⟨xs, hx⟩ := h
  refine hx.induction (P := fun _ s => ErrorZero s) ?_ ?_
  · rintro s rfl
    exact fun _ => rfl
  · intro xs s e t hhist h hs
    exact errorZero_step hinit hs (pending_reachable hhist.reachable).created h

/-- The worker thread, or a caller that has the mutex it waits for, is on the way to the message. -/
theorem coming_helpful (hinit : cfg.InitOk) (msg : TecMsg) :
    (workerLts Cb cfg).Helpful (Actor.steps cfg) (fun s => Coming msg s ∧ s.worker ≠ .absent)
      (fun s => s.worker = .dispatch msg) (workRank (some msg)) workerHelpful where
  enabled s hr h _ := by
    refine work_enabled (workerInv_reachable hr) h.2 ?_ fun _ => List.ne_nil_of_mem h.1.queued
    intro hexited
    exact h.1.stays (by rw [hexited]; trivial)
  step s e t hr h _ hs := by
    have hinv := workerInv_reachable hr
    rcases workRank_step hs hinv h.2 (.inl h.1.queued) with ⟨m, hm, hw⟩ | hlt | ⟨hsame, hact, _⟩
    · cases hm
      exact .inl hw
    · exact (coming_step hs (errorZero_reachable hinit hr) h.1).imp_right
        fun hcoming => ⟨⟨hcoming, step_present hs h.2⟩, .inl hlt⟩
    · exact (coming_step hs (errorZero_reachable hinit hr) h.1).imp_right
        fun hcoming => ⟨⟨hcoming, step_present hs h.2⟩, .inr ⟨hsame, hact⟩⟩
  actor s e t hr h _ hs := by
    rcases work_actor (workerInv_reachable hr) (.inl h.1.queued) hs with ⟨m, hm, hw⟩ | hlt
    · cases hm
      exact .inl hw
    · exact .inr hlt

theorem holds_worker_step (hs : WorkerStep cfg s e t) (hp : Pending s)
    (h : s.worker.holds = some c) : (t.calls c).value = true ∧ (t.calls c).pc.Begun ∨
      t.worker.holds = some c ∧ t.worker.steps 0 < s.worker.steps 0 := by
  have hwait := hp.waiting c (by simp [State.outstanding, h])
  cases hs with
  | set_store hw =>
    rw [hw] at h
    cases h
    left
    simpa [State.setCall] using hwait.begun
  | free hw =>
    rw [hw] at h
    cases (hp.typed _ (.inr hw)).symm.trans h
  | msg_handled hw =>
    rw [hw] at h
    cases h
  | on_msg_none hw hget =>
    rw [hw] at h
    cases (hp.typed _ (.inl hw)).symm.trans h
  | test_error hw =>
    rw [hw] at h
    cases h
  | dispatch_rpc hw _ | dispatch_msg hw _ | on_msg hw _ =>
    rw [hw] at h
    right
    refine ⟨h, ?_⟩
    simp [hw, WorkerPc.steps]
  | on_rpc hw _ | on_rpc_none hw _ | rpc_handled hw =>
    rw [hw] at h
    right
    refine ⟨h, ?_⟩
    simp [hw, WorkerPc.steps]
  | on_init hw | set_running hw | pop hw _ | pop_null hw _ | set_lock hw _ | set_broadcast hw
  | set_unlock hw | on_exit hw | set_terminated hw =>
    rw [hw] at h
    cases h

/-- Nobody else is needed between `TecQueue_pop` and the store of the value. -/
theorem holds_helpful (c : Nat) : (workerLts Cb cfg).Helpful (Actor.steps cfg)
    (fun s => s.worker.holds = some c)
    (fun s => (s.calls c).value = true ∧ (s.calls c).pc.Begun) (fun s => s.worker.steps 0)
    (fun _ => .worker) where
  enabled s hr h _ := by
    refine worker_enabled (workerInv_reachable hr) ?_ ?_ ?_ ?_
    · intro hw
      rw [hw] at h
      cases h
    · intro hw
      rw [hw] at h
      cases h
    · intro hw
      rw [hw] at h
      cases h
    · intro d hw
      rw [hw] at h
      cases h
  step s e t hr h _ hs := by
    have hinv := workerInv_reachable hr
    have hpresent : s.worker ≠ .absent := by
      intro hw
      rw [hw] at h
      cases h
    rcases stays_step hs hinv.phase.created hpresent with hw | ⟨hstays, _⟩
    · exact (holds_worker_step hw hinv.pending h).imp_right fun ⟨hholds, hlt⟩ =>
        ⟨hholds, .inl hlt⟩
    · rw [hstays.worker]
      exact .inr ⟨h, .inr ⟨rfl, rfl⟩⟩
  actor s e t hr h _ hs :=
    (holds_worker_step hs (workerInv_reachable hr).pending h).imp_right fun ⟨_, hlt⟩ => hlt

/-! Behind the store of the value -/

def answerRank (c : Nat) (s : State Cb) : Nat ×ₗ Nat :=
  toLex (if s.worker.setting = some c then s.worker.steps 0 else 0, (s.calls c).pc.steps)

/-- The caller waits for `TecSignal_set` to be done with its signal. -/
def answerHelpful (c : Nat) (s : State Cb) : Actor :=
  if s.worker.setting = some c then workerHelpful s else .call c

theorem begun_call_step (hs : CallStep c s e t) (h : (s.calls c).pc.Begun) :
    (t.calls c).pc.Begun := by
  cases hs with
  | init hc =>
    rw [hc] at h
    exact h.elim
  | wait_load hc | wait_check hc =>
    cases hv : (s.calls c).value <;> simp [State.setCall, hv, CallPc.Begun]
  | _ => simp [State.setCall, CallPc.Begun]

theorem begun_worker_step (hs : WorkerStep cfg s e t) (h : (s.calls c).pc.Begun) :
    (t.calls c).pc.Begun := by
  rcases (worker_step_call hs c).pc with hpc | ⟨_, hwoken⟩
  · rwa [hpc]
  · rw [hwoken]
    trivial

theorem value_call_step (hs : CallStep c s e t) (hbegun : (s.calls c).pc.Begun)
    (h : (s.calls c).value = true) : (t.calls c).value = true := by
  cases hs with
  | init hc =>
    rw [hc] at hbegun
    exact hbegun.elim
  | _ => simpa [State.setCall] using h

theorem answer_stays (hs : Step cfg s e t)
    (h : (s.calls c).value = true ∧ (s.calls c).pc.Begun) :
    (t.calls c).value = true ∧ (t.calls c).pc.Begun := by
  rcases step_cases hs with hw | ⟨d, hd⟩ | hu
  · refine ⟨?_, begun_worker_step hw h.2⟩
    rcases (worker_step_call hw c).value with hv | ⟨_, hv⟩
    · rw [hv]
      exact h.1
    · exact hv
  · by_cases hdc : c = d
    · subst hdc
      exact ⟨value_call_step hd h.2 h.1, begun_call_step hd h.2⟩
    · rwa [call_step_other hd hdc]
  · rwa [control_step_calls hu]

theorem setting_worker_lt (hs : WorkerStep cfg s e t) (h : s.worker.setting = some c) :
    answerRank c t < answerRank c s := by
  refine Prod.Lex.toLex_lt_toLex.mpr (.inl ?_)
  rw [if_pos h]
  cases hs with
  | set_lock hw _ | set_broadcast hw | set_unlock hw =>
    rw [hw] at h
    cases h
    simp [hw, WorkerPc.setting, WorkerPc.steps]
  | on_init hw | set_running hw | test_error hw | pop hw _ | pop_null hw _ | dispatch_rpc hw _
  | dispatch_msg hw _ | on_msg hw _ | on_msg_none hw _ | msg_handled hw | free hw | on_rpc hw _
  | on_rpc_none hw _ | rpc_handled hw | set_store hw | on_exit hw | set_terminated hw =>
    rw [hw] at h
    cases h

/-- A worker thread that does not set the signal leaves the caller alone. -/
theorem not_setting_worker_step (hs : WorkerStep cfg s e t) (hinv : WorkerInv cfg s)
    (hvalue : (s.calls c).value = true) (h : s.worker.setting ≠ some c) :
    t.worker.setting ≠ some c ∧ (t.calls c).pc = (s.calls c).pc := by
  constructor
  · intro hset
    rcases setting_worker_step hs hset with hold | hstore
    · exact h hold
    · have hunset := hinv.pending.unset c (by simp [State.outstanding, hstore, WorkerPc.holds])
      cases hunset.symm.trans hvalue
  · rcases (worker_step_call hs c).pc with hpc | ⟨hasleep, _⟩
    · exact hpc
    · obtain ⟨hl, hb, _⟩ := not_setting h
      exact absurd ((hinv.signals c).asleep hvalue hasleep) (by simp [hl, hb])

theorem answer_same (hworker : t.worker.setting = s.worker.setting)
    (hset : s.worker.setting = some c → t.worker = s.worker) (hcall : t.calls c = s.calls c) :
    answerRank c t = answerRank c s ∧ answerHelpful c t = answerHelpful c s := by
  unfold answerRank answerHelpful
  rw [hworker, hcall]
  by_cases h : s.worker.setting = some c
  · have hblocked : t.blocked = s.blocked := by
      unfold State.blocked
      rw [hset h]
      cases hw : s.worker with
      | set_lock d =>
        rw [hw] at h
        cases h
        simp only [hcall]
      | _ => rfl
    simp only [if_pos h, hset h, workerHelpful, hblocked, and_self]
  · simp only [if_neg h, and_self]

theorem answerRank_step (hs : Step cfg s e t) (hinv : WorkerInv cfg s)
    (h : (s.calls c).value = true ∧ (s.calls c).pc.Begun) :
    answerRank c t < answerRank c s ∨
      answerRank c t = answerRank c s ∧ answerHelpful c t = answerHelpful c s := by
  rcases step_cases hs with hw | ⟨d, hd⟩ | hu
  · by_cases hset : s.worker.setting = some c
    · exact .inl (setting_worker_lt hw hset)
    · obtain ⟨hset', hpc⟩ := not_setting_worker_step hw hinv h.1 hset
      right
      unfold answerRank answerHelpful
      simp only [if_neg hset, if_neg hset', hpc, and_self]
  · have hworker := call_step_worker hd
    by_cases hdc : c = d
    · subst hdc
      left
      refine Prod.Lex.toLex_lt_toLex.mpr (.inr ⟨?_, call_steps_lt hd h.1⟩)
      simp only [hworker]
    · exact .inr (answer_same (by rw [hworker]) (fun _ => hworker) (call_step_other hd hdc))
  · right
    have hcalls := congrFun (control_step_calls hu) c
    rcases control_step_worker hu with hworker | ⟨hr, hworker⟩
    · exact answer_same (by rw [hworker]) (fun _ => hworker) hcalls
    · have habsent := hinv.pending.created (.inr hr)
      exact answer_same (by rw [hworker, habsent]; rfl) (by rw [habsent]; nofun) hcalls

/-- A caller that is not asleep goes on when nobody else has its mutex. -/
theorem call_enabled (hinv : WorkerInv cfg s)
    (h : (s.calls c).value = true ∧ (s.calls c).pc.Begun) (hset : s.worker.setting ≠ some c)
    (hreturned : ∀ error, (s.calls c).pc ≠ .returned error) :
    ∃ e t, Actor.steps cfg (.call c) s e t := by
  obtain ⟨hl, hb, hu⟩ := not_setting hset
  have hsignal := hinv.signals c
  have hasleep : (s.calls c).pc ≠ .asleep :=
    fun hpc => absurd (hsignal.asleep h.1 hpc) (by simp [hl, hb])
  have hfree : ¬ (s.calls c).pc.Locked → (s.calls c).mtx = none := by
    intro hunlocked
    cases hmtx : (s.calls c).mtx with
    | none => rfl
    | some holder =>
      cases holder with
      | caller => exact absurd (hsignal.caller.mp hmtx) hunlocked
      | setter => exact absurd (hsignal.setter.mp hmtx) (by simp [hb, hu])
  have hbegun := h.2
  suffices h : ∃ e t, CallStep c s e t by
    obtain ⟨e, t, hs⟩ := h
    refine ⟨e, t, hs, ?_, hasleep⟩
    intro hpc
    rw [hpc] at hbegun
    exact hbegun
  cases hpc : (s.calls c).pc with
  | idle | push _ =>
    rw [hpc] at hbegun
    exact hbegun.elim
  | wait_load => exact ⟨_, _, .wait_load hpc⟩
  | wait_lock => exact ⟨_, _, .wait_lock hpc (hfree (by rw [hpc]; exact id))⟩
  | wait_check => exact ⟨_, _, .wait_check hpc⟩
  | wait_sleep => exact ⟨_, _, .wait_sleep hpc⟩
  | asleep => exact absurd hpc hasleep
  | woken => exact ⟨_, _, .woken hpc (hfree (by rw [hpc]; exact id))⟩
  | wait_unlock => exact ⟨_, _, .wait_unlock hpc⟩
  | signal_done => exact ⟨_, _, .signal_done hpc⟩
  | «return» => exact ⟨_, _, .return hpc⟩
  | returned error => exact absurd hpc (hreturned error)

/-- A caller whose value is set does not sleep on: `TecSignal_set` wakes it up. -/
theorem answer_helpful (c : Nat) : (workerLts Cb cfg).Helpful (Actor.steps cfg)
    (fun s => (s.calls c).value = true ∧ (s.calls c).pc.Begun)
    (fun s => ∃ error, (s.calls c).pc = .returned error) (answerRank c) (answerHelpful c) where
  enabled s hr h hreturned := by
    have hinv := workerInv_reachable hr
    by_cases hset : s.worker.setting = some c
    · rw [answerHelpful, if_pos hset]
      refine work_enabled hinv ?_ ?_ ?_ <;>
      · intro hw
        rw [hw] at hset
        cases hset
    · rw [answerHelpful, if_neg hset]
      exact call_enabled hinv h hset fun error herror => hreturned ⟨error, herror⟩
  step _ _ _ hr h _ hs :=
    .inr ⟨answer_stays hs h, answerRank_step hs (workerInv_reachable hr) h⟩
  actor s e t hr h _ hs := by
    right
    by_cases hset : s.worker.setting = some c
    · rw [answerHelpful, if_pos hset] at hs
      cases hb : s.blocked with
      | none =>
        rw [workerHelpful, hb] at hs
        exact setting_worker_lt hs hset
      | some d =>
        rw [workerHelpful, hb] at hs
        obtain ⟨hw, _⟩ := blocked_some hb
        rw [hw] at hset
        cases hset
        refine Prod.Lex.toLex_lt_toLex.mpr (.inr ⟨?_, call_steps_lt hs.1 h.1⟩)
        simp only [call_step_worker hs.1]
    · rw [answerHelpful, if_neg hset] at hs
      refine Prod.Lex.toLex_lt_toLex.mpr (.inr ⟨?_, call_steps_lt hs.1 h.1⟩)
      simp only [call_step_worker hs.1]

theorem coming_of_push {request : String} (hs : Step cfg s (.push (some (.rpc c request))) t)
    (htime : PushedInTime s (.push (some (.rpc c request)))) : Coming (.rpc c request) t := by
  obtain ⟨hnull, hleft⟩ := htime
  cases hs with
  | worker hs => cases hs
  | run hs => cases hs
  | terminate n hs => cases hs
  | user hs => cases hs
  | call d hs =>
    cases hs with
    | push hc =>
      have hmem : some (TecMsg.rpc c request) ∈ s.queue ++ [some (.rpc c request)] := by simp
      have hnull' : none ∉ s.queue ++ [some (TecMsg.rpc c request)] := by simpa using hnull
      refine ⟨hmem, ?_, hleft⟩
      simp only [List.idxOf_eq_length hnull']
      exact List.idxOf_lt_length_iff.mpr hmem

/-- A call of `TecDaemon_rpc` that is pushed in front of NULL, on a worker that is run sooner or
later and whose initialization succeeds, is answered and returns, as long as no caller destroys its
signal too early. -/
theorem rpc_returns (cfg : Config) (hinit : cfg.InitOk) (E : Execution (State Cb) (Event Cb))
    (hE : ((workerLts Cb cfg).restrict Outlives).Valid E)
    (hfair : ∀ i, E.Fair (Actor.alive_steps cfg i))
    (hcreated : ∃ j, (E.state j).worker ≠ .absent) (c : Nat) (request : String) (m : Nat)
    (hpush : E.event m = some (.push (some (.rpc c request))))
    (htime : PushedInTime (E.state m) (.push (some (.rpc c request)))) :
    ∃ k error, m < k ∧ ((E.state k).calls c).pc = .returned error := by
  have hfair := steps_fair hE hfair
  have hE := hE.of_restrict
  have hcoming := coming_of_push (hE.step m _ hpush) htime
  obtain ⟨j, hj⟩ := hcreated
  obtain ⟨m₁, hm₁, hcoming₁, hpresent⟩ := hE.meets
    (P := Coming (.rpc c request)) (Q := fun s => s.worker ≠ .absent)
    (fun s e t hr h habsent hs => coming_absent_step hs (not_not.mp habsent) h)
    (fun s e t _ h hs => step_present hs h) hcoming hj
  obtain ⟨m₂, hm₂, hdispatch⟩ := (coming_helpful hinit _).leadsTo hE (fun _ _ => hfair _) m₁
    ⟨hcoming₁, hpresent⟩
  obtain ⟨m₃, hm₃, hvalue⟩ := (holds_helpful c).leadsTo hE (fun _ _ => hfair _) m₂
    (by rw [hdispatch]; rfl)
  obtain ⟨k, hk, error, hreturned⟩ := (answer_helpful c).leadsTo hE (fun _ _ => hfair _) m₃ hvalue
  exact ⟨k, error, by omega, hreturned⟩

/-- The caller is asleep when the worker is run. -/
theorem rpc_returns_asleep :
    ∃ E : Execution (State Nat) (Event Nat),
      ((workerLts Nat bareConfig).restrict Outlives).Valid E ∧
      E.event 1 = some (.push (some (.rpc 0 "add"))) ∧
      ∃ k error, 1 < k ∧ ((E.state k).calls 0).pc = .returned error := by
  have h0 : ((workerLts Nat bareConfig).restrict Outlives).History []
      (TecWorker_init bareConfig) := .init rfl
  have h1 := h0.snoc_restrict (Step.call 0 (@CallStep.init _ 0 _ "add" rfl)) trivial
  have r2 := h1.here.snoc_restrict (Step.call 0 (.push rfl)) trivial
  have r3 := r2.snoc_restrict (Step.call 0 (.wait_load rfl)) trivial
  have r4 := r3.snoc_restrict (Step.call 0 (.wait_lock rfl rfl)) trivial
  have r5 := r4.snoc_restrict (Step.call 0 (.wait_check rfl)) trivial
  have r6 := r5.snoc_restrict (Step.call 0 (.wait_sleep rfl)) trivial
  have r7 := r6.trans (run_started rfl (fun _ => trivial) rfl rfl rfl)
  have r8 := r7.snoc_restrict (Step.worker (.pop rfl rfl)) trivial
  have r9 := r8.snoc_restrict (Step.worker (.dispatch_rpc rfl rfl)) trivial
  have r10 := r9.snoc_restrict (Step.worker (.on_rpc_none rfl rfl)) trivial
  have r11 := r10.snoc_restrict (Step.worker (.set_store rfl)) trivial
  have r12 := r11.snoc_restrict (Step.worker (.set_lock rfl rfl)) trivial
  have r13 := r12.snoc_restrict (Step.worker (.set_broadcast rfl)) trivial
  have r14 := r13.snoc_restrict (Step.worker (.set_unlock rfl)) trivial
  have r15 := r14.snoc_restrict (Step.call 0 (.woken rfl rfl)) trivial
  have r16 := r15.snoc_restrict (Step.call 0 (.wait_check rfl)) trivial
  have r17 := r16.snoc_restrict (Step.call 0 (.wait_unlock rfl)) trivial
  have r18 := r17.snoc_restrict (Step.call 0 (.signal_done rfl)) (fun hset => by cases hset)
  have r19 := r18.snoc_restrict (Step.call 0 (.return rfl)) trivial
  obtain ⟨E, hE, hends, hevent, hbegun⟩ := h1.execution r19
  have hfair : ∀ i, E.Fair (Actor.alive_steps bareConfig i) := by
    intro i
    refine hends.fair fun e t hs => returned_no_steps ?_ ⟨_, rfl⟩ ?_ ?_ i hs.1
    · exact fun _ _ => waiting_no_step rfl rfl
    · exact fun n => .inl rfl
    · intro c
      by_cases hc : c = 0
      · subst hc
        exact .inr ⟨_, rfl⟩
      · left
        simp [State.setCall, hc]
        rfl
  have htime : PushedInTime (E.state 1) (.push (some (.rpc 0 "add"))) := by
    rw [show E.state 1 = _ from hbegun]
    exact ⟨List.not_mem_nil, id⟩
  have hcreated : ∃ j, (E.state j).worker ≠ .absent :=
    ⟨_, by rw [(hends _ (Nat.le_refl _)).1]; simp [State.setCall]⟩
  obtain ⟨k, error, hk, hreturned⟩ := rpc_returns bareConfig rfl E hE hfair hcreated 0 "add" 1
    (hevent 1) htime
  exact ⟨E, hE, hevent 1, k, error, hk, hreturned⟩

end Tecc.Worker
