import Tecc.ServerProgress

/-! `TecDaemon_run` and `TecDaemon_terminate` of a server return, when the threads are scheduled
fairly, the handlers return, and `accept` returns once the listening socket is closed. -/
namespace Tecc.TcpServer

open Transition Worker Socket ServiceWorker

variable {Cb : Type} {setup : Setup} {cfg : Config} {s t : ServiceState Cb TecTCPServer}
  {e : ServiceEvent Cb ServerAct} {n : Nat}
  {E : Execution (ServiceState Cb TecTCPServer) (ServiceEvent Cb ServerAct)}
  {G P : ServiceState Cb TecTCPServer → Prop}

/-! The service thread -/

theorem Way.leadsTo (h : Way setup cfg G P) (hE : (serverLts Cb setup cfg).Valid E)
    (hfair : E.Fair (Actor.steps setup cfg .service))
    (hclosed : ∀ s, ServerInv s → P s → ¬ G s → s.service.start = .accepting →
      s.service.closed = true) : E.LeadsTo (fun s => s.start ≠ .absent ∧ P s) G := by
  rintro m ⟨hpresent, hP⟩
  refine h.ranking.leadsTo hE hfair ?_ ?_ m ⟨hE.reachable m, hpresent, hP⟩
  · rintro s ⟨hreach, hpresent, hP⟩ hG
    obtain ⟨e, t, he, hs⟩ := h.ranking.enabled s ⟨hreach, hpresent, hP⟩ hG
    exact ⟨e, t, hs, he, hclosed s (reachable_inv hreach).1 hP hG⟩
  · exact fun s e t hs => ⟨hs.1, hs.2.1⟩

/-- A service thread that is not in its loop any more, or has failed, comes to its end. -/
theorem returned_way (setup : Setup) (cfg : Config) :
    Way setup cfg (fun s : ServiceState Cb TecTCPServer => s.service.start = .returned)
      (fun s => s.service.start.Over ∨ s.service.start.Failing) where
  stable s e t hpc hs := by
    rcases service_step_cases hs with ⟨hsame, _⟩ | ⟨a, ha, _⟩ | ⟨a, ha, _⟩
    · rw [hsame]
      exact hpc
    · generalize s.service = self at ha hpc
      generalize t.service = next at ha
      cases ha <;> simp_all
    · exact (shutdown_start ha).1.trans hpc
  kept s e t _ hP _ hs := by
    rcases service_step_cases hs with ⟨hsame, _⟩ | ⟨a, ha, _⟩ | ⟨a, ha, _⟩
    · rw [hsame]
      exact .inr hP
    · right
      generalize s.service = self at ha hP
      generalize t.service = next at ha
      cases ha with
      | log_failed hp => exact .inr trivial
      | set_failed hp | started_failed hp | «return» hp | set_stopped hp => exact .inl trivial
      | log_connecting hp | «open» hp | set_options hp | bind hp | listen hp | error hp
      | init_buffer hp | log_ok hp | started hp | running hp | accept hp | accepting hp _
      | dispatch hp | dispatching hp =>
        rw [hp] at hP
        rcases hP with hP | hP <;> exact hP.elim
    · rw [(shutdown_start ha).1]
      exact .inr hP
  ended s _ hpc _ := hpc
  running s _ hP _ hpc := by
    rw [hpc] at hP
    rcases hP with hP | hP <;> exact hP.elim
  accepting s _ hP _ hpc := by
    rw [hpc] at hP
    rcases hP with hP | hP <;> exact hP.elim

theorem started_comes (hE : (serverLts Cb setup cfg).Valid E)
    (hfair : E.Fair (Actor.steps setup cfg .service)) :
    E.LeadsTo (fun s => s.start ≠ .absent) (fun s => s.sig_started = true) := by
  intro m hm
  refine (started_way setup cfg).leadsTo hE hfair ?_ m ⟨hm, trivial⟩
  intro s hinv _ hunset hpc
  exact absurd (hinv.start.signalled.mpr (by rw [hpc]; trivial)) hunset

theorem exited_comes (hE : (serverLts Cb setup cfg).Valid E)
    (hfair : E.Fair (Actor.steps setup cfg .service)) :
    E.LeadsTo (fun s => s.start ≠ .absent ∧
      (s.service.start.Over ∨ s.service.start.Failing)) (fun s => s.start = .exited) := by
  intro m hm
  obtain ⟨n, hn, hreturned⟩ := (returned_way setup cfg).leadsTo hE hfair (by
    intro s _ hP _ hpc
    rw [hpc] at hP
    rcases hP with hP | hP <;> exact hP.elim) m hm
  exact ⟨n, hn, (facts_reachable (hE.reachable n)).settled.start hreturned⟩

/-! The exit thread -/

/-- The steps that `shutdown_` has ahead of it. -/
def ShutdownPc.steps : ShutdownPc → Nat
  | .store_running => 7
  | .close => 6
  | .clear => 5
  | .wait_polling => 4
  | .set_stopped => 3
  | .log => 2
  | .return => 1
  | .returned => 0

/-- `shutdown_` waits for the service thread. -/
def Polls (s : ServiceState Cb TecTCPServer) : Prop :=
  s.service.shutdown = .wait_polling ∧ s.service.sig_polling_stopped = false

instance (s : ServiceState Cb TecTCPServer) : Decidable (Polls s) :=
  inferInstanceAs (Decidable (_ ∧ _))

def exit_rank (s : ServiceState Cb TecTCPServer) : Nat :=
  s.service.shutdown.steps + if s.shutdown = .created then 1 else 0

def exitRank (s : ServiceState Cb TecTCPServer) : Nat ×ₗ Nat :=
  toLex (exit_rank s, if Polls s then thread_rank s else 0)

def exitHelpful (s : ServiceState Cb TecTCPServer) : Actor := if Polls s then .service else .exit

theorem shutdown_steps_lt {self next : TecTCPServer} {a : ShutdownAct ServerAct}
    (hs : shutdown_ setup self a next) : next.shutdown.steps < self.shutdown.steps := by
  cases hs <;> simp_all [ShutdownPc.steps]

theorem shutdown_step_lt (hs : ShutdownStep (TecTCPServer_init setup) s e t) :
    exitRank t < exitRank s := by
  refine Prod.Lex.toLex_lt_toLex.mpr (.inl ?_)
  cases hs with
  | call hs => simp [exit_rank, hs]
  | @act a v hs ha =>
    have hlt := shutdown_steps_lt ha
    have hcreated : (s.afterShutdown a).shutdown ≠ .created := by
      cases a <;> simp [ServiceState.afterShutdown, hs]
    simpa [exit_rank, hs, hcreated] using hlt

/-- A service thread that `shutdown_` waits for is on its way out of the loop. -/
theorem start_step_lt (hs : StartStep (TecTCPServer_init setup) s e t) (hinv : ServerInv s)
    (hpolls : Polls s) : exitRank t < exitRank s := by
  have hsame : exit_rank t = exit_rank s ∧ thread_rank t < thread_rank s := by
    cases hs with
    | call hs => exact ⟨rfl, by simp [thread_rank, hs]⟩
    | @act a v hs ha =>
      have hrunning := hinv.running (by rw [hpolls.1]; exact fun h => by cases h)
      have hlt := start_step_rank ha fun _ => hrunning
      have hshutdown := (start_step_server ha).1.1
      have hthread : (s.afterStart a).shutdown = s.shutdown ∧
          (s.afterStart a).start ≠ .created := by
        cases a <;> simp [ServiceState.afterStart, hs]
      refine ⟨?_, ?_⟩
      · simp [exit_rank, hthread.1, hshutdown]
      · simpa [thread_rank, hs, hthread.2] using hlt
  refine Prod.Lex.toLex_lt_toLex.mpr (.inr ⟨hsame.1, ?_⟩)
  simp only [if_pos hpolls]
  by_cases hpolls' : Polls t
  · rw [if_pos hpolls']
    exact hsame.2
  · rw [if_neg hpolls']
    exact Nat.lt_of_le_of_lt (Nat.zero_le _) hsame.2

/-- The exit thread and the service thread that it waits for bring it closer to its end; the others
leave it where it is. -/
theorem exitRank_step (hs : ServiceStep (TecTCPServer_init setup) cfg s e t) (hf : Facts s)
    (hpresent : s.shutdown ≠ .absent) : exitRank t < exitRank s ∨
      exitRank t = exitRank s ∧ exitHelpful t = exitHelpful s := by
  have hsame : t.service = s.service → t.start = s.start → t.shutdown = s.shutdown →
      exitRank t = exitRank s ∧ exitHelpful t = exitHelpful s := by
    intro hservice hstart hshutdown
    have hpolls : Polls t ↔ Polls s := by rw [Polls, Polls, hservice]
    have hranks : exit_rank t = exit_rank s ∧ thread_rank t = thread_rank s := by
      unfold exit_rank thread_rank
      rw [hservice, hstart, hshutdown]
      exact ⟨rfl, rfl⟩
    simp only [exitRank, exitHelpful, hpolls, hranks, and_self]
  cases hs with
  | life hs hm hready => exact .inr (hsame rfl rfl rfl)
  | init hs =>
    cases hs with
    | create hh =>
      have hstage := hf.stage
      rw [hh] at hstage
      exact absurd hstage.2.shutdown hpresent
    | _ => exact .inr (hsame rfl rfl rfl)
  | exit hs =>
    cases hs with
    | create hh =>
      have hstage := hf.stage
      rw [hh] at hstage
      exact absurd hstage.2.1 hpresent
    | _ => exact .inr (hsame rfl rfl rfl)
  | start hs =>
    by_cases hpolls : Polls s
    · exact .inl (start_step_lt hs hf.server hpolls)
    · right
      have hnot : exit_rank t = exit_rank s ∧ ¬ Polls t := by
        cases hs with
        | call hs => exact ⟨rfl, hpolls⟩
        | @act a v hs ha =>
          have hshutdown := (start_step_server ha).1.1
          have hthread : (s.afterStart a).shutdown = s.shutdown := by cases a <;> rfl
          refine ⟨by simp [exit_rank, hthread, hshutdown], ?_⟩
          rintro ⟨hwait, hunset⟩
          refine hpolls ⟨hshutdown.symm.trans hwait, ?_⟩
          cases hset : s.service.sig_polling_stopped with
          | false => rfl
          | true => cases (start_polling_stopped ha hset).symm.trans hunset
      unfold exitRank exitHelpful
      rw [hnot.1, if_neg hnot.2, if_neg hpolls, if_neg hnot.2, if_neg hpolls]
      exact ⟨rfl, rfl⟩
  | shutdown hs => exact .inl (shutdown_step_lt hs)
  | done hd hj hjoinable => exact .inr (hsame rfl rfl rfl)

/-- `shutdown_` waits for a service thread that is in its loop, or behind it and about to tell. -/
theorem polls_enabled (hclosed : ∃ fd, setup.accepts true fd) (hf : Facts s) (hpolls : Polls s)
    (hpresent : s.shutdown ≠ .absent) : ∃ e t, Actor.steps setup cfg .service s e t := by
  obtain ⟨_, hsig⟩ := hf.down hpresent
  have hsignalled := hf.server.start.signalled.mp hsig
  have hover : ¬ s.service.start.Over := by
    rw [← hf.server.start.stopped, hpolls.2]
    exact Bool.false_ne_true
  have hnot : s.service.start ≠ .returned := by
    intro hpc
    rw [hpc] at hover
    exact hover trivial
  have hrunning : s.start = .running := by
    cases hthread : s.start with
    | absent | created =>
      rw [hf.server.fresh (by simp [hthread])] at hsignalled
      exact hsignalled.elim
    | exited => exact absurd (hf.server.ended hthread) hnot
    | running => rfl
  have hdown : s.service.closed = true := hf.server.closing (.inr (by rw [hpolls.1]; trivial))
  obtain ⟨a, v, ha⟩ := start_enabled hnot fun _ => by
    rw [hdown]
    exact hclosed
  exact ⟨.start a, _, ⟨trivial, .start (.act hrunning ha)⟩, rfl, fun _ => hdown⟩

theorem exit_enabled (hclosed : ∃ fd, setup.accepts true fd) (hf : Facts s)
    (hpresent : s.shutdown ≠ .absent) (hexited : s.shutdown ≠ .exited) :
    ∃ e t, Actor.steps setup cfg (exitHelpful s) s e t := by
  by_cases hpolls : Polls s
  · rw [exitHelpful, if_pos hpolls]
    exact polls_enabled hclosed hf hpolls hpresent
  · rw [exitHelpful, if_neg hpolls]
    suffices h : ∃ e t, ShutdownStep (TecTCPServer_init setup) s e t ∧ Assumed s e by
      obtain ⟨e, t, hs, hA⟩ := h
      exact ⟨e, t, ⟨hA, .shutdown hs⟩, hs⟩
    cases hthread : s.shutdown with
    | absent => exact absurd hthread hpresent
    | exited => exact absurd hthread hexited
    | created => exact ⟨_, _, .call hthread, trivial⟩
    | running =>
      suffices h : ∃ a v, shutdown_ setup s.service a v by
        obtain ⟨a, v, ha⟩ := h
        exact ⟨.shutdown a, _, .act hthread ha, trivial⟩
      cases hp : s.service.shutdown with
      | store_running => exact ⟨_, _, .store_running hp⟩
      | close =>
        by_cases hfd : s.service.sock.fd = -1
        · exact ⟨_, _, .not_open hp hfd⟩
        · exact ⟨_, _, .close hp hfd⟩
      | clear => exact ⟨_, _, .clear hp⟩
      | wait_polling =>
        refine ⟨_, _, .wait_polling hp ?_⟩
        exact Bool.eq_true_of_not_eq_false fun hunset => hpolls ⟨hp, hunset⟩
      | set_stopped => exact ⟨_, _, .set_stopped hp⟩
      | log => exact ⟨_, _, .log hp⟩
      | «return» => exact ⟨_, _, .return hp⟩
      | returned => exact absurd (hf.settled.shutdown hp) hexited

theorem exit_actor (hf : Facts s) (hs : Actor.steps setup cfg (exitHelpful s) s e t) :
    exitRank t < exitRank s := by
  by_cases hpolls : Polls s
  · rw [exitHelpful, if_pos hpolls] at hs
    exact start_step_lt (start_step_of hs.1.2 hs.2.1) hf.server hpolls
  · rw [exitHelpful, if_neg hpolls] at hs
    exact shutdown_step_lt hs.2

theorem shutdown_present (hs : ServiceStep (TecTCPServer_init setup) cfg s e t)
    (h : s.shutdown ≠ .absent) : t.shutdown ≠ .absent := by
  cases hs with
  | life hs hm hready => exact h
  | init hs => cases hs <;> exact h
  | exit hs =>
    cases hs with
    | create hh => nofun
    | _ => exact h
  | start hs =>
    cases hs with
    | call hs => exact h
    | @act a v hs ha => cases a <;> exact h
  | shutdown hs =>
    cases hs with
    | call hs => nofun
    | @act a v hs ha =>
      cases a with
      | «return» => nofun
      | _ => exact h
  | done hd hj hjoinable => exact h

theorem exit_helpful (hclosed : ∃ fd, setup.accepts true fd) :
    (serverLts Cb setup cfg).Helpful (Actor.steps setup cfg) (fun s => s.shutdown ≠ .absent)
      (fun s => s.shutdown = .exited) exitRank exitHelpful where
  enabled _ hr h hexited := exit_enabled hclosed (facts_reachable hr) h hexited
  step _ _ _ hr h _ hs :=
    .inr ⟨shutdown_present hs.2 h, exitRank_step hs.2 (facts_reachable hr) h⟩
  actor _ _ _ hr _ _ hs := .inr (exit_actor (facts_reachable hr) hs)

/-! The worker thread in its hooks -/

theorem exited_stays (hs : ServiceStep (TecTCPServer_init setup) cfg s e t) (hf : Facts s)
    (h : s.start = .exited) : t.start = .exited := by
  cases hs with
  | init hs =>
    cases hs with
    | create hh =>
      have hstage := hf.stage
      rw [hh] at hstage
      cases h.symm.trans hstage.2.start
    | _ => exact h
  | exit hs => cases hs <;> exact h
  | start hs =>
    cases hs with
    | call hs => cases hs.symm.trans h
    | act hs ha => cases hs.symm.trans h
  | shutdown hs =>
    cases hs with
    | call hs => exact h
    | @act a v hs ha => cases a <;> exact h
  | life hs hm hready => exact h
  | done hd hj hjoinable => exact h

theorem shutdown_exited_stays (hs : ServiceStep (TecTCPServer_init setup) cfg s e t)
    (hf : Facts s) (h : s.shutdown = .exited) : t.shutdown = .exited := by
  cases hs with
  | init hs => cases hs <;> exact h
  | exit hs =>
    cases hs with
    | create hh =>
      have hstage := hf.stage
      rw [hh] at hstage
      cases h.symm.trans hstage.2.1
    | _ => exact h
  | start hs =>
    cases hs with
    | call hs => exact h
    | @act a v hs ha => cases a <;> exact h
  | shutdown hs =>
    cases hs with
    | call hs => cases hs.symm.trans h
    | act hs ha => cases hs.symm.trans h
  | life hs hm hready => exact h
  | done hd hj hjoinable => exact h

/-- What the worker thread waits for stays. -/
theorem ready_stays (hs : ServiceStep (TecTCPServer_init setup) cfg s e t) (hf : Facts s)
    (hhook : t.hook = s.hook) (h : HookReady s) : HookReady t := by
  unfold HookReady at h ⊢
  rw [hhook]
  revert h
  cases s.hook with
  | init_wait_started => exact fun h => (started_way setup cfg).stable s e t h hs
  | init_join | exit_join_service => exact fun h => exited_stays hs hf h
  | exit_join => exact fun h => shutdown_exited_stays hs hf h
  | _ => exact fun _ => trivial

theorem worker_label_hook {w : Worker.State Cb} {y : Event Cb} (h : (w.hook cfg).isSome) :
    isHook (worker_label cfg w y) = true := by
  obtain ⟨r, hr⟩ := Option.isSome_iff_exists.mp h
  unfold worker_label
  rw [hr]
  unfold State.hook at hr
  split at hr
  · cases hw : w.worker <;> simp_all [isHook]
  · cases hr

theorem hookMove_ready {x : LifeEvent Cb} {pc : HookPc} (hm : HookMove s.hook x pc)
    (hx : isHook x = true) : HookReady s := by
  unfold HookReady
  generalize s.hook = pc' at hm
  cases hm with
  | other he => cases he.symm.trans hx
  | _ => trivial

/-- The worker thread does wait. -/
theorem waits_worker_thread (hstep : ServiceStep (TecTCPServer_init setup) cfg s e t) (hf : Facts s)
    (hs : WorkerThreadStep cfg s e t) : HookReady s := by
  have hstage := hf.stage
  rcases hs with hs | hs | ⟨x, a, b, rfl, hs⟩
  · cases hs with
    | wait_started hh hsig =>
      unfold HookReady
      rw [hh]
      exact hsig
    | join hh hj =>
      rw [hh] at hstage
      unfold HookReady
      rw [hh]
      exact hstage.2.2.1.joined hj
    | create hh | create_failed hh _ | test hh | set_stopped hh | read hh =>
      unfold HookReady
      rw [hh]
      trivial
  · cases hs with
    | join hh hj =>
      obtain ⟨_, hok, hthread⟩ := hf.joining hh
      rw [ServiceState.Joinable, TecThread_join_ok hok, hthread] at hj
      unfold HookReady
      rw [hh]
      exact hj
    | join_service hh hj =>
      rw [hh] at hstage
      unfold HookReady
      rw [hh]
      exact hstage.2.joined hj
    | create hh | create_failed hh _ | wait_stopped hh _ | read hh =>
      unfold HookReady
      rw [hh]
      trivial
  · have hm := life_event_move hstep
    have hout : s.life.hook = false → HookReady s := by
      intro hout
      unfold HookReady
      rw [stage_out hstage hout]
      trivial
    generalize t.life = l at hs
    cases hs with
    | on_init hw hfalse hhook | on_exit hw hfalse hhook => exact hout hfalse
    | step hs hin =>
      by_cases hsome : (s.life.worker.hook (hooked cfg a b)).isSome
      · exact hookMove_ready hm (worker_label_hook hsome)
      · exact hout (hin.trans (Bool.not_eq_true _ ▸ hsome))

theorem calling_step (hs : ServiceStep (TecTCPServer_init setup) cfg s e t) (hf : Facts s)
    (h : Calling s) : WorkerThreadStep cfg s e t ∨
      Calling t ∧ t.hook = s.hook ∧ (HookReady s → HookReady t) := by
  by_cases hw : WorkerThreadStep cfg s e t
  · exact .inl hw
  · obtain ⟨hcalling, hhook⟩ := calling_other_step hs hw hf.created h
    exact .inr ⟨hcalling, hhook, ready_stays hs hf hhook⟩

/-- A service thread that has told of an error is past its loop. -/
theorem over_of_failed (hf : Facts s) (hsig : s.sig_started = true) (hne : s.error ≠ 0) :
    s.service.start.Over := by
  have hsignalled := hf.server.start.signalled.mp hsig
  have hreported := hf.server.start.reported
  have hzero : s.reported ≠ some 0 := by
    intro hzero
    rw [hf.error, hzero] at hne
    exact hne rfl
  cases hp : s.service.start with
  | «return» | returned => trivial
  | running | accept | accepting | dispatch _ | dispatching | set_stopped =>
    rw [hp] at hreported
    exact absurd hreported hzero
  | _ =>
    rw [hp] at hsignalled
    exact hsignalled.elim

section Hook

variable (hE : (serverLts Cb setup cfg).Valid E)
include hE

theorem wait_comes {pc : HookPc} {Q : ServiceState Cb TecTCPServer → Prop} {m k : Nat}
    (hready : ∀ s : ServiceState Cb TecTCPServer, s.hook = pc → (HookReady s ↔ Q s))
    (hstays : ∀ s e t, Facts s → Q s → ServiceStep (TecTCPServer_init setup) cfg s e t → Q t)
    (hm : Calling (E.state m) ∧ (E.state m).hook = pc) (hk : Q (E.state k)) :
    ∃ n, m ≤ n ∧ Calling (E.state n) ∧ (E.state n).hook = pc ∧ HookReady (E.state n) := by
  obtain ⟨n, hn, hP, hQ⟩ := hE.meets (P := fun s => Calling s ∧ s.hook = pc) (Q := Q) (by
    rintro s e t hr ⟨hcalling, hpc⟩ hQ hs
    have hf := facts_reachable hr
    rcases calling_step hs.2 hf hcalling with hw | ⟨hcalling', hhook, _⟩
    · exact absurd ((hready s hpc).mp (waits_worker_thread hs.2 hf hw)) hQ
    · exact ⟨hcalling', hhook.trans hpc⟩)
    (fun s e t hr hQ hs => hstays s e t (facts_reachable hr) hQ hs.2) hm hk
  exact ⟨n, hn, hP.1, hP.2, (hready _ hP.2).mpr hQ⟩

variable (hfair : ∀ i, E.Fair (Actor.steps setup cfg i))
  (hclosed : ∃ fd, setup.accepts true fd)
include hfair hclosed

/-- What the worker thread waits for in its hook comes. -/
theorem hook_comes {m : Nat} (hm : Calling (E.state m)) :
    ∃ n, m ≤ n ∧ Calling (E.state n) ∧ (E.state n).hook = (E.state m).hook ∧
      HookReady (E.state n) := by
  have hf := facts_reachable (hE.reachable m)
  have hstage := hf.stage
  cases hh : (E.state m).hook with
  | init_wait_started =>
    rw [hh] at hstage
    obtain ⟨k, _, hk⟩ := started_comes hE (hfair .service) m hstage.2.2.present
    refine wait_comes hE (fun s hpc => by rw [HookReady, hpc]) ?_ ⟨hm, hh⟩ hk
    exact fun s e t _ h hs => (started_way setup cfg).stable s e t h hs
  | init_join =>
    rw [hh] at hstage
    obtain ⟨_, _, huse, hsig, hne⟩ := hstage
    obtain ⟨k, _, hk⟩ := exited_comes hE (hfair .service) m
      ⟨huse.present, .inl (over_of_failed hf hsig hne)⟩
    refine wait_comes hE (fun s hpc => by rw [HookReady, hpc]) ?_ ⟨hm, hh⟩ hk
    exact fun s e t hf h hs => exited_stays hs hf h
  | exit_join =>
    obtain ⟨k, _, hk⟩ := (exit_helpful hclosed).leadsTo hE (fun _ _ => hfair _) m (hf.joining hh).1
    refine wait_comes hE (fun s hpc => by rw [HookReady, hpc]) ?_ ⟨hm, hh⟩ hk
    exact fun s e t hf h hs => shutdown_exited_stays hs hf h
  | exit_join_service =>
    rw [hh] at hstage
    have hover := hf.server.stopped (hf.settled.stopped hh)
    obtain ⟨k, _, hk⟩ := exited_comes hE (hfair .service) m
      ⟨hstage.2.toInUse.present, .inl hover⟩
    refine wait_comes hE (fun s hpc => by rw [HookReady, hpc]) ?_ ⟨hm, hh⟩ hk
    exact fun s e t hf h hs => exited_stays hs hf h
  | _ => exact ⟨m, Nat.le_refl m, hm, hh, by rw [HookReady, hh]; trivial⟩

/-- A hook that is called returns. -/
theorem hook_shows {m : Nat} (hm : Calling (E.state m)) : ∃ n, m ≤ n ∧ E.Takes (Shows cfg) n := by
  induction hsteps : HookPc.steps (E.state m).hook using Nat.strong_induction_on generalizing m with
  | _ k ih =>
    obtain ⟨m₁, hm₁, hcalling, hhook, hready⟩ := hook_comes hE hfair hclosed hm
    obtain ⟨n, hn, ⟨hcalling, hhook', _⟩, e, he, hs, hw⟩ := hE.takes
      (P := fun s => Calling s ∧ s.hook = (E.state m).hook ∧ HookReady s) (hfair .worker)
      (fun s hr h => worker_thread_enabled (facts_reachable hr) h.1 h.2.2) (by
        rintro s e t hr ⟨hcalling, hpc, hready⟩ hs
        rcases calling_step hs.2 (facts_reachable hr) hcalling with hw | ⟨hcalling', hsame, hready'⟩
        · exact .inr ⟨hs, hw⟩
        · exact .inl ⟨hcalling', hsame.trans hpc, hready' hready⟩) ⟨hcalling, hhook, hready⟩
    rcases calling_worker_step hs.2 hw hcalling with hshows | ⟨hcalling', hlt⟩
    · exact ⟨n, Nat.le_trans hm₁ hn, e, he, hshows⟩
    · rw [hhook', hsteps] at hlt
      obtain ⟨n', hn', hshows⟩ := ih _ hlt hcalling' rfl
      exact ⟨n', by omega, hshows⟩

end Hook

/-! The worker thread outside of its hooks -/

theorem worker_enabled_outside {a b : Int} (hf : Facts s) (hnot : ¬ Calling s)
    (h : ∃ y w, WorkerStep (hooked cfg a b) s.life.worker y w) :
    ∃ e t, Actor.steps setup cfg .worker s e t := by
  obtain ⟨y, w, hs⟩ := h
  have hnone : s.life.worker.hook (hooked cfg a b) = none := by
    rw [← Option.not_isSome_iff_eq_none, calling_iff]
    exact hnot
  have hout : s.life.hook = false := by
    rw [← Bool.not_eq_true]
    exact fun hin => hnot (hf.calling hin)
  have hdone := done_idle hf.late (move_present (worker_step_move hs)).1 (worker_step_exited hs)
  have hlife : LifeWorkerStep (hooked cfg a b) s.life _ _ := .step hs (by rw [hout, hnone]; rfl)
  have htold : Assumed s (.life (worker_label (hooked cfg a b) s.life.worker y)) ∧
      s.Ready (worker_label (hooked cfg a b) s.life.worker y) := by
    unfold worker_label
    rw [hnone]
    cases s.life.worker.worker <;> exact ⟨trivial, trivial⟩
  exact ⟨_, _, ⟨htold.1, .life (.worker hlife (.inl hdone)) (.other (worker_label_isHook hnone))
    htold.2⟩, .inr (.inr ⟨_, a, b, rfl, hlife⟩)⟩

theorem outside_shows (hf : Facts s) (hnot : ¬ Calling s) (hs : WorkerThreadStep cfg s e t) :
    Shows cfg s e t := by
  have hstage := hf.stage
  have hout : s.life.hook = false := by
    rw [← Bool.not_eq_true]
    exact fun hin => hnot (hf.calling hin)
  rw [stage_out hstage hout] at hstage
  have hpc := stage_out hf.stage hout
  rcases hs with hs | hs | ⟨x, a, b, rfl, hs⟩
  · cases hs with
    | create hh | create_failed hh _ | wait_started hh _ | test hh | join hh _ | set_stopped hh
    | read hh => cases hpc.symm.trans hh
  · cases hs with
    | create hh | create_failed hh _ | join hh _ | wait_stopped hh _ | join_service hh _
    | read hh => cases hpc.symm.trans hh
  · refine ⟨x, a, b, rfl, hs, ?_⟩
    generalize t.life = l at hs
    cases hs with
    | on_init hw _ hhook | on_exit hw _ hhook => exact absurd (calling_iff.mp hhook) hnot
    | step hs hin =>
      rw [worker_label_base hs]
      nofun

/-! The callers of `TecDaemon_run` and `TecDaemon_terminate` -/

theorem run_shown {y : Event Cb} {w : Worker.State Cb} (hs : RunStep s.life.worker y w)
    (hidle : s.life.worker.run ≠ .idle) (hdone : s.life.done = .idle) :
    ∃ e t, Actor.steps setup cfg .run s e t := by
  suffices h : ∃ x l, LifeRunStep s.life x l ∧ Assumed s (.life x) ∧ isHook x = false ∧
      s.Ready x by
    obtain ⟨x, l, hs, hA, hhook, hready⟩ := h
    exact ⟨.life x, _, ⟨hA, @ServiceStep.life _ _ _ _ _ _ 0 0 _ _ _ (.run hs hdone) (.other hhook)
      hready⟩, x, rfl, hs, hidle⟩
  by_cases hcreate : s.life.worker.run = .create
  · have hlabel : ∀ w : Worker.State Cb, w.run = .wait_running →
        run_label s.life.worker_thread s.life.worker w = .create := by
      intro w hw
      rw [run_label, hcreate, hw]
    have hstep := LifeRunStep.step (RunStep.create hcreate)
    rw [hlabel _ rfl] at hstep
    exact ⟨_, _, hstep, trivial, rfl, trivial⟩
  · refine ⟨_, _, .step hs, ?_⟩
    unfold run_label join_label
    split <;> try exact absurd ‹_› hcreate
    · split <;> exact ⟨trivial, rfl, trivial⟩
    · exact ⟨trivial, rfl, trivial⟩
    · exact ⟨trivial, rfl, trivial⟩

theorem terminate_shown {y : Event Cb} {w : Worker.State Cb}
    (hs : TerminateStep n s.life.worker y w) (hidle : s.life.worker.terminate n ≠ .idle)
    (hdone : s.life.done = .idle) : ∃ e t, Actor.steps setup cfg (.terminate n) s e t := by
  have hlife := LifeTerminateStep.step hs
  have htold : ∀ thread, Assumed s (.life (terminate_label n thread s.life.worker y w)) ∧
      isHook (terminate_label n thread s.life.worker y w) = false ∧
      s.Ready (terminate_label n thread s.life.worker y w) := by
    intro thread
    unfold terminate_label join_label
    split
    · exact absurd ‹_› hidle
    · split <;> exact ⟨trivial, rfl, trivial⟩
    · exact ⟨trivial, rfl, trivial⟩
    · exact ⟨trivial, rfl, trivial⟩
  obtain ⟨hA, hhook, hready⟩ := htold s.life.worker_thread
  exact ⟨_, _, ⟨hA, @ServiceStep.life _ _ _ _ _ _ 0 0 _ _ _ (.terminate n hlife hdone)
    (.other hhook) hready⟩, _, rfl, hlife, hidle⟩

/-! The worker as it is seen -/

section View

variable {a b : Int} {m : Nat} (hE : (serverLts Cb setup cfg).Valid E)
  (hfair : ∀ i, E.Fair (Actor.steps setup cfg i)) (hresults : Results E a b)
include hresults

theorem shows_taken (h : E.Takes (Shows cfg) m) :
    (worker_view E).Takes (WorkerStep (hooked cfg a b)) m := by
  obtain ⟨_, he, x, a', b', rfl, hs, hbase⟩ := h
  rcases life_worker_shows hs (fun r hr => hresults.init m r (he.trans (by rw [hr])))
    (fun r hr => hresults.exit m r (he.trans (by rw [hr]))) with ⟨y, hy, hstep⟩ | hcalled
  · exact ⟨y, (congrArg (Option.bind · ServiceEvent.base) he).trans hy, hstep⟩
  · rcases hcalled with rfl | rfl <;> exact absurd rfl hbase

include hE hfair

/-- The worker thread is scheduled fairly as the worker sees it: its hooks return. -/
theorem worker_fair (hclosed : ∃ fd, setup.accepts true fd) :
    (worker_view E).Fair (WorkerStep (hooked cfg a b)) := by
  intro m henabled
  by_cases hcalls : ∃ k, m ≤ k ∧ Calling (E.state k)
  · obtain ⟨k, hk, hcalling⟩ := hcalls
    obtain ⟨n, hn, hshows⟩ := hook_shows hE hfair hclosed hcalling
    exact ⟨n, Nat.le_trans hk hn, shows_taken hresults hshows⟩
  · have hnot : ∀ k, m ≤ k → ¬ Calling (E.state k) := fun k hk h => hcalls ⟨k, hk, h⟩
    obtain ⟨n, hn, e, he, hs⟩ := hfair .worker m fun k hk =>
      worker_enabled_outside (facts_reachable (hE.reachable k)) (hnot k hk) (henabled k hk)
    exact ⟨n, hn, shows_taken hresults ⟨e, he, outside_shows (facts_reachable (hE.reachable n))
      (hnot n hn) hs.2⟩⟩

/-- Everybody is, as long as nobody calls `TecDaemon_done`. -/
theorem actors_fair (hclosed : ∃ fd, setup.accepts true fd)
    (hdone : ∀ k, m ≤ k → (E.state k).life.done = .idle) (i : Worker.Actor) :
    (worker_view E).Fair (Worker.Actor.steps (hooked cfg a b) i) := by
  cases i with
  | worker => exact worker_fair hE hfair hresults hclosed
  | run =>
    refine (hfair .run).view m (fun k hk h => ?_) ?_
    · obtain ⟨y, w, hs, hidle⟩ := h
      exact run_shown hs hidle (hdone k hk)
    · rintro k e _ ⟨_, x, rfl, hs, hidle⟩
      generalize (E.state (k + 1)).life = l at hs
      cases hs with
      | step hs => exact ⟨_, run_label_base _ hs, hs, hidle⟩
  | terminate n =>
    refine (hfair (.terminate n)).view m (fun k hk h => ?_) ?_
    · obtain ⟨y, w, hs, hidle⟩ := h
      exact terminate_shown hs hidle (hdone k hk)
    · rintro k e _ ⟨_, x, rfl, hs, hidle⟩
      generalize (E.state (k + 1)).life = l at hs
      cases hs with
      | step hs => exact ⟨_, terminate_label_base _ hs, hs, hidle⟩
  | call c =>
    refine (hfair (.call c)).view m (fun k hk h => ?_) ?_
    · obtain ⟨y, w, hs, hidle, hasleep⟩ := h
      have hlife : LifeStep (hooked cfg a b) (E.state k).life (.event y) _ :=
        .call c hs (hdone k hk)
      exact ⟨.life (.event y), _, ⟨trivial, .life hlife (.other rfl) trivial⟩, y, rfl, hs, hidle,
        hasleep⟩
    · rintro k e _ ⟨_, y, rfl, hs, hidle, hasleep⟩
      exact ⟨y, rfl, hs, hidle, hasleep⟩

end View

/-- A worker that is terminated has been run. -/
theorem terminate_present (h : (serverLts Cb setup cfg).Reachable s)
    (hidle : s.life.worker.terminate n ≠ .idle) : s.life.worker.worker ≠ .absent := by
  obtain ⟨xs, hxs⟩ := h
  obtain ⟨_, a, b, hl⟩ := serviceInv_history (contract_history hxs)
  intro habsent
  have hrun : ∃ result, s.life.worker.run = .returned result := by
    by_contra hnone
    exact hidle (hl.outcome.early (fun result hr => hnone ⟨result, hr⟩) n)
  obtain ⟨result, hr⟩ := hrun
  obtain ⟨u, hu⟩ := hxs.restrict_mem (mem_lifes.mp (hl.control.outcome result hr habsent))
  exact hu

/-- None of the threads of the server is there any more. -/
structure Ended (s : ServiceState Cb TecTCPServer) : Prop where
  worker : s.life.worker.worker = .exited
  service : s.start = .absent ∨ s.start = .exited
  exit : s.shutdown = .absent ∨ s.shutdown = .exited

theorem ended_of_exited (hf : Facts s) (hexited : s.life.worker.worker = .exited) : Ended s := by
  have hstage := hf.stage
  have hout : s.hook = .out := by
    cases hh : s.hook with
    | out => rfl
    | _ =>
      rw [hh] at hstage
      cases hstage.1.worker.symm.trans hexited
  rw [hout] at hstage
  have hgone := hstage.2
  rw [hexited] at hgone
  exact ⟨hexited, ServiceState.Gone.ended hgone,
    hf.settled.joined (.inr (by rw [hexited]; trivial))⟩

/-- The steps that an actor of the server can be relied on to take: whoever uses a destroyed signal
need not come back from it. -/
def Actor.alive_steps (setup : Setup) (cfg : Config) (i : Actor) (s : ServiceState Cb TecTCPServer)
    (e : ServiceEvent Cb ServerAct) (t : ServiceState Cb TecTCPServer) : Prop :=
  Actor.steps setup cfg i s e t ∧ SignalsAlive s e

/-- `TecDaemon_run` and `TecDaemon_terminate` of a server return, whoever connects to it meanwhile,
and `TecDaemon_terminate` leaves no thread behind, as long as no caller of `TecDaemon_rpc` destroys
its signal too early. -/
theorem server_returns (setup : Setup) (cfg : Config) (hclosed : ∃ fd, setup.accepts true fd)
    (E : Execution (ServiceState Cb TecTCPServer) (ServiceEvent Cb ServerAct))
    (hE : ((serverLts Cb setup cfg).restrict SignalsOutlive).Valid E)
    (hfair : ∀ i, E.Fair (Actor.alive_steps setup cfg i)) :
    E.LeadsTo (fun s => s.life.worker.run ≠ .idle)
        (fun s => ∃ error, s.life.worker.run = .returned error) ∧
      ∀ n, E.LeadsTo (fun s => s.life.worker.terminate n ≠ .idle)
        (fun s => (∃ result, s.life.worker.terminate n = .returned result) ∧ Ended s) := by
  obtain ⟨a, b, hresults⟩ := results_exist hE.of_restrict
  have houtlives := worker_view_outlives (worker_view_valid hE.of_restrict hresults)
    fun n e he => (hE.step n e he).1
  have hfair : ∀ i, E.Fair (Actor.steps setup cfg i) := fun i => (hfair i).congr fun n _ _ =>
    ⟨And.left, fun hs => ⟨hs, signals_alive (houtlives.reachable n) hs.1.2⟩⟩
  have hE := hE.of_restrict
  have hvalid := houtlives.of_restrict
  have hsettled : ∀ k, Settled (E.state k) := fun k => (facts_reachable (hE.reachable k)).settled
  refine ⟨fun m hm => ?_, fun n m hm => ?_⟩
  · by_contra hnever
    have hbegun : ∀ k, m ≤ k → (E.state k).life.worker.run ≠ .idle := fun k hk =>
      hvalid.stable (P := fun s => s.run ≠ .idle) (fun s e t _ h hs => run_begun hs h) hm hk
    have hdone : ∀ k, m ≤ k → (E.state k).life.done = .idle := by
      intro k hk
      by_contra hdone
      rcases (hsettled k).run hdone with hidle | hreturned
      · exact hbegun k hk hidle
      · exact hnever ⟨k, hk, hreturned⟩
    have hfair := actors_fair hE hfair hresults hclosed hdone
    exact hnever (run_helpful.leadsTo hvalid (fun _ _ => hfair _) m hm)
  · by_contra hnever
    have hnot : ∀ k, m ≤ k → ∀ result, (E.state k).life.worker.terminate n ≠ .returned result := by
      intro k hk result hresult
      have hphase := (workerInv_reachable (hvalid.reachable k)).phase
      have hseen : ((E.state k).life.worker.terminate n).Seen := by
        rw [hresult]
        trivial
      have hexited := hphase.signal.terminated.mp (hphase.ended n hseen)
      exact hnever ⟨k, hk, ⟨result, hresult⟩,
        ended_of_exited (facts_reachable (hE.reachable k)) hexited⟩
    have hbegun : ∀ k, m ≤ k → (E.state k).life.worker.terminate n ≠ .idle := fun k hk =>
      hvalid.stable (P := fun s => s.terminate n ≠ .idle) (fun s e t _ h hs => terminate_begun hs h)
        hm hk
    have hdone : ∀ k, m ≤ k → (E.state k).life.done = .idle := by
      intro k hk
      by_contra hdone
      rcases (hsettled k).terminate hdone n with hidle | ⟨result, hreturned⟩
      · exact hbegun k hk hidle
      · exact hnot k hk result hreturned
    have hfair := actors_fair hE hfair hresults hclosed hdone
    have hpresent := terminate_present (hE.reachable m) hm
    obtain ⟨k, hk, hreturned, hexited⟩ := terminate_comes n hvalid hfair m ⟨hm, hpresent⟩
    exact hnever ⟨k, hk, hreturned, ended_of_exited (facts_reachable (hE.reachable k)) hexited⟩

/-! A server whose threads have ended -/

theorem gone_no_steps (hw : s.life.worker.worker = .exited) (hout : s.hook = .out)
    (hstart : s.start = .exited) (hshutdown : s.shutdown = .exited)
    (hr : ∃ error, s.life.worker.run = .returned error)
    (ht : ∀ n, s.life.worker.terminate n = .idle ∨
      ∃ result, s.life.worker.terminate n = .returned result)
    (hc : ∀ c, (s.life.worker.calls c).pc = .idle ∨
      ∃ error, (s.life.worker.calls c).pc = .returned error) (i : Actor) :
    ¬ Actor.steps setup cfg i s e t := by
  have hnone : ∀ (i : Worker.Actor) (y : Event Cb) (w : Worker.State Cb),
      ¬ Worker.Actor.steps cfg i s.life.worker y w := fun i _ _ =>
    returned_no_steps (fun _ _ hs => worker_step_exited hs hw) hr ht hc i
  rintro ⟨hstep, hs⟩
  generalize hl : t.life = l at hs
  cases i with
  | worker =>
    rcases hs with hs | hs | ⟨x, a, b, rfl, hs⟩
    · cases hs with
      | create hh | create_failed hh _ | wait_started hh _ | test hh | join hh _ | set_stopped hh
      | read hh => cases hout.symm.trans hh
    · cases hs with
      | create hh | create_failed hh _ | join hh _ | wait_stopped hh _ | join_service hh _
      | read hh => cases hout.symm.trans hh
    · generalize t.life = l at hs
      cases hs with
      | on_init hpc | on_exit hpc => cases hw.symm.trans hpc
      | step hs => exact worker_step_exited hs hw
  | run =>
    obtain ⟨x, rfl, hs, hidle⟩ := hs
    cases hs with
    | step hs => exact hnone .run _ _ ⟨hs, hidle⟩
  | terminate n =>
    obtain ⟨x, rfl, hs, hidle⟩ := hs
    cases hs with
    | step hs => exact hnone (.terminate n) _ _ ⟨hs, hidle⟩
  | call c =>
    obtain ⟨y, rfl, hs, hidle, hasleep⟩ := hs
    exact hnone (.call c) _ _ ⟨hs, hidle, hasleep⟩
  | service =>
    cases start_step_of hstep.2 hs.1 with
    | call hpc => cases hstart.symm.trans hpc
    | act hpc ha => cases hstart.symm.trans hpc
  | exit =>
    cases hs with
    | call hpc => cases hshutdown.symm.trans hpc
    | act hpc ha => cases hshutdown.symm.trans hpc

theorem quiet_outlives : Quiet SignalsOutlive := fun _ _ _ hs hcalls => outlive_of_calls hs hcalls

/-- A call of `TecDaemon_rpc` in between, which finds no handler. -/
theorem answered_run : ∃ (calls : Nat → Call) (xs : List (ServiceEvent Nat ServerAct)),
    ((serverLts Nat idle_setup bareConfig).restrict SignalsOutlive).Run
      (accepting_server idle_server.life.worker.calls) xs (accepting_server calls) ∧
    (calls 0).pc = .returned TECC_ERR_HANDLER_NOT_FOUND ∧ ∀ c, c ≠ 0 → (calls c).pc = .idle := by
  have hkeeps : ∀ (u : ServiceState Nat TecTCPServer) (y : Event Nat),
      Outlives u.life.worker y →
        SignalsOutlive u (.life (.event y) : ServiceEvent Nat ServerAct) := by
    rintro u y h _ ⟨⟩
    exact h
  have r0 : ((serverLts Nat idle_setup bareConfig).restrict SignalsOutlive).Run
      (accepting_server idle_server.life.worker.calls) [] _ := .refl
  have r1 := snoc_step r0 (.life (@LifeStep.call _ (hooked _ 0 0) _ _ _ 0
    (@CallStep.init _ 0 _ "add" rfl) rfl) (.other rfl) trivial) trivial (hkeeps _ _ trivial)
  have r2 := snoc_step r1 (.life (@LifeStep.call _ (hooked _ 0 0) _ _ _ 0
    (.push rfl) rfl) (.other rfl) trivial) trivial (hkeeps _ _ trivial)
  have r3 := snoc_step r2 (.life (@LifeStep.worker _ (hooked _ 0 0) _ _ _
    (.step (.pop rfl rfl) rfl) (.inl rfl)) (.other rfl) trivial) trivial (hkeeps _ _ trivial)
  have r4 := snoc_step r3 (.life (@LifeStep.worker _ (hooked _ 0 0) _ _ _
    (.step (.dispatch_rpc rfl rfl) rfl) (.inl rfl)) (.other rfl) trivial) trivial
    (hkeeps _ _ trivial)
  have r5 := snoc_step r4 (.life (@LifeStep.worker _ (hooked _ 0 0) _ _ _
    (.step (.on_rpc_none rfl rfl) rfl) (.inl rfl)) (.other rfl) trivial) trivial
    (hkeeps _ _ trivial)
  have r6 := snoc_step r5 (.life (@LifeStep.worker _ (hooked _ 0 0) _ _ _
    (.step (.set_store rfl) rfl) (.inl rfl)) (.other rfl) trivial) trivial (hkeeps _ _ trivial)
  have r7 := snoc_step r6 (.life (@LifeStep.worker _ (hooked _ 0 0) _ _ _
    (.step (.set_lock rfl rfl) rfl) (.inl rfl)) (.other rfl) trivial) trivial (hkeeps _ _ trivial)
  have r8 := snoc_step r7 (.life (@LifeStep.worker _ (hooked _ 0 0) _ _ _
    (.step (.set_broadcast rfl) rfl) (.inl rfl)) (.other rfl) trivial) trivial (hkeeps _ _ trivial)
  have r9 := snoc_step r8 (.life (@LifeStep.worker _ (hooked _ 0 0) _ _ _
    (.step (.set_unlock rfl) rfl) (.inl rfl)) (.other rfl) trivial) trivial (hkeeps _ _ trivial)
  have r10 := snoc_step r9 (.life (@LifeStep.call _ (hooked _ 0 0) _ _ _ 0
    (.wait_load rfl) rfl) (.other rfl) trivial) trivial (hkeeps _ _ trivial)
  have r11 := snoc_step r10 (.life (@LifeStep.call _ (hooked _ 0 0) _ _ _ 0
    (.signal_done rfl) rfl) (.other rfl) trivial) trivial (hkeeps _ _ (fun h => by cases h))
  have r12 := snoc_step r11 (.life (@LifeStep.call _ (hooked _ 0 0) _ _ _ 0
    (.return rfl) rfl) (.other rfl) trivial) trivial (hkeeps _ _ trivial)
  refine ⟨_, _, r12, rfl, ?_⟩
  intro c hc
  simp [State.setCall, hc]
  rfl

/-- A server that has answered a call is terminated while it waits in `accept`. -/
theorem server_returns_idle :
    ∃ (E : Execution (ServiceState Nat TecTCPServer) (ServiceEvent Nat ServerAct)) (m : Nat),
      ((serverLts Nat idle_setup bareConfig).restrict SignalsOutlive).Valid E ∧
      (E.state m).service.start = .accepting ∧
      ((E.state m).life.worker.calls 0).pc = .returned TECC_ERR_HANDLER_NOT_FOUND ∧
      ∃ n, m ≤ n ∧ (∃ result, (E.state n).life.worker.terminate 0 = .returned result) ∧
        Ended (E.state n) := by
  obtain ⟨xs, h⟩ := accepting_history quiet_outlives
  obtain ⟨calls, ys, hanswered, hcall, hothers⟩ := answered_run
  obtain ⟨zs, hrun⟩ := terminated_run quiet_outlives calls
  obtain ⟨E, hE, hends, _, hbegun⟩ := (h.run hanswered).execution hrun
  have hfair : ∀ i, E.Fair (Actor.alive_steps idle_setup bareConfig i) := by
    intro i
    refine hends.fair fun e t hs => gone_no_steps rfl rfl rfl rfl ⟨_, rfl⟩ ?_ ?_ i hs.1
    · intro n
      by_cases hn : n = 0
      · subst hn
        exact .inr ⟨_, rfl⟩
      · have hother : ∀ (f : Nat → TerminatePc) (pc : TerminatePc),
            f n = .idle → Function.update f 0 pc n = .idle := by
          intro f pc hidle
          rw [Function.update_of_ne hn]
          exact hidle
        refine .inl ?_
        unfold terminated_server accepting_server
        dsimp only
        repeat apply hother
        rfl
    · intro c
      by_cases hc : c = 0
      · subst hc
        exact .inr ⟨_, hcall⟩
      · exact .inl (hothers c hc)
  generalize (xs ++ ys).length = m at hbegun
  have hstate : (E.state m).service.start = .accepting ∧
      (E.state m).life.worker.terminate 0 = .push ∧
      ((E.state m).life.worker.calls 0).pc = .returned TECC_ERR_HANDLER_NOT_FOUND := by
    rw [hbegun]
    exact ⟨rfl, rfl, hcall⟩
  obtain ⟨n, hn, hreturned⟩ := (server_returns idle_setup bareConfig ⟨-1, rfl, rfl⟩ E hE hfair).2 0
    m (by simp [hstate.2.1])
  exact ⟨E, m, hE, hstate.1, hstate.2.2, n, hn, hreturned⟩

end Tecc.TcpServer
