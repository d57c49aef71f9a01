import Tecc.WorkerLifecycle

/-! The joins of the worker thread. -/
namespace Tecc.Worker

open Transition

variable {Cb : Type} {cfg : Config} {l l' : Life Cb} {e : LifeEvent Cb} {xs : List (LifeEvent Cb)}
  {t : State Cb} {prior : Int} {n : Nat}

/-- The thread that `pthread_create` has created. -/
def LifeEvent.created : LifeEvent Cb → Option Thread
  | .create => some .worker
  | _ => none

/-- What `pthread_join` is invoked on. -/
def LifeEvent.joined : LifeEvent Cb → Option (Option Thread)
  | .join t | .done_join t => some t
  | _ => none

def created (xs : List (LifeEvent Cb)) : List Thread := xs.filterMap LifeEvent.created

def joined (xs : List (LifeEvent Cb)) : List (Option Thread) := xs.filterMap LifeEvent.joined

/-- `TecDaemon_run` has not come to `TecThread_create`. -/
def RunPc.Early : RunPc → Prop
  | .idle | .create => True
  | _ => False

/-- `TecWorker_done_` is behind its join. -/
def DonePc.Joined : DonePc → Prop
  | .destroy | .returned => True
  | _ => False

/-- The handle of the worker thread, from the value `prior` that its memory held. -/
structure JoinInv (prior : Int) (xs : List (LifeEvent Cb)) (l : Life Cb) : Prop where
  created : l.worker.run.Early → created xs = []
  fresh : l.worker.run.Early → ¬ l.done.Joined → l.worker_thread = ⟨prior, none⟩ ∧ joined xs = []
  unused : l.worker.run.Early → l.done.Joined → joined xs = if prior = 0 then [none] else []
  used : ¬ l.worker.run.Early → (∀ t ∈ joined xs, t = some .worker) ∧
    l.worker_thread.Balanced .worker (Worker.created xs).length (joined xs).length
  present : l.worker.worker ≠ .absent →
    TecThread_ok l.worker_thread ∧ l.worker_thread.t = some .worker ∨ l.worker.worker = .exited
  done : l.done.Joined → ¬ TecThread_ok l.worker_thread

theorem created_snoc (xs : List (LifeEvent Cb)) (e : LifeEvent Cb) :
    created (xs ++ [e]) = created xs ++ e.created.toList := by
  cases h : e.created <;> simp [created, List.filterMap_append, h]

theorem joined_snoc (xs : List (LifeEvent Cb)) (e : LifeEvent Cb) :
    joined (xs ++ [e]) = joined xs ++ e.joined.toList := by
  cases h : e.joined <;> simp [joined, List.filterMap_append, h]

/-- A step that leaves the handle alone. -/
theorem JoinInv.of_same (h : JoinInv prior xs l) (hcreated : e.created = none)
    (hjoined : e.joined = none) (hthread : l'.worker_thread = l.worker_thread)
    (hrun : l'.worker.run.Early ↔ l.worker.run.Early)
    (hdone : l'.done.Joined ↔ l.done.Joined)
    (hworker : l'.worker.worker ≠ .absent → l.worker.worker ≠ .absent)
    (hexited : l.worker.worker = .exited → l'.worker.worker = .exited) :
    JoinInv prior (xs ++ [e]) l' := by
  have hc : Worker.created (xs ++ [e]) = Worker.created xs := by
    rw [created_snoc, hcreated, Option.toList_none, List.append_nil]
  have hj : joined (xs ++ [e]) = joined xs := by
    rw [joined_snoc, hjoined, Option.toList_none, List.append_nil]
  refine ⟨?_, ?_, ?_, ?_, ?_, ?_⟩
  · rw [hc, hrun]
    exact h.created
  · rw [hj, hrun, hdone, hthread]
    exact h.fresh
  · rw [hj, hrun, hdone]
    exact h.unused
  · rw [hc, hj, hrun, hthread]
    exact h.used
  · intro hpresent
    rw [hthread]
    exact (h.present (hworker hpresent)).imp id hexited
  · rw [hdone, hthread]
    exact h.done

/-- The caller of `TecDaemon_run` or `TecDaemon_terminate` joins the worker thread. -/
theorem JoinInv.join (h : JoinInv prior xs l) (hrun : ¬ l.worker.run.Early)
    (hrun' : ¬ t.run.Early) (hworker : t.worker = .exited) (hdone : ¬ l.done.Joined) :
    JoinInv prior (xs ++ [join_label l.worker_thread])
      { l with worker := t, worker_thread := (TecThread_join l.worker_thread).1 } := by
  obtain ⟨hall, hbalanced⟩ := h.used hrun
  have hcreated : (join_label l.worker_thread : LifeEvent Cb).created = none := by
    unfold join_label
    split <;> rfl
  have hjoined : (join_label l.worker_thread : LifeEvent Cb).joined =
      (TecThread_join l.worker_thread).2 := by
    unfold join_label
    split <;> rename_i heq <;> rw [heq] <;> rfl
  have hc : Worker.created (xs ++ [join_label l.worker_thread]) = Worker.created xs := by
    rw [created_snoc, hcreated, Option.toList_none, List.append_nil]
  refine ⟨fun hearly => absurd hearly hrun', fun hearly => absurd hearly hrun',
    fun hearly => absurd hearly hrun', fun _ => ?_, fun _ => .inr hworker,
    fun hd => absurd hd hdone⟩
  rw [hc, joined_snoc, hjoined]
  rcases balanced_join hbalanced with ⟨hlabel, hafter⟩ | ⟨hlabel, hafter⟩
  · rw [hlabel]
    refine ⟨?_, by simpa using hafter⟩
    intro t ht
    rcases List.mem_append.mp ht with ht | ht
    · exact hall t ht
    · exact List.mem_singleton.mp ht
  · rw [hlabel]
    simpa using ⟨hall, hafter⟩

theorem run_label_quiet {s : State Cb} {b : Event Cb} (thread : TecThread) (hs : RunStep s b t)
    (hcreate : s.run ≠ .create) (hjoin : s.run ≠ .join) :
    (run_label thread s t).created = none ∧ (run_label thread s t).joined = none ∧
      run_thread thread s t = thread := by
  cases hs with
  | create hr => exact absurd hr hcreate
  | create_failed hr _ => exact absurd hr hcreate
  | join hr _ => exact absurd hr hjoin
  | wait_running hr hsig =>
    by_cases herror : s.error = 0 <;> simp [run_label, run_thread, hr, herror, LifeEvent.created,
      LifeEvent.joined]
  | lock hr _ | unlock hr | «return» hr | return_failed hr =>
    simp [run_label, run_thread, hr, LifeEvent.created, LifeEvent.joined]

theorem joinInv_run_step {b : Event Cb} (hs : RunStep l.worker b t) (hphase : PhaseInv l.worker)
    (hd : l.done = .idle) (h : JoinInv prior xs l) :
    JoinInv prior (xs ++ [run_label l.worker_thread l.worker t])
      { l with worker := t, worker_thread := run_thread l.worker_thread l.worker t } := by
  have hdone : ¬ l.done.Joined := by rw [hd]; exact id
  by_cases hcreate : l.worker.run = .create
  · have hearly : l.worker.run.Early := by rw [hcreate]; trivial
    have hnone := h.created hearly
    obtain ⟨_, hempty⟩ := h.fresh hearly hdone
    cases hs with
    | create hr =>
      have hlabel : run_label l.worker_thread l.worker
          { l.worker with worker := .on_init, run := .wait_running } = .create := by
        simp [run_label, hr]
      have hthread : run_thread l.worker_thread l.worker
          { l.worker with worker := .on_init, run := .wait_running } =
            TecThread_create l.worker_thread 0 .worker := by
        simp [run_thread, hr]
      rw [hlabel, hthread]
      refine ⟨fun he => he.elim, fun he => he.elim, fun he => he.elim, fun _ => ?_,
        fun _ => .inl ⟨rfl, rfl⟩, fun hd => absurd hd hdone⟩
      rw [created_snoc, joined_snoc, hnone, hempty]
      exact ⟨by simp [LifeEvent.joined], balanced_created _ _ 0⟩
    | @create_failed result hr hresult =>
      have hlabel : run_label l.worker_thread l.worker
          { l.worker with run := .create_failed result } = .create_failed result := by
        simp [run_label, hr]
      have hthread : run_thread l.worker_thread l.worker
          { l.worker with run := .create_failed result } =
            TecThread_create l.worker_thread result .worker := by
        simp [run_thread, hr]
      have habsent : l.worker.worker = .absent := hphase.created (.inr hr)
      rw [hlabel, hthread]
      refine ⟨fun he => he.elim, fun he => he.elim, fun he => he.elim, fun _ => ?_,
        fun hw => absurd habsent hw, fun hd => absurd hd hdone⟩
      rw [created_snoc, joined_snoc, hnone, hempty]
      exact ⟨by simp [LifeEvent.joined], balanced_create_failed _ _ 0 hresult⟩
    | lock hr _ | wait_running hr _ | join hr _ | unlock hr | «return» hr | return_failed hr =>
      cases hcreate.symm.trans hr
  · by_cases hjoin : l.worker.run = .join
    · have hlate : ¬ l.worker.run.Early := by rw [hjoin]; exact id
      cases hs with
      | join hr hw =>
        have hlabel : run_label l.worker_thread l.worker { l.worker with run := .unlock } =
            join_label l.worker_thread := by
          simp [run_label, hr]
        have hthread : run_thread l.worker_thread l.worker { l.worker with run := .unlock } =
            (TecThread_join l.worker_thread).1 := by
          simp [run_thread, hr]
        rw [hlabel, hthread]
        exact h.join hlate id hw hdone
      | lock hr _ | wait_running hr _ | create hr | create_failed hr _ | unlock hr | «return» hr
      | return_failed hr => cases hjoin.symm.trans hr
    · obtain ⟨hcreated, hjoined, hthread⟩ := run_label_quiet l.worker_thread hs hcreate hjoin
      refine h.of_same hcreated hjoined hthread ?_ Iff.rfl ?_ ?_
      · cases hs with
        | create hr => exact absurd hr hcreate
        | create_failed hr _ => exact absurd hr hcreate
        | lock hr _ | join hr _ | unlock hr | «return» hr | return_failed hr =>
          simp [hr, RunPc.Early]
        | wait_running hr _ =>
          by_cases herror : l.worker.error = 0 <;> simp [hr, herror, RunPc.Early]
      · cases hs with
        | create hr => exact absurd hr hcreate
        | _ => exact id
      · cases hs with
        | create hr => exact absurd hr hcreate
        | _ => exact id

theorem joinInv_terminate_step {b : Event Cb} (hs : TerminateStep n l.worker b t)
    (hphase : PhaseInv l.worker) (hd : l.done = .idle) (h : JoinInv prior xs l) :
    JoinInv prior (xs ++ [terminate_label n l.worker_thread l.worker b t])
      { l with worker := t, worker_thread := terminate_thread n l.worker_thread l.worker } := by
  have hdone : ¬ l.done.Joined := by rw [hd]; exact id
  obtain ⟨hrun, hworker⟩ := terminate_step_same hs
  by_cases hjoin : l.worker.terminate n = .join
  · cases hs with
    | join ht hw =>
      have hlate : ¬ l.worker.run.Early := by
        intro hearly
        have habsent : l.worker.worker = .absent := by
          refine hphase.created ?_
          cases hr : l.worker.run <;> rw [hr] at hearly <;>
            first | exact .inl rfl | exact .inr rfl | exact hearly.elim
        cases habsent.symm.trans hw
      have hlabel : terminate_label n l.worker_thread l.worker .other
          (l.worker.setTerminate n .read) = join_label l.worker_thread := by
        simp [terminate_label, ht]
      have hthread : terminate_thread n l.worker_thread l.worker =
          (TecThread_join l.worker_thread).1 := by
        simp [terminate_thread, ht]
      rw [hlabel, hthread]
      exact h.join hlate hlate hw hdone
    | lock ht _ | push ht | wait_terminated ht _ | read ht | unlock ht =>
      cases hjoin.symm.trans ht
  · have hthread : terminate_thread n l.worker_thread l.worker = l.worker_thread := by
      unfold terminate_thread
      split
      · contradiction
      · rfl
    have hlabel : (terminate_label n l.worker_thread l.worker b t).created = none ∧
        (terminate_label n l.worker_thread l.worker b t).joined = none := by
      unfold terminate_label
      cases hs with
      | join ht _ => exact absurd ht hjoin
      | lock ht _ | push ht | wait_terminated ht _ | read ht | unlock ht =>
        simp [ht, State.setTerminate, LifeEvent.created, LifeEvent.joined]
    refine h.of_same hlabel.1 hlabel.2 hthread (by simp only [hrun]) Iff.rfl ?_ ?_
    · simp only [hworker]
      exact id
    · simp only [hworker]
      exact id

theorem joinInv_done_step (hs : LifeDoneStep l e l') (h : JoinInv prior xs l) :
    JoinInv prior (xs ++ [e]) l' := by
  cases hs with
  | call hd _ _ =>
    exact h.of_same rfl rfl rfl Iff.rfl (by simp [hd, DonePc.Joined]) id id
  | skip hd ht =>
    have hok : ¬ TecThread_ok l.worker_thread := by
      intro hok
      rw [TecThread_join_ok hok] at ht
      cases ht
    have hopen : ¬ l.done.Joined := by rw [hd]; exact id
    refine ⟨?_, fun _ hclosed => absurd trivial hclosed, ?_, ?_, h.present, fun _ => hok⟩
    · rw [created_snoc]
      simpa [LifeEvent.created] using h.created
    · intro hearly _
      obtain ⟨hthread, hempty⟩ := h.fresh hearly hopen
      rw [hthread] at hok
      rw [joined_snoc, hempty, if_neg (show prior ≠ 0 from hok)]
      rfl
    · rw [created_snoc, joined_snoc]
      simpa [LifeEvent.created, LifeEvent.joined] using h.used
  | @join t hd ht hw =>
    have hopen : ¬ l.done.Joined := by rw [hd]; exact id
    have hok : TecThread_ok l.worker_thread := by
      by_contra hok
      rw [TecThread_join_none hok] at ht
      cases ht
    have ht' : l.worker_thread.t = t := by
      rw [TecThread_join_ok hok] at ht
      exact Option.some.inj ht
    refine ⟨?_, fun _ hclosed => absurd trivial hclosed, ?_, ?_, ?_,
      fun _ => TecThread_join_not_ok _⟩
    · rw [created_snoc]
      simpa [LifeEvent.created] using h.created
    · intro hearly _
      obtain ⟨hthread, hempty⟩ := h.fresh hearly hopen
      rw [hthread] at hok ht'
      rw [joined_snoc, hempty, if_pos (show prior = 0 from hok), ← ht']
      rfl
    · intro hlate
      obtain ⟨hall, hbalanced⟩ := h.used hlate
      rcases balanced_join hbalanced with ⟨hlabel, hafter⟩ | ⟨hlabel, hafter⟩
      · cases ht.symm.trans hlabel
        rw [created_snoc, joined_snoc]
        refine ⟨?_, by simpa [LifeEvent.created, LifeEvent.joined] using hafter⟩
        intro t ht
        rcases List.mem_append.mp ht with ht | ht
        · exact hall t ht
        · exact List.mem_singleton.mp ht
      · cases ht.symm.trans hlabel
    · intro hpresent
      rcases h.present hpresent with ⟨_, hthread⟩ | hexited
      · exact .inr (hw (ht'.symm.trans hthread))
      · exact .inr hexited
  | destroy hd =>
    exact h.of_same rfl rfl rfl Iff.rfl (by simp [hd, DonePc.Joined]) id id

theorem joinInv_step (hstep : LifeStep cfg l e l') (hphase : PhaseInv l.worker)
    (h : JoinInv prior xs l) : JoinInv prior (xs ++ [e]) l' := by
  cases hstep with
  | worker hs hd =>
    cases hs with
    | on_init hw hout hhook => exact h.of_same rfl rfl rfl Iff.rfl Iff.rfl id id
    | on_exit hw hout hhook => exact h.of_same rfl rfl rfl Iff.rfl Iff.rfl id id
    | @step b t hs hin =>
      obtain ⟨hrun, _⟩ := worker_step_control hs
      have hlabel : (worker_label cfg l.worker b).created = none ∧
          (worker_label cfg l.worker b).joined = none := by
        unfold worker_label
        split <;> exact ⟨rfl, rfl⟩
      exact h.of_same hlabel.1 hlabel.2 rfl (by simp only [hrun]) Iff.rfl
        (fun _ => (move_present (worker_step_move hs)).1)
        (fun hexited => absurd hexited (worker_step_exited hs))
  | run hs hd =>
    cases hs with
    | step hs => exact joinInv_run_step hs hphase hd h
  | terminate n hs hd =>
    cases hs with
    | step hs => exact joinInv_terminate_step hs hphase hd h
  | call c hs hd =>
    obtain ⟨hrun, _⟩ := call_step_control hs
    have hw := call_step_worker hs
    exact h.of_same rfl rfl rfl (by simp only [hrun]) Iff.rfl (by simp only [hw]; exact id)
      (by simp only [hw]; exact id)
  | @user b t hs hd =>
    obtain ⟨hrun, _⟩ := user_step_control hs
    have hw : t.worker = l.worker.worker := by cases hs <;> rfl
    exact h.of_same rfl rfl rfl (by simp only [hrun]) Iff.rfl (by simp only [hw]; exact id)
      (by simp only [hw]; exact id)
  | done hs => exact joinInv_done_step hs h

theorem joinInv_initial (hi : LifeInitial cfg l) : JoinInv l.worker_thread.result [] l := by
  obtain ⟨worker, ⟨prior, thread⟩, hook, done⟩ := l
  obtain ⟨rfl, hthread, rfl, rfl⟩ := hi
  cases hthread
  exact ⟨fun _ => rfl, fun _ _ => ⟨rfl, rfl⟩, fun _ hd => hd.elim,
    fun hlate => absurd trivial hlate, fun hw => absurd rfl hw, fun hd => hd.elim⟩

theorem joinInv_run {l₀ : Life Cb} (hi : LifeInitial cfg l₀) (h : (lifeLts Cb cfg).Run l₀ xs l) :
    JoinInv l₀.worker_thread.result xs l := by
  induction h with
  | refl => exact joinInv_initial hi
  | snoc hr hs ih => exact joinInv_step hs (life_control ⟨l₀, hi, hr⟩).1 ih

/-- When `TecWorker_done_` is behind its join there is no worker thread. -/
theorem done_exited (h : JoinInv prior xs l) (hd : l.done.Joined) :
    l.worker.worker = .absent ∨ l.worker.worker = .exited := by
  by_cases hw : l.worker.worker = .absent
  · exact .inl hw
  · rcases h.present hw with ⟨hok, _⟩ | hexited
    · exact absurd hok (h.done hd)
    · exact .inr hexited

/-- Whoever calls `TecDaemon_done` finds that `TecDaemon_run` has returned or is not called. -/
structure DoneInv (l : Life Cb) : Prop where
  returned : ∀ result, l.worker.run = .returned result →
    l.worker.worker = .absent ∨ l.worker.worker.Running
  settled : l.done ≠ .idle → l.worker.run = .idle ∨ ∃ result, l.worker.run = .returned result

theorem returned_step {s : State Cb} {b : Event Cb} (hs : Step cfg s b t) (hphase : PhaseInv s)
    (h : ∀ result, s.run = .returned result → s.worker = .absent ∨ s.worker.Running)
    (result : Int) (hr : t.run = .returned result) : t.worker = .absent ∨ t.worker.Running := by
  have hsame : t.run = s.run → t.worker = s.worker → t.worker = .absent ∨ t.worker.Running := by
    intro hrun hworker
    rw [hworker]
    exact h result (hrun.symm.trans hr)
  rcases step_cases hs with hs | ⟨c, hc⟩ | hu | ⟨n, hn⟩ | hu
  · have hm := worker_step_move hs
    rw [(worker_step_control hs).1] at hr
    have hrunning := (h result hr).resolve_left (move_present hm).1
    have hset := (move_signals hm).1 (hphase.signal.running.mpr hrunning)
    exact .inr ((signalInv_move hm hphase.signal).running.mp hset)
  · exact hsame (call_step_control hc).1 (call_step_worker hc)
  · cases hu with
    | «return» hrun =>
      have hset := hphase.seen (by rw [hrun]; trivial)
      exact .inr (hphase.signal.running.mp hset)
    | return_failed hrun => exact .inl (hphase.failed _ hrun).1
    | wait_running hrun hsig =>
      dsimp only at hr
      split at hr <;> cases hr
    | lock | create | create_failed | join | unlock => cases hr
  · obtain ⟨hrun, hworker⟩ := terminate_step_same hn
    exact hsame hrun hworker
  · exact hsame (user_step_control hu).1 (by cases hu <;> rfl)

theorem doneInv_step (hs : LifeStep cfg l e l') (hphase : PhaseInv l.worker) (h : DoneInv l) :
    DoneInv l' := by
  refine ⟨?_, ?_⟩
  · rcases life_step_worker hs with ⟨b, _, hstep⟩ | ⟨_, hsame⟩
    · exact returned_step hstep hphase h.returned
    · rw [hsame]
      exact h.returned
  · cases hs with
    | worker hs hd =>
      cases hs with
      | on_init | on_exit => exact h.settled
      | step hs hin =>
        intro hdone
        dsimp only
        rw [(worker_step_control hs).1]
        exact h.settled hdone
    | run hs hd =>
      cases hs with
      | step hs => exact fun hdone => absurd hd hdone
    | terminate n hs hd =>
      cases hs with
      | step hs => exact fun hdone => absurd hd hdone
    | call c hs hd => exact fun hdone => absurd hd hdone
    | user hs hd => exact fun hdone => absurd hd hdone
    | done hs =>
      cases hs with
      | call hd hrun hterminate => exact fun _ => hrun
      | join hd ht hw => exact fun _ => h.settled (by simp [hd])
      | skip hd ht => exact fun _ => h.settled (by simp [hd])
      | destroy hd => exact fun _ => h.settled (by simp [hd])

theorem doneInv_initial (hi : LifeInitial cfg l) : DoneInv l := by
  refine ⟨?_, fun hdone => absurd hi.done hdone⟩
  rw [hi.worker]
  exact fun result hr => by cases hr

theorem doneInv_run {l₀ : Life Cb} (hi : LifeInitial cfg l₀) (h : (lifeLts Cb cfg).Run l₀ xs l) :
    DoneInv l := by
  induction h with
  | refl => exact doneInv_initial hi
  | snoc hr hs ih => exact doneInv_step hs (life_control ⟨l₀, hi, hr⟩).1 ih

/-- During `TecDaemon_done` the worker thread is not in `on_init`. -/
theorem DoneInv.late (h : DoneInv l) (hcreated : Created l.worker) (hd : l.done ≠ .idle) :
    l.worker.worker = .absent ∨ l.worker.worker.Running := by
  rcases h.settled hd with hrun | ⟨result, hrun⟩
  · exact .inl (hcreated (.inl hrun))
  · exact h.returned result hrun

/-- When `TecDaemon_done` has returned, all is well with the worker thread, unless there is none and
the memory of its handle says that there is one. -/
theorem worker_joined_once (h : JoinInv prior xs l) (hdone : DoneInv l)
    (hd : l.done = .returned) :
    JoinedOnce (created xs) (joined xs) ↔ prior ≠ 0 ∨ l.worker.run ≠ .idle := by
  have hclosed : l.done.Joined := by
    rw [hd]
    trivial
  rcases hdone.settled (by rw [hd]; simp) with hrun | ⟨result, hrun⟩
  · have hearly : l.worker.run.Early := by
      rw [hrun]
      trivial
    rw [h.created hearly, h.unused hearly hclosed, hrun]
    by_cases hprior : prior = 0
    · rw [if_pos hprior]
      exact iff_of_false (by simp [JoinedOnce]) (by simp [hprior])
    · rw [if_neg hprior]
      exact iff_of_true (.refl _) (.inl hprior)
  · have hlate : ¬ l.worker.run.Early := by
      rw [hrun]
      exact id
    obtain ⟨hall, hbalanced⟩ := h.used hlate
    refine iff_of_true ?_ (.inr (by simp [hrun]))
    rcases hbalanced with ⟨hok, _⟩ | ⟨_, hcount⟩
    · exact absurd hok (h.done hclosed)
    · have hcreated : ∀ t ∈ (created xs).map some, t = some .worker := by
        intro t ht
        obtain ⟨thread, hthread, rfl⟩ := List.mem_map.mp ht
        obtain ⟨e, _, he⟩ := List.mem_filterMap.mp hthread
        cases e <;> cases he
        rfl
      rw [JoinedOnce, List.eq_replicate_of_mem hall, List.eq_replicate_of_mem hcreated,
        List.length_map, hcount]

end Tecc.Worker
