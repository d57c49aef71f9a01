import Tecc.WorkerJoin
import Tecc.ServiceProtocol

/-! The joins of the service worker: of the threads of its worker, and of those that its hooks
create. -/
namespace Tecc.ServiceWorker

open Transition Worker

variable {Cb σ α : Type} {S : Service σ α} {cfg : Config} {s t : ServiceState Cb σ}
  {e : ServiceEvent Cb α} {xs : List (ServiceEvent Cb α)} {prior : Int} {thread : TecThread}
  {r : Thread}

def ServiceEvent.created : ServiceEvent Cb α → Option Thread
  | .service_create => some .service
  | .exit_create => some .exit
  | _ => none

def ServiceEvent.joined : ServiceEvent Cb α → Option (Option Thread)
  | .join t => some t
  | _ => none

/-- The threads that the hooks have created. -/
def hook_created (xs : List (ServiceEvent Cb α)) : List Thread :=
  xs.filterMap ServiceEvent.created

/-- What the hooks and `TecServiceWorker_done_` have invoked `pthread_join` on. -/
def hook_joined (xs : List (ServiceEvent Cb α)) : List (Option Thread) :=
  xs.filterMap ServiceEvent.joined

/-- All threads that have been created, those of the worker first. -/
def created (xs : List (ServiceEvent Cb α)) : List Thread :=
  Worker.created (lifes xs) ++ hook_created xs

/-- All that `pthread_join` has been invoked on, by the worker first. -/
def joined (xs : List (ServiceEvent Cb α)) : List (Option Thread) :=
  Worker.joined (lifes xs) ++ hook_joined xs

theorem hook_created_snoc (xs : List (ServiceEvent Cb α)) (e : ServiceEvent Cb α) :
    hook_created (xs ++ [e]) = hook_created xs ++ e.created.toList := by
  cases h : e.created <;> simp [hook_created, List.filterMap_append, h]

theorem hook_joined_snoc (xs : List (ServiceEvent Cb α)) (e : ServiceEvent Cb α) :
    hook_joined (xs ++ [e]) = hook_joined xs ++ e.joined.toList := by
  cases h : e.joined <;> simp [hook_joined, List.filterMap_append, h]

theorem join_event_joined (thread : TecThread) :
    (join_event thread : ServiceEvent Cb α).joined = (TecThread_join thread).2 ∧
      (join_event thread : ServiceEvent Cb α).created = none := by
  unfold join_event
  split <;> rename_i heq <;> rw [heq] <;> exact ⟨rfl, rfl⟩

/-! The handles -/

/-- What has been told of the thread `r` agrees with its handle. -/
def HookBalanced (xs : List (ServiceEvent Cb α)) (r : Thread) (thread : TecThread) : Prop :=
  thread.Balanced r ((hook_created xs).count r) ((hook_joined xs).count (some r))

theorem HookBalanced.quiet (h : HookBalanced xs r thread) (hcreated : e.created ≠ some r)
    (hjoined : e.joined ≠ some (some r)) : HookBalanced (xs ++ [e]) r thread := by
  have hc : e.created.toList.count r = 0 :=
    List.count_eq_zero_of_not_mem (by simpa using hcreated)
  have hj : e.joined.toList.count (some r) = 0 :=
    List.count_eq_zero_of_not_mem (by simpa using hjoined)
  rw [HookBalanced, hook_created_snoc, hook_joined_snoc, List.count_append, List.count_append,
    hc, hj]
  exact h

theorem HookBalanced.settled (h : HookBalanced xs r thread) (hok : ¬ TecThread_ok thread) :
    (hook_created xs).count r = (hook_joined xs).count (some r) := by
  rcases h with ⟨hused, _⟩ | ⟨_, hcount⟩
  · exact absurd hused hok
  · exact hcount

theorem HookBalanced.create {before : TecThread} (h : HookBalanced xs r before)
    (hok : ¬ TecThread_ok before) (hcreated : e.created = some r) (hjoined : e.joined = none) :
    HookBalanced (xs ++ [e]) r (TecThread_create thread 0 r) := by
  rw [HookBalanced, hook_created_snoc, hook_joined_snoc, hcreated, hjoined, Option.toList_some,
    Option.toList_none, List.append_nil, List.count_append, List.count_singleton_self,
    h.settled hok]
  exact balanced_created _ _ _

theorem HookBalanced.of_eq {before : TecThread} (h : HookBalanced xs r before)
    (he : thread = before) : HookBalanced xs r thread := by
  rw [he]
  exact h

/-- A handle that is not in use says the same as any other. -/
theorem HookBalanced.unused {before : TecThread} (h : HookBalanced xs r before)
    (hbefore : ¬ TecThread_ok before) (hok : ¬ TecThread_ok thread) :
    HookBalanced xs r thread :=
  .inr ⟨hok, h.settled hbefore⟩

theorem HookBalanced.join (h : HookBalanced xs r thread) :
    HookBalanced (xs ++ [join_event thread]) r (TecThread_join thread).1 := by
  have hjoined : (join_event thread : ServiceEvent Cb α).joined = (TecThread_join thread).2 :=
    (join_event_joined thread).1
  have hcreated : (join_event thread : ServiceEvent Cb α).created = none :=
    (join_event_joined thread).2
  rw [HookBalanced, hook_created_snoc, hook_joined_snoc, hjoined, hcreated, Option.toList_none,
    List.append_nil, List.count_append]
  rcases balanced_join h with ⟨hlabel, hafter⟩ | ⟨hlabel, hafter⟩
  · rw [hlabel, Option.toList_some, List.count_singleton_self]
    exact hafter
  · rw [hlabel, Option.toList_none, List.count_nil, Nat.add_zero]
    exact hafter

/-- What a join of the thread `r` tells is not told of another thread. -/
theorem HookBalanced.joins (h : HookBalanced xs r thread) :
    (join_event thread : ServiceEvent Cb α).joined = some (some r) ∨
      (join_event thread : ServiceEvent Cb α).joined = none := by
  rw [(join_event_joined thread).1]
  exact (balanced_join h).imp And.left And.left

/-! Where the worker thread is -/

/-- The position of the worker thread that calls the hook. -/
def HookPc.place : HookPc → Option WorkerPc
  | .out => none
  | .init_create | .init_wait_started | .init_test | .init_join | .init_set_stopped | .init_read
  | .init_return _ => some .on_init
  | .exit_create | .exit_join | .exit_wait_stopped | .exit_join_service | .exit_read
  | .exit_return _ => some .on_exit

/-- The worker thread is in a hook where it has called that one, and nowhere else. -/
structure ServiceState.Placed (s : ServiceState Cb σ) : Prop where
  out : s.hook.place = none → s.life.hook = false
  inside : ∀ pc, s.hook.place = some pc → s.In pc

theorem placed_out (h : s.Placed) (hout : s.life.hook = false) : s.hook = .out := by
  have hinside := h.inside
  cases hh : s.hook with
  | out => rfl
  | _ =>
    rw [hh] at hinside
    cases hout.symm.trans (hinside _ rfl).hook

theorem placed_in {pc : WorkerPc} (hplace : s.hook.place = some pc) (hin : s.In pc) :
    s.Placed := by
  refine ⟨fun hnone => ?_, fun pc' hpc' => ?_⟩
  · cases hplace.symm.trans hnone
  · cases hplace.symm.trans hpc'
    exact hin

theorem placed_life_step {a b : Int} {x : LifeEvent Cb} {l : Life Cb} {pc : HookPc}
    (hs : LifeStep (hooked cfg a b) s.life x l) (hm : HookMove s.hook x pc)
    (hcreated : Created s.life.worker) (h : s.Placed) :
    ({ s with life := l, hook := pc } : ServiceState Cb σ).Placed := by
  rcases life_step_cases hs with hs | ⟨⟨hother, _, hne⟩, hhook, hsame⟩
  · cases hs with
    | on_init hw hout hhook =>
      rw [placed_out h hout] at hm
      cases hm with
      | other he => cases he
      | on_init_called =>
        exact placed_in rfl ⟨rfl, hw⟩
    | on_exit hw hout hhook =>
      rw [placed_out h hout] at hm
      cases hm with
      | other he => cases he
      | on_exit_called =>
        exact placed_in rfl ⟨rfl, hw⟩
    | @step y w hs hin =>
      have hpc : pc = .out := by
        cases hhook : s.life.worker.hook (hooked cfg a b) with
        | none =>
          have hout : s.life.hook = false := by
            rw [hin, hhook]
            rfl
          exact (hookMove_other hm (worker_label_isHook hhook)).trans (placed_out h hout)
        | some result =>
          -- the hook that has been called returns
          rw [worker_label, hhook] at hm
          generalize s.hook = hook at hm
          revert hm
          cases hw : s.life.worker.worker with
          | on_init =>
            intro hm
            cases hm with
            | other he => cases he
            | on_init_returned => rfl
          | on_exit =>
            intro hm
            cases hm with
            | other he => cases he
            | on_exit_returned => rfl
          | _ =>
            rw [hook_other (by rw [hw]; simp) (by rw [hw]; simp)] at hhook
            cases hhook
      subst hpc
      exact ⟨fun _ => rfl, fun pc hpc => by cases hpc⟩
  · have hpc := hookMove_other hm (quiet_isHook hother hne)
    subst hpc
    have hkept : (∀ pc, s.hook.place = some pc → l.worker.worker = s.life.worker.worker) →
        ({ s with life := l, hook := s.hook } : ServiceState Cb σ).Placed := by
      intro hworker
      refine ⟨fun hnone => hhook.trans (h.out hnone), fun pc hpc => ?_⟩
      have hin := h.inside pc hpc
      exact ⟨hhook.trans hin.hook, (hworker pc hpc).trans hin.worker⟩
    rcases hsame with hw | ⟨y, ⟨c, hc⟩ | hu⟩
    · exact hkept fun _ _ => by rw [hw]
    · exact hkept fun _ _ => call_step_worker hc
    · rcases control_step_worker hu with hw | ⟨hrun, _⟩
      · exact hkept fun _ _ => hw
      · -- there is no hook before there is a worker thread
        refine hkept fun pc hpc => ?_
        have habsent := hcreated (.inr hrun)
        rw [(h.inside pc hpc).worker] at habsent
        subst habsent
        cases hh : s.hook <;> rw [hh] at hpc <;> cases hpc

/-- The hook has not come to `TecThread_create`. -/
def ServiceState.Unstarted (s : ServiceState Cb σ) : Prop :=
  s.life.worker.worker = .absent ∨
    s.life.worker.worker = .on_init ∧ (s.hook = .out ∨ s.hook = .init_create)

theorem unstarted_life_step {a b : Int} {x : LifeEvent Cb} {l : Life Cb} {pc : HookPc}
    (hs : LifeStep (hooked cfg a b) s.life x l) (hm : HookMove s.hook x pc) (hplaced : s.Placed)
    (hcreated : Created s.life.worker)
    (h : ({ s with life := l, hook := pc } : ServiceState Cb σ).Unstarted) : s.Unstarted := by
  rcases life_step_cases hs with hs | ⟨⟨hother, _, hne⟩, hhook, hsame⟩
  · cases hs with
    | on_init hw hout hhook => exact .inr ⟨hw, .inl (placed_out hplaced hout)⟩
    | on_exit hw hout hhook =>
      rcases h with habsent | ⟨hinit, _⟩
      · cases hw.symm.trans habsent
      · cases hw.symm.trans hinit
    | step hstep hin =>
      have hmove := worker_step_move hstep
      rcases h with habsent | ⟨hinit, _⟩
      · exact absurd habsent (move_present hmove).2
      · dsimp only at hinit
        cases hmove with
        | loop hw hw' =>
          rw [hinit] at hw'
          exact hw'.elim
        | on_init hw hw' | set_running hw hw' | enter hw hw' | skip hw hw' | leave hw hw'
        | on_exit hw hw' | set_terminated hw hw' => cases hw'.symm.trans hinit
  · have hpc := hookMove_other hm (quiet_isHook hother hne)
    subst hpc
    have hkept : l.worker.worker = s.life.worker.worker → s.Unstarted := by
      intro hw
      unfold ServiceState.Unstarted at h ⊢
      rw [← hw]
      exact h
    rcases hsame with hw | ⟨y, ⟨c, hc⟩ | hu⟩
    · exact hkept (by rw [hw])
    · exact hkept (call_step_worker hc)
    · rcases control_step_worker hu with hw | ⟨hrun, _⟩
      · exact hkept hw
      · exact .inl (hcreated (.inr hrun))

/-! The invariant -/

/-- The handle of the exit thread, which is a local variable of `on_exit`. -/
def ServiceState.exit_handle (s : ServiceState Cb σ) : TecThread :=
  if s.hook = .exit_join then s.exit_thread else TecThread_init s.exit_thread

theorem exit_handle_unused (h : s.hook ≠ .exit_join) : ¬ TecThread_ok s.exit_handle := by
  rw [ServiceState.exit_handle, if_neg h]
  exact not_ok_of_none rfl

theorem exit_handle_congr (hhook : t.hook = .exit_join ↔ s.hook = .exit_join)
    (hthread : t.exit_thread = s.exit_thread) : t.exit_handle = s.exit_handle := by
  unfold ServiceState.exit_handle
  simp only [hhook, hthread]

structure ServiceJoinInv (prior : Int) (xs : List (ServiceEvent Cb α)) (s : ServiceState Cb σ) :
    Prop where
  phase : PhaseInv s.life.worker
  life : JoinInv prior (lifes xs) s.life
  done : DoneInv s.life
  placed : s.Placed
  fresh : s.Unstarted → ¬ TecThread_ok s.service_thread
  service : HookBalanced xs .service s.service_thread
  exit : HookBalanced xs .exit s.exit_handle
  joins : ∀ r ∈ hook_joined xs, r = some .service ∨ r = some .exit
  closing : s.joined = true → s.life.done ≠ .idle ∧ ¬ TecThread_ok s.service_thread
  closed : s.life.done.Joined → s.joined = true

/-- A step that leaves the worker alone. -/
theorem ServiceJoinInv.hook_step (h : ServiceJoinInv prior xs s) (hlife : t.life = s.life)
    (he : e.lifeEvent = none) (hplace : t.hook.place = s.hook.place)
    (hfresh : t.Unstarted → ¬ TecThread_ok t.service_thread)
    (hservice : HookBalanced (xs ++ [e]) .service t.service_thread)
    (hexit : HookBalanced (xs ++ [e]) .exit t.exit_handle)
    (hjoin : ∀ r, e.joined = some r → r = some .service ∨ r = some .exit)
    (hclosing : t.joined = true → s.life.done ≠ .idle ∧ ¬ TecThread_ok t.service_thread)
    (hclosed : s.joined = true → t.joined = true) : ServiceJoinInv prior (xs ++ [e]) t where
  phase := by
    rw [hlife]
    exact h.phase
  life := by
    rw [lifes_snoc, he, Option.toList_none, List.append_nil, hlife]
    exact h.life
  done := by
    rw [hlife]
    exact h.done
  placed := by
    refine ⟨fun hnone => ?_, fun pc hpc => ?_⟩
    · rw [hlife]
      exact h.placed.out (hplace.symm.trans hnone)
    · exact (h.placed.inside pc (hplace.symm.trans hpc)).moved (by rw [hlife]) (by rw [hlife])
  fresh := hfresh
  service := hservice
  exit := hexit
  joins := by
    intro r hr
    rw [hook_joined_snoc, List.mem_append, Option.mem_toList] at hr
    exact hr.elim (h.joins r) (hjoin r)
  closing := by
    rw [hlife]
    exact hclosing
  closed := by
    rw [hlife]
    exact fun hd => hclosed (h.closed hd)

/-- A step of a hook that has nothing to do with the threads. -/
theorem ServiceJoinInv.same (h : ServiceJoinInv prior xs s) (hlife : t.life = s.life)
    (he : e.lifeEvent = none) (hcreated : e.created = none) (hjoined : e.joined = none)
    (hplace : t.hook.place = s.hook.place) (hfresh : t.Unstarted → s.Unstarted)
    (hservice : t.service_thread = s.service_thread) (hexit : t.exit_handle = s.exit_handle)
    (hclosed : t.joined = s.joined) : ServiceJoinInv prior (xs ++ [e]) t := by
  have hquiet : ∀ {r thread}, HookBalanced xs r thread → HookBalanced (xs ++ [e]) r thread :=
    fun h => h.quiet (by simp [hcreated]) (by simp [hjoined])
  refine h.hook_step hlife he hplace ?_ ?_ ?_ ?_ ?_ ?_
  · rw [hservice]
    exact fun hunstarted => h.fresh (hfresh hunstarted)
  · rw [hservice]
    exact hquiet h.service
  · rw [hexit]
    exact hquiet h.exit
  · rw [hjoined]
    exact fun r hr => by cases hr
  · rw [hservice, hclosed]
    exact h.closing
  · rw [hclosed]
    exact id

/-- In `on_init` nobody is in `TecDaemon_done`. -/
theorem ServiceJoinInv.open_of_init (h : ServiceJoinInv prior xs s)
    (hw : s.life.worker.worker = .on_init) : s.joined = false := by
  by_contra hjoined
  have hdone := (h.closing (Bool.not_eq_false _ ▸ hjoined)).1
  have hlate := h.done.late h.phase.created hdone
  rw [hw] at hlate
  rcases hlate with hlate | hlate
  · cases hlate
  · exact hlate

theorem not_unstarted {pc : WorkerPc} (hin : t.life.worker.worker = pc)
    (hpc : pc ≠ .absent) (h : pc = .on_init → t.hook ≠ .out ∧ t.hook ≠ .init_create) :
    ¬ t.Unstarted := by
  rintro (habsent | ⟨hinit, hhook⟩)
  · exact hpc (hin.symm.trans habsent)
  · obtain ⟨hout, hcreate⟩ := h (hin.symm.trans hinit)
    exact hhook.elim hout hcreate

/-- A join of the service thread. -/
theorem ServiceJoinInv.join_service (h : ServiceJoinInv prior xs s) (hlife : t.life = s.life)
    (hplace : t.hook.place = s.hook.place)
    (hthread : t.service_thread = (TecThread_join s.service_thread).1)
    (hexit : t.exit_handle = s.exit_handle)
    (hclosing : t.joined = true → s.life.done ≠ .idle)
    (hclosed : s.joined = true → t.joined = true) :
    ServiceJoinInv prior (xs ++ [join_event s.service_thread]) t := by
  obtain ⟨hjoined, hcreated⟩ :
      ((join_event s.service_thread : ServiceEvent Cb α).joined = some (some .service) ∨
        (join_event s.service_thread : ServiceEvent Cb α).joined = none) ∧
      (join_event s.service_thread : ServiceEvent Cb α).created = none :=
    ⟨h.service.joins, (join_event_joined _).2⟩
  have hunused : ¬ TecThread_ok t.service_thread := by
    rw [hthread]
    exact TecThread_join_not_ok _
  refine h.hook_step hlife (join_event_life _) hplace (fun _ => hunused) ?_ ?_ ?_
    (fun hj => ⟨hclosing hj, hunused⟩) hclosed
  · rw [hthread]
    exact h.service.join
  · rw [hexit]
    refine h.exit.quiet (by simp [hcreated]) ?_
    rcases hjoined with hj | hj <;> simp [hj]
  · intro r hr
    rcases hjoined with hj | hj
    · rw [hj] at hr
      exact .inl (Option.some.inj hr).symm
    · cases hj.symm.trans hr

theorem joinInv_init_step (hs : InitStep s e t) (h : ServiceJoinInv prior xs s) :
    ServiceJoinInv prior (xs ++ [e]) t := by
  have hin : ∀ {pc : HookPc}, s.hook = pc → pc.place = some .on_init → s.In .on_init := by
    intro pc hh hplace
    exact h.placed.inside _ (by rw [hh]; exact hplace)
  have hexit : ∀ {pc : HookPc} {u : ServiceState Cb σ}, s.hook = pc → pc ≠ .exit_join →
      u.hook ≠ .exit_join → u.exit_thread = s.exit_thread → u.exit_handle = s.exit_handle := by
    rintro pc u rfl hpc hu hthread
    exact exit_handle_congr (iff_of_false hu hpc) hthread
  cases hs with
  | create hh =>
    have hw := (hin hh rfl).worker
    have hopen := h.open_of_init hw
    have hunused := h.fresh (.inr ⟨hw, .inr hh⟩)
    refine h.hook_step rfl rfl (by rw [hh]; rfl) ?_ ?_ ?_ ?_ ?_ id
    · exact fun hu => absurd hu (not_unstarted hw (by simp) (by simp))
    · exact h.service.create hunused rfl rfl
    · refine (h.exit.quiet ?_ ?_).of_eq (hexit hh (by simp) (by simp) rfl)
      · simp [ServiceEvent.created]
      · simp [ServiceEvent.joined]
    · exact fun r hr => by cases hr
    · exact fun hj => by cases hopen.symm.trans hj
  | @create_failed result hh hresult =>
    have hw := (hin hh rfl).worker
    have hunused := h.fresh (.inr ⟨hw, .inr hh⟩)
    have hfailed : ¬ TecThread_ok (TecThread_create s.service_thread result .service) := hresult
    refine h.hook_step rfl rfl (by rw [hh]; rfl) ?_ ?_ ?_ ?_ ?_ id
    · exact fun _ => hfailed
    · exact (h.service.unused hunused hfailed).quiet (by simp [ServiceEvent.created])
        (by simp [ServiceEvent.joined])
    · refine (h.exit.quiet ?_ ?_).of_eq (hexit hh (by simp) (by simp) rfl)
      · simp [ServiceEvent.created]
      · simp [ServiceEvent.joined]
    · exact fun r hr => by cases hr
    · exact fun hj => ⟨(h.closing hj).1, hfailed⟩
  | join hh hj =>
    exact h.join_service rfl (by rw [hh]; rfl) rfl (hexit hh (by simp) (by simp) rfl)
      (fun hj => (h.closing hj).1) id
  | wait_started hh hsig | set_stopped hh | read hh =>
    have hw := (hin hh rfl).worker
    exact h.same rfl rfl rfl rfl (by rw [hh]; rfl)
      (fun hu => absurd hu (not_unstarted hw (by simp) (by simp))) rfl
      (hexit hh (by simp) (by simp) rfl) rfl
  | test hh =>
    have hw := (hin hh rfl).worker
    by_cases hzero : s.error = 0
    · rw [if_pos hzero]
      exact h.same rfl rfl rfl rfl (by rw [hh]; rfl)
        (fun hu => absurd hu (not_unstarted hw (by simp) (by simp))) rfl
        (hexit hh (by simp) (by simp) rfl) rfl
    · rw [if_neg hzero]
      exact h.same rfl rfl rfl rfl (by rw [hh]; rfl)
        (fun hu => absurd hu (not_unstarted hw (by simp) (by simp))) rfl
        (hexit hh (by simp) (by simp) rfl) rfl

theorem joinInv_exit_step (hs : ExitStep s e t) (h : ServiceJoinInv prior xs s) :
    ServiceJoinInv prior (xs ++ [e]) t := by
  have hin : ∀ {pc : HookPc}, s.hook = pc → pc.place = some .on_exit →
      s.life.worker.worker = .on_exit := by
    intro pc hh hplace
    exact (h.placed.inside _ (by rw [hh]; exact hplace)).worker
  have hlate : ∀ {u : ServiceState Cb σ}, u.life.worker.worker = .on_exit → ¬ u.Unstarted :=
    fun hw => not_unstarted hw (by simp) (by simp)
  cases hs with
  | create hh =>
    have hunused := exit_handle_unused (s := s) (by rw [hh]; simp)
    refine h.hook_step rfl rfl (by rw [hh]; rfl) (fun hu => absurd hu (hlate (hin hh rfl)))
      ?_ ?_ ?_ h.closing id
    · exact h.service.quiet (by simp [ServiceEvent.created]) (by simp [ServiceEvent.joined])
    · exact h.exit.create hunused rfl rfl
    · exact fun r hr => by cases hr
  | @create_failed result hh hresult =>
    have hunused := exit_handle_unused (s := s) (by rw [hh]; simp)
    refine h.hook_step rfl rfl (by rw [hh]; rfl) (fun hu => absurd hu (hlate (hin hh rfl)))
      ?_ ?_ ?_ h.closing id
    · exact h.service.quiet (by simp [ServiceEvent.created]) (by simp [ServiceEvent.joined])
    · exact (h.exit.unused hunused (exit_handle_unused (by simp))).quiet
        (by simp [ServiceEvent.created]) (by simp [ServiceEvent.joined])
    · exact fun r hr => by cases hr
  | join hh hj =>
    have hhandle : s.exit_handle = s.exit_thread := if_pos hh
    have hbalanced := h.exit
    rw [hhandle] at hbalanced
    refine h.hook_step rfl (join_event_life _) (by rw [hh]; rfl)
      (fun hu => absurd hu (hlate (hin hh rfl))) ?_ ?_ ?_ h.closing id
    · refine h.service.quiet (by simp [(join_event_joined _).2]) ?_
      rcases hbalanced.joins with hj | hj <;> simp [hj]
    · exact hbalanced.join.unused (TecThread_join_not_ok _) (exit_handle_unused (by simp))
    · intro r hr
      rcases hbalanced.joins with hj | hj
      · rw [hj] at hr
        exact .inr (Option.some.inj hr).symm
      · cases hj.symm.trans hr
  | join_service hh hj =>
    exact h.join_service rfl (by rw [hh]; rfl) rfl
      (exit_handle_congr (by simp [hh]) rfl) (fun hj => (h.closing hj).1) id
  | wait_stopped hh hsig | read hh =>
    exact h.same rfl rfl rfl rfl (by rw [hh]; rfl)
      (fun hu => absurd hu (hlate (hin hh rfl))) rfl (exit_handle_congr (by simp [hh]) rfl) rfl

theorem joinInv_start_step (hs : StartStep S s e t) (h : ServiceJoinInv prior xs s) :
    ServiceJoinInv prior (xs ++ [e]) t := by
  cases hs with
  | call hs => exact h.same rfl rfl rfl rfl rfl id rfl (exit_handle_congr Iff.rfl rfl) rfl
  | @act a v hs ha =>
    cases a <;> exact h.same rfl rfl rfl rfl rfl id rfl (exit_handle_congr Iff.rfl rfl) rfl

theorem joinInv_shutdown_step (hs : ShutdownStep S s e t) (h : ServiceJoinInv prior xs s) :
    ServiceJoinInv prior (xs ++ [e]) t := by
  cases hs with
  | call hs => exact h.same rfl rfl rfl rfl rfl id rfl (exit_handle_congr Iff.rfl rfl) rfl
  | @act a v hs ha =>
    cases a <;> exact h.same rfl rfl rfl rfl rfl id rfl (exit_handle_congr Iff.rfl rfl) rfl

/-- Nobody comes back from `TecDaemon_done`, and it is behind its join only by its join. -/
theorem life_step_done {l l' : Life Cb} {x : LifeEvent Cb} (hs : LifeStep cfg l x l') :
    (l.done ≠ .idle → l'.done ≠ .idle) ∧
      (l'.done.Joined → l.done.Joined ∨ (∃ r, x = .done_join r) ∨ x = .done_skip) := by
  cases hs with
  | worker hs hd => cases hs <;> exact ⟨id, .inl⟩
  | run hs hd =>
    cases hs with
    | step hs => exact ⟨id, .inl⟩
  | terminate n hs hd =>
    cases hs with
    | step hs => exact ⟨id, .inl⟩
  | call c hs hd => exact ⟨id, .inl⟩
  | user hs hd => exact ⟨id, .inl⟩
  | done hs =>
    cases hs with
    | call hd hrun hterminate => exact ⟨fun hopen => absurd hd hopen, fun hj => hj.elim⟩
    | join hd ht hw => exact ⟨by simp, fun _ => .inr (.inl ⟨_, rfl⟩)⟩
    | skip hd ht => exact ⟨by simp, fun _ => .inr (.inr rfl)⟩
    | destroy hd => exact ⟨by simp, fun _ => .inl (by rw [hd]; trivial)⟩

theorem hookMove_exit_join {pc pc' : HookPc} {x : LifeEvent Cb} (hm : HookMove pc x pc') :
    pc' = .exit_join ↔ pc = .exit_join := by
  cases hm <;> simp

theorem joinInv_life_step {a b : Int} {x : LifeEvent Cb} {l : Life Cb} {pc : HookPc}
    (hs : LifeStep (hooked cfg a b) s.life x l) (hm : HookMove s.hook x pc) (hready : s.Ready x)
    (h : ServiceJoinInv prior xs s) :
    ServiceJoinInv prior (xs ++ [.life x]) { s with life := l, hook := pc } := by
  have hcreated := h.phase.created
  have hquiet : ∀ {r thread}, HookBalanced xs r thread → HookBalanced (xs ++ [.life x]) r thread :=
    fun h => h.quiet (by simp [ServiceEvent.created]) (by simp [ServiceEvent.joined])
  obtain ⟨hkept, hjoined⟩ := life_step_done hs
  refine ⟨?_, ?_, doneInv_step hs h.phase h.done, placed_life_step hs hm hcreated h.placed, ?_,
    hquiet h.service, ?_, ?_, ?_, ?_⟩
  · rcases life_step_worker hs with ⟨b, _, hstep⟩ | ⟨_, hsame⟩
    · exact phaseInv_step hstep h.phase
    · dsimp only
      rw [hsame]
      exact h.phase
  · rw [lifes_snoc]
    exact joinInv_step hs h.phase h.life
  · exact fun hu => h.fresh (unstarted_life_step hs hm h.placed hcreated hu)
  · exact (hquiet h.exit).of_eq (exit_handle_congr (hookMove_exit_join hm) rfl)
  · intro r hr
    rw [hook_joined_snoc] at hr
    exact h.joins r (by simpa [ServiceEvent.joined] using hr)
  · exact fun hj => ⟨hkept (h.closing hj).1, (h.closing hj).2⟩
  · intro hd
    rcases hjoined hd with hd | ⟨r, rfl⟩ | rfl
    · exact h.closed hd
    · exact hready
    · exact hready

theorem serviceJoinInv_step (hs : ServiceStep S cfg s e t) (h : ServiceJoinInv prior xs s) :
    ServiceJoinInv prior (xs ++ [e]) t := by
  cases hs with
  | life hs hm hready => exact joinInv_life_step hs hm hready h
  | init hs => exact joinInv_init_step hs h
  | exit hs => exact joinInv_exit_step hs h
  | start hs => exact joinInv_start_step hs h
  | shutdown hs => exact joinInv_shutdown_step hs h
  | done hd hj hjoinable =>
    exact h.join_service rfl rfl rfl (exit_handle_congr Iff.rfl rfl) (fun _ => by simp [hd])
      (fun _ => rfl)

theorem serviceJoinInv_initial (hi : ServiceInitial S cfg s) :
    ServiceJoinInv s.life.worker_thread.result ([] : List (ServiceEvent Cb α)) s := by
  obtain ⟨before, hthread⟩ := hi.service_thread
  have hunused : ¬ TecThread_ok s.service_thread := by
    rw [hthread]
    exact not_ok_of_none rfl
  have hphase : PhaseInv s.life.worker := by
    rw [hi.life.worker]
    exact phaseInv_initial
  refine ⟨hphase, joinInv_initial hi.life, doneInv_initial hi.life, ?_, fun _ => hunused,
    .inr ⟨hunused, rfl⟩, .inr ⟨exit_handle_unused (by rw [hi.hook]; simp), rfl⟩, ?_, ?_, ?_⟩
  · refine ⟨fun _ => hi.life.hook, fun pc hpc => ?_⟩
    rw [hi.hook] at hpc
    cases hpc
  · exact fun r hr => by cases hr
  · rw [hi.joined]
    exact fun hj => by cases hj
  · rw [hi.life.done]
    exact fun hd => hd.elim

theorem serviceJoinInv_run {s₀ : ServiceState Cb σ} (hi : ServiceInitial S cfg s₀)
    (h : (serviceLts Cb S cfg).Run s₀ xs s) :
    ServiceJoinInv s₀.life.worker_thread.result xs s := by
  induction h with
  | refl => exact serviceJoinInv_initial hi
  | snoc _ hs ih => exact serviceJoinInv_step hs ih

/-- When `TecDaemon_done` has returned, the threads of the hooks are joined. -/
theorem hooks_joined_once (h : ServiceJoinInv prior xs s) (hd : s.life.done = .returned) :
    JoinedOnce (hook_created xs) (hook_joined xs) := by
  have hclosed : s.life.done.Joined := by
    rw [hd]
    trivial
  have hunused := (h.closing (h.closed hclosed)).2
  have hhook : s.hook ≠ .exit_join := by
    intro hh
    have hw := (h.placed.inside .on_exit (by rw [hh]; rfl)).worker
    have hended := done_exited h.life hclosed
    rw [hw] at hended
    rcases hended with hended | hended <;> cases hended
  refine joinedOnce_iff.mpr ⟨fun hnone => ?_, fun r => ?_⟩
  · rcases h.joins none hnone with hr | hr <;> cases hr
  · cases r with
    | worker =>
      rw [List.count_eq_zero_of_not_mem, List.count_eq_zero_of_not_mem]
      · intro hm
        obtain ⟨e, _, he⟩ := List.mem_filterMap.mp hm
        cases e <;> cases he
      · intro hm
        rcases h.joins _ hm with hr | hr <;> cases hr
    | service => exact (h.service.settled hunused).symm
    | exit => exact (h.exit.settled (exit_handle_unused hhook)).symm

theorem service_joined_once (h : ServiceJoinInv prior xs s) (hd : s.life.done = .returned) :
    JoinedOnce (created xs) (joined xs) ↔ prior ≠ 0 ∨ s.life.worker.run ≠ .idle := by
  rw [← worker_joined_once h.life h.done hd, JoinedOnce, joined, created, List.map_append]
  have hhooks := hooks_joined_once h hd
  constructor
  · intro hall
    exact (List.perm_append_right_iff _).mp (hall.trans (hhooks.symm.append_left _))
  · exact fun hworker => hworker.append hhooks

/-- When `TecDaemon_done` of a worker or of a service worker has returned, `pthread_join` has been
invoked once for each thread that was created and on nothing else, if and only if the worker was
run or the memory of its handle does not look like the handle of a thread. -/
theorem threads_joined_once :
    (∀ (cfg : Config) (l₀ l : Life Cb) (ls : List (LifeEvent Cb)), LifeInitial cfg l₀ →
      (lifeLts Cb cfg).Run l₀ ls l → l.done = .returned →
      (JoinedOnce (Worker.created ls) (Worker.joined ls) ↔
        l₀.worker_thread.result ≠ 0 ∨ l.worker.run ≠ .idle)) ∧
    (∀ (S : Service σ α) (cfg : Config) (s₀ s : ServiceState Cb σ) (xs : List (ServiceEvent Cb α)),
      ServiceInitial S cfg s₀ → (serviceLts Cb S cfg).Run s₀ xs s → s.life.done = .returned →
      (JoinedOnce (created xs) (joined xs) ↔
        s₀.life.worker_thread.result ≠ 0 ∨ s.life.worker.run ≠ .idle)) := by
  constructor
  · intro cfg l₀ l ls hi hrun hd
    exact worker_joined_once (joinInv_run hi hrun) (doneInv_run hi hrun) hd
  · intro S cfg s₀ s xs hi hrun hd
    exact service_joined_once (serviceJoinInv_run hi hrun) hd

/-- A worker and a service worker that are run, terminated and done with. -/
theorem threads_joined_once_runs :
    (∃ ls : List (LifeEvent Nat), .create ∈ ls ∧
      JoinedOnce (Worker.created ls) (Worker.joined ls)) ∧
    ∃ xs : List (ServiceEvent Nat Empty), .shutdown_called ∈ xs ∧ .life .done_returned ∈ xs ∧
      JoinedOnce (created xs) (joined xs) := by
  let worker : Life Nat := ⟨TecWorker_init bareConfig, ⟨0, none⟩, false, .idle⟩
  have h1 := life_started (l := worker) rfl rfl rfl rfl rfl
  have h2 := h1.snoc (LifeStep.terminate 0 (.step (.lock rfl rfl)) rfl)
  have h3 := h2.snoc (LifeStep.terminate 0 (.step (.push rfl)) rfl)
  have h4 := h3.snoc (LifeStep.worker (.step (.pop_null rfl rfl) rfl) (.inl rfl))
  have h5 := h4.snoc (LifeStep.worker (.step (.on_exit rfl) rfl) (.inl rfl))
  have h6 := h5.snoc (LifeStep.worker (.step (.set_terminated rfl) rfl) (.inl rfl))
  have h7 := h6.snoc (LifeStep.terminate 0 (.step (.wait_terminated rfl rfl)) rfl)
  have h8 := h7.snoc (LifeStep.terminate 0 (.step (.join rfl rfl)) rfl)
  have h9 := h8.snoc (LifeStep.terminate 0 (.step (.read rfl)) rfl)
  have h10 := h9.snoc (LifeStep.terminate 0 (.step (.unlock rfl)) rfl)
  have h11 := h10.snoc (LifeStep.done (.call rfl (.inr ⟨0, rfl⟩) fun n => by
    by_cases hn : n = 0
    · subst hn
      exact .inr ⟨0, rfl⟩
    · exact .inl (by simp [State.setTerminate, hn, worker, TecWorker_init])))
  have h12 := h11.snoc (LifeStep.done (.skip rfl rfl))
  have h13 := h12.snoc (LifeStep.done (.destroy rfl))
  obtain ⟨xs, ⟨s₀, hinit, hrun⟩, _, _⟩ := default_at_exit
  obtain ⟨ys, zs, hend⟩ := default_ended
  have k0 := (hrun.trans hend).of_restrict
  have k1 := k0.snoc (.life (@LifeStep.terminate _ (hooked _ 0 0) _ _ _ 0
    (.step (.wait_terminated rfl rfl)) rfl) (.other rfl) trivial)
  have k2 := k1.snoc (.life (@LifeStep.terminate _ (hooked _ 0 0) _ _ _ 0
    (.step (.join rfl rfl)) rfl) (.other rfl) trivial)
  have k3 := k2.snoc (.life (@LifeStep.terminate _ (hooked _ 0 0) _ _ _ 0
    (.step (.read rfl)) rfl) (.other rfl) trivial)
  have k4 := k3.snoc (.life (@LifeStep.terminate _ (hooked _ 0 0) _ _ _ 0
    (.step (.unlock rfl)) rfl) (.other rfl) trivial)
  have k5 := k4.snoc (.life (@LifeStep.done _ (hooked _ 0 0) _ _ _
    (.call rfl (.inr ⟨0, rfl⟩) fun n => by
      by_cases hn : n = 0
      · subst hn
        exact .inr ⟨0, rfl⟩
      · exact .inl (by simp [State.setTerminate, hn, atEnd, atExit]))) (.other rfl) trivial)
  have k6 := k5.snoc (.done rfl rfl trivial)
  have k7 := k6.snoc (.life (@LifeStep.done _ (hooked _ 0 0) _ _ _ (.skip rfl rfl)) (.other rfl)
    rfl)
  have k8 := k7.snoc (.life (@LifeStep.done _ (hooked _ 0 0) _ _ _ (.destroy rfl)) (.other rfl)
    trivial)
  obtain ⟨hworker, hservice⟩ := @threads_joined_once Nat (DefaultPc × DefaultPc) Empty
  refine ⟨⟨_, by simp, (hworker _ _ _ _ ⟨rfl, rfl, rfl, rfl⟩ h13 rfl).mpr
      (.inr (show RunPc.returned 0 ≠ .idle by simp))⟩,
    ⟨_, by simp, List.mem_concat_self, (hservice _ _ _ _ _ hinit k8 rfl).mpr
      (.inr (show RunPc.returned 0 ≠ .idle by simp))⟩⟩

/-- A worker in memory that is all zeros is not run: `TecDaemon_done` joins a thread that nobody
has created. -/
theorem garbage_joined :
    ¬ ∀ (cfg : Config) (l₀ l : Life Nat) (ls : List (LifeEvent Nat)), LifeInitial cfg l₀ →
      (lifeLts Nat cfg).Run l₀ ls l → l.done = .returned →
      JoinedOnce (Worker.created ls) (Worker.joined ls) := by
  intro h
  let start : Life Nat := ⟨TecWorker_init bareConfig, ⟨0, none⟩, false, .idle⟩
  have h0 : (lifeLts Nat bareConfig).Run start [] start := .refl
  have h1 := h0.snoc (LifeStep.done (.call rfl (.inl rfl) fun _ => .inl rfl))
  have h2 := h1.snoc (LifeStep.done (.join rfl rfl (by simp)))
  have h3 := h2.snoc (LifeStep.done (.destroy rfl))
  have hnone := (joinedOnce_iff.mp (h _ _ _ _ ⟨rfl, rfl, rfl, rfl⟩ h3 rfl)).1
  exact hnone List.mem_cons_self

end Tecc.ServiceWorker
