import Tecc.ServiceJoin

/-! The exit thread of the service worker: `on_exit` waits for `sig_stopped` whether or not there is
a thread that invokes `shutdown`. -/
namespace Tecc.ServiceWorker

open Transition Worker

variable {Cb σ α : Type} {S : Service σ α} {cfg : Config} {s t : ServiceState Cb σ}
  {e : ServiceEvent Cb α} {xs : List (ServiceEvent Cb α)} {prior : Int}

/-- `shutdown` signals termination before it returns. -/
def Stops (s : ServiceState Cb σ) : ServiceEvent Cb α → Prop
  | .shutdown .return => s.sig_stopped = true
  | _ => True

/-- `shutdown` has been invoked, or there is a thread that will invoke it. -/
def ShutdownComes (xs : List (ServiceEvent Cb α)) (s : ServiceState Cb σ) : Prop :=
  .shutdown_called ∈ xs ∨ s.shutdown = .created

/-- No remaining step sets `sig_stopped`. -/
def Stranded (S : Service σ α) (cfg : Config) (s : ServiceState Cb σ) : Prop :=
  ∀ ys t, ((serviceLts Cb S cfg).restrict Stops).Run s ys t → t.sig_stopped = false

/-! The worker thread behind `TecThread_create` in `on_exit` -/

def ServiceState.Closing (s : ServiceState Cb σ) : Prop :=
  s.life.worker.worker.Ended ∨ s.hook.place = some .on_exit ∧ s.hook ≠ .exit_create

theorem not_closing_of_out (hw : ¬ s.life.worker.worker.Ended) (hout : s.hook = .out) :
    ¬ s.Closing := by
  rintro (hended | ⟨hplace, _⟩)
  · exact hw hended
  · rw [hout] at hplace
    cases hplace

theorem closing_life_step {a b : Int} {x : LifeEvent Cb} {l : Life Cb} {pc : HookPc}
    (hs : LifeStep (hooked cfg a b) s.life x l) (hm : HookMove s.hook x pc) (hplaced : s.Placed)
    (hcreated : Created s.life.worker) (h : s.Closing) :
    ({ s with life := l, hook := pc } : ServiceState Cb σ).Closing := by
  rcases life_step_cases hs with hs | ⟨⟨hother, _, hne⟩, hhook, hsame⟩
  · cases hs with
    | on_init hw hout hhook | on_exit hw hout hhook =>
      refine absurd h (not_closing_of_out ?_ (placed_out hplaced hout))
      rw [hw]
      exact id
    | step hstep hin =>
      left
      have hmove := worker_step_move hstep
      have hat : s.life.worker.worker.Ended ∨ s.life.worker.worker = .on_exit :=
        h.imp id fun hclosing => (hplaced.inside _ hclosing.1).worker
      cases hmove with
      | on_exit hw hw' | set_terminated hw hw' =>
        dsimp only
        rw [hw']
        trivial
      | loop hw hw' =>
        rcases hat with hended | hexit
        · exact absurd hended (loop_inited hw).2
        · rw [hexit] at hw
          exact hw.elim
      | on_init hw hw' | set_running hw hw' | enter hw hw' | skip hw hw' | leave hw hw' =>
        rw [hw] at hat
        rcases hat with hended | hexit
        · exact hended.elim
        · cases hexit
  · have hpc := hookMove_other hm (quiet_isHook hother hne)
    subst hpc
    have hkept : l.worker.worker = s.life.worker.worker →
        ({ s with life := l, hook := s.hook } : ServiceState Cb σ).Closing := by
      intro hw
      refine h.imp ?_ id
      intro hended
      dsimp only
      rw [hw]
      exact hended
    rcases hsame with hw | ⟨y, ⟨c, hc⟩ | hu⟩
    · exact hkept (by rw [hw])
    · exact hkept (call_step_worker hc)
    · rcases control_step_worker hu with hw | ⟨hrun, _⟩
      · exact hkept hw
      · -- there is no hook before there is a worker thread
        have habsent := hcreated (.inr hrun)
        rcases h with hended | ⟨hplace, _⟩
        · rw [habsent] at hended
          exact hended.elim
        · cases habsent.symm.trans (hplaced.inside _ hplace).worker

/-! The exit thread -/

/-- `on_exit` has come to the creation of its thread. -/
def Tried (xs : List (ServiceEvent Cb α)) : Prop :=
  .exit_create ∈ xs ∨ ∃ result, .exit_create_failed result ∈ xs

/-- The event is not one of the exit thread. -/
def ServiceEvent.Still : ServiceEvent Cb α → Prop
  | .exit_create | .exit_create_failed _ | .shutdown_called => False
  | _ => True

structure ShutdownInv (xs : List (ServiceEvent Cb α)) (s : ServiceState Cb σ) : Prop where
  closing : Tried xs → s.Closing
  created : .exit_create ∈ xs ↔ s.shutdown ≠ .absent
  called : .shutdown_called ∈ xs ↔ s.shutdown = .running ∨ s.shutdown = .exited
  once : .exit_create ∈ xs → ∀ result, .exit_create_failed result ∉ xs
  joining : s.hook = .exit_join →
    s.shutdown ≠ .absent ∧ TecThread_ok s.exit_thread ∧ s.exit_thread.t = some .exit
  waiting : s.hook = .exit_wait_stopped →
    s.shutdown = .exited ∨ ∃ result, .exit_create_failed result ∈ xs
  stopped : s.shutdown = .exited → s.sig_stopped = true

theorem mem_still {x : ServiceEvent Cb α} (he : e.Still) (hx : ¬ x.Still) :
    x ∈ xs ++ [e] ↔ x ∈ xs := by
  rw [List.mem_append, List.mem_singleton]
  refine ⟨fun h => h.resolve_right ?_, .inl⟩
  rintro rfl
  exact hx he

theorem tried_still (he : e.Still) : Tried (xs ++ [e]) ↔ Tried xs := by
  unfold Tried
  rw [mem_still he id]
  refine or_congr Iff.rfl (exists_congr fun result => ?_)
  exact mem_still he id

theorem join_event_still (thread : TecThread) :
    (join_event thread : ServiceEvent Cb α).Still := by
  unfold join_event
  split <;> trivial

/-- A step that leaves the exit thread where it is. -/
theorem ShutdownInv.still (h : ShutdownInv xs s) (he : e.Still) (hclosing : s.Closing → t.Closing)
    (hshutdown : t.shutdown = s.shutdown) (hthread : t.exit_thread = s.exit_thread)
    (hjoin : t.hook = .exit_join → s.hook = .exit_join)
    (hwait : t.hook = .exit_wait_stopped → s.hook = .exit_wait_stopped)
    (hsig : s.sig_stopped = true → t.sig_stopped = true) : ShutdownInv (xs ++ [e]) t where
  closing := fun htried => hclosing (h.closing ((tried_still he).mp htried))
  created := by
    rw [mem_still he id, hshutdown]
    exact h.created
  called := by
    rw [mem_still he id, hshutdown]
    exact h.called
  once := by
    rw [mem_still he id]
    intro hcreate result
    rw [mem_still he id]
    exact h.once hcreate result
  joining := by
    rw [hshutdown, hthread]
    exact fun hh => h.joining (hjoin hh)
  waiting := by
    rw [hshutdown]
    intro hh
    refine (h.waiting (hwait hh)).imp id ?_
    rintro ⟨result, hresult⟩
    exact ⟨result, List.mem_append_left _ hresult⟩
  stopped := by
    rw [hshutdown]
    exact fun hexited => hsig (h.stopped hexited)

theorem shutdownInv_init_step (hs : InitStep s e t) (h : ShutdownInv xs s) :
    ShutdownInv (xs ++ [e]) t := by
  have hclosing : s.hook.place = some .on_init → t.life = s.life →
      s.Closing → t.Closing := by
    intro hplace hlife hclosing
    rcases hclosing with hended | ⟨hexit, _⟩
    · left
      rw [hlife]
      exact hended
    · cases hplace.symm.trans hexit
  cases hs with
  | create hh =>
    exact h.still trivial (hclosing (by rw [hh]; rfl) rfl) rfl rfl (by simp) (by simp) id
  | create_failed hh hresult =>
    exact h.still trivial (hclosing (by rw [hh]; rfl) rfl) rfl rfl (by simp) (by simp) id
  | wait_started hh hsig =>
    exact h.still trivial (hclosing (by rw [hh]; rfl) rfl) rfl rfl (by simp) (by simp) id
  | test hh =>
    refine h.still trivial (hclosing (by rw [hh]; rfl) rfl) rfl rfl ?_ ?_ id
    · dsimp only
      split <;> simp
    · dsimp only
      split <;> simp
  | join hh hj =>
    exact h.still (join_event_still _) (hclosing (by rw [hh]; rfl) rfl) rfl rfl (by simp)
      (by simp) id
  | set_stopped hh =>
    exact h.still trivial (hclosing (by rw [hh]; rfl) rfl) rfl rfl (by simp) (by simp)
      (fun _ => rfl)
  | read hh =>
    exact h.still trivial (hclosing (by rw [hh]; rfl) rfl) rfl rfl (by simp) (by simp) id

/-- The creation comes once: behind it the worker thread does not come back. -/
theorem not_tried_of_create (h : ShutdownInv xs s) (hplaced : s.Placed)
    (hh : s.hook = .exit_create) : ¬ Tried xs := by
  intro htried
  rcases h.closing htried with hended | ⟨_, hne⟩
  · rw [(hplaced.inside .on_exit (by rw [hh]; rfl)).worker] at hended
    exact hended
  · exact hne hh

theorem shutdownInv_exit_step (hs : ExitStep s e t) (hplaced : s.Placed) (h : ShutdownInv xs s) :
    ShutdownInv (xs ++ [e]) t := by
  cases hs with
  | create hh =>
    have hfresh := not_tried_of_create h hplaced hh
    have hcalled : .shutdown_called ∉ xs := by
      intro hm
      refine hfresh (.inl (h.created.mpr fun habsent => ?_))
      have hrunning := h.called.mp hm
      rw [habsent] at hrunning
      rcases hrunning with hrunning | hrunning <;> cases hrunning
    exact
      { closing := fun _ => .inr ⟨rfl, by simp⟩
        created := by simp
        called := by simp [hcalled]
        once := fun _ result hm => hfresh (.inr ⟨result, by simpa using hm⟩)
        joining := fun _ => ⟨by simp, rfl, rfl⟩
        waiting := by simp
        stopped := by simp }
  | @create_failed result hh hresult =>
    have hfresh := not_tried_of_create h hplaced hh
    exact
      { closing := fun _ => .inr ⟨rfl, by simp⟩
        created := by simpa using h.created
        called := by simpa using h.called
        once := fun hm => absurd (.inl (by simpa using hm)) hfresh
        joining := by simp
        waiting := fun _ => .inr ⟨result, List.mem_concat_self⟩
        stopped := h.stopped }
  | join hh hj =>
    obtain ⟨_, hok, hthread⟩ := h.joining hh
    rw [ServiceState.Joinable, TecThread_join_ok hok, hthread] at hj
    have hstill : ShutdownInv (xs ++ [join_event s.exit_thread])
        { s with exit_thread := s.exit_thread, hook := .exit_join_service } :=
      h.still (join_event_still _) (fun hclosing => hclosing.imp id fun _ => ⟨rfl, by simp⟩)
        rfl rfl (by simp) (by simp) id
    exact
      { hstill with
        closing := fun htried => (hstill.closing htried).imp id fun _ => ⟨rfl, by simp⟩
        joining := by simp
        waiting := fun _ => .inl hj }
  | wait_stopped hh hsig =>
    exact h.still trivial (fun hclosing => hclosing.imp id fun _ => ⟨rfl, by simp⟩) rfl rfl
      (by simp) (by simp) id
  | join_service hh hj =>
    exact h.still (join_event_still _) (fun hclosing => hclosing.imp id fun _ => ⟨rfl, by simp⟩)
      rfl rfl (by simp) (by simp) id
  | read hh =>
    exact h.still trivial (fun hclosing => hclosing.imp id fun _ => ⟨rfl, by simp⟩) rfl rfl
      (by simp) (by simp) id

theorem shutdownInv_start_step (hs : StartStep S s e t) (h : ShutdownInv xs s) :
    ShutdownInv (xs ++ [e]) t := by
  cases hs with
  | call hs => exact h.still trivial id rfl rfl id id id
  | @act a v hs ha => cases a <;> exact h.still trivial id rfl rfl id id id

theorem shutdownInv_shutdown_step (hs : ShutdownStep S s e t) (hC : Stops s e)
    (h : ShutdownInv xs s) : ShutdownInv (xs ++ [e]) t := by
  cases hs with
  | call hs =>
    have hpresent : s.shutdown ≠ .absent := by
      rw [hs]
      simp
    exact
      { closing := fun htried => h.closing (by simpa [Tried] using htried)
        created := by simpa using h.created.mpr hpresent
        called := by simp
        once := fun hm result => by simpa using h.once (by simpa using hm) result
        joining := fun hh => ⟨by simp, (h.joining hh).2⟩
        waiting := by
          intro hh
          rcases h.waiting hh with hexited | ⟨result, hresult⟩
          · cases hs.symm.trans hexited
          · exact .inr ⟨result, List.mem_append_left _ hresult⟩
        stopped := by simp }
  | @act a v hs ha =>
    cases a with
    | step a => exact h.still trivial id rfl rfl id id id
    | sig_stopped => exact h.still trivial id rfl rfl id id (fun _ => rfl)
    | «return» =>
      have hstill : ShutdownInv (xs ++ [.shutdown .return]) s :=
        h.still trivial id rfl rfl id id id
      exact
        { hstill with
          created := by simpa [ServiceState.afterShutdown, hs] using hstill.created
          called := by simpa [ServiceState.afterShutdown, hs] using hstill.called
          joining := fun hh => ⟨by simp [ServiceState.afterShutdown], (hstill.joining hh).2⟩
          waiting := fun _ => .inl rfl
          stopped := fun _ => hC }

theorem shutdownInv_step (hs : ServiceStep S cfg s e t) (hC : Stops s e)
    (hjoin : ServiceJoinInv prior xs s) (h : ShutdownInv xs s) : ShutdownInv (xs ++ [e]) t := by
  cases hs with
  | life hs hm hready =>
    refine h.still trivial (closing_life_step hs hm hjoin.placed hjoin.phase.created) rfl rfl
      ?_ ?_ id
    · exact (hookMove_exit_join hm).mp
    · dsimp only
      generalize s.hook = hook at hm
      intro hh
      cases hm with
      | other he => exact hh
      | on_init_called | on_init_returned | on_exit_called | on_exit_returned => cases hh
  | init hs => exact shutdownInv_init_step hs h
  | exit hs => exact shutdownInv_exit_step hs hjoin.placed h
  | start hs => exact shutdownInv_start_step hs h
  | shutdown hs => exact shutdownInv_shutdown_step hs hC h
  | done hd hj hjoinable => exact h.still (join_event_still _) id rfl rfl id id id

theorem shutdownInv_history (h : ((serviceLts Cb S cfg).restrict Stops).History xs s) :
    ShutdownInv xs s := by
  refine h.induction (P := fun xs s => ShutdownInv xs s) ?_ ?_
  · intro s hi
    exact
      { closing := by simp [Tried]
        created := by simp [hi.shutdown]
        called := by simp [hi.shutdown]
        once := by simp
        joining := by simp [hi.hook]
        waiting := by simp [hi.hook]
        stopped := by simp [hi.shutdown] }
  · rintro xs s e t hxs ih ⟨hC, hs⟩
    obtain ⟨s₀, hi, hrun⟩ := hxs.of_restrict
    exact shutdownInv_step hs hC (serviceJoinInv_run hi hrun) ih

/-! The wait for `sig_stopped` -/

/-- `on_exit` waits for `sig_stopped`, and there is no exit thread. -/
structure ServiceState.Waiting (s : ServiceState Cb σ) : Prop where
  hook : s.hook = .exit_wait_stopped
  shutdown : s.shutdown = .absent
  unset : s.sig_stopped = false

theorem waiting_step (hs : ServiceStep S cfg s e t) (h : s.Waiting) : t.Waiting := by
  obtain ⟨hh, habsent, hunset⟩ := h
  cases hs with
  | life hs hm hready =>
    rw [hh] at hm
    cases hm with
    | other he => exact ⟨rfl, habsent, hunset⟩
  | init hs =>
    cases hs with
    | create hin | create_failed hin _ | wait_started hin _ | test hin | join hin _
    | set_stopped hin | read hin => cases hh.symm.trans hin
  | exit hs =>
    cases hs with
    | wait_stopped hin hsig => cases hunset.symm.trans hsig
    | create hin | create_failed hin _ | join hin _ | join_service hin _ | read hin =>
      cases hh.symm.trans hin
  | start hs =>
    cases hs with
    | call hs => exact ⟨hh, habsent, hunset⟩
    | @act a v hs ha => cases a <;> exact ⟨hh, habsent, hunset⟩
  | shutdown hs =>
    cases hs with
    | call hs => cases habsent.symm.trans hs
    | act hs ha => cases habsent.symm.trans hs
  | done hd hj hjoinable => exact ⟨hh, habsent, hunset⟩

theorem stranded_of_waiting (S : Service σ α) (cfg : Config) (h : s.Waiting) :
    Stranded S cfg s := by
  intro ys t hrun
  have hwaiting : t.Waiting := hrun.stable (fun _ _ _ hw hs => waiting_step hs.2 hw) h
  exact hwaiting.unset

/-- When `on_exit` waits for `sig_stopped`, `shutdown` has been invoked or will be, and the signal
can be set, exactly when the exit thread was created. -/
theorem shutdown_comes_iff (S : Service σ α) (cfg : Config) (xs : List (ServiceEvent Cb α))
    (s : ServiceState Cb σ) (h : ((serviceLts Cb S cfg).restrict Stops).History xs s)
    (hh : s.hook = .exit_wait_stopped) :
    (ShutdownComes xs s ∧ ¬ Stranded S cfg s) ↔ ∀ result, .exit_create_failed result ∉ xs := by
  have hinv := shutdownInv_history h
  constructor
  · rintro ⟨hcomes, _⟩ result hfailed
    have habsent : s.shutdown = .absent := by
      by_contra hpresent
      exact hinv.once (hinv.created.mpr hpresent) result hfailed
    rcases hcomes with hcalled | hcreated
    · rcases hinv.called.mp hcalled with hpc | hpc <;> cases habsent.symm.trans hpc
    · cases habsent.symm.trans hcreated
  · intro hcreated
    have hexited : s.shutdown = .exited := by
      refine (hinv.waiting hh).resolve_right ?_
      rintro ⟨result, hfailed⟩
      exact hcreated result hfailed
    refine ⟨.inl (hinv.called.mpr (.inr hexited)), fun hstranded => ?_⟩
    have hset := hinv.stopped hexited
    rw [hstranded [] s .refl] at hset
    cases hset

theorem default_stops :
    ∃ xs, ((serviceLts Nat TecService_init_ bareConfig).restrict Stops).History xs atExit := by
  obtain ⟨xs, hxs, _, hquiet⟩ := default_at_exit
  refine ⟨xs, hxs.of_restrict.restrict ?_⟩
  intro e he s
  cases e with
  | shutdown a => exact absurd he (hquiet a)
  | _ => trivial

/-- The exit thread of the default service is created and joined. -/
theorem shutdown_comes_default :
    ∃ xs s, ((serviceLts Nat TecService_init_ bareConfig).restrict Stops).History xs s ∧
      s.hook = .exit_wait_stopped ∧ ShutdownComes xs s ∧
      ¬ Stranded TecService_init_ bareConfig s := by
  obtain ⟨xs, h0⟩ := default_stops
  have h1 := h0.snoc_restrict (.exit (.create rfl)) trivial
  have h2 := h1.snoc_restrict (.shutdown (.call rfl)) trivial
  have h3 := h2.snoc_restrict (.shutdown (.act rfl .sig_stopped)) trivial
  have h4 := h3.snoc_restrict (.shutdown (.act rfl .return)) rfl
  have h5 := h4.snoc_restrict (.exit (.join rfl rfl)) trivial
  refine ⟨_, _, h5, rfl, (shutdown_comes_iff TecService_init_ bareConfig _ _ h5 rfl).mpr ?_⟩
  exact (shutdownInv_history h5).once (by simp)

/-- The exit thread of the default service is not created: `on_exit` waits for ever. -/
theorem shutdown_never_comes :
    ∃ xs s, ((serviceLts Nat TecService_init_ bareConfig).restrict Stops).History xs s ∧
      s.hook = .exit_wait_stopped ∧ ¬ ShutdownComes xs s ∧
      Stranded TecService_init_ bareConfig s := by
  obtain ⟨xs, h0⟩ := default_stops
  have hresult : (11 : Int) ≠ 0 := by decide
  have h1 := h0.snoc_restrict (.exit (.create_failed rfl hresult)) trivial
  refine ⟨_, _, h1, rfl, ?_, stranded_of_waiting _ _ ⟨rfl, rfl, rfl⟩⟩
  rintro (hcalled | hcreated)
  · rcases (shutdownInv_history h1).called.mp hcalled with hpc | hpc <;> cases hpc
  · cases hcreated

end Tecc.ServiceWorker
