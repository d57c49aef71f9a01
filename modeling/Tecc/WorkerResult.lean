import Tecc.WorkerLifecycle

/-! What `TecDaemon_run` returns when `TecDaemon_terminate` is called at the same time. -/
namespace Tecc.Worker

open Transition

variable {Cb : Type} {cfg : Config} {l : Life Cb} {xs ys zs : List (LifeEvent Cb)} {result : Int}

/-- Before `on_exit` has returned an error, `w->error` is what `on_init` has returned. -/
theorem error_init_iff (h : (lifeLts Cb cfg).History ys l) (hin : l.worker.worker.Inited) :
    l.worker.error = cfg.init_result ↔ ∀ error, .on_exit_returned error ∈ ys → error = 0 := by
  obtain ⟨herror, htold⟩ := workerTold_history h
  by_cases hend : l.worker.worker.Ended
  · rw [herror.ended hend, Config.final_result]
    by_cases hzero : cfg.init_result = 0
    · rw [if_pos hzero, hzero]
      constructor
      · intro hresult error hm
        rw [((htold.exit_returned error).mp hm).1] at hresult
        exact hresult
      · intro hnone
        cases hon : cfg.on_exit with
        | none => rfl
        | some error => exact hnone error ((htold.exit_returned error).mpr ⟨hon, hzero, hend⟩)
    · rw [if_neg hzero]
      exact iff_of_true rfl fun error hm => absurd ((htold.exit_returned error).mp hm).2.1 hzero
  · refine iff_of_true (herror.inited hin hend) fun error hm => ?_
    exact absurd ((htold.exit_returned error).mp hm).2.2 hend

/-- With a worker thread, `TecDaemon_run` returns the result of `on_init` exactly when `on_exit` has
not returned an error before. -/
theorem run_returns_init (h : (lifeLts Cb cfg).History (ys ++ .run_returned result :: zs) l)
    (hcreate : .create ∈ ys) :
    result = cfg.init_result ↔ ∀ error, .on_exit_returned error ∈ ys → error = 0 := by
  obtain ⟨l₀, l₁, hys, hstep, _⟩ := h.step_at
  obtain ⟨hphase, _⟩ := life_control hys
  have hpresent := (controlTold_history hys).create hcreate
  rcases run_returned_step hstep with ⟨hr, rfl⟩ | hr
  · refine error_init_iff hys ?_
    have hrunning := hphase.signal.running.mp (hphase.seen (by rw [hr]; trivial))
    cases hw : l₀.worker.worker <;> rw [hw] at hrunning <;> trivial
  · exact absurd (hphase.failed result hr).1 hpresent

/-- `TecDaemon_terminate` gets the lock that `TecDaemon_run` has released. While `on_exit` runs
`TecDaemon_run` still returns what `on_init` has returned, and behind it the 5 of `on_exit`. -/
theorem run_returns_init_run :
    ∃ (xs ys : List (LifeEvent Nat)) (l l' : Life Nat),
      (lifeLts Nat hookConfig).History (xs ++ [.run_returned 0]) l ∧
      .terminate_called 0 ∈ xs ∧ .on_exit_called ∈ xs ∧
      ((0 : Int) = hookConfig.init_result ↔ ∀ error, .on_exit_returned error ∈ xs → error = 0) ∧
      (lifeLts Nat hookConfig).History (ys ++ [.run_returned 5]) l' ∧ .on_exit_returned 5 ∈ ys ∧
      ((5 : Int) = hookConfig.init_result ↔
        ∀ error, .on_exit_returned error ∈ ys → error = 0) := by
  let start : Life Nat := ⟨TecWorker_init hookConfig, ⟨0, none⟩, false, .idle⟩
  have h0 : (lifeLts Nat hookConfig).History [] start := .init ⟨rfl, rfl, rfl, rfl⟩
  have h1 := h0.snoc (LifeStep.run (.step (.lock rfl rfl)) rfl)
  have h2 := h1.snoc (LifeStep.run (.step (.create rfl)) rfl)
  have h3 := h2.snoc (LifeStep.worker (.on_init rfl rfl rfl) (.inl rfl))
  have h4 := h3.snoc (LifeStep.worker (.step (.on_init rfl) rfl) (.inl rfl))
  have h5 := h4.snoc (LifeStep.worker (.step (.set_running rfl) rfl) (.inl rfl))
  have h6 := h5.snoc (LifeStep.run (.step (.wait_running rfl rfl)) rfl)
  have h7 := h6.snoc (LifeStep.run (.step (.unlock rfl)) rfl)
  have h8 := h7.snoc (LifeStep.terminate 0 (.step (.lock rfl rfl)) rfl)
  have h9 := h8.snoc (LifeStep.terminate 0 (.step (.push rfl)) rfl)
  have h10 := h9.snoc (LifeStep.worker (.step (.test_error rfl) rfl) (.inl rfl))
  have h11 := h10.snoc (LifeStep.worker (.step (.pop_null rfl rfl) rfl) (.inl rfl))
  have h12 := h11.snoc (LifeStep.worker (.on_exit rfl rfl rfl) (.inl rfl))
  have h13 := h12.snoc (LifeStep.run (.step (.return rfl)) rfl)
  have k13 := h12.snoc (LifeStep.worker (.step (.on_exit rfl) rfl) (.inl rfl))
  have k14 := k13.snoc (LifeStep.run (.step (.return rfl)) rfl)
  refine ⟨_, _, _, _, h13, ?_, List.mem_concat_self, run_returns_init h13 ?_, k14,
    List.mem_concat_self, run_returns_init k14 ?_⟩
  · iterate 4 apply List.mem_append_left
    exact List.mem_concat_self
  · iterate 10 apply List.mem_append_left
    exact List.mem_concat_self
  · iterate 11 apply List.mem_append_left
    exact List.mem_concat_self

/-- `TecDaemon_terminate` gets the lock that `TecDaemon_run` has released, and `on_exit` returns 5
before `TecDaemon_run` reads `w->error` again. -/
theorem run_returns_exit :
    ¬ ∀ (cfg : Config) (l : Life Nat), (lifeLts Nat cfg).Reachable l →
      l.worker.worker ≠ .absent → ∀ result, l.worker.run = .returned result →
      result = cfg.init_result := by
  intro h
  let cfg : Config := { bareConfig with on_exit := some 5 }
  let start : Life Nat := ⟨TecWorker_init cfg, ⟨0, none⟩, false, .idle⟩
  have h0 : (lifeLts Nat cfg).History [] start := .init ⟨rfl, rfl, rfl, rfl⟩
  have h1 := h0.snoc (LifeStep.run (.step (.lock rfl rfl)) rfl)
  have h2 := h1.snoc (LifeStep.run (.step (.create rfl)) rfl)
  have h3 := h2.snoc (LifeStep.worker (.step (.on_init rfl) rfl) (.inl rfl))
  have h4 := h3.snoc (LifeStep.worker (.step (.set_running rfl) rfl) (.inl rfl))
  have h5 := h4.snoc (LifeStep.run (.step (.wait_running rfl rfl)) rfl)
  have h6 := h5.snoc (LifeStep.run (.step (.unlock rfl)) rfl)
  have h7 := h6.snoc (LifeStep.terminate 0 (.step (.lock rfl rfl)) rfl)
  have h8 := h7.snoc (LifeStep.terminate 0 (.step (.push rfl)) rfl)
  have h9 := h8.snoc (LifeStep.worker (.step (.test_error rfl) rfl) (.inl rfl))
  have h10 := h9.snoc (LifeStep.worker (.step (.pop_null rfl rfl) rfl) (.inl rfl))
  have h11 := h10.snoc (LifeStep.worker (.on_exit rfl rfl rfl) (.inl rfl))
  have h12 := h11.snoc (LifeStep.worker (.step (.on_exit rfl) rfl) (.inl rfl))
  have h13 := h12.snoc (LifeStep.run (.step (.return rfl)) rfl)
  have hresult := h cfg _ h13.reachable (by simp) 5 rfl
  exact absurd hresult (show (5 : Int) ≠ 0 by decide)

end Tecc.Worker
