import Tecc.WorkerLifecycle

/-! Who ends the wait of `TecDaemon_terminate` for `sig_terminated`. -/
namespace Tecc.Worker

open Transition

variable {Cb : Type} {cfg : Config} {l : Life Cb} {xs : List (LifeEvent Cb)} {n : Nat}

/-- `sig_terminated` is set, or there is a worker thread on its way to set it. -/
def State.Awaited (s : State Cb) : Prop :=
  s.sig_terminated = true ∨
    s.worker ≠ .absent ∧ s.sig_terminated = false ∧ (none ∈ s.queue ∨ s.worker.Left)

/-- With a worker thread the wait ends: the thread has left its loop or finds the NULL. -/
theorem awaited_of_present (hphase : PhaseInv l.worker)
    (hwait : l.worker.terminate n = .wait_terminated) (hw : l.worker.worker ≠ .absent) :
    l.worker.Awaited := by
  cases hsig : l.worker.sig_terminated with
  | true => exact .inl hsig
  | false => exact .inr ⟨hw, hsig, hphase.asked n hwait⟩

/-- Without one nobody sets the signal. -/
theorem not_awaited_of_absent (hphase : PhaseInv l.worker) (hw : l.worker.worker = .absent) :
    ¬ l.worker.Awaited := by
  rintro (hsig | ⟨hpresent, _⟩)
  · rw [hphase.signal.terminated, hw] at hsig
    cases hsig
  · exact hpresent hw

/-- After `TecDaemon_run` has returned, the wait of `TecDaemon_terminate` can be ended exactly when
the creation of the worker thread did not fail. -/
theorem terminate_awaited (h : (lifeLts Cb cfg).History xs l) {result : Int}
    (hrun : l.worker.run = .returned result)
    (hwait : l.worker.terminate n = .wait_terminated) :
    l.worker.Awaited ↔ ∀ error, .create_failed error ∉ xs := by
  obtain ⟨hphase, _⟩ := life_control h
  have htold := controlTold_history h
  constructor
  · intro hawaited error hm
    exact not_awaited_of_absent hphase (htold.create_failed error hm).2.1 hawaited
  · intro hcreated
    refine awaited_of_present hphase hwait ?_
    intro habsent
    exact hcreated result (htold.outcome result hrun habsent)

/-- The worker thread is in its loop when `TecDaemon_terminate` waits. -/
theorem terminate_awaited_running :
    ∃ (xs : List (LifeEvent Nat)) (l : Life Nat), (lifeLts Nat bareConfig).History xs l ∧
      l.worker.terminate 0 = .wait_terminated ∧
      (l.worker.Awaited ↔ ∀ error, .create_failed error ∉ xs) := by
  let start : Life Nat := ⟨TecWorker_init bareConfig, ⟨0, none⟩, false, .idle⟩
  have h0 : (lifeLts Nat bareConfig).History [] start := .init ⟨rfl, rfl, rfl, rfl⟩
  have h1 := h0.run (life_started rfl rfl rfl rfl rfl)
  have h2 := h1.snoc (LifeStep.terminate 0 (.step (.lock rfl rfl)) rfl)
  have h3 := h2.snoc (LifeStep.terminate 0 (.step (.push rfl)) rfl)
  exact ⟨_, _, h3, rfl, terminate_awaited (n := 0) h3 (show _ = RunPc.returned 0 from rfl) rfl⟩

/-- The thread cannot be created, `TecDaemon_run` returns the error, and `TecDaemon_terminate` waits
for a thread that is not there. -/
theorem terminate_abandoned :
    ¬ ∀ (cfg : Config) (xs : List (LifeEvent Nat)) (l : Life Nat),
      ((lifeLts Nat cfg).restrict TerminateAfterRun).History xs l →
      (∃ result, l.worker.run = .returned result) → ∀ n,
      l.worker.terminate n = .wait_terminated → l.worker.Awaited := by
  intro h
  let start : Life Nat := ⟨TecWorker_init bareConfig, ⟨0, none⟩, false, .idle⟩
  have h0 : ((lifeLts Nat bareConfig).restrict TerminateAfterRun).History [] start :=
    .init ⟨rfl, rfl, rfl, rfl⟩
  have h1 := h0.snoc_restrict (LifeStep.run (.step (.lock rfl rfl)) rfl) trivial
  have h2 := h1.snoc_restrict (LifeStep.run
    (.step (.create_failed rfl (show (11 : Int) ≠ 0 by decide))) rfl) trivial
  have h3 := h2.snoc_restrict (LifeStep.run (.step (.return_failed rfl)) rfl) trivial
  have h4 := h3.snoc_restrict (LifeStep.terminate 0 (.step (.lock rfl rfl)) rfl) ⟨11, rfl⟩
  have h5 := h4.snoc_restrict (LifeStep.terminate 0 (.step (.push rfl)) rfl) trivial
  exact not_awaited_of_absent (life_control h5.of_restrict).1 rfl (h _ _ _ h5 ⟨11, rfl⟩ 0 rfl)

end Tecc.Worker
