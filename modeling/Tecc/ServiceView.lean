import Tecc.ServiceProtocol
import Tecc.WorkerReturns

/-! The worker of a service worker in a run without end: it is a worker whose hooks have the results
that they have in the run. -/
namespace Tecc.ServiceWorker

open Transition Worker

variable {Cb σ α : Type} {S : Service σ α} {cfg cfg' : Config}
  {s t : ServiceState Cb σ} {e : ServiceEvent Cb α}
  {E : Execution (ServiceState Cb σ) (ServiceEvent Cb α)}
  {D : ServiceState Cb σ → ServiceEvent Cb α → Prop} {l l' : Life Cb} {x : LifeEvent Cb}
  {a b a' b' : Int}

/-- What an event tells of the worker itself. -/
def ServiceEvent.base (e : ServiceEvent Cb α) : Option (Event Cb) :=
  e.lifeEvent.bind LifeEvent.base

def worker_view (E : Execution (ServiceState Cb σ) (ServiceEvent Cb α)) :
    Execution (Worker.State Cb) (Event Cb) :=
  E.view (fun s => s.life.worker) ServiceEvent.base

/-- Nobody destroys the signal of a call as long as `TecSignal_set` uses it. -/
def SignalsOutlive (s : ServiceState Cb σ) (e : ServiceEvent Cb α) : Prop :=
  ∀ y, e.base = some y → Outlives s.life.worker y

/-- The signal that `TecSignal_set` uses is not destroyed. -/
def SignalsAlive (s : ServiceState Cb σ) (e : ServiceEvent Cb α) : Prop :=
  ∀ y, e.base = some y → Alive s.life.worker y

/-- What the hooks return, whenever they do. -/
structure Results (E : Execution (ServiceState Cb σ) (ServiceEvent Cb α)) (a b : Int) : Prop where
  init : ∀ n r, E.event n = some (.life (.on_init_returned r)) → r = a
  exit : ∀ n r, E.event n = some (.life (.on_exit_returned r)) → r = b

/-- Each hook returns at most once. -/
theorem results_exist (hE : ((serviceLts Cb S cfg).restrict D).Valid E) :
    ∃ a b, Results E a b := by
  have htold : ∀ n, ∃ a b, WorkerTold (hooked cfg a b) (lifes (E.trace n)) (E.state n).life := by
    intro n
    obtain ⟨a, b, hlife⟩ := service_life (C := fun _ _ => True) (fun _ _ _ => trivial)
      (hE.history n)
    exact ⟨a, b, (workerTold_history hlife.of_restrict).2⟩
  have hmem : ∀ {m n x}, E.event m = some (.life x) → m < n → x ∈ lifes (E.trace n) :=
    fun hm hlt => mem_lifes.mpr (Execution.mem_trace.mpr ⟨_, hlt, hm⟩)
  have hinit : ∃ a, ∀ n r, E.event n = some (.life (.on_init_returned r)) → r = a := by
    by_cases h : ∃ m a, E.event m = some (.life (.on_init_returned a))
    · obtain ⟨m, a, hm⟩ := h
      refine ⟨a, fun n r hn => ?_⟩
      obtain ⟨c, d, htold⟩ := htold (m + n + 1)
      have ha := ((htold.init a).mp (hmem hm (by omega))).1
      have hr := ((htold.init r).mp (hmem hn (by omega))).1
      exact Option.some.inj (hr.symm.trans ha)
    · exact ⟨0, fun n r hn => (h ⟨n, r, hn⟩).elim⟩
  have hexit : ∃ b, ∀ n r, E.event n = some (.life (.on_exit_returned r)) → r = b := by
    by_cases h : ∃ m b, E.event m = some (.life (.on_exit_returned b))
    · obtain ⟨m, b, hm⟩ := h
      refine ⟨b, fun n r hn => ?_⟩
      obtain ⟨c, d, htold⟩ := htold (m + n + 1)
      have hb := ((htold.exit_returned b).mp (hmem hm (by omega))).1
      have hr := ((htold.exit_returned r).mp (hmem hn (by omega))).1
      exact Option.some.inj (hr.symm.trans hb)
    · exact ⟨0, fun n r hn => (h ⟨n, r, hn⟩).elim⟩
  obtain ⟨a, ha⟩ := hinit
  obtain ⟨b, hb⟩ := hexit
  exact ⟨a, b, ha, hb⟩

theorem worker_view_valid (hE : ((serviceLts Cb S cfg).restrict D).Valid E) (h : Results E a b) :
    (workerLts Cb (hooked cfg a b)).Valid (worker_view E) := by
  refine hE.view (fun s hi => hi.life.worker) fun n e he => ?_
  rcases service_step_life (hE.step n e he).2 with ⟨x, a', b', rfl, hs⟩ | ⟨hnone, hsame⟩
  · have hs : LifeStep (hooked cfg a b) _ x _ := hooked_life_step hs
      (fun r hr => h.init n r (he.trans (by rw [hr])))
      (fun r hr => h.exit n r (he.trans (by rw [hr])))
    exact life_step_worker hs
  · refine .inr ⟨?_, by rw [hsame]⟩
    rw [ServiceEvent.base, hnone]
    rfl

theorem worker_view_outlives (hE : (workerLts Cb cfg).Valid (worker_view E))
    (h : ∀ n e, E.event n = some e → SignalsOutlive (E.state n) e) :
    ((workerLts Cb cfg).restrict Outlives).Valid (worker_view E) :=
  hE.restrict fun n y hy => by
    obtain ⟨e, he, hbase⟩ := Option.bind_eq_some_iff.mp hy
    exact h n e he y hbase

/-- A step that does not concern the calls destroys no signal. -/
theorem outlive_of_calls (hs : ServiceStep S cfg s e t)
    (hcalls : t.life.worker.calls = s.life.worker.calls) : SignalsOutlive s e := by
  intro y hy
  rcases service_step_life hs with ⟨x, a, b, rfl, hlife⟩ | ⟨hnone, _⟩
  · rcases life_step_worker hlife with ⟨z, hz, hs⟩ | ⟨hnone, _⟩
    · cases hz.symm.trans hy
      exact outlives_of_calls hs hcalls
    · cases hnone.symm.trans hy
  · rw [ServiceEvent.base, hnone] at hy
    cases hy

theorem signals_alive (h : ((workerLts Cb cfg).restrict Outlives).Reachable s.life.worker)
    (hs : ServiceStep S cfg' s e t) : SignalsAlive s e := by
  intro y hy
  rcases service_step_life hs with ⟨x, a, b, rfl, hlife⟩ | ⟨hnone, _⟩
  · rcases life_step_worker hlife with ⟨z, hz, hs⟩ | ⟨hnone, _⟩
    · cases hz.symm.trans hy
      exact alive_of_outlives h hs
    · cases hnone.symm.trans hy
  · rw [ServiceEvent.base, hnone] at hy
    cases hy

/-- A step of the worker thread as the worker tells it: one of its own, unless a hook is called. -/
theorem life_worker_shows (hs : LifeWorkerStep (hooked cfg a' b') l x l')
    (hinit : ∀ r, x = .on_init_returned r → r = a)
    (hexit : ∀ r, x = .on_exit_returned r → r = b) :
    (∃ y, x.base = some y ∧ WorkerStep (hooked cfg a b) l.worker y l'.worker) ∨
      (x = .on_init_called ∨ x = .on_exit_called) := by
  cases hs with
  | on_init hw hout hhook => exact .inr (.inl rfl)
  | on_exit hw hout hhook => exact .inr (.inr rfl)
  | step hs hin =>
    have hhook := hooked_hook hinit hexit
    exact .inl ⟨_, worker_label_base hs, worker_step_congr hs rfl hhook⟩

end Tecc.ServiceWorker
