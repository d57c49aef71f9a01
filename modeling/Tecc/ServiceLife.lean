import Tecc.ServiceWorker
import Tecc.WorkerLifecycle

/-! The worker inside of a service worker is a worker with fixed results of its hooks, so that what
holds of every worker holds of it. -/
namespace Tecc.ServiceWorker

open Transition Worker

variable {Cb σ α : Type} {S : Service σ α} {cfg cfg' : Config} {s t : ServiceState Cb σ}
  {e : ServiceEvent Cb α} {xs : List (ServiceEvent Cb α)} {l l' : Life Cb} {x : LifeEvent Cb}
  {ls : List (LifeEvent Cb)} {a b a' b' : Int} {w w' : Worker.State Cb}

/-! Configurations that agree on the hook that returns -/

theorem run_hook_congr {hook hook' : Option Int} {error : Int}
    (h : error = 0 → hook' = hook) : run_hook hook' error = run_hook hook error := by
  by_cases hzero : error = 0
  · rw [h hzero]
  · have hsame : ∀ hook : Option Int, run_hook hook error = error :=
      fun hook => run_hook_of_ne hook hzero
    rw [hsame, hsame]

theorem worker_step_congr {y : Event Cb} (hs : WorkerStep cfg w y w')
    (hhash : cfg'.hash_str = cfg.hash_str) (hhook : w.hook cfg' = w.hook cfg) :
    WorkerStep cfg' w y w' := by
  cases hs with
  | on_init hw =>
    have hinit : w.error = 0 → cfg'.on_init = cfg.on_init := by
      intro hzero
      rwa [hook_on_init hw hzero, hook_on_init hw hzero] at hhook
    rw [← run_hook_congr hinit]
    exact .on_init hw
  | on_exit hw =>
    have hexit : w.error = 0 → cfg'.on_exit = cfg.on_exit := by
      intro hzero
      simpa [State.hook, hw, hzero] using hhook
    rw [← run_hook_congr hexit]
    exact .on_exit hw
  | on_msg hw hget => exact .on_msg hw (by rwa [hhash])
  | on_msg_none hw hget => exact .on_msg_none hw (by rwa [hhash])
  | on_rpc hw hget => exact .on_rpc hw (by rwa [hhash])
  | on_rpc_none hw hget => exact .on_rpc_none hw (by rwa [hhash])
  | set_running hw => exact .set_running hw
  | test_error hw => exact .test_error hw
  | pop hw hq => exact .pop hw hq
  | pop_null hw hq => exact .pop_null hw hq
  | dispatch_rpc hw htag => exact .dispatch_rpc hw htag
  | dispatch_msg hw htag => exact .dispatch_msg hw htag
  | msg_handled hw => exact .msg_handled hw
  | free hw => exact .free hw
  | rpc_handled hw => exact .rpc_handled hw
  | set_store hw => exact .set_store hw
  | set_lock hw hmtx => exact .set_lock hw hmtx
  | set_broadcast hw => exact .set_broadcast hw
  | set_unlock hw => exact .set_unlock hw
  | set_terminated hw => exact .set_terminated hw

/-! The hooks of a service worker -/

theorem hooked_isSome (w : Worker.State Cb) :
    (w.hook (hooked cfg a b)).isSome = (w.hook (hooked cfg a' b')).isSome := by
  unfold State.hook
  split
  · cases w.worker <;> rfl
  · rfl

/-- The results of the hooks that do not return in a step of the worker thread do not matter. -/
theorem hooked_hook {y : Event Cb}
    (hinit : ∀ r, worker_label (hooked cfg a b) w y = .on_init_returned r → r = a')
    (hexit : ∀ r, worker_label (hooked cfg a b) w y = .on_exit_returned r → r = b') :
    w.hook (hooked cfg a' b') = w.hook (hooked cfg a b) := by
  by_cases hzero : w.error = 0
  · by_cases hwi : w.worker = .on_init
    · have hlabel := hinit a (by simp [worker_label, State.hook, hwi, hzero, hooked])
      simp [State.hook, hwi, hzero, hooked, hlabel]
    · by_cases hwe : w.worker = .on_exit
      · have hlabel := hexit b (by simp [worker_label, State.hook, hwe, hzero, hooked])
        simp [State.hook, hwe, hzero, hooked, hlabel]
      · rw [hook_other hwi hwe, hook_other hwi hwe]
  · rw [State.hook, State.hook, if_neg hzero, if_neg hzero]

theorem hooked_life_step (hs : LifeStep (hooked cfg a b) l x l')
    (hinit : ∀ r, x = .on_init_returned r → r = a')
    (hexit : ∀ r, x = .on_exit_returned r → r = b') : LifeStep (hooked cfg a' b') l x l' := by
  cases hs with
  | worker hs hd =>
    refine .worker ?_ hd
    cases hs with
    | on_init hw hout hhook => exact .on_init hw hout (by rwa [← hooked_isSome])
    | on_exit hw hout hhook => exact .on_exit hw hout (by rwa [← hooked_isSome])
    | @step y _ hs hin =>
      have hhook := hooked_hook hinit hexit
      have hlabel : worker_label (hooked cfg a' b') l.worker y =
          worker_label (hooked cfg a b) l.worker y := by
        rw [worker_label, worker_label, hhook]
      rw [← hlabel]
      exact .step (worker_step_congr hs rfl hhook) (by rwa [hhook])
  | run hs hd => exact .run hs hd
  | terminate n hs hd => exact .terminate n hs hd
  | call c hs hd => exact .call c hs hd
  | user hs hd =>
    refine .user ?_ hd
    cases hs with
    | register hr hl hfree hset => exact .register hr hl hfree hset
    | send htag => exact .send htag
  | done hs => exact .done hs

theorem hooked_history (a' b' : Int) {C : Life Cb → LifeEvent Cb → Prop}
    (h : ((lifeLts Cb (hooked cfg a b)).restrict C).History ls l)
    (hinit : ∀ r, .on_init_returned r ∈ ls → r = a')
    (hexit : ∀ r, .on_exit_returned r ∈ ls → r = b') :
    ((lifeLts Cb (hooked cfg a' b')).restrict C).History ls l := by
  revert hinit hexit
  refine h.induction (P := fun ls l => (∀ r, .on_init_returned r ∈ ls → r = a') →
    (∀ r, .on_exit_returned r ∈ ls → r = b') →
    ((lifeLts Cb (hooked cfg a' b')).restrict C).History ls l) ?_ ?_
  · exact fun l hi _ _ => .init ⟨hi.worker, hi.worker_thread, hi.hook, hi.done⟩
  · rintro ls l x l' _ ih ⟨hC, hs⟩ hinit hexit
    have hold := ih (fun r hr => hinit r (List.mem_append_left _ hr))
      (fun r hr => hexit r (List.mem_append_left _ hr))
    refine hold.snoc ⟨hC, hooked_life_step hs ?_ ?_⟩
    · exact fun r hr => hinit r (by simp [hr])
    · exact fun r hr => hexit r (by simp [hr])

/-! The worker of a service worker -/

/-- What the worker tells. -/
def ServiceEvent.lifeEvent : ServiceEvent Cb α → Option (LifeEvent Cb)
  | .life e => some e
  | _ => none

def lifes (xs : List (ServiceEvent Cb α)) : List (LifeEvent Cb) :=
  xs.filterMap ServiceEvent.lifeEvent

theorem lifes_snoc (xs : List (ServiceEvent Cb α)) (e : ServiceEvent Cb α) :
    lifes (xs ++ [e]) = lifes xs ++ e.lifeEvent.toList := by
  cases h : e.lifeEvent <;> simp [lifes, List.filterMap_append, h]

theorem mem_lifes : x ∈ lifes xs ↔ .life x ∈ xs := by
  constructor
  · intro h
    obtain ⟨e, he, hx⟩ := List.mem_filterMap.mp h
    cases e with
    | life y =>
      cases hx
      exact he
    | _ => cases hx
  · exact fun h => List.mem_filterMap.mpr ⟨_, h, rfl⟩

theorem join_event_life (thread : TecThread) :
    (join_event thread : ServiceEvent Cb α).lifeEvent = none := by
  unfold join_event
  split <;> rfl

theorem service_step_life (hs : ServiceStep S cfg s e t) :
    (∃ x a b, e = .life x ∧ LifeStep (hooked cfg a b) s.life x t.life) ∨
      e.lifeEvent = none ∧ t.life = s.life := by
  cases hs with
  | life hs hm hready => exact .inl ⟨_, _, _, rfl, hs⟩
  | init hs =>
    refine .inr ?_
    cases hs with
    | join hh hj => exact ⟨join_event_life _, rfl⟩
    | _ => exact ⟨rfl, rfl⟩
  | exit hs =>
    refine .inr ?_
    cases hs with
    | join hh hj => exact ⟨join_event_life _, rfl⟩
    | join_service hh hj => exact ⟨join_event_life _, rfl⟩
    | _ => exact ⟨rfl, rfl⟩
  | start hs =>
    refine .inr ?_
    cases hs with
    | call hs => exact ⟨rfl, rfl⟩
    | @act a v hs ha => cases a <;> exact ⟨rfl, rfl⟩
  | shutdown hs =>
    refine .inr ?_
    cases hs with
    | call hs => exact ⟨rfl, rfl⟩
    | @act a v hs ha => cases a <;> exact ⟨rfl, rfl⟩
  | done hd hj hjoinable => exact .inr ⟨join_event_life _, rfl⟩

theorem init_returned_step {r : Int} (hs : LifeStep cfg l (.on_init_returned r) l') :
    l.worker.worker = .on_init := by
  rcases life_step_cases hs with hs | ⟨⟨hother, _⟩, _⟩
  · generalize hx : (LifeEvent.on_init_returned r : LifeEvent Cb) = x at hs
    cases hs with
    | on_init hw hout hhook => cases hx
    | on_exit hw hout hhook => cases hx
    | step hs hin =>
      unfold worker_label at hx
      split at hx <;> first | assumption | cases hx
  · cases hother

theorem exit_returned_step {r : Int} (hs : LifeStep cfg l (.on_exit_returned r) l') :
    l.worker.worker = .on_exit := by
  rcases life_step_cases hs with hs | ⟨⟨hother, _⟩, _⟩
  · generalize hx : (LifeEvent.on_exit_returned r : LifeEvent Cb) = x at hs
    cases hs with
    | on_init hw hout hhook => cases hx
    | on_exit hw hout hhook => cases hx
    | step hs hin =>
      unfold worker_label at hx
      split at hx <;> first | assumption | cases hx
  · cases hother

/-- The next step of a worker, with the result that a hook returns in it, after the same history. -/
theorem hooked_snoc {C : Life Cb → LifeEvent Cb → Prop}
    (h : ((lifeLts Cb (hooked cfg a b)).restrict C).History ls l)
    (hs : LifeStep (hooked cfg a' b') l x l') (hC : C l x) :
    ∃ a b, ((lifeLts Cb (hooked cfg a b)).restrict C).History (ls ++ [x]) l' := by
  obtain ⟨_, htold⟩ := workerTold_history h.of_restrict
  have hinit : ∃ c, ∀ r, .on_init_returned r ∈ ls ++ [x] → r = c := by
    by_cases hx : ∃ r, x = .on_init_returned r
    · obtain ⟨r, rfl⟩ := hx
      refine ⟨r, fun r' hr' => ?_⟩
      rcases List.mem_append.mp hr' with hr' | hr'
      · have hin := ((htold.init r').mp hr').2
        rw [init_returned_step hs] at hin
        exact hin.elim
      · cases List.mem_singleton.mp hr'
        rfl
    · refine ⟨a, fun r hr => ?_⟩
      have hold := mem_of_snoc hr (fun he => hx ⟨r, he.symm⟩)
      exact (Option.some.inj ((htold.init r).mp hold).1).symm
  have hexit : ∃ c, ∀ r, .on_exit_returned r ∈ ls ++ [x] → r = c := by
    by_cases hx : ∃ r, x = .on_exit_returned r
    · obtain ⟨r, rfl⟩ := hx
      refine ⟨r, fun r' hr' => ?_⟩
      rcases List.mem_append.mp hr' with hr' | hr'
      · have hended := ((htold.exit_returned r').mp hr').2.2
        rw [exit_returned_step hs] at hended
        exact hended.elim
      · cases List.mem_singleton.mp hr'
        rfl
    · refine ⟨b, fun r hr => ?_⟩
      have hold := mem_of_snoc hr (fun he => hx ⟨r, he.symm⟩)
      exact (Option.some.inj ((htold.exit_returned r).mp hold).1).symm
  obtain ⟨c, hc⟩ := hinit
  obtain ⟨d, hd⟩ := hexit
  have hold := hooked_history c d h
    (fun r hr => hc r (List.mem_append_left _ hr)) (fun r hr => hd r (List.mem_append_left _ hr))
  exact ⟨c, d, hold.snoc ⟨hC, hooked_life_step hs (fun r hr => hc r (by simp [hr]))
    (fun r hr => hd r (by simp [hr]))⟩⟩

/-- The worker in a service worker has a history of its own, for the results that the hooks have. -/
theorem service_life {D : ServiceState Cb σ → ServiceEvent Cb α → Prop}
    {C : Life Cb → LifeEvent Cb → Prop} (hD : ∀ s x, D s (.life x) → C s.life x)
    (h : ((serviceLts Cb S cfg).restrict D).History xs s) :
    ∃ a b, ((lifeLts Cb (hooked cfg a b)).restrict C).History (lifes xs) s.life := by
  refine h.induction (P := fun xs s => ∃ a b,
    ((lifeLts Cb (hooked cfg a b)).restrict C).History (lifes xs) s.life) ?_ ?_
  · intro s hi
    exact ⟨0, 0, .init ⟨hi.life.worker, hi.life.worker_thread, hi.life.hook, hi.life.done⟩⟩
  · rintro xs s e t _ ⟨a, b, hlife⟩ ⟨hDe, hs⟩
    rw [lifes_snoc]
    rcases service_step_life hs with ⟨x, a', b', rfl, hstep⟩ | ⟨hnone, hsame⟩
    · exact hooked_snoc hlife hstep (hD s x hDe)
    · rw [hnone, Option.toList_none, List.append_nil, hsame]
      exact ⟨a, b, hlife⟩

end Tecc.ServiceWorker
