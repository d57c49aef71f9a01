import Tecc.Lib.Fair
import Tecc.WorkerDispatch
import Tecc.WorkerStranded
import Tecc.WorkerControl

/-! What the worker thread waits for: the queue, and the mutex of a call whose signal it sets. The
wakeup of a caller of `TecDaemon_rpc` is not lost. -/
namespace Tecc.Worker

open Transition

variable {Cb : Type} {cfg : Config} {s t : State Cb} {e : Event Cb} {c d : Nat}

/-- The caller has the mutex of its signal. -/
def CallPc.Locked : CallPc → Prop
  | .wait_check | .wait_sleep | .wait_unlock => True
  | _ => False

/-- The call has been pushed. -/
def CallPc.Begun : CallPc → Prop
  | .idle | .push _ => False
  | _ => True

theorem CallPc.Waiting.begun {pc : CallPc} (h : pc.Waiting) : pc.Begun := by
  cases pc <;> trivial

/-- The signal of a call, and where its two users are. -/
structure SignalState (worker : WorkerPc) (d : Nat) (call : Call) : Prop where
  caller : call.mtx = some .caller ↔ call.pc.Locked
  setter : call.mtx = some .setter ↔ worker = .set_broadcast d ∨ worker = .set_unlock d
  stored : worker.setting = some d → call.value = true ∧ call.pc.Begun
  sleeping : call.value = true → call.pc = .wait_sleep → worker = .set_lock d
  asleep : call.value = true → call.pc = .asleep → worker = .set_lock d ∨ worker = .set_broadcast d

theorem not_setting {worker : WorkerPc} (h : worker.setting ≠ some d) :
    worker ≠ .set_lock d ∧ worker ≠ .set_broadcast d ∧ worker ≠ .set_unlock d := by
  refine ⟨?_, ?_, ?_⟩ <;>
  · rintro rfl
    exact h rfl

/-- A worker that does not set the signal leaves it alone. -/
theorem SignalState.of_other {worker worker' : WorkerPc} {call : Call}
    (h : SignalState worker d call) (hw : worker.setting ≠ some d)
    (hw' : worker'.setting ≠ some d) : SignalState worker' d call := by
  obtain ⟨hl, hb, hu⟩ := not_setting hw
  obtain ⟨hl', hb', hu'⟩ := not_setting hw'
  refine ⟨h.caller, ?_, fun hset => absurd hset hw', ?_, ?_⟩
  · rw [h.setter]
    exact iff_of_false (by simp [hb, hu]) (by simp [hb', hu'])
  · exact fun hv hpc => absurd (h.sleeping hv hpc) hl
  · exact fun hv hpc => absurd (h.asleep hv hpc) (by simp [hl, hb])

theorem SignalState.of_call {worker : WorkerPc} {call call' : Call} (h : SignalState worker d call)
    (hpc : call'.pc = call.pc) (hmtx : call'.mtx = call.mtx) (hvalue : call'.value = call.value) :
    SignalState worker d call' := by
  refine ⟨?_, ?_, ?_, ?_, ?_⟩
  · rw [hpc, hmtx]
    exact h.caller
  · rw [hmtx]
    exact h.setter
  · rw [hpc, hvalue]
    exact h.stored
  · rw [hpc, hvalue]
    exact h.sleeping
  · rw [hpc, hvalue]
    exact h.asleep

theorem signalState_update {worker worker' : WorkerPc} {calls : Nat → Call} {call : Call}
    (h : ∀ d, SignalState worker d (calls d)) (hcall : SignalState worker' c call)
    (hw : ∀ d, d ≠ c → worker.setting ≠ some d) (hw' : ∀ d, d ≠ c → worker'.setting ≠ some d) :
    ∀ d, SignalState worker' d (Function.update calls c call d) :=
  (Function.forall_update_iff calls (p := fun d call => SignalState worker' d call)).mpr
    ⟨hcall, fun d hd => (h d).of_other (hw d hd) (hw' d hd)⟩

section Set

variable {call : Call}

theorem SignalState.store (h : SignalState (.set_store c) c call) (hbegun : call.pc.Begun) :
    SignalState (.set_lock c) c { call with value := true } := by
  refine ⟨h.caller, ?_, fun _ => ⟨rfl, hbegun⟩, fun _ _ => rfl, fun _ _ => .inl rfl⟩
  refine iff_of_false ?_ (by simp)
  rw [h.setter]
  simp

theorem SignalState.lock (h : SignalState (.set_lock c) c call) (hmtx : call.mtx = none) :
    SignalState (.set_broadcast c) c { call with mtx := some .setter } := by
  have hunlocked : ¬ call.pc.Locked := by
    rw [← h.caller, hmtx]
    nofun
  refine ⟨iff_of_false nofun hunlocked, iff_of_true rfl (.inl rfl), fun _ => h.stored rfl, ?_,
    fun _ _ => .inr rfl⟩
  exact fun _ hpc => absurd (show call.pc.Locked by rw [hpc]; trivial) hunlocked

theorem SignalState.broadcast (h : SignalState (.set_broadcast c) c call) :
    SignalState (.set_unlock c) c
      { call with pc := if call.pc = .asleep then .woken else call.pc } := by
  have hmtx := h.setter.mpr (.inl rfl)
  have hunlocked : ¬ call.pc.Locked := by
    rw [← h.caller, hmtx]
    nofun
  obtain ⟨hvalue, hbegun⟩ := h.stored rfl
  by_cases hasleep : call.pc = .asleep
  · rw [if_pos hasleep]
    exact ⟨iff_of_false (by rw [hmtx]; nofun) id, iff_of_true hmtx (.inr rfl),
      fun _ => ⟨hvalue, trivial⟩, nofun, nofun⟩
  · rw [if_neg hasleep]
    refine ⟨h.caller, iff_of_true hmtx (.inr rfl), fun _ => ⟨hvalue, hbegun⟩, ?_, ?_⟩
    · exact fun _ hpc => absurd (show call.pc.Locked by rw [hpc]; trivial) hunlocked
    · exact fun _ hpc => absurd hpc hasleep

theorem SignalState.unlock (h : SignalState (.set_unlock c) c call) :
    SignalState .pop c { call with mtx := none } := by
  have hunlocked : ¬ call.pc.Locked := by
    rw [← h.caller, h.setter.mpr (.inr rfl)]
    nofun
  refine ⟨iff_of_false nofun hunlocked, iff_of_false nofun (by simp), nofun, ?_, ?_⟩
  · exact fun _ hpc => absurd (show call.pc.Locked by rw [hpc]; trivial) hunlocked
  · exact fun hvalue hpc => absurd (h.asleep hvalue hpc) (by simp)

end Set

theorem signalState_worker_step (hs : WorkerStep cfg s e t)
    (hwaiting : ∀ c, s.worker = .set_store c → (s.calls c).pc.Waiting)
    (h : ∀ d, SignalState s.worker d (s.calls d)) : ∀ d, SignalState t.worker d (t.calls d) := by
  have hquiet : s.worker.setting = none → t.worker.setting = none → t.calls = s.calls →
      ∀ d, SignalState t.worker d (t.calls d) := by
    intro hw hw' hcalls d
    rw [hcalls]
    exact (h d).of_other (by rw [hw]; nofun) (by rw [hw']; nofun)
  have herror : ∀ c error, s.worker.setting = none → t.worker.setting = none →
      t.calls = Function.update s.calls c { s.calls c with error := error } →
      ∀ d, SignalState t.worker d (t.calls d) := by
    intro c error hw hw' hcalls
    rw [hcalls]
    refine signalState_update h ?_ (by rw [hw]; nofun) (by rw [hw']; nofun)
    exact ((h c).of_other (by rw [hw]; nofun) (by rw [hw']; nofun)).of_call rfl rfl rfl
  cases hs with
  | test_error hw =>
    refine hquiet (by rw [hw]; rfl) ?_ rfl
    by_cases hzero : s.error = 0 <;> simp [hzero, WorkerPc.setting]
  | on_rpc hw hget => exact herror _ _ (by rw [hw]; rfl) rfl rfl
  | on_rpc_none hw hget => exact herror _ _ (by rw [hw]; rfl) rfl rfl
  | rpc_handled hw => exact herror _ _ (by rw [hw]; rfl) rfl rfl
  | @set_store c hw =>
    refine signalState_update h ((hw ▸ h c).store (hwaiting c hw).begun) (by rw [hw]; nofun) ?_
    exact fun d hd heq => hd (Option.some.inj heq).symm
  | @set_lock c hw hmtx =>
    refine signalState_update h ((hw ▸ h c).lock hmtx) ?_ ?_
    · rw [hw]
      exact fun d hd heq => hd (Option.some.inj heq).symm
    · exact fun d hd heq => hd (Option.some.inj heq).symm
  | @set_broadcast c hw =>
    refine signalState_update h (hw ▸ h c).broadcast ?_ ?_
    · rw [hw]
      exact fun d hd heq => hd (Option.some.inj heq).symm
    · exact fun d hd heq => hd (Option.some.inj heq).symm
  | @set_unlock c hw =>
    refine signalState_update h (hw ▸ h c).unlock ?_ nofun
    rw [hw]
    exact fun d hd heq => hd (Option.some.inj heq).symm
  | on_init hw | set_running hw | pop hw _ | pop_null hw _ | dispatch_rpc hw _ | dispatch_msg hw _
  | on_msg hw _ | on_msg_none hw _ | msg_handled hw | free hw | on_exit hw | set_terminated hw =>
    exact hquiet (by rw [hw]; rfl) rfl rfl

/-- The caller moves on: it sleeps only where it has read 0 under the mutex. -/
theorem SignalState.move {worker : WorkerPc} {call call' : Call} (h : SignalState worker c call)
    (hcaller : call'.mtx = some .caller ↔ call'.pc.Locked)
    (hsetter : call'.mtx = some .setter ↔ call.mtx = some .setter)
    (hvalue : call'.value = call.value) (hbegun : call.pc.Begun → call'.pc.Begun)
    (hsleeping : call.value = true → call'.pc ≠ .wait_sleep)
    (hasleep : call'.pc = .asleep → call.pc = .wait_sleep) : SignalState worker c call' := by
  refine ⟨hcaller, hsetter.trans h.setter, ?_, ?_, ?_⟩
  · intro hset
    obtain ⟨hv, hb⟩ := h.stored hset
    exact ⟨hvalue.trans hv, hbegun hb⟩
  · exact fun hv hpc => absurd hpc (hsleeping (hvalue ▸ hv))
  · exact fun hv hpc => .inl (h.sleeping (hvalue ▸ hv) (hasleep hpc))

theorem signalState_call_step (hs : CallStep c s e t)
    (h : ∀ d, SignalState s.worker d (s.calls d)) : ∀ d, SignalState t.worker d (t.calls d) := by
  have hold := h c
  have hown : ∀ call, SignalState s.worker c call →
      ∀ d, SignalState s.worker d (Function.update s.calls c call d) :=
    fun call hcall => (Function.forall_update_iff s.calls
      (p := fun d call => SignalState s.worker d call)).mpr ⟨hcall, fun d _ => h d⟩
  have hcaller := hold.caller
  cases hs with
  | init hc =>
    have hset : s.worker.setting ≠ some c := by
      intro hset
      have hbegun := (hold.stored hset).2
      rw [hc] at hbegun
      exact hbegun
    obtain ⟨_, hb, hu⟩ := not_setting hset
    exact hown _ ⟨iff_of_false nofun id, iff_of_false nofun (by simp [hb, hu]),
      fun h => absurd h hset, nofun, nofun⟩
  | push hc =>
    rw [hc] at hcaller
    exact hown _ (hold.move hcaller Iff.rfl rfl (fun _ => trivial) nofun nofun)
  | wait_load hc =>
    rw [hc] at hcaller
    cases hv : (s.calls c).value <;>
      exact hown _ (hold.move (by simpa [hv, CallPc.Locked] using hcaller) Iff.rfl rfl
        (by simp [hv, CallPc.Begun]) (by simp [hv]) (by simp [hv]))
  | wait_lock hc hmtx =>
    refine hown _ (hold.move ?_ ?_ rfl (fun _ => trivial) nofun nofun)
    · exact iff_of_true rfl trivial
    · rw [hmtx]
      exact iff_of_false nofun nofun
  | wait_check hc =>
    rw [hc] at hcaller
    cases hv : (s.calls c).value <;>
      exact hown _ (hold.move (by simpa [hv, CallPc.Locked] using hcaller) Iff.rfl rfl
        (by simp [hv, CallPc.Begun]) (by simp [hv]) (by simp [hv]))
  | wait_sleep hc =>
    rw [hc] at hcaller
    refine hown _ (hold.move ?_ ?_ rfl (fun _ => trivial) nofun (fun _ => hc))
    · exact iff_of_false nofun id
    · rw [hcaller.mpr trivial]
      exact iff_of_false nofun nofun
  | wake hc =>
    rw [hc] at hcaller
    exact hown _ (hold.move hcaller Iff.rfl rfl (fun _ => trivial) nofun nofun)
  | woken hc hmtx =>
    refine hown _ (hold.move ?_ ?_ rfl (fun _ => trivial) nofun nofun)
    · exact iff_of_true rfl trivial
    · rw [hmtx]
      exact iff_of_false nofun nofun
  | wait_unlock hc =>
    rw [hc] at hcaller
    refine hown _ (hold.move ?_ ?_ rfl (fun _ => trivial) nofun nofun)
    · exact iff_of_false nofun id
    · rw [hcaller.mpr trivial]
      exact iff_of_false nofun nofun
  | signal_done hc =>
    rw [hc] at hcaller
    exact hown _ (hold.move hcaller Iff.rfl rfl (fun _ => trivial) nofun nofun)
  | «return» hc =>
    rw [hc] at hcaller
    exact hown _ (hold.move hcaller Iff.rfl rfl (fun _ => trivial) nofun nofun)

theorem signalState_control_step (hs : ControlStep cfg s e t) (hcreated : Created s)
    (h : ∀ d, SignalState s.worker d (s.calls d)) : ∀ d, SignalState t.worker d (t.calls d) := by
  rw [control_step_calls hs]
  rcases control_step_worker hs with hw | ⟨hrun, hw⟩
  · rw [hw]
    exact h
  · rw [hw]
    exact fun d => (h d).of_other (by rw [hcreated (.inr hrun)]; nofun) nofun

/-- What `TecDaemon_send` sends is no `TecRPC`. -/
structure Tagged (s : State Cb) : Prop where
  queue : ∀ address tag, some (.normal address tag) ∈ s.queue → tag ≠ TecRPC_msg_
  dispatch : ∀ address tag, s.worker = .dispatch (.normal address tag) → tag ≠ TecRPC_msg_
  on_rpc : ∀ address tag, s.worker ≠ .on_rpc (.normal address tag)

theorem tagged_worker_step (hs : WorkerStep cfg s e t) (h : Tagged s) : Tagged t := by
  cases hs with
  | test_error hw =>
    refine ⟨h.queue, ?_, ?_⟩ <;> by_cases hzero : s.error = 0 <;> simp [hzero]
  | @pop msg q hw hq =>
    refine ⟨?_, ?_, nofun⟩
    · intro address tag hmem
      exact h.queue address tag (by rw [hq]; exact List.mem_cons_of_mem _ hmem)
    · intro address tag hdispatch
      cases hdispatch
      exact h.queue address tag (by rw [hq]; exact List.mem_cons_self)
  | pop_null hw hq =>
    refine ⟨?_, nofun, nofun⟩
    intro address tag hmem
    exact h.queue address tag (by rw [hq]; exact List.mem_cons_of_mem _ hmem)
  | dispatch_rpc hw htag =>
    refine ⟨h.queue, nofun, ?_⟩
    intro address tag hrpc
    cases hrpc
    exact h.dispatch address tag hw htag
  | _ => exact ⟨h.queue, nofun, nofun⟩

theorem tagged_step (hs : Step cfg s e t) (h : Tagged s) : Tagged t := by
  have hsame : t.queue = s.queue → t.worker = s.worker → Tagged t := by
    intro hqueue hworker
    refine ⟨?_, ?_, ?_⟩
    · rw [hqueue]
      exact h.queue
    · rw [hworker]
      exact h.dispatch
    · rw [hworker]
      exact h.on_rpc
  have hpush : ∀ msg, t.queue = s.queue ++ [msg] → t.worker = s.worker →
      (∀ address tag, msg = some (.normal address tag) → tag ≠ TecRPC_msg_) → Tagged t := by
    intro msg hqueue hworker hmsg
    refine ⟨?_, ?_, ?_⟩
    · intro address tag hmem
      rw [hqueue] at hmem
      rcases List.mem_append.mp hmem with hmem | hmem
      · exact h.queue address tag hmem
      · exact hmsg address tag (List.mem_singleton.mp hmem).symm
    · rw [hworker]
      exact h.dispatch
    · rw [hworker]
      exact h.on_rpc
  cases hs with
  | worker hs => exact tagged_worker_step hs h
  | call c hs =>
    cases hs with
    | push hc => exact hpush _ rfl rfl nofun
    | _ => exact hsame rfl rfl
  | run hs =>
    cases hs with
    | create hr => exact ⟨h.queue, nofun, nofun⟩
    | _ => exact hsame rfl rfl
  | terminate n hs =>
    cases hs with
    | push ht => exact hpush _ rfl rfl nofun
    | _ => exact hsame rfl rfl
  | user hs =>
    cases hs with
    | register => exact hsame rfl rfl
    | @send address tag htag =>
      refine hpush _ rfl rfl ?_
      intro _ _ heq
      cases heq
      exact htag

/-- A look at the table of callbacks does not fail. -/
def Found (cfg : Config) (s : State Cb) : Prop :=
  ∃ f : String → Option Cb, ∀ tag, Map.TecMap_get cfg.hash_str s.callbacks tag = .ok (f tag)

structure WorkerInv (cfg : Config) (s : State Cb) : Prop where
  phase : PhaseInv s
  pending : Pending s
  signals : ∀ d, SignalState s.worker d (s.calls d)
  tagged : Tagged s
  found : Found cfg s

theorem found_reachable (h : (workerLts Cb cfg).Reachable s) : Found cfg s := by
  obtain ⟨xs, hx⟩ := h
  have htable : Table cfg xs s := by
    refine hx.induction (P := fun xs s => Table cfg xs s) ?_ ?_
    · rintro s rfl
      exact Map.TecMap_init_refines cfg.hash_str cfg.hash_table_size
    · exact fun _ _ _ _ _ htable hs => (table_step hs htable).1
  exact ⟨_, table_get htable⟩

theorem workerInv_reachable (h : (workerLts Cb cfg).Reachable s) : WorkerInv cfg s := by
  have hinv : PhaseInv s ∧ Pending s ∧ (∀ d, SignalState s.worker d (s.calls d)) ∧ Tagged s := by
    refine h.invariant (P := fun s => PhaseInv s ∧ Pending s ∧
      (∀ d, SignalState s.worker d (s.calls d)) ∧ Tagged s) ?_ ?_
    · rintro s rfl
      refine ⟨phaseInv_initial, pending_initial, ?_, nofun, nofun, nofun⟩
      exact fun d => ⟨iff_of_false nofun id, iff_of_false nofun nofun, nofun, nofun, nofun⟩
    · rintro s e t ⟨hphase, hpending, hsignals, htagged⟩ hs
      refine ⟨phaseInv_step hs hphase, pending_step hs hpending, ?_, tagged_step hs htagged⟩
      rcases step_cases hs with hw | ⟨c, hc⟩ | hu
      · refine signalState_worker_step hw ?_ hsignals
        intro c hstore
        exact hpending.waiting c (by simp [State.outstanding, hstore, WorkerPc.holds])
      · exact signalState_call_step hc hsignals
      · exact signalState_control_step hu hpending.created hsignals
  exact ⟨hinv.1, hinv.2.1, hinv.2.2.1, hinv.2.2.2, found_reachable h⟩

/-- The worker thread waits for its queue and for the mutex of a call only. -/
theorem worker_enabled (hinv : WorkerInv cfg s) (habsent : s.worker ≠ .absent)
    (hexited : s.worker ≠ .exited) (hpop : s.worker = .pop → s.queue ≠ [])
    (hlock : ∀ c, s.worker = .set_lock c → (s.calls c).mtx = none) :
    ∃ e t, WorkerStep cfg s e t := by
  obtain ⟨f, hf⟩ := hinv.found
  cases hw : s.worker with
  | absent => exact absurd hw habsent
  | exited => exact absurd hw hexited
  | on_init => exact ⟨_, _, .on_init hw⟩
  | set_running => exact ⟨_, _, .set_running hw⟩
  | test_error => exact ⟨_, _, .test_error hw⟩
  | pop =>
    obtain ⟨msg, q, hq⟩ := List.exists_cons_of_ne_nil (hpop hw)
    cases msg with
    | none => exact ⟨_, _, .pop_null hw hq⟩
    | some msg => exact ⟨_, _, .pop hw hq⟩
  | dispatch msg =>
    by_cases htag : TecMsg_tag msg = TecRPC_msg_
    · exact ⟨_, _, .dispatch_rpc hw htag⟩
    · exact ⟨_, _, .dispatch_msg hw htag⟩
  | on_msg msg =>
    cases hget : f (TecMsg_tag msg) with
    | none => exact ⟨_, _, .on_msg_none hw ((hf _).trans (congrArg _ hget))⟩
    | some callback => exact ⟨_, _, .on_msg hw ((hf _).trans (congrArg _ hget))⟩
  | on_rpc msg =>
    cases msg with
    | normal address tag => exact absurd hw (hinv.tagged.on_rpc address tag)
    | rpc c request =>
      cases hget : f request with
      | none => exact ⟨_, _, .on_rpc_none hw ((hf _).trans (congrArg _ hget))⟩
      | some callback => exact ⟨_, _, .on_rpc hw ((hf _).trans (congrArg _ hget))⟩
  | callback msg =>
    cases msg with
    | normal address tag => exact ⟨_, _, .msg_handled hw⟩
    | rpc c request => exact ⟨_, _, @WorkerStep.rpc_handled _ _ _ _ _ 0 hw⟩
  | free msg => exact ⟨_, _, .free hw⟩
  | set_store c => exact ⟨_, _, .set_store hw⟩
  | set_lock c => exact ⟨_, _, .set_lock hw (hlock c hw)⟩
  | set_broadcast c => exact ⟨_, _, .set_broadcast hw⟩
  | set_unlock c => exact ⟨_, _, .set_unlock hw⟩
  | on_exit => exact ⟨_, _, .on_exit hw⟩
  | set_terminated => exact ⟨_, _, .set_terminated hw⟩

end Tecc.Worker
