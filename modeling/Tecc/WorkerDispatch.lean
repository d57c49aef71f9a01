import Tecc.WorkerCalls
import Tecc.Lib.Fifo

/-! What the worker does with its messages: each one that was pushed ahead of the first NULL is
dispatched once, in the order of the pushes, handed to the callback of its tag and, unless it is
an RPC message, freed. -/
namespace Tecc.Worker

open Transition Fifo

variable {Cb : Type} {cfg : Config} {s t : State Cb} {e : Event Cb} {xs : List (Event Cb)}
  {f : String → Option Cb} {c d : Nat}

/-- A step as an event of the message queue. -/
def queueEvent : Event Cb → Fifo.Event (Option TecMsg)
  | .push msg => .push msg
  | .pop msg => .pop msg
  | _ => .other

/-- All that was pushed, NULL included. -/
def pushes (xs : List (Event Cb)) : List (Option TecMsg) := Fifo.pushed queueEvent xs

def pops (xs : List (Event Cb)) : List (Option TecMsg) := Fifo.popped queueEvent xs

/-- The callback registered last for a tag. -/
def lastRegistered (xs : List (Event Cb)) (tag : String) : Option Cb :=
  xs.reverse.findSome? fun e => match e with
    | .register t callback => if t = tag then some callback else none
    | _ => none

/-- The tag that selects the handler of a message. -/
def TecMsg.selector : TecMsg → String
  | .normal _ tag => tag
  | .rpc _ request => request

/-- What the worker does with messages. -/
def Event.isAction : Event Cb → Bool
  | .dispatch _ | .callback _ _ | .free _ => true
  | _ => false

def actions (xs : List (Event Cb)) : List (Event Cb) := xs.filter Event.isAction

def dispatched (xs : List (Event Cb)) : List TecMsg :=
  xs.filterMap fun e => match e with
    | .dispatch msg => some msg
    | _ => none

/-- The call of the handler, if there is one. -/
def handling (f : String → Option Cb) (msg : TecMsg) : List (Event Cb) :=
  ((f msg.selector).map fun callback => .callback callback msg).toList

/-- All that happens to one message, where `f` gives the handlers. -/
def script (f : String → Option Cb) (msg : TecMsg) : List (Event Cb) :=
  .dispatch msg :: (handling f msg ++ match msg with
    | .normal _ _ => [.free msg]
    | .rpc _ _ => [])

/-- What the worker has taken from the queue and not finished. -/
def WorkerPc.taken : WorkerPc → List (Option TecMsg)
  | .dispatch msg | .on_msg msg | .on_rpc msg | .callback msg | .free msg => [some msg]
  | .on_exit | .set_terminated | .exited => [none]
  | _ => []

/-- The part of the script of the current message that is done. -/
def WorkerPc.progress (f : String → Option Cb) : WorkerPc → List (Event Cb)
  | .on_msg msg | .on_rpc msg => [.dispatch msg]
  | .callback msg | .free msg => .dispatch msg :: handling f msg
  | _ => []

/-- The scripts of finished messages, then the part of the current one. -/
def Progress (f : String → Option Cb) (xs : List (Event Cb)) (s : State Cb) : Prop :=
  ∃ finished : List TecMsg, pops xs = finished.map some ++ s.worker.taken ∧
    actions xs = finished.flatMap (script f) ++ s.worker.progress f

theorem pops_snoc (xs : List (Event Cb)) (e : Event Cb) :
    pops (xs ++ [e]) = pops xs ++ match e with
      | .pop msg => [msg]
      | _ => [] := by
  rw [pops, Fifo.popped_append]
  cases e <;> rfl

theorem actions_snoc (xs : List (Event Cb)) (e : Event Cb) :
    actions (xs ++ [e]) = actions xs ++ if e.isAction then [e] else [] := by
  cases h : e.isAction <;> simp [actions, List.filter_append, h]

theorem handling_some {callback : Cb} {msg : TecMsg} (h : f msg.selector = some callback) :
    handling f msg = [.callback callback msg] := by
  simp [handling, h]

theorem handling_none {msg : TecMsg} (h : f msg.selector = none) : handling f msg = [] := by
  simp [handling, h]

theorem normal_selector {msg : TecMsg} (h : msg.call = none) : TecMsg_tag msg = msg.selector := by
  cases msg with
  | normal address tag => rfl
  | rpc c request => cases h

theorem progress_worker_step (hs : WorkerStep cfg s e t) (hzero : ErrorZero s) (htyped : Typed s)
    (hget : ∀ tag, Map.TecMap_get cfg.hash_str s.callbacks tag = .ok (f tag))
    (h : Progress f xs s) : Progress f (xs ++ [e]) t := by
  obtain ⟨finished, hpops, hactions⟩ := h
  have hpops' := pops_snoc xs e
  have hactions' := actions_snoc xs e
  rw [hpops] at hpops'
  rw [hactions] at hactions'
  cases hs with
  | test_error hw =>
    have herror := hzero (by simp [hw, WorkerPc.Left])
    refine ⟨finished, ?_, ?_⟩
    · rw [hpops']
      simp [hw, herror, WorkerPc.taken]
    · rw [hactions']
      simp [hw, herror, WorkerPc.progress, Event.isAction]
  | on_msg hw hcb =>
    have hfound := (hget _).symm.trans hcb
    rw [normal_selector (htyped _ (.inl hw))] at hfound
    refine ⟨finished, ?_, ?_⟩
    · rw [hpops']
      simp [hw, WorkerPc.taken]
    · rw [hactions']
      simp [hw, WorkerPc.progress, Event.isAction, handling_some (Except.ok.inj hfound)]
  | on_msg_none hw hcb =>
    have hfound := (hget _).symm.trans hcb
    rw [normal_selector (htyped _ (.inl hw))] at hfound
    refine ⟨finished, ?_, ?_⟩
    · rw [hpops']
      simp [hw, WorkerPc.taken]
    · rw [hactions']
      simp [hw, WorkerPc.progress, Event.isAction, handling_none (Except.ok.inj hfound)]
  | @free msg hw =>
    refine ⟨finished ++ [msg], ?_, ?_⟩
    · rw [hpops']
      simp [hw, WorkerPc.taken]
    · rw [hactions']
      have hnormal := htyped _ (.inr hw)
      cases msg with
      | normal address tag => simp [hw, WorkerPc.progress, Event.isAction, script]
      | rpc c request => cases hnormal
  | @on_rpc c request callback hw hcb =>
    have hfound := Except.ok.inj ((hget _).symm.trans hcb)
    refine ⟨finished, ?_, ?_⟩
    · rw [hpops']
      simp [hw, WorkerPc.taken]
    · rw [hactions']
      have hhandling : handling f (.rpc c request) = [.callback callback (.rpc c request)] :=
        handling_some hfound
      simp [hw, WorkerPc.progress, Event.isAction, hhandling]
  | @on_rpc_none c request hw hcb =>
    have hfound := Except.ok.inj ((hget _).symm.trans hcb)
    refine ⟨finished ++ [.rpc c request], ?_, ?_⟩
    · rw [hpops']
      simp [hw, WorkerPc.taken]
    · rw [hactions']
      have hhandling : handling f (.rpc c request) = [] := handling_none hfound
      simp [hw, WorkerPc.progress, Event.isAction, script, hhandling]
  | @rpc_handled c request error hw =>
    refine ⟨finished ++ [.rpc c request], ?_, ?_⟩
    · rw [hpops']
      simp [hw, WorkerPc.taken]
    · rw [hactions']
      simp [hw, WorkerPc.progress, Event.isAction, script]
  | on_init hw | set_running hw | pop hw _ | pop_null hw _ | dispatch_rpc hw _
  | dispatch_msg hw _ | msg_handled hw | set_store hw | set_lock hw _ | set_broadcast hw
  | set_unlock hw | on_exit hw | set_terminated hw =>
    refine ⟨finished, ?_, ?_⟩
    · rw [hpops']
      simp [hw, WorkerPc.taken]
    · rw [hactions']
      simp [hw, WorkerPc.progress, Event.isAction]

theorem lastRegistered_snoc (xs : List (Event Cb)) (e : Event Cb) (tag : String) :
    lastRegistered (xs ++ [e]) tag = match e with
      | .register t callback => if t = tag then some callback else lastRegistered xs tag
      | _ => lastRegistered xs tag := by
  rw [lastRegistered, List.reverse_append, List.reverse_singleton, List.singleton_append,
    List.findSome?_cons]
  cases e with
  | register t callback => by_cases ht : t = tag <;> simp [ht, lastRegistered]
  | _ => rfl

/-- The hash table holds the last registrations. -/
def Table (cfg : Config) (xs : List (Event Cb)) (s : State Cb) : Prop :=
  Map.Refines cfg.hash_str s.callbacks fun tag => (lastRegistered xs tag).map some

theorem table_get (h : Table cfg xs s) (tag : String) :
    Map.TecMap_get cfg.hash_str s.callbacks tag = .ok (lastRegistered xs tag) := by
  rw [Map.TecMap_get_refines h tag]
  cases lastRegistered xs tag <;> rfl

/-- Nothing is registered by a step that is not a registration. -/
theorem table_other (h : Table cfg xs s) (hcallbacks : t.callbacks = s.callbacks)
    (hregister : ∀ tag callback, e ≠ .register tag callback) :
    lastRegistered (xs ++ [e]) = lastRegistered xs ∧ Table cfg (xs ++ [e]) t := by
  have hsame : lastRegistered (xs ++ [e]) = lastRegistered xs := by
    funext tag
    rw [lastRegistered_snoc]
    cases e with
    | register tag callback => exact absurd rfl (hregister tag callback)
    | _ => rfl
  refine ⟨hsame, ?_⟩
  rw [Table, hsame, hcallbacks]
  exact h

theorem table_register (h : Table cfg xs s) {tag : String} {callback : Cb} {malloc : Map.Addr}
    {callbacks : Map.TecMap String Cb} {old : Option Cb} (hfree : s.callbacks.heap malloc = none)
    (hset : Map.TecMap_set cfg.hash_str s.callbacks tag (some callback) malloc =
      .ok (callbacks, old)) :
    Table cfg (xs ++ [.register tag callback]) { s with callbacks := callbacks } := by
  obtain ⟨map, hok, hrefines⟩ := Map.TecMap_set_refines h hfree tag (some callback)
  obtain ⟨rfl, _⟩ := Prod.mk.inj (Except.ok.inj (hset.symm.trans hok))
  have htable : (fun k => (lastRegistered (xs ++ [.register tag callback]) k).map some) =
      Function.update (fun k => (lastRegistered xs k).map some) tag (some (some callback)) := by
    funext k
    rw [lastRegistered_snoc]
    by_cases hk : k = tag
    · subst hk
      simp
    · simp [hk, Ne.symm hk]
  rw [Table, htable]
  exact hrefines

/-- The table follows the registrations, which end when the worker is run. -/
theorem table_step (hs : Step cfg s e t) (h : Table cfg xs s) :
    Table cfg (xs ++ [e]) t ∧ (lastRegistered (xs ++ [e]) = lastRegistered xs ∨ t.run = .idle) := by
  have hother : t.callbacks = s.callbacks → (∀ tag callback, e ≠ .register tag callback) →
      Table cfg (xs ++ [e]) t ∧
        (lastRegistered (xs ++ [e]) = lastRegistered xs ∨ t.run = .idle) := by
    intro hcallbacks hregister
    obtain ⟨hsame, htable⟩ := table_other h hcallbacks hregister
    exact ⟨htable, .inl hsame⟩
  rcases step_cases hs with hw | ⟨c, hc⟩ | hu
  · refine hother (by cases hw <;> rfl) ?_
    intro tag callback he
    cases hw <;> cases he
  · refine hother (by cases hc <;> rfl) ?_
    intro tag callback he
    cases hc <;> cases he
  · rcases hu with hu | ⟨n, hu⟩ | hu
    · refine hother (by cases hu <;> rfl) ?_
      intro tag callback he
      cases hu <;> cases he
    · refine hother (by cases hu <;> rfl) ?_
      intro tag callback he
      cases hu <;> cases he
    · cases hu with
      | register hr hl hfree hset => exact ⟨table_register h hfree hset, .inr hr⟩
      | send htag => exact hother rfl fun _ _ he => by cases he

/-- The caller of `TecDaemon_terminate` is behind `TecThread_join`. -/
def TerminatePc.Joined : TerminatePc → Prop
  | .read | .unlock _ | .returned _ => True
  | _ => False

theorem worker_step_exited (hs : WorkerStep cfg s e t) : s.worker ≠ .exited := by
  intro hexited
  cases hs <;> simp_all

theorem control_step_exited (hs : ControlStep cfg s e t) (hcreated : Created s)
    (h : s.worker = .exited) : t.worker = .exited := by
  rcases control_step_worker hs with hw | ⟨hrun, _⟩
  · exact hw.trans h
  · rw [hcreated (.inr hrun)] at h
    cases h

/-- Whoever has joined the worker thread finds it exited. -/
def JoinedExited (s : State Cb) : Prop := ∀ n, (s.terminate n).Joined → s.worker = .exited

theorem joinedExited_step (hs : Step cfg s e t) (hcreated : Created s) (h : JoinedExited s) :
    JoinedExited t := by
  intro n hn
  rcases step_cases hs with hw | ⟨c, hc⟩ | hu
  · have hsame : t.terminate = s.terminate := by cases hw <;> rfl
    rw [hsame] at hn
    exact absurd (h n hn) (worker_step_exited hw)
  · have hsame : t.terminate = s.terminate := by cases hc <;> rfl
    rw [hsame] at hn
    exact (call_step_worker hc).trans (h n hn)
  · refine control_step_exited hu hcreated ?_
    rcases hu with hu | ⟨m, hu⟩ | hu
    · have hsame : t.terminate = s.terminate := by cases hu <;> rfl
      exact h n (hsame ▸ hn)
    · by_cases hnm : n = m
      · subst hnm
        cases hu with
        | lock | push | wait_terminated => simp [State.setTerminate, TerminatePc.Joined] at hn
        | join ht hw => exact hw
        | read ht => exact h n (by rw [ht]; trivial)
        | unlock ht => exact h n (by rw [ht]; trivial)
      · have hsame : t.terminate n = s.terminate n := by
          cases hu <;> simp [State.setTerminate, hnm]
        exact h n (hsame ▸ hn)
    · have hsame : t.terminate = s.terminate := by cases hu <;> rfl
      exact h n (hsame ▸ hn)

/-- What holds of a worker and its history. -/
structure DispatchInv (cfg : Config) (xs : List (Event Cb)) (s : State Cb) : Prop where
  pending : Pending s
  zero : ErrorZero s
  table : Table cfg xs s
  untouched : s.worker = .absent → pops xs = [] ∧ actions xs = []
  progress : Progress (lastRegistered xs) xs s
  joined : JoinedExited s

/-- A step of another thread: it pops nothing and acts on no message. -/
theorem DispatchInv.of_other (h : DispatchInv cfg xs s) (hs : Step cfg s e t)
    (hinit : cfg.InitOk) (hcallbacks : t.callbacks = s.callbacks)
    (hregister : ∀ tag callback, e ≠ .register tag callback)
    (hpop : ∀ msg, e ≠ .pop msg) (haction : e.isAction = false)
    (htaken : t.worker.taken = s.worker.taken)
    (hprogress : ∀ f : String → Option Cb, t.worker.progress f = s.worker.progress f)
    (habsent : t.worker = .absent → s.worker = .absent) : DispatchInv cfg (xs ++ [e]) t := by
  obtain ⟨hsame, htable⟩ := table_other h.table hcallbacks hregister
  have hpops : pops (xs ++ [e]) = pops xs := by
    rw [pops_snoc]
    cases e with
    | pop msg => exact absurd rfl (hpop msg)
    | _ => exact List.append_nil _
  have hactions : actions (xs ++ [e]) = actions xs := by
    rw [actions_snoc, haction]
    exact List.append_nil _
  refine ⟨pending_step hs h.pending, errorZero_step hinit hs h.pending.created h.zero, htable,
    ?_, ?_, joinedExited_step hs h.pending.created h.joined⟩
  · intro hw
    rw [hpops, hactions]
    exact h.untouched (habsent hw)
  · obtain ⟨finished, hp, ha⟩ := h.progress
    refine ⟨finished, ?_, ?_⟩
    · rw [hpops, htaken]
      exact hp
    · rw [hactions, hsame, hprogress]
      exact ha

theorem dispatchInv_worker_step (hinit : cfg.InitOk) (hs : WorkerStep cfg s e t)
    (h : DispatchInv cfg xs s) : DispatchInv cfg (xs ++ [e]) t := by
  have hcallbacks : t.callbacks = s.callbacks := by cases hs <;> rfl
  have hregister : ∀ tag callback, e ≠ .register tag callback := by
    intro tag callback he
    cases hs <;> cases he
  obtain ⟨hsame, htable⟩ := table_other h.table hcallbacks hregister
  refine ⟨pending_worker_step hs h.pending,
    errorZero_step hinit (.worker hs) h.pending.created h.zero, htable, ?_, ?_,
    joinedExited_step (.worker hs) h.pending.created h.joined⟩
  · intro habsent
    cases hs with
    | test_error hw => simp only at habsent; split at habsent <;> cases habsent
    | _ => cases habsent
  · rw [hsame]
    exact progress_worker_step hs h.zero h.pending.typed (table_get h.table) h.progress

theorem dispatchInv_step (hinit : cfg.InitOk) (hs : Step cfg s e t)
    (h : DispatchInv cfg xs s) : DispatchInv cfg (xs ++ [e]) t := by
  rcases step_cases hs with hw | ⟨c, hc⟩ | hu
  · exact dispatchInv_worker_step hinit hw h
  · have hworker := call_step_worker hc
    refine h.of_other hs hinit ?_ ?_ ?_ ?_ (by rw [hworker]) (fun _ => by rw [hworker])
      (fun habsent => hworker ▸ habsent)
    · cases hc <;> rfl
    · intro tag callback he
      cases hc <;> cases he
    · intro msg he
      cases hc <;> cases he
    · cases hc <;> rfl
  · rcases hu with hu | ⟨n, hu⟩ | hu
    · cases hu with
      | create hr =>
        have habsent := h.pending.created (.inr hr)
        exact h.of_other hs hinit rfl (fun _ _ he => by cases he) (fun _ he => by cases he) rfl
          (by rw [habsent]; rfl) (fun _ => by rw [habsent]; rfl) (fun hw => by cases hw)
      | _ =>
        exact h.of_other hs hinit rfl (fun _ _ he => by cases he) (fun _ he => by cases he) rfl
          rfl (fun _ => rfl) (fun hw => hw)
    · cases hu <;>
        exact h.of_other hs hinit rfl (fun _ _ he => by cases he) (fun _ he => by cases he) rfl
          rfl (fun _ => rfl) (fun hw => hw)
    · cases hu with
      | send htag =>
        exact h.of_other hs hinit rfl (fun _ _ he => by cases he) (fun _ he => by cases he) rfl
          rfl (fun _ => rfl) (fun hw => hw)
      | @register tag callback malloc callbacks old hr hl hfree hset =>
        have habsent := h.pending.created (.inl hr)
        obtain ⟨hpops, hactions⟩ := h.untouched habsent
        have hpops' : pops (xs ++ [Event.register tag callback]) = [] := by
          rw [pops_snoc, hpops]
          rfl
        have hactions' : actions (xs ++ [Event.register tag callback]) = [] := by
          rw [actions_snoc, hactions]
          rfl
        refine ⟨pending_step hs h.pending, errorZero_step hinit hs h.pending.created h.zero,
          table_register h.table hfree hset, fun _ => ⟨hpops', hactions'⟩, ⟨[], ?_, ?_⟩,
          joinedExited_step hs h.pending.created h.joined⟩
        · rw [hpops', habsent]
          rfl
        · rw [hactions', habsent]
          rfl

theorem dispatchInv_history (hinit : cfg.InitOk) (h : (workerLts Cb cfg).History xs s) :
    DispatchInv cfg xs s := by
  refine h.induction ?_ ?_
  · rintro s rfl
    refine ⟨pending_initial, fun _ => rfl, ?_, fun _ => ⟨rfl, rfl⟩, ⟨[], rfl, rfl⟩, ?_⟩
    · exact Map.TecMap_init_refines cfg.hash_str cfg.hash_table_size
    · intro n hn
      cases hn
  · intro xs s e t _ hinv hs
    exact dispatchInv_step hinit hs hinv

/-- Each step acts on the queue as a FIFO event. -/
theorem queue_step (hs : Step cfg s e t) : Fifo.Step s.queue (queueEvent e) t.queue := by
  rcases step_cases hs with hw | ⟨c, hc⟩ | hu
  · cases hw with
    | pop hw hq =>
      rw [hq]
      exact .pop
    | pop_null hw hq =>
      rw [hq]
      exact .pop
    | _ => exact .other
  · cases hc with
    | push hc => exact .push
    | _ => exact .other
  · rcases hu with hu | ⟨n, hu⟩ | hu
    · cases hu <;> exact .other
    · cases hu with
      | push ht => exact .push
      | _ => exact .other
    · cases hu with
      | register => exact .other
      | send htag => exact .push

/-- The worker pops what was pushed, in that order. -/
theorem queue_balance (h : (workerLts Cb cfg).History xs s) : pushes xs = pops xs ++ s.queue := by
  obtain ⟨l, rfl, hb⟩ := Fifo.history_balance queueEvent (fun s l => s.queue = l)
    (fun s hi => by rw [hi]; rfl)
    (fun s l e t hl hs => by
      subst hl
      exact ⟨t.queue, rfl, queue_step hs⟩) h
  exact hb

theorem dispatched_append (xs ys : List (Event Cb)) :
    dispatched (xs ++ ys) = dispatched xs ++ dispatched ys := List.filterMap_append

theorem dispatched_actions (xs : List (Event Cb)) : dispatched (actions xs) = dispatched xs := by
  rw [dispatched, actions, List.filterMap_filter]
  congr 1
  funext e
  cases e <;> rfl

/-- The script of a message dispatches it once and no other one. -/
theorem dispatched_script (f : String → Option Cb) (msg : TecMsg) :
    dispatched (script f msg) = [msg] := by
  cases hf : f msg.selector <;> cases msg <;> simp [script, handling, hf, dispatched]

theorem dispatched_scripts (f : String → Option Cb) (l : List TecMsg) :
    dispatched (l.flatMap (script f)) = l := by
  induction l with
  | nil => rfl
  | cons msg l ih =>
    rw [List.flatMap_cons, dispatched_append, dispatched_script, ih]
    rfl

/-- The part of the script that is done is the start of the script of the message held. -/
theorem progress_script (f : String → Option Cb) (pc : WorkerPc) (q : List (Option TecMsg)) :
    pc.progress f <+: (before_null (pc.taken ++ q)).flatMap (script f) := by
  cases pc with
  | on_msg msg | on_rpc msg =>
    exact ⟨_, rfl⟩
  | callback msg | free msg =>
    simp [WorkerPc.progress, WorkerPc.taken, before_null, script]
  | _ => exact List.nil_prefix

/-- The worker acts by the scripts of the messages ahead of the first NULL. -/
theorem actions_by_script (h : (workerLts Cb cfg).History xs s) (hinit : cfg.InitOk) :
    actions xs <+: (before_null (pushes xs)).flatMap (script (lastRegistered xs)) := by
  obtain ⟨finished, hpops, hactions⟩ := (dispatchInv_history hinit h).progress
  rw [queue_balance h, hpops, hactions, List.append_assoc, before_null_append, List.flatMap_append,
    List.prefix_append_right_inj]
  exact progress_script _ _ _

theorem actions_exited (h : (workerLts Cb cfg).History xs s) (hinit : cfg.InitOk)
    (hexited : s.worker = .exited) :
    actions xs = (before_null (pushes xs)).flatMap (script (lastRegistered xs)) := by
  obtain ⟨finished, hpops, hactions⟩ := (dispatchInv_history hinit h).progress
  rw [queue_balance h, hpops, hactions, List.append_assoc, before_null_append, hexited]
  simp [WorkerPc.progress, WorkerPc.taken, before_null]

/-- The caller has pushed its message. -/
def CallPc.Pushed : CallPc → Prop
  | .idle | .push _ => False
  | _ => True

theorem pushed_worker_step (hs : WorkerStep cfg s e t) (h : (s.calls d).pc.Pushed) :
    (t.calls d).pc.Pushed := by
  rcases (worker_step_call hs d).pc with hpc | ⟨_, hpc⟩
  · rw [hpc]
    exact h
  · rw [hpc]
    trivial

theorem pushed_call_step (hs : CallStep c s e t) (h : (s.calls d).pc.Pushed) :
    (t.calls d).pc.Pushed := by
  by_cases hd : d = c
  · subst hd
    cases hs with
    | init hc =>
      rw [hc] at h
      cases h
    | wait_load hc | wait_check hc =>
      cases hv : (s.calls d).value <;> simp [State.setCall, hv, CallPc.Pushed]
    | _ => simp [State.setCall, CallPc.Pushed]
  · rw [call_step_other hs hd]
    exact h

/-- The call that an event pushes the message of. -/
def Event.pushedCall : Event Cb → Option Nat
  | .push msg => msg.bind TecMsg.call
  | _ => none

theorem rpcs_pushes (xs : List (Event Cb)) : rpcs (pushes xs) = xs.filterMap Event.pushedCall := by
  rw [rpcs, pushes, Fifo.pushed, List.filterMap_filterMap]
  congr 1
  funext e
  cases e <;> rfl

/-- Each call pushes its message at most once. -/
theorem rpcs_nodup (h : (workerLts Cb cfg).History xs s) : (rpcs (pushes xs)).Nodup := by
  rw [rpcs_pushes]
  refine (h.once Event.pushedCall (fun s c => (s.calls c).pc.Pushed) ?_).1
  intro xs s e t _ hs
  rcases step_cases hs with hw | ⟨c, hc⟩ | hu
  · refine ⟨fun d => pushed_worker_step hw, ?_⟩
    intro d hd
    cases hw <;> cases hd
  · refine ⟨fun d => pushed_call_step hc, ?_⟩
    intro d hd
    cases hc with
    | push hpc =>
      cases hd
      rw [hpc]
      exact ⟨fun h => h, by simp [State.setCall, CallPc.Pushed]⟩
    | _ => cases hd
  · rw [control_step_calls hu]
    refine ⟨fun d hd => hd, ?_⟩
    intro d hd
    rcases hu with hu | ⟨n, hu⟩ | hu <;> cases hu <;> cases hd

/-- The object of a normal message. -/
def TecMsg.object : TecMsg → Option Nat
  | .normal address _ => some address
  | .rpc _ _ => none

/-- The objects handed to `TecDaemon_send`, in that order. -/
def objects (q : List (Option TecMsg)) : List Nat := q.filterMap fun msg => msg.bind TecMsg.object

/-- Messages that differ in their objects and calls are different. -/
theorem before_null_nodup (q : List (Option TecMsg)) (hobjects : (objects q).Nodup)
    (hrpcs : (rpcs q).Nodup) : (before_null q).Nodup := by
  induction q with
  | nil => exact List.nodup_nil
  | cons head q ih =>
    cases head with
    | none => exact List.nodup_nil
    | some msg =>
      have hmem : msg ∈ before_null q → some msg ∈ q := fun hin =>
        (before_null_start q).subset (List.mem_map_of_mem hin)
      cases msg with
      | normal address tag =>
        have hobjects' : address ∉ objects q ∧ (objects q).Nodup := List.nodup_cons.mp hobjects
        refine List.nodup_cons.mpr ⟨?_, ih hobjects'.2 hrpcs⟩
        intro hin
        exact hobjects'.1 (List.mem_filterMap.mpr ⟨_, hmem hin, rfl⟩)
      | rpc c request =>
        have hrpcs' : c ∉ rpcs q ∧ (rpcs q).Nodup := List.nodup_cons.mp hrpcs
        refine List.nodup_cons.mpr ⟨?_, ih hobjects hrpcs'.2⟩
        intro hin
        exact hrpcs'.1 (List.mem_filterMap.mpr ⟨_, hmem hin, rfl⟩)

/-- The worker frees normal messages only. -/
theorem free_normal (h : (workerLts Cb cfg).History xs s) (hinit : cfg.InitOk) (c : Nat)
    (request : String) : Event.free (.rpc c request) ∉ xs := by
  intro hfree
  have haction : Event.free (.rpc c request) ∈ actions xs := List.mem_filter.mpr ⟨hfree, rfl⟩
  obtain ⟨msg, _, hmsg⟩ := List.mem_flatMap.mp ((actions_by_script h hinit).subset haction)
  rcases List.mem_cons.mp hmsg with hmsg | hmsg
  · cases hmsg
  · rcases List.mem_append.mp hmsg with hmsg | hmsg
    · cases hcb : lastRegistered xs msg.selector <;> simp [handling, hcb] at hmsg
    · cases msg <;> simp at hmsg

/-- The worker dispatches in push order and at most once, and nothing behind the first NULL. What
it does are the scripts of the messages ahead of NULL, one after the other: the dispatch, the call
of the callback registered last for the tag if there is one, and for a normal message then the
free. When `TecDaemon_terminate` returns, all of them are complete. -/
theorem worker_dispatches_in_order (cfg : Config) (hinit : cfg.InitOk) (xs : List (Event Cb))
    (s : State Cb) (h : (workerLts Cb cfg).History xs s) (honce : (objects (pushes xs)).Nodup) :
    dispatched xs <+: before_null (pushes xs) ∧ (before_null (pushes xs)).Nodup ∧
      actions xs <+: (before_null (pushes xs)).flatMap (script (lastRegistered xs)) ∧
      (∀ n result, s.terminate n = .returned result →
        dispatched xs = before_null (pushes xs) ∧
          actions xs = (before_null (pushes xs)).flatMap (script (lastRegistered xs))) ∧
      ∀ c request, .free (.rpc c request) ∉ xs := by
  have hprefix := actions_by_script h hinit
  refine ⟨?_, before_null_nodup _ honce (rpcs_nodup h), hprefix, ?_, free_normal h hinit⟩
  · obtain ⟨rest, hrest⟩ := hprefix
    refine ⟨dispatched rest, ?_⟩
    rw [← dispatched_actions, ← dispatched_append, hrest, dispatched_scripts]
  · intro n result hreturned
    have hexited := (dispatchInv_history hinit h).joined n (by rw [hreturned]; trivial)
    have hall := actions_exited h hinit hexited
    refine ⟨?_, hall⟩
    rw [← dispatched_actions, hall, dispatched_scripts]

/-- A message ahead of NULL reaches its callback, one behind NULL stays in the queue. -/
theorem worker_dispatches_in_order_terminated :
    bareConfig.InitOk ∧ ∃ (xs : List (Event Nat)) (s : State Nat),
      (workerLts Nat bareConfig).History xs s ∧ s.terminate 0 = .returned 0 ∧
        (objects (pushes xs)).Nodup ∧ dispatched xs = before_null (pushes xs) := by
  have h0 : (workerLts Nat bareConfig).History [] (TecWorker_init bareConfig) := .init rfl
  have h1 := h0.snoc (Step.user (@UserStep.register _ _ _ "job" 7 3 _ _ rfl rfl rfl rfl))
  have h2 := h1.snoc (Step.run (.lock rfl rfl))
  have h3 := h2.snoc (Step.run (.create rfl))
  have h4 := h3.snoc (Step.worker (.on_init rfl))
  have h5 := h4.snoc (Step.worker (.set_running rfl))
  have h6 := h5.snoc (Step.worker (.test_error rfl))
  have h7 := h6.snoc (Step.run (.wait_running rfl rfl))
  have h8 := h7.snoc (Step.run (.unlock rfl))
  have h9 := h8.snoc (Step.user (@UserStep.send _ _ _ 1 "job" (by decide)))
  have h10 := h9.snoc (Step.terminate 0 (.lock rfl rfl))
  have h11 := h10.snoc (Step.terminate 0 (.push rfl))
  have h12 := h11.snoc (Step.user (@UserStep.send _ _ _ 2 "job" (by decide)))
  have h13 := h12.snoc (Step.worker (.pop rfl rfl))
  have h14 := h13.snoc (Step.worker (.dispatch_msg rfl (by decide)))
  have h15 := h14.snoc (Step.worker (.on_msg rfl rfl))
  have h16 := h15.snoc (Step.worker (.msg_handled rfl))
  have h17 := h16.snoc (Step.worker (.free rfl))
  have h18 := h17.snoc (Step.worker (.pop_null rfl rfl))
  have h19 := h18.snoc (Step.worker (.on_exit rfl))
  have h20 := h19.snoc (Step.worker (.set_terminated rfl))
  have h21 := h20.snoc (Step.terminate 0 (.wait_terminated rfl rfl))
  have h22 := h21.snoc (Step.terminate 0 (.join rfl rfl))
  have h23 := h22.snoc (Step.terminate 0 (.read rfl))
  have h24 := h23.snoc (Step.terminate 0 (.unlock rfl))
  refine ⟨rfl, _, _, h24, rfl, ?_, ?_⟩
  · decide
  · exact ((worker_dispatches_in_order bareConfig rfl _ _ h24 (by decide)).2.2.2.1 0 0 rfl).1

end Tecc.Worker
