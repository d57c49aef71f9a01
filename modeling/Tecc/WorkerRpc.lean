import Tecc.WorkerDispatch

/-! What `TecDaemon_rpc` promises to its caller: its own `TecRPC` goes through the handler of the
request once, and the call returns what the handler left in it. -/
namespace Tecc.Worker

open Transition

variable {Cb : Type} {cfg : Config} {s t : State Cb} {e : Event Cb} {c d : Nat}

/-- The members of a `TecRPC`, with the addresses of the objects that it points to. Its `error` is
a member of `Call`. -/
structure TecRPC where
  tag : String
  request : Nat
  reply : Nat
  sig_ready : Nat
deriving DecidableEq, Repr

def TecRPC_init (request reply sig : Nat) : TecRPC := ⟨TecRPC_msg_, request, reply, sig⟩

/-- The arguments of a call of `TecDaemon_rpc`, and the tag of its request. -/
structure RpcArgs where
  request : Nat
  reply : Nat
  tag : String

/-- The `TecRPC` of the call `c`, which is on the stack of its caller like the signal. Both are
addressed by the number of the call. -/
def RpcArgs.rpc (args : RpcArgs) (c : Nat) : TecRPC := TecRPC_init args.request args.reply c

/-- A worker, the `TecRPC` objects of its callers, and the tags of the requests by their address. -/
structure RpcState (Cb : Type) where
  worker : State Cb
  rpcs : Nat → TecRPC
  tags : Nat → String

/-- What happens to one call. -/
inductive RpcEvent (Cb : Type) where
  | push (c : Nat) (rpc : TecRPC)
  /-- The handler is called and finds the error. -/
  | invoke (callback : Cb) (c : Nat) (rpc : TecRPC) (error : Int)
  /-- The handler returns and leaves the error. -/
  | complete (c : Nat) (error : Int)
  /-- `TecSignal_set` stores 1 in the signal at this address. -/
  | set (sig : Nat)
  | return (c : Nat) (error : Int)

def RpcEvent.call : RpcEvent Cb → Nat
  | .push c _ | .invoke _ c _ _ | .complete c _ | .set c | .return c _ => c

/-- What a step of the worker thread does to a call. -/
def worker_event (r : RpcState Cb) (e : Event Cb) (t : State Cb) : Option (RpcEvent Cb) :=
  match r.worker.worker, e with
  | .on_rpc (.rpc c _), .callback callback _ =>
    some (.invoke callback c (r.rpcs c) (t.calls c).error)
  | .callback (.rpc c _), _ => some (.complete c (t.calls c).error)
  | .set_store sig, _ => some (.set sig)
  | _, _ => none

/-- What a step of the caller does to its call. -/
def call_event (r : RpcState Cb) (c : Nat) (t : State Cb) : Option (RpcEvent Cb) :=
  match (r.worker.calls c).pc, (t.calls c).pc with
  | .push _, _ => some (.push c (r.rpcs c))
  | _, .returned error => some (.return c error)
  | _, _ => none

/-- The call whose `TecRPC` the worker thread reads next. -/
def WorkerPc.reads : WorkerPc → Option Nat
  | .dispatch msg | .on_rpc msg | .callback msg => msg.call
  | _ => none

/-- The steps of the worker thread that read a `TecRPC`. Of the message they know the address. -/
inductive ReadStep (cfg : Config) : RpcState Cb → Event Cb → State Cb → Prop
  | dispatch_rpc {r : RpcState Cb} {c : Nat} {request : String}
      (hw : r.worker.worker = .dispatch (.rpc c request)) (htag : (r.rpcs c).tag = TecRPC_msg_) :
      ReadStep cfg r (.dispatch (.rpc c request))
        { r.worker with worker := .on_rpc (.rpc c request) }
  /-- Under any other tag it is a normal message. -/
  | dispatch_msg {r : RpcState Cb} {c : Nat} {request : String}
      (hw : r.worker.worker = .dispatch (.rpc c request)) (htag : (r.rpcs c).tag ≠ TecRPC_msg_) :
      ReadStep cfg r (.dispatch (.rpc c request))
        { r.worker with worker := .on_msg (.normal c (r.rpcs c).tag) }
  /-- The handler is found by the tag of the request. -/
  | on_rpc {r : RpcState Cb} {c : Nat} {request : String} {callback : Cb}
      (hw : r.worker.worker = .on_rpc (.rpc c request))
      (hget : Map.TecMap_get cfg.hash_str r.worker.callbacks (r.tags (r.rpcs c).request) =
        .ok (some callback)) :
      ReadStep cfg r (.callback callback (.rpc c request))
        { r.worker.setCall c (fun call => { call with error := 0 }) with
          worker := .callback (.rpc c request) }
  | on_rpc_none {r : RpcState Cb} {c : Nat} {request : String}
      (hw : r.worker.worker = .on_rpc (.rpc c request))
      (hget : Map.TecMap_get cfg.hash_str r.worker.callbacks (r.tags (r.rpcs c).request) =
        .ok none) :
      ReadStep cfg r .other
        { r.worker.setCall c (fun call => { call with error := TECC_ERR_HANDLER_NOT_FOUND }) with
          worker := .set_store (r.rpcs c).sig_ready }
  | rpc_handled {r : RpcState Cb} {c : Nat} {request : String} {error : Int}
      (hw : r.worker.worker = .callback (.rpc c request)) :
      ReadStep cfg r .other
        { r.worker.setCall c (fun call => { call with error := error }) with
          worker := .set_store (r.rpcs c).sig_ready }

/-- The call has begun and not returned. -/
def CallPc.Open : CallPc → Prop
  | .idle | .returned _ => False
  | _ => True

/-- The steps of the worker and its users, labelled with what they do to a call as well. -/
inductive RpcStep (cfg : Config) (args : Nat → RpcArgs) :
    RpcState Cb → Event Cb × Option (RpcEvent Cb) → RpcState Cb → Prop
  | read {r : RpcState Cb} {e : Event Cb} {t : State Cb} (hs : ReadStep cfg r e t) :
      RpcStep cfg args r (e, worker_event r e t) { r with worker := t }
  | worker {r : RpcState Cb} {e : Event Cb} {t : State Cb} (hs : WorkerStep cfg r.worker e t)
      (hreads : r.worker.worker.reads = none) :
      RpcStep cfg args r (e, worker_event r e t) { r with worker := t }
  /-- The caller sets up its request, its signal and its `TecRPC`. Calls at the same time share a
  request only under the same tag. -/
  | init {r : RpcState Cb} {c : Nat} (hidle : (r.worker.calls c).pc = .idle)
      (hshared : ∀ d, (r.worker.calls d).pc.Open → (args d).request = (args c).request →
        (args d).tag = (args c).tag) :
      RpcStep cfg args r (.other, none)
        ⟨r.worker.setCall c fun _ => ⟨.push (args c).tag, false, none, false, 0⟩,
          Function.update r.rpcs c ((args c).rpc c),
          Function.update r.tags (args c).request (args c).tag⟩
  | call {r : RpcState Cb} {c : Nat} {e : Event Cb} {t : State Cb} (hs : CallStep c r.worker e t)
      (hidle : (r.worker.calls c).pc ≠ .idle) :
      RpcStep cfg args r (e, call_event r c t) { r with worker := t }
  | control {r : RpcState Cb} {e : Event Cb} {t : State Cb}
      (hs : ControlStep cfg r.worker e t) : RpcStep cfg args r (e, none) { r with worker := t }

def rpcLts (Cb : Type) (cfg : Config) (args : Nat → RpcArgs) :
    Lts (RpcState Cb) (Event Cb × Option (RpcEvent Cb)) where
  Init r := r.worker = TecWorker_init cfg
  Step := RpcStep cfg args

/-- All that happened to the call `c`. -/
def transcript (c : Nat) (xs : List (Event Cb × Option (RpcEvent Cb))) : List (RpcEvent Cb) :=
  (xs.filterMap Prod.snd).filter fun e => e.call = c

/-- How far a call has come, as its caller would tell it. -/
inductive Stage where
  | ahead
  | queued
  | handling
  /-- The error is there, the signal is not set. -/
  | completed (error : Int)
  | answered (error : Int)
  | returned (error : Int)

/-- What may happen to a call whose handler is `handler`. -/
inductive StageStep (handler : Option Cb) (rpc : TecRPC) (c : Nat) :
    Stage → Option (RpcEvent Cb) → Stage → Prop
  | stay {stage : Stage} : StageStep handler rpc c stage none stage
  | push : StageStep handler rpc c .ahead (some (.push c rpc)) .queued
  | invoke {callback : Cb} (h : handler = some callback) :
      StageStep handler rpc c .queued (some (.invoke callback c rpc 0)) .handling
  | complete {error : Int} :
      StageStep handler rpc c .handling (some (.complete c error)) (.completed error)
  | not_found (h : handler = none) :
      StageStep handler rpc c .queued none (.completed TECC_ERR_HANDLER_NOT_FOUND)
  | set {error : Int} :
      StageStep handler rpc c (.completed error) (some (.set c)) (.answered error)
  | return {error : Int} :
      StageStep handler rpc c (.answered error) (some (.return c error)) (.returned error)

/-- What has happened to a call that has its answer. -/
def Answer (handler : Option Cb) (rpc : TecRPC) (c : Nat) (error : Int)
    (es : List (RpcEvent Cb)) : Prop :=
  (∃ callback, handler = some callback ∧
    es = [.push c rpc, .invoke callback c rpc 0, .complete c error]) ∨
    (handler = none ∧ error = TECC_ERR_HANDLER_NOT_FOUND ∧ es = [.push c rpc])

/-- What has happened to a call, by its stage. -/
def Told (handler : Option Cb) (rpc : TecRPC) (c : Nat) : Stage → List (RpcEvent Cb) → Prop
  | .ahead, es => es = []
  | .queued, es => es = [.push c rpc]
  | .handling, es => ∃ callback, handler = some callback ∧
      es = [.push c rpc, .invoke callback c rpc 0]
  | .completed error, es => Answer handler rpc c error es
  | .answered error, es => ∃ answer, Answer handler rpc c error answer ∧ es = answer ++ [.set c]
  | .returned error, es => ∃ answer, Answer handler rpc c error answer ∧
      es = answer ++ [.set c, .return c error]

theorem told_step {handler : Option Cb} {rpc : TecRPC} {stage stage' : Stage}
    {e : Option (RpcEvent Cb)} {es : List (RpcEvent Cb)}
    (hs : StageStep handler rpc c stage e stage') (h : Told handler rpc c stage es) :
    Told handler rpc c stage' (es ++ e.toList) := by
  cases hs with
  | stay =>
    rw [Option.toList_none, List.append_nil]
    exact h
  | push =>
    rw [show es = [] from h]
    rfl
  | invoke hhandler =>
    rw [show es = [.push c rpc] from h]
    exact ⟨_, hhandler, rfl⟩
  | complete =>
    obtain ⟨callback, hhandler, rfl⟩ := h
    exact .inl ⟨callback, hhandler, rfl⟩
  | not_found hhandler =>
    rw [show es = [.push c rpc] from h]
    exact .inr ⟨hhandler, rfl, rfl⟩
  | set => exact ⟨es, h, rfl⟩
  | «return» =>
    obtain ⟨answer, hanswer, rfl⟩ := h
    exact ⟨answer, hanswer, by rw [List.append_assoc]; rfl⟩

/-- The call whose handler runs. -/
def WorkerPc.handling : WorkerPc → Option Nat
  | .callback msg => msg.call
  | _ => none

theorem handling_holds {worker : WorkerPc} (h : worker.handling = some c) :
    worker.holds = some c := by
  cases worker <;> first | exact h | cases h

/-- The stage of a call, from its own state and the position of the worker. -/
def stageOf (worker : WorkerPc) (c : Nat) (call : Call) : Stage :=
  match call.pc with
  | .idle | .push _ => .ahead
  | .returned error => .returned error
  | _ =>
    if call.value = true then .answered call.error
    else if worker = .set_store c then .completed call.error
    else if worker.handling = some c then .handling else .queued

def State.stage (s : State Cb) (c : Nat) : Stage := stageOf s.worker c (s.calls c)

/-- The stage looks at the answer and at the position of the worker with the call. -/
theorem stageOf_congr {worker worker' : WorkerPc} {call call' : Call}
    (hpc : call'.pc = call.pc ∨ call.pc = .asleep ∧ call'.pc = .woken)
    (hvalue : call'.value = call.value) (herror : call'.error = call.error)
    (hstore : worker' = .set_store c ↔ worker = .set_store c)
    (hhandling : worker'.handling = some c ↔ worker.handling = some c) :
    stageOf worker' c call' = stageOf worker c call := by
  rcases hpc with hpc | ⟨hasleep, hwoken⟩
  · simp only [stageOf, hpc, hvalue, herror, hstore, hhandling]
  · simp only [stageOf, hasleep, hwoken, hvalue, herror, hstore, hhandling]

/-- The caller is between its push and its return. -/
def CallPc.Inside : CallPc → Prop
  | .idle | .push _ | .returned _ => False
  | _ => True

theorem waiting_inside {pc : CallPc} (h : pc.Waiting) : pc.Inside := by
  cases pc <;> trivial

theorem waiting_open {pc : CallPc} (h : pc.Waiting) : pc.Open := by
  cases pc <;> trivial

theorem stageOf_inside {worker : WorkerPc} {call : Call} (h : call.pc.Inside) :
    stageOf worker c call =
      if call.value = true then .answered call.error
      else if worker = .set_store c then .completed call.error
      else if worker.handling = some c then .handling else .queued := by
  unfold stageOf
  split <;> simp_all [CallPc.Inside]

theorem stage_eq {worker : WorkerPc} {call : Call} (hw : t.worker = worker)
    (hc : t.calls d = call) : t.stage d = stageOf worker d call := by
  rw [State.stage, hw, hc]

/-- A step that works on another call. -/
theorem stage_other {call : Call} (hcalls : t.calls = Function.update s.calls c call) (hd : d ≠ c)
    (hstore : t.worker = .set_store d ↔ s.worker = .set_store d)
    (hhandling : t.worker.handling = some d ↔ s.worker.handling = some d) :
    t.stage d = s.stage d := by
  have hcall : t.calls d = s.calls d := by rw [hcalls, Function.update_of_ne hd]
  rw [State.stage, hcall]
  exact stageOf_congr (.inl rfl) rfl rfl hstore hhandling

/-- The stages of a call whose caller waits for the value. -/
theorem stage_waiting {worker : WorkerPc} (call : Call) (hw : t.worker = worker)
    (hc : t.calls d = call) (hwait : call.pc.Waiting) (hvalue : call.value = false) :
    t.stage d =
      if worker = .set_store d then .completed call.error
      else if worker.handling = some d then .handling else .queued := by
  rw [stage_eq hw hc, stageOf_inside (waiting_inside hwait), hvalue]
  simp

/-- The stage of a call whose value is set, until it returns. -/
theorem stage_set {worker : WorkerPc} (call : Call) (hw : t.worker = worker)
    (hc : t.calls d = call) (hin : call.pc.Inside) (hvalue : call.value = true) :
    t.stage d = .answered call.error := by
  rw [stage_eq hw hc, stageOf_inside hin, if_pos hvalue]

/-- The caller has read 1. -/
def CallPc.ReadOne : CallPc → Prop
  | .wait_unlock | .signal_done | .return | .returned _ => True
  | _ => False

/-- What holds beside `Pending` of the calls and their messages. -/
structure RpcInv (args : Nat → RpcArgs) (r : RpcState Cb) : Prop where
  pending : Pending r.worker
  read : ∀ c, (r.worker.calls c).pc.ReadOne → (r.worker.calls c).value = true
  started : ∀ c, (r.worker.calls c).value = true → r.worker.worker ≠ .absent
  request : ∀ c request, (r.worker.calls c).pc = .push request → request = (args c).tag
  queued : ∀ c request, some (.rpc c request) ∈ r.worker.queue → request = (args c).tag
  held : ∀ c request, r.worker.worker.taken = [some (.rpc c request)] → request = (args c).tag
  rpc : ∀ c, (r.worker.calls c).pc ≠ .idle → r.rpcs c = (args c).rpc c
  tag : ∀ c, (r.worker.calls c).pc.Open → r.tags (args c).request = (args c).tag

section Step

variable {args : Nat → RpcArgs} {r r' : RpcState Cb} {f : String → Option Cb}

/-- A call that the worker works on waits in front of a signal that is not set. -/
theorem RpcInv.stage_held (h : RpcInv args r) (hc : r.worker.worker.holds = some c) :
    (r.worker.calls c).pc.Waiting ∧ (r.worker.calls c).value = false ∧
      r.rpcs c = (args c).rpc c := by
  have hmem : c ∈ r.worker.outstanding := by simp [State.outstanding, hc]
  have hwait := h.pending.waiting c hmem
  refine ⟨hwait, h.pending.unset c hmem, h.rpc c ?_⟩
  intro hidle
  rw [hidle] at hwait
  exact hwait

/-- A step that tells nothing about a call and leaves its stage alone. -/
theorem stay_of {handler : Option Cb} {rpc : TecRPC} {stage stage' : Stage}
    {e : Option (RpcEvent Cb)} (hevent : e.filter (fun e => e.call = d) = none)
    (hstage : stage' = stage) :
    StageStep handler rpc d stage (e.filter fun e => e.call = d) stage' := by
  rw [hevent, hstage]
  exact .stay

theorem filter_call_of_ne {e : RpcEvent Cb} (h : e.call ≠ d) :
    (some e).filter (fun e => e.call = d) = none := by
  simp [Option.filter, h]

theorem filter_call_self {e : RpcEvent Cb} (h : e.call = d) :
    (some e).filter (fun e => e.call = d) = some e := by
  simp [Option.filter, h]

/-- The worker thread moves each call along its stages. -/
theorem stage_worker_step (hs : WorkerStep cfg r.worker e t) (h : RpcInv args r)
    (hget : ∀ tag, Map.TecMap_get cfg.hash_str r.worker.callbacks tag = .ok (f tag)) (d : Nat) :
    StageStep (f (args d).tag) ((args d).rpc d) d (r.worker.stage d)
      ((worker_event r e t).filter fun e => e.call = d) (t.stage d) := by
  cases hs with
  | @on_rpc c request callback hw hcb =>
    have hevent : worker_event r (.callback callback (.rpc c request))
        { r.worker.setCall c (fun call => { call with error := 0 }) with
          worker := .callback (.rpc c request) } = some (.invoke callback c (r.rpcs c) 0) := by
      simp [worker_event, hw, State.setCall]
    rw [hevent]
    by_cases hd : d = c
    · subst hd
      obtain ⟨hwait, hvalue, hrpc⟩ := h.stage_held (c := d) (by rw [hw]; rfl)
      have hfound : f (args d).tag = some callback := by
        rw [← h.held d request (by rw [hw]; rfl)]
        exact Except.ok.inj ((hget _).symm.trans hcb)
      rw [filter_call_self (d := d) rfl, hrpc, stage_waiting _ hw rfl hwait hvalue,
        stage_waiting { r.worker.calls d with error := 0 } rfl (Function.update_self _ _ _)
          hwait hvalue]
      simp only [reduceCtorEq, if_false, WorkerPc.handling, TecMsg.call, if_true]
      exact .invoke hfound
    · refine stay_of (filter_call_of_ne (Ne.symm hd)) (stage_other rfl hd (by simp [hw]) ?_)
      simp [hw, WorkerPc.handling, TecMsg.call, Ne.symm hd]
  | @on_rpc_none c request hw hcb =>
    have hevent : worker_event r .other
        { r.worker.setCall c (fun call => { call with error := TECC_ERR_HANDLER_NOT_FOUND }) with
          worker := .set_store c } = none := by
      simp [worker_event, hw]
    rw [hevent]
    by_cases hd : d = c
    · subst hd
      obtain ⟨hwait, hvalue, _⟩ := h.stage_held (c := d) (by rw [hw]; rfl)
      have hfound : f (args d).tag = none := by
        rw [← h.held d request (by rw [hw]; rfl)]
        exact Except.ok.inj ((hget _).symm.trans hcb)
      rw [stage_waiting _ hw rfl hwait hvalue,
        stage_waiting { r.worker.calls d with error := TECC_ERR_HANDLER_NOT_FOUND } rfl
          (Function.update_self _ _ _) hwait hvalue]
      simp only [reduceCtorEq, if_false, WorkerPc.handling, if_true]
      exact .not_found hfound
    · refine stay_of rfl (stage_other rfl hd ?_ (by simp [hw, WorkerPc.handling]))
      simp [hw, Ne.symm hd]
  | @rpc_handled c request error hw =>
    have hevent : worker_event r .other
        { r.worker.setCall c (fun call => { call with error := error }) with
          worker := .set_store c } = some (.complete c error) := by
      simp [worker_event, hw, State.setCall]
    rw [hevent]
    by_cases hd : d = c
    · subst hd
      obtain ⟨hwait, hvalue, _⟩ := h.stage_held (c := d) (by rw [hw]; rfl)
      rw [filter_call_self (d := d) rfl, stage_waiting _ hw rfl hwait hvalue,
        stage_waiting { r.worker.calls d with error := error } rfl (Function.update_self _ _ _)
          hwait hvalue]
      simp only [reduceCtorEq, if_false, WorkerPc.handling, TecMsg.call, if_true]
      exact .complete
    · refine stay_of (filter_call_of_ne (Ne.symm hd)) (stage_other rfl hd ?_ ?_)
      · simp [hw, Ne.symm hd]
      · simp [hw, WorkerPc.handling, TecMsg.call, Ne.symm hd]
  | @set_store c hw =>
    have hevent : worker_event r .other
        { r.worker.setCall c (fun call => { call with value := true }) with
          worker := .set_lock c } = some (.set c) := by
      simp [worker_event, hw]
    rw [hevent]
    by_cases hd : d = c
    · subst hd
      obtain ⟨hwait, hvalue, _⟩ := h.stage_held (c := d) (by rw [hw]; rfl)
      rw [filter_call_self (d := d) rfl, stage_waiting _ hw rfl hwait hvalue, if_pos rfl,
        stage_set { r.worker.calls d with value := true } rfl (Function.update_self _ _ _)
          (waiting_inside hwait) rfl]
      exact .set
    · refine stay_of (filter_call_of_ne (Ne.symm hd))
        (stage_other rfl hd ?_ (by simp [hw, WorkerPc.handling]))
      simp [hw, Ne.symm hd]
  | @set_lock c hw hmtx =>
    refine stay_of (by simp [worker_event, hw]) ?_
    by_cases hd : d = c
    · subst hd
      rw [stage_eq rfl (Function.update_self _ _ _)]
      exact stageOf_congr (.inl rfl) rfl rfl (by simp [hw]) (by simp [hw, WorkerPc.handling])
    · exact stage_other rfl hd (by simp [hw]) (by simp [hw, WorkerPc.handling])
  | @set_broadcast c hw =>
    refine stay_of (by simp [worker_event, hw]) ?_
    by_cases hd : d = c
    · subst hd
      rw [stage_eq rfl (Function.update_self _ _ _)]
      refine stageOf_congr ?_ rfl rfl (by simp [hw]) (by simp [hw, WorkerPc.handling])
      by_cases hasleep : (r.worker.calls d).pc = .asleep
      · exact .inr ⟨hasleep, if_pos hasleep⟩
      · exact .inl (if_neg hasleep)
    · exact stage_other rfl hd (by simp [hw]) (by simp [hw, WorkerPc.handling])
  | @set_unlock c hw =>
    refine stay_of (by simp [worker_event, hw]) ?_
    by_cases hd : d = c
    · subst hd
      rw [stage_eq rfl (Function.update_self _ _ _)]
      exact stageOf_congr (.inl rfl) rfl rfl (by simp [hw]) (by simp [hw, WorkerPc.handling])
    · exact stage_other rfl hd (by simp [hw]) (by simp [hw, WorkerPc.handling])
  | test_error hw =>
    refine stay_of (by simp [worker_event, hw]) (stageOf_congr (.inl rfl) rfl rfl ?_ ?_)
    · by_cases herror : r.worker.error = 0 <;> simp [hw, herror]
    · by_cases herror : r.worker.error = 0 <;> simp [hw, herror, WorkerPc.handling]
  | on_msg hw hcb =>
    refine stay_of (by simp [worker_event, hw]) (stageOf_congr (.inl rfl) rfl rfl (by simp [hw]) ?_)
    simp [hw, WorkerPc.handling, h.pending.typed _ (.inl hw)]
  | msg_handled hw =>
    refine stay_of (by simp [worker_event, hw]) (stageOf_congr (.inl rfl) rfl rfl (by simp [hw]) ?_)
    simp [hw, WorkerPc.handling, TecMsg.call]
  | on_init hw | set_running hw | pop hw _ | pop_null hw _ | dispatch_rpc hw _
  | dispatch_msg hw _ | on_msg_none hw _ | free hw | on_exit hw | set_terminated hw =>
    exact stay_of (by simp [worker_event, hw])
      (stageOf_congr (.inl rfl) rfl rfl (by simp [hw]) (by simp [hw, WorkerPc.handling]))

theorem worker_step_absent (hs : WorkerStep cfg s e t) : t.worker ≠ .absent := by
  cases hs with
  | test_error hw =>
    simp only
    split <;> exact WorkerPc.noConfusion
  | _ => exact WorkerPc.noConfusion

theorem worker_step_queue (hs : WorkerStep cfg s e t) {msg : Option TecMsg} (h : msg ∈ t.queue) :
    msg ∈ s.queue := by
  cases hs with
  | pop hw hq =>
    rw [hq]
    exact List.mem_cons_of_mem _ h
  | pop_null hw hq =>
    rw [hq]
    exact List.mem_cons_of_mem _ h
  | _ => exact h

/-- What the worker holds it held before, or it takes it from the queue. -/
theorem worker_step_taken (hs : WorkerStep cfg s e t) {msg : TecMsg}
    (h : t.worker.taken = [some msg]) : s.worker.taken = [some msg] ∨ some msg ∈ s.queue := by
  cases hs with
  | pop hw hq =>
    cases h
    rw [hq]
    exact .inr List.mem_cons_self
  | test_error hw =>
    simp only at h
    split at h <;> cases h
  | dispatch_rpc hw _ | dispatch_msg hw _ | on_msg hw _ | on_msg_none hw _ | msg_handled hw
  | on_rpc hw _ =>
    cases h
    exact .inl (by rw [hw]; rfl)
  | _ => cases h

theorem rpcInv_worker_step (hs : WorkerStep cfg r.worker e t) (h : RpcInv args r) :
    RpcInv args { r with worker := t } := by
  refine ⟨pending_worker_step hs h.pending, ?_, fun _ _ => worker_step_absent hs, ?_,
    fun c request hq => h.queued c request (worker_step_queue hs hq), ?_, ?_, ?_⟩
  · intro c hread
    have htouched := worker_step_call hs c
    rcases htouched.pc with hpc | ⟨_, hwoken⟩
    · rcases htouched.value with hvalue | ⟨_, hvalue⟩
      · exact hvalue.trans (h.read c (hpc ▸ hread))
      · exact hvalue
    · rw [hwoken] at hread
      exact hread.elim
  · intro c request hpush
    rcases (worker_step_call hs c).pc with hpc | ⟨_, hwoken⟩
    · exact h.request c request (hpc.symm.trans hpush)
    · cases hwoken.symm.trans hpush
  · intro c request htaken
    rcases worker_step_taken hs htaken with hold | hqueue
    · exact h.held c request hold
    · exact h.queued c request hqueue
  · intro c hidle
    rcases (worker_step_call hs c).pc with hpc | ⟨hasleep, _⟩
    · exact h.rpc c (hpc ▸ hidle)
    · exact h.rpc c (by rw [hasleep]; exact CallPc.noConfusion)
  · intro c hopen
    rcases (worker_step_call hs c).pc with hpc | ⟨hasleep, _⟩
    · exact h.tag c (hpc ▸ hopen)
    · exact h.tag c (by rw [hasleep]; trivial)

/-- What a caller does to the value of its call and to the queue. -/
theorem call_step_cases (hs : CallStep c s e t) :
    ((t.calls c).pc.ReadOne → (s.calls c).pc.ReadOne ∨ (s.calls c).value = true) ∧
      ((t.calls c).value = true → (s.calls c).value = true) ∧
      ((s.calls c).pc ≠ .idle → (t.calls c).value = (s.calls c).value) ∧
      (t.queue = s.queue ∨ ∃ request, (s.calls c).pc = .push request ∧
        t.queue = s.queue ++ [some (.rpc c request)]) ∧
      (∀ request, (t.calls c).pc = .push request → (s.calls c).pc = .idle) := by
  cases hs with
  | push hc => simp [State.setCall, hc, CallPc.ReadOne]
  | wait_load hc | wait_check hc =>
    cases hv : (s.calls c).value <;> simp [State.setCall, hc, hv, CallPc.ReadOne]
  | _ => simp_all [State.setCall, CallPc.ReadOne]

theorem rpcInv_call_step {rpcs : Nat → TecRPC} {tags : Nat → String}
    (hs : CallStep c r.worker e t) (h : RpcInv args r)
    (hrequest : ∀ request, (t.calls c).pc = .push request → request = (args c).tag)
    (hrpc : (t.calls c).pc ≠ .idle → rpcs c = (args c).rpc c)
    (hrpcs : ∀ d, d ≠ c → rpcs d = r.rpcs d)
    (htags : ∀ d, (t.calls d).pc.Open → tags (args d).request = (args d).tag) :
    RpcInv args ⟨t, rpcs, tags⟩ := by
  obtain ⟨hread, hvalue, hkept, hqueue, _⟩ := call_step_cases hs
  have hworker := call_step_worker hs
  refine ⟨pending_call_step hs h.pending, ?_, ?_, ?_, ?_, ?_, ?_, htags⟩
  · intro d hd
    by_cases hdc : d = c
    · subst hdc
      have hset : (r.worker.calls d).value = true := by
        rcases hread hd with hpc | hset
        · exact h.read d hpc
        · exact hset
      refine (hkept ?_).trans hset
      intro hidle
      cases hs <;> simp_all [State.setCall, CallPc.ReadOne]
    · rw [call_step_other hs hdc] at hd ⊢
      exact h.read d hd
  · intro d hd
    rw [hworker]
    by_cases hdc : d = c
    · subst hdc
      exact h.started d (hvalue hd)
    · rw [call_step_other hs hdc] at hd
      exact h.started d hd
  · intro d request hpush
    by_cases hdc : d = c
    · subst hdc
      exact hrequest request hpush
    · rw [call_step_other hs hdc] at hpush
      exact h.request d request hpush
  · intro d request hmem
    rcases hqueue with hqueue | ⟨request', hpush, hqueue⟩
    · exact h.queued d request (hqueue ▸ hmem)
    · rw [show t.queue = _ from hqueue, List.mem_append, List.mem_singleton] at hmem
      rcases hmem with hmem | hmem
      · exact h.queued d request hmem
      · cases hmem
        exact h.request c request hpush
  · rw [hworker]
    exact h.held
  · intro d hd
    by_cases hdc : d = c
    · subst hdc
      exact hrpc hd
    · rw [call_step_other hs hdc] at hd
      exact (hrpcs d hdc).trans (h.rpc d hd)

theorem control_step_queue (hs : ControlStep cfg s e t) {c : Nat} {request : String}
    (h : some (.rpc c request) ∈ t.queue) : some (.rpc c request) ∈ s.queue := by
  rcases hs with hs | ⟨n, hs⟩ | hs
  · cases hs <;> exact h
  · cases hs with
    | push ht => simpa [State.setTerminate] using h
    | _ => exact h
  · cases hs with
    | register => exact h
    | send htag => simpa using h

theorem rpcInv_control_step (hs : ControlStep cfg r.worker e t) (h : RpcInv args r) :
    RpcInv args { r with worker := t } := by
  have hcalls := control_step_calls hs
  refine ⟨pending_step (control_step hs) h.pending, ?_, ?_, ?_,
    fun c request hq => h.queued c request (control_step_queue hs hq), ?_, ?_, ?_⟩
  · rw [hcalls]
    exact h.read
  · intro c hc
    rw [hcalls] at hc
    rcases control_step_worker hs with hw | ⟨_, hw⟩
    · rw [hw]
      exact h.started c hc
    · rw [hw]
      exact WorkerPc.noConfusion
  · rw [hcalls]
    exact h.request
  · intro c request htaken
    rcases control_step_worker hs with hw | ⟨_, hw⟩
    · rw [hw] at htaken
      exact h.held c request htaken
    · rw [hw] at htaken
      cases htaken
  · rw [hcalls]
    exact h.rpc
  · rw [hcalls]
    exact h.tag

/-- The caller moves its own call along its stages. -/
theorem stage_call_step (hs : CallStep c r.worker e t) (hidle : (r.worker.calls c).pc ≠ .idle)
    (h : RpcInv args r) {handler : Option Cb} :
    StageStep handler ((args d).rpc d) d (r.worker.stage d)
      ((call_event r c t).filter fun e => e.call = d) (t.stage d) := by
  have hworker := call_step_worker hs
  by_cases hd : d = c
  · subst hd
    have hinside : ∀ {call : Call}, t.calls d = call → call_event r d t = none →
        (r.worker.calls d).pc.Inside → call.pc.Inside → call.value = (r.worker.calls d).value →
        call.error = (r.worker.calls d).error →
        StageStep handler ((args d).rpc d) d (r.worker.stage d)
          ((call_event r d t).filter fun e => e.call = d) (t.stage d) := by
      intro call hcall hevent hpc hpc' hvalue herror
      refine stay_of (by rw [hevent]; rfl) ?_
      rw [stage_eq hworker hcall, State.stage, stageOf_inside hpc, stageOf_inside hpc', hvalue,
        herror]
    cases hs with
    | init hc => exact absurd hc hidle
    | @push request hc =>
      have hnot : r.worker.worker.holds ≠ some d := by
        intro hholds
        have hwait := (h.stage_held hholds).1
        rw [hc] at hwait
        exact hwait
      have hevent : call_event r d
          { r.worker.setCall d (fun call => { call with pc := .wait_load }) with
            queue := r.worker.queue ++ [some (.rpc d request)] } =
          some (.push d ((args d).rpc d)) := by
        simp [call_event, hc, h.rpc d hidle]
      have hbefore : r.worker.stage d = .ahead := by
        rw [State.stage, stageOf, hc]
      rw [hevent, filter_call_self (d := d) rfl, hbefore,
        stage_waiting { r.worker.calls d with pc := .wait_load } hworker
          (Function.update_self _ _ _) trivial (h.pending.fresh d request hc),
        if_neg (fun hstore => hnot (by rw [hstore]; rfl)),
        if_neg (fun hhandling => hnot (handling_holds hhandling))]
      exact .push
    | wait_load hc | wait_check hc =>
      refine hinside (Function.update_self _ _ _) ?_ (by simp [hc, CallPc.Inside]) ?_ rfl rfl
      · cases hv : (r.worker.calls d).value <;> simp [call_event, hc, hv, State.setCall]
      · cases (r.worker.calls d).value <;> simp [CallPc.Inside]
    | «return» hc =>
      have hset := h.read d (by rw [hc]; trivial)
      have hevent : call_event r d (r.worker.setCall d fun call =>
          { call with pc := .returned call.error }) =
          some (.return d (r.worker.calls d).error) := by
        simp [call_event, hc, State.setCall]
      rw [hevent, filter_call_self (d := d) rfl,
        stage_set _ rfl rfl (by rw [hc]; trivial) hset, stage_eq rfl (Function.update_self _ _ _)]
      exact .return
    | wait_lock hc _ | wait_sleep hc | wake hc | woken hc _ | wait_unlock hc | signal_done hc =>
      exact hinside (Function.update_self _ _ _) (by simp [call_event, hc, State.setCall])
        (by simp [hc, CallPc.Inside]) (by simp [CallPc.Inside]) rfl rfl
  · refine stay_of ?_ ?_
    · cases hevent : call_event r c t with
      | none => rfl
      | some e =>
        have hcall : e.call = c := by
          unfold call_event at hevent
          split at hevent <;> cases hevent <;> rfl
        exact filter_call_of_ne (hcall ▸ Ne.symm hd)
    · rw [State.stage, hworker, call_step_other hs hd]
      rfl

/-- What the worker thread reads in a `TecRPC` is what its message says. -/
theorem read_step (hs : ReadStep cfg r e t) (h : RpcInv args r) : WorkerStep cfg r.worker e t := by
  have htag : ∀ {c request}, r.worker.worker.taken = [some (.rpc c request)] →
      (r.worker.calls c).pc.Waiting → r.rpcs c = (args c).rpc c →
      r.tags (r.rpcs c).request = request := by
    intro c request htaken hwait hrpc
    rw [hrpc, h.held c request htaken]
    exact h.tag c (waiting_open hwait)
  cases hs with
  | dispatch_rpc hw _ => exact .dispatch_rpc hw rfl
  | @dispatch_msg c request hw hne =>
    obtain ⟨_, _, hrpc⟩ := h.stage_held (c := c) (by rw [hw]; rfl)
    rw [hrpc] at hne
    exact absurd rfl hne
  | @on_rpc c request callback hw hget =>
    obtain ⟨hwait, _, hrpc⟩ := h.stage_held (c := c) (by rw [hw]; rfl)
    rw [htag (by rw [hw]; rfl) hwait hrpc] at hget
    exact .on_rpc hw hget
  | @on_rpc_none c request hw hget =>
    obtain ⟨hwait, _, hrpc⟩ := h.stage_held (c := c) (by rw [hw]; rfl)
    rw [htag (by rw [hw]; rfl) hwait hrpc] at hget
    rw [hrpc]
    exact .on_rpc_none hw hget
  | @rpc_handled c request error hw =>
    obtain ⟨_, _, hrpc⟩ := h.stage_held (c := c) (by rw [hw]; rfl)
    rw [hrpc]
    exact .rpc_handled hw

/-- A caller that goes on with its call has not returned. -/
theorem call_step_open (hs : CallStep c s e t) (hidle : (s.calls c).pc ≠ .idle) :
    (s.calls c).pc.Open := by
  cases hs with
  | init hc => exact absurd hc hidle
  | push hc | wait_load hc | wait_lock hc _ | wait_check hc | wait_sleep hc | wake hc
  | woken hc _ | wait_unlock hc | signal_done hc | «return» hc =>
    rw [hc]
    trivial

theorem rpcInv_step {x : Event Cb × Option (RpcEvent Cb)} (hs : RpcStep cfg args r x r')
    (h : RpcInv args r) : RpcInv args r' := by
  cases hs with
  | read hs => exact rpcInv_worker_step (read_step hs h) h
  | worker hs => exact rpcInv_worker_step hs h
  | @init c hidle hshared =>
    refine rpcInv_call_step (.init hidle) h ?_ (fun _ => Function.update_self _ _ _)
      (fun d hd => Function.update_of_ne hd _ _) ?_
    · intro request hpush
      simp only [State.setCall, Function.update_self] at hpush
      exact (CallPc.push.inj hpush).symm
    · intro d hopen
      by_cases hsame : (args d).request = (args c).request
      · rw [hsame, Function.update_self]
        by_cases hdc : d = c
        · rw [hdc]
        · simp only [State.setCall, Function.update_of_ne hdc] at hopen
          exact (hshared d hopen hsame).symm
      · have hdc : d ≠ c := by
          rintro rfl
          exact hsame rfl
        simp only [State.setCall, Function.update_of_ne hdc] at hopen
        rw [Function.update_of_ne hsame]
        exact h.tag d hopen
  | @call c e t hs hidle =>
    refine rpcInv_call_step hs h ?_ (fun _ => h.rpc c hidle) (fun _ _ => rfl) ?_
    · intro request hpush
      exact absurd ((call_step_cases hs).2.2.2.2 request hpush) hidle
    · intro d hopen
      by_cases hdc : d = c
      · subst hdc
        exact h.tag d (call_step_open hs hidle)
      · rw [call_step_other hs hdc] at hopen
        exact h.tag d hopen
  | control hs => exact rpcInv_control_step hs h

theorem rpcInv_initial (hr : r.worker = TecWorker_init cfg) : RpcInv args r := by
  refine ⟨hr ▸ pending_initial, ?_, ?_, ?_, ?_, ?_, ?_, ?_⟩
  all_goals rw [hr]
  · intro c hread
    exact hread.elim
  · intro c hvalue
    cases hvalue
  · intro c request hpush
    cases hpush
  · intro c request hmem
    cases hmem
  · intro c request htaken
    cases htaken
  · intro c hidle
    exact absurd rfl hidle
  · intro c hopen
    exact hopen.elim

/-- Each step of the system moves each call along its stages. -/
theorem stage_step {x : Event Cb × Option (RpcEvent Cb)} (hs : RpcStep cfg args r x r')
    (h : RpcInv args r)
    (hget : ∀ tag, Map.TecMap_get cfg.hash_str r.worker.callbacks tag = .ok (f tag)) (d : Nat) :
    StageStep (f (args d).tag) ((args d).rpc d) d (r.worker.stage d)
      (x.2.filter fun e => e.call = d) (r'.worker.stage d) := by
  cases hs with
  | read hs => exact stage_worker_step (read_step hs h) h hget d
  | worker hs => exact stage_worker_step hs h hget d
  | @init c hidle hshared =>
    refine stay_of rfl ?_
    by_cases hd : d = c
    · subst hd
      simp only [State.stage, stageOf, hidle, State.setCall, Function.update_self]
    · simp only [State.stage, State.setCall, Function.update_of_ne hd]
  | call hs hidle => exact stage_call_step hs hidle h
  | control hs =>
    refine stay_of rfl ?_
    rw [State.stage, control_step_calls hs]
    rcases control_step_worker hs with hw | ⟨hrun, hw⟩
    · rw [hw]
      rfl
    · refine stageOf_congr (.inl rfl) rfl rfl ?_ ?_
      · simp [hw, h.pending.created (.inr hrun)]
      · simp [hw, h.pending.created (.inr hrun), WorkerPc.handling]

/-- The labels of the steps hide no step of the worker. -/
theorem rpc_step {x : Event Cb × Option (RpcEvent Cb)} (hs : RpcStep cfg args r x r')
    (h : RpcInv args r) : Step cfg r.worker x.1 r'.worker := by
  cases hs with
  | read hs => exact .worker (read_step hs h)
  | worker hs => exact .worker hs
  | @init c hidle _ => exact .call c (.init hidle)
  | call hs => exact .call _ hs
  | control hs => exact control_step hs

/-- No call is answered before the worker thread exists. -/
theorem stage_absent (h : RpcInv args r) (habsent : r.worker.worker = .absent) (d : Nat) :
    r.worker.stage d = .ahead ∨ r.worker.stage d = .queued := by
  have hvalue : (r.worker.calls d).value = false := by
    cases hv : (r.worker.calls d).value with
    | false => rfl
    | true => exact absurd habsent (h.started d hv)
  by_cases hin : (r.worker.calls d).pc.Inside
  · right
    rw [State.stage, stageOf_inside hin, hvalue, habsent]
    rfl
  · left
    cases hpc : (r.worker.calls d).pc with
    | idle => rw [State.stage, stageOf, hpc]
    | push request => rw [State.stage, stageOf, hpc]
    | returned error => cases hvalue.symm.trans (h.read d (by rw [hpc]; trivial))
    | _ => simp [hpc, CallPc.Inside] at hin

theorem transcript_snoc (d : Nat) (xs : List (Event Cb × Option (RpcEvent Cb)))
    (x : Event Cb × Option (RpcEvent Cb)) :
    transcript d (xs ++ [x]) = transcript d xs ++ (x.2.filter fun e => e.call = d).toList := by
  obtain ⟨e, event⟩ := x
  cases event with
  | none => simp [transcript]
  | some event =>
    by_cases hd : event.call = d <;> simp [transcript, Option.filter, List.filterMap_append, hd]

/-- The transcript of each call is the one of its stage. -/
theorem told_history {xs : List (Event Cb × Option (RpcEvent Cb))}
    (h : (rpcLts Cb cfg args).History xs r) :
    RpcInv args r ∧ Table cfg (xs.map Prod.fst) r.worker ∧
      ∀ d, Told (lastRegistered (xs.map Prod.fst) (args d).tag) ((args d).rpc d) d
        (r.worker.stage d) (transcript d xs) := by
  refine h.induction (P := fun xs r => RpcInv args r ∧ Table cfg (xs.map Prod.fst) r.worker ∧
      ∀ d, Told (lastRegistered (xs.map Prod.fst) (args d).tag) ((args d).rpc d) d
        (r.worker.stage d) (transcript d xs)) ?_ ?_
  · intro r hr
    refine ⟨rpcInv_initial hr, ?_, ?_⟩
    · rw [show r.worker = TecWorker_init cfg from hr]
      exact Map.TecMap_init_refines cfg.hash_str cfg.hash_table_size
    · intro d
      rw [show r.worker = TecWorker_init cfg from hr]
      rfl
  · rintro xs r x r' hhist ⟨hinv, htable, htold⟩ hs
    have hinv' := rpcInv_step hs hinv
    obtain ⟨htable', hregister⟩ := table_step (rpc_step hs hinv) htable
    rw [List.map_append]
    refine ⟨hinv', htable', ?_⟩
    intro d
    have htold' := told_step (stage_step hs hinv (table_get htable) d) (htold d)
    rw [← transcript_snoc] at htold'
    rcases hregister with hsame | hidle
    · rw [show lastRegistered (xs.map Prod.fst ++ [x].map Prod.fst) = _ from hsame]
      exact htold'
    · rcases stage_absent hinv' (hinv'.pending.created (.inl hidle)) d with hstage | hstage
      · rw [hstage] at htold' ⊢
        exact htold'
      · rw [hstage] at htold' ⊢
        exact htold'

end Step

/-- A call that returns has gone through the handler of its request once, with its own `TecRPC`,
and returns the error that the handler left there, where it found 0; or there is no handler, and
it returns that. Its signal is set once, behind all of this. -/
theorem rpc_correspondence (cfg : Config) (args : Nat → RpcArgs)
    (xs : List (Event Cb × Option (RpcEvent Cb))) (r : RpcState Cb)
    (h : (rpcLts Cb cfg args).History xs r) (c : Nat) (result : Int)
    (hreturned : (r.worker.calls c).pc = .returned result) :
    ∃ rpc : TecRPC, rpc.tag = TecRPC_msg_ ∧ rpc.request = (args c).request ∧
      rpc.reply = (args c).reply ∧ rpc.sig_ready = c ∧
      ((∃ callback, lastRegistered (xs.map Prod.fst) (args c).tag = some callback ∧
        transcript c xs = [.push c rpc, .invoke callback c rpc 0, .complete c result,
          .set rpc.sig_ready, .return c result]) ∨
      (lastRegistered (xs.map Prod.fst) (args c).tag = none ∧
        result = TECC_ERR_HANDLER_NOT_FOUND ∧
        transcript c xs = [.push c rpc, .set rpc.sig_ready, .return c result])) := by
  refine ⟨(args c).rpc c, rfl, rfl, rfl, rfl, ?_⟩
  have htold := (told_history h).2.2 c
  rw [State.stage, stageOf, hreturned] at htold
  obtain ⟨answer, ⟨callback, hhandler, rfl⟩ | ⟨hhandler, hresult, rfl⟩, hes⟩ := htold
  · exact .inl ⟨callback, hhandler, hes⟩
  · exact .inr ⟨hhandler, hresult, hes⟩

/-- Two calls share a request. The handler leaves 5 in the one that is pushed first, and that call
reads its answer while the other is handled. -/
theorem rpc_correspondence_handled :
    ∃ (xs : List (Event Nat × Option (RpcEvent Nat))) (r : RpcState Nat) (rpc : TecRPC)
      (callback : Nat), (rpcLts Nat bareConfig fun c => ⟨100, 200 + c, "add"⟩).History xs r ∧
        (r.worker.calls 1).pc = .returned 5 ∧ r.worker.worker = .callback (.rpc 0 "add") ∧
        rpc.tag = "TecRPC" ∧ rpc.request = 100 ∧ rpc.reply = 201 ∧ rpc.sig_ready = 1 ∧
        transcript 1 xs = [.push 1 rpc, .invoke callback 1 rpc 0, .complete 1 5, .set 1,
          .return 1 5] := by
  obtain ⟨xs, r, h, hreturned, hworker⟩ :
      ∃ (xs : List (Event Nat × Option (RpcEvent Nat))) (r : RpcState Nat),
        (rpcLts Nat bareConfig fun c => ⟨100, 200 + c, "add"⟩).History xs r ∧
          (r.worker.calls 1).pc = .returned 5 ∧ r.worker.worker = .callback (.rpc 0 "add") := by
    let args : Nat → RpcArgs := fun c => ⟨100, 200 + c, "add"⟩
    have h0 : (rpcLts Nat bareConfig args).History []
        ⟨TecWorker_init bareConfig, fun _ => ⟨"", 0, 0, 0⟩, fun _ => ""⟩ := .init rfl
    have h1 := h0.snoc (.control (.inr (.inr
      (@UserStep.register _ _ _ "add" 7 3 _ _ rfl rfl rfl rfl))))
    have h2 := h1.snoc (@RpcStep.init _ _ _ _ 1 rfl fun _ _ _ => rfl)
    have h3 := h2.snoc (@RpcStep.init _ _ _ _ 0 rfl fun _ _ _ => rfl)
    have h4 := h3.snoc (@RpcStep.call _ _ _ _ 1 _ _ (.push rfl) nofun)
    have h5 := h4.snoc (@RpcStep.call _ _ _ _ 0 _ _ (.push rfl) nofun)
    have h6 := h5.snoc (.control (.inl (.lock rfl rfl)))
    have h7 := h6.snoc (.control (.inl (.create rfl)))
    have h8 := h7.snoc (.worker (.on_init rfl) rfl)
    have h9 := h8.snoc (.worker (.set_running rfl) rfl)
    have h10 := h9.snoc (.worker (.test_error rfl) rfl)
    have h11 := h10.snoc (.worker (.pop rfl rfl) rfl)
    have h12 := h11.snoc (.read (.dispatch_rpc rfl rfl))
    have h13 := h12.snoc (.read (.on_rpc rfl rfl))
    have h14 := h13.snoc (.read (@ReadStep.rpc_handled _ _ _ _ _ 5 rfl))
    have h15 := h14.snoc (.worker (.set_store rfl) rfl)
    have h16 := h15.snoc (.worker (.set_lock rfl rfl) rfl)
    have h17 := h16.snoc (.worker (.set_broadcast rfl) rfl)
    have h18 := h17.snoc (.worker (.set_unlock rfl) rfl)
    have h19 := h18.snoc (.worker (.pop rfl rfl) rfl)
    have h20 := h19.snoc (.read (.dispatch_rpc rfl rfl))
    have h21 := h20.snoc (.read (.on_rpc rfl rfl))
    have h22 := h21.snoc (@RpcStep.call _ _ _ _ 1 _ _ (.wait_load rfl) nofun)
    have h23 := h22.snoc (@RpcStep.call _ _ _ _ 1 _ _ (.signal_done rfl) nofun)
    have h24 := h23.snoc (@RpcStep.call _ _ _ _ 1 _ _ (.return rfl) nofun)
    exact ⟨_, _, h24, rfl, rfl⟩
  obtain ⟨rpc, htag, hrequest, hreply, hsig, ⟨callback, _, htold⟩ | ⟨_, hresult, _⟩⟩ :=
    rpc_correspondence bareConfig _ xs r h 1 5 hreturned
  · rw [hsig] at htold
    exact ⟨xs, r, rpc, callback, h, hreturned, hworker, htag, hrequest, hreply, hsig, htold⟩
  · exact absurd hresult (by decide)

end Tecc.Worker
