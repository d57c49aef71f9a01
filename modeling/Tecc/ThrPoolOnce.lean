import Tecc.ThrPoolThreads
import Tecc.Lib.Fifo

/-! The thread of a node executes the tasks of its queue in order, each one once and with the
arguments that its caller stored, and `TecThrPool_done` returns when it has executed those that
were pushed before. -/
namespace Tecc.ThrPool

open Machine Memory Arena Transition Fifo

variable {self : TecThrPool} {request : Nat → Request} {nelems : Nat} {s t : State} {e : Event}
  {xs ys zs : List Event} {c d n k : Nat}

/-- A step as an event of the queue of the node `n`. -/
def queueEvent (n : Nat) : Event → Fifo.Event (Option TaskRef)
  | .push k task => if k = n then .push task else .other
  | .pop k task => if k = n then .pop task else .other
  | _ => .other

/-- All that was pushed on the queue of the node, NULL included. -/
def pushes (n : Nat) (xs : List Event) : List (Option TaskRef) := Fifo.pushed (queueEvent n) xs

def pops (n : Nat) (xs : List Event) : List (Option TaskRef) := Fifo.popped (queueEvent n) xs

/-- The calls of task functions by the thread of the node. -/
def called (n : Nat) (xs : List Event) : List (TaskRef × TaskArgs) :=
  xs.filterMap fun e => match e with
    | .call k task args _ => if k = n then some (task, args) else none
    | _ => none

/-- The task functions that returned. -/
def returned (n : Nat) (xs : List Event) : List TaskRef :=
  xs.filterMap fun e => match e with
    | .return k task => if k = n then some task else none
    | _ => none

/-- The task has a function. -/
def Runs (request : Nat → Request) (task : TaskRef) : Bool := (request task.call).task_func ≠ 0

/-- What the call `c` stores in a task of the node `n`. -/
def enqueued_args (self : TecThrPool) (request : Nat → Request) (n c : Nat) : TaskArgs where
  task_func := (request c).task_func.toNat
  payload := self.task_payload n
  buffer := self.task_buffer n
  buffer_size := self.task_buffer_size
  args := (request c).args.toNat

/-- The tasks with a function, with their arguments. -/
def executions (self : TecThrPool) (request : Nat → Request) (n : Nat) (l : List TaskRef) :
    List (TaskRef × TaskArgs) :=
  (l.filter (Runs request)).map fun task => (task, enqueued_args self request n task.call)

/-- What the thread has taken from the queue and not finished. -/
def ThreadPc.taken : ThreadPc → List (Option TaskRef)
  | .test task | .running task | .release task => [some task]
  | .set_terminated | .exited => [none]
  | _ => []

/-- The task at hand, where its function is called if there is one. -/
def ThreadPc.called : ThreadPc → List TaskRef
  | .running task | .release task => [task]
  | _ => []

def ThreadPc.finished : ThreadPc → List TaskRef
  | .release task => [task]
  | _ => []

structure Progress (pool : TecThrPool) (request : Nat → Request) (n : Nat) (xs : List Event)
    (pc : ThreadPc) (finished : List TaskRef) : Prop where
  pops : pops n xs = finished.map some ++ pc.taken
  called : called n xs = executions pool request n (finished ++ pc.called)
  returned : returned n xs = (finished ++ pc.finished).filter (Runs request)
  running : ∀ task, pc = .running task → Runs request task = true

theorem pushes_snoc (n : Nat) (xs : List Event) (e : Event) :
    pushes n (xs ++ [e]) = pushes n xs ++ match queueEvent n e with
      | .push task => [task]
      | _ => [] := by
  rw [pushes, Fifo.pushed_append]
  congr 1
  cases h : queueEvent n e <;> simp [Fifo.pushed, h]

theorem pops_snoc (n : Nat) (xs : List Event) (e : Event) :
    pops n (xs ++ [e]) = pops n xs ++ match queueEvent n e with
      | .pop task => [task]
      | _ => [] := by
  rw [pops, Fifo.popped_append]
  congr 1
  cases h : queueEvent n e <;> simp [Fifo.popped, h]

theorem called_append (n : Nat) (xs ys : List Event) :
    called n (xs ++ ys) = called n xs ++ called n ys := List.filterMap_append

theorem returned_append (n : Nat) (xs ys : List Event) :
    returned n (xs ++ ys) = returned n xs ++ returned n ys := List.filterMap_append

/-- The event is none of the thread of the node. -/
def Event.Foreign (n : Nat) : Event → Prop
  | .pop k _ | .call k _ _ _ | .return k _ => k ≠ n
  | _ => True

theorem foreign_snoc (xs : List Event) (h : e.Foreign n) :
    pops n (xs ++ [e]) = pops n xs ∧ called n (xs ++ [e]) = called n xs ∧
      returned n (xs ++ [e]) = returned n xs := by
  rw [pops_snoc, called_append, returned_append]
  cases e with
  | push k task => by_cases hk : k = n <;> simp [queueEvent, hk, ThrPool.called, ThrPool.returned]
  | pop k task =>
    have hk : k ≠ n := h
    simp [queueEvent, hk, ThrPool.called, ThrPool.returned]
  | call k task args bytes =>
    have hk : k ≠ n := h
    simp [queueEvent, hk, ThrPool.called, ThrPool.returned]
  | «return» k task =>
    have hk : k ≠ n := h
    simp [queueEvent, hk, ThrPool.called, ThrPool.returned]
  | _ => simp [queueEvent, ThrPool.called, ThrPool.returned]

/-- A pending task has all of its members. -/
theorem args_of_pending (h : PoolInv self request s) (hopen : (s.nodes n).destroyed = false)
    {r : TaskRef} (hr : r ∈ (s.nodes n).tasks) :
    TecTask_args_of s.mem r.task = enqueued_args self request n r.call := by
  have hactive : s.Active n r.call := .inr (List.mem_map_of_mem hr)
  obtain ⟨hpc, _, htask⟩ := h.tasks.pushed n r hr
  have hload : ∀ i o v, i < 5 → (fields self request r.call n)[i]? = some (o, v) →
      load s.mem (r.task + o) 8 = v := by
    intro i o v hi hfield
    rw [← htask]
    refine h.tasks.load_field hopen hactive ?_ hfield
    rw [hpc]
    exact hi
  rw [TecTask_args_of, enqueued_args, hload 0 _ _ (by decide) rfl, hload 1 _ _ (by decide) rfl,
    hload 2 _ _ (by decide) rfl, hload 3 _ _ (by decide) rfl, hload 4 _ _ (by decide) rfl]

theorem runs_iff (self : TecThrPool) (n : Nat) {r : TaskRef} :
    Runs request r = true ↔ (enqueued_args self request n r.call).task_func ≠ 0 := by
  rw [Runs, decide_eq_true_iff, enqueued_args, ne_eq, ne_eq, ← UInt64.toNat_inj]
  exact Iff.rfl

theorem executions_append (l l' : List TaskRef) :
    executions self request n (l ++ l') =
      executions self request n l ++ executions self request n l' := by
  simp [executions]

/-- What a step of its own thread does to the progress of a node. -/
theorem progress_thread_step (hs : ThreadStep self n s e t) (hinv : PoolInv self request s)
    {finished : List TaskRef} (h : Progress self request n xs (s.nodes n).pc finished) :
    ∃ finished', Progress self request n (xs ++ [e]) (t.nodes n).pc finished' := by
  obtain ⟨hpops, hcalled, hreturned, hrunning⟩ := h
  have hopen := hinv.control.open_of_running (thread_step_cases hs).before
  have hpops' := pops_snoc n xs e
  have hcalled' := called_append n xs [e]
  have hreturned' := returned_append n xs [e]
  rw [hpops] at hpops'
  rw [hcalled] at hcalled'
  rw [hreturned] at hreturned'
  have hargs : ∀ task, (s.nodes n).pc = .test task →
      TecTask_args_of s.mem task.task = enqueued_args self request n task.call := by
    intro task hpc
    refine args_of_pending hinv hopen ?_
    rw [TecTaskNode.tasks, hpc]
    exact List.mem_cons_self
  cases hs with
  | @pop task q hn hq =>
    refine ⟨finished, ?_, ?_, ?_, ?_⟩
    · rw [hpops']
      simp [hn, ThreadPc.taken, queueEvent]
    · rw [hcalled']
      simp [hn, ThreadPc.called, ThrPool.called]
    · rw [hreturned']
      simp [hn, ThreadPc.finished, ThrPool.returned]
    · simp
  | @pop_null q hn hq =>
    refine ⟨finished, ?_, ?_, ?_, ?_⟩
    · rw [hpops']
      simp [hn, ThreadPc.taken, queueEvent]
    · rw [hcalled']
      simp [hn, ThreadPc.called, ThrPool.called]
    · rw [hreturned']
      simp [hn, ThreadPc.finished, ThrPool.returned]
    · simp
  | @call task hn hfunc =>
    have hargs := hargs task hn
    have hruns : Runs request task = true := by
      rw [runs_iff self n, ← hargs]
      exact hfunc
    refine ⟨finished, ?_, ?_, ?_, ?_⟩
    · rw [hpops']
      simp [hn, ThreadPc.taken, queueEvent]
    · rw [hcalled', hargs]
      simp [hn, ThreadPc.called, ThrPool.called, executions, hruns]
    · rw [hreturned']
      simp [hn, ThreadPc.finished, ThrPool.returned]
    · intro task' hpc
      simp only [setNode_self, ThreadPc.running.injEq] at hpc
      exact hpc ▸ hruns
  | @skip task hn hfunc =>
    have hruns : Runs request task = false := by
      rw [Bool.eq_false_iff, ne_eq, runs_iff self n, ← hargs task hn]
      exact fun hne => hne hfunc
    refine ⟨finished, ?_, ?_, ?_, ?_⟩
    · rw [hpops']
      simp [hn, ThreadPc.taken, queueEvent]
    · rw [hcalled']
      simp [hn, ThreadPc.called, ThrPool.called, executions, hruns]
    · rw [hreturned']
      simp [hn, ThreadPc.finished, ThrPool.returned, hruns]
    · simp
  | @write task a byte hn ha =>
    refine ⟨finished, ?_, ?_, ?_, hrunning⟩
    · rw [hpops']
      simp [queueEvent]
    · rw [hcalled']
      simp [ThrPool.called]
    · rw [hreturned']
      simp [ThrPool.returned]
  | @«return» task hn =>
    have hruns := hrunning task hn
    refine ⟨finished, ?_, ?_, ?_, ?_⟩
    · rw [hpops']
      simp [hn, ThreadPc.taken, queueEvent]
    · rw [hcalled']
      simp [hn, ThreadPc.called, ThrPool.called]
    · rw [hreturned']
      simp [hn, ThreadPc.finished, ThrPool.returned, hruns]
    · simp
  | @release task arena m freed hn hr =>
    refine ⟨finished ++ [task], ?_, ?_, ?_, ?_⟩
    · rw [hpops']
      simp [hn, ThreadPc.taken, queueEvent]
    · rw [hcalled']
      simp [hn, ThreadPc.called, ThrPool.called]
    · rw [hreturned']
      simp [hn, ThreadPc.finished, ThrPool.returned]
    · simp
  | set_terminated hn =>
    refine ⟨finished, ?_, ?_, ?_, ?_⟩
    · rw [hpops']
      simp [hn, ThreadPc.taken, queueEvent]
    · rw [hcalled']
      simp [hn, ThreadPc.called, ThrPool.called]
    · rw [hreturned']
      simp [hn, ThreadPc.finished, ThrPool.returned]
    · simp

/-- A step of anyone but the thread of the node: it creates that thread at most. -/
theorem foreign_step (hs : Step self request s e t) (hcontrol : Control self s)
    (hn : ¬ ThreadStep self n s e t) : e.Foreign n ∧ ((t.nodes n).pc = (s.nodes n).pc ∨
      (s.nodes n).pc = .absent ∧ (t.nodes n).pc = .pop) := by
  have hnode : ∀ k node, node.pc = (s.nodes k).pc →
      (Function.update s.nodes k node n).pc = (s.nodes n).pc := by
    intro k node hpc
    by_cases hk : n = k
    · subst hk
      rw [Function.update_self]
      exact hpc
    · rw [Function.update_of_ne hk]
  cases hs with
  | enqueue c hs hopen =>
    refine ⟨?_, .inl ((enqueue_step_cases hs).pc n)⟩
    cases hs <;> trivial
  | thread k hs =>
    have hk : k ≠ n := by
      rintro rfl
      exact hn hs
    refine ⟨?_, .inl ?_⟩
    · cases hs with
      | pop | pop_null | call | «return» => exact hk
      | _ => trivial
    · rw [(thread_step_cases hs).nodes n (Ne.symm hk)]
  | run hs =>
    cases hs with
    | @create k hr hk =>
      refine ⟨trivial, ?_⟩
      by_cases hkn : n = k
      · subst hkn
        refine .inr ⟨(hcontrol.nodes n).fresh (by rw [hr]; exact Nat.le_refl n), ?_⟩
        simp
      · exact .inl (congrArg TecTaskNode.pc (Function.update_of_ne hkn _ _))
    | @create_failed k result hr hk hresult => exact ⟨trivial, .inl (hnode k _ rfl)⟩
    | _ => exact ⟨trivial, .inl rfl⟩
  | done hs =>
    cases hs with
    | @push k hd hk hthr => exact ⟨trivial, .inl (hnode k _ rfl)⟩
    | @join k hd hpc => exact ⟨trivial, .inl (hnode k _ rfl)⟩
    | @destroy k hd => exact ⟨trivial, .inl (hnode k _ rfl)⟩
    | _ => exact ⟨trivial, .inl rfl⟩

/-- A task that runs has been running, or its function has just been called. -/
theorem running_step (hs : Step self request s e t) (hinv : PoolInv self request s)
    {task : TaskRef} (h : (t.nodes n).pc = .running task) :
    (s.nodes n).pc = .running task ∨
      ∃ bytes, e = .call n task (enqueued_args self request n task.call) bytes ∧
        (s.nodes n).pc = .test task := by
  by_cases hown : ThreadStep self n s e t
  · cases hown with
    | @call r hn hfunc =>
      right
      obtain rfl : r = task := by simpa using h
      have hopen := hinv.control.open_of_running (n := n) (by rw [hn]; exact fun h => h)
      have hargs := args_of_pending hinv hopen (TaskInv.task_mem (by rw [hn]; rfl))
      exact ⟨_, by rw [hargs], hn⟩
    | write hn ha => exact .inl h
    | _ =>
      rw [setNode_self] at h
      cases h
  · left
    rcases (foreign_step hs hinv.control hown).2 with hkept | ⟨_, hpop⟩
    · exact hkept.symm.trans h
    · cases hpop.symm.trans h

theorem progress_history (h : (poolLts self request nelems).History xs s) (n : Nat) :
    ∃ finished, Progress self request n xs (s.nodes n).pc finished := by
  refine h.induction
    (P := fun xs s => ∃ finished, Progress self request n xs (s.nodes n).pc finished) ?_ ?_
  · intro s hi
    obtain ⟨m, calloc, rfl⟩ := hi.state
    exact ⟨[], rfl, rfl, rfl, fun _ hpc => (by cases hpc)⟩
  · rintro xs s e t hhist ⟨finished, hprogress⟩ hs
    have hinv := poolInv_reachable hhist.reachable
    by_cases hthread : ThreadStep self n s e t
    · exact progress_thread_step hthread hinv hprogress
    · obtain ⟨hforeign, hpc⟩ := foreign_step hs hinv.control hthread
      obtain ⟨hpops, hcalled, hreturned⟩ := foreign_snoc xs hforeign
      refine ⟨finished, ?_, ?_, ?_, ?_⟩
      · rw [hpops, hprogress.pops]
        rcases hpc with hpc | ⟨habsent, hpop⟩
        · rw [hpc]
        · rw [habsent, hpop]
          rfl
      · rw [hcalled, hprogress.called]
        rcases hpc with hpc | ⟨habsent, hpop⟩
        · rw [hpc]
        · rw [habsent, hpop]
          rfl
      · rw [hreturned, hprogress.returned]
        rcases hpc with hpc | ⟨habsent, hpop⟩
        · rw [hpc]
        · rw [habsent, hpop]
          rfl
      · rcases hpc with hpc | ⟨_, hpop⟩
        · rw [hpc]
          exact hprogress.running
        · rw [hpop]
          exact fun _ hrun => (by cases hrun)

/-- Each step acts on the queue of the node as a FIFO event. -/
theorem queue_step (hs : Step self request s e t) (n : Nat) :
    Fifo.Step (s.nodes n).q (queueEvent n e) (t.nodes n).q := by
  have hkept : ∀ k node, node.q = (s.nodes k).q →
      Fifo.Step (s.nodes n).q .other (Function.update s.nodes k node n).q := by
    intro k node hq
    by_cases hk : n = k
    · subst hk
      rw [Function.update_self, hq]
      exact .other
    · rw [Function.update_of_ne hk]
      exact .other
  have hpush : ∀ k task node, node.q = (s.nodes k).q ++ [task] →
      Fifo.Step (s.nodes n).q (queueEvent n (.push k task))
        (Function.update s.nodes k node n).q := by
    intro k task node hq
    by_cases hk : n = k
    · subst hk
      rw [Function.update_self, hq, queueEvent, if_pos rfl]
      exact .push
    · rw [Function.update_of_ne hk, queueEvent, if_neg (Ne.symm hk)]
      exact .other
  have hpop : ∀ k task q node, (s.nodes k).q = task :: q → node.q = q →
      Fifo.Step (s.nodes n).q (queueEvent n (.pop k task))
        (Function.update s.nodes k node n).q := by
    intro k task q node hq hnode
    by_cases hk : n = k
    · subst hk
      rw [Function.update_self, hq, hnode, queueEvent, if_pos rfl]
      exact .pop
    · rw [Function.update_of_ne hk, queueEvent, if_neg (Ne.symm hk)]
      exact .other
  cases hs with
  | enqueue c hs hopen =>
    cases hs with
    | allocate => exact hkept _ _ rfl
    | push => exact hpush _ _ _ rfl
    | _ => exact .other
  | thread k hs =>
    cases hs with
    | pop hn hq => exact hpop _ _ _ _ hq rfl
    | pop_null hn hq => exact hpop _ _ _ _ hq rfl
    | write => exact .other
    | _ => exact hkept _ _ rfl
  | run hs =>
    cases hs with
    | create => exact hkept _ _ rfl
    | create_failed => exact hkept _ _ rfl
    | _ => exact .other
  | done hs =>
    cases hs with
    | push => exact hpush _ _ _ rfl
    | join => exact hkept _ _ rfl
    | destroy => exact hkept _ _ rfl
    | _ => exact .other

/-- A task in a queue stays there until the thread of the node takes it. -/
theorem queued_step (hs : Step self request s e t) {task : TaskRef}
    (hq : some task ∈ (s.nodes n).q) :
    some task ∈ (t.nodes n).q ∨ (t.nodes n).pc = .test task := by
  have hstep := queue_step hs n
  generalize hevent : queueEvent n e = event at hstep
  generalize hold : (s.nodes n).q = old at hstep hq
  generalize hnew : (t.nodes n).q = new at hstep
  cases hstep with
  | push => exact .inl (List.mem_append_left _ hq)
  | other => exact .inl hq
  | @pop _ x =>
    rcases List.mem_cons.mp hq with rfl | hq
    · right
      cases e with
      | pop k x =>
        by_cases hk : k = n
        · subst hk
          rw [queueEvent, if_pos rfl] at hevent
          cases hevent
          cases hs with
          | thread k hs =>
            cases hs with
            | pop => simp
          | enqueue c hs => cases hs
          | run hs => cases hs
          | done hs => cases hs
        · rw [queueEvent, if_neg hk] at hevent
          cases hevent
      | push k x =>
        rw [queueEvent] at hevent
        split at hevent <;> cases hevent
      | _ => cases hevent
    · exact .inl hq

theorem queue_balance (h : (poolLts self request nelems).History xs s) (n : Nat) :
    pushes n xs = pops n xs ++ (s.nodes n).q := by
  obtain ⟨l, rfl, hb⟩ := Fifo.history_balance (queueEvent n) (fun s l => (s.nodes n).q = l)
    (fun s hi => by
      obtain ⟨m, calloc, rfl⟩ := hi.state
      rfl)
    (fun s l e t hl hs => by
      subst hl
      exact ⟨(t.nodes n).q, rfl, queue_step hs n⟩) h
  exact hb

/-- The call whose task an event pushes. -/
def Event.pushedCall : Event → Option Nat
  | .push _ task => task.map TaskRef.call
  | _ => none

/-- The call whose task function an event calls. -/
def Event.calledCall : Event → Option Nat
  | .call _ task _ _ => some task.call
  | _ => none

/-- A call that has returned stays so. -/
theorem returned_step (hs : Step self request s e t) (hc : (s.calls c).pc = .returned) :
    t.calls c = s.calls c := by
  cases hs with
  | enqueue d hs hopen =>
    by_cases hcd : c = d
    · subst hcd
      cases hs <;> simp_all
    · exact (enqueue_step_cases hs).calls c hcd
  | thread n hs => rw [(thread_step_cases hs).calls]
  | run hs => cases hs <;> rfl
  | done hs => cases hs <;> rfl

/-- Each call pushes its task at most once. -/
theorem pushed_once (h : (poolLts self request nelems).History xs s) :
    (xs.filterMap Event.pushedCall).Nodup ∧
      ∀ c ∈ xs.filterMap Event.pushedCall, (s.calls c).pc = .returned := by
  refine h.once Event.pushedCall (fun s c => (s.calls c).pc = .returned) ?_
  intro xs s e t _ hs
  refine ⟨fun c hc => (returned_step hs hc).symm ▸ hc, ?_⟩
  intro c hc
  cases hs with
  | enqueue d hs hopen =>
    cases hs with
    | push hpc =>
      cases hc
      refine ⟨?_, by simp⟩
      rw [hpc]
      exact EnqueuePc.noConfusion
    | _ => cases hc
  | thread n hs => cases hs <;> cases hc
  | run hs => cases hs <;> cases hc
  | done hs => cases hs <;> cases hc

/-- The task of the call waits for the thread of the node. -/
def TecTaskNode.Waits (node : TecTaskNode) (c : Nat) : Prop :=
  (∃ r, node.pc = .test r ∧ r.call = c) ∨ ∃ r, some r ∈ node.q ∧ r.call = c

theorem waits_tasks {node : TecTaskNode} (h : node.Waits c) : ∃ r ∈ node.tasks, r.call = c := by
  rcases h with ⟨r, hpc, hr⟩ | ⟨r, hmem, hr⟩
  · refine ⟨r, ?_, hr⟩
    rw [TecTaskNode.tasks, hpc]
    exact List.mem_cons_self
  · refine ⟨r, List.mem_append_right _ ?_, hr⟩
    exact List.reduceOption_mem_iff.mpr hmem

/-- Nobody but its caller makes a task wait. -/
theorem waits_step (hs : Step self request s e t) (h : (t.nodes n).Waits c) :
    (s.nodes n).Waits c ∨ (s.calls c).pc = .push := by
  have hkept : ∀ k node, (Function.update s.nodes k node n).Waits c →
      (node.Waits c → (s.nodes k).Waits c) → (s.nodes n).Waits c := by
    intro k node hwaits hnode
    by_cases hk : n = k
    · subst hk
      rw [Function.update_self] at hwaits
      exact hnode hwaits
    · rw [Function.update_of_ne hk] at hwaits
      exact hwaits
  have hpassed : ∀ k pc, (∀ r, pc ≠ .test r) → ∀ node : TecTaskNode,
      node.pc = pc → (∀ r, some r ∈ node.q → some r ∈ (s.nodes k).q) →
      node.Waits c → (s.nodes k).Waits c := by
    intro k pc hpc node hnode hq hwaits
    rcases hwaits with ⟨r, htest, _⟩ | ⟨r, hr, hrc⟩
    · exact absurd (hnode.symm.trans htest) (hpc r)
    · exact .inr ⟨r, hq r hr, hrc⟩
  cases hs with
  | enqueue d hs hopen =>
    cases hs with
    | allocate => exact .inl (hkept _ _ h id)
    | push hpc =>
      by_cases hcd : c = d
      · exact .inr (hcd ▸ hpc)
      · left
        refine hkept _ _ h ?_
        rintro (hwaits | ⟨r, hr, hrc⟩)
        · exact .inl hwaits
        · rcases List.mem_append.mp hr with hr | hr
          · exact .inr ⟨r, hr, hrc⟩
          · cases List.mem_singleton.mp hr
            exact absurd hrc.symm hcd
    | _ => exact .inl h
  | thread k hs =>
    left
    cases hs with
    | @pop task q hn hq =>
      refine hkept k _ h ?_
      rintro (⟨r, hpc, hrc⟩ | ⟨r, hr, hrc⟩)
      · cases hpc
        exact .inr ⟨task, hq ▸ List.mem_cons_self, hrc⟩
      · exact .inr ⟨r, hq ▸ List.mem_cons_of_mem _ hr, hrc⟩
    | @pop_null q hn hq =>
      refine hkept k _ h (hpassed k _ (fun r => ThreadPc.noConfusion) _ rfl ?_)
      intro r hr
      exact hq ▸ List.mem_cons_of_mem _ hr
    | write => exact h
    | _ => exact hkept k _ h (hpassed k _ (fun r => ThreadPc.noConfusion) _ rfl (fun _ hr => hr))
  | run hs =>
    left
    cases hs with
    | @create k hr hk =>
      exact hkept k _ h (hpassed k _ (fun r => ThreadPc.noConfusion) _ rfl (fun _ hr => hr))
    | create_failed => exact hkept _ _ h id
    | _ => exact h
  | done hs =>
    left
    cases hs with
    | @push k hd hk hthr =>
      refine hkept k _ h ?_
      rintro (hwaits | ⟨r, hr, hrc⟩)
      · exact .inl hwaits
      · rcases List.mem_append.mp hr with hr | hr
        · exact .inr ⟨r, hr, hrc⟩
        · cases List.mem_singleton.mp hr
    | join => exact hkept _ _ h id
    | destroy => exact hkept _ _ h id
    | _ => exact h

/-- The task function of each call is called at most once, by whatever thread. -/
theorem called_once (h : (poolLts self request nelems).History xs s) :
    (xs.filterMap Event.calledCall).Nodup := by
  refine (h.once Event.calledCall
    (fun s c => (s.calls c).pc = .returned ∧ ∀ n, ¬ (s.nodes n).Waits c) ?_).1
  intro xs s e t hhist hs
  have hinv := poolInv_reachable hhist.reachable
  have hstays : ∀ c, (s.calls c).pc = .returned → ∀ n, (t.nodes n).Waits c →
      (s.nodes n).Waits c := by
    intro c hc n hwaits
    refine (waits_step hs hwaits).resolve_right ?_
    rw [hc]
    exact EnqueuePc.noConfusion
  refine ⟨?_, ?_⟩
  · rintro c ⟨hc, hnot⟩
    exact ⟨(returned_step hs hc).symm ▸ hc, fun n hwaits => hnot n (hstays c hc n hwaits)⟩
  · intro c hc
    cases hs with
    | thread n hs =>
      cases hs with
      | @call r hn hfunc =>
        cases hc
        have hpc : (s.nodes n).pc.task = some r := by rw [hn]; rfl
        obtain ⟨hreturned, hndx, _⟩ := hinv.tasks.pushed n r (TaskInv.task_mem hpc)
        refine ⟨fun hmarked => hmarked.2 n (.inl ⟨r, hn, rfl⟩), hreturned, ?_⟩
        intro k hwaits
        by_cases hk : k = n
        · subst hk
          simp only [setNode_self] at hwaits
          rcases hwaits with ⟨r', hpc', _⟩ | ⟨r', hr', hcall⟩
          · cases hpc'
          · exact hinv.tasks.task_not_queued hpc hr' hcall
        · rw [setNode_of_ne hk] at hwaits
          obtain ⟨r', hr', hcall⟩ := waits_tasks hwaits
          obtain ⟨_, hndx', _⟩ := hinv.tasks.pushed k r' hr'
          rw [hcall] at hndx'
          exact hk (hndx'.symm.trans hndx)
      | _ => cases hc
    | enqueue d hs hopen => cases hs <;> cases hc
    | run hs => cases hs <;> cases hc
    | done hs => cases hs <;> cases hc

/-- NULL is pushed by `TecThrPool_done`. -/
theorem null_step (hs : Step self request s e t) (hd : t.done = .idle) :
    s.done = .idle ∧ ∀ n, queueEvent n e ≠ .push none := by
  have hother : ∀ {e : Event}, (∀ k, e ≠ .push k none) → ∀ n, queueEvent n e ≠ .push none := by
    intro e he n heq
    cases e with
    | push k task =>
      by_cases hk : k = n
      · rw [queueEvent, if_pos hk] at heq
        cases heq
        exact he k rfl
      · rw [queueEvent, if_neg hk] at heq
        cases heq
    | pop k task => by_cases hk : k = n <;> simp [queueEvent, hk] at heq
    | _ => cases heq
  cases hs with
  | enqueue c hs hopen =>
    refine ⟨(enqueue_step_cases hs).done ▸ hd, hother fun k he => ?_⟩
    cases hs <;> cases he
  | thread n hs =>
    refine ⟨(thread_step_cases hs).done ▸ hd, hother fun k he => ?_⟩
    cases hs <;> cases he
  | run hs =>
    refine ⟨?_, hother fun k he => ?_⟩
    · cases hs <;> exact hd
    · cases hs <;> cases he
  | done hs => cases hs <;> cases hd

theorem null_history (h : (poolLts self request nelems).History xs s) (hd : s.done = .idle) :
    ∀ n, none ∉ pushes n xs := by
  refine h.induction (P := fun xs s => s.done = .idle → ∀ n, none ∉ pushes n xs) ?_ ?_ hd
  · intro s _ _ n hmem
    cases hmem
  · intro xs s e t _ ih hs hd n hmem
    obtain ⟨hold, hnull⟩ := null_step hs hd
    rw [pushes_snoc, List.mem_append] at hmem
    rcases hmem with hmem | hmem
    · exact ih hold n hmem
    · have hne := hnull n
      cases hq : queueEvent n e with
      | push task =>
        rw [hq] at hmem hne
        exact hne (by rw [List.mem_singleton.mp hmem])
      | _ =>
        rw [hq] at hmem
        cases hmem

/-- A thread that was created is there from then on. -/
theorem created_history (h : (poolLts self request nelems).History xs s) :
    ∀ n, .create n ∈ xs → n < self.nthreads ∧ (s.nodes n).pc ≠ .absent := by
  refine h.induction
    (P := fun xs s => ∀ n, .create n ∈ xs → n < self.nthreads ∧ (s.nodes n).pc ≠ .absent) ?_ ?_
  · intro s _ n hmem
    cases hmem
  · intro xs s e t hhist ih hs n hmem
    have hcontrol := (poolInv_reachable hhist.reachable).control
    rcases List.mem_append.mp hmem with hmem | hmem
    · obtain ⟨hlt, hpc⟩ := ih n hmem
      refine ⟨hlt, ?_⟩
      by_cases hthread : ThreadStep self n s e t
      · exact (thread_step_cases hthread).after
      · rcases (foreign_step hs hcontrol hthread).2 with hsame | ⟨habsent, _⟩
        · rw [hsame]
          exact hpc
        · exact absurd habsent hpc
    · cases List.mem_singleton.mp hmem
      cases hs with
      | enqueue c hs hopen => cases hs
      | thread k hs => cases hs
      | done hs => cases hs
      | run hs =>
        cases hs with
        | create hr hn => exact ⟨hn, by simp⟩

theorem reduceOption_of_null_free {l : List (Option TaskRef)} (h : none ∉ l) :
    l = l.reduceOption.map some := by
  induction l with
  | nil => rfl
  | cons x l ih =>
    rw [List.mem_cons, not_or] at h
    cases x with
    | none => exact absurd rfl h.1
    | some x =>
      rw [List.reduceOption_cons_of_some, List.map_cons, ← ih h.2]

theorem reduceOption_map_some (l : List TaskRef) : (l.map some).reduceOption = l := by
  induction l with
  | nil => rfl
  | cons x l ih => rw [List.map_cons, List.reduceOption_cons_of_some, ih]

/-- What the thread has called so far are the first tasks of the queue. -/
theorem called_start (h : (poolLts self request nelems).History xs s) (n : Nat) :
    called n xs <+: executions self request n (before_null (pushes n xs)) := by
  obtain ⟨finished, hprogress⟩ := progress_history h n
  rw [queue_balance h n, hprogress.pops, hprogress.called, List.append_assoc, before_null_append,
    executions_append, executions_append, List.prefix_append_right_inj]
  cases (s.nodes n).pc with
  | running task | release task =>
    refine ⟨executions self request n (before_null (s.nodes n).q), ?_⟩
    rw [← executions_append]
    rfl
  | _ => exact List.nil_prefix

/-- A thread at its end has called and finished all tasks ahead of NULL. -/
theorem called_exited (h : (poolLts self request nelems).History xs s)
    (hexited : (s.nodes n).pc = .exited) :
    called n xs = executions self request n (before_null (pushes n xs)) ∧
      returned n xs = (before_null (pushes n xs)).filter (Runs request) ∧
      pops n xs = (before_null (pushes n xs)).map some ++ [none] := by
  obtain ⟨finished, hprogress⟩ := progress_history h n
  have hnull : before_null (pushes n xs) = finished := by
    rw [queue_balance h n, hprogress.pops, List.append_assoc, before_null_append, hexited]
    exact List.append_nil finished
  refine ⟨?_, ?_, ?_⟩
  · rw [hnull, hprogress.called, hexited]
    exact congrArg (executions self request n) (List.append_nil finished)
  · rw [hnull, hprogress.returned, hexited]
    exact congrArg (List.filter (Runs request)) (List.append_nil finished)
  · rw [hnull, hprogress.pops, hexited]
    rfl

/-- When `TecThrPool_done` returns, every thread that was created is at its end. -/
theorem exited_of_done (h : (poolLts self request nelems).History xs s) (hd : s.done = .returned)
    (hn : .create n ∈ xs) : (s.nodes n).pc = .exited := by
  obtain ⟨hlt, hpc⟩ := created_history h n hn
  have hnode := (poolInv_reachable h.reachable).control.nodes n
  rw [hd] at hnode
  have hover := (hnode.destroyed (hnode.passed hlt)).1
  cases hcase : (s.nodes n).pc with
  | exited => rfl
  | absent => exact absurd hcase hpc
  | _ =>
    rw [hcase] at hover
    exact hover.elim

/-- The tasks of one node are among all that were pushed. -/
theorem pushes_sublist (n : Nat) (xs : List Event) :
    ((pushes n xs).reduceOption.map TaskRef.call).Sublist (xs.filterMap Event.pushedCall) := by
  induction xs with
  | nil => exact List.Sublist.slnil
  | cons e xs ih =>
    have hskip : (xs.filterMap Event.pushedCall).Sublist
        ((e :: xs).filterMap Event.pushedCall) :=
      (List.sublist_cons_self e xs).filterMap _
    cases e with
    | push k task =>
      by_cases hk : k = n
      · have hpushes : pushes n (.push k task :: xs) = task :: pushes n xs := by
          simp [pushes, Fifo.pushed, queueEvent, hk]
        rw [hpushes]
        cases task with
        | none => exact ih.trans hskip
        | some task => exact ih.cons_cons task.call
      · have hpushes : pushes n (.push k task :: xs) = pushes n xs := by
          simp [pushes, Fifo.pushed, queueEvent, hk]
        rw [hpushes]
        exact ih.trans hskip
    | pop k task =>
      have hpushes : pushes n (.pop k task :: xs) = pushes n xs := by
        by_cases hk : k = n <;> simp [pushes, Fifo.pushed, queueEvent, hk]
      rw [hpushes]
      exact ih.trans hskip
    | _ => exact ih.trans hskip

theorem pushes_nodup (h : (poolLts self request nelems).History xs s) (n : Nat) :
    (pushes n xs).reduceOption.Nodup :=
  ((pushed_once h).1.sublist (pushes_sublist n xs)).of_map

/-- What is pushed before `TecThrPool_done` begins is ahead of NULL. -/
theorem before_done (h : (poolLts self request nelems).History (ys ++ .done :: zs) s)
    {task : TaskRef} (hmem : .push n (some task) ∈ ys) :
    task ∈ before_null (pushes n (ys ++ .done :: zs)) := by
  obtain ⟨t, u, hhist, hstep, _⟩ := h.step_at
  have hidle : t.done = .idle := by
    cases hstep with
    | enqueue c hs hopen => cases hs
    | thread k hs => cases hs
    | run hs => cases hs
    | done hs =>
      cases hs with
      | enter hd hr => exact hd
  have hnull := reduceOption_of_null_free (null_history hhist hidle n)
  have hpushed : some task ∈ pushes n ys := by
    refine List.mem_filterMap.mpr ⟨_, hmem, ?_⟩
    simp [queueEvent]
  have hsplit : pushes n (ys ++ .done :: zs) = pushes n ys ++ pushes n (.done :: zs) :=
    Fifo.pushed_append _ _ _
  rw [hsplit, hnull, before_null_append]
  exact List.mem_append_left _ (List.reduceOption_mem_iff.mpr hpushed)

/-- The pool executes exactly once. On each node the calls of task functions are a prefix of the
tasks pushed ahead of NULL that have a function, in push order and with the arguments of their
callers, and no task is executed twice by whatever thread. When `TecThrPool_done` returns, each
thread that was created is at its end, and every task that was pushed on its node before has been
called once, has returned, and is not in the queue. -/
theorem pool_executes_exactly_once (self : TecThrPool) (nelems : Nat) (request : Nat → Request)
    (xs : List Event) (s : State) (h : (poolLts self request nelems).History xs s) :
    (∀ n, called n xs <+: executions self request n (before_null (pushes n xs))) ∧
      (xs.filterMap Event.calledCall).Nodup ∧
      (s.done = .returned → ∀ ys zs n, xs = ys ++ .done :: zs → .create n ∈ xs →
        (s.nodes n).pc = .exited ∧
          ∀ task, .push n (some task) ∈ ys → Runs request task = true →
            (called n xs).count (task, enqueued_args self request n task.call) = 1 ∧
              (returned n xs).count task = 1 ∧ some task ∉ (s.nodes n).q) := by
  refine ⟨called_start h, called_once h, ?_⟩
  intro hd ys zs n hxs hn
  have hexited := exited_of_done h hd hn
  obtain ⟨hcalled, hreturned, hpops⟩ := called_exited h hexited
  refine ⟨hexited, ?_⟩
  intro task htask hruns
  subst hxs
  have hmem := before_done h htask
  have hnodup := pushes_nodup h n
  have hfirst := hnodup.sublist (before_null_sublist _)
  refine ⟨?_, ?_, ?_⟩
  · rw [hcalled]
    refine List.count_eq_one_of_mem ?_ ?_
    · exact (hfirst.filter _).map (fun _ _ heq => (Prod.mk.inj heq).1)
    · exact List.mem_map.mpr ⟨task, List.mem_filter.mpr ⟨hmem, hruns⟩, rfl⟩
  · rw [hreturned]
    exact List.count_eq_one_of_mem (hfirst.filter _) (List.mem_filter.mpr ⟨hmem, hruns⟩)
  · intro hq
    have hbalance := queue_balance h n
    rw [hpops] at hbalance
    have hlist := congrArg List.reduceOption hbalance
    rw [List.reduceOption_append, List.reduceOption_append, reduceOption_map_some,
      List.reduceOption_singleton, Option.toList_none, List.append_nil] at hlist
    rw [hlist] at hnodup
    exact (List.nodup_append.mp hnodup).2.2 task hmem task (List.reduceOption_mem_iff.mpr hq) rfl

/-- A pool of one thread without buffers, payloads and preallocated tasks. -/
def barePool : TecThrPool := TecThrPool_init 1 0 0 0 0

def bareState : State :=
  ⟨0, fun _ => 0, fun _ => TecTaskNode_init 0 0, fun _ => ⟨.idle, 0, 0, fun _ => false⟩, .idle,
    .idle⟩

def bareRequest : Request := ⟨1, none, 7⟩

theorem bare_not_owned (n a : Nat) : ¬ (bareState.view n).Owned a := by
  rintro (⟨_, hhi⟩ | ⟨p, hp, _⟩)
  · exact absurd hhi (Nat.not_lt_zero a)
  · cases hp

/-- No pool has memory in common with nodes that have none. -/
theorem initial_bare {pool : TecThrPool} (hn : 0 < pool.nthreads)
    (hinit : ∃ buffers payloads, pool = TecThrPool_init pool.nthreads pool.buffer_size
      pool.payload_size buffers payloads)
    (hbuffers : pool.buffer_arena ≠ 0 →
      pool.buffer_arena + pool.nthreads * pool.buffer_size ≤ 18446744073709551616)
    (hpayloads : pool.payload_arena ≠ 0 →
      pool.payload_arena + pool.nthreads * pool.payload_size ≤ 18446744073709551616) :
    Initial pool 0 bareState := by
  refine ⟨hn, hinit, hbuffers, hpayloads, ⟨fun _ => 0, fun _ => 0, rfl⟩,
    fun n => ⟨0, fun _ => 0, rfl, .inl rfl⟩, ?_, ?_⟩
  · intro n k a _ hn
    exact absurd hn (bare_not_owned n a)
  · intro n a hn
    exact absurd hn (bare_not_owned n a)

theorem bare_initial : Initial barePool 0 bareState :=
  initial_bare Nat.one_pos ⟨0, 0, rfl⟩ (fun h => absurd rfl h) (fun h => absurd rfl h)

/-- A task below both arenas lies in neither. -/
theorem below_arenas {self : TecThrPool} {calloc a : Nat}
    (hbuffers : self.buffer_arena ≠ 0 → 65536 ≤ self.buffer_arena)
    (hpayloads : self.payload_arena ≠ 0 → 65536 ≤ self.payload_arena)
    (hcalloc : calloc + TecTask_size ≤ 65536) (_ : calloc ≤ a) (hhi : a < calloc + TecTask_size) :
    ¬ self.InBuffers a ∧ ¬ self.InPayloads a := by
  refine ⟨?_, ?_⟩
  · rintro ⟨hne, hlo, _⟩
    have hfar := hbuffers hne
    omega
  · rintro ⟨hne, hlo, _⟩
    have hfar := hpayloads hne
    omega

/-- Without preallocated tasks the heap may return any address that is apart from the tasks and
from the blocks of the pool. -/
theorem bare_heap {calloc : Nat} (hfit : calloc + TecTask_size ≤ 18446744073709551616)
    (hpool : ∀ a, calloc ≤ a → a < calloc + TecTask_size → ¬ self.InBuffers a ∧ ¬ self.InPayloads a)
    (hnodes : ∀ n, (s.nodes n).arena = TecArena_init 0 TecTask_size 0 ∧
      ∀ p ∈ (s.nodes n).live, Apart calloc TecTask_size p TecTask_size) :
    s.Heap self calloc := by
  refine ⟨?_, hpool⟩
  intro n
  right
  simp only [State.view, (hnodes n).1]
  exact ⟨hfit, .inr (Nat.zero_le _), (hnodes n).2⟩

/-- The call of a task function with what the call of `TecThrPool_enqueue` has stored. -/
theorem call_to (hinv : PoolInv self request s) {task : TaskRef}
    (hn : (s.nodes n).pc = .test task) (hruns : Runs request task = true) :
    ThreadStep self n s
      (.call n task (enqueued_args self request n task.call)
        ((List.range self.payload_size).map fun i => s.mem (self.task_payload n + i)))
      (s.setNode n fun node => { node with pc := .running task }) := by
  have hopen := hinv.control.open_of_running (n := n) (by rw [hn]; exact fun h => h)
  have hargs := args_of_pending hinv hopen (TaskInv.task_mem (by rw [hn]; rfl))
  have hpayload := congrArg TaskArgs.payload hargs
  have hfunc : load s.mem (task.task + TecTask_task_func) 8 ≠ 0 := by
    intro hzero
    exact (runs_iff self n).mp hruns ((congrArg TaskArgs.task_func hargs).symm.trans hzero)
  have hstep := @ThreadStep.call self n s task hn hfunc
  rw [hargs, show load s.mem (task.task + TecTask_payload) 8 = self.task_payload n from hpayload]
    at hstep
  exact hstep

/-- The first step of a call with its values computed. -/
theorem fetch_add_to {ndx : Nat} {next : Int} (hc : (s.calls c).pc = .idle)
    (hndx : toSize s.next_thread_index % self.nthreads = ndx)
    (hnext : toInt (s.next_thread_index + 1) = next) :
    EnqueueStep self request c s .other
      { s.setCall c (fun call => { call with ndx := ndx, pc := .allocate }) with
        next_thread_index := next } := by
  subst hndx hnext
  exact .fetch_add hc

/-- The node 0 has one preallocated task; the block of no other node could be allocated. -/
def oneTask : State :=
  { bareState with nodes := fun n => TecTaskNode_init 1 (if n = 0 then 8192 else 0) }

theorem one_task_owned {n a : Nat} (h : (oneTask.view n).Owned a) : n = 0 := by
  rcases h with ⟨hlo, hhi⟩ | ⟨p, hp, _⟩
  · cases n with
    | zero => rfl
    | succ n => exact absurd hhi (by simp [State.view, oneTask, TecTaskNode_init, TecArena_init,
        TecArena.nslots])
  · cases hp

theorem one_task_initial : Initial barePool 1 oneTask where
  nthreads := Nat.one_pos
  init := ⟨0, 0, rfl⟩
  buffers h := absurd rfl h
  payloads h := absurd rfl h
  state := ⟨fun _ => 0, fun n => if n = 0 then 8192 else 0, rfl⟩
  arenas n := by
    refine ⟨if n = 0 then 8192 else 0, fun _ => 0, rfl, .inr ?_⟩
    split <;> decide
  apart n k a hne hn hk := hne ((one_task_owned hn).trans (one_task_owned hk).symm)
  pool_apart _ _ _ := ⟨fun h => h.1 rfl, fun h => h.1 rfl⟩

/-- The preallocated task is in the queue. -/
structure FirstPushed (s : State) : Prop where
  run : s.run = .returned true
  done : s.done = .idle
  second : s.calls 1 = ⟨.idle, 0, 0, fun _ => false⟩
  node : s.nodes 0 = { TecTaskNode_init 1 8192 with
    thr := 0
    pc := .pop
    q := [some ⟨8192, 0⟩]
    arena := { TecArena_init 1 TecTask_size 8192 with allocated := 1 }
    live := [8192] }
  others : ∀ n, n ≠ 0 → s.nodes n = TecTaskNode_init 1 0

theorem first_pushed : ∃ xs s, (poolLts barePool (fun _ => bareRequest) 1).History xs s ∧
    .create 0 ∈ xs ∧ .push 0 (some ⟨8192, 0⟩) ∈ xs ∧ FirstPushed s := by
  have h0 : (poolLts barePool (fun _ => bareRequest) 1).History [] oneTask :=
    .init one_task_initial
  have h1 := h0.snoc (Step.run (.enter rfl))
  have h2 := h1.snoc (Step.run (.create rfl (by decide)))
  have h3 := h2.snoc (Step.run (.finish rfl (by decide)))
  have h4 := h3.snoc (Step.enqueue 0 (@fetch_add_to _ _ _ _ 0 1 rfl (by decide) (by decide))
    (fun h => absurd rfl h))
  have h5 := h4.snoc (Step.enqueue 0 (@EnqueueStep.allocate _ _ _ _ 0 8192 _ _ rfl
    ⟨fun _ => .inl rfl, fun _ _ _ => ⟨fun h => h.1 rfl, fun h => h.1 rfl⟩⟩ rfl (by decide))
    (fun _ => rfl))
  have h6 := h5.snoc (Step.enqueue 0 (.buffer_size rfl) (fun _ => rfl))
  have h7 := h6.snoc (Step.enqueue 0 (.buffer rfl) (fun _ => rfl))
  have h8 := h7.snoc (Step.enqueue 0 (.payload rfl) (fun _ => rfl))
  have h9 := h8.snoc (Step.enqueue 0 (.test_payload rfl) (fun _ => rfl))
  have h10 := h9.snoc (Step.enqueue 0 (.task_func rfl) (fun _ => rfl))
  have h11 := h10.snoc (Step.enqueue 0 (.args rfl) (fun _ => rfl))
  have h12 := h11.snoc (Step.enqueue 0 (.push rfl) (fun _ => rfl))
  refine ⟨_, _, h12, ?_, List.mem_concat_self, rfl, rfl, rfl, rfl, ?_⟩
  · iterate 10 apply List.mem_append_left
    exact List.mem_concat_self
  · intro n hn
    cases n with
    | zero => exact absurd rfl hn
    | succ n => rfl

/-- So is the second task behind it, which is from the heap. -/
structure BothPushed (s : State) : Prop where
  run : s.run = .returned true
  done : s.done = .idle
  thr : (s.nodes 0).thr = 0
  pc : (s.nodes 0).pc = .pop
  q : (s.nodes 0).q = [some ⟨8192, 0⟩, some ⟨4096, 1⟩]

theorem both_pushed : ∃ xs s, (poolLts barePool (fun _ => bareRequest) 1).History xs s ∧
    .create 0 ∈ xs ∧ .push 0 (some ⟨8192, 0⟩) ∈ xs ∧ .push 0 (some ⟨4096, 1⟩) ∈ xs ∧
      BothPushed s := by
  obtain ⟨xs, s, h, hcreate, hpush, hs⟩ := first_pushed
  have hopen : (s.nodes 0).destroyed = false := congrArg TecTaskNode.destroyed hs.node
  have hheap : s.Heap barePool 4096 := by
    refine ⟨fun n => .inr ?_, fun _ _ _ => ⟨fun h => h.1 rfl, fun h => h.1 rfl⟩⟩
    by_cases hn : n = 0
    · subst hn
      simp only [State.view, hs.node]
      refine ⟨by decide, .inl (by decide), fun p hp => ?_⟩
      obtain rfl := List.mem_singleton.mp hp
      exact .inl (by decide)
    · simp only [State.view, hs.others n hn]
      exact ⟨by decide, .inr (Nat.zero_le _), fun p hp => by cases hp⟩
  have hfull : TecArena_allocate (s.nodes 0).arena s.mem 4096 =
      ((s.nodes 0).arena, clear s.mem 4096 TecTask_size, 4096) := by
    rw [hs.node]
    rfl
  have h1 := h.snoc (Step.enqueue 1 (@fetch_add_to _ _ _ _ 0 _ (congrArg Call.pc hs.second)
    (Nat.mod_one _) rfl) (fun hpc => absurd (congrArg Call.pc hs.second) hpc))
  have h2 := h1.snoc (Step.enqueue 1 (@EnqueueStep.allocate _ _ _ _ 4096 4096 _ _ rfl hheap hfull
    (by decide)) (fun _ => hopen))
  have h3 := h2.snoc (Step.enqueue 1 (.buffer_size rfl) (fun _ => hopen))
  have h4 := h3.snoc (Step.enqueue 1 (.buffer rfl) (fun _ => hopen))
  have h5 := h4.snoc (Step.enqueue 1 (.payload rfl) (fun _ => hopen))
  have h6 := h5.snoc (Step.enqueue 1 (.test_payload rfl) (fun _ => hopen))
  have h7 := h6.snoc (Step.enqueue 1 (.task_func rfl) (fun _ => hopen))
  have h8 := h7.snoc (Step.enqueue 1 (.args rfl) (fun _ => hopen))
  have h9 := h8.snoc (Step.enqueue 1 (.push rfl) (fun _ => hopen))
  refine ⟨_, _, h9, ?_, ?_, List.mem_concat_self, hs.run, hs.done, congrArg TecTaskNode.thr hs.node,
    congrArg TecTaskNode.pc hs.node, ?_⟩
  · iterate 9 apply List.mem_append_left
    exact hcreate
  · iterate 9 apply List.mem_append_left
    exact hpush
  · exact congrArg (fun node => node.q ++ [some ⟨4096, 1⟩]) hs.node

/-- Two tasks for the same thread, one preallocated and one from the heap, and then the end of the
pool. -/
theorem pool_executes_exactly_once_drained :
    ∃ (ys zs : List Event) (s : State),
      (poolLts barePool (fun _ => bareRequest) 1).History (ys ++ .done :: zs) s ∧
        (called 0 (ys ++ .done :: zs)).count
          (⟨8192, 0⟩, enqueued_args barePool (fun _ => bareRequest) 0 0) = 1 ∧
        (called 0 (ys ++ .done :: zs)).count
          (⟨4096, 1⟩, enqueued_args barePool (fun _ => bareRequest) 0 1) = 1 := by
  obtain ⟨ys, s, h, hcreate, hfirst, hsecond, hs⟩ := both_pushed
  have hrelease : ∀ r : TecArena × Mem × Option Nat, r = (r.1, r.2.1, r.2.2) := fun _ => rfl
  have hdone : (poolLts barePool (fun _ => bareRequest) 1).Step s .done _ :=
    Step.done (.enter hs.done hs.run)
  have h0 := h.snoc hdone
  have r1 := h0.here.snoc (Step.thread 0 (.pop hs.pc hs.q))
  have r2 := r1.snoc (Step.thread 0 (call_to (poolInv_reachable (h0.run r1).reachable) rfl rfl))
  have r3 := r2.snoc (Step.thread 0 (.return rfl))
  have r4 := r3.snoc (Step.thread 0 (.release rfl (hrelease _)))
  have r5 := r4.snoc (Step.thread 0 (.pop rfl rfl))
  have r6 := r5.snoc (Step.thread 0 (call_to (poolInv_reachable (h0.run r5).reachable) rfl rfl))
  have r7 := r6.snoc (Step.thread 0 (.return rfl))
  have r8 := r7.snoc (Step.thread 0 (.release rfl (hrelease _)))
  have r9 := r8.snoc (Step.done (.push rfl (by decide) hs.thr))
  have r10 := r9.snoc (Step.thread 0 (.pop_null rfl rfl))
  have r11 := r10.snoc (Step.thread 0 (.set_terminated rfl))
  have r12 := r11.snoc (Step.done (.wait rfl rfl))
  have r13 := r12.snoc (Step.done (.join rfl rfl))
  have r14 := r13.snoc (Step.done (.destroy rfl))
  have r15 := r14.snoc (Step.done (.finish rfl (by decide)))
  have hend := h.run (Lts.Run.cons hdone r15)
  have hall := (pool_executes_exactly_once barePool 1 (fun _ => bareRequest) _ _ hend).2.2 rfl
    _ _ 0 rfl (List.mem_append_left _ hcreate)
  exact ⟨_, _, _, hend, (hall.2 ⟨8192, 0⟩ hfirst rfl).1, (hall.2 ⟨4096, 1⟩ hsecond rfl).1⟩

end Tecc.ThrPool
