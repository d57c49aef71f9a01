import Tecc.ThrPoolPayload

/-! The scratch buffers of the pool: each node has a slice of the arena, and its thread is the only
one that runs with it. -/
namespace Tecc.ThrPool

open Machine Memory Arena Transition

variable {self : TecThrPool} {request : Nat → Request} {nelems : Nat} {s t : State} {e : Event}
  {xs : List Event} {c d n k a : Nat} {task : TaskRef} {args : TaskArgs} {bytes : List UInt8}

/-- The bytes of the buffer that a task function is called with. -/
def TaskArgs.InSlice (args : TaskArgs) (a : Nat) : Prop :=
  args.buffer ≤ a ∧ a < args.buffer + args.buffer_size

/-- A thread calls a task function with what the caller stored for its node. -/
theorem called_args (h : (poolLts self request nelems).History xs s)
    (hcall : .call n task args bytes ∈ xs) :
    n < self.nthreads ∧ args = enqueued_args self request n task.call := by
  obtain ⟨ys, zs, rfl⟩ := List.append_of_mem hcall
  obtain ⟨u, u', hys, hstep, _⟩ := h.step_at
  have hinv := poolInv_reachable hys.reachable
  cases hstep with
  | enqueue c hs => cases hs
  | run hs => cases hs
  | done hs => cases hs
  | thread m hs =>
    cases hs with
    | call hn hfunc =>
      have hopen : (u.nodes n).destroyed = false := by
        apply hinv.control.open_of_running
        rw [hn]
        exact fun hover => hover
      have hmem : task ∈ (u.nodes n).tasks := by
        rw [TecTaskNode.tasks, hn]
        exact List.mem_cons_self
      obtain ⟨hpc, hndx, _⟩ := hinv.tasks.pushed n task hmem
      have hlt := hinv.tasks.ndx task.call (returned_not_idle hpc)
      rw [hndx] at hlt
      exact ⟨hlt, args_of_pending hinv hopen hmem⟩

/-- The slice of a node lies in the arena of the pool. -/
theorem slice_in_arena (hn : n < self.nthreads)
    (ha : (enqueued_args self request n c).InSlice a) : self.InBuffers a := by
  obtain ⟨hlo, hhi⟩ := ha
  simp only [enqueued_args, TecThrPool.task_buffer, TecThrPool.task_buffer_size] at hlo hhi
  by_cases harena : self.buffer_arena = 0
  · simp only [harena, ne_eq, not_true_eq_false, if_false] at hhi
    omega
  · simp only [ne_eq, harena, not_false_eq_true, if_true] at hlo hhi
    have hle := stride_le self.buffer_size hn
    exact ⟨harena, by omega, by omega⟩

/-- The slices of two nodes have no byte in common. -/
theorem slices_apart (hnk : n ≠ k) (ha : (enqueued_args self request n c).InSlice a) :
    ¬ (enqueued_args self request k d).InSlice a := by
  rintro ⟨hlo', hhi'⟩
  obtain ⟨hlo, hhi⟩ := ha
  simp only [enqueued_args, TecThrPool.task_buffer, TecThrPool.task_buffer_size] at *
  by_cases harena : self.buffer_arena = 0
  · simp only [harena, ne_eq, not_true_eq_false, if_false] at hhi
    omega
  · simp only [ne_eq, harena, not_false_eq_true, if_true] at *
    rcases Nat.lt_or_gt_of_ne hnk with hlt | hlt
    · have hle := stride_le self.buffer_size hlt
      omega
    · have hle := stride_le self.buffer_size hlt
      omega

/-- A task that runs is the one that its thread has called last. -/
theorem running_called_last (h : (poolLts self request nelems).History xs s)
    (hrun : (s.nodes n).pc = .running task) :
    (called n xs).getLast? = some (task, enqueued_args self request n task.call) := by
  obtain ⟨finished, hprogress⟩ := progress_history h n
  have hruns := hprogress.running task hrun
  rw [hprogress.called, hrun]
  simp [ThreadPc.called, executions, hruns]

/-- No two tasks that run at the same time have a byte of the buffers in common. -/
theorem buffers_never_shared (self : TecThrPool) (nelems : Nat) (request : Nat → Request)
    (xs : List Event) (s : State) (h : (poolLts self request nelems).History xs s) :
    (∀ c, (s.calls c).pc ≠ .idle → (s.calls c).ndx < self.nthreads) ∧
    (∀ n task args bytes, .call n task args bytes ∈ xs →
      (self.buffer_arena ≠ 0 → args.buffer_size = self.buffer_size) ∧
        ∀ a, args.InSlice a → self.InBuffers a) ∧
    ∀ n k task task', n ≠ k → (s.nodes n).pc = .running task →
      (s.nodes k).pc = .running task' →
      ∃ args args', (called n xs).getLast? = some (task, args) ∧
        (called k xs).getLast? = some (task', args') ∧
        ∀ a, args.InSlice a → ¬ args'.InSlice a := by
  have hinv := poolInv_reachable h.reachable
  refine ⟨hinv.tasks.ndx, ?_, ?_⟩
  · intro n task args bytes hcall
    obtain ⟨hn, rfl⟩ := called_args h hcall
    refine ⟨fun harena => if_pos harena, ?_⟩
    intro a ha
    exact slice_in_arena hn ha
  · intro n k task task' hnk hn hk
    refine ⟨_, _, running_called_last h hn, running_called_last h hk, ?_⟩
    intro a ha
    exact slices_apart hnk ha

/-- A pool of two threads with a buffer of 16 bytes for each. -/
def twoPool : TecThrPool := TecThrPool_init 2 16 0 65536 0

/-- Two tasks run, and the one has the first and the other the second half of the arena. -/
theorem buffers_never_shared_two :
    ∃ xs s, (poolLts twoPool (fun _ => bareRequest) 0).History xs s ∧
      (s.nodes 0).pc = .running ⟨4096, 0⟩ ∧ (s.nodes 1).pc = .running ⟨8192, 1⟩ ∧
      ∃ args args', (called 0 xs).getLast? = some (⟨4096, 0⟩, args) ∧
        (called 1 xs).getLast? = some (⟨8192, 1⟩, args') ∧
        ∀ a, args.InSlice a → ¬ args'.InSlice a := by
  let request : Nat → Request := fun _ => bareRequest
  have h0 : (poolLts twoPool request 0).History [] bareState :=
    .init (initial_bare (by decide) ⟨65536, 0, rfl⟩ (fun _ => by decide) (fun h => absurd rfl h))
  have h1 := h0.snoc (Step.run (.enter rfl))
  have h2 := h1.snoc (Step.run (.create rfl (by decide)))
  have h3 := h2.snoc (Step.run (.create rfl (by decide)))
  have h4 := h3.snoc (Step.enqueue 0 (@fetch_add_to _ _ _ _ 0 1 rfl (by decide) (by decide))
    (fun h => absurd rfl h))
  have h5 := h4.snoc (Step.enqueue 0 (@EnqueueStep.allocate _ _ _ _ 4096 _ _ _ rfl
    (bare_heap (by decide) (fun _ => below_arenas (by decide) (by decide) (by decide)) (fun n => by
      match n with
      | 0 => exact ⟨rfl, fun p hp => by cases hp⟩
      | 1 => exact ⟨rfl, fun p hp => by cases hp⟩
      | n + 2 => exact ⟨rfl, fun p hp => by cases hp⟩)) rfl (by decide)) (fun _ => rfl))
  have h6 := h5.snoc (Step.enqueue 0 (.buffer_size rfl) (fun _ => rfl))
  have h7 := h6.snoc (Step.enqueue 0 (.buffer rfl) (fun _ => rfl))
  have h8 := h7.snoc (Step.enqueue 0 (.payload rfl) (fun _ => rfl))
  have h9 := h8.snoc (Step.enqueue 0 (.test_payload rfl) (fun _ => rfl))
  have h10 := h9.snoc (Step.enqueue 0 (.task_func rfl) (fun _ => rfl))
  have h11 := h10.snoc (Step.enqueue 0 (.args rfl) (fun _ => rfl))
  have h12 := h11.snoc (Step.enqueue 0 (.push rfl) (fun _ => rfl))
  have h13 := h12.snoc (Step.thread 0 (.pop rfl rfl))
  have h14 := h13.snoc (Step.thread 0 (call_to (poolInv_reachable h13.reachable) rfl rfl))
  have h15 := h14.snoc (Step.enqueue 1 (@fetch_add_to _ _ _ _ 1 2 rfl (by decide) (by decide))
    (fun h => absurd rfl h))
  have h16 := h15.snoc (Step.enqueue 1 (@EnqueueStep.allocate _ _ _ _ 8192 _ _ _ rfl
    (bare_heap (by decide) (fun _ => below_arenas (by decide) (by decide) (by decide)) (fun n => by
      match n with
      | 0 => exact ⟨rfl, fun p hp => .inr (List.mem_singleton.mp hp ▸ by decide)⟩
      | 1 => exact ⟨rfl, fun p hp => by cases hp⟩
      | n + 2 => exact ⟨rfl, fun p hp => by cases hp⟩)) rfl (by decide)) (fun _ => rfl))
  have h17 := h16.snoc (Step.enqueue 1 (.buffer_size rfl) (fun _ => rfl))
  have h18 := h17.snoc (Step.enqueue 1 (.buffer rfl) (fun _ => rfl))
  have h19 := h18.snoc (Step.enqueue 1 (.payload rfl) (fun _ => rfl))
  have h20 := h19.snoc (Step.enqueue 1 (.test_payload rfl) (fun _ => rfl))
  have h21 := h20.snoc (Step.enqueue 1 (.task_func rfl) (fun _ => rfl))
  have h22 := h21.snoc (Step.enqueue 1 (.args rfl) (fun _ => rfl))
  have h23 := h22.snoc (Step.enqueue 1 (.push rfl) (fun _ => rfl))
  have h24 := h23.snoc (Step.thread 1 (.pop rfl rfl))
  have h25 := h24.snoc (Step.thread 1 (call_to (poolInv_reachable h24.reachable) rfl rfl))
  refine ⟨_, _, h25, rfl, rfl, ?_⟩
  exact (buffers_never_shared twoPool 0 request _ _ h25).2.2 0 1 _ _ (by decide) rfl rfl

end Tecc.ThrPool
