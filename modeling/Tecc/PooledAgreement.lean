import Tecc.PooledDescriptors

/-! The server with a pool does for each connection what the server without one does, as long as
the descriptors survive in the payloads of the pool. -/
namespace Tecc.PooledServer

open Machine Memory Arena ThrPool Transition Interleave

variable {self : TecThrPool} {setup : Setup} {nelems : Nat} {s₀ s t : State} {e : Event}
  {xs ys : List Event} {c d n k : Nat} {task : TaskRef}

/-- All that happens to a descriptor. -/
def served (fd : Int) : List ClientOp := [.client_proc fd, .shutdown fd, .close fd]

/-- What has happened to it where the thread is. -/
def DispatchPc.done (fd : Int) : DispatchPc → List ClientOp
  | .idle | .set_buf _ | .client_proc => []
  | .processing | .log | .test_fd | .shutdown => [.client_proc fd]
  | .close => [.client_proc fd, .shutdown fd]
  | .set_fd _ | .test_pai | .free_pai | .set_pai _ | .return => served fd

/-- What has happened to the descriptor of a connection before, while and after its task runs. -/
structure Traced (setup : Setup) (xs : List Event) (s : State) (c : Nat) : Prop where
  before : (s.pool.calls c).pc ≠ .returned ∨ (∃ n, (s.pool.nodes n).Waits c) →
    lane c (clientOps xs) = []
  running : ∀ n task, (s.pool.nodes n).pc = .running task → task.call = c →
    lane c (clientOps xs) = (s.dispatch n).pc.done (setup.fd c)
  after : (s.pool.calls c).pc = .returned → (∀ n, ¬ s.pool.Unfinished n c) →
    lane c (clientOps xs) = served (setup.fd c)

theorem lane_snoc (c : Nat) (xs : List Event) (e : Event) :
    lane c (clientOps (xs ++ [e])) = lane c (clientOps xs) ++ lane c e.clientOp.toList := by
  rw [clientOps, List.filterMap_append, lane_append]
  cases h : e.clientOp <;> simp [clientOps, h]

theorem lane_other (xs : List Event) (h : ∀ op, e ≠ .client c op) :
    lane c (clientOps (xs ++ [e])) = lane c (clientOps xs) := by
  rw [lane_snoc]
  cases e with
  | client d op =>
    have hdc : d ≠ c := by
      rintro rfl
      exact h op rfl
    simp [Event.clientOp, lane_of_ne hdc]
  | _ => simp [Event.clientOp]

theorem lane_client (c : Nat) (xs : List Event) (op : ClientOp) :
    lane c (clientOps (xs ++ [.client c op])) = lane c (clientOps xs) ++ [op] := by
  rw [lane_snoc]
  exact congrArg _ (lane_self c op)

/-- Only the thread that runs the task of a connection acts on its descriptor. -/
theorem client_running {op : ClientOp} (hs : Step self setup s e t) (he : e = .client c op) :
    ∃ n task, (s.pool.nodes n).pc = .running task ∧ task.call = c := by
  cases hs with
  | @dispatch _ _ n task hn hs => exact ⟨n, task, hn, (client_step hs he).1⟩
  | _ => cases he

theorem return_pc (hs : Step self setup s e t) (he : e = .pool (.return n task)) :
    (s.dispatch n).pc = .return := by
  cases hs with
  | @dispatch _ _ k _ hk hs =>
    cases hs with
    | «return» hp hw =>
      cases he
      exact hp
    | _ => cases he
  | thread k hout hs =>
    cases he
    exact hout.elim
  | enqueue hp hs =>
    cases he
    cases hs
  | run hs =>
    cases he
    cases hs
  | done hp hs =>
    cases he
    cases hs
  | _ => cases he

/-- The task of a connection has not been started before, either. -/
theorem before_step (hs : Step self setup s e t)
    (h : (t.pool.calls c).pc ≠ .returned ∨ ∃ n, (t.pool.nodes n).Waits c) :
    (s.pool.calls c).pc ≠ .returned ∨ ∃ n, (s.pool.nodes n).Waits c := by
  rcases pool_step hs with ⟨_, hsame⟩ | ⟨b, _, hstep⟩
  · rw [hsame] at h
    exact h
  · rcases h with hpc | ⟨n, hwaits⟩
    · left
      intro hreturned
      rw [returned_step hstep hreturned] at hpc
      exact hpc hreturned
    · rcases waits_step hstep hwaits with hwaits | hpush
      · exact .inr ⟨n, hwaits⟩
      · left
        rw [hpush]
        exact EnqueuePc.noConfusion

/-- One step of a thread in `dispatch_client_`. -/
theorem done_step (hs : DispatchStep self n task s e t) (hc : task.call = c)
    (hfd : (s.dispatch n).pc.Open → fd s.pool.mem (s.sock n) = setup.fd c)
    (hvalid : setup.fd c ≠ -1) (hrun : (t.pool.nodes n).pc = .running task)
    (h : lane c (clientOps xs) = (s.dispatch n).pc.done (setup.fd c)) :
    lane c (clientOps (xs ++ [e])) = (t.dispatch n).pc.done (setup.fd c) := by
  subst hc
  cases hs with
  | client_proc hp | shutdown hp | close hp =>
    rw [lane_client, h, hfd (by rw [hp]; trivial)]
    simp [State.goto, hp, DispatchPc.done, served]
  | test_fd hp =>
    rw [lane_other xs (fun _ => Event.noConfusion), h, hfd (by rw [hp]; trivial), if_pos hvalid]
    simp [State.goto, hp, DispatchPc.done]
  | test_pai hp =>
    rw [lane_other xs (fun _ => Event.noConfusion), h]
    simp only [State.goto, Function.update_self, hp]
    split <;> rfl
  | processing hp ha hw => rw [lane_other xs (fun _ => Event.noConfusion), h]
  | set_buf hp | buf_set hp | processed hp | log hp | set_fd hp | fd_set hp
  | free_pai hp | set_pai hp | pai_set hp =>
    rw [lane_other xs (fun _ => Event.noConfusion), h]
    simp [State.goto, hp, DispatchPc.done]
  | «return» hp hw =>
    cases hw with
    | «return» hn => simp at hrun

theorem traced_step (hs : Step self setup s e t) (hinv : PoolInv self setup.request s.pool)
    (hfd : ∀ n task, (s.pool.nodes n).pc = .running task → (s.dispatch n).pc.Open →
      fd s.pool.mem (s.sock n) = setup.fd task.call)
    (hpoll : PollInv setup s) (h : Traced setup xs s c) : Traced setup (xs ++ [e]) t c := by
  have hnot : ∀ {n task}, (s.pool.nodes n).pc = .running task →
      (s.pool.calls task.call).pc = .returned ∧ ¬ ∃ n, (s.pool.nodes n).Waits task.call := by
    intro n task hn
    obtain ⟨hreturned, _, _⟩ := hinv.tasks.pushed n task (TaskInv.task_mem (by rw [hn]; rfl))
    exact ⟨hreturned, fun hwaits => running_not_early hinv hn (.inr hwaits.choose_spec)⟩
  refine ⟨?_, ?_, ?_⟩
  · intro hbefore
    have hold := before_step hs hbefore
    rw [lane_other, h.before hold]
    intro op he
    obtain ⟨n, task, hn, rfl⟩ := client_running hs he
    obtain ⟨hreturned, hwaits⟩ := hnot hn
    exact hold.elim (fun hpc => hpc hreturned) hwaits
  · intro n task hrun hc
    subst hc
    rcases dispatch_before hs hinv hrun with ⟨hran, hkept, he⟩ | ⟨htest, hcalled, he⟩ | ⟨hran, hs⟩
    · rw [lane_other xs he, hkept]
      exact h.running n task hran rfl
    · rw [lane_snoc, he, hcalled, h.before (.inr ⟨n, .inl ⟨task, htest, rfl⟩⟩)]
      rfl
    · have hlt : task.call < s.accepted := by
        by_contra hge
        have hidle := hpoll.fresh task.call (Nat.le_of_not_lt hge)
        cases hidle.symm.trans (hnot hran).1
      exact done_step hs rfl (hfd n task hran) (hpoll.valid _ hlt) hrun (h.running n task hran rfl)
  · intro hreturned hfinished
    have hlast : (s.pool.calls c).pc = .returned ∧ (∀ n, ¬ s.pool.Unfinished n c) ∨
        ∃ n task, e = .pool (.return n task) ∧ task.call = c ∧
          (s.pool.nodes n).pc = .running task := by
      rcases pool_step hs with ⟨_, hsame⟩ | ⟨b, hb, hstep⟩
      · rw [hsame] at hreturned hfinished
        exact .inl ⟨hreturned, hfinished⟩
      · refine (finished_step hstep hinv setup.dispatch hreturned hfinished).imp_right ?_
        rintro ⟨n, task, rfl, hc, hn⟩
        refine ⟨n, task, ?_, hc, hn⟩
        cases e with
        | pool b =>
          cases hb
          rfl
        | _ => cases hb
    rcases hlast with ⟨hold, hdone⟩ | ⟨n, task, he, hc, hn⟩
    · rw [lane_other, h.after hold hdone]
      intro op he
      obtain ⟨n, task, hn, hc⟩ := client_running hs he
      exact hdone n (.inr ⟨task, hn, hc⟩)
    · rw [lane_other, h.running n task hn hc, return_pc hs he]
      · rfl
      · rw [he]
        exact fun _ => Event.noConfusion

theorem traced_history (hsize : self.payload_size = TecSocket_size)
    (harena : self.payload_arena ≠ 0)
    (h : ((serverLts self setup nelems).restrict (DescriptorSafe self)).History xs s) (c : Nat) :
    Traced setup xs s c := by
  refine h.induction (P := fun xs s => Traced setup xs s c) ?_ ?_
  · intro s hi
    obtain ⟨m, calloc, hpool⟩ := hi.pool.state
    refine ⟨fun _ => rfl, ?_, ?_⟩
    · intro n task hrun
      rw [hpool] at hrun
      cases hrun
    · intro hreturned
      rw [hpool] at hreturned
      cases hreturned
  · rintro xs s e t hhist htraced ⟨_, hs⟩
    have hplain := hhist.of_restrict
    have hinv := poolInv_history hplain
    refine traced_step hs hinv ?_ (pollInv_history hplain) htraced
    intro n task hn hopen
    exact fd_eq hinv (copyInv_history (pool_history hplain) task.call) (ownPayload_history hplain)
      (kept_history hhist) hsize harena hn hopen

/-- A valid socket is served. -/
theorem dispatch_client_eq (buffer : Mem) (h : setup.fd c ≠ -1) :
    dispatch_client_ (setup.cli c) 0 buffer = served (setup.fd c) := by
  have hload : ∀ m : Mem, (∀ a < 4, m a = setup.cli c a) → fd m 0 = setup.fd c := by
    intro m hm
    have hbytes : load m 0 4 = load (setup.cli c) 0 4 :=
      load_congr fun a _ ha => hm a (by omega)
    exact congrArg (fun v : Nat => toInt v) hbytes
  have hkept := hload (fun a =>
    if 0 + TecSocket_buf ≤ a ∧ a < 0 + TecSocket_buf + TecBuffer_sizeof then
      buffer (a - (0 + TecSocket_buf))
    else setup.cli c a) ?_
  · rw [dispatch_client_, TecSocket_done, hkept, if_pos h]
    rfl
  · intro a ha
    have hoffset : TecSocket_buf = 80 := rfl
    exact if_neg (by omega)

/-- The server with the pool does for each connection what the server without one does. -/
structure Agrees (setup : Setup) (xs : List Event) (s : State) : Prop where
  /-- At any time it has done the first part of it, in this order. -/
  begun : ∀ c < s.accepted,
    lane c (clientOps xs) <+: dispatch_client_ (setup.cli c) 0 setup.buffer
  /-- When the pool is drained the same has happened to each descriptor, -/
  drained : s.Drained → ∀ d, view ClientOp.fd d (clientOps xs) =
    view ClientOp.fd d (single setup s.accepted)
  /-- which is one call of `client_proc` and after it one of `close`. -/
  once : s.Drained → ∀ c < s.accepted, view ClientOp.fd (setup.fd c) (clientOps xs) =
    [.client_proc (setup.fd c), .shutdown (setup.fd c), .close (setup.fd c)]

theorem served_fd {op : ClientOp} {fd : Int} (h : op ∈ served fd) : op.fd = fd := by
  simp only [served, List.mem_cons, List.not_mem_nil, or_false] at h
  rcases h with rfl | rfl | rfl <;> rfl

theorem done_prefix (fd : Int) (pc : DispatchPc) : pc.done fd <+: served fd := by
  cases pc with
  | idle | set_buf _ | client_proc => exact List.nil_prefix
  | processing | log | test_fd | shutdown => exact ⟨[.shutdown fd, .close fd], rfl⟩
  | close => exact ⟨[.close fd], rfl⟩
  | set_fd _ | test_pai | free_pai | set_pai _ | «return» => exact List.prefix_rfl

theorem Traced.served (h : Traced setup xs s c) :
    lane c (clientOps xs) <+: PooledServer.served (setup.fd c) := by
  by_cases hbefore : (s.pool.calls c).pc ≠ .returned ∨ ∃ n, (s.pool.nodes n).Waits c
  · rw [h.before hbefore]
    exact List.nil_prefix
  · obtain ⟨hreturned, hwaits⟩ := not_or.mp hbefore
    by_cases hunfinished : ∃ n, s.pool.Unfinished n c
    · obtain ⟨n, (⟨hfill, _⟩ | hwait) | ⟨task, hrun, hcall⟩⟩ := hunfinished
      · rw [not_not.mp hreturned] at hfill
        exact hfill.elim
      · exact absurd ⟨n, hwait⟩ hwaits
      · rw [h.running n task hrun hcall]
        exact done_prefix _ _
    · rw [h.after (not_not.mp hreturned) (not_exists.mp hunfinished)]

/-- As long as nobody writes over a descriptor that is not closed, the server with a pool agrees
with the one without. -/
theorem pooled_agrees (self : TecThrPool) (nelems : Nat) (setup : Setup)
    (hsize : self.payload_size = TecSocket_size) (harena : self.payload_arena ≠ 0)
    (xs : List Event) (s : State)
    (h : ((serverLts self setup nelems).restrict (DescriptorSafe self)).History xs s)
    (hdistinct : Set.InjOn setup.fd (Set.Iio s.accepted)) : Agrees setup xs s := by
  have hpoll := pollInv_history h.of_restrict
  have htraced := traced_history hsize harena h
  have hdone : s.Drained → ∀ c < s.accepted, lane c (clientOps xs) = served (setup.fd c) := by
    intro hdrained c hc
    refine (htraced c).after ?_ (fun n => hdrained.2 n c)
    exact (hpoll.passed c hc).resolve_left (hdrained.1 c)
  have hnone : ∀ c, s.accepted ≤ c → lane c (clientOps xs) = [] := by
    intro c hc
    refine (htraced c).before (.inl ?_)
    rw [hpoll.fresh c hc]
    exact EnqueuePc.noConfusion
  have hlt : ∀ p ∈ clientOps xs, p.1 < s.accepted := by
    intro p hp
    by_contra hge
    have hmem : p.2 ∈ lane p.1 (clientOps xs) := mem_lane.mpr hp
    rw [hnone p.1 (Nat.le_of_not_lt hge)] at hmem
    cases hmem
  have htag : ∀ p ∈ clientOps xs, p.2.fd = setup.fd p.1 := by
    intro p hp
    exact served_fd ((htraced p.1).served.subset (mem_lane.mpr hp))
  refine ⟨?_, ?_, ?_⟩
  · intro c hc
    rw [dispatch_client_eq setup.buffer (hpoll.valid c hc)]
    exact (htraced c).served
  · intro hdrained d
    refine view_congr ?_ htag (fun p hp q hq => hdistinct (hlt p hp) (hlt q hq)) d
    intro c
    rw [single, lane_sequential]
    by_cases hc : c < s.accepted
    · rw [if_pos hc, dispatch_client_eq setup.buffer (hpoll.valid c hc)]
      exact hdone hdrained c hc
    · rw [if_neg hc]
      exact hnone c (Nat.le_of_not_lt hc)
  · intro hdrained c hc
    rw [view_eq_lane htag (fun p hp => hdistinct (hlt p hp) hc)]
    exact hdone hdrained c hc

/-- The tasks of the connections before `k` have returned. -/
structure Finished (k : Nat) (s : State) : Prop where
  returned : ∀ c < k, (s.pool.calls c).pc = .returned
  unfinished : ∀ c < k, ∀ n, ¬ s.pool.Unfinished n c

theorem Holds.unfinished (h : s.Holds n c) : s.pool.Unfinished n c := by
  rcases h with hearly | ⟨task, hrun, hcall, _⟩
  · exact .inl hearly
  · exact .inr ⟨task, hrun, hcall⟩

theorem finished_later (hs : Step self setup s e t) (hinv : PoolInv self setup.request s.pool)
    (h : Finished k s) : Finished k t := by
  refine ⟨?_, ?_⟩
  · intro c hc
    rcases pool_step hs with ⟨_, hsame⟩ | ⟨b, _, hstep⟩
    · rw [hsame]
      exact h.returned c hc
    · rw [returned_step hstep (h.returned c hc)]
      exact h.returned c hc
  · intro c hc n hunfinished
    refine h.unfinished c hc n ?_
    rcases hunfinished with hearly | ⟨task, hrun, rfl⟩
    · rcases pool_step hs with ⟨_, hsame⟩ | ⟨b, _, hstep⟩
      · rw [hsame] at hearly
        exact .inl hearly
      · rcases early_step hstep hinv hearly with hearly | hallocate
        · exact .inl hearly
        · cases (h.returned c hc).symm.trans hallocate
    · rcases dispatch_before hs hinv hrun with ⟨hran, _⟩ | ⟨htest, _⟩ | ⟨hran, _⟩
      · exact .inr ⟨task, hran, rfl⟩
      · exact .inl (.inr (.inl ⟨task, htest, rfl⟩))
      · exact .inr ⟨task, hran, rfl⟩

/-- Where the other tasks have returned there is nobody to write over the descriptor of the last
connection. -/
theorem later_safe (h : (serverLts self setup nelems).History xs s) (hs : Step self setup s e t)
    (hfinished : Finished k s) (hlast : s.accepted ≤ k + 1) : DescriptorSafe self s e := by
  have hpoll := pollInv_history h
  have hinv := poolInv_history h
  have hk : ∀ c, (s.pool.calls c).pc ≠ .idle → ¬ c < k → c = k := by
    intro c hc hge
    by_contra hne
    exact hc (hpoll.fresh c (by omega))
  cases e with
  | pool b =>
    cases b with
    | write c a byte =>
      intro _ n d i hdc hholds _ _
      have hd := hk d (hinv.tasks.active_pc (holds_active hholds)).1
        fun hlt => hfinished.unfinished d hlt n (Holds.unfinished hholds)
      rcases pool_step hs with ⟨hnone, _⟩ | ⟨b, hb, hstep⟩
      · cases hnone
      · cases hb
        have hc : c = k := by
          rcases (write_step hstep).2 with ⟨dest, _, hpc, _⟩ | ⟨n, task, hrun, rfl⟩
          · refine hk c ?_ ?_
            · rw [hpc]
              exact EnqueuePc.noConfusion
            · intro hlt
              cases hpc.symm.trans (hfinished.returned c hlt)
          · have htask : task ∈ (s.pool.nodes n).tasks := TaskInv.task_mem (by rw [hrun]; rfl)
            exact hk _ (returned_not_idle (hinv.tasks.pushed n task htask).1)
              fun hlt => hfinished.unfinished _ hlt n (.inr ⟨task, hrun, rfl⟩)
        exact absurd (hd.trans hc.symm) hdc
    | _ => trivial
  | _ => trivial

theorem accepted_step (hs : Step self setup s e t) : s.accepted ≤ t.accepted := by
  cases hs with
  | accept => exact Nat.le_succ _
  | dispatch n hn hs => exact Nat.le_of_eq (dispatch_step_cases hs).accepted.symm
  | _ => exact Nat.le_refl _

/-- A run with one connection more at most is safe throughout. -/
theorem later_restrict
    (h : ((serverLts self setup nelems).restrict (DescriptorSafe self)).History xs s)
    (hrun : (serverLts self setup nelems).Run s ys t) (hfinished : Finished k s)
    (hlast : t.accepted ≤ k + 1) :
    ((serverLts self setup nelems).restrict (DescriptorSafe self)).History (xs ++ ys) t ∧
      Finished k t := by
  induction hrun with
  | refl => exact ⟨(List.append_nil xs).symm ▸ h, hfinished⟩
  | snoc hrun hs ih =>
    have hbefore := Nat.le_trans (accepted_step hs) hlast
    obtain ⟨hhist, hfin⟩ := ih hbefore
    have hplain := hhist.of_restrict
    exact ⟨List.append_assoc xs _ _ ▸ hhist.snoc_restrict hs (later_safe hplain hs hfin hbefore),
      finished_later hs (poolInv_history hplain) hfin⟩

/-- The memory when the first `k` of the bytes are stored from the address on. -/
def blitted (m : Mem) (a : Nat) (bytes : Nat → UInt8) (k : Nat) : Mem :=
  fun b => if a ≤ b ∧ b < a + k then bytes (b - a) else m b

theorem blitted_zero (m : Mem) (a : Nat) (bytes : Nat → UInt8) : blitted m a bytes 0 = m := by
  funext b
  exact if_neg (by omega)

theorem blitted_outside {m : Mem} {a b : Nat} {bytes : Nat → UInt8} (h : b < a ∨ a + k ≤ b) :
    blitted m a bytes k b = m b := if_neg (by omega)

theorem blitted_inside {m : Mem} {a i : Nat} {bytes : Nat → UInt8} (h : i < k) :
    blitted m a bytes k (a + i) = bytes i := by
  rw [blitted, if_pos (by omega), Nat.add_sub_cancel_left]

theorem blitted_succ (m : Mem) (a : Nat) (bytes : Nat → UInt8) (k : Nat) :
    Function.update (blitted m a bytes k) (a + k) (bytes k) = blitted m a bytes (k + 1) := by
  funext b
  by_cases hb : b = a + k
  · subst hb
    rw [Function.update_self, blitted_inside (Nat.lt_succ_self k)]
  · rw [Function.update_of_ne hb, blitted, blitted]
    congr 1
    simp only [eq_iff_iff]
    omega

/-- The pool when `memcpy` has taken the first `k` bytes for the call `c`. -/
def copying (pool : ThrPool.State) (c dest : Nat) (bytes : Nat → UInt8) (k : Nat) :
    ThrPool.State :=
  { pool.setCall c (fun call => { call with copied := fun i => decide (i < k) }) with
    mem := blitted pool.mem dest bytes k }

theorem copying_mem (pool : ThrPool.State) (c dest : Nat) (bytes : Nat → UInt8) {i : Nat}
    (hi : i < k) : (copying pool c dest bytes k).mem (dest + i) = bytes i := blitted_inside hi

theorem copying_zero {pool : ThrPool.State} {dest : Nat} (bytes : Nat → UInt8)
    (hnone : (pool.calls c).copied = fun _ => false) : copying pool c dest bytes 0 = pool := by
  have hcall : Function.update pool.calls c
      { pool.calls c with copied := fun i => decide (i < 0) } = pool.calls := by
    apply Function.update_eq_self_iff.mpr
    simp [← hnone]
  rw [copying, blitted_zero, State.setCall, hcall]

theorem copying_succ (pool : ThrPool.State) (c dest : Nat) (bytes : Nat → UInt8) (k : Nat) :
    { (copying pool c dest bytes k).setCall c (fun call =>
        { call with copied := Function.update call.copied k true }) with
      mem := Function.update (copying pool c dest bytes k).mem (dest + k) (bytes k) } =
    copying pool c dest bytes (k + 1) := by
  have hcopied : Function.update (fun i => decide (i < k)) k true =
      fun i => decide (i < k + 1) := by
    funext i
    by_cases hi : i = k
    · subst hi
      simp
    · rw [Function.update_of_ne hi]
      congr 1
      simp only [eq_iff_iff]
      omega
  simp only [copying, State.setCall, Function.update_self, Function.update_idem, blitted_succ,
    hcopied]

/-- The bytes of a socket are copied one by one. -/
theorem copy_run {dest : Nat} (h : (serverLts self setup nelems).Run s₀ xs s)
    (hp : s.poll = .enqueue c) (hc : (s.pool.calls c).pc = .memcpy dest)
    (hnone : (s.pool.calls c).copied = fun _ => false)
    (hopen : (s.pool.nodes (s.pool.calls c).ndx).destroyed = false) (hk : k ≤ self.payload_size) :
    ∃ ys, (serverLts self setup nelems).Run s₀ ys
      { s with pool := copying s.pool c dest (setup.cli c) k } := by
  induction k with
  | zero =>
    rw [copying_zero (setup.cli c) hnone]
    exact ⟨xs, h⟩
  | succ k ih =>
    obtain ⟨ys, hrun⟩ := ih (Nat.le_of_succ_le hk)
    have hstep : Step self setup { s with pool := copying s.pool c dest (setup.cli c) k } _ _ :=
      .enqueue hp (@EnqueueStep.copy self setup.request c _ dest k (setup.cli c)
        (by simpa [copying] using hc) rfl hk (by simp [copying]))
        (fun _ => by simpa [copying, State.setCall] using hopen)
    rw [copying_succ] at hstep
    exact ⟨_, hrun.snoc hstep⟩

/-- The server when the thread of the node has stored the first `k` bytes of `buf`. -/
def storing (s : State) (n : Nat) (k : Nat) : State :=
  { s.goto n (.set_buf k) with
    pool := { s.pool with
      mem := blitted s.pool.mem (s.sock n + TecSocket_buf) (buf (s.dispatch n).args) k } }

theorem storing_zero (hp : (s.dispatch n).pc = .set_buf 0) : storing s n 0 = s := by
  have hdispatch : Function.update s.dispatch n { s.dispatch n with pc := .set_buf 0 } =
      s.dispatch := by
    apply Function.update_eq_self_iff.mpr
    rw [← hp]
  rw [storing, blitted_zero, State.goto, hdispatch]

theorem storing_succ (s : State) (n k : Nat) :
    { (storing s n k).goto n (.set_buf (k + 1)) with
      pool := { (storing s n k).pool with
        mem := Function.update (storing s n k).pool.mem (s.sock n + TecSocket_buf + k)
          (buf (s.dispatch n).args k) } } = storing s n (k + 1) := by
  simp only [storing, State.goto, Function.update_self, Function.update_idem, blitted_succ]

/-- `sock->buf = buf;` byte by byte. -/
theorem set_buf_run (n : Nat) (h : (serverLts self setup nelems).Run s₀ xs s)
    (hn : (s.pool.nodes n).pc = .running task)
    (hp : (s.dispatch n).pc = .set_buf 0)
    (hfree : ∀ i < TecBuffer_sizeof, ∀ m, ¬ (s.pool.view m).Owned (s.sock n + TecSocket_buf + i))
    (hk : k ≤ TecBuffer_sizeof) :
    ∃ ys, (serverLts self setup nelems).Run s₀ ys (storing s n k) := by
  induction k with
  | zero =>
    rw [storing_zero hp]
    exact ⟨xs, h⟩
  | succ k ih =>
    obtain ⟨ys, hrun⟩ := ih (Nat.le_of_succ_le hk)
    have hsock : (storing s n k).sock n = s.sock n := by
      simp [storing, State.sock, State.goto]
    have hargs : ((storing s n k).dispatch n).args = (s.dispatch n).args := by
      simp [storing, State.goto]
    have hwrite : ThreadStep self n (storing s n k).pool (.write task.call
        ((storing s n k).sock n + TecSocket_buf + k) (buf ((storing s n k).dispatch n).args k)) _ :=
      .write hn (by rw [hsock]; exact hfree k hk)
    have hstep : Step self setup (storing s n k) _ _ :=
      .dispatch n hn (.set_buf (by simp [storing, State.goto]) hk hwrite)
    rw [hsock, hargs, storing_succ] at hstep
    exact ⟨_, hrun.snoc hstep⟩

/-- A pool of one thread for sockets, with its payload at 65536. -/
def socketPool : TecThrPool := TecThrPool_init 1 0 TecSocket_size 0 65536

/-- The clients have the descriptors 3, 4, 5 and so on. -/
def clients : Setup where
  dispatch_client := 1
  self := 0
  buffer := fun _ => 0
  cli c i := if i = 0 then UInt8.ofNat (3 + c) else 0
  dispatch := by decide

theorem clients_distinct : Set.InjOn clients.fd (Set.Iio 2) := by
  have hne : clients.fd 0 ≠ clients.fd 1 := by decide
  have htwo : ∀ c ∈ Set.Iio 2, c = 0 ∨ c = 1 := by
    intro c hc
    have hlt : c < 2 := hc
    omega
  intro c hc d hd heq
  rcases htwo c hc with rfl | rfl <;> rcases htwo d hd with rfl | rfl
  · rfl
  · exact absurd heq hne
  · exact absurd heq.symm hne
  · rfl

def bareServer : State := ⟨bareState, fun _ => ⟨.idle, ⟨0, 0, 0, 0, 0⟩⟩, .accept, 0⟩

theorem socket_initial : Initial socketPool 0 bareServer where
  pool := initial_bare Nat.one_pos ⟨0, 65536, rfl⟩ (fun h => absurd rfl h) (fun _ => by decide)
  poll := rfl
  accepted := rfl

/-- `poll_` waits for the next connection when that of the call `c` is in the queue. -/
structure Queued (c : Nat) (s : State) : Prop where
  poll : s.poll = .accept
  accepted : s.accepted = c + 1
  returned : ∀ d ≤ c, (s.pool.calls d).pc = .returned
  fresh : ∀ d, c < d → s.pool.calls d = ⟨.idle, 0, 0, fun _ => false⟩
  node : s.pool.nodes 0 = { TecTaskNode_init 0 0 with
    thr := 0, pc := .pop, q := [some ⟨4096, c⟩], live := [4096] }
  others : ∀ n, n ≠ 0 → s.pool.nodes n = TecTaskNode_init 0 0
  pai : load s.pool.mem (65536 + TecSocket_pai) 8 = 0

/-- All of them up to that of the call `c` have been served. -/
structure Ready (c : Nat) (s : State) : Prop where
  poll : s.poll = .accept
  accepted : s.accepted = c + 1
  returned : ∀ d ≤ c, (s.pool.calls d).pc = .returned
  fresh : ∀ d, c < d → s.pool.calls d = ⟨.idle, 0, 0, fun _ => false⟩
  node : s.pool.nodes 0 = { TecTaskNode_init 0 0 with thr := 0, pc := .pop }
  others : ∀ n, n ≠ 0 → s.pool.nodes n = TecTaskNode_init 0 0

theorem first_queued :
    ∃ xs s, (serverLts socketPool clients 0).History xs s ∧ Queued 0 s := by
  have h0 : (serverLts socketPool clients 0).Run bareServer [] bareServer := .refl
  have h1 := h0.snoc (Step.run (.enter rfl))
  have h2 := h1.snoc (Step.run (.create rfl (by decide)))
  have h3 := h2.snoc (Step.accept rfl (by decide))
  have h4 := h3.snoc (Step.enqueue rfl (@fetch_add_to _ _ _ _ 0 1 rfl (by decide) (by decide))
    (fun h => absurd rfl h))
  have h5 := h4.snoc (Step.enqueue rfl (@EnqueueStep.allocate _ _ _ _ 4096 _ _ _ rfl
    (bare_heap (by decide) (fun _ => below_arenas (by decide) (by decide) (by decide)) (fun n => by
      cases n with
      | zero => exact ⟨rfl, fun p hp => by cases hp⟩
      | succ n => exact ⟨rfl, fun p hp => by cases hp⟩)) rfl (by decide)) (fun _ => rfl))
  have h6 := h5.snoc (Step.enqueue rfl (.buffer_size rfl) (fun _ => rfl))
  have h7 := h6.snoc (Step.enqueue rfl (.buffer rfl) (fun _ => rfl))
  have h8 := h7.snoc (Step.enqueue rfl (.payload rfl) (fun _ => rfl))
  have h9 := h8.snoc (Step.enqueue rfl (test_payload_to
    (poolInv_history ⟨_, socket_initial, h8⟩) rfl rfl rfl (rfl : _ = 65536) (by decide))
    (fun _ => rfl))
  obtain ⟨ys, h10⟩ := copy_run h9 rfl rfl rfl rfl (Nat.le_refl _)
  have h11 := h10.snoc (Step.enqueue rfl (@EnqueueStep.copied _ _ _ _ 65536 rfl
    (fun i hi => decide_eq_true hi)) (fun _ => rfl))
  have h12 := h11.snoc (Step.enqueue rfl (.task_func rfl) (fun _ => rfl))
  have h13 := h12.snoc (Step.enqueue rfl (.args rfl) (fun _ => rfl))
  have h14 := h13.snoc (Step.enqueue rfl (.push rfl) (fun _ => rfl))
  have h15 := h14.snoc (Step.enqueued rfl rfl)
  refine ⟨_, _, ⟨_, socket_initial, h15⟩, rfl, rfl, ?_, ?_, rfl, ?_, ?_⟩
  · intro d hd
    cases hd with
    | refl => rfl
  · intro d hd
    cases d with
    | zero => exact absurd hd (Nat.lt_irrefl 0)
    | succ d => rfl
  · intro n hn
    cases n with
    | zero => exact absurd rfl hn
    | succ n => rfl
  · decide

/-- Whatever happens in a connection happens to its descriptor. -/
theorem Agrees.fd_eq {op : ClientOp} (h : Agrees setup xs s) (hc : c < s.accepted)
    (hvalid : setup.fd c ≠ -1) (hop : (c, op) ∈ clientOps xs) : op.fd = setup.fd c := by
  have hmem := (h.begun c hc).subset (mem_lane.mpr hop)
  rw [dispatch_client_eq setup.buffer hvalid] at hmem
  exact served_fd hmem

theorem mem_clientOps (xs : List Event) (c : Nat) (op : ClientOp) :
    (c, op) ∈ clientOps (xs ++ [.client c op]) :=
  List.mem_filterMap.mpr ⟨.client c op, List.mem_concat_self, rfl⟩

theorem accept_to (hp : s.poll = .accept) (hc : s.accepted = c) (hvalid : setup.fd c ≠ -1) :
    Step self setup s (.accepted c) { s with poll := .enqueue c, accepted := c + 1 } := by
  subst hc
  exact .accept hp hvalid

/-- The writes of a thread to its socket meet no task. -/
theorem socket_free (h : (serverLts self setup nelems).History xs s) {a : Nat}
    (ha : self.InPayloads a) (k : Nat) : ¬ (s.pool.view k).Owned a :=
  fun howned => (poolInv_history h).tasks.payload k a howned ha

theorem socket_in {o i : Nat} (hi : o + i < TecSocket_size) :
    socketPool.InPayloads (65536 + o + i) := by
  have hsize : TecSocket_size = 128 := rfl
  refine ⟨by decide, ?_, ?_⟩
  · change 65536 ≤ 65536 + o + i
    omega
  · change 65536 + o + i < 65536 + 1 * TecSocket_size
    omega

/-- The first connection has been accepted and the thread is open for the second. -/
structure OneAccepted (s : State) : Prop where
  poll : s.poll = .accept
  accepted : s.accepted = 1
  second : s.pool.calls 1 = ⟨.idle, 0, 0, fun _ => false⟩
  arena : (s.pool.nodes 0).arena = TecArena_init 0 TecTask_size 0
  opened : (s.pool.nodes 0).destroyed = false
  others : ∀ n, n ≠ 0 → s.pool.nodes n = TecTaskNode_init 0 0

/-- The socket of the second is in the payload of the node in `t`. -/
structure SecondCopied (calloc : Nat) (s t : State) : Prop where
  poll : t.poll = .enqueue 1
  accepted : t.accepted = 2
  second : t.pool.calls 1 =
    ⟨.memcpy 65536, 0, calloc, fun i => decide (i < TecSocket_size)⟩
  calls : ∀ c, c ≠ 1 → t.pool.calls c = s.pool.calls c
  node : t.pool.nodes 0 =
    { s.pool.nodes 0 with live := calloc :: (s.pool.nodes 0).live }
  others : ∀ n, n ≠ 0 → t.pool.nodes n = s.pool.nodes n
  bytes : ∀ i < TecSocket_size, t.pool.mem (65536 + i) = clients.cli 1 i

theorem second_copied {calloc : Nat} (h : (serverLts socketPool clients 0).History xs s)
    (hone : OneAccepted s) (hne : calloc ≠ 0) (hfit : calloc + TecTask_size ≤ 65536)
    (hlive : ∀ p ∈ (s.pool.nodes 0).live, Apart calloc TecTask_size p TecTask_size) :
    ∃ ys t, (serverLts socketPool clients 0).Run s ys t ∧ SecondCopied calloc s t := by
  have h1 := h.here.snoc (@accept_to _ _ _ 1 hone.poll hone.accepted (by decide))
  have h2 := h1.snoc (Step.enqueue rfl (@fetch_add_to _ _ _ _ 0 _ (congrArg Call.pc hone.second)
    (Nat.mod_one _) rfl) (fun hpc => absurd (congrArg Call.pc hone.second) hpc))
  have h3 := h2.snoc (Step.enqueue rfl (@EnqueueStep.allocate _ _ _ _ calloc _ _ _ rfl
    (bare_heap (Nat.le_trans hfit (by decide))
      (fun _ => below_arenas (by decide) (by decide) hfit) (fun n => by
      by_cases hn : n = 0
      · subst hn
        exact ⟨hone.arena, hlive⟩
      · have hinit : s.pool.nodes n = TecTaskNode_init 0 0 := hone.others n hn
        refine ⟨congrArg TecTaskNode.arena hinit, fun p hp => ?_⟩
        have hnone : p ∈ (s.pool.nodes n).live := hp
        rw [hinit] at hnone
        cases hnone))
    ((congrArg (fun arena => TecArena_allocate arena _ _) hone.arena).trans
      (allocate_bare _ hne)) hne) (fun _ => hone.opened))
  have h4 := h3.snoc (Step.enqueue rfl (.buffer_size rfl) (fun _ => hone.opened))
  have h5 := h4.snoc (Step.enqueue rfl (.buffer rfl) (fun _ => hone.opened))
  have h6 := h5.snoc (Step.enqueue rfl (.payload rfl) (fun _ => hone.opened))
  have h7 := h6.snoc (Step.enqueue rfl (test_payload_to (poolInv_history (h.run h6)) rfl
    hone.opened rfl (rfl : _ = 65536) (by decide)) (fun _ => hone.opened))
  obtain ⟨ys, hcopied⟩ := copy_run h7 rfl rfl (congrArg Call.copied hone.second) hone.opened
    (Nat.le_refl _)
  refine ⟨_, _, hcopied, rfl, rfl, rfl, ?_, ?_, ?_, ?_⟩
  · intro c hc
    simp [copying, State.setCall, State.setNode, hc]
  · simp [copying, State.setCall, State.setNode, hone.arena]
  · intro n hn
    simp [copying, State.setCall, State.setNode, hn]
  · intro i hi
    exact copying_mem _ 1 65536 _ hi

/-- The second connection follows the first one in the queue. -/
theorem second_queued (h : (serverLts socketPool clients 0).History xs s) (hready : Ready 0 s) :
    ∃ ys t, (serverLts socketPool clients 0).Run s ys t ∧ Queued 1 t := by
  have hlive : (s.pool.nodes 0).live = [] := congrArg TecTaskNode.live hready.node
  have hone : OneAccepted s := ⟨hready.poll, hready.accepted, hready.fresh 1 Nat.one_pos,
    congrArg TecTaskNode.arena hready.node, congrArg TecTaskNode.destroyed hready.node,
    hready.others⟩
  obtain ⟨ys, t, hrun, ht⟩ := @second_copied _ _ 4096 h hone (by decide) (by decide)
    (fun p hp => by
      rw [hlive] at hp
      cases hp)
  have hndx : (t.pool.calls 1).ndx = 0 := congrArg Call.ndx ht.second
  have htask : (t.pool.calls 1).task = 4096 := congrArg Call.task ht.second
  have hopen : (t.pool.nodes (t.pool.calls 1).ndx).destroyed = false := by
    rw [hndx, ht.node, hready.node]
    rfl
  have hpai : load t.pool.mem (65536 + TecSocket_pai) 8 = 0 := by
    have hoffset : TecSocket_pai + 8 ≤ TecSocket_size := by decide
    refine (load_eq fun i hi => ?_).trans (show load (clients.cli 1) TecSocket_pai 8 = 0 by decide)
    rw [Nat.add_assoc]
    exact ht.bytes _ (by omega)
  have h1 := hrun.snoc (Step.enqueue ht.poll (@EnqueueStep.copied _ _ _ _ 65536
    (congrArg Call.pc ht.second) (fun i hi => by
      rw [ht.second]
      exact decide_eq_true hi)) (fun _ => hopen))
  have h2 := h1.snoc (Step.enqueue ht.poll (.task_func rfl) (fun _ => hopen))
  have h3 := h2.snoc (Step.enqueue ht.poll (.args rfl) (fun _ => hopen))
  have h4 := h3.snoc (Step.enqueue ht.poll (.push rfl) (fun _ => hopen))
  have h5 := h4.snoc (Step.enqueued ht.poll rfl)
  refine ⟨_, _, h5, rfl, ht.accepted, ?_, ?_, ?_, ?_, ?_⟩
  · intro d hd
    by_cases hd1 : d = 1
    · subst hd1
      rfl
    · have hd0 : d ≤ 0 := by omega
      simpa [State.setCall, State.setNode, hd1, ht.calls d hd1] using hready.returned d hd0
  · intro d hd
    have hd1 : d ≠ 1 := by omega
    simpa [State.setCall, State.setNode, hd1, ht.calls d hd1] using hready.fresh d (by omega)
  · simp [State.setCall, State.setNode, hndx, htask, ht.node, hready.node, TecTaskNode_init]
  · intro n hn
    simpa [State.setCall, State.setNode, hndx, hn, ht.others n hn] using hready.others n hn
  · refine (load_congr fun b hlo _ => ?_).trans hpai
    have hfar : ∀ o, o + 8 ≤ TecTask_size → (t.pool.calls 1).task + o + 8 ≤ b := by
      intro o ho
      have hsize : 4096 + TecTask_size ≤ 65536 := by decide
      omega
    exact (store_other (.inr (hfar TecTask_args (by decide)))).trans
      (store_other (.inr (hfar TecTask_task_func (by decide))))

/-- The thread has taken the task, and is about to call `client_proc` in `t`. -/
structure Called (task : TaskRef) (s t : State) : Prop where
  running : (t.pool.nodes 0).pc = .running task
  node : t.pool.nodes 0 =
    { s.pool.nodes 0 with q := (s.pool.nodes 0).q.tail, pc := .running task }
  nodes : ∀ n, n ≠ 0 → t.pool.nodes n = s.pool.nodes n
  calls : t.pool.calls = s.pool.calls
  pc : (t.dispatch 0).pc = .client_proc
  sock : t.sock 0 = 65536
  poll : t.poll = s.poll
  accepted : t.accepted = s.accepted
  mem : ∀ a, a < 65536 + TecSocket_buf → t.pool.mem a = s.pool.mem a

theorem called_run {q : List (Option TaskRef)}
    (h : (serverLts socketPool clients 0).History xs s) (hn : (s.pool.nodes 0).pc = .pop)
    (hq : (s.pool.nodes 0).q = some task :: q) :
    ∃ ys t, (serverLts socketPool clients 0).Run s ys t ∧ Called task s t := by
  have h1 := h.here.snoc (Step.thread 0 (by trivial) (.pop hn hq))
  have h2 := h1.snoc (Step.call 0 (call_to (poolInv_history (h.run h1)) rfl rfl))
  obtain ⟨ys, hset⟩ := set_buf_run 0 h2 rfl rfl
    (fun i hi => socket_free (h.run h2) (@socket_in TecSocket_buf i
      (Nat.lt_trans (Nat.add_lt_add_left hi _) (by decide))))
    (Nat.le_refl _)
  have h3 := hset.snoc (Step.dispatch 0 rfl (.buf_set rfl (Nat.le_refl _)))
  refine ⟨_, _, h3, rfl, ?_, ?_, rfl, rfl, rfl, rfl, rfl, ?_⟩
  · simp [State.goto, storing, State.setNode, hq]
  · intro n hne
    exact (Function.update_of_ne hne _ _).trans (Function.update_of_ne hne _ _)
  · intro a ha
    exact blitted_outside (.inl ha)

theorem test_fd_to (hn : (s.pool.nodes n).pc = .running task) (hp : (s.dispatch n).pc = .test_fd)
    (hfd : fd s.pool.mem (s.sock n) ≠ -1) : Step self setup s .other (s.goto n .shutdown) := by
  have hstep : Step self setup s .other _ := .dispatch n hn (.test_fd hp)
  rw [if_pos hfd] at hstep
  exact hstep

theorem test_pai_to (hn : (s.pool.nodes n).pc = .running task)
    (hp : (s.dispatch n).pc = .test_pai)
    (hpai : load s.pool.mem (s.sock n + TecSocket_pai) 8 = 0) :
    Step self setup s .other (s.goto n .return) := by
  have hstep : Step self setup s .other _ := .dispatch n hn (.test_pai hp)
  rw [if_neg (not_not.mpr hpai)] at hstep
  exact hstep

/-- The connection is closed and its task has returned. -/
structure Returned (task : TaskRef) (s t : State) : Prop where
  nodes : t.pool.nodes =
    Function.update s.pool.nodes 0 { s.pool.nodes 0 with pc := .release task }
  calls : t.pool.calls = s.pool.calls
  poll : t.poll = s.poll
  accepted : t.accepted = s.accepted

theorem returned_run
    (h : ((serverLts socketPool clients 0).restrict (DescriptorSafe socketPool)).History xs s)
    (hn : (s.pool.nodes 0).pc = .running task) (hp : (s.dispatch 0).pc = .client_proc)
    (hsock : s.sock 0 = 65536) (hpai : load s.pool.mem (65536 + TecSocket_pai) 8 = 0)
    (hvalid : clients.fd task.call ≠ -1) :
    ∃ ys t, (serverLts socketPool clients 0).Run s ys t ∧ Returned task s t := by
  have hplain := h.of_restrict
  have hfd : fd s.pool.mem (s.sock 0) ≠ -1 := by
    rw [fd_eq (poolInv_history hplain) (copyInv_history (pool_history hplain) task.call)
      (ownPayload_history hplain) (kept_history h) rfl (by decide) hn (by rw [hp]; trivial)]
    exact hvalid
  have hin : ∀ i < 4, socketPool.InPayloads (s.sock 0 + TecSocket_fd + i) := by
    intro i hi
    rw [hsock]
    exact socket_in (Nat.lt_trans (Nat.add_lt_add_left hi _) (by decide))
  have hbelow : ∀ i < 4, s.sock 0 + TecSocket_fd + i < s.sock 0 + TecSocket_pai ∨
      s.sock 0 + TecSocket_pai + 8 ≤ s.sock 0 + TecSocket_fd + i := by
    intro i hi
    have hoffset : TecSocket_fd = 0 ∧ TecSocket_pai = 72 := ⟨rfl, rfl⟩
    omega
  rw [← hsock] at hpai
  have h1 := hplain.here.snoc (Step.dispatch 0 hn (.client_proc hp))
  have h2 := h1.snoc (Step.dispatch 0 hn (.processed rfl))
  have h3 := h2.snoc (Step.dispatch 0 hn (.log rfl))
  have h4 := h3.snoc (test_fd_to hn rfl hfd)
  have h5 := h4.snoc (Step.dispatch 0 hn (.shutdown rfl))
  have h6 := h5.snoc (Step.dispatch 0 hn (.close rfl))
  have h7 := h6.snoc (Step.dispatch 0 hn (.set_fd rfl (by decide)
    (.write hn (socket_free (hplain.run h6) (hin 0 (by decide))))))
  have h8 := h7.snoc (Step.dispatch 0 hn (.set_fd rfl (by decide)
    (.write hn (socket_free (hplain.run h7) (hin 1 (by decide))))))
  have h9 := h8.snoc (Step.dispatch 0 hn (.set_fd rfl (by decide)
    (.write hn (socket_free (hplain.run h8) (hin 2 (by decide))))))
  have h10 := h9.snoc (Step.dispatch 0 hn (.set_fd rfl (by decide)
    (.write hn (socket_free (hplain.run h9) (hin 3 (by decide))))))
  have h11 := h10.snoc (Step.dispatch 0 hn (.fd_set rfl (Nat.le_refl 4)))
  have h12 := h11.snoc (test_pai_to hn rfl ((load_update (hbelow 3 (by decide))).trans
    ((load_update (hbelow 2 (by decide))).trans ((load_update (hbelow 1 (by decide))).trans
      ((load_update (hbelow 0 (by decide))).trans hpai)))))
  have h13 := h12.snoc (Step.dispatch 0 hn (.return rfl (.return hn)))
  exact ⟨_, _, h13, rfl, rfl, rfl, rfl⟩

theorem Ready.finished (h : Ready c s) : Finished (c + 1) s ∧ s.Drained := by
  have hnodes : ∀ n, (s.pool.nodes n).q = [] ∧ (∀ r, (s.pool.nodes n).pc ≠ .test r) ∧
      ∀ r, (s.pool.nodes n).pc ≠ .running r := by
    intro n
    by_cases hn : n = 0
    · subst hn
      rw [h.node]
      exact ⟨rfl, fun r => ThreadPc.noConfusion, fun r => ThreadPc.noConfusion⟩
    · rw [h.others n hn]
      exact ⟨rfl, fun r => ThreadPc.noConfusion, fun r => ThreadPc.noConfusion⟩
  have hnone : ∀ n d, ¬ s.pool.Unfinished n d := by
    intro n d
    refine not_unfinished ?_ hnodes n
    by_cases hd : d ≤ c
    · rw [h.returned d hd]
      exact fun hfill => hfill
    · rw [h.fresh d (Nat.lt_of_not_le hd)]
      exact fun hfill => hfill
  refine ⟨⟨fun d hd => h.returned d (Nat.le_of_lt_succ hd), fun d _ n => hnone n d⟩, ?_, hnone⟩
  intro d hd
  cases h.poll.symm.trans hd

/-- The connection in the queue is served while no other one is accepted. -/
theorem ready_run
    (h : ((serverLts socketPool clients 0).restrict (DescriptorSafe socketPool)).History xs s)
    (hfinished : Finished c s) (hqueued : Queued c s) (hvalid : clients.fd c ≠ -1) :
    ∃ ys t, ((serverLts socketPool clients 0).restrict (DescriptorSafe socketPool)).History ys t ∧
      Ready c t := by
  obtain ⟨ys, t, hcall, ht⟩ := called_run h.of_restrict (congrArg TecTaskNode.pc hqueued.node)
    (congrArg TecTaskNode.q hqueued.node)
  have haccepted : t.accepted = c + 1 := ht.accepted.trans hqueued.accepted
  obtain ⟨hthist, htfin⟩ := later_restrict h hcall hfinished (Nat.le_of_eq haccepted)
  have hpai : load t.pool.mem (65536 + TecSocket_pai) 8 = 0 := by
    refine (load_congr fun b _ hb => ?_).trans hqueued.pai
    have hoffset : TecSocket_pai + 8 = TecSocket_buf := rfl
    exact ht.mem b (by omega)
  obtain ⟨zs, u, hreturn, hu⟩ := returned_run hthist ht.running ht.pc ht.sock hpai hvalid
  have hnode : u.pool.nodes 0 =
      { TecTaskNode_init 0 0 with thr := 0, pc := .release ⟨4096, c⟩, live := [4096] } := by
    rw [hu.nodes, Function.update_self, ht.node, hqueued.node]
    rfl
  have hothers : ∀ n, n ≠ 0 → u.pool.nodes n = TecTaskNode_init 0 0 := by
    intro n hn
    rw [hu.nodes, Function.update_of_ne hn, ht.nodes n hn]
    exact hqueued.others n hn
  have hcalls : u.pool.calls = s.pool.calls := hu.calls.trans ht.calls
  have hlast := hreturn.snoc (Step.thread 0 (by trivial)
    (.release (congrArg TecTaskNode.pc hnode) (release_bare
      (poolInv_history (hthist.of_restrict.run hreturn)) (congrArg TecTaskNode.arena hnode)
      (congrArg TecTaskNode.destroyed hnode) (by
        rw [hnode]
        exact List.mem_singleton_self _))))
  obtain ⟨hhist, _⟩ := later_restrict hthist hlast htfin
    (Nat.le_of_eq (hu.accepted.trans haccepted))
  refine ⟨_, _, hhist, ?_, hu.accepted.trans haccepted, ?_, ?_, ?_, ?_⟩
  · exact (hu.poll.trans ht.poll).trans hqueued.poll
  · intro d hd
    exact (congrArg Call.pc (congrFun hcalls d)).trans (hqueued.returned d hd)
  · intro d hd
    exact (congrFun hcalls d).trans (hqueued.fresh d hd)
  · simp [State.setNode, hnode, TecTaskNode_init]
  · intro n hn
    simpa [State.setNode, hn] using hothers n hn

/-- Two connections are served in turn by the same thread: the second is copied to the payload
when the first has been closed. -/
theorem pooled_agrees_in_turn :
    socketPool.nthreads = 1 ∧ ∃ xs s,
      ((serverLts socketPool clients 0).restrict (DescriptorSafe socketPool)).History xs s ∧
      s.accepted = 2 ∧ s.Drained ∧ Agrees clients xs s := by
  obtain ⟨xs, s, hs, hqueued⟩ := first_queued
  obtain ⟨s₀, hi, hrun⟩ := hs
  have hnone : Finished 0 s₀ := 
    ⟨fun c hc => absurd hc (Nat.not_lt_zero c), fun c hc => absurd hc (Nat.not_lt_zero c)⟩
  obtain ⟨hfirst, hfinished⟩ := later_restrict (.init hi) hrun hnone (Nat.le_of_eq hqueued.accepted)
  obtain ⟨ys, t, ht, hready⟩ := ready_run hfirst hfinished hqueued (by decide)
  obtain ⟨zs, u, hnext, hsecond⟩ := second_queued ht.of_restrict hready
  obtain ⟨hu, hufinished⟩ := later_restrict ht hnext hready.finished.1
    (Nat.le_of_eq hsecond.accepted)
  obtain ⟨ws, v, hv, hdone⟩ := ready_run hu hufinished hsecond (by decide)
  refine ⟨rfl, _, _, hv, hdone.accepted, hdone.finished.2, ?_⟩
  refine pooled_agrees socketPool 0 clients rfl (by decide) _ _ hv ?_
  rw [hdone.accepted]
  exact clients_distinct

/-- The first connection is in the queue, and the payload holds the socket of the second. -/
structure Overwritten (s : State) : Prop where
  accepted : s.accepted = 2
  node : (s.pool.nodes 0).pc = .pop
  q : (s.pool.nodes 0).q = [some ⟨4096, 0⟩]
  bytes : ∀ i < 4, s.pool.mem (65536 + i) = clients.cli 1 i

theorem second_overwrites :
    ∃ xs s, (serverLts socketPool clients 0).History xs s ∧ Overwritten s := by
  obtain ⟨xs, s, hs, hqueued⟩ := first_queued
  have hone : OneAccepted s := ⟨hqueued.poll, hqueued.accepted, hqueued.fresh 1 Nat.one_pos,
    congrArg TecTaskNode.arena hqueued.node, congrArg TecTaskNode.destroyed hqueued.node,
    hqueued.others⟩
  obtain ⟨ys, t, hrun, ht⟩ := @second_copied _ _ 8192 hs hone (by decide) (by decide)
    (fun p hp => by
      rw [hqueued.node] at hp
      exact .inr (List.mem_singleton.mp hp ▸ by decide))
  refine ⟨_, _, hs.run hrun, ht.accepted, ?_, ?_, ?_⟩
  · rw [ht.node, hqueued.node]
  · rw [ht.node, hqueued.node]
  · exact fun i hi => ht.bytes i (Nat.lt_trans hi (by decide))

theorem client_proc_fd {v : Int} (h : Agrees clients (xs ++ [.client 0 (.client_proc v)]) s)
    (hc : 0 < s.accepted) : v = clients.fd 0 :=
  h.fd_eq hc (by decide) (mem_clientOps xs 0 (.client_proc v))

/-- The second connection overwrites the descriptor of the first while it is in the queue. -/
theorem pooled_disagrees :
    ¬ ∀ (self : TecThrPool) (nelems : Nat) (setup : Setup), self.payload_size = TecSocket_size →
      self.payload_arena ≠ 0 → ∀ xs s, (serverLts self setup nelems).History xs s →
      Set.InjOn setup.fd (Set.Iio s.accepted) → Agrees setup xs s := by
  intro h
  obtain ⟨xs, s, hs, hw⟩ := second_overwrites
  obtain ⟨ys, t, hrun, hc⟩ := called_run hs hw.node hw.q
  have hlast := (hs.run hrun).snoc (Step.dispatch 0 hc.running (.client_proc hc.pc))
  have haccepted : t.accepted = 2 := hc.accepted.trans hw.accepted
  have hdistinct : Set.InjOn clients.fd (Set.Iio t.accepted) := by
    rw [haccepted]
    exact clients_distinct
  have hagrees := h socketPool 0 clients rfl (by decide) _ _ hlast hdistinct
  have hpos : 0 < t.accepted := Nat.lt_of_lt_of_eq Nat.two_pos haccepted.symm
  have hfd := client_proc_fd hagrees hpos
  have hread : fd t.pool.mem (t.sock 0) = clients.fd 1 := by
    have hload : load t.pool.mem (65536 + TecSocket_fd) 4 =
        load (clients.cli 1) (0 + TecSocket_fd) 4 := by
      apply load_eq
      intro i hi
      have hkept := hc.mem (65536 + i) (Nat.add_lt_add_left (Nat.lt_trans hi (by decide)) _)
      exact (hkept.trans (hw.bytes i hi)).trans (congrArg (clients.cli 1) (Nat.zero_add i).symm)
    rw [hc.sock, Setup.fd, fd, fd, hload]
  have hne : clients.fd 1 ≠ clients.fd 0 := by decide
  exact hne (hread.symm.trans hfd)

end Tecc.PooledServer
