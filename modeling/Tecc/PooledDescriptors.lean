import Tecc.PooledServer

/-! The descriptor of a connection on its way through the pool: it is the one that was accepted
until it is closed, as long as nobody writes over it. -/
namespace Tecc.PooledServer

open Machine Memory Arena ThrPool Transition

variable {self : TecThrPool} {setup : Setup} {nelems : Nat} {s t : State} {e : Event}
  {xs : List Event} {c d n k : Nat} {task : TaskRef}

/-- `close` has not been called. -/
def DispatchPc.Open : DispatchPc → Prop
  | .set_buf _ | .client_proc | .processing | .log | .test_fd | .shutdown | .close => True
  | _ => False

/-- The payload of the node is needed for the descriptor of the connection. -/
def State.Holds (s : State) (n c : Nat) : Prop :=
  s.pool.Early n c ∨
    ∃ task, (s.pool.nodes n).pc = .running task ∧ task.call = c ∧ (s.dispatch n).pc.Open

/-- A write leaves the descriptors alone that other connections have copied and not closed. -/
def DescriptorSafe (self : TecThrPool) (s : State) : Event → Prop
  | .pool (.write c a byte) => s.pool.mem a ≠ byte → ∀ n d i, d ≠ c → s.Holds n d →
      i < 4 → (s.pool.calls d).copied i = true → a ≠ self.task_payload n + i
  | _ => True

/-- What the thread in `poll_` has done so far. -/
structure PollInv (setup : Setup) (s : State) : Prop where
  fresh : ∀ c, s.accepted ≤ c → (s.pool.calls c).pc = .idle
  polled : ∀ c, s.poll = .enqueue c → c < s.accepted
  passed : ∀ c, c < s.accepted → s.poll = .enqueue c ∨ (s.pool.calls c).pc = .returned
  valid : ∀ c, c < s.accepted → setup.fd c ≠ -1

/-- The threads work on the payloads of their nodes. -/
def OwnPayload (self : TecThrPool) (s : State) : Prop :=
  ∀ n task, (s.pool.nodes n).pc = .running task → s.sock n = self.task_payload n

/-- The sockets that are not closed have the descriptors that were accepted. -/
def Kept (self : TecThrPool) (setup : Setup) (s : State) : Prop :=
  ∀ n c i, s.Holds n c → i < 4 → (s.pool.calls c).copied i = true →
    s.pool.mem (self.task_payload n + i) = setup.cli c i

/-- The pool steps, or it is left alone. -/
theorem pool_step (hs : Step self setup s e t) : e.poolEvent = none ∧ t.pool = s.pool ∨
    ∃ b, e.poolEvent = some b ∧ ThrPool.Step self setup.request s.pool b t.pool := by
  cases hs with
  | accept | invalid | enqueued | stop => exact .inl ⟨rfl, rfl⟩
  | enqueue hp h hopen => exact .inr ⟨_, rfl, .enqueue _ h hopen⟩
  | thread n he h => exact .inr ⟨_, rfl, .thread n h⟩
  | call n h => exact .inr ⟨_, rfl, .thread n h⟩
  | run h => exact .inr ⟨_, rfl, .run h⟩
  | done hp h => exact .inr ⟨_, rfl, .done h⟩
  | dispatch n hn h =>
    cases h with
    | set_buf hp hi hw | processing hp ha hw | set_fd hp hi hw | set_pai hp hi hw
    | «return» hp hw => exact .inr ⟨_, rfl, .thread n hw⟩
    | _ => exact .inl ⟨rfl, rfl⟩

theorem pool_history (h : (serverLts self setup nelems).History xs s) :
    (poolLts self setup.request nelems).History (xs.filterMap Event.poolEvent) s.pool :=
  h.project State.pool Event.poolEvent (fun _ hi => hi.pool) (fun _ _ _ hs => pool_step hs)

theorem poolInv_history (h : (serverLts self setup nelems).History xs s) :
    PoolInv self setup.request s.pool := poolInv_reachable (pool_history h).reachable

/-- What `dispatch_client_` leaves of the rest. -/
structure Dispatched (n : Nat) (s t : State) : Prop where
  args : (t.dispatch n).args = (s.dispatch n).args
  others : ∀ k, k ≠ n → t.dispatch k = s.dispatch k
  calls : t.pool.calls = s.pool.calls
  poll : t.poll = s.poll
  accepted : t.accepted = s.accepted

theorem dispatch_step_cases (hs : DispatchStep self n task s e t) : Dispatched n s t := by
  have hgoto : ∀ pc, Dispatched n s (s.goto n pc) := by
    intro pc
    refine ⟨?_, ?_, rfl, rfl, rfl⟩
    · simp [State.goto]
    · intro k hk
      exact Function.update_of_ne hk _ _
  cases hs with
  | set_buf hp hi hw | set_fd hp hi hw | set_pai hp hi hw | «return» hp hw =>
    refine ⟨?_, ?_, (thread_step_cases hw).calls, rfl, rfl⟩
    · simp [State.goto]
    · intro k hk
      exact Function.update_of_ne hk _ _
  | processing hp ha hw => exact ⟨rfl, fun _ _ => rfl, (thread_step_cases hw).calls, rfl, rfl⟩
  | _ => exact hgoto _

theorem pollInv_step (hs : Step self setup s e t) (h : PollInv setup s) : PollInv setup t := by
  have hsame : t.pool.calls = s.pool.calls → t.poll = s.poll → t.accepted = s.accepted →
      PollInv setup t := by
    intro hcalls hpoll haccepted
    refine ⟨?_, ?_, ?_, ?_⟩
    · rw [haccepted, hcalls]
      exact h.fresh
    · rw [haccepted, hpoll]
      exact h.polled
    · rw [haccepted, hpoll, hcalls]
      exact h.passed
    · rw [haccepted]
      exact h.valid
  cases hs with
  | invalid hp => exact h
  | thread n he hs => exact hsame (thread_step_cases hs).calls rfl rfl
  | call n hs => exact hsame (thread_step_cases hs).calls rfl rfl
  | dispatch n hn hs =>
    have hkept := dispatch_step_cases hs
    exact hsame hkept.calls hkept.poll hkept.accepted
  | run hs => exact hsame (by cases hs <;> rfl) rfl rfl
  | done hp hs => exact hsame (by cases hs <;> rfl) rfl rfl
  | accept hp hvalid =>
    refine ⟨?_, ?_, ?_, ?_⟩
    · exact fun c hc => h.fresh c (Nat.le_of_succ_le hc)
    · intro c hc
      cases hc
      exact Nat.lt_succ_self _
    · intro c hc
      rcases Nat.lt_succ_iff_lt_or_eq.mp hc with hlt | rfl
      · right
        refine (h.passed c hlt).resolve_left ?_
        rw [hp]
        exact PollPc.noConfusion
      · exact .inl rfl
    · intro c hc
      rcases Nat.lt_succ_iff_lt_or_eq.mp hc with hlt | rfl
      · exact h.valid c hlt
      · exact hvalid
  | @enqueue c _ _ hp hs hopen =>
    have hcalls := (enqueue_step_cases hs).calls
    have hlt := h.polled c hp
    refine ⟨?_, h.polled, ?_, h.valid⟩
    · intro d hd
      rw [hcalls d (Nat.ne_of_gt (Nat.lt_of_lt_of_le hlt hd))]
      exact h.fresh d hd
    · intro d hd
      by_cases hdc : d = c
      · exact .inl (hdc ▸ hp)
      · rw [hcalls d hdc]
        exact h.passed d hd
  | @enqueued c hp hc =>
    refine ⟨h.fresh, fun _ => PollPc.noConfusion, ?_, h.valid⟩
    intro d hd
    right
    rcases h.passed d hd with hd | hd
    · cases hp.symm.trans hd
      exact hc
    · exact hd
  | stop hp =>
    refine ⟨h.fresh, fun _ => PollPc.noConfusion, ?_, h.valid⟩
    intro d hd
    right
    refine (h.passed d hd).resolve_left ?_
    rw [hp]
    exact PollPc.noConfusion

theorem pollInv_history (h : (serverLts self setup nelems).History xs s) : PollInv setup s := by
  refine h.reachable.invariant ?_ (fun _ _ _ hp hs => pollInv_step hs hp)
  intro s hi
  obtain ⟨m, calloc, hpool⟩ := hi.pool.state
  refine ⟨?_, ?_, ?_, ?_⟩
  · intro c _
    rw [hpool]
  · intro c hc
    rw [hi.poll] at hc
    cases hc
  · intro c hc
    rw [hi.accepted] at hc
    exact absurd hc (Nat.not_lt_zero c)
  · intro c hc
    rw [hi.accepted] at hc
    exact absurd hc (Nat.not_lt_zero c)

/-- A call has one task, and one thread that runs it. -/
theorem running_unique {pool : ThrPool.State} (hinv : PoolInv self setup.request pool)
    {task' : TaskRef} (hn : (pool.nodes n).pc = .running task)
    (hk : (pool.nodes k).pc = .running task') (hcall : task'.call = task.call) : k = n := by
  obtain ⟨_, hndx, _⟩ := hinv.tasks.pushed n task (TaskInv.task_mem (by rw [hn]; rfl))
  obtain ⟨_, hndx', _⟩ := hinv.tasks.pushed k task' (TaskInv.task_mem (by rw [hk]; rfl))
  rw [hcall] at hndx'
  exact hndx'.symm.trans hndx

/-- A thread acts for the connection of its task, and leaves the pool alone when it acts on a
descriptor. -/
theorem client_step {op : ClientOp} (hs : DispatchStep self n task s e t)
    (he : e = .client c op) : task.call = c ∧ t.pool = s.pool := by
  cases hs with
  | client_proc | shutdown | close =>
    cases he
    exact ⟨rfl, rfl⟩
  | _ => cases he

/-- How a thread comes to run a task: it has run it without a step of its own, it calls
`dispatch_client_`, or it goes on in it. -/
theorem dispatch_before (hs : Step self setup s e t) (hinv : PoolInv self setup.request s.pool)
    (h : (t.pool.nodes n).pc = .running task) :
    ((s.pool.nodes n).pc = .running task ∧ t.dispatch n = s.dispatch n ∧
      ∀ op, e ≠ .client task.call op) ∨
    ((s.pool.nodes n).pc = .test task ∧
      t.dispatch n = ⟨.set_buf 0, enqueued_args self setup.request n task.call⟩ ∧
      e.clientOp = none) ∨
    ((s.pool.nodes n).pc = .running task ∧ DispatchStep self n task s e t) := by
  have hran : (∀ k r args bytes, e ≠ .pool (.call k r args bytes)) →
      (s.pool.nodes n).pc = .running task := by
    intro he
    rcases pool_step hs with ⟨_, hsame⟩ | ⟨b, hb, hstep⟩
    · rw [← hsame]
      exact h
    · refine (running_step hstep hinv h).resolve_right ?_
      rintro ⟨bytes, rfl, _⟩
      cases e with
      | pool b =>
        cases hb
        exact he _ _ _ _ rfl
      | _ => cases hb
  cases hs with
  | accept | invalid | enqueued | stop => exact .inl ⟨h, rfl, fun _ => Event.noConfusion⟩
  | enqueue hp hs hopen =>
    refine .inl ⟨hran ?_, rfl, fun _ => Event.noConfusion⟩
    rintro k r args bytes heq
    cases heq
    cases hs
  | thread k he hs =>
    refine .inl ⟨hran ?_, rfl, fun _ => Event.noConfusion⟩
    rintro k' r args bytes heq
    cases heq
    exact he
  | run hs =>
    refine .inl ⟨hran ?_, rfl, fun _ => Event.noConfusion⟩
    rintro k r args bytes heq
    cases heq
    cases hs
  | done hp hs =>
    refine .inl ⟨hran ?_, rfl, fun _ => Event.noConfusion⟩
    rintro k r args bytes heq
    cases heq
    cases hs
  | call k hs =>
    by_cases hk : n = k
    · subst hk
      right
      left
      rcases running_step (.thread n hs) hinv h with hrun | ⟨_, heq, htest⟩
      · cases hs with
        | call hn _ => cases hn.symm.trans hrun
      · cases heq
        exact ⟨htest, Function.update_self _ _ _, rfl⟩
    · left
      refine ⟨?_, Function.update_of_ne hk _ _, fun _ => Event.noConfusion⟩
      rw [← (thread_step_cases hs).nodes n hk]
      exact h
  | @dispatch _ _ k task' hk hs =>
    have hold := hran (by cases hs <;> simp)
    by_cases hnk : n = k
    · subst hnk
      cases hk.symm.trans hold
      exact .inr (.inr ⟨hold, hs⟩)
    · refine .inl ⟨hold, (dispatch_step_cases hs).others n hnk, ?_⟩
      intro op he
      exact hnk (running_unique hinv hold hk (client_step hs he).1).symm

/-- The threads work on the payloads of their nodes. -/
theorem ownPayload_step (hs : Step self setup s e t) (hinv : PoolInv self setup.request s.pool)
    (h : OwnPayload self s) : OwnPayload self t := by
  intro n task hrun
  rcases dispatch_before hs hinv hrun with ⟨hran, hkept, _⟩ | ⟨_, hcalled, _⟩ | ⟨hran, hs⟩
  · rw [State.sock, hkept]
    exact h n task hran
  · rw [State.sock, hcalled]
    rfl
  · rw [State.sock, (dispatch_step_cases hs).args]
    exact h n task hran

theorem ownPayload_history (h : (serverLts self setup nelems).History xs s) :
    OwnPayload self s := by
  refine h.induction (P := fun _ s => OwnPayload self s) ?_ ?_
  · intro s hi n task hrun
    obtain ⟨m, calloc, hpool⟩ := hi.pool.state
    rw [hpool] at hrun
    cases hrun
  · exact fun xs s e t hhist hown hs => ownPayload_step hs (poolInv_history hhist) hown

/-- A socket that is held has been held before, unless its call has only just got its task. -/
theorem holds_step (hs : Step self setup s e t) (hinv : PoolInv self setup.request s.pool)
    (h : t.Holds n c) : s.Holds n c ∨ (s.pool.calls c).pc = .allocate := by
  rcases h with hearly | ⟨task, hrun, hcall, hopen⟩
  · rcases pool_step hs with ⟨_, hsame⟩ | ⟨b, _, hstep⟩
    · rw [hsame] at hearly
      exact .inl (.inl hearly)
    · exact (early_step hstep hinv hearly).imp_left .inl
  · left
    rcases dispatch_before hs hinv hrun with ⟨hran, hkept, _⟩ | ⟨htest, _, _⟩ | ⟨hran, hs⟩
    · rw [hkept] at hopen
      exact .inr ⟨task, hran, hcall, hopen⟩
    · exact .inl (.inr (.inl ⟨task, htest, hcall⟩))
    · refine .inr ⟨task, hran, hcall, ?_⟩
      cases hs with
      | set_buf hp | buf_set hp | client_proc hp | processing hp | processed hp | log hp
      | test_fd hp | shutdown hp | close hp =>
        rw [hp]
        trivial
      | test_pai hp =>
        simp only [State.goto, Function.update_self] at hopen
        split at hopen <;> exact False.elim hopen
      | _ =>
        simp only [State.goto, Function.update_self] at hopen
        exact False.elim hopen

theorem holds_active (h : s.Holds n c) : s.pool.Active n c := by
  rcases h with hearly | ⟨task, hrun, hcall, _⟩
  · exact early_active hearly
  · exact .inr (List.mem_map.mpr ⟨task, TaskInv.task_mem (by rw [hrun]; rfl), hcall⟩)

theorem thread_write {pool pool' : ThrPool.State} {a : Nat} {byte : UInt8}
    (hs : ThreadStep self n pool (.write c a byte) pool') :
    pool'.nodes = pool.nodes ∧ pool'.mem = Function.update pool.mem a byte := by
  cases hs
  exact ⟨rfl, rfl⟩

/-- The socket of a task that runs is held until it is closed. -/
theorem holds_open (hinv : PoolInv self setup.request s.pool) (h : s.Holds n task.call)
    (hk : (s.pool.nodes k).pc = .running task) : (s.dispatch k).pc.Open := by
  rcases h with hearly | ⟨task', hn, hcall, hopen⟩
  · exact absurd hearly (running_not_early hinv hk)
  · exact running_unique hinv hk hn hcall ▸ hopen

/-- Neither `memcpy` nor the thread that works on the socket writes over its descriptor before it
is closed. -/
theorem own_write {a i : Nat} {byte : UInt8} (hs : Step self setup s (.pool (.write c a byte)) t)
    (hinv : PoolInv self setup.request s.pool)
    (hcopy : CopyInv self setup.request c (s.pool.calls c)) (hown : OwnPayload self s)
    (hbefore : s.Holds n c) (hafter : t.Holds n c) (hi : i < 4)
    (hcopied : (s.pool.calls c).copied i = true) : a ≠ self.task_payload n + i := by
  have hactive := holds_active hbefore
  obtain ⟨_, hndx⟩ := hinv.tasks.active_pc hactive
  have hin := payload_in hinv hcopy hactive hcopied
  cases hs with
  | thread k he hs => exact he.elim
  | run hs => cases hs
  | done hp hs => cases hs
  | enqueue hp hs hopen =>
    cases hs with
    | @copy dest j bytes hc hbytes hj hnot =>
      obtain ⟨_, hdest⟩ := hinv.tasks.dest _ dest hc
      rw [hndx] at hdest
      intro heq
      obtain rfl : j = i := by omega
      rw [hcopied] at hnot
      cases hnot
  | @dispatch _ _ k task hk hs =>
    generalize he : Event.pool (.write c a byte) = e at hs
    have hclosed : ∀ {a byte}, ThreadStep self k s.pool (.write task.call a byte) t.pool →
        task.call = c → (t.dispatch k).pc.Open := by
      rintro a byte hw rfl
      refine holds_open (poolInv_step (.thread k hw) hinv) hafter ?_
      rw [(thread_write hw).1]
      exact hk
    cases hs with
    | set_buf hp hj hw =>
      cases he
      obtain ⟨_, hndx', _⟩ := hinv.tasks.pushed k task (TaskInv.task_mem (by rw [hk]; rfl))
      have hoffset : TecSocket_buf = 80 := rfl
      rw [hown k task hk, ← hndx', hndx]
      omega
    | processing hp ha hw =>
      cases he
      rintro rfl
      exact ha hin
    | set_fd hp hj hw =>
      cases he
      have hopen := hclosed hw rfl
      simp only [State.goto, Function.update_self] at hopen
      exact False.elim hopen
    | set_pai hp hj hw =>
      cases he
      have hopen := hclosed hw rfl
      simp only [State.goto, Function.update_self] at hopen
      exact False.elim hopen
    | _ => cases he

/-- A safe step leaves the descriptors as they are. -/
theorem kept_step (hs : Step self setup s e t) (hinv : PoolInv self setup.request s.pool)
    (hcopy : ∀ c, CopyInv self setup.request c (s.pool.calls c)) (hown : OwnPayload self s)
    (hsafe : DescriptorSafe self s e) (h : Kept self setup s) : Kept self setup t := by
  intro n c i hafter hi hcopied
  have hholds := holds_step hs hinv hafter
  rcases pool_step hs with ⟨_, hsame⟩ | ⟨b, hb, hstep⟩
  · rw [hsame] at hcopied ⊢
    refine h n c i (hholds.resolve_right ?_) hi hcopied
    intro hallocate
    rw [(hcopy c).ahead (by rw [hallocate]; trivial) i] at hcopied
    cases hcopied
  · have hbefore : s.Holds n c := by
      refine hholds.resolve_right ?_
      intro hallocate
      have hnot := (hcopy c).ahead (by rw [hallocate]; trivial) i
      rcases copied_step hstep hcopied with hold | ⟨dest, bytes, hpc, _⟩
      · rw [hnot] at hold
        cases hold
      · cases hallocate.symm.trans hpc
    have hactive := holds_active hbefore
    rcases copied_step hstep hcopied with hold | ⟨dest, bytes, hpc, hbytes, hmem⟩
    · refine Eq.trans ?_ (h n c i hbefore hi hold)
      refine (payload_written hstep hinv (payload_in hinv (hcopy c) hactive hold)).resolve_right ?_
      rintro ⟨d, byte, rfl, hne⟩
      have he : e = .pool (.write d (self.task_payload n + i) byte) := by
        cases e with
        | pool b =>
          cases hb
          rfl
        | _ => cases hb
      subst he
      by_cases hdc : d = c
      · subst hdc
        exact own_write hs hinv (hcopy d) hown hbefore hafter hi hold rfl
      · exact hsafe hne n c i (Ne.symm hdc) hbefore hi hold rfl
    · obtain ⟨_, hndx⟩ := hinv.tasks.active_pc hactive
      obtain ⟨_, hdest⟩ := hinv.tasks.dest c dest hpc
      rw [hndx] at hdest
      rw [← hdest, hmem]
      exact congrFun (Option.some.inj hbytes).symm i

theorem kept_history
    (h : ((serverLts self setup nelems).restrict (DescriptorSafe self)).History xs s) :
    Kept self setup s := by
  refine h.induction (P := fun _ s => Kept self setup s) ?_ ?_
  · intro s hi n c i _ _ hcopied
    obtain ⟨m, calloc, hpool⟩ := hi.pool.state
    rw [hpool] at hcopied
    cases hcopied
  · rintro xs s e t hhist hkept ⟨hsafe, hs⟩
    have hplain := hhist.of_restrict
    exact kept_step hs (poolInv_history hplain) (copyInv_history (pool_history hplain))
      (ownPayload_history hplain) hsafe hkept

/-- A thread that has not closed its socket finds the descriptor that was accepted. -/
theorem fd_eq (hinv : PoolInv self setup.request s.pool)
    (hcopy : CopyInv self setup.request task.call (s.pool.calls task.call))
    (hown : OwnPayload self s) (hkept : Kept self setup s)
    (hsize : self.payload_size = TecSocket_size) (harena : self.payload_arena ≠ 0)
    (hn : (s.pool.nodes n).pc = .running task) (hopen : (s.dispatch n).pc.Open) :
    fd s.pool.mem (s.sock n) = setup.fd task.call := by
  obtain ⟨hreturned, _, _⟩ := hinv.tasks.pushed n task (TaskInv.task_mem (by rw [hn]; rfl))
  have hbytes : ∀ i < 4, s.pool.mem (self.task_payload n + i) = setup.cli task.call i := by
    intro i hi
    refine hkept n task.call i (.inr ⟨task, hn, rfl, hopen⟩) hi ?_
    refine hcopy.complete harena rfl (by rw [hreturned]; trivial) i ?_
    rw [hsize]
    exact Nat.lt_trans hi (by decide)
  have hload : load s.pool.mem (self.task_payload n) 4 = load (setup.cli task.call) 0 4 := by
    apply load_eq
    intro i hi
    rw [Nat.zero_add]
    exact hbytes i hi
  rw [fd, Setup.fd, fd, hown n task hn]
  exact congrArg (fun v : Nat => toInt v) hload

end Tecc.PooledServer
