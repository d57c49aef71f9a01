import Tecc.ThrPoolOnce

/-! The payload slot belongs to the node, not to the task: a task finds the payload of its own
call as long as nobody writes over a byte that an unfinished task of the node still needs. -/
namespace Tecc.ThrPool

open Machine Memory Arena Transition

variable {self : TecThrPool} {request : Nat → Request} {nelems : Nat} {s t : State} {e : Event}
  {xs : List Event} {c d n k : Nat}

/-- The task of the call is being filled or waits for the thread of the node. -/
def State.Early (s : State) (n c : Nat) : Prop :=
  (s.calls c).pc.Filling ∧ (s.calls c).ndx = n ∨ (s.nodes n).Waits c

/-- The task function of the call has not returned. -/
def State.Unfinished (s : State) (n c : Nat) : Prop :=
  s.Early n c ∨ ∃ task, (s.nodes n).pc = .running task ∧ task.call = c

/-- A write leaves the bytes alone that the unfinished tasks of other calls have copied. -/
def PayloadSafe (self : TecThrPool) (request : Nat → Request) (s : State) : Event → Prop
  | .write c a byte => s.mem a ≠ byte → ∀ n d i, d ≠ c → s.Unfinished n d →
      (request d).task_func ≠ 0 → (s.calls d).copied i = true → a ≠ self.task_payload n + i
  | _ => True

/-- The caller is ahead of `memcpy`. -/
def EnqueuePc.Ahead : EnqueuePc → Prop
  | .memcpy _ | .task_func | .args | .push | .returned => False
  | _ => True

/-- The caller is behind `memcpy`. -/
def EnqueuePc.Behind : EnqueuePc → Prop
  | .task_func | .args | .push | .returned => True
  | _ => False

/-- Which bytes a call has copied. -/
structure CopyInv (pool : TecThrPool) (request : Nat → Request) (c : Nat) (call : Call) :
    Prop where
  ahead : call.pc.Ahead → ∀ i, call.copied i = false
  bounds : ∀ i, call.copied i = true → i < pool.payload_size ∧ pool.payload_arena ≠ 0
  complete : pool.payload_arena ≠ 0 → (request c).payload.isSome → call.pc.Behind →
    ∀ i < pool.payload_size, call.copied i = true

/-- The unfinished tasks find the bytes that they have copied. -/
def Intact (self : TecThrPool) (request : Nat → Request) (s : State) : Prop :=
  ∀ n c bytes i, s.Early n c → (request c).payload = some bytes → (request c).task_func ≠ 0 →
    (s.calls c).copied i = true → s.mem (self.task_payload n + i) = bytes i

theorem CopyInv.of_ahead {call : Call} (hpc : call.pc.Ahead)
    (hcopied : ∀ i, call.copied i = false) : CopyInv self request c call where
  ahead _ := hcopied
  bounds i hi := by
    rw [hcopied i] at hi
    cases hi
  complete _ _ hbehind := by
    cases hcase : call.pc <;> simp_all [EnqueuePc.Ahead, EnqueuePc.Behind]

/-- The caller goes on behind `memcpy`. -/
theorem CopyInv.of_behind {call : Call} {pc : EnqueuePc} (h : CopyInv self request c call)
    (hbehind : call.pc.Behind) (hpc : ¬ pc.Ahead) :
    CopyInv self request c { call with pc := pc } where
  ahead hahead := absurd hahead hpc
  bounds := h.bounds
  complete harena hsome _ := h.complete harena hsome hbehind

theorem copyInv_step (hs : Step self request s e t) (hinv : PoolInv self request s)
    (h : ∀ c, CopyInv self request c (s.calls c)) : ∀ c, CopyInv self request c (t.calls c) := by
  have hother : ∀ c call, CopyInv self request c call →
      ∀ d, CopyInv self request d (Function.update s.calls c call d) := by
    intro c call hcall
    exact (Function.forall_update_iff s.calls (p := fun d => CopyInv self request d)).mpr
      ⟨hcall, fun d _ => h d⟩
  cases hs with
  | thread n hs =>
    rw [(thread_step_cases hs).calls]
    exact h
  | run hs => cases hs <;> exact h
  | done hs => cases hs <;> exact h
  | enqueue c hs hopen =>
    have hc := h c
    cases hs with
    | fetch_add hpc | allocate hpc _ _ _ | buffer_size hpc | buffer hpc | payload hpc =>
      exact hother c _ (.of_ahead trivial (hc.ahead (by rw [hpc]; trivial)))
    | test_payload hpc =>
      have hcopied := hc.ahead (by rw [hpc]; trivial)
      have hfill : (s.calls c).pc.Filling := by
        rw [hpc]
        trivial
      have hload := hinv.tasks.test_payload_load hpc (hopen (filling_not_idle hfill))
      refine hother c _ ⟨fun _ => hcopied, ?_, ?_⟩
      · intro i hi
        rw [hcopied i] at hi
        cases hi
      · intro harena hsome hbehind
        simp only [hload, TecThrPool.task_payload, if_pos harena, hsome] at hbehind
        rw [if_pos ⟨trivial, by omega⟩] at hbehind
        exact hbehind.elim
    | @copy dest i bytes hpc hbytes hi hcopied =>
      refine hother c _ ⟨?_, ?_, ?_⟩
      · intro hahead
        rw [hpc] at hahead
        exact hahead.elim
      · refine (Function.forall_update_iff (s.calls c).copied (p := fun j (b : Bool) =>
          b = true → j < self.payload_size ∧ self.payload_arena ≠ 0)).mpr
          ⟨fun _ => ⟨hi, ?_⟩, fun j _ => hc.bounds j⟩
        exact (hinv.tasks.payload_bytes hpc hi).1
      · intro _ _ hbehind
        rw [hpc] at hbehind
        exact hbehind.elim
    | copied hpc hcopied =>
      exact hother c _ ⟨fun hahead => hahead.elim, hc.bounds, fun _ _ _ => hcopied⟩
    | task_func hpc | args hpc | push hpc =>
      exact hother c _ (hc.of_behind (by rw [hpc]; trivial) (fun hahead => hahead))

theorem ndx_step (hs : Step self request s e t) (hc : (s.calls c).pc ≠ .idle) :
    (t.calls c).ndx = (s.calls c).ndx := by
  cases hs with
  | thread n hs => rw [(thread_step_cases hs).calls]
  | run hs => cases hs <;> rfl
  | done hs => cases hs <;> rfl
  | enqueue d hs hopen =>
    by_cases hcd : c = d
    · subst hcd
      cases hs with
      | fetch_add hidle => exact absurd hidle hc
      | _ => simp
    · rw [(enqueue_step_cases hs).calls c hcd]

/-- An early task was early before, unless its call has only just got it. -/
theorem early_step (hs : Step self request s e t) (hinv : PoolInv self request s)
    (h : t.Early n c) : s.Early n c ∨ (s.calls c).pc = .allocate := by
  have hinv' := poolInv_step hs hinv
  rcases h with ⟨hfill, hn⟩ | hwaits
  · cases hs with
    | thread k hs =>
      rw [(thread_step_cases hs).calls] at hfill hn
      exact .inl (.inl ⟨hfill, hn⟩)
    | run hs => cases hs <;> exact .inl (.inl ⟨hfill, hn⟩)
    | done hs => cases hs <;> exact .inl (.inl ⟨hfill, hn⟩)
    | enqueue d hs hopen =>
      by_cases hcd : c = d
      · subst hcd
        cases hs with
        | fetch_add hc =>
          simp at hfill
          exact hfill.elim
        | allocate hc hcalloc hr htask => exact .inr hc
        | push hc =>
          simp at hfill
          exact hfill.elim
        | test_payload hc | buffer_size hc | buffer hc | payload hc | copied hc _ | task_func hc
        | args hc | copy hc _ _ _ =>
          simp only [setCall_self] at hn
          exact .inl (.inl ⟨by rw [hc]; trivial, hn⟩)
      · rw [(enqueue_step_cases hs).calls c hcd] at hfill hn
        exact .inl (.inl ⟨hfill, hn⟩)
  · rcases waits_step hs hwaits with hwaits | hpush
    · exact .inl (.inr hwaits)
    · obtain ⟨r, hr, rfl⟩ := waits_tasks hwaits
      obtain ⟨hreturned, hn, _⟩ := hinv'.tasks.pushed n r hr
      refine .inl (.inl ⟨by rw [hpush]; trivial, ?_⟩)
      rw [← ndx_step hs (by rw [hpush]; exact EnqueuePc.noConfusion)]
      exact hn

theorem early_active (h : s.Early n c) : s.Active n c := by
  rcases h with hfill | hwaits
  · exact .inl hfill
  · obtain ⟨r, hr, hrc⟩ := waits_tasks hwaits
    exact .inr (List.mem_map.mpr ⟨r, hr, hrc⟩)

/-- A task that runs is not early. -/
theorem running_not_early (hinv : PoolInv self request s) {task : TaskRef}
    (hpc : (s.nodes k).pc = .running task) : ¬ s.Early n task.call := by
  intro hearly
  have htask : (s.nodes k).pc.task = some task := by
    rw [hpc]
    rfl
  obtain ⟨hreturned, hk, _⟩ := hinv.tasks.pushed k task (TaskInv.task_mem htask)
  have hn := (hinv.tasks.active_pc (early_active hearly)).2
  obtain rfl : n = k := hn.symm.trans hk
  rcases hearly with ⟨hfill, _⟩ | ⟨r, htest, _⟩ | ⟨r, hr, hcall⟩
  · rw [hreturned] at hfill
    exact hfill
  · rw [hpc] at htest
    cases htest
  · exact hinv.tasks.task_not_queued htask hr hcall

/-- A task is unfinished until its function returns. -/
theorem unfinished_step (hs : Step self request s e t) (hinv : PoolInv self request s)
    (hruns : (request c).task_func ≠ 0) (h : s.Unfinished n c) :
    t.Unfinished n c ∨
      ∃ task, e = .return n task ∧ task.call = c ∧ (s.nodes n).pc = .running task := by
  have hthread : ∀ task, task.call = c →
      (s.nodes n).pc = .test task ∨ (s.nodes n).pc = .running task → t.Unfinished n c ∨
        ∃ task, e = .return n task ∧ task.call = c ∧ (s.nodes n).pc = .running task := by
    intro task hcall hpc
    by_cases hown : ThreadStep self n s e t
    · cases hown with
      | @call r hn hfunc =>
        rw [hn] at hpc
        rcases hpc with heq | heq
        · cases heq
          exact .inl (.inr ⟨task, by simp, hcall⟩)
        · cases heq
      | @skip r hn hfunc =>
        rw [hn] at hpc
        rcases hpc with heq | heq
        · cases heq
          have hopen := hinv.control.open_of_running (n := n) (by rw [hn]; exact fun h => h)
          have hargs := args_of_pending hinv hopen (TaskInv.task_mem (by rw [hn]; rfl))
          refine absurd ((congrArg TaskArgs.task_func hargs).symm.trans hfunc) ?_
          exact (runs_iff self n).mp (decide_eq_true (hcall.symm ▸ hruns))
        · cases heq
      | @write r a byte hn ha =>
        rw [hn] at hpc
        rcases hpc with heq | heq
        · cases heq
        · cases heq
          exact .inl (.inr ⟨task, hn, hcall⟩)
      | @«return» r hn =>
        rw [hn] at hpc
        rcases hpc with heq | heq
        · cases heq
        · cases heq
          exact .inr ⟨task, rfl, hcall, hn⟩
      | pop hn _ | pop_null hn _ | release hn _ | set_terminated hn =>
        rw [hn] at hpc
        rcases hpc with heq | heq <;> cases heq
    · left
      have hkept : (t.nodes n).pc = (s.nodes n).pc := by
        refine (foreign_step hs hinv.control hown).2.resolve_right ?_
        rintro ⟨habsent, _⟩
        rw [habsent] at hpc
        rcases hpc with heq | heq <;> cases heq
      rcases hpc with hpc | hpc
      · exact .inl (.inr (.inl ⟨task, hkept.trans hpc, hcall⟩))
      · exact .inr ⟨task, hkept.trans hpc, hcall⟩
  rcases h with (⟨hfill, hn⟩ | ⟨task, htest, hcall⟩ | ⟨task, hq, hcall⟩) | ⟨task, hrun, hcall⟩
  · left
    left
    cases hs with
    | thread k hs =>
      left
      rw [(thread_step_cases hs).calls]
      exact ⟨hfill, hn⟩
    | run hs => cases hs <;> exact .inl ⟨hfill, hn⟩
    | done hs => cases hs <;> exact .inl ⟨hfill, hn⟩
    | enqueue d hs hopen =>
      by_cases hcd : c = d
      · subst hcd
        cases hs with
        | fetch_add hc | allocate hc =>
          rw [hc] at hfill
          exact hfill.elim
        | push hc =>
          subst hn
          exact .inr (.inr ⟨⟨(s.calls c).task, c⟩, by simp [State.setCall], rfl⟩)
        | test_payload hc =>
          refine .inl ⟨?_, by simpa using hn⟩
          simp only [setCall_self]
          split <;> trivial
        | copy hc => exact .inl ⟨by simpa using hfill, by simpa using hn⟩
        | _ => exact .inl ⟨by rw [setCall_self]; trivial, by simpa using hn⟩
      · left
        rw [(enqueue_step_cases hs).calls c hcd]
        exact ⟨hfill, hn⟩
  · exact hthread task hcall (.inl htest)
  · left
    left
    right
    rcases queued_step hs hq with hq | htest
    · exact .inr ⟨task, hq, hcall⟩
    · exact .inl ⟨task, htest, hcall⟩
  · exact hthread task hcall (.inr hrun)

/-- A call whose task is done has been so before, unless its function returns. -/
theorem finished_step (hs : Step self request s e t) (hinv : PoolInv self request s)
    (hruns : (request c).task_func ≠ 0) (hc : (t.calls c).pc = .returned)
    (h : ∀ n, ¬ t.Unfinished n c) :
    ((s.calls c).pc = .returned ∧ ∀ n, ¬ s.Unfinished n c) ∨
      ∃ n task, e = .return n task ∧ task.call = c ∧ (s.nodes n).pc = .running task := by
  by_cases hunfinished : ∃ n, s.Unfinished n c
  · obtain ⟨n, hn⟩ := hunfinished
    exact .inr ⟨n, (unfinished_step hs hinv hruns hn).resolve_left (h n)⟩
  · left
    have hnone : ∀ n, ¬ s.Unfinished n c := fun n hn => hunfinished ⟨n, hn⟩
    refine ⟨?_, hnone⟩
    cases hs with
    | thread k hs => rwa [(thread_step_cases hs).calls] at hc
    | run hs => cases hs <;> exact hc
    | done hs => cases hs <;> exact hc
    | enqueue d hs hopen =>
      by_cases hcd : c = d
      · subst hcd
        cases hs with
        | push hpush => exact absurd (.inl (.inl ⟨by rw [hpush]; trivial, rfl⟩)) (hnone _)
        | test_payload hpc =>
          simp only [setCall_self] at hc
          split at hc <;> cases hc
        | copy hpc =>
          simp only [setCall_self] at hc
          exact hc
        | _ =>
          simp only [setCall_self] at hc
          cases hc
      · rwa [(enqueue_step_cases hs).calls c hcd] at hc

/-- Nothing but a write changes a payload. -/
theorem payload_kept (hs : Step self request s e t) (hinv : PoolInv self request s)
    (he : ∀ c a byte, e ≠ .write c a byte) {a : Nat} (ha : self.InPayloads a) :
    t.mem a = s.mem a := by
  have hassign : ∀ c o v, (s.calls c).pc.Filling → (s.nodes (s.calls c).ndx).destroyed = false →
      o + 8 ≤ TecTask_size → store s.mem ((s.calls c).task + o) 8 v a = s.mem a := by
    intro c o v hfill hopen ho
    refine store_other ?_
    by_contra hin
    exact hinv.tasks.payload _ a
      (hinv.tasks.record_owned hopen (.inl ⟨hfill, rfl⟩) (by omega) (by omega)) ha
  cases hs with
  | run hs => cases hs <;> rfl
  | done hs => cases hs <;> rfl
  | enqueue c hs hopen =>
    cases hs with
    | @allocate calloc task arena m hc hcalloc hr htask =>
      have hopen' := hopen (by rw [hc]; exact EnqueuePc.noConfusion)
      obtain ⟨free, harena⟩ := hinv.tasks.arena _ hopen'
      refine (harena.allocate_frame hr).2 a ?_
      have hsize : (s.view (s.calls c).ndx).arena.elem_size = TecTask_size :=
        hinv.tasks.elem_size _
      rw [hsize]
      by_contra hin
      exact (hinv.tasks.fresh_bytes hopen' hcalloc htask hr (by omega) (by omega)).1 ha
    | buffer_size hc | buffer hc | payload hc | task_func hc | args hc =>
      have hfill : (s.calls c).pc.Filling := by
        rw [hc]
        trivial
      exact hassign c _ _ hfill (hopen (filling_not_idle hfill)) (by decide)
    | copy => exact absurd rfl (he _ _ _)
    | _ => rfl
  | thread n hs =>
    have hopen := hinv.control.open_of_running (thread_step_cases hs).before
    cases hs with
    | @release task arena m freed hn hr =>
      refine TecArena_release_frame hr a ?_
      have htask : (s.nodes n).pc.task = some task := by
        rw [hn]
        rfl
      have hmem := TaskInv.task_mem htask
      obtain ⟨_, _, hptr⟩ := hinv.tasks.pushed n task hmem
      have hsize : TecTask_size = 48 := rfl
      by_contra hin
      refine hinv.tasks.payload n a (hinv.tasks.record_owned (c := task.call) hopen
        (.inr (List.mem_map_of_mem hmem)) ?_ ?_) ha
      · rw [hptr]
        omega
      · rw [hptr]
        omega
    | write => exact absurd rfl (he _ _ _)
    | _ => rfl

/-- A byte is copied from the payload of its call. -/
theorem copied_step (hs : Step self request s e t) {i : Nat} (h : (t.calls c).copied i = true) :
    (s.calls c).copied i = true ∨ ∃ dest bytes, (s.calls c).pc = .memcpy dest ∧
      (request c).payload = some bytes ∧ t.mem (dest + i) = bytes i := by
  cases hs with
  | thread n hs =>
    rw [(thread_step_cases hs).calls] at h
    exact .inl h
  | run hs => cases hs <;> exact .inl h
  | done hs => cases hs <;> exact .inl h
  | enqueue d hs hopen =>
    by_cases hcd : c = d
    · subst hcd
      cases hs with
      | @copy dest j bytes hc hbytes hj hcopied =>
        by_cases hij : i = j
        · subst hij
          exact .inr ⟨dest, bytes, hc, hbytes, by simp⟩
        · simp [hij] at h
          exact .inl h
      | _ =>
        simp at h
        exact .inl h
    · rw [(enqueue_step_cases hs).calls c hcd] at h
      exact .inl h

/-- Who writes: `memcpy` a byte of its own, or a task function. -/
theorem write_step {a : Nat} {byte : UInt8} (hs : Step self request s (.write c a byte) t) :
    t.mem = Function.update s.mem a byte ∧
      ((∃ dest i, (s.calls c).pc = .memcpy dest ∧ (s.calls c).copied i = false ∧ a = dest + i) ∨
        ∃ n task, (s.nodes n).pc = .running task ∧ task.call = c) := by
  cases hs with
  | enqueue d hs hopen =>
    cases hs with
    | copy hc hbytes hi hcopied => exact ⟨rfl, .inl ⟨_, _, hc, hcopied, rfl⟩⟩
  | thread n hs =>
    cases hs with
    | write hn ha => exact ⟨rfl, .inr ⟨n, _, hn, rfl⟩⟩
  | run hs => cases hs
  | done hs => cases hs

theorem enqueue_write (hs : EnqueueStep self request d s e t) {a : Nat} {byte : UInt8}
    (he : e = .write c a byte) : c = d := by
  cases hs with
  | copy =>
    cases he
    rfl
  | _ => cases he

/-- The bytes of a payload lie in the block of the payloads. -/
theorem payload_in (hinv : PoolInv self request s) (hcopy : CopyInv self request c (s.calls c))
    (hactive : s.Active n c) {i : Nat} (hi : (s.calls c).copied i = true) :
    self.InPayloads (self.task_payload n + i) := by
  obtain ⟨hlt, harena⟩ := hcopy.bounds i hi
  obtain ⟨hidle, hn⟩ := hinv.tasks.active_pc hactive
  have hndx := hinv.tasks.ndx c hidle
  rw [hn] at hndx
  have hle := stride_le self.payload_size hndx
  rw [TecThrPool.task_payload, if_pos harena]
  exact ⟨harena, by omega, by omega⟩

/-- A byte of the payloads changes when it is written. -/
theorem payload_written (hs : Step self request s e t) (hinv : PoolInv self request s) {a : Nat}
    (hin : self.InPayloads a) :
    t.mem a = s.mem a ∨ ∃ d byte, e = .write d a byte ∧ s.mem a ≠ byte := by
  cases e with
  | write d b byte =>
    obtain ⟨hmem, _⟩ := write_step hs
    by_cases ha : a = b
    · subst ha
      by_cases hbyte : s.mem a = byte
      · left
        rw [hmem, Function.update_self, hbyte]
      · exact .inr ⟨d, byte, rfl, hbyte⟩
    · left
      rw [hmem, Function.update_of_ne ha]
  | _ => exact .inl (payload_kept hs hinv (fun _ _ _ => Event.noConfusion) hin)

/-- A safe step leaves the byte of an unfinished task as it is, unless the task or its caller
writes it. -/
theorem payload_byte (hs : Step self request s e t) (hinv : PoolInv self request s)
    (hcopy : CopyInv self request c (s.calls c)) (hsafe : PayloadSafe self request s e)
    (hactive : s.Active n c) (hunfinished : s.Unfinished n c) (hfunc : (request c).task_func ≠ 0)
    {i : Nat} (hi : (s.calls c).copied i = true) :
    t.mem (self.task_payload n + i) = s.mem (self.task_payload n + i) ∨
      ∃ byte, e = .write c (self.task_payload n + i) byte := by
  rcases payload_written hs hinv (payload_in hinv hcopy hactive hi) with hkept | ⟨d, byte, rfl, hne⟩
  · exact .inl hkept
  · by_cases hdc : d = c
    · exact .inr ⟨byte, by rw [hdc]⟩
    · exact absurd rfl (hsafe hne n c i (Ne.symm hdc) hunfinished hfunc hi)

theorem intact_step (hs : Step self request s e t) (hinv : PoolInv self request s)
    (hcopy : ∀ c, CopyInv self request c (s.calls c)) (hsafe : PayloadSafe self request s e)
    (h : Intact self request s) : Intact self request t := by
  intro n c bytes i hearly hbytes hfunc hcopied
  rcases copied_step hs hcopied with hold | ⟨dest, bytes', hpc, hbytes', hmem⟩
  · have hearly' : s.Early n c := by
      refine (early_step hs hinv hearly).resolve_right ?_
      intro hallocate
      rw [(hcopy c).ahead (by rw [hallocate]; trivial) i] at hold
      cases hold
    have hval := h n c bytes i hearly' hbytes hfunc hold
    rcases payload_byte hs hinv (hcopy c) hsafe (early_active hearly') (.inl hearly') hfunc hold
      with hkept | ⟨byte, rfl⟩
    · exact hkept.trans hval
    · rcases (write_step hs).2 with ⟨dest, j, hpc, hnot, ha⟩ | ⟨k, task, hpc, rfl⟩
      · obtain ⟨_, hn⟩ := hinv.tasks.active_pc (early_active hearly')
        obtain ⟨_, hdest⟩ := hinv.tasks.dest c dest hpc
        rw [hn] at hdest
        obtain rfl : i = j := by omega
        rw [hold] at hnot
        cases hnot
      · exact absurd hearly' (running_not_early hinv hpc)
  · have hearly' : s.Early n c := by
      refine (early_step hs hinv hearly).resolve_right ?_
      rw [hpc]
      exact EnqueuePc.noConfusion
    obtain ⟨_, hn⟩ := hinv.tasks.active_pc (early_active hearly')
    obtain ⟨_, hdest⟩ := hinv.tasks.dest c dest hpc
    rw [hn] at hdest
    rw [← hdest, hmem]
    rw [hbytes] at hbytes'
    exact congrFun (Option.some.inj hbytes').symm i

theorem copyInv_history (h : (poolLts self request nelems).History xs s) (c : Nat) :
    CopyInv self request c (s.calls c) := by
  refine h.induction (P := fun _ s => ∀ c, CopyInv self request c (s.calls c)) ?_ ?_ c
  · intro s hi
    obtain ⟨m, calloc, rfl⟩ := hi.state
    exact fun c => .of_ahead trivial (fun _ => rfl)
  · intro xs s e t hhist hcopy hs
    exact copyInv_step hs (poolInv_reachable hhist.reachable) hcopy

/-- The payloads along a history whose writes are all safe. -/
theorem intact_history
    (h : ((poolLts self request nelems).restrict (PayloadSafe self request)).History xs s) :
    Intact self request s := by
  refine h.induction (P := fun _ s => Intact self request s) ?_ ?_
  · intro s hi n c bytes i _ _ _ hcopied
    obtain ⟨m, calloc, rfl⟩ := hi.state
    cases hcopied
  · rintro xs s e t hhist hintact ⟨hsafe, hs⟩
    exact intact_step hs (poolInv_reachable hhist.of_restrict.reachable)
      (copyInv_history hhist.of_restrict) hsafe hintact

/-- The task functions were called with the payloads of their own calls. -/
def PayloadsFound (self : TecThrPool) (request : Nat → Request) (xs : List Event) : Prop :=
  ∀ n task args bytes, .call n task args bytes ∈ xs →
    ∀ p, (request task.call).payload = some p → bytes = (List.range self.payload_size).map p

/-- No step of another call of `TecThrPool_enqueue` that meets the condition changes the payload
of a task that runs. -/
def PayloadsKept (self : TecThrPool) (request : Nat → Request) (s : State)
    (C : State → Event → Prop) : Prop :=
  ∀ n task, (s.nodes n).pc = .running task → (request task.call).payload.isSome →
    ∀ d e t, d ≠ task.call → C s e → Step self request s e t →
      EnqueueStep self request d s e t →
      ∀ i < self.payload_size, t.mem (self.task_payload n + i) = s.mem (self.task_payload n + i)

theorem found_history (harena : self.payload_arena ≠ 0)
    (h : ((poolLts self request nelems).restrict (PayloadSafe self request)).History xs s) :
    PayloadsFound self request xs := by
  refine h.induction (P := fun xs _ => PayloadsFound self request xs) ?_ ?_
  · intro s _ n task args bytes hmem
    cases hmem
  · rintro xs s e t hhist ih ⟨_, hs⟩ n task args bytes hmem p hp
    rcases List.mem_append.mp hmem with hmem | hmem
    · exact ih n task args bytes hmem p hp
    · have he := List.mem_singleton.mp hmem
      subst he
      have hinv := poolInv_reachable hhist.of_restrict.reachable
      have hcopy := copyInv_history hhist.of_restrict
      have hintact := intact_history hhist
      cases hs with
      | enqueue c hs hopen => cases hs
      | run hs => cases hs
      | done hs => cases hs
      | thread n hs =>
        have hopen := hinv.control.open_of_running (thread_step_cases hs).before
        cases hs with
        | call hn hfunc =>
          have htask := TaskInv.task_mem (by rw [hn]; rfl)
          obtain ⟨hreturned, _, _⟩ := hinv.tasks.pushed n task htask
          have hargs := args_of_pending hinv hopen htask
          have hpointer : load s.mem (task.task + TecTask_payload) 8 = self.task_payload n :=
            congrArg TaskArgs.payload hargs
          have hruns : (request task.call).task_func ≠ 0 := by
            have hfunc' := congrArg TaskArgs.task_func hargs
            intro hzero
            refine hfunc (hfunc'.trans ?_)
            rw [enqueued_args, hzero]
            rfl
          refine List.map_congr_left ?_
          intro i hi
          rw [hpointer]
          refine hintact n task.call p i (.inr (.inl ⟨task, hn, rfl⟩)) hp hruns ?_
          refine (hcopy task.call).complete harena (by rw [hp]; rfl) ?_ i (List.mem_range.mp hi)
          rw [hreturned]
          trivial

/-- As long as no write destroys what an unfinished task still needs, every task finds the payload
of its own call, and keeps it until it returns. -/
theorem payload_isolation (self : TecThrPool) (nelems : Nat) (request : Nat → Request)
    (harena : self.payload_arena ≠ 0) (xs : List Event) (s : State)
    (h : ((poolLts self request nelems).restrict (PayloadSafe self request)).History xs s) :
    PayloadsFound self request xs ∧
      PayloadsKept self request s (PayloadSafe self request) := by
  refine ⟨found_history harena h, ?_⟩
  intro n task hpc hsome d e t hd hsafe hs henqueue i hi
  have hinv := poolInv_reachable h.of_restrict.reachable
  have hcopy := copyInv_history h.of_restrict
  obtain ⟨finished, hprogress⟩ := progress_history h.of_restrict n
  have htask := TaskInv.task_mem (by rw [hpc]; rfl)
  obtain ⟨hreturned, _, _⟩ := hinv.tasks.pushed n task htask
  have hruns : (request task.call).task_func ≠ 0 := of_decide_eq_true (hprogress.running task hpc)
  have hcopied := (hcopy task.call).complete harena hsome (by rw [hreturned]; trivial) i hi
  rcases payload_byte hs hinv (hcopy task.call) hsafe (.inr (List.mem_map_of_mem htask))
    (.inr ⟨task, hpc, rfl⟩) hruns hcopied with hkept | ⟨byte, rfl⟩
  · exact hkept
  · exact absurd (enqueue_write henqueue rfl).symm hd

theorem not_unfinished (hcall : ¬ (s.calls c).pc.Filling)
    (hnodes : ∀ n, (s.nodes n).q = [] ∧ (∀ r, (s.nodes n).pc ≠ .test r) ∧
      ∀ r, (s.nodes n).pc ≠ .running r) (n : Nat) : ¬ s.Unfinished n c := by
  rintro ((⟨hfill, _⟩ | ⟨r, htest, _⟩ | ⟨r, hr, _⟩) | ⟨r, hrun, _⟩)
  · exact hcall hfill
  · exact (hnodes n).2.1 r htest
  · rw [(hnodes n).1] at hr
    cases hr
  · exact (hnodes n).2.2 r hrun

/-- A pool of one thread with a payload of one byte at 65536. -/
def slotPool : TecThrPool := TecThrPool_init 1 0 1 0 65536

theorem slot_initial : Initial slotPool 0 bareState :=
  initial_bare Nat.one_pos ⟨0, 65536, rfl⟩ (fun h => absurd rfl h) (fun _ => by decide)

/-- The test of the payload, where there is one. -/
theorem test_payload_to {dest : Nat} (hinv : PoolInv self request s)
    (hc : (s.calls c).pc = .test_payload)
    (hopen : (s.nodes (s.calls c).ndx).destroyed = false) (hsome : (request c).payload.isSome)
    (hdest : self.task_payload (s.calls c).ndx = dest) (hne : dest ≠ 0) :
    EnqueueStep self request c s .other
      (s.setCall c fun call => { call with pc := .memcpy dest }) := by
  have hload := hinv.tasks.test_payload_load hc hopen
  rw [hdest] at hload
  have hstep := @EnqueueStep.test_payload self request c s hc
  simp only [State.setCall, hload, hsome] at hstep
  rw [if_pos ⟨trivial, hne⟩] at hstep
  exact hstep

theorem allocate_bare (m : Mem) {calloc : Nat} (hne : calloc ≠ 0) :
    TecArena_allocate (TecArena_init 0 TecTask_size 0) m calloc =
      (TecArena_init 0 TecTask_size 0, clear m calloc TecTask_size, calloc) := by
  rw [TecArena_allocate, if_neg (fun h => h rfl), if_neg hne]
  rfl

/-- A task of its own allocation is given back to the heap. -/
theorem release_bare (hinv : PoolInv self request s)
    (harena : (s.nodes n).arena = TecArena_init 0 TecTask_size 0)
    (hopen : (s.nodes n).destroyed = false) {ptr : Nat} (hlive : ptr ∈ (s.nodes n).live) :
    TecArena_release (s.nodes n).arena s.mem ptr = ((s.nodes n).arena, s.mem, some ptr) := by
  obtain ⟨free, hfree⟩ := hinv.tasks.arena n hopen
  have hout : ¬ (s.view n).arena.Inside ptr := by
    rintro ⟨_, hhi⟩
    rw [show (s.view n).arena = TecArena_init 0 TecTask_size 0 from harena] at hhi
    exact absurd hhi (by simp [TecArena_init, TecArena.nslots])
  have hflags : flags s.mem ptr = 0 := hfree.box_flags ptr hlive hout
  rw [TecArena_release, if_neg (hfree.live_ne ptr hlive), hflags]
  rfl

/-- The first call brings a 5, the others a 6. -/
def sixes (c : Nat) : Request := ⟨1, some fun _ => if c = 0 then 5 else 6, 0⟩

def slotLts : Lts State Event := poolLts slotPool sixes 0

/-- Where the only thread is, what waits for it and which tasks are allocated. -/
structure Slot (pc : ThreadPc) (q : List (Option TaskRef)) (live : List Nat) (s : State) :
    Prop where
  node : s.nodes 0 = { TecTaskNode_init 0 0 with thr := 0, pc := pc, q := q, live := live }
  others : ∀ n, n ≠ 0 → s.nodes n = TecTaskNode_init 0 0

section Slot

variable {pc : ThreadPc} {q : List (Option TaskRef)} {live : List Nat} {task : TaskRef}
  {calloc : Nat}

theorem Slot.heap (h : Slot pc q live s) (hfit : calloc + TecTask_size ≤ 65536)
    (hlive : ∀ p ∈ live, Apart calloc TecTask_size p TecTask_size) : s.Heap slotPool calloc := by
  refine bare_heap (Nat.le_trans hfit (by decide))
    (fun _ => below_arenas (by decide) (by decide) hfit) fun n => ?_
  by_cases hn : n = 0
  · subst hn
    rw [h.node]
    exact ⟨rfl, hlive⟩
  · rw [h.others n hn]
    exact ⟨rfl, fun p hp => by cases hp⟩

theorem Slot.unfinished (h : Slot .pop [] live s) (hc : ¬ (s.calls c).pc.Filling) (n : Nat) :
    ¬ s.Unfinished n c := by
  refine not_unfinished hc (fun n => ?_) n
  by_cases hn : n = 0
  · subst hn
    rw [h.node]
    exact ⟨rfl, fun r => ThreadPc.noConfusion, fun r => ThreadPc.noConfusion⟩
  · rw [h.others n hn]
    exact ⟨rfl, fun r => ThreadPc.noConfusion, fun r => ThreadPc.noConfusion⟩

/-- The call `c` goes up to `memcpy`. -/
theorem slot_filled (h : slotLts.History xs s) (hs : Slot pc q live s)
    (hfresh : s.calls c = ⟨.idle, 0, 0, fun _ => false⟩) (hne : calloc ≠ 0)
    (hfit : calloc + TecTask_size ≤ 65536)
    (hlive : ∀ p ∈ live, Apart calloc TecTask_size p TecTask_size) :
    ∃ ys t, (slotLts.restrict (PayloadSafe slotPool sixes)).Run s ys t ∧
      Slot pc q (calloc :: live) t ∧
      t.calls = Function.update s.calls c ⟨.memcpy 65536, 0, calloc, fun _ => false⟩ ∧
      t.mem 65536 = s.mem 65536 := by
  have hheap := hs.heap hfit hlive
  have harena : (s.nodes 0).arena = TecArena_init 0 TecTask_size 0 :=
    congrArg TecTaskNode.arena hs.node
  have hopen : (s.nodes 0).destroyed = false := congrArg TecTaskNode.destroyed hs.node
  have r0 : (slotLts.restrict (PayloadSafe slotPool sixes)).Run s [] s := .refl
  have r1 := r0.snoc_restrict (Step.enqueue c (@fetch_add_to _ _ _ _ 0 _ (congrArg Call.pc hfresh)
    (Nat.mod_one _) rfl) (fun hpc => absurd (congrArg Call.pc hfresh) hpc)) trivial
  have r2 := r1.snoc_restrict (Step.enqueue c (@EnqueueStep.allocate _ _ _ _ calloc calloc
    (TecArena_init 0 TecTask_size 0) (clear s.mem calloc TecTask_size) (by simp) hheap
    (by simpa [State.setCall, harena] using allocate_bare s.mem hne) hne)
    (fun _ => by simpa [State.setCall] using hopen)) trivial
  have r3 := r2.snoc_restrict (Step.enqueue c (.buffer_size (by simp))
    (fun _ => by simpa [State.setCall, State.setNode] using hopen)) trivial
  have r4 := r3.snoc_restrict (Step.enqueue c (.buffer (by simp))
    (fun _ => by simpa [State.setCall, State.setNode] using hopen)) trivial
  have r5 := r4.snoc_restrict (Step.enqueue c (.payload (by simp))
    (fun _ => by simpa [State.setCall, State.setNode] using hopen)) trivial
  have r6 := r5.snoc_restrict (Step.enqueue c (@test_payload_to _ _ _ _ 65536
    (poolInv_reachable (h.run r5.of_restrict).reachable) (by simp)
    (by simpa [State.setCall, State.setNode] using hopen) rfl
    (by simp [State.setCall]; rfl) (by decide))
    (fun _ => by simpa [State.setCall, State.setNode] using hopen)) trivial
  have hoffset : TecTask_buffer_size + 8 ≤ TecTask_size ∧ TecTask_buffer + 8 ≤ TecTask_size ∧
    TecTask_payload + 8 ≤ TecTask_size := by decide
  refine ⟨_, _, r6, ⟨?_, ?_⟩, ?_, ?_⟩
  · simp [State.setCall, State.setNode, hs.node, TecTaskNode_init]
  · intro n hn
    simpa [State.setCall, State.setNode, hn] using hs.others n hn
  · simp [State.setCall, State.setNode, hfresh]
  · simp only [State.setCall, Function.update_self]
    rw [store_other (by omega), store_other (by omega), store_other (by omega),
      clear_other (by omega)]

/-- The call `c` copies its byte and pushes its task. -/
theorem slot_pushed (hs : Slot pc q live s)
    (hc : s.calls c = ⟨.memcpy 65536, 0, calloc, fun _ => false⟩)
    (hsafe : PayloadSafe slotPool sixes s (.write c 65536 (if c = 0 then 5 else 6))) :
    ∃ ys t, (slotLts.restrict (PayloadSafe slotPool sixes)).Run s ys t ∧
      Slot pc (q ++ [some ⟨calloc, c⟩]) live t ∧
      t.calls = Function.update s.calls c
        ⟨.returned, 0, calloc, Function.update (fun _ => false) 0 true⟩ := by
  have hopen : (s.nodes 0).destroyed = false := congrArg TecTaskNode.destroyed hs.node
  have r0 : (slotLts.restrict (PayloadSafe slotPool sixes)).Run s [] s := .refl
  have r1 := r0.snoc_restrict (Step.enqueue c (@EnqueueStep.copy slotPool sixes c s 65536 0 _
    (congrArg Call.pc hc) rfl (by decide) (congrArg (fun call => call.copied 0) hc))
    (fun _ => by simpa [hc] using hopen)) hsafe
  have r2 := r1.snoc_restrict (Step.enqueue c (@EnqueueStep.copied _ _ _ _ 65536
    (by simp [hc]) (fun i hi => by
      obtain rfl : i = 0 := Nat.lt_one_iff.mp hi
      simp))
    (fun _ => by simpa [State.setCall, hc] using hopen)) trivial
  have r3 := r2.snoc_restrict (Step.enqueue c (.task_func (by simp))
    (fun _ => by simpa [State.setCall, hc] using hopen)) trivial
  have r4 := r3.snoc_restrict (Step.enqueue c (.args (by simp))
    (fun _ => by simpa [State.setCall, hc] using hopen)) trivial
  have r5 := r4.snoc_restrict (Step.enqueue c (.push (by simp))
    (fun _ => by simpa [State.setCall, hc] using hopen)) trivial
  refine ⟨_, _, r5, ⟨?_, ?_⟩, ?_⟩
  · simp [State.setCall, State.setNode, hc, hs.node]
  · intro n hn
    simpa [State.setCall, State.setNode, hc, hn] using hs.others n hn
  · simp [State.setCall, State.setNode, hc]

/-- The thread takes the next task and calls its function. -/
theorem slot_called (h : slotLts.History xs s) (hs : Slot .pop (some task :: q) live s) :
    ∃ ys args t, (slotLts.restrict (PayloadSafe slotPool sixes)).Run s
        (ys ++ [.call 0 task args ((List.range 1).map fun i => s.mem (65536 + i))]) t ∧
      Slot (.running task) q live t ∧ t.calls = s.calls ∧ t.mem = s.mem := by
  have r0 : (slotLts.restrict (PayloadSafe slotPool sixes)).Run s [] s := .refl
  have r1 := r0.snoc_restrict (Step.thread 0 (.pop (congrArg TecTaskNode.pc hs.node)
    (congrArg TecTaskNode.q hs.node))) trivial
  have r2 := r1.snoc_restrict (Step.thread 0 (call_to
    (poolInv_reachable (h.run r1.of_restrict).reachable) rfl rfl)) trivial
  refine ⟨_, _, _, r2, ⟨?_, ?_⟩, rfl, rfl⟩
  · simp [State.setNode, hs.node]
  · intro n hn
    simpa [State.setNode, hn] using hs.others n hn

/-- The task returns and is released. -/
theorem slot_returned (h : slotLts.History xs s) (hs : Slot (.running task) q live s)
    (hlive : task.task ∈ live) :
    ∃ ys t, (slotLts.restrict (PayloadSafe slotPool sixes)).Run s ys t ∧
      Slot .pop q (live.erase task.task) t ∧ t.calls = s.calls := by
  have r0 : (slotLts.restrict (PayloadSafe slotPool sixes)).Run s [] s := .refl
  have r1 := r0.snoc_restrict (Step.thread 0 (.return (congrArg TecTaskNode.pc hs.node))) trivial
  have hrelease := @release_bare _ _ _ 0 (poolInv_reachable (h.run r1.of_restrict).reachable)
    (congrArg TecTaskNode.arena hs.node) (congrArg TecTaskNode.destroyed hs.node) task.task
    (by simpa [State.setNode, hs.node] using hlive)
  have r2 := r1.snoc_restrict (Step.thread 0 (.release rfl hrelease)) trivial
  refine ⟨_, _, r2, ⟨?_, ?_⟩, rfl⟩
  · simp [State.setNode, hs.node]
  · intro n hn
    simpa [State.setNode, hn] using hs.others n hn

end Slot

/-- The first task is in the queue. -/
theorem slot_queued :
    ∃ xs s, (slotLts.restrict (PayloadSafe slotPool sixes)).History xs s ∧
      Slot .pop [some ⟨4096, 0⟩] [4096] s ∧
      s.calls = Function.update (fun _ => ⟨.idle, 0, 0, fun _ => false⟩) 0
        ⟨.returned, 0, 4096, Function.update (fun _ => false) 0 true⟩ := by
  have h0 : (slotLts.restrict (PayloadSafe slotPool sixes)).History [] bareState :=
    .init slot_initial
  have h1 := h0.snoc_restrict (Step.run (.enter rfl)) trivial
  have h2 := h1.snoc_restrict (Step.run (.create rfl (by decide))) trivial
  obtain ⟨ys, t, r1, ht, hcalls, _⟩ := @slot_filled _ _ 0 _ _ _ 4096 h2.of_restrict
    ⟨rfl, fun n hn => Function.update_of_ne hn _ _⟩ rfl (by decide) (by decide)
    (fun p hp => by cases hp)
  obtain ⟨zs, u, r2, hu, hcalls'⟩ := @slot_pushed _ 0 _ _ _ 4096 ht
    (by rw [hcalls, Function.update_self]) (by
      intro _ n d i hd _ _ hcopied
      rw [hcalls, Function.update_of_ne hd] at hcopied
      cases hcopied)
  refine ⟨_, _, (h2.run r1).run r2, hu, ?_⟩
  rw [hcalls', hcalls, Function.update_idem]
  rfl

/-- The first task of the node has returned, the second one runs and a third call is about to
copy its byte. -/
structure SecondRuns (xs : List Event) (s : State) : Prop where
  first : ∃ args bytes, .call 0 ⟨4096, 0⟩ args bytes ∈ xs
  second : ∃ args bytes, .call 0 ⟨8192, 1⟩ args bytes ∈ xs
  slot : Slot (.running ⟨8192, 1⟩) [] [12288, 8192] s
  third : s.calls 2 = ⟨.memcpy 65536, 0, 12288, fun _ => false⟩
  mem : s.mem 65536 = 6

theorem second_runs :
    ∃ xs s, (slotLts.restrict (PayloadSafe slotPool sixes)).History xs s ∧ SecondRuns xs s := by
  obtain ⟨xs, s, h0, hs, hcalls⟩ := slot_queued
  obtain ⟨as, args, s₁, r1, hs₁, hcalls₁, _⟩ := slot_called h0.of_restrict hs
  have h1 := h0.run r1
  obtain ⟨bs, s₂, r2, hs₂, hcalls₂⟩ := slot_returned h1.of_restrict hs₁ (by decide)
  have h2 := h1.run r2
  have hreturned : s₂.calls = _ := (hcalls₂.trans hcalls₁).trans hcalls
  obtain ⟨cs, s₃, r3, hs₃, hcalls₃, _⟩ := @slot_filled _ _ 1 _ _ _ 8192 h2.of_restrict hs₂
    (by rw [hreturned]; rfl) (by decide) (by decide) (fun p hp => by cases hp)
  have h3 := h2.run r3
  obtain ⟨ds, s₄, r4, hs₄, hcalls₄⟩ := @slot_pushed _ 1 _ _ _ 8192 hs₃
    (by rw [hcalls₃, Function.update_self]) (by
      intro _ n d i hd hunfinished _ hcopied
      refine (hs₃.unfinished ?_ n hunfinished).elim
      rw [hcalls₃, Function.update_of_ne hd, hreturned]
      by_cases hfirst : d = 0
      · rw [hfirst, Function.update_self]
        exact id
      · rw [Function.update_of_ne hfirst]
        exact id)
  have h4 := h3.run r4
  have hcopied : (s₄.calls 1).copied 0 = true := by
    rw [hcalls₄]
    rfl
  have hsix : s₄.mem 65536 = 6 := by
    refine intact_history h4 0 1 _ 0 (.inr (.inr ⟨⟨8192, 1⟩, ?_, rfl⟩)) rfl (by decide) hcopied
    rw [hs₄.node]
    exact List.mem_cons_self
  obtain ⟨es, args', s₅, r5, hs₅, hcalls₅, hmem₅⟩ := slot_called h4.of_restrict hs₄
  have h5 := h4.run r5
  obtain ⟨fs, s₆, r6, hs₆, hcalls₆, hmem₆⟩ := @slot_filled _ _ 2 _ _ _ 12288 h5.of_restrict hs₅
    (by rw [hcalls₅, hcalls₄, hcalls₃, hreturned]; rfl) (by decide) (by decide)
    (fun p hp => by
      obtain rfl := List.mem_singleton.mp hp
      exact .inr (by decide))
  refine ⟨_, _, h5.run r6, ⟨args, (List.range 1).map fun i => s.mem (65536 + i), ?_⟩,
    ⟨args', (List.range 1).map fun i => s₄.mem (65536 + i), ?_⟩, hs₆, ?_, ?_⟩
  · simp
  · simp
  · rw [hcalls₆, Function.update_self]
  · rw [hmem₆, hmem₅]
    exact hsix

/-- The second payload is copied when the first task has returned, and the third call copies the
same byte while the second task runs. -/
theorem payload_isolation_in_turn :
    slotPool.payload_arena ≠ 0 ∧ ∃ (xs : List Event) (s t : State) (first second : TaskArgs),
      ((poolLts slotPool sixes 0).restrict (PayloadSafe slotPool sixes)).History xs s ∧
      .call 0 ⟨4096, 0⟩ first [5] ∈ xs ∧ .call 0 ⟨8192, 1⟩ second [6] ∈ xs ∧
      (s.nodes 0).pc = .running ⟨8192, 1⟩ ∧ EnqueueStep slotPool sixes 2 s (.write 2 65536 6) t ∧
      t.mem 65536 = s.mem 65536 := by
  obtain ⟨xs, s, h, hs⟩ := second_runs
  obtain ⟨hfound, hkept⟩ := payload_isolation slotPool 0 sixes (by decide) xs s h
  obtain ⟨first, bytes, hfirst⟩ := hs.first
  obtain ⟨second, bytes', hsecond⟩ := hs.second
  have hfive : bytes = [5] := hfound _ _ _ _ hfirst _ rfl
  have hsix : bytes' = [6] := hfound _ _ _ _ hsecond _ rfl
  rw [hfive] at hfirst
  rw [hsix] at hsecond
  have hrunning : (s.nodes 0).pc = .running ⟨8192, 1⟩ := congrArg TecTaskNode.pc hs.slot.node
  have hcopy := @EnqueueStep.copy slotPool sixes 2 s 65536 0 _ (congrArg Call.pc hs.third) rfl
    (by decide) (congrArg (fun call => call.copied 0) hs.third)
  have hopen : (s.nodes (s.calls 2).ndx).destroyed = false := by
    rw [hs.third, hs.slot.node]
    rfl
  have hsafe : PayloadSafe slotPool sixes s (.write 2 65536 6) := fun hne => absurd hs.mem hne
  exact ⟨by decide, xs, s, _, first, second, h, hfirst, hsecond, hrunning, hcopy,
    hkept 0 ⟨8192, 1⟩ hrunning rfl 2 _ _ (by decide) hsafe (.enqueue 2 hcopy fun _ => hopen) hcopy
      0 (by decide)⟩

/-- The second call overwrites the payload of the first one before its task is executed. -/
theorem payload_overwritten :
    ¬ ∀ (self : TecThrPool) (nelems : Nat) (request : Nat → Request), self.payload_arena ≠ 0 →
      ∀ xs s, (poolLts self request nelems).History xs s →
        PayloadsFound self request xs ∧ PayloadsKept self request s (fun _ _ => True) := by
  intro h
  obtain ⟨xs, s, h0, hs, hcalls⟩ := slot_queued
  obtain ⟨ys, t, r1, ht, hcalls', _⟩ := @slot_filled _ _ 1 _ _ _ 8192 h0.of_restrict hs
    (by rw [hcalls]; rfl) (by decide) (by decide) (fun p hp => by
      obtain rfl := List.mem_singleton.mp hp
      exact .inr (by decide))
  have hthird : t.calls 1 = ⟨.memcpy 65536, 0, 8192, fun _ => false⟩ := by
    rw [hcalls', Function.update_self]
  have hopen : (t.nodes (t.calls 1).ndx).destroyed = false := by
    rw [hthird, ht.node]
    rfl
  have hcopy := @EnqueueStep.copy slotPool sixes 1 t 65536 0 _ (congrArg Call.pc hthird) rfl
    (by decide) (congrArg (fun call => call.copied 0) hthird)
  have h1 := (h0.run r1).of_restrict.snoc (Step.enqueue 1 hcopy fun _ => hopen)
  obtain ⟨zs, args, u, r2, _, _, _⟩ := @slot_called _ _ [] [8192, 4096] ⟨4096, 0⟩ h1
    ⟨ht.node, ht.others⟩
  have hfound := (h slotPool 0 sixes (by decide) _ _ (h1.run r2.of_restrict)).1 0 ⟨4096, 0⟩ args _
    (List.mem_append_right _ (List.mem_append_right _ (List.mem_singleton.mpr rfl)))
    (fun _ => 5) rfl
  have hfive : (6 : UInt8) = 5 := (List.cons.inj hfound).1
  exact absurd hfive (by decide)

end Tecc.ThrPool
