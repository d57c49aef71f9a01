import Tecc.ThrPoolTasks

/-! The threads of the pool from `TecThrPool_run` to `TecThrPool_done`, and with them the invariant
of the whole pool. -/
namespace Tecc.ThrPool

open Machine Memory Arena Transition

variable {self : TecThrPool} {request : Nat → Request} {nelems : Nat} {s t : State} {e : Event}
  {xs : List Event} {c d n k : Nat}

/-- The thread does not run: it was not created, or it is at its end. -/
def ThreadPc.Over : ThreadPc → Prop
  | .absent | .exited => True
  | _ => False

/-- `TecThrPool_run` has not tried to create the thread of the node `n`. -/
def RunPc.Before (n : Nat) : RunPc → Prop
  | .idle => True
  | .create m => m ≤ n
  | .returned _ => False

/-- The nodes below are behind `TecTaskNode_done`. -/
def DonePc.passed (nthreads : Nat) : DonePc → Nat
  | .idle => 0
  | .node n | .wait n | .join n | .destroy n => n
  | .returned => nthreads

/-- How far the threads that run and destroy the pool are with one node. -/
structure NodeControl (nthreads : Nat) (run : RunPc) (done : DonePc) (n : Nat)
    (node : TecTaskNode) : Prop where
  fresh : run.Before n → node.pc = .absent
  created : node.thr = 0 → node.pc ≠ .absent
  joined : node.pc ≠ .absent → node.thr = 0 ∨ node.pc = .exited
  destroying : done = .destroy n → node.pc.Over
  destroyed : node.destroyed = true → node.pc.Over ∧ done ≠ .idle
  passed : n < done.passed nthreads → node.destroyed = true

structure Control (pool : TecThrPool) (s : State) : Prop where
  ran : s.done ≠ .idle → ∃ ok, s.run = .returned ok
  nodes : ∀ n, NodeControl pool.nthreads s.run s.done n (s.nodes n)

/-- The threads that run and destroy the pool go on without the node. -/
theorem NodeControl.mono {nthreads : Nat} {run run' : RunPc} {done done' : DonePc}
    {node : TecTaskNode} (h : NodeControl nthreads run done n node)
    (hrun : run'.Before n → run.Before n) (hdestroying : done' = .destroy n → node.pc.Over)
    (hidle : done' = .idle → done = .idle)
    (hpassed : n < done'.passed nthreads → n < done.passed nthreads) :
    NodeControl nthreads run' done' n node where
  fresh hn := h.fresh (hrun hn)
  created := h.created
  joined := h.joined
  destroying := hdestroying
  destroyed hd := ⟨(h.destroyed hd).1, fun hi => (h.destroyed hd).2 (hidle hi)⟩
  passed hn := h.passed (hpassed hn)

/-- The tests look at the thread and at the destruction only. -/
theorem NodeControl.congr {nthreads : Nat} {run : RunPc} {done : DonePc} {node node' : TecTaskNode}
    (h : NodeControl nthreads run done n node) (hpc : node'.pc = node.pc)
    (hthr : node'.thr = node.thr) (hdestroyed : node'.destroyed = node.destroyed) :
    NodeControl nthreads run done n node' := by
  refine ⟨?_, ?_, ?_, ?_, ?_, ?_⟩
  · rw [hpc]
    exact h.fresh
  · rw [hpc, hthr]
    exact h.created
  · rw [hpc, hthr]
    exact h.joined
  · rw [hpc]
    exact h.destroying
  · rw [hpc, hdestroyed]
    exact h.destroyed
  · rw [hdestroyed]
    exact h.passed

/-- What the thread of the node `n` leaves of its node, and what it leaves of the rest. -/
structure ThreadStepped (n : Nat) (s t : State) : Prop where
  before : ¬ (s.nodes n).pc.Over
  after : (t.nodes n).pc ≠ .absent
  thr : (t.nodes n).thr = (s.nodes n).thr
  destroyed : (t.nodes n).destroyed = (s.nodes n).destroyed
  nodes : ∀ k, k ≠ n → t.nodes k = s.nodes k
  calls : t.calls = s.calls
  run : t.run = s.run
  done : t.done = s.done

theorem thread_step_cases (hs : ThreadStep self n s e t) : ThreadStepped n s t := by
  cases hs with
  | write hn ha =>
    refine ⟨by rw [hn]; exact fun h => h, ?_, rfl, rfl, fun _ _ => rfl, rfl, rfl, rfl⟩
    simp only [hn]
    exact ThreadPc.noConfusion
  | pop hn _ | pop_null hn _ | call hn _ | skip hn _ | «return» hn | release hn _
  | set_terminated hn =>
    refine ⟨by rw [hn]; exact fun h => h, ?_, ?_, ?_, ?_, rfl, rfl, rfl⟩
    · simp
    · simp
    · simp
    · intro k hk
      exact Function.update_of_ne hk _ _

/-- What a call leaves of the nodes. -/
structure EnqueueStepped (c : Nat) (s t : State) : Prop where
  pc : ∀ n, (t.nodes n).pc = (s.nodes n).pc
  thr : ∀ n, (t.nodes n).thr = (s.nodes n).thr
  destroyed : ∀ n, (t.nodes n).destroyed = (s.nodes n).destroyed
  calls : ∀ d, d ≠ c → t.calls d = s.calls d
  run : t.run = s.run
  done : t.done = s.done

theorem enqueue_step_cases (hs : EnqueueStep self request c s e t) : EnqueueStepped c s t := by
  have hnode : ∀ (k : Nat) (node : TecTaskNode), node.pc = (s.nodes k).pc →
      node.thr = (s.nodes k).thr → node.destroyed = (s.nodes k).destroyed → ∀ n,
      (Function.update s.nodes k node n).pc = (s.nodes n).pc ∧
      (Function.update s.nodes k node n).thr = (s.nodes n).thr ∧
      (Function.update s.nodes k node n).destroyed = (s.nodes n).destroyed := by
    intro k node hpc hthr hdestroyed n
    by_cases hn : n = k
    · subst hn
      rw [Function.update_self]
      exact ⟨hpc, hthr, hdestroyed⟩
    · rw [Function.update_of_ne hn]
      exact ⟨rfl, rfl, rfl⟩
  cases hs with
  | @allocate calloc task arena m hc hcalloc h htask =>
    have hkept := hnode (s.calls c).ndx { s.nodes (s.calls c).ndx with
      arena := arena, live := task :: (s.nodes (s.calls c).ndx).live } rfl rfl rfl
    exact ⟨fun n => (hkept n).1, fun n => (hkept n).2.1, fun n => (hkept n).2.2,
      fun d hd => Function.update_of_ne hd _ _, rfl, rfl⟩
  | push hc =>
    have hkept := hnode (s.calls c).ndx { s.nodes (s.calls c).ndx with
      q := (s.nodes (s.calls c).ndx).q ++ [some ⟨(s.calls c).task, c⟩] } rfl rfl rfl
    exact ⟨fun n => (hkept n).1, fun n => (hkept n).2.1, fun n => (hkept n).2.2,
      fun d hd => Function.update_of_ne hd _ _, rfl, rfl⟩
  | _ =>
    exact ⟨fun _ => rfl, fun _ => rfl, fun _ => rfl, fun d hd => Function.update_of_ne hd _ _,
      rfl, rfl⟩

theorem control_enqueue_step (hs : EnqueueStep self request c s e t) (h : Control self s) :
    Control self t := by
  have hkept := enqueue_step_cases hs
  refine ⟨?_, ?_⟩
  · rw [hkept.done, hkept.run]
    exact h.ran
  · intro n
    rw [hkept.done, hkept.run]
    exact (h.nodes n).congr (hkept.pc n) (hkept.thr n) (hkept.destroyed n)

theorem over_absent {pc : ThreadPc} (h : pc = .absent) : pc.Over := by
  rw [h]
  trivial

theorem over_exited {pc : ThreadPc} (h : pc = .exited) : pc.Over := by
  rw [h]
  trivial

/-- A node whose thread runs is not destroyed. -/
theorem Control.open_of_running (h : Control self s) (hn : ¬ (s.nodes n).pc.Over) :
    (s.nodes n).destroyed = false := by
  cases hd : (s.nodes n).destroyed with
  | false => rfl
  | true => exact absurd ((h.nodes n).destroyed hd).1 hn

theorem control_thread_step (hs : ThreadStep self n s e t) (h : Control self s) :
    Control self t := by
  have hkept := thread_step_cases hs
  have hbefore := hkept.before
  have hopen := h.open_of_running hbefore
  have hnode := h.nodes n
  refine ⟨?_, ?_⟩
  · rw [hkept.done, hkept.run]
    exact h.ran
  · intro k
    rw [hkept.done, hkept.run]
    by_cases hk : k = n
    · subst hk
      constructor
      · intro hrun
        exact absurd (over_absent (hnode.fresh hrun)) hbefore
      · intro _
        exact hkept.after
      · intro _
        rw [hkept.thr]
        left
        refine (hnode.joined ?_).resolve_right ?_
        · exact fun habsent => hbefore (over_absent habsent)
        · exact fun hexited => hbefore (over_exited hexited)
      · intro hd
        exact absurd (hnode.destroying hd) hbefore
      · intro hd
        rw [hkept.destroyed, hopen] at hd
        cases hd
      · intro hd
        rw [hkept.destroyed]
        exact hnode.passed hd
    · rw [hkept.nodes k hk]
      exact h.nodes k

/-- As long as threads are created, `TecThrPool_done` has not begun. -/
theorem Control.done_idle (h : Control self s) (hr : ∀ ok, s.run ≠ .returned ok) :
    s.done = .idle := by
  by_contra hd
  obtain ⟨ok, hok⟩ := h.ran hd
  exact hr ok hok

theorem control_run_step (hs : RunStep self s e t) (h : Control self s) : Control self t := by
  cases hs with
  | enter hr =>
    have hidle := h.done_idle (fun ok => by rw [hr]; exact RunPc.noConfusion)
    refine ⟨fun hd => absurd hidle hd, ?_⟩
    intro k
    refine (h.nodes k).mono ?_ (h.nodes k).destroying (fun hd => hd) (fun hk => hk)
    intro _
    rw [hr]
    trivial
  | @create n hr hn =>
    have hidle := h.done_idle (fun ok => by rw [hr]; exact RunPc.noConfusion)
    refine ⟨fun hd => absurd hidle hd, ?_⟩
    refine (Function.forall_update_iff s.nodes
      (p := NodeControl self.nthreads (.create (n + 1)) s.done)).mpr ⟨?_, ?_⟩
    · rw [hidle]
      constructor
      · intro hlt
        exact absurd hlt (Nat.not_succ_le_self n)
      · intro _
        exact ThreadPc.noConfusion
      · intro _
        exact .inl rfl
      · intro hd
        cases hd
      · intro hd
        exact absurd hidle ((h.nodes n).destroyed hd).2
      · intro hlt
        exact absurd hlt (Nat.not_lt_zero n)
    · intro k _
      refine (h.nodes k).mono ?_ (h.nodes k).destroying (fun hd => hd) (fun hk => hk)
      intro hlt
      rw [hr]
      exact Nat.le_of_succ_le hlt
  | @create_failed n result hr hn hresult =>
    have hidle := h.done_idle (fun ok => by rw [hr]; exact RunPc.noConfusion)
    have habsent : (s.nodes n).pc = .absent :=
      (h.nodes n).fresh (by rw [hr]; exact Nat.le_refl n)
    refine ⟨fun hd => absurd hidle hd, ?_⟩
    refine (Function.forall_update_iff s.nodes
      (p := NodeControl self.nthreads (.returned false) s.done)).mpr ⟨?_, ?_⟩
    · constructor
      · intro hbefore
        exact hbefore.elim
      · intro hthr
        exact absurd hthr hresult
      · intro hne
        exact absurd habsent hne
      · exact (h.nodes n).destroying
      · exact (h.nodes n).destroyed
      · exact (h.nodes n).passed
    · intro k _
      exact (h.nodes k).mono (fun hk => hk.elim) (h.nodes k).destroying (fun hd => hd)
        (fun hk => hk)
  | finish hr hn =>
    have hidle := h.done_idle (fun ok => by rw [hr]; exact RunPc.noConfusion)
    refine ⟨fun hd => absurd hidle hd, ?_⟩
    intro k
    exact (h.nodes k).mono (fun hk => hk.elim) (h.nodes k).destroying (fun hd => hd)
      (fun hk => hk)

theorem control_done_step (hs : DoneStep self s e t) (h : Control self s) : Control self t := by
  have hran : s.done ≠ .idle → t.done ≠ .idle → ∃ ok, s.run = .returned ok :=
    fun hd _ => h.ran hd
  cases hs with
  | @enter ok hd hr =>
    refine ⟨fun _ => ⟨ok, hr⟩, ?_⟩
    intro k
    have hnode := h.nodes k
    refine ⟨hnode.fresh, hnode.created, hnode.joined, fun hk => (by cases hk), ?_, ?_⟩
    · intro hk
      exact absurd hd (hnode.destroyed hk).2
    · intro hk
      exact absurd hk (Nat.not_lt_zero k)
  | @push n hd hn hthr =>
    have hnext : ∀ k, NodeControl self.nthreads s.run (.wait n) k (s.nodes k) := by
      intro k
      refine (h.nodes k).mono (fun hk => hk) (fun hk => by cases hk) (fun hk => by cases hk) ?_
      rw [hd]
      exact fun hk => hk
    refine ⟨hran (by rw [hd]; exact DonePc.noConfusion), ?_⟩
    refine (Function.forall_update_iff s.nodes (p := NodeControl self.nthreads s.run (.wait n))).mpr
      ⟨?_, fun k _ => hnext k⟩
    exact (hnext n).congr rfl rfl rfl
  | @no_thread n hd hn hthr =>
    refine ⟨hran (by rw [hd]; exact DonePc.noConfusion), ?_⟩
    intro k
    refine (h.nodes k).mono (fun hk => hk) ?_ (fun hk => by cases hk) ?_
    · intro hk
      cases hk
      by_cases habsent : (s.nodes n).pc = .absent
      · exact over_absent habsent
      · exact over_exited (((h.nodes n).joined habsent).resolve_left hthr)
    · rw [hd]
      exact fun hk => hk
  | @wait n hd hsig =>
    refine ⟨hran (by rw [hd]; exact DonePc.noConfusion), ?_⟩
    intro k
    refine (h.nodes k).mono (fun hk => hk) (fun hk => by cases hk) (fun hk => by cases hk) ?_
    rw [hd]
    exact fun hk => hk
  | @join n hd hpc =>
    refine ⟨hran (by rw [hd]; exact DonePc.noConfusion), ?_⟩
    refine (Function.forall_update_iff s.nodes
      (p := NodeControl self.nthreads s.run (.destroy n))).mpr ⟨?_, ?_⟩
    · have hnode := h.nodes n
      rw [hd] at hnode
      constructor
      · exact hnode.fresh
      · intro hthr
        exact absurd (show TecThread_none = 0 from hthr) (by decide)
      · intro _
        exact .inr hpc
      · intro _
        exact over_exited hpc
      · intro hdestroyed
        exact ⟨(hnode.destroyed hdestroyed).1, DonePc.noConfusion⟩
      · exact hnode.passed
    · intro k hk
      refine (h.nodes k).mono (fun hk => hk) ?_ (fun hk => by cases hk) ?_
      · intro hkn
        cases hkn
        exact absurd rfl hk
      · rw [hd]
        exact fun hk => hk
  | @destroy n hd =>
    refine ⟨hran (by rw [hd]; exact DonePc.noConfusion), ?_⟩
    refine (Function.forall_update_iff s.nodes
      (p := NodeControl self.nthreads s.run (.node (n + 1)))).mpr ⟨?_, ?_⟩
    · have hnode := h.nodes n
      exact ⟨hnode.fresh, hnode.created, hnode.joined, fun hk => (by cases hk),
        fun _ => ⟨hnode.destroying hd, DonePc.noConfusion⟩, fun _ => rfl⟩
    · intro k hk
      refine (h.nodes k).mono (fun hk => hk) (fun hk => by cases hk) (fun hk => by cases hk) ?_
      intro hlt
      change k < n + 1 at hlt
      rw [hd]
      change k < n
      omega
  | @finish n hd hn =>
    refine ⟨hran (by rw [hd]; exact DonePc.noConfusion), ?_⟩
    intro k
    refine (h.nodes k).mono (fun hk => hk) (fun hk => by cases hk) (fun hk => by cases hk) ?_
    intro hlt
    rw [hd]
    exact Nat.lt_of_lt_of_le hlt hn

theorem control_step (hs : Step self request s e t) (h : Control self s) : Control self t := by
  cases hs with
  | enqueue c hs hopen => exact control_enqueue_step hs h
  | thread n hs => exact control_thread_step hs h
  | run hs => exact control_run_step hs h
  | done hs => exact control_done_step hs h

theorem SameNode.refl (node : TecTaskNode) : SameNode node node := ⟨rfl, rfl, rfl, rfl⟩

theorem sameNode_update {node : TecTaskNode} (h : SameNode (s.nodes n) node) :
    ∀ k, SameNode (s.nodes k) (Function.update s.nodes n node k) :=
  (Function.forall_update_iff s.nodes (p := fun k new => SameNode (s.nodes k) new)).mpr
    ⟨h, fun _ _ => .refl _⟩

namespace TaskInv

/-- The nodes go on without touching a task. -/
theorem frame_nodes (h : TaskInv self request s) (hfits : self.Fits)
    (hmem : ∀ n a, (s.view n).Owned a → t.mem a = s.mem a)
    (hnodes : ∀ n, SameNode (s.nodes n) (t.nodes n)) (hcalls : t.calls = s.calls) :
    TaskInv self request t := by
  refine h.frame hfits hmem hnodes ?_ ?_ ?_ ?_
  · intro c
    rw [hcalls]
    exact .refl _
  · intro c
    rw [hcalls]
  · rw [hcalls]
    exact h.ndx
  · rw [hcalls]
    exact h.dest

/-- A caller goes on without touching its task. -/
theorem frame_call (h : TaskInv self request s) (hfits : self.Fits)
    (hmem : ∀ n a, (s.view n).Owned a → t.mem a = s.mem a) (hnodes : t.nodes = s.nodes)
    {call : Call} (hcalls : t.calls = Function.update s.calls c call)
    (hcall : SameTask (s.calls c) call) (hstored : call.pc.stored = (s.calls c).pc.stored)
    (hndx : call.ndx < self.nthreads)
    (hdest : ∀ dest, call.pc = .memcpy dest → dest ≠ 0 ∧ dest = self.task_payload call.ndx) :
    TaskInv self request t := by
  refine h.frame hfits hmem ?_ ?_ ?_ ?_ ?_
  · intro n
    rw [hnodes]
    exact .refl _
  · rw [hcalls]
    exact (Function.forall_update_iff s.calls (p := fun d new => SameTask (s.calls d) new)).mpr
      ⟨hcall, fun d _ => .refl _⟩
  · rw [hcalls]
    exact (Function.forall_update_iff s.calls
      (p := fun d new => new.pc.stored = (s.calls d).pc.stored)).mpr ⟨hstored, fun d _ => rfl⟩
  · rw [hcalls]
    exact (Function.forall_update_iff s.calls
      (p := fun _ new => new.pc ≠ .idle → new.ndx < self.nthreads)).mpr
      ⟨fun _ => hndx, fun d _ => h.ndx d⟩
  · rw [hcalls]
    exact (Function.forall_update_iff s.calls
      (p := fun _ new => ∀ dest, new.pc = .memcpy dest →
        dest ≠ 0 ∧ dest = self.task_payload new.ndx)).mpr ⟨hdest, fun d _ => h.dest d⟩

/-- An assigned member reads as its value. -/
theorem load_field (h : TaskInv self request s) (hopen : (s.nodes n).destroyed = false)
    (hactive : s.Active n c) {i o v : Nat} (hi : i < (s.calls c).pc.stored)
    (hfield : (fields self request c n)[i]? = some (o, v)) :
    load s.mem ((s.calls c).task + o) 8 = v := by
  have hstored := h.stored n c hopen hactive
  rw [Stored, (h.active_pc hactive).2] at hstored
  refine hstored (o, v) (List.mem_of_getElem? (i := i) ?_)
  rw [List.getElem?_take_of_lt hi]
  exact hfield

/-- The test of `task->payload` finds what was assigned. -/
theorem test_payload_load (h : TaskInv self request s) (hc : (s.calls c).pc = .test_payload)
    (hopen : (s.nodes (s.calls c).ndx).destroyed = false) :
    load s.mem ((s.calls c).task + TecTask_payload) 8 = self.task_payload (s.calls c).ndx := by
  refine h.load_field (i := 2) hopen (.inl ⟨?_, rfl⟩) ?_ rfl
  · rw [hc]
    trivial
  · rw [hc]
    decide

/-- The payload of a node lies in the block of the payloads. -/
theorem payload_bytes (h : TaskInv self request s) {dest i : Nat}
    (hc : (s.calls c).pc = .memcpy dest) (hi : i < self.payload_size) :
    self.InPayloads (dest + i) := by
  obtain ⟨hne, hdest⟩ := h.dest c dest hc
  have hlt := h.ndx c (by rw [hc]; exact EnqueuePc.noConfusion)
  have hle := stride_le self.payload_size hlt
  rw [TecThrPool.task_payload] at hdest
  split at hdest
  · subst hdest
    exact ⟨‹_›, by omega, by omega⟩
  · exact absurd hdest hne

/-- The task of the thread is not in its queue. -/
theorem task_not_queued (h : TaskInv self request s) {task task' : TaskRef}
    (hpc : (s.nodes n).pc.task = some task) (hq : some task' ∈ (s.nodes n).q) :
    task'.call ≠ task.call := by
  intro hcall
  have hnodup := h.nodup n
  rw [TecTaskNode.tasks, hpc, Option.toList_some, List.singleton_append, List.map_cons,
    List.nodup_cons] at hnodup
  exact hnodup.1 (List.mem_map.mpr ⟨task', List.reduceOption_mem_iff.mpr hq, hcall⟩)

theorem task_mem {node : TecTaskNode} {task : TaskRef} (hpc : node.pc.task = some task) :
    task ∈ node.tasks := by
  rw [TecTaskNode.tasks, hpc]
  exact List.mem_cons_self

theorem enqueue_step (h : TaskInv self request s) (hfits : self.Fits)
    (hs : EnqueueStep self request c s e t)
    (hopen : (s.calls c).pc ≠ .idle → (s.nodes (s.calls c).ndx).destroyed = false) :
    TaskInv self request t := by
  cases hs with
  | fetch_add hc =>
    refine h.frame_call hfits (fun _ _ _ => rfl) rfl rfl ?_ ?_ ?_ ?_
    · refine ⟨?_, ?_, ?_, rfl⟩
      · rw [hc]
        exact Iff.rfl
      · rw [hc]
        exact fun hpc => (by cases hpc)
      · exact fun hidle => absurd hc hidle
    · rw [hc]
      rfl
    · exact Nat.mod_lt _ hfits.nthreads
    · intro dest hdest
      cases hdest
  | allocate hc hcalloc hr htask =>
    have hne : (s.calls c).pc ≠ .idle := by
      rw [hc]
      exact EnqueuePc.noConfusion
    exact h.allocate hfits hc rfl (hopen hne) hcalloc htask hr rfl (Function.update_self _ _ _)
      (fun k hk => Function.update_of_ne hk _ _) (Function.update_self _ _ _)
      (fun d hd => Function.update_of_ne hd _ _)
  | buffer_size hc | buffer hc | payload hc | task_func hc | args hc =>
    have hfill : (s.calls c).pc.Filling := by
      rw [hc]
      trivial
    refine h.assign hfits hfill (hopen (filling_not_idle hfill)) ?_ ?_ trivial ?_
    · rw [hc]
      rfl
    · rw [hc]
      rfl
    · exact fun dest => EnqueuePc.noConfusion
  | test_payload hc =>
    have hfill : (s.calls c).pc.Filling := by
      rw [hc]
      trivial
    have hidle := filling_not_idle hfill
    have hload := h.test_payload_load hc (hopen hidle)
    simp only [State.setCall, hload]
    refine h.frame_call hfits (fun _ _ _ => rfl) rfl rfl ?_ ?_ (h.ndx c hidle) ?_
    · refine ⟨?_, ?_, fun _ => rfl, rfl⟩
      · split
        · exact ⟨fun _ => hfill, fun _ => trivial⟩
        · exact ⟨fun _ => hfill, fun _ => trivial⟩
      · rw [hc]
        exact fun hpc => (by cases hpc)
    · rw [hc]
      split <;> rfl
    · intro dest hdest
      split at hdest
      · cases hdest
        exact ⟨‹_ ∧ _›.2, rfl⟩
      · cases hdest
  | @copy dest i bytes hc hbytes hi hcopied =>
    have hfill : (s.calls c).pc.Filling := by
      rw [hc]
      trivial
    have hin := h.payload_bytes hc hi
    refine h.frame_call hfits ?_ rfl rfl ⟨Iff.rfl, fun hpc => hpc, fun _ => rfl, rfl⟩ rfl
      (h.ndx c (filling_not_idle hfill)) (h.dest c)
    intro n a ha
    refine Function.update_of_ne ?_ _ _
    rintro rfl
    exact h.payload n _ ha hin
  | copied hc hcopied =>
    have hfill : (s.calls c).pc.Filling := by
      rw [hc]
      trivial
    refine h.frame_call hfits (fun _ _ _ => rfl) rfl rfl ?_ ?_
      (h.ndx c (filling_not_idle hfill)) ?_
    · refine ⟨⟨fun _ => hfill, fun _ => trivial⟩, ?_, fun _ => rfl, rfl⟩
      rw [hc]
      exact fun hpc => (by cases hpc)
    · rw [hc]
      rfl
    · intro dest hdest
      cases hdest
  | push hc =>
    exact h.push hc rfl rfl (Function.update_self _ _ _)
      (fun k hk => Function.update_of_ne hk _ _) (Function.update_self _ _ _)
      (fun d hd => Function.update_of_ne hd _ _)

theorem thread_step (h : TaskInv self request s) (hfits : self.Fits)
    (hs : ThreadStep self n s e t) (hopen : (s.nodes n).destroyed = false) :
    TaskInv self request t := by
  cases hs with
  | release hn hr =>
    exact h.release hfits hn hopen hr rfl (Function.update_self _ _ _)
      (fun k hk => Function.update_of_ne hk _ _) rfl
  | write hn ha =>
    refine h.frame_nodes hfits ?_ (fun k => .refl _) rfl
    intro k a hk
    refine Function.update_of_ne ?_ _ _
    rintro rfl
    exact ha k hk
  | pop hn hq | pop_null hn hq =>
    refine h.frame_nodes hfits (fun _ _ _ => rfl) (sameNode_update ⟨rfl, rfl, rfl, ?_⟩) rfl
    rw [TecTaskNode.tasks, TecTaskNode.tasks, hn, hq]
    rfl
  | call hn _ | skip hn _ | «return» hn | set_terminated hn =>
    refine h.frame_nodes hfits (fun _ _ _ => rfl) (sameNode_update ⟨rfl, rfl, rfl, ?_⟩) rfl
    rw [TecTaskNode.tasks, TecTaskNode.tasks, hn]
    rfl

theorem run_step (h : TaskInv self request s) (hfits : self.Fits) (hs : RunStep self s e t)
    (hcontrol : Control self s) : TaskInv self request t := by
  cases hs with
  | @create n hr hn =>
    have habsent := (hcontrol.nodes n).fresh (by rw [hr]; exact Nat.le_refl n)
    refine h.frame_nodes hfits (fun _ _ _ => rfl) (sameNode_update ⟨rfl, rfl, rfl, ?_⟩) rfl
    rw [TecTaskNode.tasks, TecTaskNode.tasks, habsent]
    rfl
  | @create_failed n result hr hn hresult =>
    exact h.frame_nodes hfits (fun _ _ _ => rfl) (sameNode_update ⟨rfl, rfl, rfl, rfl⟩) rfl
  | _ => exact h.frame_nodes hfits (fun _ _ _ => rfl) (fun k => .refl _) rfl

theorem done_step (h : TaskInv self request s) (hfits : self.Fits) (hs : DoneStep self s e t) :
    TaskInv self request t := by
  cases hs with
  | @push n hd hn hthr =>
    refine h.frame_nodes hfits (fun _ _ _ => rfl) (sameNode_update ⟨rfl, rfl, rfl, ?_⟩) rfl
    simp [TecTaskNode.tasks, List.reduceOption_append]
  | @join n hd hpc =>
    exact h.frame_nodes hfits (fun _ _ _ => rfl) (sameNode_update ⟨rfl, rfl, rfl, rfl⟩) rfl
  | destroy hd =>
    exact h.destroy rfl (Function.update_self _ _ _) (fun k hk => Function.update_of_ne hk _ _)
      rfl
  | _ => exact h.frame_nodes hfits (fun _ _ _ => rfl) (fun k => .refl _) rfl

end TaskInv

/-- The invariant of the pool. -/
structure PoolInv (pool : TecThrPool) (request : Nat → Request) (s : State) : Prop where
  fits : pool.Fits
  tasks : TaskInv pool request s
  control : Control pool s

theorem poolInv_step (hs : Step self request s e t) (h : PoolInv self request s) :
    PoolInv self request t := by
  refine ⟨h.fits, ?_, control_step hs h.control⟩
  cases hs with
  | enqueue c hs hopen => exact h.tasks.enqueue_step h.fits hs hopen
  | thread n hs =>
    exact h.tasks.thread_step h.fits hs (h.control.open_of_running (thread_step_cases hs).before)
  | run hs => exact h.tasks.run_step h.fits hs h.control
  | done hs => exact h.tasks.done_step h.fits hs

theorem poolInv_initial (h : Initial self nelems s) : PoolInv self request s := by
  obtain ⟨m, calloc, hs⟩ := h.state
  have hinactive : ∀ n c, ¬ s.Active n c := by
    subst hs
    rintro n c (⟨hfill, _⟩ | hmem)
    · exact hfill
    · cases hmem
  subst hs
  refine ⟨fits_initial h, ⟨⟨?_, ?_, h.apart, ?_⟩, ?_, ?_, ?_, ?_, ?_, ?_, ?_⟩, ?_, ?_⟩
  · intro n
    rfl
  · intro n _
    exact ⟨[], inv_initial (by decide) (h.arenas n)⟩
  · intro n a ha
    exact (h.pool_apart n a ha).2
  · intro c hc
    exact absurd rfl hc
  · intro c dest hc
    cases hc
  · intro n r hr
    cases hr
  · intro n
    exact List.nodup_nil
  · intro n c _ hc
    exact absurd hc (hinactive n c)
  · intro n c d _ hc
    exact absurd hc (hinactive n c)
  · intro n c _ hc
    exact absurd hc (hinactive n c)
  · intro hd
    exact absurd rfl hd
  · intro n
    refine ⟨fun _ => rfl, ?_, fun hpc => absurd rfl hpc, fun hd => (by cases hd),
      fun hd => (by cases hd), fun hlt => absurd hlt (Nat.not_lt_zero n)⟩
    intro hthr
    exact absurd (show TecThread_none = 0 from hthr) (by decide)

theorem poolInv_reachable (h : (poolLts self request nelems).Reachable s) :
    PoolInv self request s :=
  h.invariant (fun _ hi => poolInv_initial hi) (fun _ _ _ hp hs => poolInv_step hs hp)

end Tecc.ThrPool
