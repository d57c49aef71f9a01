import Tecc.Lib.Fair
import Tecc.ThrPoolOnce
import Mathlib.Data.Prod.Lex

/-! `TecThrPool_done` returns and every task is executed, when the threads are scheduled fairly and
the task functions return. -/
namespace Tecc.ThrPool

open Memory Arena Transition Fifo

variable {self : TecThrPool} {request : Nat → Request} {nelems : Nat} {s t : State} {e : Event}
  {xs : List Event} {n k : Nat} {task : TaskRef}

/-- Who has to be scheduled. -/
inductive Actor where
  | done
  | thread (n : Nat)
deriving DecidableEq

/-- The event is none of a task function, apart from its return. -/
def Event.Goes : Event → Prop
  | .write _ _ _ => False
  | _ => True

/-- The steps that an actor takes. Nobody has to call `TecThrPool_done`, and a task function that is
fairly scheduled returns. -/
def Actor.steps (self : TecThrPool) : Actor → State → Event → State → Prop
  | .done => fun s e t => DoneStep self s e t ∧ s.done ≠ .idle
  | .thread n => fun s e t => ThreadStep self n s e t ∧ e.Goes

/-- The thread of the node is going to see NULL, or it has. -/
def TecTaskNode.Stopping (node : TecTaskNode) : Prop :=
  match node.pc with
  | .absent => False
  | .set_terminated | .exited => True
  | _ => none ∈ node.q

theorem TecTaskNode.Stopping.not_absent {node : TecTaskNode} (h : node.Stopping) :
    node.pc ≠ .absent := by
  intro hpc
  unfold TecTaskNode.Stopping at h
  rw [hpc] at h
  exact h

theorem TecTaskNode.Stopping.null {node : TecTaskNode} (h : node.Stopping) (hpc : node.pc = .pop) :
    none ∈ node.q := by
  unfold TecTaskNode.Stopping at h
  rw [hpc] at h
  exact h

/-- The node at which `TecThrPool_done` is. -/
def DonePc.at : DonePc → Option Nat
  | .wait n | .join n | .destroy n => some n
  | _ => none

structure Closing (pool : TecThrPool) (s : State) : Prop where
  below : ∀ n, s.done.at = some n → n < pool.nthreads
  stopping : ∀ n, s.done = .wait n → (s.nodes n).Stopping
  exited : ∀ n, s.done = .join n → (s.nodes n).pc = .exited
  terminated : ∀ n, (s.nodes n).sig_terminated = true ↔ (s.nodes n).pc = .exited

/-- A node whose thread does not step: its queue may grow. -/
structure Kept (node node' : TecTaskNode) : Prop where
  pc : node'.pc = node.pc
  sig_terminated : node'.sig_terminated = node.sig_terminated
  q : node.q <+: node'.q

theorem Kept.refl (node : TecTaskNode) : Kept node node := ⟨rfl, rfl, List.prefix_rfl⟩

theorem kept_update {node : TecTaskNode} (h : Kept (s.nodes n) node) :
    ∀ k, Kept (s.nodes k) (Function.update s.nodes n node k) :=
  (Function.forall_update_iff s.nodes (p := fun k new => Kept (s.nodes k) new)).mpr
    ⟨h, fun _ _ => .refl _⟩

theorem enqueue_kept {c : Nat} (hs : EnqueueStep self request c s e t) :
    ∀ n, Kept (s.nodes n) (t.nodes n) := by
  cases hs with
  | allocate => exact kept_update ⟨rfl, rfl, List.prefix_rfl⟩
  | push => exact kept_update ⟨rfl, rfl, List.prefix_append _ _⟩
  | _ => exact fun n => .refl _

theorem done_kept (hs : DoneStep self s e t) : ∀ n, Kept (s.nodes n) (t.nodes n) := by
  cases hs with
  | push => exact kept_update ⟨rfl, rfl, List.prefix_append _ _⟩
  | join | destroy => exact kept_update ⟨rfl, rfl, List.prefix_rfl⟩
  | _ => exact fun n => .refl _

/-- `TecThrPool_run` starts the thread of a node at most. -/
theorem run_kept (hs : RunStep self s e t) (hcontrol : Control self s) (n : Nat) :
    Kept (s.nodes n) (t.nodes n) ∨
      e = .create n ∧ (s.nodes n).pc = .absent ∧
        t.nodes n = { s.nodes n with thr := 0, pc := .pop } := by
  cases hs with
  | @create k hr hk =>
    by_cases hkn : n = k
    · subst hkn
      refine .inr ⟨rfl, (hcontrol.nodes n).fresh (by rw [hr]; exact Nat.le_refl n), ?_⟩
      simp
    · refine .inl ?_
      simp only [setNode_of_ne hkn]
      exact .refl _
  | @create_failed k result hr hk hresult =>
    have hkept : Kept (s.nodes k) { s.nodes k with thr := result } :=
      ⟨rfl, rfl, List.prefix_rfl⟩
    exact .inl (kept_update hkept n)
  | _ => exact .inl (.refl _)

/-- A step of anyone but the thread of the node. -/
theorem other_kept (hs : Step self request s e t) (hcontrol : Control self s)
    (hn : ¬ ThreadStep self n s e t) :
    Kept (s.nodes n) (t.nodes n) ∨
      e = .create n ∧ (s.nodes n).pc = .absent ∧
        t.nodes n = { s.nodes n with thr := 0, pc := .pop } := by
  cases hs with
  | enqueue c hs hopen => exact .inl (enqueue_kept hs n)
  | thread k hs =>
    have hk : n ≠ k := by
      rintro rfl
      exact hn hs
    exact .inl ((thread_step_cases hs).nodes n hk ▸ .refl _)
  | run hs => exact run_kept hs hcontrol n
  | done hs => exact .inl (done_kept hs n)

theorem Kept.stopping {node node' : TecTaskNode} (h : Kept node node') (hn : node.Stopping) :
    node'.Stopping := by
  unfold TecTaskNode.Stopping at *
  rw [h.pc]
  cases hcase : node.pc with
  | absent =>
    rw [hcase] at hn
    exact hn.elim
  | set_terminated | exited => trivial
  | _ =>
    rw [hcase] at hn
    exact h.q.subset hn

/-- A thread that takes a task leaves NULL where it is. -/
theorem stopping_thread_step (hs : ThreadStep self n s e t) (h : (s.nodes n).Stopping) :
    (t.nodes n).Stopping := by
  unfold TecTaskNode.Stopping at *
  cases hs with
  | pop hn hq =>
    rw [hn, hq] at h
    simpa using h
  | pop_null hn hq | set_terminated hn => simp
  | write hn ha => exact h
  | call hn _ | skip hn _ | «return» hn | release hn _ =>
    rw [hn] at h
    simpa using h

theorem terminated_thread_step (hs : ThreadStep self n s e t)
    (h : (s.nodes n).sig_terminated = true ↔ (s.nodes n).pc = .exited) :
    (t.nodes n).sig_terminated = true ↔ (t.nodes n).pc = .exited := by
  cases hs with
  | write hn ha => exact h
  | set_terminated hn => simp
  | pop hn _ | pop_null hn _ | call hn _ | skip hn _ | «return» hn | release hn _ =>
    rw [hn] at h
    simpa using h

/-- A signal is set when its thread is at its end. -/
theorem terminated_step (hs : Step self request s e t) (hcontrol : Control self s)
    (h : ∀ n, (s.nodes n).sig_terminated = true ↔ (s.nodes n).pc = .exited) (n : Nat) :
    (t.nodes n).sig_terminated = true ↔ (t.nodes n).pc = .exited := by
  by_cases hown : ThreadStep self n s e t
  · exact terminated_thread_step hown (h n)
  · rcases other_kept hs hcontrol hown with hkept | ⟨_, habsent, hnode⟩
    · rw [hkept.pc, hkept.sig_terminated]
      exact h n
    · have hold := h n
      rw [habsent] at hold
      rw [hnode]
      simpa using hold

/-- While `TecThrPool_done` waits for a thread, that thread goes on to NULL. -/
theorem stopping_step (hs : Step self request s e t) (hcontrol : Control self s)
    (h : (s.nodes n).Stopping) : (t.nodes n).Stopping := by
  by_cases hown : ThreadStep self n s e t
  · exact stopping_thread_step hown h
  · rcases other_kept hs hcontrol hown with hkept | ⟨_, habsent, _⟩
    · exact hkept.stopping h
    · exact absurd habsent h.not_absent

/-- NULL is pushed on the queue of a thread that was created. -/
theorem stopping_push {node : TecTaskNode} (hpc : node.pc ≠ .absent) :
    TecTaskNode.Stopping { node with q := node.q ++ [none] } := by
  unfold TecTaskNode.Stopping
  cases hcase : node.pc with
  | absent => exact hpc hcase
  | set_terminated | exited => trivial
  | _ => simp

/-- A thread at its end stays there. -/
theorem exited_step (hs : Step self request s e t) (hcontrol : Control self s)
    (h : (s.nodes n).pc = .exited) : (t.nodes n).pc = .exited := by
  by_cases hown : ThreadStep self n s e t
  · cases hown with
    | write hn ha => exact h
    | pop hn _ | pop_null hn _ | call hn _ | skip hn _ | «return» hn | release hn _
    | set_terminated hn => cases hn.symm.trans h
  · rcases (foreign_step hs hcontrol hown).2 with hkept | ⟨habsent, _⟩
    · exact hkept.trans h
    · cases habsent.symm.trans h

theorem closing_step (hs : Step self request s e t) (hcontrol : Control self s)
    (h : Closing self s) : Closing self t := by
  have hterminated := terminated_step hs hcontrol h.terminated
  have hsame : t.done = s.done → Closing self t := by
    intro hd
    refine ⟨by rw [hd]; exact h.below, ?_, ?_, hterminated⟩
    · rw [hd]
      exact fun n hn => stopping_step hs hcontrol (h.stopping n hn)
    · rw [hd]
      exact fun n hn => exited_step hs hcontrol (h.exited n hn)
  cases hs with
  | enqueue c hs hopen => exact hsame (enqueue_step_cases hs).done
  | thread n hs => exact hsame (thread_step_cases hs).done
  | run hs => exact hsame (by cases hs <;> rfl)
  | done hs =>
    cases hs with
    | @push n hd hn hthr =>
      refine ⟨?_, ?_, fun k hk => (by cases hk), hterminated⟩
      · intro k hk
        cases hk
        exact hn
      · intro k hk
        cases hk
        simpa using stopping_push ((hcontrol.nodes n).created hthr)
    | @no_thread n hd hn hthr =>
      refine ⟨?_, fun k hk => (by cases hk), fun k hk => (by cases hk), hterminated⟩
      intro k hk
      cases hk
      exact hn
    | @wait n hd hsig =>
      refine ⟨?_, fun k hk => (by cases hk), ?_, hterminated⟩
      · intro k hk
        cases hk
        exact h.below n (by rw [hd]; rfl)
      · intro k hk
        cases hk
        exact (h.terminated n).mp hsig
    | @join n hd hpc =>
      refine ⟨?_, fun k hk => (by cases hk), fun k hk => (by cases hk), hterminated⟩
      intro k hk
      cases hk
      exact h.below n (by rw [hd]; rfl)
    | _ =>
      exact ⟨fun k hk => (by cases hk), fun k hk => (by cases hk), fun k hk => (by cases hk),
        hterminated⟩

theorem closing_reachable (h : (poolLts self request nelems).Reachable s) : Closing self s := by
  obtain ⟨xs, hx⟩ := h
  refine hx.induction (P := fun _ s => Closing self s) ?_ ?_
  · intro s hi
    obtain ⟨m, calloc, rfl⟩ := hi.state
    exact ⟨fun n hn => (by cases hn), fun n hn => (by cases hn), fun n hn => (by cases hn),
      fun n => by simp [TecTaskNode_init]⟩
  · intro xs s e t hhist h hs
    exact closing_step hs (poolInv_reachable hhist.reachable).control h

/-- The steps that the thread of the node needs until it is at its end. -/
def TecTaskNode.toNull (node : TecTaskNode) : Nat :=
  match node.pc with
  | .absent | .exited => 0
  | .pop => 4 * node.q.idxOf none + 2
  | .test _ => 4 * node.q.idxOf none + 5
  | .running _ => 4 * node.q.idxOf none + 4
  | .release _ => 4 * node.q.idxOf none + 3
  | .set_terminated => 1

/-- The steps that `TecThrPool_done` needs itself. -/
def DonePc.steps (nthreads : Nat) : DonePc → Nat
  | .idle => 4 * nthreads + 5
  | .node n => 4 * (nthreads - n) + 4
  | .wait n => 4 * (nthreads - n) + 3
  | .join n => 4 * (nthreads - n) + 2
  | .destroy n => 4 * (nthreads - n) + 1
  | .returned => 0

/-- The node whose thread `TecThrPool_done` waits for. -/
def State.waiting (s : State) : Option Nat :=
  match s.done with
  | .wait n => if (s.nodes n).sig_terminated = true then none else some n
  | _ => none

def doneRank (self : TecThrPool) (s : State) : Nat ×ₗ Nat :=
  toLex (s.done.steps self.nthreads,
    match s.done with
    | .wait n => (s.nodes n).toNull
    | _ => 0)

def doneHelpful (s : State) : Actor :=
  match s.waiting with
  | some n => .thread n
  | none => .done

/-- A thread that is created goes on unless its queue is empty. -/
theorem thread_enabled (habsent : (s.nodes n).pc ≠ .absent) (hexited : (s.nodes n).pc ≠ .exited)
    (hq : (s.nodes n).pc = .pop → (s.nodes n).q ≠ []) :
    ∃ e t, Actor.steps self (.thread n) s e t := by
  cases hn : (s.nodes n).pc with
  | absent => exact absurd hn habsent
  | exited => exact absurd hn hexited
  | pop =>
    obtain ⟨task, q, hcons⟩ := List.exists_cons_of_ne_nil (hq hn)
    cases task with
    | none => exact ⟨_, _, .pop_null hn hcons, trivial⟩
    | some task => exact ⟨_, _, .pop hn hcons, trivial⟩
  | test task =>
    by_cases hfunc : load s.mem (task.task + TecTask_task_func) 8 = 0
    · exact ⟨_, _, .skip hn hfunc, trivial⟩
    · exact ⟨_, _, .call hn hfunc, trivial⟩
  | running task => exact ⟨_, _, .return hn, trivial⟩
  | release task => exact ⟨_, _, .release hn rfl, trivial⟩
  | set_terminated => exact ⟨_, _, .set_terminated hn, trivial⟩

/-- Each step of the thread, apart from what a task function writes, brings it closer to NULL. -/
theorem toNull_thread_step (hs : ThreadStep self n s e t) :
    (e.Goes ∧ (t.nodes n).toNull < (s.nodes n).toNull) ∨ ¬ e.Goes ∧ t.nodes = s.nodes := by
  unfold TecTaskNode.toNull
  cases hs with
  | pop hn hq =>
    refine .inl ⟨trivial, ?_⟩
    simp only [setNode_self, hn, hq]
    rw [List.idxOf_cons_ne _ (by simp)]
    omega
  | pop_null hn hq =>
    refine .inl ⟨trivial, ?_⟩
    simp [hn]
  | write hn ha => exact .inr ⟨id, rfl⟩
  | call hn _ | skip hn _ | «return» hn | release hn _ | set_terminated hn =>
    refine .inl ⟨trivial, ?_⟩
    simp [hn]

/-- What is pushed behind NULL does not matter to the thread. -/
theorem Kept.toNull {node node' : TecTaskNode} (h : Kept node node') (hn : node.Stopping) :
    node'.toNull = node.toNull := by
  obtain ⟨new, hq⟩ := h.q
  have hidx : none ∈ node.q → node'.q.idxOf none = node.q.idxOf none := by
    intro hmem
    rw [← hq]
    exact List.idxOf_append_of_mem hmem
  unfold TecTaskNode.toNull
  unfold TecTaskNode.Stopping at hn
  rw [h.pc]
  cases hcase : node.pc with
  | absent | exited | set_terminated => rfl
  | _ =>
    rw [hcase] at hn
    simp only [hidx hn]

theorem done_steps_lt (hs : DoneStep self s e t) (hclosing : Closing self s) :
    t.done.steps self.nthreads < s.done.steps self.nthreads := by
  cases hs with
  | enter hd _ | push hd hn _ | no_thread hd hn _ | wait hd _ | join hd _ | finish hd _ =>
    simp only [hd, DonePc.steps]
    omega
  | @destroy n hd =>
    have hn := hclosing.below n (by rw [hd]; rfl)
    simp only [hd, DonePc.steps]
    omega

theorem done_stays (hs : Step self request s e t) (h : ∀ u, DoneStep self s e u → u ≠ t) :
    t.done = s.done := by
  cases hs with
  | enqueue c hs hopen => exact (enqueue_step_cases hs).done
  | thread n hs => exact (thread_step_cases hs).done
  | run hs => cases hs <;> rfl
  | done hs => exact absurd rfl (h _ hs)

/-- The rank of `TecThrPool_done`: only the thread that it waits for counts, and only that thread
or `TecThrPool_done` itself goes on. -/
theorem doneRank_step (hs : Step self request s e t) (hcontrol : Control self s)
    (hclosing : Closing self s) : doneRank self t < doneRank self s ∨
      doneRank self t = doneRank self s ∧ doneHelpful t = doneHelpful s := by
  by_cases hdone : DoneStep self s e t
  · left
    exact Prod.Lex.toLex_lt_toLex.mpr (.inl (done_steps_lt hdone hclosing))
  · have hd : t.done = s.done := done_stays hs fun u hu heq => hdone (heq ▸ hu)
    cases hcase : s.done with
    | wait n =>
      have hstop := hclosing.stopping n hcase
      by_cases hown : ThreadStep self n s e t
      · rcases toNull_thread_step hown with ⟨_, hlt⟩ | ⟨_, hnodes⟩
        · left
          simp only [doneRank, hd, hcase]
          exact Prod.Lex.toLex_lt_toLex.mpr (.inr ⟨rfl, hlt⟩)
        · right
          simp only [doneRank, doneHelpful, State.waiting, hd, hcase, hnodes, and_self]
      · right
        rcases other_kept hs hcontrol hown with hkept | ⟨_, habsent, _⟩
        · simp only [doneRank, doneHelpful, State.waiting, hd, hcase, hkept.toNull hstop,
            hkept.sig_terminated, and_self]
        · exact absurd habsent hstop.not_absent
    | _ =>
      right
      simp only [doneRank, doneHelpful, State.waiting, hd, hcase, and_self]

theorem doneHelpful_done (h : ∀ n, s.done = .wait n → (s.nodes n).sig_terminated = true) :
    doneHelpful s = .done := by
  unfold doneHelpful State.waiting
  split <;> rename_i heq
  · split at heq
    · rw [if_pos (h _ ‹_›)] at heq
      cases heq
    · cases heq
  · rfl

theorem done_enabled (hclosing : Closing self s) (hidle : s.done ≠ .idle)
    (hreturned : s.done ≠ .returned) : ∃ e t, Actor.steps self (doneHelpful s) s e t := by
  have hdone : (∀ n, s.done = .wait n → (s.nodes n).sig_terminated = true) →
      (∃ e t, DoneStep self s e t) → ∃ e t, Actor.steps self (doneHelpful s) s e t := by
    rintro h ⟨e, t, hs⟩
    rw [doneHelpful_done h]
    exact ⟨e, t, hs, hidle⟩
  cases hd : s.done with
  | idle => exact absurd hd hidle
  | returned => exact absurd hd hreturned
  | node n =>
    refine hdone (by simp [hd]) ?_
    by_cases hn : n < self.nthreads
    · by_cases hthr : (s.nodes n).thr = 0
      · exact ⟨_, _, .push hd hn hthr⟩
      · exact ⟨_, _, .no_thread hd hn hthr⟩
    · exact ⟨_, _, .finish hd (Nat.le_of_not_lt hn)⟩
  | wait n =>
    cases hsig : (s.nodes n).sig_terminated with
    | true =>
      refine hdone ?_ ⟨_, _, .wait hd hsig⟩
      intro k hk
      cases hd.symm.trans hk
      exact hsig
    | false =>
      simp only [doneHelpful, State.waiting, hd, hsig, Bool.false_eq_true, if_false]
      have hstop := hclosing.stopping n hd
      refine thread_enabled hstop.not_absent ?_ fun hpc => List.ne_nil_of_mem (hstop.null hpc)
      rw [Ne, ← hclosing.terminated n, hsig]
      exact Bool.false_ne_true
  | join n => exact hdone (by simp [hd]) ⟨_, _, .join hd (hclosing.exited n hd)⟩
  | destroy n => exact hdone (by simp [hd]) ⟨_, _, .destroy hd⟩

theorem done_actor (hclosing : Closing self s) (hs : Actor.steps self (doneHelpful s) s e t) :
    doneRank self t < doneRank self s := by
  cases hwait : s.waiting with
  | none =>
    rw [doneHelpful, hwait] at hs
    exact Prod.Lex.toLex_lt_toLex.mpr (.inl (done_steps_lt hs.1 hclosing))
  | some n =>
    rw [doneHelpful, hwait] at hs
    obtain ⟨hs, hgoes⟩ := hs
    have hd : s.done = .wait n := by
      unfold State.waiting at hwait
      split at hwait
      · split at hwait
        · cases hwait
        · cases hwait
          assumption
      · cases hwait
    have hsame : t.done = s.done := (thread_step_cases hs).done
    rcases toNull_thread_step hs with ⟨_, hlt⟩ | ⟨hnot, _⟩
    · simp only [doneRank, hsame, hd]
      exact Prod.Lex.toLex_lt_toLex.mpr (.inr ⟨rfl, hlt⟩)
    · exact absurd hgoes hnot

theorem done_not_idle (hs : Step self request s e t) (h : s.done ≠ .idle) : t.done ≠ .idle := by
  by_cases hdone : DoneStep self s e t
  · cases hdone <;> nofun
  · rw [done_stays hs fun u hu heq => hdone (heq ▸ hu)]
    exact h

theorem done_helpful : (poolLts self request nelems).Helpful (Actor.steps self)
    (fun s => s.done ≠ .idle) (fun s => s.done = .returned) (doneRank self) doneHelpful where
  enabled _ hr hidle hreturned := done_enabled (closing_reachable hr) hidle hreturned
  step _ _ _ hr hidle _ hs := .inr ⟨done_not_idle hs hidle,
    doneRank_step hs (poolInv_reachable hr).control (closing_reachable hr)⟩
  actor _ _ _ hr _ _ hs := .inr (done_actor (closing_reachable hr) hs)

/-- `TecThrPool_done` returns, whatever the other threads do: it waits for each thread in turn, and
a thread sees NULL after finitely many tasks. -/
theorem pool_done_returns (self : TecThrPool) (request : Nat → Request) (nelems : Nat)
    (E : Execution State Event) (hE : (poolLts self request nelems).Valid E)
    (hfair : ∀ i, E.Fair (Actor.steps self i)) :
    E.LeadsTo (fun s => s.done ≠ .idle) (fun s => s.done = .returned ∧
      ∀ n < self.nthreads, (s.nodes n).pc.Over ∧ (s.nodes n).destroyed = true) := by
  intro m hm
  obtain ⟨k, hmk, hk⟩ := done_helpful.leadsTo hE (fun s _ => hfair _) m hm
  refine ⟨k, hmk, hk, ?_⟩
  intro n hn
  have hnode := (poolInv_reachable (hE.reachable k)).control.nodes n
  have hdestroyed := hnode.passed (by rw [hk]; exact hn)
  exact ⟨(hnode.destroyed hdestroyed).1, hdestroyed⟩

theorem returned_no_step (hd : s.done = .returned) : ¬ DoneStep self s e t := by
  intro hs
  cases hs with
  | enter h _ | push h _ _ | no_thread h _ _ | wait h _ | join h _ | destroy h | finish h _ =>
    cases h.symm.trans hd

/-- `TecThrPool_run` with one thread, and then the end of the pool. -/
theorem pool_done_returns_bare :
    ∃ E : Execution State Event, (poolLts barePool (fun _ => bareRequest) 0).Valid E ∧
      E.event 3 = some .done ∧ ∃ n, 4 ≤ n ∧ (E.state n).done = .returned ∧
        ((E.state n).nodes 0).pc.Over ∧ ((E.state n).nodes 0).destroyed = true := by
  have h0 : (poolLts barePool (fun _ => bareRequest) 0).History [] bareState :=
    .init bare_initial
  have h1 := h0.snoc (Step.run (.enter rfl))
  have h2 := h1.snoc (Step.run (.create rfl (by decide)))
  have h3 := h2.snoc (Step.run (.finish rfl (by decide)))
  have h4 := h3.snoc (Step.done (.enter rfl rfl))
  have r5 := h4.here.snoc (Step.done (.push rfl (by decide) rfl))
  have r6 := r5.snoc (Step.thread 0 (.pop_null rfl rfl))
  have r7 := r6.snoc (Step.thread 0 (.set_terminated rfl))
  have r8 := r7.snoc (Step.done (.wait rfl rfl))
  have r9 := r8.snoc (Step.done (.join rfl rfl))
  have r10 := r9.snoc (Step.done (.destroy rfl))
  have r11 := r10.snoc (Step.done (.finish rfl (by decide)))
  obtain ⟨E, hE, hends, hevent, hbegun⟩ := h4.execution r11
  have hfair : ∀ i, E.Fair (Actor.steps barePool i) := by
    rintro (_ | n) <;> refine hends.fair fun e t hs => ?_
    · exact returned_no_step rfl hs.1
    · refine (thread_step_cases hs.1).before ?_
      by_cases hn : n = 0
      · subst hn
        trivial
      · simp only [setNode_of_ne hn]
        trivial
  obtain ⟨n, hn, hreturned, hnodes⟩ := pool_done_returns barePool _ 0 E hE hfair 4
    (by rw [show E.state 4 = _ from hbegun]; nofun)
  exact ⟨E, hE, hevent 3, n, hn, hreturned, hnodes 0 Nat.one_pos⟩

/-! Every task that is pushed before NULL is executed -/

/-- The task is in the queue before NULL, and the thread is not at its end. -/
structure TecTaskNode.Coming (task : TaskRef) (node : TecTaskNode) : Prop where
  queued : some task ∈ node.q
  before : node.q.idxOf (some task) < node.q.idxOf none
  pc : node.pc ≠ .set_terminated ∧ node.pc ≠ .exited

/-- The steps that the thread needs until it takes the task. -/
def TecTaskNode.toTask (task : TaskRef) (node : TecTaskNode) : Nat :=
  match node.pc with
  | .pop => 4 * node.q.idxOf (some task)
  | .test _ => 4 * node.q.idxOf (some task) + 3
  | .running _ => 4 * node.q.idxOf (some task) + 2
  | .release _ => 4 * node.q.idxOf (some task) + 1
  | _ => 0

theorem Kept.coming {node node' : TecTaskNode} (h : Kept node node') (hn : node.Coming task) :
    node'.Coming task ∧ node'.toTask task = node.toTask task := by
  obtain ⟨new, hq⟩ := h.q
  have hidx : node'.q.idxOf (some task) = node.q.idxOf (some task) := by
    rw [← hq]
    exact List.idxOf_append_of_mem hn.queued
  refine ⟨⟨h.q.subset hn.queued, ?_, h.pc ▸ hn.pc⟩, ?_⟩
  · rw [hidx, ← hq]
    by_cases hnull : none ∈ node.q
    · rw [List.idxOf_append_of_mem hnull]
      exact hn.before
    · rw [List.idxOf_append_of_notMem hnull]
      have hlt := List.idxOf_lt_length_iff.mpr hn.queued
      omega
  · unfold TecTaskNode.toTask
    rw [h.pc, hidx]

theorem coming_thread_step (hs : ThreadStep self n s e t) (h : (s.nodes n).Coming task) :
    (t.nodes n).pc = .test task ∨ (t.nodes n).Coming task ∧
      (e.Goes ∧ (t.nodes n).toTask task < (s.nodes n).toTask task ∨
        ¬ e.Goes ∧ t.nodes = s.nodes) := by
  unfold TecTaskNode.toTask
  cases hs with
  | @pop r q hn hq =>
    by_cases hr : r = task
    · subst hr
      left
      simp
    · have hne : some r ≠ some task := fun heq => hr (Option.some.inj heq)
      have hqueued := h.queued
      have hbefore := h.before
      rw [hq, List.idxOf_cons_ne _ hne, List.idxOf_cons_ne _ (by simp)] at hbefore
      rw [hq] at hqueued
      refine .inr ⟨⟨?_, ?_, ?_⟩, .inl ⟨trivial, ?_⟩⟩
      · simpa [Ne.symm hr] using hqueued
      · simpa using Nat.lt_of_succ_lt_succ hbefore
      · simp
      · simp only [setNode_self, hn, hq, List.idxOf_cons_ne _ hne]
        omega
  | pop_null hn hq =>
    have hbefore := h.before
    rw [hq, List.idxOf_cons_self] at hbefore
    exact absurd hbefore (Nat.not_lt_zero _)
  | write hn ha => exact .inr ⟨h, .inr ⟨id, rfl⟩⟩
  | set_terminated hn => exact absurd hn h.pc.1
  | call hn _ | skip hn _ | «return» hn | release hn _ =>
    refine .inr ⟨⟨?_, ?_, ?_⟩, .inl ⟨trivial, ?_⟩⟩
    · simpa using h.queued
    · simpa using h.before
    · simp
    · simp [hn]

/-- The thread of the node is going to take the task. -/
theorem coming_helpful (n : Nat) (task : TaskRef) :
    (poolLts self request nelems).Helpful (Actor.steps self)
      (fun s => (s.nodes n).Coming task ∧ (s.nodes n).pc ≠ .absent)
      (fun s => (s.nodes n).pc = .test task) (fun s => (s.nodes n).toTask task)
      (fun _ => .thread n) where
  enabled _ _ h _ :=
    thread_enabled h.2 h.1.pc.2 fun _ => List.ne_nil_of_mem h.1.queued
  step s e t hr h _ hs := by
    have hcontrol := (poolInv_reachable hr).control
    by_cases hown : ThreadStep self n s e t
    · rcases coming_thread_step hown h.1 with htest | ⟨hcoming, hrank⟩
      · exact .inl htest
      · refine .inr ⟨⟨hcoming, (thread_step_cases hown).after⟩, ?_⟩
        rcases hrank with ⟨_, hlt⟩ | ⟨_, hnodes⟩
        · exact .inl hlt
        · exact .inr ⟨by rw [hnodes], rfl⟩
    · rcases other_kept hs hcontrol hown with hkept | ⟨_, habsent, _⟩
      · obtain ⟨hcoming, hrank⟩ := hkept.coming h.1
        exact .inr ⟨⟨hcoming, hkept.pc ▸ h.2⟩, .inr ⟨hrank, rfl⟩⟩
      · exact absurd habsent h.2
  actor _ _ _ _ h _ hs := by
    rcases coming_thread_step hs.1 h.1 with htest | ⟨_, ⟨_, hlt⟩ | ⟨hnot, _⟩⟩
    · exact .inl htest
    · exact .inr hlt
    · exact absurd hs.2 hnot

theorem null_mem_pushes : none ∈ pushes n xs ↔ .push n none ∈ xs := by
  unfold pushes Fifo.pushed
  rw [List.mem_filterMap]
  constructor
  · rintro ⟨e, he, hnull⟩
    cases e with
    | push k task =>
      by_cases hk : k = n
      · subst hk
        simp only [queueEvent, if_true, Option.some.injEq] at hnull
        subst hnull
        exact he
      · simp [queueEvent, hk] at hnull
    | pop k task =>
      by_cases hk : k = n <;> simp [queueEvent, hk] at hnull
    | _ => cases hnull
  · intro he
    exact ⟨_, he, by simp [queueEvent]⟩

/-- As long as NULL is not pushed, each task in the queue is going to be taken. -/
theorem coming_of_queued (h : (poolLts self request nelems).History xs s)
    (hnull : .push n none ∉ xs) (hq : some task ∈ (s.nodes n).q) :
    (s.nodes n).Coming task := by
  have hbalance := queue_balance h n
  have hpushes : none ∉ pushes n xs := fun hmem => hnull (null_mem_pushes.mp hmem)
  rw [hbalance, List.mem_append, not_or] at hpushes
  obtain ⟨finished, hprogress⟩ := progress_history h n
  refine ⟨hq, ?_, ?_⟩
  · rw [List.idxOf_eq_length hpushes.2]
    exact List.idxOf_lt_length_iff.mpr hq
  · rw [hprogress.pops] at hpushes
    constructor <;>
    · intro hpc
      refine hpushes.1 (List.mem_append_right _ ?_)
      rw [hpc]
      exact List.mem_singleton.mpr rfl

/-- The thread calls the function of the task that it took. -/
theorem call_of_test (hinv : PoolInv self request s) (hs : Actor.steps self (.thread n) s e t)
    (hpc : (s.nodes n).pc = .test task) (hruns : (request task.call).task_func ≠ 0) :
    (∃ bytes, e = .call n task (enqueued_args self request n task.call) bytes) ∧
      (t.nodes n).pc = .running task := by
  have hopen := hinv.control.open_of_running (n := n) (by rw [hpc]; exact fun h => h)
  have hargs := args_of_pending hinv hopen (TaskInv.task_mem (by rw [hpc]; rfl))
  obtain ⟨hs, _⟩ := hs
  cases hs with
  | call hn hfunc =>
    cases hn.symm.trans hpc
    exact ⟨⟨_, by rw [hargs]⟩, by simp⟩
  | skip hn hfunc =>
    cases hn.symm.trans hpc
    refine absurd ?_ ((runs_iff self n).mp (decide_eq_true hruns))
    rw [← hargs]
    exact hfunc
  | write hn _ | pop hn _ | pop_null hn _ | «return» hn | release hn _ | set_terminated hn =>
    cases hn.symm.trans hpc

theorem return_of_running (hs : Actor.steps self (.thread n) s e t)
    (hpc : (s.nodes n).pc = .running task) : e = .return n task := by
  obtain ⟨hs, hgoes⟩ := hs
  cases hs with
  | «return» hn =>
    cases hn.symm.trans hpc
    rfl
  | write hn ha => exact hgoes.elim
  | call hn _ | skip hn _ | pop hn _ | pop_null hn _ | release hn _ | set_terminated hn =>
    cases hn.symm.trans hpc

/-- Nobody but the thread itself takes it from where it is, and what a task function writes leaves
it there. -/
theorem at_step (hs : Step self request s e t) (hcontrol : Control self s) {pc : ThreadPc}
    (habsent : pc ≠ .absent) (hpc : (s.nodes n).pc = pc) :
    (t.nodes n).pc = pc ∨ Actor.steps self (.thread n) s e t := by
  by_cases hown : ThreadStep self n s e t
  · by_cases hgoes : e.Goes
    · exact .inr ⟨hown, hgoes⟩
    · rcases toNull_thread_step hown with ⟨hgoes', _⟩ | ⟨_, hnodes⟩
      · exact absurd hgoes' hgoes
      · rw [hnodes]
        exact .inl hpc
  · rcases (foreign_step hs hcontrol hown).2 with hkept | ⟨hold, _⟩
    · exact .inl (hkept.trans hpc)
    · exact absurd (hpc.symm.trans hold) habsent

theorem push_queued (hs : Step self request s (.push n (some task)) t) :
    some task ∈ (t.nodes n).q := by
  have hstep := queue_step hs n
  rw [queueEvent, if_pos rfl] at hstep
  generalize (s.nodes n).q = old at hstep
  generalize (t.nodes n).q = new at hstep
  cases hstep
  simp

theorem present_step (hs : Step self request s e t) (hcontrol : Control self s)
    (h : (s.nodes n).pc ≠ .absent) : (t.nodes n).pc ≠ .absent := by
  by_cases hown : ThreadStep self n s e t
  · exact (thread_step_cases hown).after
  · rcases (foreign_step hs hcontrol hown).2 with hkept | ⟨habsent, _⟩
    · rwa [hkept]
    · exact absurd habsent h

/-- A task may wait for its thread to be created. -/
theorem coming_absent_step (hs : Step self request s e t) (hcontrol : Control self s)
    (h : (s.nodes n).Coming task) (habsent : (s.nodes n).pc = .absent) :
    (t.nodes n).Coming task := by
  have hown : ¬ ThreadStep self n s e t := by
    intro hown
    have hbefore := (thread_step_cases hown).before
    rw [habsent] at hbefore
    exact hbefore trivial
  rcases other_kept hs hcontrol hown with hkept | ⟨_, _, hnode⟩
  · exact (hkept.coming h).1
  · rw [hnode]
    exact ⟨h.queued, h.before, nofun, nofun⟩

theorem coming_created {E : Execution State Event} (hE : (poolLts self request nelems).Valid E)
    (hcreated : ∃ j, E.event j = some (.create n)) {m : Nat}
    (hcoming : ((E.state m).nodes n).Coming task) :
    ∃ k, m ≤ k ∧ ((E.state k).nodes n).Coming task ∧ ((E.state k).nodes n).pc ≠ .absent := by
  obtain ⟨j, hj⟩ := hcreated
  have hpresent := (created_history (hE.history (j + 1)) n
    (Execution.mem_trace.mpr ⟨j, Nat.lt_succ_self j, hj⟩)).2
  refine hE.meets (P := fun s => (s.nodes n).Coming task) (Q := fun s => (s.nodes n).pc ≠ .absent)
    ?_ ?_ hcoming hpresent
  · intro s e t hr h habsent hs
    exact coming_absent_step hs (poolInv_reachable hr).control h (not_not.mp habsent)
  · exact fun s e t hr h hs => present_step hs (poolInv_reachable hr).control h

/-- A thread that does not wait for its queue goes on from where it is. -/
theorem goes_on {E : Execution State Event} (hE : (poolLts self request nelems).Valid E)
    (hfair : E.Fair (Actor.steps self (.thread n))) {pc : ThreadPc} {m : Nat}
    (hm : ((E.state m).nodes n).pc = pc) (habsent : pc ≠ .absent) (hexited : pc ≠ .exited)
    (hpop : pc ≠ .pop) :
    ∃ k, m ≤ k ∧ ((E.state k).nodes n).pc = pc ∧ E.Takes (Actor.steps self (.thread n)) k := by
  refine hE.takes (P := fun s => (s.nodes n).pc = pc) hfair ?_ ?_ hm
  · intro s _ hpc
    exact thread_enabled (hpc ▸ habsent) (hpc ▸ hexited) fun h => absurd (hpc.symm.trans h) hpop
  · intro s e t hr hpc hs
    exact at_step hs (poolInv_reachable hr).control habsent hpc

/-- A task with a function that is pushed before NULL is executed: its thread takes it after
finitely many tasks, calls its function with the arguments of the call, and the function returns. -/
theorem pushed_task_executed (self : TecThrPool) (request : Nat → Request) (nelems : Nat)
    (E : Execution State Event) (hE : (poolLts self request nelems).Valid E) (n : Nat)
    (hfair : E.Fair (Actor.steps self (.thread n))) (hcreated : ∃ j, E.event j = some (.create n))
    (m : Nat) (task : TaskRef) (hpush : E.event m = some (.push n (some task)))
    (hnull : ∀ j < m, E.event j ≠ some (.push n none))
    (hruns : (request task.call).task_func ≠ 0) :
    ∃ j k bytes, m < j ∧ j < k ∧
      E.event j = some (.call n task (enqueued_args self request n task.call) bytes) ∧
      E.event k = some (.return n task) := by
  have hcoming : ((E.state (m + 1)).nodes n).Coming task := by
    refine coming_of_queued (hE.history (m + 1)) ?_ (push_queued (hE.step m _ hpush))
    intro hmem
    obtain ⟨j, hj, he⟩ := Execution.mem_trace.mp hmem
    rcases Nat.lt_succ_iff_lt_or_eq.mp hj with hlt | rfl
    · exact hnull j hlt he
    · cases hpush.symm.trans he
  obtain ⟨m₁, hm₁, hcoming₁⟩ := coming_created hE hcreated hcoming
  obtain ⟨m₂, hm₂, htest⟩ :=
    (coming_helpful n task).leadsTo hE (fun _ _ => hfair) m₁ hcoming₁
  obtain ⟨j, hj, htestj, e, he, hcall⟩ := goes_on hE hfair htest nofun nofun nofun
  obtain ⟨⟨bytes, rfl⟩, hrunning⟩ :=
    call_of_test (poolInv_reachable (hE.reachable j)) hcall htestj hruns
  obtain ⟨k, hk, hrunningk, e, hek, hreturn⟩ := goes_on hE hfair hrunning nofun nofun nofun
  refine ⟨j, k, bytes, by omega, by omega, he, ?_⟩
  rw [hek, return_of_running hreturn hrunningk]

theorem waiting_no_step (hpc : (s.nodes n).pc = .pop) (hq : (s.nodes n).q = []) :
    ¬ ThreadStep self n s e t := by
  intro hs
  cases hs with
  | pop h hpop | pop_null h hpop => cases hpop.symm.trans hq
  | write h _ | call h _ | skip h _ | «return» h | release h _ | set_terminated h =>
    cases h.symm.trans hpc

/-- One task from the heap, in a pool that goes on. -/
theorem pushed_task_executed_bare :
    ∃ E : Execution State Event, (poolLts barePool (fun _ => bareRequest) 0).Valid E ∧
      ∃ j k bytes, 11 < j ∧ j < k ∧ E.event j = some (.call 0 ⟨4096, 0⟩
        (enqueued_args barePool (fun _ => bareRequest) 0 0) bytes) ∧
        E.event k = some (.return 0 ⟨4096, 0⟩) := by
  have h0 : (poolLts barePool (fun _ => bareRequest) 0).History [] bareState :=
    .init bare_initial
  have h1 := h0.snoc (Step.run (.enter rfl))
  have h2 := h1.snoc (Step.run (.create rfl (by decide)))
  have h3 := h2.snoc (Step.run (.finish rfl (by decide)))
  have h4 := h3.snoc (Step.enqueue 0 (.fetch_add rfl) (fun h => absurd rfl h))
  have hnodes := (Function.forall_update_iff bareState.nodes
    (a := 0) (b := { TecTaskNode_init 0 0 with thr := 0, pc := .pop })
    (p := fun _ (node : TecTaskNode) => node.arena = TecArena_init 0 TecTask_size 0 ∧
      ∀ p ∈ node.live, Apart 4096 TecTask_size p TecTask_size)).mpr
    ⟨⟨rfl, fun p hp => by cases hp⟩, fun _ _ => ⟨rfl, fun p hp => by cases hp⟩⟩
  have h5 := h4.snoc (Step.enqueue 0 (@EnqueueStep.allocate _ _ _ _ 4096 _ _ _ rfl
    (bare_heap (by decide) (fun _ _ _ => ⟨fun h => h.1 rfl, fun h => h.1 rfl⟩) hnodes) rfl
    (by decide)) (fun _ => rfl))
  have h6 := h5.snoc (Step.enqueue 0 (.buffer_size rfl) (fun _ => rfl))
  have h7 := h6.snoc (Step.enqueue 0 (.buffer rfl) (fun _ => rfl))
  have h8 := h7.snoc (Step.enqueue 0 (.payload rfl) (fun _ => rfl))
  have h9 := h8.snoc (Step.enqueue 0 (.test_payload rfl) (fun _ => rfl))
  have h10 := h9.snoc (Step.enqueue 0 (.task_func rfl) (fun _ => rfl))
  have h11 := h10.snoc (Step.enqueue 0 (.args rfl) (fun _ => rfl))
  have h12 := h11.snoc (Step.enqueue 0 (.push rfl) (fun _ => rfl))
  have h13 := h12.snoc (Step.thread 0 (.pop rfl rfl))
  have h14 := h13.snoc (Step.thread 0 (.call rfl (by decide +kernel)))
  have h15 := h14.snoc (Step.thread 0 (.return rfl))
  have hrelease : ∀ r : TecArena × Mem × Option Nat, r = (r.1, r.2.1, r.2.2) := fun _ => rfl
  have h16 := h15.snoc (Step.thread 0 (.release rfl (hrelease _)))
  obtain ⟨E, hE, hends, hevent, _⟩ := h16.execution h16.here
  have hfair : E.Fair (Actor.steps barePool (.thread 0)) :=
    hends.fair fun e t hs => waiting_no_step rfl rfl hs.1
  have hpush : E.event 11 = some (.push 0 (some ⟨4096, 0⟩)) := hevent 11
  have hnull : ∀ j < 11, E.event j ≠ some (.push 0 none) := by
    intro j _ hj
    have hmem := List.mem_of_getElem? ((hevent j).symm.trans hj)
    simp at hmem
  obtain ⟨j, k, bytes, hj, hk, hcall, hreturn⟩ := pushed_task_executed barePool _ 0 E hE 0 hfair
    ⟨1, hevent 1⟩ 11 ⟨4096, 0⟩ hpush hnull (by decide)
  exact ⟨E, hE, j, k, bytes, hj, hk, hcall, hreturn⟩

end Tecc.ThrPool
