import Tecc.QueueFine
import Tecc.QueueNodes

/-! Each of the two locked sections takes effect at one store: the queue of single loads and
stores refines the one whose sections are whole. -/
namespace Tecc.Queue.Fine

open Linked Transition

variable {T α : Type*} [DecidableEq T] {s s' : State T α} {e : Event T α} {t : T} {pc : Pc α}
  {ps : List Addr} {heap : Addr → Option (Cell α)} {q : TecQueue}

omit [DecidableEq T] in
theorem view_self (hm : s.mtx = some t) :
    s.view = ⟨⟨s.q.head, (s.pc t).tail s.q⟩, nodes s.heap, true, fun u => (s.pc u).view⟩ := by
  simp [State.view, hm]

omit [DecidableEq T] in
theorem view_free (hm : s.mtx = none) :
    s.view = ⟨s.q, nodes s.heap, false, fun u => (s.pc u).view⟩ := by
  simp [State.view, hm]

theorem view_pc : (fun u => (Function.update s.pc t pc u).view) =
    Function.update (fun u => (s.pc u).view) t pc.view :=
  Function.comp_update Pc.view s.pc t pc

theorem view_holder (hm : s'.mtx = some t) (hpc : s'.pc = Function.update s.pc t pc) :
    s'.view = ⟨⟨s'.q.head, pc.tail s'.q⟩, nodes s'.heap, true,
      Function.update (fun u => (s.pc u).view) t pc.view⟩ := by
  rw [view_self hm, hpc, view_pc, Function.update_self]

theorem view_unlock (hm : s'.mtx = none) (hpc : s'.pc = Function.update s.pc t pc) :
    s'.view = ⟨s'.q, nodes s'.heap, false,
      Function.update (fun u => (s.pc u).view) t pc.view⟩ := by
  rw [view_free hm, hpc, view_pc]

/-- A step whose thread holds the mutex afterwards. -/
theorem holder_step {a : Wakeup.State T α} {b : Wakeup.Event T α} (hm : s'.mtx = some t)
    (hpc : s'.pc = Function.update s.pc t pc)
    (hs : Wakeup.Step a b ⟨⟨s'.q.head, pc.tail s'.q⟩, nodes s'.heap, true,
      Function.update (fun u => (s.pc u).view) t pc.view⟩) : Wakeup.Step a b s'.view := by
  rw [view_holder hm hpc]
  exact hs

/-- A step behind which nobody holds it. -/
theorem unlock_step {a : Wakeup.State T α} {b : Wakeup.Event T α} (hm : s'.mtx = none)
    (hpc : s'.pc = Function.update s.pc t pc)
    (hs : Wakeup.Step a b ⟨s'.q, nodes s'.heap, false,
      Function.update (fun u => (s.pc u).view) t pc.view⟩) : Wakeup.Step a b s'.view := by
  rw [view_unlock hm hpc]
  exact hs

theorem view_other (hm : s.mtx ≠ some t) (hq : s'.q = s.q) (hmtx : s'.mtx = s.mtx)
    (hpc : s'.pc = Function.update s.pc t pc) :
    s'.view = ⟨s.view.q, nodes s'.heap, s.view.mtx,
      Function.update (fun u => (s.pc u).view) t pc.view⟩ := by
  simp only [State.view, hq, hmtx, hpc, view_pc]
  cases hs : s.mtx with
  | none => rfl
  | some u =>
    have hut : u ≠ t := by
      rintro rfl
      exact hm hs
    simp [Function.update_of_ne hut]

/-- A step of a thread that does not hold it, before or after. -/
theorem other_step {a : Wakeup.State T α} {b : Wakeup.Event T α} (hm : s.mtx ≠ some t)
    (hq : s'.q = s.q) (hmtx : s'.mtx = s.mtx) (hpc : s'.pc = Function.update s.pc t pc)
    (hs : Wakeup.Step a b ⟨s.view.q, nodes s'.heap, s.view.mtx,
      Function.update (fun u => (s.pc u).view) t pc.view⟩) : Wakeup.Step a b s'.view := by
  rw [view_other hm hq hmtx hpc]
  exact hs

/-- A step inside of the mutex that no other thread can see. -/
theorem view_same (h : Local s) (ht : (s.pc t).view.Holds) (hpc : pc.view = (s.pc t).view)
    (hhead : q.head = s.q.head) (htail : pc.tail q = (s.pc t).tail s.q) :
    State.view ⟨q, s.heap, s.mtx, Function.update s.pc t pc⟩ = s.view := by
  have hm := h.holds ht
  have hupdate : Function.update (fun u => (s.pc u).view) t (s.pc t).view =
      fun u => (s.pc u).view := Function.update_eq_self _ _
  have hview : State.view ⟨q, s.heap, s.mtx, Function.update s.pc t pc⟩ = _ :=
    view_holder (s := s) hm rfl
  rw [hview, view_self hm, hpc, hupdate]
  simp only [hhead, htail]

/-- Outside of it a thread changes nodes that do not count. -/
theorem view_stay (hm : s.mtx ≠ some t) (hpc : pc.view = (s.pc t).view)
    (hheap : nodes heap = nodes s.heap) :
    State.view ⟨s.q, heap, s.mtx, Function.update s.pc t pc⟩ = s.view := by
  have hupdate : Function.update (fun u => (s.pc u).view) t (s.pc t).view =
      fun u => (s.pc u).view := Function.update_eq_self _ _
  have hview : State.view ⟨s.q, heap, s.mtx, Function.update s.pc t pc⟩ = _ :=
    view_other hm rfl rfl rfl
  rw [hview, hpc, hupdate]
  simp only [hheap]
  rfl

omit [DecidableEq T] in
theorem signals_view {woken : T → Bool} (h : Signals s.pc woken) :
    Queue.Signals s.view.view.pc woken := by
  have hasleep : ∀ u, s.view.view.pc u = .asleep ↔ s.pc u = .asleep := by
    intro u
    show ((s.pc u).view).view = .asleep ↔ _
    cases s.pc u <;> simp [Pc.view, Wakeup.Pc.view]
  refine ⟨fun u hu => (hasleep u).mpr (h.1 u hu), ?_⟩
  rintro ⟨u, hu⟩
  exact h.2 ⟨u, (hasleep u).mp hu⟩

omit [DecidableEq T] in
theorem view_wake (woken : T → Bool) :
    (fun u => ((s.wake woken).pc u).view) = (s.view.wake woken).pc := by
  funext u
  simp only [State.wake, Wakeup.State.wake]
  split <;> rfl

theorem push_step_view (hs : PushStep t s e s') (h : Local s) (hn : Inv s.view.view ps) :
    e.view = none ∧ s'.view = s.view ∨
      ∃ b, e.view = some b ∧ Wakeup.Step s.view b s'.view := by
  have hread := h.reads t
  cases hs with
  | @malloc obj node ht hfree =>
    left
    refine ⟨rfl, view_stay (h.not_held (by rw [ht]; exact id)) ?_ ?_⟩
    · rw [ht]
      rfl
    · rw [nodes_update]
      refine Function.update_eq_self_iff.mpr ?_
      rw [nodes, hfree]
      rfl
  | @obj obj node cell ht hcell =>
    have hfills : (s.pc t).fills = some (node, ⟨none, none⟩) := by rw [ht]; rfl
    cases hcell.symm.trans (h.filled t node _ hfills)
    left
    refine ⟨rfl, view_stay (h.not_held (by rw [ht]; exact id)) ?_ ?_⟩
    · rw [ht]
      rfl
    · rw [nodes_update]
      refine Function.update_eq_self_iff.mpr ?_
      rw [nodes, hcell]
      rfl
  | @next obj node cell ht hcell =>
    have hfills : (s.pc t).fills = some (node, ⟨some obj, none⟩) := by rw [ht]; rfl
    cases hcell.symm.trans (h.filled t node _ hfills)
    refine .inr ⟨_, rfl, ?_⟩
    have hidle : s.view.pc t = .idle := congrArg Pc.view ht
    have hfree : s.view.heap node = none := by
      show nodes s.heap node = none
      rw [nodes, hcell]
      rfl
    refine other_step (h.not_held (by rw [ht]; exact id)) rfl rfl rfl ?_
    rw [nodes_update]
    exact .push t (.malloc hidle hfree)
  | @lock obj node ht hm =>
    refine .inr ⟨_, rfl, ?_⟩
    have hpc : s.view.pc t = .push_lock node obj := congrArg Pc.view ht
    have hview : s.view = ⟨s.q, nodes s.heap, false, fun u => (s.pc u).view⟩ := view_free hm
    refine holder_step rfl rfl ?_
    rw [hview] at hpc ⊢
    exact .push t (.lock hpc rfl)
  | test ht =>
    left
    refine ⟨rfl, view_same h (by rw [ht]; trivial) ?_ rfl ?_⟩
    · rw [ht]
      split <;> rfl
    · rw [ht]
      split <;> rfl
  | @link obj node tail cell ht hq hcell =>
    refine .inr ⟨_, rfl, ?_⟩
    have hm := h.holds (t := t) (by rw [ht]; trivial)
    have hpc : s.view.pc t = .push_enqueue node obj := congrArg Pc.view ht
    have htail : s.view.q.tail = some tail := by
      rw [view_tail hm, ht]
      exact hq
    obtain ⟨obj', next, rfl, hnode⟩ := node_complete (tail_alive hn htail) hcell
    have hpush : TecQueue_push s.view.q s.view.heap node = some (⟨s.q.head, some node⟩,
        Function.update s.view.heap tail (some ⟨obj', some node⟩)) := by
      have hlast : s.view.heap tail = some ⟨obj', next⟩ := hnode
      simp only [TecQueue_push, htail, hlast]
      rfl
    have hview := Wakeup.PushStep.enqueue hpc hpush
    refine holder_step hm rfl ?_
    rw [nodes_update]
    rw [view_self hm] at hview ⊢
    exact .push t hview
  | @head obj node ht =>
    refine .inr ⟨_, rfl, ?_⟩
    have hm := h.holds (t := t) (by rw [ht]; trivial)
    have hpc : s.view.pc t = .push_enqueue node obj := congrArg Pc.view ht
    rw [ht] at hread
    have htail : s.view.q.tail = none := by
      rw [view_tail hm, ht]
      exact hread
    have hpush : TecQueue_push s.view.q s.view.heap node =
        some (⟨some node, some node⟩, s.view.heap) := by
      simp only [TecQueue_push, htail]
    have hview := Wakeup.PushStep.enqueue hpc hpush
    refine holder_step hm rfl ?_
    rw [view_self hm] at hview ⊢
    exact .push t hview
  | tail ht =>
    left
    refine ⟨rfl, view_same h (by rw [ht]; trivial) ?_ rfl ?_⟩
    · rw [ht]
      rfl
    · rw [ht]
      rfl
  | @signal woken ht hw =>
    refine .inr ⟨_, rfl, ?_⟩
    have hm := h.holds (t := t) (by rw [ht]; trivial)
    have hpc : s.view.pc t = .push_signal := congrArg Pc.view ht
    have hview := Wakeup.PushStep.signal hpc (signals_view hw)
    have htail : (s.pc t).tail s.q = s.q.tail := by rw [ht]; rfl
    refine holder_step (s := s.wake woken) hm rfl ?_
    rw [view_wake]
    rw [view_self hm, htail] at hview ⊢
    exact .push t hview
  | @unlock ht =>
    refine .inr ⟨_, rfl, ?_⟩
    have hm := h.holds (t := t) (by rw [ht]; trivial)
    have hpc : s.view.pc t = .push_unlock := congrArg Pc.view ht
    have htail : (s.pc t).tail s.q = s.q.tail := by rw [ht]; rfl
    have hview := Wakeup.PushStep.unlock hpc
    refine unlock_step rfl rfl ?_
    rw [view_self hm, htail] at hview ⊢
    exact .push t hview

theorem pop_step_view (hs : PopStep t s e s') (h : Local s) :
    e.view = none ∧ s'.view = s.view ∨
      ∃ b, e.view = some b ∧ Wakeup.Step s.view b s'.view := by
  have hread := h.reads t
  cases hs with
  | enter ht =>
    refine .inr ⟨_, rfl, ?_⟩
    have hpc : s.view.pc t = .idle := congrArg Pc.view ht
    exact other_step (h.not_held (by rw [ht]; exact id)) rfl rfl rfl (.pop t (.enter hpc))
  | wake ht =>
    refine .inr ⟨_, rfl, ?_⟩
    have hpc : s.view.pc t = .asleep := congrArg Pc.view ht
    exact other_step (h.not_held (by rw [ht]; exact id)) rfl rfl rfl (.pop t (.wake hpc))
  | lock ht hm =>
    refine .inr ⟨_, rfl, ?_⟩
    have hpc : s.view.pc t = .pop_lock := congrArg Pc.view ht
    refine holder_step rfl rfl ?_
    rw [view_free hm] at hpc ⊢
    exact .pop t (.lock hpc rfl)
  | relock ht hm =>
    refine .inr ⟨_, rfl, ?_⟩
    have hpc : s.view.pc t = .woken := congrArg Pc.view ht
    refine holder_step rfl rfl ?_
    rw [view_free hm] at hpc ⊢
    exact .pop t (.relock hpc rfl)
  | check ht =>
    refine .inr ⟨_, rfl, ?_⟩
    have hm := h.holds (t := t) (by rw [ht]; trivial)
    have hpc : s.view.pc t = .pop_check := congrArg Pc.view ht
    have htail : (s.pc t).tail s.q = s.q.tail := by rw [ht]; rfl
    have hview := Wakeup.PopStep.check hpc
    refine holder_step hm rfl ?_
    rw [view_self hm, htail] at hview ⊢
    by_cases hq : s.q.head = none
    · simp only [if_pos hq] at hview ⊢
      exact .pop t hview
    · simp only [if_neg hq] at hview ⊢
      exact .pop t hview
  | sleep ht =>
    refine .inr ⟨_, rfl, ?_⟩
    have hm := h.holds (t := t) (by rw [ht]; trivial)
    have hpc : s.view.pc t = .pop_sleep := congrArg Pc.view ht
    have htail : (s.pc t).tail s.q = s.q.tail := by rw [ht]; rfl
    have hview := Wakeup.PopStep.sleep hpc
    refine unlock_step rfl rfl ?_
    rw [view_self hm, htail] at hview ⊢
    exact .pop t hview
  | head ht hq | obj ht hcell hobj | next ht hcell hnext =>
    left
    refine ⟨rfl, view_same h (by rw [ht]; trivial) ?_ rfl ?_⟩
    · rw [ht]
      rfl
    · rw [ht]
      rfl
  | @store head obj next ht =>
    refine .inr ⟨_, rfl, ?_⟩
    have hm := h.holds (t := t) (by rw [ht]; trivial)
    have hpc : s.view.pc t = .pop_take := congrArg Pc.view ht
    rw [ht] at hread
    have hpop : TecQueue_pop s.view.q s.view.heap =
        some (⟨next, if next = none then none else s.q.tail⟩, head, obj) := by
      have htail : s.view.q.tail = s.q.tail := by
        rw [view_tail hm, ht]
        rfl
      have hhead : s.view.q.head = some head := hread.1
      have hnode : s.view.heap head = some ⟨obj, next⟩ := hread.2
      simp only [TecQueue_pop, hhead, hnode, htail]
    have hview := Wakeup.PopStep.take hpc hpop
    refine holder_step hm rfl ?_
    rw [view_self hm] at hview ⊢
    exact .pop t hview
  | @test head obj ht =>
    left
    refine ⟨rfl, view_same h (by rw [ht]; trivial) ?_ rfl ?_⟩
    · rw [ht]
      split <;> rfl
    · rw [ht]
      by_cases hq : s.q.head = none
      · simp [hq, Pc.tail]
      · simp [hq, Pc.tail]
  | @tail head obj ht =>
    rw [ht] at hread
    have hq : s.q.head = none := hread
    left
    refine ⟨rfl, view_same h (by rw [ht]; trivial) ?_ rfl ?_⟩
    · rw [ht]
      rfl
    · rw [ht]
      simp [hq, Pc.tail]
  | @unlock head obj ht =>
    refine .inr ⟨_, rfl, ?_⟩
    have hm := h.holds (t := t) (by rw [ht]; trivial)
    have hpc : s.view.pc t = .pop_unlock head obj := congrArg Pc.view ht
    have htail : (s.pc t).tail s.q = s.q.tail := by rw [ht]; rfl
    have hview := Wakeup.PopStep.unlock hpc
    refine unlock_step rfl rfl ?_
    rw [view_self hm, htail] at hview ⊢
    exact .pop t hview
  | @free head obj cell ht hcell =>
    refine .inr ⟨_, rfl, ?_⟩
    have hpc : s.view.pc t = .pop_free head obj := congrArg Pc.view ht
    refine other_step (h.not_held (by rw [ht]; exact id)) rfl rfl rfl ?_
    rw [nodes_update]
    exact .pop t (.free hpc)

theorem step_view (hs : Step s e s') (h : Local s) (hn : Inv s.view.view ps) :
    e.view = none ∧ s'.view = s.view ∨
      ∃ b, e.view = some b ∧ Wakeup.Step s.view b s'.view := by
  cases hs with
  | push t hs => exact push_step_view hs h hn
  | pop t hs => exact pop_step_view hs h

/-! Whole runs -/

/-- What an event means for the abstract queue. -/
def fifo : Event T α → Fifo.Event α
  | .link _ obj => .push obj
  | .take _ obj => .pop obj
  | _ => .other

/-- The thread is at a `TecMutex_lock`, or about to get the mutex back inside of `TecCV_wait`. -/
def Pc.Locks : Pc α → Prop
  | .push_lock _ _ | .pop_lock | .woken => True
  | _ => False

theorem step_kept (hs : Step s e s') (h : Local s) (hk : Wakeup.Kept s.view ps) :
    ∃ ps', Local s' ∧ Wakeup.Kept s'.view ps' ∧
      Fifo.Step (objs s.view.heap ps) (fifo e) (objs s'.view.heap ps') := by
  have hlocal := local_step hs h hk.nodes
  obtain ⟨hnone, hsame⟩ | ⟨b, hb, hview⟩ := step_view hs h hk.nodes
  · have hother : fifo e = .other := by
      cases e <;> first | rfl | cases hnone
    rw [hsame, hother]
    exact ⟨ps, hlocal, hk, .other⟩
  · have hfifo : fifo e = Wakeup.fifo b := by
      cases e <;> cases hb <;> rfl
    obtain ⟨ps', hk', hstep⟩ := Wakeup.step_kept hview hk
    rw [hfifo]
    exact ⟨ps', hlocal, hk', hstep⟩

omit [DecidableEq T] in
theorem local_initial (hpc : ∀ t, s.pc t = .idle) (hm : s.mtx = none) : Local s := by
  refine ⟨?_, ?_, ?_, ?_⟩
  · intro t
    rw [hm, hpc]
    exact iff_of_false nofun id
  · intro t node cell hfills
    rw [hpc] at hfills
    cases hfills
  · intro t u node cell cell' hfills
    rw [hpc] at hfills
    cases hfills
  · intro t
    rw [hpc]
    trivial

theorem view_initial (h : (fineLts T α).Init s) : (Wakeup.wakeupLts T α).Init s.view := by
  obtain ⟨hq, hheap, hm, hpc⟩ := h
  rw [view_free hm]
  refine ⟨hq, ?_, rfl, ?_⟩
  · intro p
    show nodes s.heap p = none
    rw [nodes, hheap]
    rfl
  · intro t
    show (s.pc t).view = .idle
    rw [hpc]
    rfl

theorem history_kept {xs : List (Event T α)} (h : (fineLts T α).History xs s) :
    Local s ∧ (Wakeup.wakeupLts T α).History (xs.filterMap Event.view) s.view ∧
      ∃ ps, Wakeup.Kept s.view ps ∧
        Fifo.pushed fifo xs = Fifo.popped fifo xs ++ objs s.view.heap ps := by
  refine h.induction (P := fun xs s => Local s ∧
    (Wakeup.wakeupLts T α).History (xs.filterMap Event.view) s.view ∧
      ∃ ps, Wakeup.Kept s.view ps ∧
        Fifo.pushed fifo xs = Fifo.popped fifo xs ++ objs s.view.heap ps) ?_ ?_
  · intro s hi
    have hview := view_initial hi
    exact ⟨local_initial hi.2.2.2 hi.2.2.1, .init hview, [], Wakeup.kept_initial hview, rfl⟩
  · rintro xs s e s' _ ⟨hlocal, hhist, ps, hk, hb⟩ hs
    obtain ⟨ps', hlocal', hk', hfifo⟩ := step_kept hs hlocal hk
    refine ⟨hlocal', ?_, ps', hk', Fifo.step_balance hfifo hb⟩
    rw [List.filterMap_append]
    obtain ⟨hnone, hsame⟩ | ⟨b, hb, hview⟩ := step_view hs hlocal hk.nodes
    · rw [List.filterMap_cons_none hnone, List.filterMap_nil, List.append_nil, hsame]
      exact hhist
    · rw [List.filterMap_cons_some hb, List.filterMap_nil]
      exact hhist.snoc hview

/-- Every load finds a value, every store and every free a node that is in use. -/
theorem push_pop_enabled (h : Local s) (hn : Inv s.view.view ps)
    (hlock : (s.pc t).Locks → s.mtx = none) :
    ∃ e s', PushStep t s e s' ∨ PopStep t s e s' := by
  have hread := h.reads t
  have hlive : ∀ p, nodes s.heap p ≠ none → ∃ obj next, s.heap p = some ⟨some obj, some next⟩ := by
    intro p hp
    cases hcell : s.heap p with
    | none => exact absurd (by rw [nodes, hcell]; rfl) hp
    | some cell =>
      obtain ⟨obj, next, rfl, _⟩ := node_complete hp hcell
      exact ⟨obj, next, rfl⟩
  cases hpc : s.pc t with
  | idle => exact ⟨_, _, .inr (.enter hpc)⟩
  | push_obj node obj =>
    exact ⟨_, _, .inl (.obj hpc (h.filled t node _ (by rw [hpc]; rfl)))⟩
  | push_next node obj =>
    exact ⟨_, _, .inl (.next hpc (h.filled t node _ (by rw [hpc]; rfl)))⟩
  | push_lock node obj => exact ⟨_, _, .inl (.lock hpc (hlock (by rw [hpc]; trivial)))⟩
  | push_test node obj => exact ⟨_, _, .inl (.test hpc)⟩
  | push_link node obj =>
    rw [hpc] at hread
    obtain ⟨tail, hq⟩ := Option.ne_none_iff_exists'.mp hread
    have htail : s.view.q.tail = some tail := by
      rw [view_tail (h.holds (t := t) (by rw [hpc]; trivial)), hpc]
      exact hq
    obtain ⟨obj', next, hcell⟩ := hlive tail (tail_alive hn htail)
    exact ⟨_, _, .inl (.link hpc hq hcell)⟩
  | push_head node obj => exact ⟨_, _, .inl (.head hpc)⟩
  | push_tail node => exact ⟨_, _, .inl (.tail hpc)⟩
  | push_signal =>
    classical
    have hw : Signals s.pc fun u => decide (s.pc u = .asleep) := by
      refine ⟨fun u hu => of_decide_eq_true hu, ?_⟩
      rintro ⟨u, hu⟩
      exact ⟨u, decide_eq_true hu⟩
    exact ⟨_, _, .inl (.signal hpc hw)⟩
  | push_unlock => exact ⟨_, _, .inl (.unlock hpc)⟩
  | pop_lock => exact ⟨_, _, .inr (.lock hpc (hlock (by rw [hpc]; trivial)))⟩
  | pop_check => exact ⟨_, _, .inr (.check hpc)⟩
  | pop_sleep => exact ⟨_, _, .inr (.sleep hpc)⟩
  | asleep => exact ⟨_, _, .inr (.wake hpc)⟩
  | woken => exact ⟨_, _, .inr (.relock hpc (hlock (by rw [hpc]; trivial)))⟩
  | pop_head =>
    rw [hpc] at hread
    obtain ⟨head, hq⟩ := Option.ne_none_iff_exists'.mp hread
    exact ⟨_, _, .inr (.head hpc hq)⟩
  | pop_obj head =>
    rw [hpc] at hread
    obtain ⟨obj, next, hcell⟩ := hlive head (head_alive hn hread)
    exact ⟨_, _, .inr (.obj hpc hcell rfl)⟩
  | pop_next head obj =>
    rw [hpc] at hread
    obtain ⟨obj', next, hcell⟩ := hlive head (head_alive hn hread.1)
    exact ⟨_, _, .inr (.next hpc hcell rfl)⟩
  | pop_store head obj next => exact ⟨_, _, .inr (.store hpc)⟩
  | pop_test head obj => exact ⟨_, _, .inr (.test hpc)⟩
  | pop_tail head obj => exact ⟨_, _, .inr (.tail hpc)⟩
  | pop_unlock head obj => exact ⟨_, _, .inr (.unlock hpc)⟩
  | pop_free head obj =>
    obtain ⟨obj', next, hcell⟩ := hlive head (free_apart hn hpc).2
    exact ⟨_, _, .inr (.free hpc hcell)⟩

/-- The queue of single loads and stores refines the one whose locked sections are single steps,
so each push and each pop takes effect at one store. No thread is ever stuck but at the mutex: no
step touches a freed node or loads a member that has not been stored. What was taken is a prefix of
what was linked, and at most one thread is inside of a locked section. -/
theorem queue_stores_refine (xs : List (Event T α)) (s : State T α)
    (h : (fineLts T α).History xs s) :
    (Wakeup.wakeupLts T α).History (xs.filterMap Event.view) s.view ∧
      (∀ t, ((s.pc t).Locks → s.mtx = none) → ∃ e s', PushStep t s e s' ∨ PopStep t s e s') ∧
      Fifo.popped fifo xs <+: Fifo.pushed fifo xs ∧
      ∀ t u, (s.pc t).view.Holds → (s.pc u).view.Holds → t = u := by
  obtain ⟨hlocal, hhist, ps, hk, hb⟩ := history_kept h
  refine ⟨hhist, fun t => push_pop_enabled hlocal hk.nodes, Fifo.popped_prefix hb, ?_⟩
  intro t u ht hu
  exact Option.some.inj ((hlocal.holds ht).symm.trans (hlocal.holds hu))

/-- A producer in the middle of its locked section. -/
theorem queue_stores_refine_linked :
    ∃ s : State Nat Nat, (fineLts Nat Nat).History
        [.malloc 0 5, .other, .made 0 7, .lock 0, .other, .link 0 7] s ∧
      (Wakeup.wakeupLts Nat Nat).History [.malloc 0 7, .lock 0, .enqueue 0 7] s.view := by
  have h0 : (fineLts Nat Nat).History [] ⟨⟨none, none⟩, fun _ => none, none, fun _ => .idle⟩ :=
    .init ⟨rfl, fun _ => rfl, rfl, fun _ => rfl⟩
  have h1 := h0.snoc (.push 0 (@PushStep.malloc _ _ _ 0 _ 7 5 rfl rfl))
  have h2 := h1.snoc (.push 0 (.obj rfl rfl))
  have h3 := h2.snoc (.push 0 (.next rfl rfl))
  have h4 := h3.snoc (.push 0 (.lock rfl rfl))
  have h5 := h4.snoc (.push 0 (.test rfl))
  have h6 := h5.snoc (.push 0 (.head rfl))
  exact ⟨_, h6, (queue_stores_refine _ _ h6).1⟩

end Tecc.Queue.Fine
