import Tecc.QueueWakeup

/-! The nodes of the queue are accounted for: each one is in the chain or in the hands of a
thread, and the chain is an abstract queue. -/
namespace Tecc.Queue.Wakeup

open Linked Transition

variable {T α : Type*} [DecidableEq T] {s s' : State T α} {e : Event T α} {t u : T} {pc : Pc α}
  {ps : List Addr} {mtx : Bool}

/-- What an event means for the abstract queue. -/
def fifo : Event T α → Fifo.Event α
  | .enqueue _ obj => .push obj
  | .take _ obj => .pop obj
  | _ => .other

/-- `ps` are the nodes of the queue, and no other node is left without an owner. -/
structure Kept (s : State T α) (ps : List Addr) : Prop where
  nodes : Inv s.view ps
  owned : ∀ p, s.heap p ≠ none → p ∈ ps ∨ ∃ t, (s.pc t).view.own = some p

theorem own_other (hut : u ≠ t) :
    (Function.update s.pc t pc u).view.own = (s.pc u).view.own := by
  rw [Function.update_of_ne hut]

/-- A step after which each node is where it was. -/
theorem Kept.move (h : Kept s ps) (hpc : pc.view.own = (s.pc t).view.own)
    (hsame : pc.view = (s.pc t).view ∨ pc.view.own = none) :
    Kept ⟨s.q, s.heap, mtx, Function.update s.pc t pc⟩ ps := by
  refine ⟨view_move h.nodes hsame, ?_⟩
  intro p hp
  obtain hmem | ⟨u, hu⟩ := h.owned p hp
  · exact .inl hmem
  · refine .inr ⟨u, ?_⟩
    by_cases hut : u = t
    · subst hut
      simp only [Function.update_self]
      exact hpc.trans hu
    · simp only [Function.update_of_ne hut]
      exact hu

theorem objs_apart {heap : Heap α} {p : Addr} {node : Option (TecQueueNode α)} (hp : p ∉ ps) :
    objs (Function.update heap p node) ps = objs heap ps := by
  refine objs_congr ?_
  intro r hr
  have hne : r ≠ p := by
    rintro rfl
    exact hp hr
  rw [Function.update_of_ne hne]

theorem push_step_kept (h : PushStep t s e s') (hk : Kept s ps) :
    ∃ ps', Kept s' ps' ∧ Fifo.Step (objs s.heap ps) (fifo e) (objs s'.heap ps') := by
  cases h with
  | @malloc obj node ht hfree =>
    have hidle : s.view.pc t = .idle := view_pc ht
    have hout : node ∉ ps := by
      intro hmem
      have halive : (s.heap node).isSome := hk.nodes.alive node hmem
      rw [hfree] at halive
      cases halive
    refine ⟨ps, ⟨view_nodes (hk.nodes.malloc hidle hfree), ?_⟩, ?_⟩
    · intro p hp
      by_cases hpn : p = node
      · exact .inr ⟨t, by simp [State.setPC, Pc.view, Queue.Pc.own, hpn]⟩
      · have hold : s.heap p ≠ none := by simpa [Function.update_of_ne hpn] using hp
        obtain hmem | ⟨u, hu⟩ := hk.owned p hold
        · exact .inl hmem
        · have hut : u ≠ t := by
            rintro rfl
            rw [ht] at hu
            cases hu
          exact .inr ⟨u, (own_other hut).trans hu⟩
    · simp only [objs_apart hout]
      exact .other
  | lock ht hm =>
    refine ⟨ps, hk.move ?_ (.inl ?_), .other⟩
    · rw [ht]
      rfl
    · rw [ht]
      rfl
  | @enqueue obj node q heap ht hq =>
    have hpushing : s.view.pc t = .pushing node obj := view_pc ht
    obtain ⟨hpushed, hobjs⟩ := hk.nodes.push hpushing hq (fun _ => false)
    obtain ⟨q', heap', hq', _, _, _, _, hsome⟩ := TecQueue_push_spec hk.nodes hpushing
    cases hq.symm.trans hq'
    refine ⟨ps ++ [node], ⟨view_nodes hpushed, ?_⟩, ?_⟩
    · intro p hp
      have hold : s.heap p ≠ none := by
        rw [← Option.isSome_iff_ne_none] at hp ⊢
        exact (hsome p).symm.trans hp
      obtain hmem | ⟨u, hu⟩ := hk.owned p hold
      · exact .inl (List.mem_append_left _ hmem)
      · by_cases hut : u = t
        · subst hut
          rw [ht] at hu
          cases hu
          exact .inl List.mem_concat_self
        · exact .inr ⟨u, (own_other hut).trans hu⟩
    · have hheap : objs heap (ps ++ [node]) = objs s.heap ps ++ [obj] := hobjs
      simp only [hheap]
      exact .push
  | @signal woken ht hw =>
    have hwoken : Kept (s.wake woken) ps := by
      have hown : ∀ u, ((s.wake woken).pc u).view.own = (s.pc u).view.own := by
        intro u
        obtain hsame | ⟨hold, hnew⟩ := wake_pc hw u
        · rw [hsame]
        · rw [hold, hnew]
          rfl
      refine ⟨hk.nodes.moves ?_, ?_⟩
      · intro u
        obtain hsame | ⟨_, hnew⟩ := wake_pc hw u
        · exact .inl (congrArg Pc.view hsame)
        · exact .inr (by rw [hnew]; rfl)
      · intro p hp
        obtain hmem | ⟨u, hu⟩ := hk.owned p hp
        · exact .inl hmem
        · exact .inr ⟨u, (hown u).trans hu⟩
    refine ⟨ps, hwoken.move ?_ (.inr rfl), .other⟩
    obtain hsame | ⟨hold, _⟩ := wake_pc hw t
    · rw [hsame, ht]
      rfl
    · cases ht.symm.trans hold
  | unlock ht =>
    refine ⟨ps, hk.move ?_ (.inr rfl), .other⟩
    rw [ht]
    rfl

theorem pop_step_kept (h : PopStep t s e s') (hk : Kept s ps) :
    ∃ ps', Kept s' ps' ∧ Fifo.Step (objs s.heap ps) (fifo e) (objs s'.heap ps') := by
  cases h with
  | enter ht | sleep ht | wake ht | lock ht hm | relock ht hm =>
    refine ⟨ps, hk.move ?_ (.inr rfl), .other⟩
    rw [ht]
    rfl
  | check ht =>
    refine ⟨ps, hk.move ?_ (.inl ?_), .other⟩
    · rw [ht]
      split <;> rfl
    · rw [ht]
      split <;> rfl
  | @take obj head q ht hq =>
    obtain ⟨rest, hpopped, hobjs⟩ := hk.nodes.pop (t := t) hq
    have hsplit : ps = head :: rest := by
      have hh : s.view.q.head ≠ none := by
        intro hh
        rw [TecQueue_pop, show s.q.head = none from hh] at hq
        cases hq
      obtain ⟨q', head', obj', rest', hq', hps, hchain, _⟩ := TecQueue_pop_spec hk.nodes hh
      cases hq.symm.trans hq'
      rw [hps, chain_unique hpopped.chain hchain]
    refine ⟨rest, ⟨view_nodes hpopped, ?_⟩, ?_⟩
    · intro p hp
      obtain hmem | ⟨u, hu⟩ := hk.owned p hp
      · rw [hsplit] at hmem
        obtain rfl | hmem := List.mem_cons.mp hmem
        · exact .inr ⟨t, by simp [State.setPC, Pc.view, Queue.Pc.own]⟩
        · exact .inl hmem
      · have hut : u ≠ t := by
          rintro rfl
          rw [ht] at hu
          cases hu
        exact .inr ⟨u, (own_other hut).trans hu⟩
    · have hheap : objs s.heap ps = obj :: objs s.heap rest := hobjs
      simp only [hheap]
      exact .pop
  | unlock ht =>
    refine ⟨ps, hk.move ?_ (.inl ?_), .other⟩
    · rw [ht]
      rfl
    · rw [ht]
      rfl
  | @free obj head ht =>
    have hfreeing : s.view.pc t = .freeing head obj := view_pc ht
    have hout : head ∉ ps := (hk.nodes.owned t head (by rw [hfreeing]; rfl)).2
    refine ⟨ps, ⟨view_nodes (hk.nodes.free hfreeing), ?_⟩, ?_⟩
    · intro p hp
      have hph : p ≠ head := by
        rintro rfl
        exact hp (Function.update_self _ _ _)
      have hold : s.heap p ≠ none := by simpa [Function.update_of_ne hph] using hp
      obtain hmem | ⟨u, hu⟩ := hk.owned p hold
      · exact .inl hmem
      · have hut : u ≠ t := by
          rintro rfl
          rw [ht] at hu
          cases hu
          exact hph rfl
        exact .inr ⟨u, (own_other hut).trans hu⟩
    · simp only [objs_apart hout]
      exact .other

theorem step_kept (h : Step s e s') (hk : Kept s ps) :
    ∃ ps', Kept s' ps' ∧ Fifo.Step (objs s.heap ps) (fifo e) (objs s'.heap ps') := by
  cases h with
  | push t h => exact push_step_kept h hk
  | pop t h => exact pop_step_kept h hk

theorem kept_initial (h : (wakeupLts T α).Init s) : Kept s [] := by
  obtain ⟨hq, hheap, _, hpc⟩ := h
  have hview : (queueLts T α).Init s.view := ⟨hq, hheap, fun t => view_pc (hpc t)⟩
  exact ⟨inv_initial hview, fun p hp => absurd (hheap p) hp⟩

end Tecc.Queue.Wakeup
