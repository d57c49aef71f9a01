import Tecc.Queue
import Tecc.Lib.Fifo

/-! The queue keeps the first-in first-out discipline under every interleaving. -/
namespace Tecc.Queue

open Linked

variable {T α : Type*} [DecidableEq T] {s s' : State T α} {e : Event T α} {t u : T}
  {ps : List Addr} {heap : Heap α} {obj : α} {p node : Addr}

def nextOf (heap : Heap α) (p : Addr) : Option Addr := (heap p).bind TecQueueNode.next

/-- The objects held by a list of nodes. -/
def objs (heap : Heap α) (ps : List Addr) : List α :=
  ps.filterMap fun p => (heap p).map TecQueueNode.obj

/-- The node a thread works on outside the mutex: one not yet linked, or one unlinked. -/
def Pc.own : Pc α → Option Addr
  | .pushing node _ => some node
  | .freeing head _ => some head
  | .idle | .popping | .asleep | .woken => none

/-- The chain from `head` is `ps`, it ends at `tail`, and no thread's own node is on it. -/
structure Inv (s : State T α) (ps : List Addr) : Prop where
  chain : Chain (nextOf s.heap) s.q.head ps
  tail : s.q.tail = ps.getLast?
  alive : ∀ p ∈ ps, (s.heap p).isSome
  owned : ∀ t p, (s.pc t).own = some p → (s.heap p).isSome ∧ p ∉ ps
  owner : ∀ t u p, (s.pc t).own = some p → (s.pc u).own = some p → t = u
  made : ∀ t node obj, s.pc t = .pushing node obj → s.heap node = some ⟨obj, none⟩

theorem objs_congr {heap' : Heap α}
    (h : ∀ p ∈ ps, (heap' p).map TecQueueNode.obj = (heap p).map TecQueueNode.obj) :
    objs heap' ps = objs heap ps := List.filterMap_congr h

theorem objs_append (heap : Heap α) (ps qs : List Addr) :
    objs heap (ps ++ qs) = objs heap ps ++ objs heap qs := List.filterMap_append

theorem objs_length (h : ∀ p ∈ ps, (heap p).isSome) : (objs heap ps).length = ps.length := by
  induction ps with
  | nil => rfl
  | cons p ps ih =>
    obtain ⟨n, hn⟩ := Option.isSome_iff_exists.mp (h p (by simp))
    have := ih (fun q hq => h q (by simp [hq]))
    simpa [objs, hn] using this

omit [DecidableEq T] in
/-- A step that leaves each thread in its place or moves it to one where it owns no node. -/
theorem Inv.moves (h : Inv s ps) {pc : T → Pc α}
    (hpc : ∀ u, pc u = s.pc u ∨ (pc u).own = none) : Inv { s with pc := pc } ps := by
  have hold : ∀ u p, (pc u).own = some p → (s.pc u).own = some p := by
    intro u p hu
    obtain hsame | hnone := hpc u
    · rwa [hsame] at hu
    · rw [hnone] at hu
      cases hu
  refine ⟨h.chain, h.tail, h.alive, ?_, ?_, ?_⟩
  · intro u p hu
    exact h.owned u p (hold u p hu)
  · intro u v p hu hv
    exact h.owner u v p (hold u p hu) (hold v p hv)
  · intro u node obj hu
    have hu' : pc u = .pushing node obj := hu
    obtain hsame | hnone := hpc u
    · exact h.made u node obj (hsame.symm.trans hu')
    · rw [hu'] at hnone
      cases hnone

theorem Inv.move (h : Inv s ps) {pc : Pc α} (hpc : pc.own = none) : Inv (s.setPC t pc) ps := by
  refine h.moves ?_
  intro u
  by_cases hut : u = t
  · subst hut
    exact Or.inr (by rw [Function.update_self, hpc])
  · exact Or.inl (Function.update_of_ne hut _ _)

theorem Inv.malloc (h : Inv s ps) (ht : s.pc t = .idle) (hfree : s.heap node = none) :
    Inv { s.setPC t (.pushing node obj) with
      heap := Function.update s.heap node (some ⟨obj, none⟩) } ps := by
  have hps : ∀ p ∈ ps, p ≠ node := by
    rintro p hp rfl
    exact absurd (h.alive p hp) (by simp [hfree])
  have hother : ∀ u p, (s.pc u).own = some p → p ≠ node := by
    rintro u p hu rfl
    exact absurd (h.owned u p hu).1 (by simp [hfree])
  refine ⟨?_, h.tail, ?_, ?_, ?_, ?_⟩
  · refine chain_congr ?_ h.chain
    intro p hp
    simp [nextOf, Function.update_of_ne (hps p hp)]
  · intro p hp
    simpa [Function.update_of_ne (hps p hp)] using h.alive p hp
  · intro u p hu
    by_cases hut : u = t
    · subst hut
      have hp : p = node := by simpa [State.setPC, Pc.own, eq_comm] using hu
      subst hp
      exact ⟨by simp, fun hp => hps p hp rfl⟩
    · have hu' : (s.pc u).own = some p := by simpa [State.setPC, hut] using hu
      simpa [Function.update_of_ne (hother u p hu')] using h.owned u p hu'
  · intro u v p hu hv
    by_cases hut : u = t <;> by_cases hvt : v = t
    · exact hut.trans hvt.symm
    · have hp : node = p := by simpa [State.setPC, Pc.own, hut] using hu
      have hv' : (s.pc v).own = some p := by simpa [State.setPC, hvt] using hv
      exact (hother v p hv' hp.symm).elim
    · have hp : node = p := by simpa [State.setPC, Pc.own, hvt] using hv
      have hu' : (s.pc u).own = some p := by simpa [State.setPC, hut] using hu
      exact (hother u p hu' hp.symm).elim
    · exact h.owner u v p (by simpa [State.setPC, hut] using hu)
        (by simpa [State.setPC, hvt] using hv)
  · intro u n x hu
    by_cases hut : u = t
    · subst hut
      have : node = n ∧ obj = x := by simpa [State.setPC] using hu
      obtain ⟨rfl, rfl⟩ := this
      simp
    · have hu' : s.pc u = .pushing n x := by simpa [State.setPC, hut] using hu
      have hn := hother u n (by simp [hu', Pc.own])
      simpa [Function.update_of_ne hn] using h.made u n x hu'

theorem Inv.free (h : Inv s ps) (ht : s.pc t = .freeing p obj) :
    Inv { s.setPC t .idle with heap := Function.update s.heap p none } ps := by
  have hown := (h.owned t p (by simp [ht, Pc.own])).2
  have hps : ∀ q ∈ ps, q ≠ p := by
    rintro q hq rfl
    exact hown hq
  have hother : ∀ u q, u ≠ t → (s.pc u).own = some q → q ≠ p := by
    rintro u q hut hu rfl
    exact hut (h.owner u t q hu (by simp [ht, Pc.own]))
  have hold : ∀ u q, ((s.setPC t .idle).pc u).own = some q → u ≠ t ∧ (s.pc u).own = some q := by
    intro u q hu
    by_cases hut : u = t
    · subst hut; simp [State.setPC, Pc.own] at hu
    · exact ⟨hut, by simpa [State.setPC, hut] using hu⟩
  refine ⟨?_, h.tail, ?_, ?_, ?_, ?_⟩
  · refine chain_congr ?_ h.chain
    intro q hq
    simp [nextOf, Function.update_of_ne (hps q hq)]
  · intro q hq
    simpa [Function.update_of_ne (hps q hq)] using h.alive q hq
  · intro u q hu
    obtain ⟨hut, hu'⟩ := hold u q hu
    simpa [Function.update_of_ne (hother u q hut hu')] using h.owned u q hu'
  · intro u v q hu hv
    exact h.owner u v q (hold u q hu).2 (hold v q hv).2
  · intro u n x hu
    by_cases hut : u = t
    · subst hut; simp [State.setPC] at hu
    · have hu' : s.pc u = .pushing n x := by simpa [State.setPC, hut] using hu
      have hn := hother u n hut (by simp [hu', Pc.own])
      simpa [Function.update_of_ne hn] using h.made u n x hu'

omit [DecidableEq T] in
/-- The locked section of a push never touches a freed node, and links the new one last. -/
theorem TecQueue_push_spec (h : Inv s ps) (ht : s.pc t = .pushing node obj) :
    ∃ q heap, TecQueue_push s.q s.heap node = some (q, heap) ∧
      Chain (nextOf heap) q.head (ps ++ [node]) ∧ q.tail = some node ∧
      objs heap (ps ++ [node]) = objs s.heap ps ++ [obj] ∧
      (∀ p, p ∉ ps → heap p = s.heap p) ∧ ∀ p, (heap p).isSome = (s.heap p).isSome := by
  have hmade := h.made t node obj ht
  have hout := (h.owned t node (by simp [ht, Pc.own])).2
  have htail := h.tail
  have hchain := h.chain
  rcases List.eq_nil_or_concat ps with rfl | ⟨init, last, rfl⟩
  · refine ⟨⟨some node, some node⟩, s.heap, ?_, ?_, rfl, ?_, fun _ _ => rfl, fun _ => rfl⟩
    · simp only [List.getLast?_nil] at htail
      simp [TecQueue_push, htail]
    · exact chain_cons.mpr ⟨rfl, by simp [nextOf, hmade, chain_nil]⟩
    · simp [objs, hmade]
  · rw [List.concat_eq_append] at *
    obtain ⟨n, hn⟩ := Option.isSome_iff_exists.mp (h.alive last (by simp))
    have hlast : s.q.tail = some last := by simpa using htail
    have hne : node ≠ last := by
      rintro rfl
      exact hout (by simp)
    have hnd := chain_nodup hchain
    have hinit : ∀ p ∈ init, p ≠ last := by
      rintro p hp rfl
      simp [List.nodup_append] at hnd
      exact hnd.2 p hp rfl
    refine ⟨⟨s.q.head, some node⟩,
      Function.update s.heap last (some ⟨n.obj, some node⟩), ?_, ?_, rfl, ?_, ?_, ?_⟩
    · simp [TecQueue_push, hlast, hn]
    · refine chain_append_last hchain ?_ ?_ ?_
      · simp [nextOf]
      · simp [nextOf, Function.update_of_ne hne, hmade]
      · intro p hp
        simp [nextOf, Function.update_of_ne (hinit p hp)]
    · rw [objs_append]
      congr 1
      · refine objs_congr ?_
        intro p hp
        by_cases hpl : p = last
        · subst hpl; simp [hn]
        · simp [Function.update_of_ne hpl]
      · simp [objs, Function.update_of_ne hne, hmade]
    · intro p hp
      exact Function.update_of_ne (fun he => hp (by simp [he])) _ _
    · intro p
      by_cases hpl : p = last
      · subst hpl; simp [hn]
      · simp [Function.update_of_ne hpl]

theorem Inv.push (h : Inv s ps) (ht : s.pc t = .pushing node obj) {q : TecQueue}
    (hq : TecQueue_push s.q s.heap node = some (q, heap)) (woken : T → Bool) :
    Inv ⟨q, heap, Function.update (fun u => if woken u then .woken else s.pc u) t .idle⟩
        (ps ++ [node]) ∧
      objs heap (ps ++ [node]) = objs s.heap ps ++ [obj] := by
  obtain ⟨q', heap', hq', hchain, htail, hobjs, hframe, hsome⟩ := TecQueue_push_spec h ht
  obtain ⟨rfl, rfl⟩ := Prod.mk.inj (Option.some.inj (hq.symm.trans hq'))
  refine ⟨?_, hobjs⟩
  let pc' := Function.update (fun u => if woken u then .woken else s.pc u) t .idle
  have hold : ∀ u p, (pc' u).own = some p → u ≠ t ∧ (s.pc u).own = some p := by
    intro u p hu
    by_cases hut : u = t
    · subst hut; simp [pc', Pc.own] at hu
    · refine ⟨hut, ?_⟩
      cases hw : woken u <;> simp_all [pc', Pc.own]
  refine ⟨hchain, by simp [htail], ?_, ?_, ?_, ?_⟩
  · intro p hp
    rcases List.mem_append.mp hp with hp | hp
    · rw [hsome]; exact h.alive p hp
    · rw [List.mem_singleton.mp hp, hsome, h.made t node obj ht]; rfl
  · intro u p hu
    obtain ⟨hut, hu'⟩ := hold u p hu
    refine ⟨by rw [hsome]; exact (h.owned u p hu').1, ?_⟩
    intro hp
    rcases List.mem_append.mp hp with hp | hp
    · exact (h.owned u p hu').2 hp
    · rw [List.mem_singleton.mp hp] at hu'
      exact hut (h.owner u t node hu' (by simp [ht, Pc.own]))
  · intro u v p hu hv
    exact h.owner u v p (hold u p hu).2 (hold v p hv).2
  · intro u n x hu
    have hu' : s.pc u = .pushing n x := by
      by_cases hut : u = t
      · subst hut; simp at hu
      · cases hw : woken u <;> simp_all
    exact (hframe n (h.owned u n (by simp [hu', Pc.own])).2).trans (h.made u n x hu')

omit [DecidableEq T] in
/-- The locked section of a pop finds a live node whenever `head` is not null. -/
theorem TecQueue_pop_spec (h : Inv s ps) (hh : s.q.head ≠ none) :
    ∃ q head obj rest, TecQueue_pop s.q s.heap = some (q, head, obj) ∧ ps = head :: rest ∧
      Chain (nextOf s.heap) q.head rest ∧ q.tail = rest.getLast? ∧
      objs s.heap ps = obj :: objs s.heap rest := by
  have hchain := h.chain
  have htail := h.tail
  cases ps with
  | nil => exact (hh hchain).elim
  | cons head rest =>
    obtain ⟨hhead, hrest⟩ := chain_cons.mp hchain
    obtain ⟨n, hn⟩ := Option.isSome_iff_exists.mp (h.alive head (by simp))
    have hnext : nextOf s.heap head = n.next := by simp [nextOf, hn]
    rw [hnext] at hrest
    refine ⟨⟨n.next, if n.next = none then none else s.q.tail⟩, head, n.obj, rest,
      by simp [TecQueue_pop, hhead, hn], rfl, hrest, ?_, by simp [objs, hn]⟩
    have hfirst := chain_head hrest
    cases rest with
    | nil => simp at hfirst; simp [hfirst]
    | cons b rest => simp at hfirst; simpa [hfirst, List.getLast?_cons_cons] using htail

theorem Inv.pop (h : Inv s ps) {q : TecQueue} {head : Addr}
    (hq : TecQueue_pop s.q s.heap = some (q, head, obj)) :
    ∃ rest, Inv { s.setPC t (.freeing head obj) with q := q } rest ∧
      objs s.heap ps = obj :: objs s.heap rest := by
  have hh : s.q.head ≠ none := by
    intro hh
    simp [TecQueue_pop, hh] at hq
  obtain ⟨q', head', obj', rest, hq', rfl, hchain, htail, hobjs⟩ := TecQueue_pop_spec h hh
  obtain ⟨rfl, hr⟩ := Prod.mk.inj (Option.some.inj (hq.symm.trans hq'))
  obtain ⟨rfl, rfl⟩ := Prod.mk.inj hr
  refine ⟨rest, ?_, hobjs⟩
  have hnd := chain_nodup h.chain
  have hold : ∀ u p, ((s.setPC t (.freeing head obj)).pc u).own = some p →
      (u = t ∧ p = head) ∨ (u ≠ t ∧ (s.pc u).own = some p) := by
    intro u p hu
    by_cases hut : u = t
    · subst hut; exact Or.inl ⟨rfl, by simpa [State.setPC, Pc.own, eq_comm] using hu⟩
    · exact Or.inr ⟨hut, by simpa [State.setPC, hut] using hu⟩
  have hout : ∀ u p, (s.pc u).own = some p → p ≠ head := by
    rintro u p hu rfl
    exact (h.owned u p hu).2 (by simp)
  refine ⟨hchain, htail, fun p hp => h.alive p (by simp [hp]), ?_, ?_, ?_⟩
  · intro u p hu
    rcases hold u p hu with ⟨_, rfl⟩ | ⟨_, hu'⟩
    · exact ⟨h.alive p (by simp), (List.nodup_cons.mp hnd).1⟩
    · exact ⟨(h.owned u p hu').1, fun hp => (h.owned u p hu').2 (by simp [hp])⟩
  · intro u v p hu hv
    rcases hold u p hu with ⟨hut, hp⟩ | ⟨_, hu'⟩ <;> rcases hold v p hv with ⟨hvt, hp'⟩ | ⟨_, hv'⟩
    · exact hut.trans hvt.symm
    · exact (hout v p hv' hp).elim
    · exact (hout u p hu' hp').elim
    · exact h.owner u v p hu' hv'
  · intro u n x hu
    by_cases hut : u = t
    · subst hut; simp [State.setPC] at hu
    · exact h.made u n x (by simpa [State.setPC, hut] using hu)

/-- What an event means for the abstract queue. -/
def fifoEvent : Event T α → Fifo.Event α
  | .push _ obj => .push obj
  | .pop _ obj => .pop obj
  | .malloc _ _ | .enter _ | .sleep _ | .wake _ | .free _ => .other

/-- Every step keeps the invariant and acts on the held objects as on an abstract queue. -/
theorem step_refines (h : Inv s ps) (hs : Step s e s') :
    ∃ ps', Inv s' ps' ∧ Fifo.Step (objs s.heap ps) (fifoEvent e) (objs s'.heap ps') := by
  cases hs with
  | @malloc t obj node ht hfree =>
    refine ⟨ps, h.malloc ht hfree, ?_⟩
    have hobjs : objs (Function.update s.heap node (some ⟨obj, none⟩)) ps = objs s.heap ps := by
      refine objs_congr ?_
      intro p hp
      have hne : p ≠ node := by
        rintro rfl
        exact absurd (h.alive p hp) (by simp [hfree])
      simp [Function.update_of_ne hne]
    rw [hobjs]
    exact .other
  | @push t obj node q heap woken ht hq hw =>
    obtain ⟨hinv, hobjs⟩ := h.push ht hq woken
    refine ⟨_, hinv, ?_⟩
    rw [hobjs]
    exact .push
  | enter ht => exact ⟨ps, h.move rfl, .other⟩
  | sleep ht hh => exact ⟨ps, h.move rfl, .other⟩
  | wake ht => exact ⟨ps, h.move rfl, .other⟩
  | @pop t obj head q ht hq =>
    obtain ⟨rest, hinv, hobjs⟩ := h.pop (t := t) hq
    refine ⟨rest, hinv, ?_⟩
    rw [hobjs]
    exact .pop
  | @free t obj head ht =>
    refine ⟨ps, h.free ht, ?_⟩
    have hout := (h.owned t head (by simp [ht, Pc.own])).2
    have hobjs : objs (Function.update s.heap head none) ps = objs s.heap ps := by
      refine objs_congr ?_
      intro p hp
      have hne : p ≠ head := by
        rintro rfl
        exact hout hp
      simp [Function.update_of_ne hne]
    rw [hobjs]
    exact .other

theorem inv_initial (h : (queueLts T α).Init s) : Inv s [] := by
  obtain ⟨hq, hheap, hpc⟩ := h
  refine ⟨by simp [hq, TecQueue_init, chain_nil], by simp [hq, TecQueue_init], by simp, ?_, ?_, ?_⟩
  · intro t p ht
    simp [hpc, Pc.own] at ht
  · intro t u p ht
    simp [hpc, Pc.own] at ht
  · intro t node obj ht
    simp [hpc] at ht

theorem history_refines {xs : List (Event T α)} (h : (queueLts T α).History xs s) :
    ∃ ps, Inv s ps ∧ Fifo.pushed fifoEvent xs = Fifo.popped fifoEvent xs ++ objs s.heap ps := by
  obtain ⟨l, ⟨ps, hinv, rfl⟩, hb⟩ := Fifo.history_balance fifoEvent
    (fun s l => ∃ ps, Inv s ps ∧ objs s.heap ps = l)
    (fun s hs => ⟨[], inv_initial hs, rfl⟩)
    (fun s l e t ⟨ps, hinv, hl⟩ hstep => by
      obtain ⟨ps', hinv', hf⟩ := step_refines hinv hstep
      rw [hl] at hf
      exact ⟨_, ⟨ps', hinv', rfl⟩, hf⟩) h
  exact ⟨ps, hinv, hb⟩

/-- The queue linearizes to a FIFO. After any interleaving the objects popped are a prefix of
the objects pushed and the chain from `head` holds exactly the rest; the two pointers are null
together, and neither locked section can touch a freed node. -/
theorem queue_linearizes (xs : List (Event T α)) (s : State T α)
    (h : (queueLts T α).History xs s) :
    Fifo.popped fifoEvent xs <+: Fifo.pushed fifoEvent xs ∧
      (s.q.head = none ↔ s.q.tail = none) ∧
      (∃ ps, Chain (nextOf s.heap) s.q.head ps ∧ ps.Nodup ∧ s.q.tail = ps.getLast? ∧
        (∀ p ∈ ps, (s.heap p).isSome) ∧
        Fifo.pushed fifoEvent xs = Fifo.popped fifoEvent xs ++ objs s.heap ps) ∧
      (∀ t node obj, s.pc t = .pushing node obj → (TecQueue_push s.q s.heap node).isSome) ∧
      (s.q.head ≠ none → (TecQueue_pop s.q s.heap).isSome) := by
  obtain ⟨ps, hinv, hb⟩ := history_refines h
  refine ⟨Fifo.popped_prefix hb, ?_,
    ⟨ps, hinv.chain, chain_nodup hinv.chain, hinv.tail, hinv.alive, hb⟩, ?_, ?_⟩
  · rw [chain_head hinv.chain, hinv.tail]
    simp
  · intro t node obj ht
    obtain ⟨q, heap, hq, _⟩ := TecQueue_push_spec hinv ht
    simp [hq]
  · intro hh
    obtain ⟨q, head, obj, rest, hq, _⟩ := TecQueue_pop_spec hinv hh
    simp [hq]

/-- One sleeper is woken. -/
theorem signals_one {pc : T → Pc α} (hu : pc u = .asleep) :
    Signals pc fun t => decide (t = u) :=
  ⟨fun _ ht => of_decide_eq_true ht ▸ hu, fun _ => ⟨u, decide_eq_true rfl⟩⟩

/-- Two producers push 7 and 8, and wake the two consumers that slept on the empty queue: the first
one pops 7 and frees its node, and 8 is left. -/
theorem queue_linearizes_handover :
    ∃ s : State Nat Nat, (queueLts Nat Nat).History
        [.enter 1, .enter 3, .sleep 1, .sleep 3, .malloc 0 7, .malloc 2 8, .push 0 7, .push 2 8,
          .pop 1 7, .free 1] s ∧
      ∃ ps, Chain (nextOf s.heap) s.q.head ps ∧ s.q.tail = ps.getLast? ∧ objs s.heap ps = [8] := by
  have h0 : (queueLts Nat Nat).History [] ⟨⟨none, none⟩, fun _ => none, fun _ => .idle⟩ :=
    .init ⟨rfl, fun _ => rfl, fun _ => rfl⟩
  have h1 := h0.snoc (Step.enter (t := 1) rfl)
  have h2 := h1.snoc (Step.enter (t := 3) rfl)
  have h3 := h2.snoc (Step.sleep (t := 1) (.inl rfl) rfl)
  have h4 := h3.snoc (Step.sleep (t := 3) (.inl rfl) rfl)
  have h5 := h4.snoc (@Step.malloc _ _ _ _ 0 7 4 rfl rfl)
  have h6 := h5.snoc (@Step.malloc _ _ _ _ 2 8 5 rfl rfl)
  have h7 := h6.snoc (@Step.push _ _ _ _ 0 7 4 _ _ _ rfl rfl (@signals_one _ _ _ 1 _ rfl))
  have h8 := h7.snoc (@Step.push _ _ _ _ 2 8 5 _ _ _ rfl rfl (@signals_one _ _ _ 3 _ rfl))
  have h9 := h8.snoc (@Step.pop _ _ _ _ 1 7 4 _ (.inr rfl) rfl)
  have h10 := h9.snoc (@Step.free _ _ _ _ 1 7 4 rfl)
  obtain ⟨_, _, ⟨ps, hchain, _, htail, _, hpushed⟩, _⟩ := queue_linearizes _ _ h10
  exact ⟨_, h10, ps, hchain, htail, (List.cons.inj hpushed).2.symm⟩

end Tecc.Queue
