import Tecc.QueueStores
import Tecc.Lib.Ledger

/-! The whole life of a queue, down to `TecQueue_done`, which walks along the nodes that are left
and frees them. -/
namespace Tecc.Queue.Fine

open Linked Transition Ledger

variable {T α : Type*} [DecidableEq T]

/-- Where the caller of `TecQueue_done` stands, with its local variables. -/
inductive DonePc where
  | lock
  /-- `n = q->head` -/
  | head
  /-- The test of the loop. -/
  | test (n : Option Addr)
  /-- `next = n->next` -/
  | next (n : Addr)
  | free (n : Addr) (next : Option Addr)
  | unlock
  /-- `TecMutex_destroy` and `TecCV_destroy` come next. -/
  | destroy
  | destroyed

/-- A step carries the node that it frees. -/
inductive TecQueue_done (t : T) : State T α → DonePc → Option Addr → State T α → DonePc → Prop
  | lock {s : State T α} (hm : s.mtx = none) :
      TecQueue_done t s .lock none { s with mtx := some t } .head
  | head {s : State T α} : TecQueue_done t s .head none s (.test s.q.head)
  | enter {s : State T α} {n : Addr} : TecQueue_done t s (.test (some n)) none s (.next n)
  | exit {s : State T α} : TecQueue_done t s (.test none) none s .unlock
  | next {s : State T α} {n : Addr} {cell : Cell α} {next : Option Addr}
      (hcell : s.heap n = some cell) (hnext : cell.next = some next) :
      TecQueue_done t s (.next n) none s (.free n next)
  | free {s : State T α} {n : Addr} {next : Option Addr} {cell : Cell α}
      (hcell : s.heap n = some cell) :
      TecQueue_done t s (.free n next) (some n)
        { s with heap := Function.update s.heap n none } (.test next)
  | unlock {s : State T α} : TecQueue_done t s .unlock none { s with mtx := none } .destroy
  | destroy {s : State T α} : TecQueue_done t s .destroy none s .destroyed

/-- `done` is the thread that has called `TecQueue_done`, and where it stands. -/
structure Life (T α : Type*) where
  queue : State T α
  done : Option (T × DonePc)

inductive LifeEvent (T α : Type*) where
  | use (e : Event T α)
  | call (t : T)
  | done (freed : Option Addr)

/-- The caller sees to it that no thread is in the queue when it is destroyed, or comes later. -/
inductive LifeStep : Life T α → LifeEvent T α → Life T α → Prop
  | use {s s' : State T α} {e : Event T α} (h : Step s e s') :
      LifeStep ⟨s, none⟩ (.use e) ⟨s', none⟩
  | call {s : State T α} (t : T) (hidle : ∀ u, s.pc u = .idle) :
      LifeStep ⟨s, none⟩ (.call t) ⟨s, some (t, .lock)⟩
  | done {s s' : State T α} {t : T} {pc pc' : DonePc} {freed : Option Addr}
      (h : TecQueue_done t s pc freed s' pc') :
      LifeStep ⟨s, some (t, pc)⟩ (.done freed) ⟨s', some (t, pc')⟩

def lifeLts (T α : Type*) [DecidableEq T] : Lts (Life T α) (LifeEvent T α) where
  Init l := (fineLts T α).Init l.queue ∧ l.done = none
  Step := LifeStep

/-- The blocks that `TECC_MALLOC` and `TECC_FREE` hand out and take back. -/
def LifeEvent.entry : LifeEvent T α → Option (Entry Addr)
  | .use (.malloc _ node) => some (.acquired node)
  | .use (.free _ node) => some (.released node)
  | .done (some node) => some (.released node)
  | _ => none

def LifeEvent.use? : LifeEvent T α → Option (Event T α)
  | .use e => some e
  | _ => none

/-- The nodes freed by `TecQueue_done`. -/
def LifeEvent.freed? : LifeEvent T α → Option Addr
  | .done freed => freed
  | _ => none

variable {s s' : State T α} {e : Event T α} {t u : T} {pc : Pc α} {ps : List Addr} {p : Addr}
  {heap : Addr → Option (Cell α)}

/-! A node that is not complete is being filled -/

def Whole (s : State T α) : Prop :=
  ∀ p, s.heap p ≠ none → nodes s.heap p = none → ∃ t cell, (s.pc t).fills = some (p, cell)

/-- A step of the thread `t` that leaves each node as it was, or completes or fills it. -/
theorem Whole.update (h : Whole s) {q : TecQueue} {mtx : Option T}
    (hheap : ∀ p, heap p = s.heap p ∧ (∀ cell, (s.pc t).fills ≠ some (p, cell)) ∨
      heap p = none ∨ nodes heap p ≠ none ∨ ∃ cell, pc.fills = some (p, cell)) :
    Whole ⟨q, heap, mtx, Function.update s.pc t pc⟩ := by
  intro p hp hnode
  obtain ⟨hsame, hfills⟩ | hnone | hcomplete | ⟨cell, hcell⟩ := hheap p
  · have hheap' : heap p = s.heap p := hsame
    have hold : nodes s.heap p = none := by
      rw [nodes, ← hheap']
      exact hnode
    obtain ⟨u, cell, hu⟩ := h p (by rw [← hheap']; exact hp) hold
    have hut : u ≠ t := by
      rintro rfl
      exact hfills cell hu
    exact ⟨u, cell, by simpa only [Function.update_of_ne hut] using hu⟩
  · exact absurd hnone hp
  · exact absurd hnode hcomplete
  · exact ⟨t, cell, by simpa only [Function.update_self] using hcell⟩

/-- A step that writes to one node only, as the thread that fills it or as any other. -/
theorem Whole.write (h : Whole s) {q : TecQueue} {mtx : Option T} {cell : Option (Cell α)}
    (hself : ∀ r cell, (s.pc t).fills = some (r, cell) → r = p)
    (hcell : cell = none ∨ cell.bind Cell.complete ≠ none ∨ ∃ cell, pc.fills = some (p, cell)) :
    Whole ⟨q, Function.update s.heap p cell, mtx, Function.update s.pc t pc⟩ := by
  refine h.update ?_
  intro r
  by_cases hr : r = p
  · subst hr
    rw [nodes_update, Function.update_self, Function.update_self]
    exact .inr hcell
  · left
    exact ⟨Function.update_of_ne hr _ _, fun cell' hfills => hr (hself r cell' hfills)⟩

theorem Whole.move (h : Whole s) {q : TecQueue} {mtx : Option T} (ht : (s.pc t).fills = none) :
    Whole ⟨q, s.heap, mtx, Function.update s.pc t pc⟩ := by
  refine h.update ?_
  intro r
  exact .inl ⟨rfl, fun cell => by simp [ht]⟩

theorem whole_step (hs : Step s e s') (h : Whole s) (hlocal : Local s)
    (hn : Inv s.view.view ps) : Whole s' := by
  cases hs with
  | push t hs =>
    cases hs with
    | malloc ht hfree =>
      refine h.write ?_ (.inr (.inr ⟨_, rfl⟩))
      rw [ht]
      intro r cell hfills
      cases hfills
    | obj ht hcell =>
      refine h.write ?_ (.inr (.inr ⟨_, rfl⟩))
      rw [ht]
      rintro r cell heq
      cases heq
      rfl
    | @next obj node cell ht hcell =>
      have hfills : (s.pc t).fills = some (node, ⟨some obj, none⟩) := by rw [ht]; rfl
      cases hcell.symm.trans (hlocal.filled t node _ hfills)
      refine h.write ?_ (.inr (.inl (Option.some_ne_none _)))
      rw [ht]
      rintro r cell heq
      cases heq
      rfl
    | @link obj node tail cell ht hq hcell =>
      have htail : s.view.q.tail = some tail := by
        rw [view_tail (hlocal.holds (t := t) (by rw [ht]; trivial)), ht]
        exact hq
      obtain ⟨obj', next, rfl, _⟩ := node_complete (tail_alive hn htail) hcell
      refine h.write ?_ (.inr (.inl (Option.some_ne_none _)))
      rw [ht]
      intro r cell hfills
      cases hfills
    | @signal woken ht hw =>
      have hwoken : Whole (s.wake woken) := by
        intro p hp hnode
        obtain ⟨u, cell, hu⟩ := h p hp hnode
        refine ⟨u, cell, ?_⟩
        cases hwu : woken u with
        | false => simpa [State.wake, hwu] using hu
        | true =>
          rw [hw.1 u hwu] at hu
          cases hu
      have hself : (s.wake woken).pc t = s.pc t := by
        cases hwt : woken t with
        | false => simp [State.wake, hwt]
        | true => cases ht.symm.trans (hw.1 t hwt)
      exact hwoken.move (by rw [hself, ht]; rfl)
    | lock ht hm | test ht | head ht | tail ht | unlock ht => exact h.move (by rw [ht]; rfl)
  | pop t hs =>
    cases hs with
    | free ht hcell =>
      refine h.write ?_ (.inl rfl)
      rw [ht]
      intro r cell hfills
      cases hfills
    | enter ht | lock ht hm | check ht | sleep ht | wake ht | relock ht hm | head ht hq
    | obj ht hcell hobj | next ht hcell hnext | store ht | test ht | tail ht | unlock ht =>
      exact h.move (by rw [ht]; rfl)

/-! The nodes that `TecQueue_done` finds -/

/-- Where the nodes that are left begin. -/
def DonePc.first (q : TecQueue) : DonePc → Option Addr
  | .lock | .head => q.head
  | .test n => n
  | .next n | .free n _ => some n
  | .unlock | .destroy | .destroyed => none

/-- `ps` are the nodes that are left, and they are all complete. -/
structure Left (s : State T α) (pc : DonePc) (ps : List Addr) : Prop where
  chain : Chain (nextOf (nodes s.heap)) (pc.first s.q) ps
  alive : ∀ p ∈ ps, nodes s.heap p ≠ none
  all : ∀ p, s.heap p ≠ none → p ∈ ps
  next : ∀ n next, pc = .free n next → nextOf (nodes s.heap) n = next
  mtx : pc = .lock → s.mtx = none

variable {dpc dpc' : DonePc} {freed : Option Addr}

omit [DecidableEq T] in
/-- With every thread outside, the nodes are those of the queue. -/
theorem left_call (hidle : ∀ u, s.pc u = .idle) (hlocal : Local s) (hwhole : Whole s)
    (hk : Wakeup.Kept s.view ps) : Left s .lock ps := by
  have hfree : s.mtx = none := by
    by_contra hm
    obtain ⟨u, hu⟩ := Option.ne_none_iff_exists'.mp hm
    have hholds := (hlocal.held u).mp hu
    rw [hidle] at hholds
    exact hholds
  refine ⟨?_, fun p hp => ?_, fun p hp => ?_, by simp, fun _ => hfree⟩
  · exact hk.nodes.chain
  · exact Option.isSome_iff_ne_none.mp (hk.nodes.alive p hp)
  · by_cases hnode : nodes s.heap p = none
    · obtain ⟨u, cell, hu⟩ := hwhole p hp hnode
      rw [hidle] at hu
      cases hu
    · obtain hmem | ⟨u, hu⟩ := hk.owned p hnode
      · exact hmem
      · have hpc : s.view.pc u = .idle := congrArg Pc.view (hidle u)
        rw [hpc] at hu
        cases hu

omit [DecidableEq T] in
theorem left_step (hs : TecQueue_done t s dpc freed s' dpc') (h : Left s dpc ps) :
    ∃ ps', Left s' dpc' ps' ∧ ps = freed.toList ++ ps' := by
  cases hs with
  | lock hm => exact ⟨ps, ⟨h.chain, h.alive, h.all, by simp, by simp⟩, rfl⟩
  | head | enter | unlock | destroy =>
    exact ⟨ps, ⟨h.chain, h.alive, h.all, by simp, by simp⟩, rfl⟩
  | exit => exact ⟨ps, ⟨h.chain, h.alive, h.all, by simp, by simp⟩, rfl⟩
  | @next n cell next hcell hnext =>
    refine ⟨ps, ⟨h.chain, h.alive, h.all, ?_, by simp⟩, rfl⟩
    have hmem : n ∈ ps := h.all n (by simp [hcell])
    obtain ⟨obj, next', rfl, hnode⟩ := node_complete (h.alive n hmem) hcell
    cases hnext
    rintro n' next'' heq
    cases heq
    rw [nextOf, hnode]
    rfl
  | @free n next cell hcell =>
    cases ps with
    | nil => cases chain_head h.chain
    | cons n' rest =>
      obtain ⟨hfirst, hrest⟩ := chain_cons.mp h.chain
      cases hfirst
      rw [h.next n next rfl] at hrest
      have hout : ∀ p ∈ rest, p ≠ n := by
        rintro p hp rfl
        exact (List.nodup_cons.mp (chain_nodup h.chain)).1 hp
      have hsame : ∀ p ∈ rest, nodes (Function.update s.heap n none) p = nodes s.heap p := by
        intro p hp
        rw [nodes_update, Function.update_of_ne (hout p hp)]
      refine ⟨rest, ⟨?_, ?_, ?_, by simp, by simp⟩, rfl⟩
      · refine chain_congr ?_ hrest
        intro p hp
        simp only [nextOf, hsame p hp]
      · intro p hp
        simp only [hsame p hp]
        exact h.alive p (List.mem_cons_of_mem _ hp)
      · intro p hp
        have hpn : p ≠ n := by
          rintro rfl
          exact hp (Function.update_self _ _ _)
        have hold : s.heap p ≠ none := by simpa [Function.update_of_ne hpn] using hp
        exact (List.mem_cons.mp (h.all p hold)).resolve_left hpn

/-- `TecQueue_done` comes to its end. -/
def Completes (t : T) (s : State T α) (pc : DonePc) : Prop :=
  ∃ ys s', (lifeLts T α).Run ⟨s, some (t, pc)⟩ ys ⟨s', some (t, .destroyed)⟩

theorem Completes.step (h : Completes t s' dpc') (hs : TecQueue_done t s dpc freed s' dpc') :
    Completes t s dpc := by
  obtain ⟨ys, s'', hrun⟩ := h
  have hfirst : (lifeLts T α).Step ⟨s, some (t, dpc)⟩ (.done freed) ⟨s', some (t, dpc')⟩ :=
    LifeStep.done hs
  exact ⟨_, s'', hrun.cons hfirst⟩

theorem completes_unlock (t : T) (s : State T α) : Completes t s .unlock := by
  have hend : Completes t { s with mtx := none } .destroyed := ⟨[], _, .refl⟩
  exact (hend.step .destroy).step .unlock

omit [DecidableEq T] in
theorem Left.cell {n : Addr} (h : Left s dpc ps) (hn : dpc.first s.q = some n) :
    ∃ obj next, s.heap n = some ⟨some obj, some next⟩ := by
  have hmem : n ∈ ps := List.mem_of_mem_head? (by rw [← chain_head h.chain, hn]; rfl)
  have hnode := h.alive n hmem
  cases hcell : s.heap n with
  | none => exact absurd (by rw [nodes, hcell]; rfl) hnode
  | some cell =>
    obtain ⟨obj, next, rfl, _⟩ := node_complete hnode hcell
    exact ⟨obj, next, rfl⟩

/-- Each round of the loop frees one node. -/
theorem completes_test {n : Option Addr} (h : Left s (.test n) ps) :
    Completes t s (.test n) := by
  induction ps generalizing s n with
  | nil =>
    have hn : n = none := chain_head h.chain
    subst hn
    exact (completes_unlock t s).step .exit
  | cons p rest ih =>
    have hn : n = some p := chain_head h.chain
    subst hn
    obtain ⟨obj, next, hcell⟩ := h.cell rfl
    have hload : TecQueue_done t s (.next p) none s (.free p next) := .next hcell rfl
    have hfree : TecQueue_done t s (.free p next) (some p) _ (.test next) := .free hcell
    obtain ⟨ps₁, h₁, hps₁⟩ := left_step (t := t) .enter h
    obtain ⟨ps₂, h₂, hps₂⟩ := left_step hload h₁
    obtain ⟨ps₃, h₃, hps₃⟩ := left_step hfree h₂
    have hall : p :: rest = p :: ps₃ := hps₁.trans (hps₂.trans hps₃)
    cases hall
    exact (((ih h₃).step hfree).step hload).step .enter

theorem done_completes (h : Left s dpc ps) : Completes t s dpc := by
  cases dpc with
  | lock =>
    have hlock : TecQueue_done t s .lock none _ .head := .lock (h.mtx rfl)
    obtain ⟨ps₁, h₁, _⟩ := left_step hlock h
    obtain ⟨ps₂, h₂, _⟩ := left_step (t := t) .head h₁
    exact ((completes_test h₂).step .head).step hlock
  | head =>
    obtain ⟨ps₁, h₁, _⟩ := left_step (t := t) .head h
    exact (completes_test h₁).step .head
  | test n => exact completes_test h
  | next n =>
    obtain ⟨obj, next, hcell⟩ := h.cell rfl
    have hload : TecQueue_done t s (.next n) none s (.free n next) := .next hcell rfl
    have hfree : TecQueue_done t s (.free n next) (some n) _ (.test next) := .free hcell
    obtain ⟨ps₁, h₁, _⟩ := left_step hload h
    obtain ⟨ps₂, h₂, _⟩ := left_step hfree h₁
    exact ((completes_test h₂).step hfree).step hload
  | free n next =>
    obtain ⟨obj, next', hcell⟩ := h.cell rfl
    have hfree : TecQueue_done t s (.free n next) (some n) _ (.test next) := .free hcell
    obtain ⟨ps₁, h₁, _⟩ := left_step hfree h
    exact (completes_test h₁).step hfree
  | unlock => exact completes_unlock t s
  | destroy =>
    have hend : Completes t s .destroyed := ⟨[], _, .refl⟩
    exact hend.step .destroy
  | destroyed => exact ⟨[], _, .refl⟩

/-! Whole lives -/

theorem free_moves {cell : Cell α} (h : heap p = some cell) :
    Moves (fun r => heap r ≠ none) (fun r => Function.update heap p none r ≠ none)
      (some (.released p)) := by
  refine ⟨fun hnone => Option.some_ne_none cell (h.symm.trans hnone), ?_⟩
  intro r
  by_cases hr : r = p
  · simp [hr]
  · simp [hr]

theorem use_moves (h : Step s e s') : Moves (fun p => s.heap p ≠ none) (fun p => s'.heap p ≠ none)
    (LifeEvent.entry (.use e)) := by
  -- a store changes no node from free to used or back
  have hstore : ∀ {r : Addr} {cell cell' : Cell α}, s.heap r = some cell →
      ∀ p, Function.update s.heap r (some cell') p ≠ none ↔ s.heap p ≠ none := by
    intro r cell cell' hr p
    by_cases hp : p = r
    · subst hp
      simp [hr]
    · simp [Function.update_of_ne hp]
  cases h with
  | push t h =>
    cases h with
    | @malloc obj node ht hfree =>
      refine ⟨fun hne => hne hfree, ?_⟩
      intro p
      by_cases hp : p = node
      · simp [hp]
      · simp [hp]
    | obj ht hcell | next ht hcell | link ht hq hcell => exact hstore hcell
    | lock | test | head | tail | signal | unlock => exact fun p => Iff.rfl
  | pop t h =>
    cases h with
    | free ht hcell => exact free_moves hcell
    | _ => exact fun p => Iff.rfl

theorem life_moves {l l' : Life T α} {x : LifeEvent T α} (h : LifeStep l x l') :
    Moves (fun p => l.queue.heap p ≠ none) (fun p => l'.queue.heap p ≠ none) x.entry := by
  cases h with
  | use h => exact use_moves h
  | call => exact fun p => Iff.rfl
  | done h =>
    cases h with
    | free hcell => exact free_moves hcell
    | _ => exact fun p => Iff.rfl

/-- What holds of the queue before `TecQueue_done` and in it; `xs` are the events so far. -/
def Accounted (xs : List (LifeEvent T α)) (l : Life T α) : Prop :=
  match l.done with
  | none => Local l.queue ∧ Whole l.queue ∧ xs.filterMap LifeEvent.freed? = [] ∧
    ∃ ps, Wakeup.Kept l.queue.view ps ∧
      Fifo.pushed fifo (xs.filterMap LifeEvent.use?) =
        Fifo.popped fifo (xs.filterMap LifeEvent.use?) ++ objs l.queue.view.heap ps
  | some (_, pc) => ∃ ps, Left l.queue pc ps ∧
    (Fifo.pushed fifo (xs.filterMap LifeEvent.use?)).length =
      (Fifo.popped fifo (xs.filterMap LifeEvent.use?)).length +
        (xs.filterMap LifeEvent.freed?).length + ps.length

theorem accounted_step {xs : List (LifeEvent T α)} {l l' : Life T α} {x : LifeEvent T α}
    (h : LifeStep l x l') (ha : Accounted xs l) : Accounted (xs ++ [x]) l' := by
  cases h with
  | @use s s' e h =>
    obtain ⟨hlocal, hwhole, hfreed, ps, hk, hb⟩ := ha
    obtain ⟨ps', hlocal', hk', hfifo⟩ := step_kept h hlocal hk
    refine ⟨hlocal', whole_step h hwhole hlocal hk.nodes, ?_, ps', hk', ?_⟩
    · rw [List.filterMap_append, hfreed]
      rfl
    · rw [List.filterMap_append]
      exact Fifo.step_balance hfifo hb
  | @call s t hidle =>
    obtain ⟨hlocal, hwhole, hfreed, ps, hk, hb⟩ := ha
    refine ⟨ps, left_call hidle hlocal hwhole hk, ?_⟩
    have halive : ∀ p ∈ ps, (s.view.heap p).isSome := hk.nodes.alive
    have huse : (xs ++ [LifeEvent.call t]).filterMap LifeEvent.use? =
        xs.filterMap LifeEvent.use? := by
      rw [List.filterMap_append]
      exact List.append_nil _
    have hnone : (xs ++ [LifeEvent.call t]).filterMap LifeEvent.freed? = [] := by
      rw [List.filterMap_append, hfreed]
      rfl
    rw [huse, hnone, hb, List.length_append, objs_length halive]
    rfl
  | @done s s' t pc pc' freed h =>
    obtain ⟨ps, hleft, hcount⟩ := ha
    obtain ⟨ps', hleft', hps⟩ := left_step h hleft
    refine ⟨ps', hleft', ?_⟩
    have huse : (xs ++ [LifeEvent.done freed]).filterMap LifeEvent.use? =
        xs.filterMap LifeEvent.use? := by
      rw [List.filterMap_append]
      exact List.append_nil _
    have hfreed : (xs ++ [LifeEvent.done (T := T) (α := α) freed]).filterMap LifeEvent.freed? =
        xs.filterMap LifeEvent.freed? ++ freed.toList := by
      rw [List.filterMap_append]
      cases freed <;> rfl
    rw [huse, hfreed, hcount, hps, List.length_append, List.length_append]
    omega

theorem accounted_history {xs : List (LifeEvent T α)} {l : Life T α}
    (h : (lifeLts T α).History xs l) : Accounted xs l := by
  refine h.induction (P := Accounted) ?_ ?_
  · rintro ⟨s, done⟩ ⟨hi, hdone⟩
    cases hdone
    have hview := view_initial hi
    refine ⟨local_initial hi.2.2.2 hi.2.2.1, ?_, rfl, [], Wakeup.kept_initial hview, rfl⟩
    exact fun p hp => absurd (hi.2.1 p) hp
  · exact fun xs l x l' _ ha hs => accounted_step hs ha

/-- Nothing is leaked, and nothing is freed twice. From wherever it stands `TecQueue_done` comes
to its end; there no node is left in memory, each block has been freed as often as it was
allocated, and the nodes that `TecQueue_done` has freed are as many as the objects that were pushed
and not popped. -/
theorem queue_done_frees (xs : List (LifeEvent T α)) (l : Life T α)
    (h : (lifeLts T α).History xs l) :
    (∀ t pc, l.done = some (t, pc) →
      ∃ ys l', (lifeLts T α).Run l ys l' ∧ l'.done = some (t, .destroyed)) ∧
    (∀ t, l.done = some (t, .destroyed) →
      (∀ p, l.queue.heap p = none) ∧
      (acquired (xs.filterMap LifeEvent.entry)).Perm (released (xs.filterMap LifeEvent.entry)) ∧
      (Fifo.pushed fifo (xs.filterMap LifeEvent.use?)).length =
        (Fifo.popped fifo (xs.filterMap LifeEvent.use?)).length +
          (xs.filterMap LifeEvent.freed?).length) := by
  have ha := accounted_history h
  obtain ⟨s, done⟩ := l
  constructor
  · rintro t pc hdone
    cases hdone
    obtain ⟨ps, hleft, _⟩ := ha
    obtain ⟨ys, s', hrun⟩ := done_completes (t := t) hleft
    exact ⟨ys, _, hrun, rfl⟩
  · rintro t hdone
    cases hdone
    obtain ⟨ps, hleft, hcount⟩ := ha
    have hps : ps = [] := chain_none hleft.chain
    subst hps
    have hempty : ∀ p, s.heap p = none := by
      intro p
      by_contra hp
      cases hleft.all p hp
    refine ⟨hempty, ?_, hcount⟩
    obtain ⟨live, hlists, hbalanced⟩ := history_balanced (M := lifeLts T α) LifeEvent.entry
      (fun l p => l.queue.heap p ≠ none) (fun l hi p hp => hp (hi.1.2.1 p))
      (fun l x l' hs => life_moves hs) h
    exact hbalanced.settled hlists fun p hp => hp (hempty p)

omit [DecidableEq T] in
theorem signals_none {pc : T → Pc α} (h : ∀ u, pc u ≠ .asleep) : Signals pc fun _ => false :=
  ⟨by simp, fun hsleep => absurd hsleep (not_exists.mpr h)⟩

/-- An object is pushed and nobody pops it. -/
theorem queue_done_frees_left_behind :
    ∃ xs, ∃ l : Life Nat Nat, (lifeLts Nat Nat).History xs l ∧
      xs.filterMap LifeEvent.freed? = [5] ∧ l.done = some (0, .destroyed) ∧
      ∀ p, l.queue.heap p = none := by
  have h0 : (lifeLts Nat Nat).History []
      ⟨⟨⟨none, none⟩, fun _ => none, none, fun _ => .idle⟩, none⟩ :=
    .init ⟨⟨rfl, fun _ => rfl, rfl, fun _ => rfl⟩, rfl⟩
  have h1 := h0.snoc (LifeStep.use (.push 0 (@PushStep.malloc _ _ _ 0 _ 7 5 rfl rfl)))
  have h2 := h1.snoc (LifeStep.use (.push 0 (.obj rfl rfl)))
  have h3 := h2.snoc (LifeStep.use (.push 0 (.next rfl rfl)))
  have h4 := h3.snoc (LifeStep.use (.push 0 (.lock rfl rfl)))
  have h5 := h4.snoc (LifeStep.use (.push 0 (.test rfl)))
  have h6 := h5.snoc (LifeStep.use (.push 0 (.head rfl)))
  have h7 := h6.snoc (LifeStep.use (.push 0 (.tail rfl)))
  have h8 := h7.snoc (LifeStep.use (.push 0 (.signal rfl (signals_none (by
    intro u
    by_cases h : u = 0 <;> simp [State.setPC, h])))))
  have h9 := h8.snoc (LifeStep.use (.push 0 (.unlock rfl)))
  have h10 := h9.snoc (LifeStep.call 0 (by
    intro u
    by_cases h : u = 0 <;> simp [State.setPC, State.wake, h]))
  have h11 := h10.snoc (LifeStep.done (.lock rfl))
  have h12 := h11.snoc (LifeStep.done .head)
  have h13 := h12.snoc (LifeStep.done .enter)
  have h14 := h13.snoc (LifeStep.done (.next rfl rfl))
  have h15 := h14.snoc (LifeStep.done (.free rfl))
  have h16 := h15.snoc (LifeStep.done .exit)
  have h17 := h16.snoc (LifeStep.done .unlock)
  have h18 := h17.snoc (LifeStep.done .destroy)
  exact ⟨_, _, h18, rfl, rfl, ((queue_done_frees _ _ h18).2 0 rfl).1⟩

end Tecc.Queue.Fine
