import Tecc.ThrPool
import Tecc.ArenaSlots
import Mathlib.Data.List.ReduceOption

/-! Every task that is enqueued and not released yet has an element of its node's arena to itself,
and nobody but its caller writes to it: the arenas of the nodes, the task records, the queues and
the threads in one invariant. -/
namespace Tecc.ThrPool

open Machine Memory Arena Transition

variable {self : TecThrPool} {request : Nat → Request} {nelems : Nat} {s t : State} {e : Event}
  {xs : List Event} {c d n k : Nat} {m m' : Mem}

/-- The caller has a task and has not pushed it. -/
def EnqueuePc.Filling : EnqueuePc → Prop
  | .idle | .allocate | .returned => False
  | _ => True

/-- The members of the task that are assigned. -/
def EnqueuePc.stored : EnqueuePc → Nat
  | .idle | .allocate | .buffer_size => 0
  | .buffer => 1
  | .payload => 2
  | .test_payload | .memcpy _ | .task_func => 3
  | .args => 4
  | .push | .returned => 5

/-- The members of a task in the order of their assignments, each with its value. -/
def fields (self : TecThrPool) (request : Nat → Request) (c ndx : Nat) : List (Nat × Nat) :=
  [(TecTask_buffer_size, self.task_buffer_size), (TecTask_buffer, self.task_buffer ndx),
    (TecTask_payload, self.task_payload ndx), (TecTask_task_func, (request c).task_func.toNat),
    (TecTask_args, (request c).args.toNat)]

def Stored (self : TecThrPool) (request : Nat → Request) (m : Mem) (c : Nat) (call : Call) :
    Prop :=
  ∀ f ∈ (fields self request c call.ndx).take call.pc.stored, load m (call.task + f.1) 8 = f.2

def ThreadPc.task : ThreadPc → Option TaskRef
  | .test task | .running task | .release task => some task
  | _ => none

/-- The tasks that the thread has taken or will find in its queue. -/
def TecTaskNode.tasks (node : TecTaskNode) : List TaskRef :=
  node.pc.task.toList ++ node.q.reduceOption

/-- The call has a task of the node `n` that is not released. -/
def State.Active (s : State) (n c : Nat) : Prop :=
  (s.calls c).pc.Filling ∧ (s.calls c).ndx = n ∨ c ∈ (s.nodes n).tasks.map TaskRef.call

/-- The arenas of the nodes are in order, and no two of them share memory. -/
structure Arenas (pool : TecThrPool) (s : State) : Prop where
  elem_size : ∀ n, (s.nodes n).arena.elem_size = TecTask_size
  arena : ∀ n, (s.nodes n).destroyed = false → ∃ free, Arena.Inv (s.view n) free
  apart : ∀ n k a, n ≠ k → (s.view n).Owned a → ¬ (s.view k).Owned a
  payload : ∀ n a, (s.view n).Owned a → ¬ pool.InPayloads a

structure TaskInv (pool : TecThrPool) (request : Nat → Request) (s : State) : Prop
    extends Arenas pool s where
  ndx : ∀ c, (s.calls c).pc ≠ .idle → (s.calls c).ndx < pool.nthreads
  dest : ∀ c dest, (s.calls c).pc = .memcpy dest →
    dest ≠ 0 ∧ dest = pool.task_payload (s.calls c).ndx
  pushed : ∀ n, ∀ r ∈ (s.nodes n).tasks, (s.calls r.call).pc = .returned ∧
    (s.calls r.call).ndx = n ∧ (s.calls r.call).task = r.task
  nodup : ∀ n, ((s.nodes n).tasks.map TaskRef.call).Nodup
  live : ∀ n c, (s.nodes n).destroyed = false → s.Active n c →
    (s.calls c).task ∈ (s.nodes n).live
  inj : ∀ n c d, (s.nodes n).destroyed = false → s.Active n c → s.Active n d →
    (s.calls c).task = (s.calls d).task → c = d
  stored : ∀ n c, (s.nodes n).destroyed = false → s.Active n c →
    Stored pool request s.mem c (s.calls c)

/-- The bounds that the blocks of the pool meet. -/
structure TecThrPool.Fits (pool : TecThrPool) : Prop where
  nthreads : 0 < pool.nthreads
  buffers : pool.buffer_arena ≠ 0 → 0 < pool.buffer_size ∧
    pool.buffer_arena + pool.nthreads * pool.buffer_size ≤ 18446744073709551616
  payloads : pool.payload_arena ≠ 0 → 0 < pool.payload_size ∧
    pool.payload_arena + pool.nthreads * pool.payload_size ≤ 18446744073709551616

theorem fits_initial (h : Initial self nelems s) : self.Fits := by
  obtain ⟨buffers, payloads, hself⟩ := h.init
  refine ⟨h.nthreads, ?_, ?_⟩
  · intro hne
    refine ⟨?_, h.buffers hne⟩
    rw [hself] at hne
    by_contra hsize
    exact hne (if_neg (by omega))
  · intro hne
    refine ⟨?_, h.payloads hne⟩
    rw [hself] at hne
    by_contra hsize
    exact hne (if_neg (by omega))

theorem stride_le (size : Nat) {i N : Nat} (hi : i < N) : i * size + size ≤ N * size := by
  have hle := Nat.mul_le_mul_right size (Nat.succ_le_of_lt hi)
  rw [Nat.succ_mul] at hle
  exact hle

theorem slot_lt {block size i N : Nat} (hfit : 0 < size ∧ block + N * size ≤ 18446744073709551616)
    (hi : i < N) : block + i * size < 18446744073709551616 := by
  have hle := stride_le size hi
  omega

theorem task_buffer_size_lt (hfits : self.Fits) :
    self.task_buffer_size < 18446744073709551616 := by
  have hpos := hfits.nthreads
  unfold TecThrPool.task_buffer_size
  split
  · have hfit := hfits.buffers ‹_›
    have hle := stride_le self.buffer_size hpos
    omega
  · omega

theorem task_buffer_lt (hfits : self.Fits) (hn : n < self.nthreads) :
    self.task_buffer n < 18446744073709551616 := by
  unfold TecThrPool.task_buffer
  split
  · exact slot_lt (hfits.buffers ‹_›) hn
  · omega

theorem task_payload_lt (hfits : self.Fits) (hn : n < self.nthreads) :
    self.task_payload n < 18446744073709551616 := by
  unfold TecThrPool.task_payload
  split
  · exact slot_lt (hfits.payloads ‹_›) hn
  · omega

/-- The members lie behind the header, and their values fit. -/
theorem fields_bounds (request : Nat → Request) (c : Nat) (hfits : self.Fits)
    (hn : n < self.nthreads) :
    ∀ f ∈ fields self request c n,
      8 ≤ f.1 ∧ f.1 + 8 ≤ TecTask_size ∧ f.2 < 18446744073709551616 := by
  intro f hf
  simp only [fields, List.mem_cons, List.not_mem_nil, or_false] at hf
  rcases hf with rfl | rfl | rfl | rfl | rfl
  · exact ⟨Nat.le_of_ble_eq_true rfl, Nat.le_of_ble_eq_true rfl, task_buffer_size_lt hfits⟩
  · exact ⟨Nat.le_of_ble_eq_true rfl, Nat.le_of_ble_eq_true rfl, task_buffer_lt hfits hn⟩
  · exact ⟨Nat.le_of_ble_eq_true rfl, Nat.le_of_ble_eq_true rfl, task_payload_lt hfits hn⟩
  · exact ⟨Nat.le_of_ble_eq_true rfl, Nat.le_of_ble_eq_true rfl, (request c).task_func.toNat_lt⟩
  · exact ⟨Nat.le_of_ble_eq_true rfl, Nat.le_of_ble_eq_true rfl, (request c).args.toNat_lt⟩

/-- No two members overlap. -/
theorem fields_apart (self : TecThrPool) (request : Nat → Request) (c n : Nat) :
    (fields self request c n).Pairwise fun f g => Apart f.1 8 g.1 8 := by
  simp [fields, Apart, TecTask_buffer_size, TecTask_buffer, TecTask_payload, TecTask_task_func,
    TecTask_args]

/-- A member does not overlap those assigned before it. -/
theorem member_apart (self : TecThrPool) (request : Nat → Request) (c n : Nat)
    {i : Nat} {f g : Nat × Nat} (hg : (fields self request c n)[i]? = some g)
    (hf : f ∈ (fields self request c n).take i) : Apart f.1 8 g.1 8 := by
  obtain ⟨hi, rfl⟩ := List.getElem?_eq_some_iff.mp hg
  obtain ⟨j, hj, rfl⟩ := List.mem_iff_getElem.mp hf
  rw [List.getElem_take]
  rw [List.length_take] at hj
  exact List.pairwise_iff_getElem.mp (fields_apart self request c n) j i _ _ (by omega)

theorem stored_congr {call : Call} (hfits : self.Fits) (hn : call.ndx < self.nthreads)
    (hm : ∀ a, call.task + 8 ≤ a → a < call.task + TecTask_size → m' a = m a)
    (h : Stored self request m c call) : Stored self request m' c call := by
  intro f hf
  have hbounds := fields_bounds request c hfits hn f (List.mem_of_mem_take hf)
  rw [← h f hf]
  exact load_congr (fun a hlo hhi => hm a (by omega) (by omega))

/-- What a step leaves of a call whose task it does not change. -/
structure SameTask (old new : Call) : Prop where
  filling : new.pc.Filling ↔ old.pc.Filling
  returned : old.pc = .returned → new.pc = .returned
  ndx : old.pc ≠ .idle → new.ndx = old.ndx
  task : new.task = old.task

theorem SameTask.refl (call : Call) : SameTask call call :=
  ⟨Iff.rfl, fun h => h, fun _ => rfl, rfl⟩

theorem filling_not_idle {pc : EnqueuePc} (h : pc.Filling) : pc ≠ .idle := by
  rintro rfl
  exact h

theorem returned_not_idle {pc : EnqueuePc} (h : pc = .returned) : pc ≠ .idle := by
  rw [h]
  exact EnqueuePc.noConfusion

/-- What a step leaves of a node whose tasks it does not change. -/
structure SameNode (old new : TecTaskNode) : Prop where
  arena : new.arena = old.arena
  live : new.live = old.live
  destroyed : new.destroyed = old.destroyed
  tasks : new.tasks = old.tasks

theorem active_of_same (hnodes : ∀ n, SameNode (s.nodes n) (t.nodes n))
    (hcalls : ∀ c, SameTask (s.calls c) (t.calls c)) (h : t.Active n c) : s.Active n c := by
  rcases h with ⟨hfill, hn⟩ | hmem
  · have hold := (hcalls c).filling.mp hfill
    exact .inl ⟨hold, ((hcalls c).ndx (filling_not_idle hold)).symm.trans hn⟩
  · rw [(hnodes n).tasks] at hmem
    exact .inr hmem

/-- A step that changes one arena and takes no memory from the others. -/
theorem Arenas.change (h : Arenas self s)
    (hview : ∀ k, k ≠ n → t.view k = { s.view k with mem := t.mem })
    (hdestroyed : ∀ k, k ≠ n → (t.nodes k).destroyed = (s.nodes k).destroyed)
    (hsize : (t.nodes n).arena.elem_size = TecTask_size)
    (harena : (t.nodes n).destroyed = false → ∃ free, Arena.Inv (t.view n) free)
    (howned : ∀ a, (t.view n).Owned a →
      ¬ self.InPayloads a ∧ ∀ k, k ≠ n → ¬ (s.view k).Owned a)
    (hkept : ∀ k a, k ≠ n → (s.view k).Owned a → t.mem a = s.mem a) : Arenas self t := by
  have howned' : ∀ k a, k ≠ n → (t.view k).Owned a → (s.view k).Owned a := by
    intro k a hk ha
    rw [hview k hk] at ha
    exact ha
  constructor
  · intro k
    by_cases hk : k = n
    · rw [hk]
      exact hsize
    · have harena : (t.view k).arena = (s.view k).arena := by rw [hview k hk]
      exact (congrArg TecArena.elem_size harena).trans (h.elem_size k)
  · intro k hopen
    by_cases hk : k = n
    · subst hk
      exact harena hopen
    · rw [hdestroyed k hk] at hopen
      obtain ⟨free, hinv⟩ := h.arena k hopen
      rw [hview k hk]
      exact ⟨free, hinv.other (fun a ha => hkept k a hk ha)⟩
  · intro j k a hjk hj hk
    by_cases hjn : j = n
    · subst hjn
      exact (howned a hj).2 k (Ne.symm hjk) (howned' k a (Ne.symm hjk) hk)
    · by_cases hkn : k = n
      · subst hkn
        exact (howned a hk).2 j hjk (howned' j a hjk hj)
      · exact h.apart j k a hjk (howned' j a hjn hj) (howned' k a hkn hk)
  · intro k a ha
    by_cases hk : k = n
    · subst hk
      exact (howned a ha).1
    · exact h.payload k a (howned' k a hk ha)

namespace TaskInv

theorem active_pc (h : TaskInv self request s) (hactive : s.Active n c) :
    (s.calls c).pc ≠ .idle ∧ (s.calls c).ndx = n := by
  rcases hactive with ⟨hfill, hn⟩ | hmem
  · exact ⟨filling_not_idle hfill, hn⟩
  · obtain ⟨r, hr, rfl⟩ := List.mem_map.mp hmem
    obtain ⟨hpc, hn, _⟩ := h.pushed n r hr
    exact ⟨returned_not_idle hpc, hn⟩

/-- The bytes of an active task belong to its node. -/
theorem record_owned (h : TaskInv self request s) (hopen : (s.nodes n).destroyed = false)
    (hactive : s.Active n c) {a : Nat} (hlo : (s.calls c).task ≤ a)
    (hhi : a < (s.calls c).task + TecTask_size) : (s.view n).Owned a :=
  .inr ⟨_, h.live n c hopen hactive, hlo, (h.elem_size n).symm ▸ hhi⟩

/-- A step that gives and takes no element. -/
theorem keep (h : TaskInv self request s)
    (hsame : ∀ n, (t.nodes n).arena = (s.nodes n).arena ∧ (t.nodes n).live = (s.nodes n).live ∧
      (t.nodes n).destroyed = (s.nodes n).destroyed)
    (hback : ∀ n c, t.Active n c → s.Active n c)
    (htask : ∀ c, (t.calls c).task = (s.calls c).task)
    (harena : ∀ n free, (s.nodes n).destroyed = false → Arena.Inv (s.view n) free →
      Arena.Inv { s.view n with mem := t.mem } free)
    (hstored : ∀ n c, (s.nodes n).destroyed = false → s.Active n c →
      Stored self request t.mem c (t.calls c))
    (hndx : ∀ c, (t.calls c).pc ≠ .idle → (t.calls c).ndx < self.nthreads)
    (hdest : ∀ c dest, (t.calls c).pc = .memcpy dest →
      dest ≠ 0 ∧ dest = self.task_payload (t.calls c).ndx)
    (hpushed : ∀ n, ∀ r ∈ (t.nodes n).tasks, (t.calls r.call).pc = .returned ∧
      (t.calls r.call).ndx = n ∧ (t.calls r.call).task = r.task)
    (hnodup : ∀ n, ((t.nodes n).tasks.map TaskRef.call).Nodup) : TaskInv self request t := by
  have hview : ∀ n, t.view n = { s.view n with mem := t.mem } := by
    intro n
    simp only [State.view, (hsame n).1, (hsame n).2.1]
  have howned : ∀ n a, (t.view n).Owned a ↔ (s.view n).Owned a := by
    intro n a
    rw [hview]
    exact Iff.rfl
  have harenas : Arenas self t := by
    constructor
    · intro n
      rw [(hsame n).1]
      exact h.elem_size n
    · intro n hopen
      rw [(hsame n).2.2] at hopen
      obtain ⟨free, hinv⟩ := h.arena n hopen
      rw [hview]
      exact ⟨free, harena n free hopen hinv⟩
    · intro n k a hnk hn hk
      exact h.apart n k a hnk ((howned n a).mp hn) ((howned k a).mp hk)
    · intro n a hn
      exact h.payload n a ((howned n a).mp hn)
  refine ⟨harenas, hndx, hdest, hpushed, hnodup, ?_, ?_, ?_⟩
  · intro n c hopen hactive
    rw [(hsame n).2.2] at hopen
    rw [(hsame n).2.1, htask c]
    exact h.live n c hopen (hback n c hactive)
  · intro n c d hopen hc hd heq
    rw [(hsame n).2.2] at hopen
    rw [htask c, htask d] at heq
    exact h.inj n c d hopen (hback n c hc) (hback n d hd) heq
  · intro n c hopen hactive
    rw [(hsame n).2.2] at hopen
    exact hstored n c hopen (hback n c hactive)

/-- A step that leaves the tasks where they are. -/
theorem same (h : TaskInv self request s) (hnodes : ∀ n, SameNode (s.nodes n) (t.nodes n))
    (hcalls : ∀ c, SameTask (s.calls c) (t.calls c))
    (harena : ∀ n free, (s.nodes n).destroyed = false → Arena.Inv (s.view n) free →
      Arena.Inv { s.view n with mem := t.mem } free)
    (hstored : ∀ n c, (s.nodes n).destroyed = false → s.Active n c →
      Stored self request t.mem c (t.calls c))
    (hndx : ∀ c, (t.calls c).pc ≠ .idle → (t.calls c).ndx < self.nthreads)
    (hdest : ∀ c dest, (t.calls c).pc = .memcpy dest →
      dest ≠ 0 ∧ dest = self.task_payload (t.calls c).ndx) : TaskInv self request t := by
  refine h.keep (fun n => ⟨(hnodes n).arena, (hnodes n).live, (hnodes n).destroyed⟩)
    (fun n c => active_of_same hnodes hcalls) (fun c => (hcalls c).task) harena hstored hndx hdest
    ?_ ?_
  · intro n r hr
    rw [(hnodes n).tasks] at hr
    obtain ⟨hpc, hn, htask⟩ := h.pushed n r hr
    exact ⟨(hcalls r.call).returned hpc,
      ((hcalls r.call).ndx (returned_not_idle hpc)).trans hn,
      (hcalls r.call).task.trans htask⟩
  · intro n
    rw [(hnodes n).tasks]
    exact h.nodup n

/-- The record of an active task depends on the bytes of its node. -/
theorem stored_other (h : TaskInv self request s) (hfits : self.Fits)
    (hopen : (s.nodes n).destroyed = false) (hactive : s.Active n c)
    (hm : ∀ a, (s.calls c).task + 8 ≤ a → a < (s.calls c).task + TecTask_size → m a = s.mem a) :
    Stored self request m c (s.calls c) :=
  stored_congr hfits (h.ndx c (h.active_pc hactive).1) hm (h.stored n c hopen hactive)

/-- A step that leaves the memory of the arenas and the members of the tasks as they are. -/
theorem frame (h : TaskInv self request s) (hfits : self.Fits)
    (hmem : ∀ n a, (s.view n).Owned a → t.mem a = s.mem a)
    (hnodes : ∀ n, SameNode (s.nodes n) (t.nodes n))
    (hcalls : ∀ c, SameTask (s.calls c) (t.calls c))
    (hsame : ∀ c, (t.calls c).pc.stored = (s.calls c).pc.stored)
    (hndx : ∀ c, (t.calls c).pc ≠ .idle → (t.calls c).ndx < self.nthreads)
    (hdest : ∀ c dest, (t.calls c).pc = .memcpy dest →
      dest ≠ 0 ∧ dest = self.task_payload (t.calls c).ndx) : TaskInv self request t := by
  refine h.same hnodes hcalls ?_ ?_ hndx hdest
  · intro n free _ hinv
    exact hinv.other (hmem n)
  · intro n c hopen hactive
    have hstored := h.stored_other (m := t.mem) hfits hopen hactive
      (fun a hlo hhi => hmem n a (h.record_owned hopen hactive (by omega) hhi))
    unfold Stored at hstored ⊢
    rw [(hcalls c).ndx (h.active_pc hactive).1, (hcalls c).task, hsame c]
    exact hstored

/-- Two active tasks of a node lie apart. -/
theorem records_apart (h : TaskInv self request s) (hopen : (s.nodes n).destroyed = false)
    (hc : s.Active n c) (hd : s.Active n d) (hcd : c ≠ d) :
    Apart (s.calls c).task TecTask_size (s.calls d).task TecTask_size := by
  obtain ⟨free, hinv⟩ := h.arena n hopen
  have hne : (s.calls c).task ≠ (s.calls d).task := fun heq => hcd (h.inj n c d hopen hc hd heq)
  rw [← h.elem_size n]
  exact hinv.apart _ (h.live n c hopen hc) _ (h.live n d hopen hd) hne

/-- A write into the record of one task leaves the records of the others as they are. -/
theorem record_other (h : TaskInv self request s) (hopen : (s.nodes k).destroyed = false)
    (hopen' : (s.nodes n).destroyed = false) (hc : s.Active k c) (hd : s.Active n d)
    (hcd : c ≠ d) {a : Nat} (hlo : (s.calls d).task ≤ a)
    (hhi : a < (s.calls d).task + TecTask_size) :
    a < (s.calls c).task ∨ (s.calls c).task + TecTask_size ≤ a := by
  by_contra hin
  by_cases hnk : n = k
  · subst hnk
    have hapart := h.records_apart hopen hc hd hcd
    unfold Apart at hapart
    omega
  · exact h.apart n k a hnk (h.record_owned hopen' hd hlo hhi)
      (h.record_owned hopen hc (by omega) (by omega))

/-- The caller assigns the next member of its task. -/
theorem assign (h : TaskInv self request s) (hfits : self.Fits) {o v : Nat} {pc : EnqueuePc}
    (hfill : (s.calls c).pc.Filling) (hopen : (s.nodes (s.calls c).ndx).destroyed = false)
    (hfield : (fields self request c (s.calls c).ndx)[(s.calls c).pc.stored]? = some (o, v))
    (hstored : pc.stored = (s.calls c).pc.stored + 1) (hpc : pc.Filling)
    (hmemcpy : ∀ dest, pc ≠ .memcpy dest) :
    TaskInv self request { s.setCall c (fun call => { call with pc := pc }) with
      mem := store s.mem ((s.calls c).task + o) 8 v } := by
  have hactive : s.Active (s.calls c).ndx c := .inl ⟨hfill, rfl⟩
  have hidle := filling_not_idle hfill
  have hbounds : 8 ≤ o ∧ o + 8 ≤ TecTask_size ∧ v < 18446744073709551616 :=
    fields_bounds request c hfits (h.ndx c hidle) _ (List.mem_of_getElem? hfield)
  have hwrite : ∀ a, a < (s.calls c).task + 4 ∨ (s.calls c).task + TecTask_size ≤ a →
      store s.mem ((s.calls c).task + o) 8 v a = s.mem a := by
    intro a ha
    exact store_other (by omega)
  refine h.same (fun n => ⟨rfl, rfl, rfl, rfl⟩) ?_ ?_ ?_ ?_ ?_
  · intro d
    by_cases hd : d = c
    · subst hd
      simp only [setCall_self]
      refine ⟨⟨fun _ => hfill, fun _ => hpc⟩, ?_, fun _ => rfl, rfl⟩
      intro hreturned
      rw [hreturned] at hfill
      exact hfill.elim
    · simp only [setCall_of_ne hd]
      exact .refl _
  · intro n free hopen' hinv
    by_cases hn : n = (s.calls c).ndx
    · subst hn
      have hsize : (s.view (s.calls c).ndx).arena.elem_size = TecTask_size := h.elem_size _
      refine hinv.write_behind (h.live _ c hopen hactive) ?_
      rw [hsize]
      exact hwrite
    · refine hinv.other ?_
      intro a ha
      apply hwrite
      by_contra hin
      exact h.apart n _ a hn ha (h.record_owned hopen hactive (by omega) (by omega))
  · intro n d hopen' hd
    by_cases hdc : d = c
    · subst hdc
      obtain ⟨hlt, hget⟩ := List.getElem?_eq_some_iff.mp hfield
      simp only [setCall_self]
      intro f hf
      simp only [hstored, List.take_succ_eq_append_getElem hlt, hget, List.mem_append,
        List.mem_singleton] at hf
      rcases hf with hf | rfl
      · rw [← h.stored _ d hopen hactive f hf]
        refine load_store_apart ?_
        have hapart : Apart f.1 8 o 8 := member_apart self request d _ hfield hf
        change Apart ((s.calls d).task + f.1) 8 ((s.calls d).task + o) 8
        unfold Apart at *
        omega
      · exact load_store (by omega)
    · simp only [setCall_of_ne hdc]
      refine h.stored_other hfits hopen' hd ?_
      intro a hlo hhi
      have hout := h.record_other hopen hopen' hactive hd (Ne.symm hdc) (by omega) hhi
      exact hwrite a (by omega)
  · intro d hd
    by_cases hdc : d = c
    · subst hdc
      simp only [setCall_self]
      exact h.ndx d hidle
    · simp only [setCall_of_ne hdc] at hd ⊢
      exact h.ndx d hd
  · intro d dest hd
    by_cases hdc : d = c
    · subst hdc
      simp only [setCall_self] at hd
      exact absurd hd (hmemcpy dest)
    · simp only [setCall_of_ne hdc] at hd ⊢
      exact h.dest d dest hd

/-- The task goes from its caller to the queue. -/
theorem push (h : TaskInv self request s) (hc : (s.calls c).pc = .push)
    (hn : (s.calls c).ndx = n) (hmem : t.mem = s.mem)
    (hnode : t.nodes n =
      { s.nodes n with q := (s.nodes n).q ++ [some ⟨(s.calls c).task, c⟩] })
    (hnodes : ∀ k, k ≠ n → t.nodes k = s.nodes k)
    (hcall : t.calls c = { s.calls c with pc := .returned })
    (hcalls : ∀ d, d ≠ c → t.calls d = s.calls d) : TaskInv self request t := by
  have htasks : (t.nodes n).tasks = (s.nodes n).tasks ++ [⟨(s.calls c).task, c⟩] := by
    rw [hnode, TecTaskNode.tasks, TecTaskNode.tasks, List.reduceOption_append, List.append_assoc]
    rfl
  have hfill : (s.calls c).pc.Filling := by
    rw [hc]
    trivial
  have hactive : s.Active n c := .inl ⟨hfill, hn⟩
  have hnew : ∀ k, ∀ r ∈ (s.nodes k).tasks, r.call ≠ c := by
    rintro k r hr rfl
    rw [(h.pushed k r hr).1] at hc
    cases hc
  refine h.keep ?_ ?_ ?_ ?_ ?_ ?_ ?_ ?_ ?_
  · intro k
    by_cases hk : k = n
    · subst hk
      rw [hnode]
      exact ⟨rfl, rfl, rfl⟩
    · rw [hnodes k hk]
      exact ⟨rfl, rfl, rfl⟩
  · intro k d hd
    rcases hd with ⟨hdfill, hdn⟩ | hd
    · have hdc : d ≠ c := by
        rintro rfl
        rw [hcall] at hdfill
        exact hdfill
      rw [hcalls d hdc] at hdfill hdn
      exact .inl ⟨hdfill, hdn⟩
    · by_cases hk : k = n
      · subst hk
        rw [htasks, List.map_append, List.mem_append] at hd
        rcases hd with hd | hd
        · exact .inr hd
        · rw [List.mem_singleton.mp hd]
          exact hactive
      · rw [hnodes k hk] at hd
        exact .inr hd
  · intro d
    by_cases hdc : d = c
    · rw [hdc, hcall]
    · rw [hcalls d hdc]
  · intro k free _ hinv
    rw [hmem]
    exact hinv
  · intro k d hopen hd
    have hstored := h.stored k d hopen hd
    rw [hmem]
    by_cases hdc : d = c
    · subst hdc
      rw [hcall]
      rw [Stored, hc] at hstored
      exact hstored
    · rw [hcalls d hdc]
      exact hstored
  · intro d hd
    by_cases hdc : d = c
    · subst hdc
      rw [hcall]
      exact h.ndx d (filling_not_idle hfill)
    · rw [hcalls d hdc] at hd ⊢
      exact h.ndx d hd
  · intro d dest hd
    by_cases hdc : d = c
    · rw [hdc, hcall] at hd
      cases hd
    · rw [hcalls d hdc] at hd ⊢
      exact h.dest d dest hd
  · intro k r hr
    have hold : r ∈ (s.nodes k).tasks → (t.calls r.call).pc = .returned ∧
        (t.calls r.call).ndx = k ∧ (t.calls r.call).task = r.task := by
      intro hr
      rw [hcalls _ (hnew k r hr)]
      exact h.pushed k r hr
    by_cases hk : k = n
    · subst hk
      rw [htasks, List.mem_append] at hr
      rcases hr with hr | hr
      · exact hold hr
      · rw [List.mem_singleton.mp hr, hcall]
        exact ⟨rfl, hn, rfl⟩
    · rw [hnodes k hk] at hr
      exact hold hr
  · intro k
    by_cases hk : k = n
    · subst hk
      rw [htasks, List.map_append]
      refine List.nodup_append.mpr ⟨h.nodup k, List.nodup_singleton _, ?_⟩
      rintro d hd d' hd' rfl
      obtain ⟨r, hr, hrd⟩ := List.mem_map.mp hd
      exact hnew k r hr (hrd.trans (List.mem_singleton.mp hd'))
    · rw [hnodes k hk]
      exact h.nodup k

/-- A call that asks for its task has none yet. -/
theorem allocate_not_active (h : TaskInv self request s) (hc : (s.calls c).pc = .allocate) :
    ¬ s.Active n c := by
  rintro (⟨hfill, _⟩ | hmem)
  · rw [hc] at hfill
    exact hfill
  · obtain ⟨r, hr, rfl⟩ := List.mem_map.mp hmem
    rw [(h.pushed n r hr).1] at hc
    cases hc

/-- The bytes of a new element were free, or they lie in the block of its arena. -/
theorem fresh_bytes (h : TaskInv self request s) (hopen : (s.nodes n).destroyed = false)
    {calloc task : Nat} {arena : TecArena} (hheap : s.Heap self calloc) (htask : task ≠ 0)
    (hr : TecArena_allocate (s.nodes n).arena s.mem calloc = (arena, m, task)) {a : Nat}
    (hlo : task ≤ a) (hhi : a < task + TecTask_size) :
    ¬ self.InPayloads a ∧ ∀ k, k ≠ n → ¬ (s.view k).Owned a := by
  obtain ⟨free, hinv⟩ := h.arena n hopen
  rcases (hinv.allocate_frame hr).1 with rfl | ⟨i, hi, rfl⟩
  · refine ⟨(hheap.2 a hlo hhi).2, ?_⟩
    intro k _ hk
    obtain ⟨_, hblock, hlive⟩ := (hheap.1 k).resolve_left htask
    have hsize : (s.view k).arena.elem_size = TecTask_size := h.elem_size k
    rw [hsize] at hblock hlive
    rcases hk with hin | ⟨p, hp, hplo, hphi⟩
    · unfold TecArena.Inside at hin
      rw [hsize] at hin
      unfold Apart at hblock
      omega
    · have hapart := hlive p hp
      rw [hsize] at hphi
      unfold Apart at hapart
      omega
  · have hbounds := slotAt_bounds hi
    have hsize : (s.view n).arena.elem_size = TecTask_size := h.elem_size n
    rw [hsize] at hbounds
    have howned : (s.view n).Owned a := by
      refine .inl ⟨by omega, ?_⟩
      rw [hsize]
      omega
    exact ⟨h.payload n a howned, fun k hk => fun hk' => h.apart k n a hk hk' howned⟩

/-- A caller gets the element for its task. -/
theorem allocate (h : TaskInv self request s) (hfits : self.Fits)
    (hc : (s.calls c).pc = .allocate) (hn : (s.calls c).ndx = n)
    (hopen : (s.nodes n).destroyed = false) {calloc task : Nat} {arena : TecArena}
    (hheap : s.Heap self calloc) (htask : task ≠ 0)
    (hr : TecArena_allocate (s.nodes n).arena s.mem calloc = (arena, m, task))
    (hmem : t.mem = m)
    (hnode : t.nodes n = { s.nodes n with arena := arena, live := task :: (s.nodes n).live })
    (hnodes : ∀ k, k ≠ n → t.nodes k = s.nodes k)
    (hcall : t.calls c = { s.calls c with task := task, pc := .buffer_size })
    (hcalls : ∀ d, d ≠ c → t.calls d = s.calls d) : TaskInv self request t := by
  obtain ⟨free, hinv⟩ := h.arena n hopen
  obtain ⟨free', hinv'⟩ := hinv.allocate (hheap.1 n) hr
  rw [if_neg htask] at hinv'
  have hsize : (s.view n).arena.elem_size = TecTask_size := h.elem_size n
  have hwrite := (hinv.allocate_frame hr).2
  rw [hsize] at hwrite
  have hconfig := TecArena_allocate_config (s.nodes n).arena s.mem calloc
  rw [hr] at hconfig
  have hfresh : task ∉ (s.nodes n).live := (List.nodup_cons.mp hinv'.live_nodup).1
  have hview : t.view n = ⟨arena, m, task :: (s.nodes n).live⟩ := by
    rw [State.view, hnode, hmem]
  have hview' : ∀ k, k ≠ n → t.view k = { s.view k with mem := m } := by
    intro k hk
    rw [State.view, hnodes k hk, hmem]
    rfl
  have hbytes := fun a => fresh_bytes (a := a) h hopen hheap htask hr
  have howned : ∀ a, (t.view n).Owned a →
      (s.view n).Owned a ∨ task ≤ a ∧ a < task + TecTask_size := by
    intro a ha
    rw [hview] at ha
    rcases ha with hin | ⟨p, hp, hlo, hhi⟩
    · exact .inl (.inl ((inside_config hconfig).mp hin))
    · change a < p + arena.elem_size at hhi
      rw [hconfig.2.1] at hhi
      rcases List.mem_cons.mp hp with rfl | hp
      · exact .inr ⟨hlo, h.elem_size n ▸ hhi⟩
      · exact .inl (.inr ⟨p, hp, hlo, hhi⟩)
  have hkept : ∀ k a, k ≠ n → (s.view k).Owned a → m a = s.mem a := by
    intro k a hk ha
    apply hwrite
    by_contra hin
    exact (hbytes a (by omega) (by omega)).2 k hk ha
  have htasks : ∀ k, (t.nodes k).tasks = (s.nodes k).tasks := by
    intro k
    by_cases hk : k = n
    · rw [hk, hnode]
      rfl
    · rw [hnodes k hk]
  have hback : ∀ k d, t.Active k d → d ≠ c → s.Active k d := by
    intro k d hd hdc
    rw [State.Active, htasks, hcalls d hdc] at hd
    exact hd
  have hself : ∀ k, t.Active k c → k = n := by
    intro k hk
    rcases hk with ⟨_, hk⟩ | hk
    · rw [hcall] at hk
      exact hk.symm.trans hn
    · rw [htasks] at hk
      exact absurd (.inr hk) (h.allocate_not_active hc)
  have hopen' : ∀ k, (t.nodes k).destroyed = (s.nodes k).destroyed := by
    intro k
    by_cases hk : k = n
    · rw [hk, hnode]
    · rw [hnodes k hk]
  have hlive : ∀ k d, (s.nodes k).destroyed = false → t.Active k d → d ≠ c →
      (t.calls d).task ∈ (s.nodes k).live := by
    intro k d hk hd hdc
    rw [hcalls d hdc]
    exact h.live k d hk (hback k d hd hdc)
  have harenas : Arenas self t := by
    refine h.change (n := n) ?_ ?_ ?_ ?_ ?_ ?_
    · intro k hk
      rw [hview' k hk, hmem]
    · intro k _
      exact hopen' k
    · rw [hnode]
      exact hconfig.2.1.trans (h.elem_size n)
    · intro _
      rw [hview]
      exact ⟨free', hinv'⟩
    · intro a ha
      rcases howned a ha with ha | ⟨hlo, hhi⟩
      · exact ⟨h.payload n a ha, fun k hk hk' => h.apart k n a hk hk' ha⟩
      · exact hbytes a hlo hhi
    · intro k a hk ha
      rw [hmem]
      exact hkept k a hk ha
  refine ⟨harenas, ?_, ?_, ?_, ?_, ?_, ?_, ?_⟩
  · intro d hd
    by_cases hdc : d = c
    · rw [hdc, hcall]
      refine h.ndx c ?_
      rw [hc]
      exact EnqueuePc.noConfusion
    · rw [hcalls d hdc] at hd ⊢
      exact h.ndx d hd
  · intro d dest hd
    by_cases hdc : d = c
    · rw [hdc, hcall] at hd
      cases hd
    · rw [hcalls d hdc] at hd ⊢
      exact h.dest d dest hd
  · intro k r hr
    rw [htasks] at hr
    have hrc : r.call ≠ c := by
      intro hrc
      exact h.allocate_not_active hc (.inr (List.mem_map.mpr ⟨r, hr, hrc⟩))
    rw [hcalls _ hrc]
    exact h.pushed k r hr
  · intro k
    rw [htasks]
    exact h.nodup k
  · intro k d hk hd
    rw [hopen'] at hk
    by_cases hdc : d = c
    · subst hdc
      rw [hself k hd, hnode, hcall]
      exact List.mem_cons_self
    · have hmem' := hlive k d hk hd hdc
      by_cases hkn : k = n
      · subst hkn
        rw [hnode]
        exact List.mem_cons_of_mem _ hmem'
      · rw [hnodes k hkn]
        exact hmem'
  · intro k d d' hk hd hd' heq
    rw [hopen'] at hk
    by_cases hdc : d = c
    · by_cases hdc' : d' = c
      · exact hdc.trans hdc'.symm
      · subst hdc
        obtain rfl := hself k hd
        have htask' : task = (t.calls d').task := by rw [← heq, hcall]
        exact absurd (htask' ▸ hlive _ d' hk hd' hdc') hfresh
    · by_cases hdc' : d' = c
      · subst hdc'
        obtain rfl := hself k hd'
        have htask' : task = (t.calls d).task := by rw [heq, hcall]
        exact absurd (htask' ▸ hlive _ d hk hd hdc) hfresh
      · rw [hcalls d hdc, hcalls d' hdc'] at heq
        exact h.inj k d d' hk (hback k d hd hdc) (hback k d' hd' hdc') heq
  · intro k d hk hd
    rw [hopen'] at hk
    by_cases hdc : d = c
    · subst hdc
      rw [hcall]
      intro f hf
      cases hf
    · have hold := hback k d hd hdc
      rw [hcalls d hdc, hmem]
      refine h.stored_other hfits hk hold ?_
      intro a hlo hhi
      by_cases hkn : k = n
      · subst hkn
        have hold' := h.live _ d hk hold
        have hne : (s.calls d).task ≠ task := fun heq => hfresh (heq ▸ hold')
        have hapart := hinv'.apart _ (List.mem_cons_of_mem _ hold') task List.mem_cons_self hne
        have hsize' : arena.elem_size = TecTask_size := hconfig.2.1.trans (h.elem_size _)
        simp only [hsize'] at hapart
        apply hwrite
        unfold Apart at hapart
        omega
      · exact hkept k a hkn (h.record_owned hk hold (by omega) hhi)

/-- The thread gives the element of its task back. -/
theorem release (h : TaskInv self request s) (hfits : self.Fits) {r : TaskRef}
    (hpc : (s.nodes n).pc = .release r) (hopen : (s.nodes n).destroyed = false)
    {arena : TecArena} {freed : Option Nat}
    (hr : TecArena_release (s.nodes n).arena s.mem r.task = (arena, m, freed))
    (hmem : t.mem = m)
    (hnode : t.nodes n =
      { s.nodes n with arena := arena, live := (s.nodes n).live.erase r.task, pc := .pop })
    (hnodes : ∀ k, k ≠ n → t.nodes k = s.nodes k) (hcalls : t.calls = s.calls) :
    TaskInv self request t := by
  obtain ⟨free, hinv⟩ := h.arena n hopen
  have htasks : (s.nodes n).tasks = r :: (t.nodes n).tasks := by
    rw [hnode, TecTaskNode.tasks, TecTaskNode.tasks, hpc]
    rfl
  have hhead : r ∈ (s.nodes n).tasks := by
    rw [htasks]
    exact List.mem_cons_self
  obtain ⟨hreturned, _, htask⟩ := h.pushed n r hhead
  have hactive : s.Active n r.call := .inr (List.mem_map_of_mem hhead)
  have hlive : r.task ∈ (s.nodes n).live := htask ▸ h.live n r.call hopen hactive
  obtain ⟨free', hinv'⟩ := hinv.release hlive hr
  have hconfig := TecArena_release_config (s.nodes n).arena s.mem r.task
  rw [hr] at hconfig
  have hwrite : ∀ a, a < (s.calls r.call).task ∨ (s.calls r.call).task + TecTask_size ≤ a →
      m a = s.mem a := by
    intro a ha
    rw [htask] at ha
    have hsize : TecTask_size = 48 := rfl
    exact TecArena_release_frame hr a (by omega)
  have hnodup := h.nodup n
  rw [htasks, List.map_cons, List.nodup_cons] at hnodup
  have hback : ∀ k d, t.Active k d → s.Active k d ∧ (k = n → d ≠ r.call) := by
    intro k d hd
    rw [State.Active, hcalls] at hd
    rcases hd with hd | hd
    · refine ⟨.inl hd, ?_⟩
      rintro _ rfl
      rw [hreturned] at hd
      exact hd.1
    · by_cases hk : k = n
      · subst hk
        refine ⟨.inr ?_, fun _ hdr => hnodup.1 (hdr ▸ hd)⟩
        rw [htasks]
        exact List.mem_cons_of_mem _ hd
      · rw [hnodes k hk] at hd
        exact ⟨.inr hd, fun hkn => absurd hkn hk⟩
  have harenas : Arenas self t := by
    refine h.change (n := n) ?_ ?_ ?_ ?_ ?_ ?_
    · intro k hk
      rw [State.view, hnodes k hk]
      rfl
    · intro k hk
      rw [hnodes k hk]
    · rw [hnode]
      exact hconfig.2.1.trans (h.elem_size n)
    · intro _
      rw [State.view, hnode, hmem]
      exact ⟨free', hinv'⟩
    · intro a ha
      have hold : (s.view n).Owned a := by
        rw [State.view, hnode, hmem] at ha
        rcases ha with hin | ⟨p, hp, hlo, hhi⟩
        · exact .inl ((inside_config hconfig).mp hin)
        · exact .inr ⟨p, List.mem_of_mem_erase hp, hlo, hconfig.2.1 ▸ hhi⟩
      exact ⟨h.payload n a hold, fun k hk hk' => h.apart k n a hk hk' hold⟩
    · intro k a hk ha
      rw [hmem]
      apply hwrite
      by_contra hin
      exact h.apart k n a hk ha (h.record_owned hopen hactive (by omega) (by omega))
  have hopen' : ∀ k, (t.nodes k).destroyed = (s.nodes k).destroyed := by
    intro k
    by_cases hk : k = n
    · rw [hk, hnode]
    · rw [hnodes k hk]
  have hsub : ∀ k, ((t.nodes k).tasks).Sublist (s.nodes k).tasks := by
    intro k
    by_cases hk : k = n
    · subst hk
      rw [htasks]
      exact List.sublist_cons_self _ _
    · rw [hnodes k hk]
  refine ⟨harenas, ?_, ?_, ?_, ?_, ?_, ?_, ?_⟩
  · rw [hcalls]
    exact h.ndx
  · rw [hcalls]
    exact h.dest
  · intro k r hr
    rw [hcalls]
    exact h.pushed k r ((hsub k).subset hr)
  · intro k
    exact (h.nodup k).sublist ((hsub k).map _)
  · intro k d hk hd
    rw [hopen'] at hk
    obtain ⟨hold, hne⟩ := hback k d hd
    have hmem' := h.live k d hk hold
    rw [hcalls]
    by_cases hkn : k = n
    · subst hkn
      have hdr : (s.calls d).task ≠ r.task := by
        intro heq
        exact hne rfl (h.inj _ d r.call hk hold hactive (heq.trans htask.symm))
      rw [hnode]
      exact (List.mem_erase_of_ne hdr).mpr hmem'
    · rw [hnodes k hkn]
      exact hmem'
  · intro k d d' hk hd hd' heq
    rw [hopen'] at hk
    rw [hcalls] at heq
    exact h.inj k d d' hk (hback k d hd).1 (hback k d' hd').1 heq
  · intro k d hk hd
    rw [hopen'] at hk
    obtain ⟨hold, hne⟩ := hback k d hd
    rw [hcalls, hmem]
    by_cases hdr : d = r.call
    · subst hdr
      have hkn := (h.active_pc hold).2.symm.trans (h.active_pc hactive).2
      exact absurd rfl (hne hkn)
    · refine h.stored_other hfits hk hold ?_
      intro a hlo hhi
      exact hwrite a (h.record_other hopen hk hactive hold (Ne.symm hdr) (by omega) hhi)

/-- `TecTaskNode_done` takes the arena and the tasks that are left. -/
theorem destroy (h : TaskInv self request s) (hmem : t.mem = s.mem)
    (hnode : t.nodes n = { s.nodes n with
      arena := { (s.nodes n).arena with buf := 0 }
      live := []
      destroyed := true })
    (hnodes : ∀ k, k ≠ n → t.nodes k = s.nodes k) (hcalls : t.calls = s.calls) :
    TaskInv self request t := by
  have hne : ∀ k, (t.nodes k).destroyed = false → k ≠ n := by
    rintro k hk rfl
    rw [hnode] at hk
    cases hk
  have htasks : ∀ k, (t.nodes k).tasks = (s.nodes k).tasks := by
    intro k
    by_cases hk : k = n
    · rw [hk, hnode]
      rfl
    · rw [hnodes k hk]
  have hback : ∀ k d, t.Active k d → s.Active k d := by
    intro k d hd
    rw [State.Active, htasks, hcalls] at hd
    exact hd
  have harenas : Arenas self t := by
    refine h.change (n := n) ?_ ?_ ?_ ?_ ?_ ?_
    · intro k hk
      rw [State.view, hnodes k hk]
      rfl
    · intro k hk
      rw [hnodes k hk]
    · rw [hnode]
      exact h.elem_size n
    · intro hopen
      exact absurd rfl (hne n hopen)
    · intro a ha
      rw [State.view, hnode] at ha
      rcases ha with ⟨hlo, hhi⟩ | ⟨p, hp, _⟩
      · change a < 0 + 0 * _ at hhi
        omega
      · cases hp
    · intro k a _ _
      rw [hmem]
  refine ⟨harenas, ?_, ?_, ?_, ?_, ?_, ?_, ?_⟩
  · rw [hcalls]
    exact h.ndx
  · rw [hcalls]
    exact h.dest
  · intro k r hr
    rw [htasks] at hr
    rw [hcalls]
    exact h.pushed k r hr
  · intro k
    rw [htasks]
    exact h.nodup k
  · intro k d hk hd
    have hkn := hne k hk
    rw [hnodes k hkn] at hk ⊢
    rw [hcalls]
    exact h.live k d hk (hback k d hd)
  · intro k d d' hk hd hd' heq
    rw [hnodes k (hne k hk)] at hk
    rw [hcalls] at heq
    exact h.inj k d d' hk (hback k d hd) (hback k d' hd') heq
  · intro k d hk hd
    rw [hnodes k (hne k hk)] at hk
    rw [hcalls, hmem]
    exact h.stored k d hk (hback k d hd)

end TaskInv

end Tecc.ThrPool
