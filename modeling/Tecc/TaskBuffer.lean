import Tecc.BufferLimits
import Tecc.ThrPool

/-! The buffer that `task_func` puts together for a task of the pool, and what the task can do
with it. -/
namespace Tecc.ThrPool

open Machine Memory Buffer

variable {self : TecThrPool} {buf buf' : TecBuffer} {m : Mem} {ndx len : Nat}

/-- The calls of a task on its argument `buf`. -/
inductive TaskOp where
  | seek (offset origin : Int)
  | read (len : Nat)
  | write (src : List UInt8)
  | puts (str : Option (List UInt8))
deriving DecidableEq, Repr

def TaskOp.toOp : TaskOp → Op
  | .seek offset origin => .seek offset origin
  | .read len => .read len
  | .write src => .write src
  | .puts str => .puts str

/-- The offset of a seek is a `long`. -/
def TaskOp.Typed : TaskOp → Prop
  | .seek offset _ => -9223372036854775808 ≤ offset ∧ offset < 9223372036854775808
  | .read _ | .write _ | .puts _ => True

def TaskOp.writes : TaskOp → Bool
  | .write _ | .puts _ => true
  | .seek _ _ | .read _ => false

/-- `TecBuffer buf = {0}` and the three assignments of `task_func`. -/
def task_func_buf (self : TecThrPool) (m : Mem) (ndx : Nat) : TecBuffer where
  data :=
    if self.task_buffer ndx = 0 then none
    else some ((List.range self.task_buffer_size).map fun i => m (self.task_buffer ndx + i))
  pos := 0
  size := self.task_buffer_size
  capacity := self.task_buffer_size
  block_size := 0

/-- One call of a task, with every allocation succeeding. -/
def task_step (buf : TecBuffer) (op : TaskOp) : Except Fault (TecBuffer × Int × List UInt8) :=
  exec buf op.toOp

/-- The call does not divide by zero, and if it writes, it stores no byte past the capacity. -/
def Harmless (buf : TecBuffer) (op : TaskOp) : Prop :=
  task_step buf op ≠ .error .divisionByZero ∧
    (op.writes = true → task_step buf op ≠ .error .outOfBounds)

/-- The call writes no more bytes than the capacity has behind the cursor. -/
def Room (buf : TecBuffer) : TaskOp → Prop
  | .write src => buf.pos + src.length ≤ buf.capacity
  | .puts (some str) => toInt str.length = 0 ∨ buf.pos + puts_count str ≤ buf.capacity
  | .seek _ _ | .read _ | .puts none => True

/-- What the calls of a task keep. -/
structure TaskBuffer (buf : TecBuffer) : Prop extends Represented buf where
  no_block : buf.block_size = 0
  capacity_lt : buf.capacity < 9223372036854775808

/-- Growth of a buffer without a block size divides by zero, or allocates nothing. -/
theorem ensure_capacity_no_block (h : TaskBuffer buf) (len : Nat) :
    ((NeedsGrowth buf len → buf.capacity = 0) ∧
      ensure_capacity true buf buf.pos len = .ok buf) ∨
    ensure_capacity true buf buf.pos len = .error .divisionByZero := by
  by_cases hfit : toSize (buf.pos + len) ≤ buf.capacity
  · exact .inl ⟨fun hgrow => absurd hfit hgrow, if_pos hfit⟩
  · by_cases hc : buf.capacity = 0
    · have hgrown : grown_capacity buf buf.pos len = .ok 0 := by
        simp [grown_capacity, hc, h.no_block]
      refine .inl ⟨fun _ => hc, ?_⟩
      rw [ensure_capacity, if_neg hfit, hgrown, Object.ok_bind,
        raise_capacity_of_le (by omega), Object.ok_bind, realloc_buffer, if_pos (Nat.zero_le _)]
      rfl
    · have hgrown : grown_capacity buf buf.pos len = .error .divisionByZero := by
        simp [grown_capacity, hc, h.no_block]
      refine .inr ?_
      rw [ensure_capacity, if_neg hfit, hgrown]
      rfl

/-- The two ways in which a write of a task can fail. -/
def WriteFault (e : Fault) : Prop := e = .divisionByZero ∨ e = .outOfBounds

theorem write_room {src : List UInt8} (h : TaskBuffer buf) (hsrc : len ≤ src.length)
    (hroom : buf.pos + len ≤ buf.capacity) :
    ∃ buf', TecBuffer_write true buf src len = .ok (buf', len) ∧ TaskBuffer buf' := by
  have hlt := h.capacity_lt
  have htake : (src.take len).length = len := List.length_take_of_le hsrc
  obtain ⟨buf', hw, hin⟩ := @TecBuffer_write_inside buf (src.take len) true h.toRepresented
    (by omega) (by omega)
  rw [htake, ← TecBuffer_write_take hsrc] at hw
  refine ⟨buf', hw, hin.toRepresented, ?_, ?_⟩
  · exact hin.block_size_eq.trans h.no_block
  · rw [hin.capacity_eq]
    exact hlt

/-- Without room the write divides by zero or leaves the block. -/
theorem write_no_room {src : List UInt8} (h : TaskBuffer buf)
    (hroom : ¬ buf.pos + len ≤ buf.capacity) :
    ∃ e, TecBuffer_write true buf src len = .error e ∧ WriteFault e := by
  have hps := h.pos_le
  have hsc := h.size_le
  have hlen : len ≠ 0 := by omega
  rcases ensure_capacity_no_block h len with ⟨_, hens⟩ | hens
  · cases hcpy : memcpy_to buf.data buf.pos src len with
    | error e =>
      refine ⟨e, ?_, .inr (memcpy_to_error hcpy)⟩
      simp only [TecBuffer_write, if_neg hlen, hens, hcpy, bind, Except.bind]
    | ok data =>
      obtain ⟨block, hdata, hpos, hin⟩ := memcpy_to_bounds hlen hcpy
      have hbl := length_of_data hdata h.block_length
      omega
  · refine ⟨.divisionByZero, ?_, .inl rfl⟩
    simp only [TecBuffer_write, if_neg hlen, hens, bind, Except.bind]

theorem step_back_task (h : TaskBuffer buf) : TaskBuffer (step_back buf) := by
  have hps := h.pos_le
  have hsc := h.size_le
  unfold step_back
  split
  · exact ⟨⟨by simp only; omega, by simp only; omega, by simp only; omega, h.block_length⟩,
      h.no_block, h.capacity_lt⟩
  · exact h

theorem puts_room {str : List UInt8} (h : TaskBuffer buf) (hroom : Room buf (.puts (some str))) :
    ∃ buf' n, TecBuffer_puts true true buf (some str) = .ok (buf', n) ∧ TaskBuffer buf' := by
  have hpos := h.pos_nonneg
  have hlt := h.capacity_lt
  by_cases hz : toInt str.length = 0
  · exact ⟨buf, 0, by simp [TecBuffer_puts, hz], h⟩
  · have hfit : buf.pos + puts_count str ≤ buf.capacity := hroom.resolve_left hz
    have hens : ensure_capacity true buf buf.pos (puts_count str) = .ok buf :=
      if_pos (by unfold toSize; omega)
    have hsrc : puts_count str ≤ (str ++ [0]).length := by
      rw [List.length_append, List.length_singleton]
      unfold puts_count toSize toInt at *
      omega
    have hback := step_back_pos_le buf
    obtain ⟨buf', hw, htask⟩ := write_room (step_back_task h) hsrc
      (by rw [step_back_capacity]; omega)
    exact ⟨buf', _, (TecBuffer_puts_behind hz rfl hens h.toRepresented rfl).trans hw, htask⟩

theorem puts_no_room {str : List UInt8} (h : TaskBuffer buf)
    (hroom : ¬ Room buf (.puts (some str))) :
    ∃ e, TecBuffer_puts true true buf (some str) = .error e ∧ WriteFault e := by
  have hpos := h.pos_nonneg
  have hps := h.pos_le
  have hsc := h.size_le
  have hlt := h.capacity_lt
  obtain ⟨hz, hfit⟩ := not_or.mp hroom
  rcases ensure_capacity_no_block h (puts_count str) with ⟨hgrow, hens⟩ | hens
  · rw [TecBuffer_puts_behind hz rfl hens h.toRepresented rfl]
    refine write_no_room (step_back_task h) ?_
    rw [step_back_capacity]
    -- One byte is won by stepping back, and growth was asked for before.
    intro hin
    change (step_back buf).pos + puts_count str ≤ buf.capacity at hin
    have hback : buf.pos - 1 ≤ (step_back buf).pos ∧ 0 ≤ (step_back buf).pos := by
      refine ⟨?_, (step_back_task h).pos_nonneg⟩
      unfold step_back
      split
      · exact Int.le_refl _
      · omega
    have hcount := toSize_lt (toInt (toInt str.length + 1))
    have hneeds : NeedsGrowth buf (puts_count str) := by
      unfold NeedsGrowth toSize
      change puts_count str < _ at hcount
      omega
    have hzero := hgrow hneeds
    omega
  · refine ⟨.divisionByZero, ?_, .inl rfl⟩
    simp only [TecBuffer_puts, if_neg hz]
    change (ensure_capacity true buf buf.pos (puts_count str) >>= _) = _
    rw [hens]
    rfl

/-- A read that returns leaves the cursor in the buffer. -/
theorem read_task {r : Nat × List UInt8} (h : TaskBuffer buf)
    (hok : TecBuffer_read buf len = .ok (buf', r)) : TaskBuffer buf' := by
  have hpos := h.pos_nonneg
  have hps := h.pos_le
  have hsc := h.size_le
  have hlt := h.capacity_lt
  by_cases hz : len = 0
  · rw [TecBuffer_read, if_pos hz] at hok
    cases Except.ok.inj hok
    exact h
  · simp only [TecBuffer_read, if_neg hz] at hok
    generalize hn : (if toSize (buf.pos + len) > buf.size then toSize (buf.size - buf.pos)
      else len) = n at hok
    obtain ⟨bytes, hcpy, hret⟩ := Object.bind_ok hok
    have hin : n = 0 ∨ buf.pos + n ≤ buf.capacity := by
      by_cases hn0 : n = 0
      · exact .inl hn0
      · obtain ⟨block, hdata, _, hin⟩ := memcpy_from_bounds hn0 hcpy
        have hbl := length_of_data hdata h.block_length
        exact .inr (by omega)
    -- A sum that does not wrap is compared with the size.
    have hle : buf.pos + n ≤ buf.size := by
      unfold toSize at hn
      split at hn <;> omega
    have hl : toLong (buf.pos + n) = buf.pos + n := toLong_of_bounds (by omega) (by omega)
    cases Except.ok.inj hret
    refine ⟨⟨?_, ?_, h.size_le, h.block_length⟩, h.no_block, h.capacity_lt⟩
    · simp only [hl]
      omega
    · simp only [hl]
      exact hle

theorem read_fault {e : Fault} (hok : TecBuffer_read buf len = .error e) : e = .outOfBounds := by
  by_cases hz : len = 0
  · simp only [TecBuffer_read, if_pos hz] at hok
    cases hok
  · simp only [TecBuffer_read, if_neg hz] at hok
    generalize (if toSize (buf.pos + len) > buf.size then toSize (buf.size - buf.pos)
      else len) = n at hok
    cases hcpy : memcpy_from buf.data buf.pos n with
    | error e' =>
      simp only [hcpy, bind, Except.bind, Except.error.injEq] at hok
      rw [← hok]
      exact memcpy_from_error hcpy
    | ok bytes => simp [hcpy, bind, Except.bind] at hok

theorem seek_task {offset origin : Int} (h : TaskBuffer buf)
    (ht : (TaskOp.seek offset origin).Typed) : TaskBuffer (TecBuffer_seek buf offset origin).1 := by
  have hsc := h.size_le
  have hlt := h.capacity_lt
  rw [TecBuffer_seek_spec h.pos_nonneg h.pos_le (by omega) offset origin ht.1 ht.2]
  split
  · rename_i hin
    exact ⟨⟨hin.1, hin.2, h.size_le, h.block_length⟩, h.no_block, h.capacity_lt⟩
  · exact h

/-- A call that returns leaves a buffer of the same kind. -/
theorem task_step_keeps {op : TaskOp} {r : Int × List UInt8} (h : TaskBuffer buf)
    (ht : op.Typed) (hok : task_step buf op = .ok (buf', r)) : TaskBuffer buf' := by
  cases op with
  | seek offset origin =>
    cases Except.ok.inj hok
    exact seek_task h ht
  | read len =>
    obtain ⟨b, hread, hret⟩ := Object.bind_ok hok
    cases Except.ok.inj hret
    exact read_task h hread
  | write src =>
    obtain ⟨b, hw, hret⟩ := Object.bind_ok hok
    cases Except.ok.inj hret
    by_cases hroom : buf.pos + src.length ≤ buf.capacity
    · obtain ⟨buf', hw', htask⟩ := @write_room buf src.length src h (Nat.le_refl _) hroom
      cases Except.ok.inj (hw'.symm.trans hw)
      exact htask
    · obtain ⟨e, he, _⟩ := @write_no_room buf src.length src h hroom
      cases he.symm.trans hw
  | puts str =>
    obtain ⟨b, hp, hret⟩ := Object.bind_ok hok
    cases Except.ok.inj hret
    cases str with
    | none =>
      cases Except.ok.inj hp
      exact h
    | some str =>
      by_cases hroom : Room buf (.puts (some str))
      · obtain ⟨buf', n, hp', htask⟩ := puts_room h hroom
        cases Except.ok.inj (hp'.symm.trans hp)
        exact htask
      · obtain ⟨e, he, _⟩ := puts_no_room h hroom
        cases he.symm.trans hp

/-- A call that returns does no harm. -/
theorem harmless_of_ok {op : TaskOp} {r : TecBuffer × Int × List UInt8}
    (hok : task_step buf op = .ok r) : Harmless buf op := by
  unfold Harmless
  rw [hok]
  exact ⟨by simp, fun _ => by simp⟩

theorem not_harmless_of_fault {op : TaskOp} {e : Fault} (hw : op.writes = true)
    (he : task_step buf op = .error e) (hfault : WriteFault e) : ¬ Harmless buf op := by
  rintro ⟨hdiv, hout⟩
  rcases hfault with rfl | rfl
  · exact hdiv he
  · exact hout hw he

/-- A call does no harm exactly when the capacity has room for what it writes. -/
theorem harmless_iff_room {op : TaskOp} (h : TaskBuffer buf) : Harmless buf op ↔ Room buf op := by
  cases op with
  | seek offset origin =>
    refine ⟨fun _ => trivial, fun _ => ?_⟩
    refine harmless_of_ok (r := ((TecBuffer_seek buf offset origin).1,
      (TecBuffer_seek buf offset origin).2, [])) ?_
    simp only [task_step, TaskOp.toOp, exec]
  | read len =>
    refine ⟨fun _ => trivial, fun _ => ⟨?_, fun hw => absurd hw Bool.false_ne_true⟩⟩
    intro hfault
    cases hread : TecBuffer_read buf len with
    | ok r => simp [task_step, TaskOp.toOp, exec, hread, bind, Except.bind] at hfault
    | error e =>
      have he := read_fault hread
      simp only [task_step, TaskOp.toOp, exec, hread, bind, Except.bind, Except.error.injEq,
        he, reduceCtorEq] at hfault
  | write src =>
    constructor
    · intro hharm
      by_contra hroom
      obtain ⟨e, he, hfault⟩ := @write_no_room buf src.length src h hroom
      refine not_harmless_of_fault rfl ?_ hfault hharm
      simp only [task_step, TaskOp.toOp, exec, he, bind, Except.bind]
    · intro hroom
      obtain ⟨buf', hw, _⟩ := @write_room buf src.length src h (Nat.le_refl _) hroom
      refine harmless_of_ok (r := (buf', src.length, [])) ?_
      simp only [task_step, TaskOp.toOp, exec, hw, bind, Except.bind]
  | puts str =>
    cases str with
    | none =>
      refine ⟨fun _ => trivial, fun _ => ?_⟩
      refine harmless_of_ok (r := (buf, 0, [])) ?_
      simp [task_step, TaskOp.toOp, exec, TecBuffer_puts, bind, Except.bind]
    | some str =>
      constructor
      · intro hharm
        by_contra hroom
        obtain ⟨e, he, hfault⟩ := puts_no_room h hroom
        refine not_harmless_of_fault rfl ?_ hfault hharm
        rw [task_step, TaskOp.toOp, exec, he]
        rfl
      · intro hroom
        obtain ⟨buf', n, hp, _⟩ := puts_room h hroom
        refine harmless_of_ok (r := (buf', n, [])) ?_
        rw [task_step, TaskOp.toOp, exec, hp]
        rfl

theorem task_func_buf_task (self : TecThrPool) (m : Mem) (ndx : Nat)
    (hsize : self.buffer_size < 9223372036854775808) : TaskBuffer (task_func_buf self m ndx) := by
  have hcap : self.task_buffer_size < 9223372036854775808 := by
    unfold TecThrPool.task_buffer_size
    split <;> omega
  refine ⟨⟨Int.le_refl 0, ?_, Nat.le_refl _, ?_⟩, rfl, hcap⟩
  · exact Int.natCast_nonneg _
  · -- A pool without buffers gives a null pointer and the size 0.
    by_cases hnull : self.task_buffer ndx = 0
    · have harena : self.buffer_arena = 0 := by
        unfold TecThrPool.task_buffer at hnull
        split at hnull <;> omega
      simp [TecBuffer.block, task_func_buf, hnull, TecThrPool.task_buffer_size, harena]
    · simp [TecBuffer.block, task_func_buf, hnull]

/-- No call of a sequence divides by zero or stores a byte past the capacity. -/
def Usable (buf : TecBuffer) (ops : List TaskOp) : Prop :=
  Object.Allowed task_step Harmless buf ops

/-- The buffer of a task is usable exactly as long as every write fits the capacity, from the
cursor it finds. -/
theorem task_buffer_usable_iff (self : TecThrPool) (m : Mem) (ndx : Nat) (ops : List TaskOp)
    (hsize : self.buffer_size < 9223372036854775808) (htyped : ∀ op ∈ ops, op.Typed) :
    Usable (task_func_buf self m ndx) ops ↔
      Object.Allowed task_step Room (task_func_buf self m ndx) ops := by
  refine Object.allowed_congr (I := TaskBuffer) (E := TaskOp.Typed) ?_ ?_
    (task_func_buf_task self m ndx hsize) htyped
  · intro buf op buf' r h ht hok
    exact task_step_keeps h ht hok
  · intro buf op h _
    exact harmless_iff_room h

theorem task_buffer_usable_iff_small :
    Usable (task_func_buf ⟨1, 4, 4096, 0, 0⟩ (fun _ => 0) 0) [.write [1, 2], .puts (some [3])] ↔
      Object.Allowed task_step Room (task_func_buf ⟨1, 4, 4096, 0, 0⟩ (fun _ => 0) 0)
        [.write [1, 2], .puts (some [3])] :=
  task_buffer_usable_iff ⟨1, 4, 4096, 0, 0⟩ (fun _ => 0) 0 [.write [1, 2], .puts (some [3])]
    (by decide) (by simp [TaskOp.Typed])

/-- A second byte in a buffer of one byte divides by a block size of zero. -/
theorem task_buffer_not_usable :
    ¬ ∀ self m ndx ops, self.buffer_size < 9223372036854775808 → (∀ op ∈ ops, op.Typed) →
      Usable (task_func_buf self m ndx) ops := by
  intro h
  have huse := h ⟨1, 1, 4096, 0, 0⟩ (fun _ => 0) 0 [.write [1, 2]] (by decide)
    (by simp [TaskOp.Typed])
  have hroom := (harmless_iff_room (task_func_buf_task ⟨1, 1, 4096, 0, 0⟩ (fun _ => 0) 0
    (by decide))).mp huse.1
  exact absurd hroom (by simp [Room, task_func_buf, TecThrPool.task_buffer_size])

end Tecc.ThrPool
