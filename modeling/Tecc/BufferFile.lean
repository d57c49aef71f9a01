import Tecc.BufferCapacity
import Tecc.Lib.Object

/-! The buffer as an in-memory file: a list of bytes and a cursor. -/
namespace Tecc.Buffer

open Block

/-- The calls of the file interface. -/
inductive FileOp where
  | write (src : List UInt8)
  | read (len : Nat)
  | seek (offset origin : Int)
  | rewind
deriving DecidableEq, Repr

def FileOp.toOp : FileOp → Op
  | .write src => .write src
  | .read len => .read len
  | .seek offset origin => .seek offset origin
  | .rewind => .rewind

/-- What a caller sees after a call. -/
structure Observation where
  result : Int
  bytes_read : List UInt8
  tell : Int
  size : Nat
  contents : List UInt8
deriving DecidableEq, Repr

/-- A call of the code's buffer, with what can be observed after it. -/
def observe (buf : TecBuffer) (op : FileOp) : Except Fault (TecBuffer × Observation) :=
  match exec buf op.toOp with
  | .error e => .error e
  | .ok (buf', result, bytes) =>
    .ok (buf', ⟨result, bytes, buf'.pos, buf'.size, buf'.contents⟩)

/-- The abstract file. -/
structure MemFile where
  bytes : List UInt8
  cursor : Nat
deriving DecidableEq, Repr

namespace MemFile

variable (f : MemFile)

/-- Overwrites from the cursor and extends at the end. -/
def write (src : List UInt8) : MemFile :=
  ⟨blit f.bytes f.cursor src, f.cursor + src.length⟩

/-- The bytes from the cursor on, at most `len` of them. -/
def ahead (len : Nat) : List UInt8 := (f.bytes.drop f.cursor).take len

def base (origin : Int) : Int :=
  if origin = kTecSeekSet then 0 else if origin = kTecSeekCur then f.cursor else f.bytes.length

/-- The cursor moves exactly when the target lies in the file. -/
def seek (offset origin : Int) : MemFile × Int :=
  if 0 ≤ f.base origin + offset ∧ f.base origin + offset ≤ f.bytes.length then
    (⟨f.bytes, (f.base origin + offset).toNat⟩, 0)
  else (f, TECC_EOB)

def step : FileOp → MemFile × Int × List UInt8
  | .write src => (f.write src, src.length, [])
  | .read len => (⟨f.bytes, f.cursor + (f.ahead len).length⟩, (f.ahead len).length, f.ahead len)
  | .seek offset origin => ((f.seek offset origin).1, (f.seek offset origin).2, [])
  | .rewind => (⟨f.bytes, 0⟩, 0, [])

def observe (op : FileOp) : MemFile × Observation :=
  ((f.step op).1, ⟨(f.step op).2.1, (f.step op).2.2, (f.step op).1.cursor,
    (f.step op).1.bytes.length, (f.step op).1.bytes⟩)

/-- No machine overflow: the end of a write fits a `long`, the sum of a read a `size_t`,
and an offset is a `long`. -/
def Fits : FileOp → Prop
  | .write src => f.cursor + src.length < 9223372036854775808
  | .read len => f.cursor + len < 18446744073709551616
  | .seek offset _ => -9223372036854775808 ≤ offset ∧ offset < 9223372036854775808
  | .rewind => True

end MemFile

/-- The buffer stands for the file. -/
structure Represents (buf : TecBuffer) (f : MemFile) : Prop extends Roomy buf where
  capacity_ne : buf.capacity ≠ 0
  contents_eq : buf.contents = f.bytes
  pos_eq : buf.pos = f.cursor
  size_lt : f.bytes.length < 9223372036854775808

variable {buf : TecBuffer} {f : MemFile}

theorem Represents.size_eq (h : Represents buf f) : buf.size = f.bytes.length := by
  rw [← h.contents_eq, h.contents_length]

theorem Represents.cursor_le (h : Represents buf f) : f.cursor ≤ f.bytes.length := by
  have hps := h.pos_le
  have hpe := h.pos_eq
  have hse := h.size_eq
  omega

/-- Moving the cursor inside the file needs no more than the position. -/
theorem Represents.move (h : Represents buf f) {p : Int} (h0 : 0 ≤ p)
    (hp : p ≤ f.bytes.length) : Represents { buf with pos := p } ⟨f.bytes, p.toNat⟩ := by
  have hse := h.size_eq
  exact
    { pos_nonneg := h0
      pos_le := by simp only; omega
      size_le := h.size_le
      block_length := h.block_length
      block_pos := h.block_pos
      block_le := h.block_le
      capacity_ne := h.capacity_ne
      contents_eq := h.contents_eq
      pos_eq := by simp only; omega
      size_lt := h.size_lt }

/-- The observation after a call that returns in a represented state. -/
theorem observe_of_exec {op : FileOp} (buf' : TecBuffer) {r : Int × List UInt8}
    (h : exec buf op.toOp = .ok (buf', r)) (hr : Represents buf' (f.step op).1)
    (h1 : r = (f.step op).2) :
    ∃ buf', observe buf op = .ok (buf', (f.observe op).2) ∧
      Represents buf' (f.observe op).1 := by
  refine ⟨buf', ?_, hr⟩
  simp only [observe, h, MemFile.observe, ← h1, hr.pos_eq, hr.size_eq, hr.contents_eq]

theorem write_refines (h : Represents buf f) {src : List UInt8} (hfit : f.Fits (.write src)) :
    ∃ buf', observe buf (.write src) = .ok (buf', (f.observe (.write src)).2) ∧
      Represents buf' (f.observe (.write src)).1 := by
  have hpe := h.pos_eq
  have hse := h.size_eq
  have hcl := h.cursor_le
  have hlt := h.size_lt
  simp only [MemFile.Fits] at hfit
  obtain ⟨buf', hw, hwr⟩ := TecBuffer_write_spec h.toRoomy src (by omega)
    (Or.inl h.capacity_ne)
  have hcur : buf.pos.toNat = f.cursor := by omega
  have hbytes : buf'.contents = blit f.bytes f.cursor src := by
    rw [hwr.contents_eq, h.contents_eq, hcur]
  have hlen : (blit f.bytes f.cursor src).length = max f.bytes.length (f.cursor + src.length) :=
    length_blit hcl
  refine observe_of_exec buf' (r := (src.length, [])) ?_ ?_ rfl
  · simp only [FileOp.toOp, exec, hw, bind, Except.bind]
  · exact
      { toRoomy := hwr.toRoomy
        capacity_ne := hwr.capacity_ne h.capacity_ne
        contents_eq := hbytes
        pos_eq := by rw [hwr.pos_eq, hpe]; simp [MemFile.step, MemFile.write]
        size_lt := by simp only [MemFile.step, MemFile.write, hlen]; omega }

theorem read_refines (h : Represents buf f) {len : Nat} (hfit : f.Fits (.read len)) :
    ∃ buf', observe buf (.read len) = .ok (buf', (f.observe (.read len)).2) ∧
      Represents buf' (f.observe (.read len)).1 := by
  have hpe := h.pos_eq
  have hse := h.size_eq
  have hcl := h.cursor_le
  have hlt := h.size_lt
  simp only [MemFile.Fits] at hfit
  have hread := TecBuffer_read_spec h.toRepresented len (by omega) (by omega)
  have hcur : buf.pos.toNat = f.cursor := by omega
  have hmin : (f.ahead len).length = min len (buf.size - f.cursor) := by
    simp [MemFile.ahead, hse]
  have hbytes : (buf.contents.drop f.cursor).take (min len (buf.size - f.cursor)) =
      f.ahead len := by
    rw [h.contents_eq, hse, MemFile.ahead, List.take_eq_take_iff, List.length_drop]
    omega
  rw [hcur, hbytes, ← hmin, hpe] at hread
  refine observe_of_exec { buf with pos := f.cursor + ((f.ahead len).length : Nat) }
    (r := ((f.ahead len).length, f.ahead len)) ?_ ?_ rfl
  · simp only [FileOp.toOp, exec, hread, bind, Except.bind]
  · have hmove := h.move (p := f.cursor + ((f.ahead len).length : Nat)) (by omega) (by omega)
    have htoNat : ((f.cursor : Int) + ((f.ahead len).length : Nat)).toNat =
        f.cursor + (f.ahead len).length := by omega
    rw [htoNat] at hmove
    exact hmove

theorem seek_refines (h : Represents buf f) {offset origin : Int}
    (hfit : f.Fits (.seek offset origin)) :
    ∃ buf', observe buf (.seek offset origin) = .ok (buf', (f.observe (.seek offset origin)).2) ∧
      Represents buf' (f.observe (.seek offset origin)).1 := by
  have hse := h.size_eq
  have hlt := h.size_lt
  have hseek := TecBuffer_seek_spec h.pos_nonneg h.pos_le (by omega) offset origin hfit.1 hfit.2
  have htarget : seek_target buf offset origin = f.base origin + offset := by
    simp only [seek_target, MemFile.base, h.pos_eq, hse]
  rw [htarget] at hseek
  by_cases hin : 0 ≤ f.base origin + offset ∧ f.base origin + offset ≤ f.bytes.length
  · rw [if_pos (by rw [hse]; exact hin)] at hseek
    refine observe_of_exec { buf with pos := f.base origin + offset } (r := (0, []))
      ?_ ?_ ?_
    · simp only [FileOp.toOp, exec, hseek]
    · simpa only [MemFile.step, MemFile.seek, if_pos hin] using h.move hin.1 hin.2
    · simp only [MemFile.step, MemFile.seek, if_pos hin]
  · rw [if_neg (by rw [hse]; exact hin)] at hseek
    refine observe_of_exec buf (r := (TECC_EOB, [])) ?_ ?_ ?_
    · simp only [FileOp.toOp, exec, hseek]
    · simpa only [MemFile.step, MemFile.seek, if_neg hin] using h
    · simp only [MemFile.step, MemFile.seek, if_neg hin]

/-- One call of the buffer is one call of the file. -/
theorem observe_refines (h : Represents buf f) {op : FileOp} (hfit : f.Fits op) :
    ∃ buf', observe buf op = .ok (buf', (f.observe op).2) ∧ Represents buf' (f.observe op).1 := by
  cases op with
  | write src => exact write_refines h hfit
  | read len => exact read_refines h hfit
  | seek offset origin => exact seek_refines h hfit
  | rewind => exact observe_of_exec _ rfl (h.move (Int.le_refl 0) (by omega)) rfl

theorem init_represents (initial_size block_size : Nat) (hne : initial_size ≠ 0)
    (hi : initial_size < 18446744073709551616) :
    ∃ buf, TecBuffer_init_ true initial_size block_size = .ok buf ∧ Represents buf ⟨[], 0⟩ := by
  obtain ⟨buf, hb, hr, hpos, hsize, hc⟩ := TecBuffer_init_spec initial_size block_size hi
  refine ⟨buf, hb, hr, hc hne, ?_, hpos, by simp⟩
  simp [TecBuffer.contents, hsize]

theorem runs_represent (initial_size block_size : Nat) (hne : initial_size ≠ 0)
    (hi : initial_size < 18446744073709551616) (ops : List FileOp)
    (hfit : Object.SpecAllowed MemFile.observe MemFile.Fits ⟨[], 0⟩ ops) :
    ∃ buf buf', TecBuffer_init_ true initial_size block_size = .ok buf ∧
      Object.run observe buf ops =
        .ok (buf', (Object.specRun MemFile.observe ⟨[], 0⟩ ops).2) ∧
      Represents buf' (Object.specRun MemFile.observe ⟨[], 0⟩ ops).1 := by
  obtain ⟨buf, hb, hr⟩ := init_represents initial_size block_size hne hi
  have hsim : ∃ buf', Object.run observe buf ops =
      .ok (buf', (Object.specRun MemFile.observe ⟨[], 0⟩ ops).2) ∧
      Represents buf' (Object.specRun MemFile.observe ⟨[], 0⟩ ops).1 :=
    Object.run_simulation (C := fun _ _ => True) (D := MemFile.Fits)
      (fun _ _ _ hR _ hD => observe_refines hR hD) hr
      (Object.allowed_of_forall (fun _ _ => trivial) ops buf) hfit
  obtain ⟨buf', hrun, hr'⟩ := hsim
  exact ⟨buf, buf', hb, hrun, hr'⟩

/-- A buffer with memory behaves as the file does, over every sequence of calls. -/
theorem buffer_refines_file (initial_size block_size : Nat) (hne : initial_size ≠ 0)
    (hi : initial_size < 18446744073709551616) (ops : List FileOp)
    (hfit : Object.SpecAllowed MemFile.observe MemFile.Fits ⟨[], 0⟩ ops) :
    ∃ buf buf', TecBuffer_init_ true initial_size block_size = .ok buf ∧
      Object.run observe buf ops =
        .ok (buf', (Object.specRun MemFile.observe ⟨[], 0⟩ ops).2) := by
  obtain ⟨buf, buf', hb, hrun, _⟩ := runs_represent initial_size block_size hne hi ops hfit
  exact ⟨buf, buf', hb, hrun⟩

/-- Growth over a block of 4 bytes, an overwrite that extends, and a clamped read. -/
theorem buffer_refines_file_overwrite :
    ∃ buf buf', TecBuffer_init_ true 1 4 = .ok buf ∧
      Object.run observe buf [.write [1, 2, 3], .seek (-2) kTecSeekCur, .write [7, 8, 9],
          .seek 9 kTecSeekEnd, .seek 0 kTecSeekSet, .read 10] =
        .ok (buf', [⟨3, [], 3, 3, [1, 2, 3]⟩, ⟨0, [], 1, 3, [1, 2, 3]⟩, ⟨3, [], 4, 4, [1, 7, 8, 9]⟩,
          ⟨-1, [], 4, 4, [1, 7, 8, 9]⟩, ⟨0, [], 0, 4, [1, 7, 8, 9]⟩,
          ⟨4, [1, 7, 8, 9], 4, 4, [1, 7, 8, 9]⟩]) :=
  buffer_refines_file 1 4 (by decide) (by decide) [.write [1, 2, 3], .seek (-2) kTecSeekCur,
    .write [7, 8, 9], .seek 9 kTecSeekEnd, .seek 0 kTecSeekSet, .read 10] (by
      simp [Object.SpecAllowed, MemFile.Fits, MemFile.observe, MemFile.step, MemFile.write,
        MemFile.seek, MemFile.base, blit, kTecSeekCur, kTecSeekSet, kTecSeekEnd])

end Tecc.Buffer
