import Tecc.Lib.Machine
import Tecc.Lib.Block

/-! The expandable byte buffer of tecc_buffer.c. Sums and conversions have the widths of
their C types; an access outside the allocated block is a fault. -/
namespace Tecc.Buffer

open Machine Block

/-- How a call can go wrong instead of returning. -/
inductive Fault where
  | outOfBounds
  | divisionByZero
  | diverges
deriving DecidableEq, Repr

structure TecBuffer where
  data : Option (List UInt8)
  pos : Int
  size : Nat
  capacity : Nat
  block_size : Nat
deriving DecidableEq, Repr

def TECC_BUFFER_BLOCK_SIZE : Nat := 80
def TECC_EOB : Int := -1

def kTecSeekCur : Int := 0
def kTecSeekSet : Int := 1
def kTecSeekEnd : Int := 2

/-- `memcpy(data + pos, src, len)`. -/
def memcpy_to (data : Option (List UInt8)) (pos : Int) (src : List UInt8) (len : Nat) :
    Except Fault (Option (List UInt8)) :=
  if len = 0 then .ok data
  else
    match data with
    | none => .error .outOfBounds
    | some block =>
      if 0 ≤ pos ∧ len ≤ src.length ∧ pos.toNat + len ≤ block.length then
        .ok (some (blit block pos.toNat (src.take len)))
      else .error .outOfBounds

/-- `memcpy(dst, data + pos, len)`: the bytes copied to `dst`. -/
def memcpy_from (data : Option (List UInt8)) (pos : Int) (len : Nat) :
    Except Fault (List UInt8) :=
  if len = 0 then .ok []
  else
    match data with
    | none => .error .outOfBounds
    | some block =>
      if 0 ≤ pos ∧ pos.toNat + len ≤ block.length then
        .ok ((block.drop pos.toNat).take len)
      else .error .outOfBounds

/-- `calloc` tells whether the allocation of this call succeeds. -/
def realloc_buffer (calloc : Bool) (buf : TecBuffer) (new_capacity : Nat) :
    Except Fault (TecBuffer × Bool) :=
  if new_capacity ≤ buf.capacity then .ok (buf, true)
  else if calloc = false then .ok (buf, false)
  else
    let new_data := List.replicate new_capacity 0
    match buf.data with
    | none => .ok ({ buf with capacity := new_capacity, data := some new_data }, true)
    | some old_data => do
      let bytes ← memcpy_from (some old_data) 0 buf.size
      let new_data ← memcpy_to (some new_data) 0 bytes buf.size
      .ok ({ buf with capacity := new_capacity, data := new_data }, true)

/-- The loop `while (new_capacity < buf->capacity) new_capacity += buf->block_size`. -/
def raise_capacity (capacity block_size : Nat) : Nat → Nat → Except Fault Nat
  | 0, new_capacity => if new_capacity < capacity then .error .diverges else .ok new_capacity
  | fuel + 1, new_capacity =>
    if new_capacity < capacity then
      raise_capacity capacity block_size fuel (toSize (new_capacity + block_size))
    else .ok new_capacity

/-- `new_capacity` before the correction loop. -/
def grown_capacity (buf : TecBuffer) (pos : Int) (len : Nat) : Except Fault Nat :=
  if buf.capacity ≠ 0 then
    if buf.block_size = 0 then .error .divisionByZero
    else .ok (toSize (buf.capacity + toSize (pos + len) / buf.block_size * buf.block_size))
  else .ok buf.block_size

/-- A failed reallocation only calls the error handler, which is not modelled. -/
def ensure_capacity (calloc : Bool) (buf : TecBuffer) (pos : Int) (len : Nat) :
    Except Fault TecBuffer :=
  if toSize (pos + len) ≤ buf.capacity then .ok buf
  else do
    let new_capacity ← grown_capacity buf pos len
    -- Every value of a 64-bit counter has been seen after 2^64 rounds.
    let new_capacity ←
      raise_capacity buf.capacity buf.block_size 18446744073709551616 new_capacity
    let r ← realloc_buffer calloc buf new_capacity
    .ok r.1

def TecBuffer_init_ (calloc : Bool) (initial_size block_size : Nat) : Except Fault TecBuffer :=
  let buf : TecBuffer :=
    { data := none
      pos := 0
      size := 0
      capacity := 0
      block_size := if block_size = 0 then TECC_BUFFER_BLOCK_SIZE else block_size }
  if initial_size ≠ 0 then ensure_capacity calloc buf buf.pos initial_size else .ok buf

def TecBuffer_create_ (calloc : Bool) (initial_size block_size : Nat) : Except Fault TecBuffer :=
  TecBuffer_init_ calloc initial_size block_size

def TecBuffer_done (buf : TecBuffer) : TecBuffer :=
  { buf with data := none, pos := 0, size := 0, capacity := 0 }

/-- Writes the first `len` bytes of `src`; returns the number of bytes written. -/
def TecBuffer_write (calloc : Bool) (buf : TecBuffer) (src : List UInt8) (len : Nat) :
    Except Fault (TecBuffer × Nat) :=
  if len = 0 then .ok (buf, 0)
  else do
    let pos := buf.pos
    let buf ← ensure_capacity calloc buf pos len
    let data ← memcpy_to buf.data pos src len
    let pos := toLong (pos + len)
    let size := if toSize pos > buf.size then toSize pos else buf.size
    .ok ({ buf with data := data, size := size, pos := pos }, len)

/-- Returns the number of bytes read, and the bytes copied to `dst`. -/
def TecBuffer_read (buf : TecBuffer) (len : Nat) :
    Except Fault (TecBuffer × Nat × List UInt8) :=
  if len = 0 then .ok (buf, 0, [])
  else do
    let len := if toSize (buf.pos + len) > buf.size then toSize (buf.size - buf.pos) else len
    let bytes ← memcpy_from buf.data buf.pos len
    .ok ({ buf with pos := toLong (buf.pos + len) }, len, bytes)

def TecBuffer_rewind (buf : TecBuffer) : TecBuffer := { buf with pos := 0 }

def TecBuffer_seek (buf : TecBuffer) (offset origin : Int) : TecBuffer × Int :=
  let new_pos :=
    if origin = kTecSeekSet then offset
    else if origin = kTecSeekCur then toLong (buf.pos + offset)
    else toLong (buf.size + offset)
  if new_pos < 0 ∨ toSize new_pos > buf.size then (buf, TECC_EOB)
  else ({ buf with pos := new_pos }, 0)

/-- `data[i] == 0`. -/
def byte_is_nul (data : Option (List UInt8)) (i : Int) : Except Fault Bool :=
  match data with
  | none => .error .outOfBounds
  | some block =>
    if 0 ≤ i then
      match block[i.toNat]? with
      | none => .error .outOfBounds
      | some b => .ok (b = 0)
    else .error .outOfBounds

/-- `pos > 0 && data[pos-1] == 0`. -/
def ends_with_nul (data : Option (List UInt8)) (pos : Int) : Except Fault Bool :=
  if pos > 0 then byte_is_nul data (pos - 1) else .ok false

/-- `str` holds the characters before the terminator, `none` is the null pointer. The two
flags are the outcomes of the allocations made here and inside the final write. -/
def TecBuffer_puts (calloc calloc' : Bool) (buf : TecBuffer) (str : Option (List UInt8)) :
    Except Fault (TecBuffer × Nat) :=
  match str with
  | none => .ok (buf, 0)
  | some str =>
    let len := toInt str.length
    if len = 0 then .ok (buf, 0)
    else do
      let pos := buf.pos
      let count := toSize (toInt (len + 1))
      let buf ← ensure_capacity calloc buf pos count
      let back ← ends_with_nul buf.data pos
      let pos := if back then pos - 1 else pos
      let size := if back ∧ buf.size ≠ 0 then buf.size - 1 else buf.size
      TecBuffer_write calloc' { buf with size := size, pos := pos } (str ++ [0]) count

end Tecc.Buffer
