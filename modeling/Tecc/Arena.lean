import Tecc.Lib.Machine
import Tecc.Lib.Memory
import Tecc.Lib.Transition
import Mathlib.Data.List.Nodup

/-! The arena of tecc_arena.c over byte memory. Free elements are linked through their first
bytes; when the block is used up, elements come from the heap. -/
namespace Tecc.Arena

open Machine Memory

/-- `buf` and `free_list` are addresses, 0 is the null pointer. -/
structure TecArena where
  buf : Nat
  elem_size : Nat
  capacity : Nat
  allocated : Nat
  free_list : Nat

def TECC_ARENA_ALLOCATED : Nat := 1

/-- The member `flags` of a `TecArenaElem`, an `unsigned`. -/
def flags (m : Mem) (ptr : Nat) : Nat := load m ptr 4

/-- The member `next` of a `TecArenaFreeNode`, a pointer. -/
def next (m : Mem) (node : Nat) : Nat := load m node 8

/-- `calloc` is the address that the allocation returned, 0 where it failed. -/
def TecArena_init (nelems elem_size calloc : Nat) : TecArena :=
  ⟨if nelems = 0 then 0 else calloc, elem_size, nelems, 0, 0⟩

/-- The pointer that an allocation takes from the arena, and the free list it leaves. -/
def arena_ptr (arena : TecArena) (m : Mem) : Nat × Nat :=
  if arena.free_list ≠ 0 then (arena.free_list, next m arena.free_list)
  else if arena.allocated < arena.capacity then
    (arena.buf + arena.allocated * arena.elem_size, arena.free_list)
  else (0, arena.free_list)

/-- Returns the arena, the memory and the element. -/
def TecArena_allocate (arena : TecArena) (m : Mem) (calloc : Nat) : TecArena × Mem × Nat :=
  let r := arena_ptr arena m
  let arena := { arena with free_list := r.2 }
  if r.1 ≠ 0 then
    ({ arena with allocated := toSize (arena.allocated + 1) },
      store m r.1 4 TECC_ARENA_ALLOCATED, r.1)
  else (arena, if calloc = 0 then m else clear m calloc arena.elem_size, calloc)

/-- Returns the arena, the memory and the pointer given to `TECC_FREE`, if any. -/
def TecArena_release (arena : TecArena) (m : Mem) (ptr : Nat) : TecArena × Mem × Option Nat :=
  if ptr = 0 then (arena, m, none)
  else if flags m ptr &&& TECC_ARENA_ALLOCATED ≠ 0 then
    let m := store m ptr 8 arena.free_list
    let new_count := toSize (arena.allocated - 1)
    ({ arena with
        allocated := new_count
        free_list := if new_count = 0 then 0 else ptr }, m, none)
  else (arena, m, some ptr)

/-- `live` are the elements handed out and not released yet. -/
structure State where
  arena : TecArena
  mem : Mem
  live : List Nat

/-- The elements that fit the block of the arena; none where its allocation failed. -/
def TecArena.nslots (arena : TecArena) : Nat := if arena.buf = 0 then 0 else arena.capacity

def TecArena.slotAt (arena : TecArena) (i : Nat) : Nat := arena.buf + i * arena.elem_size

/-- The address lies in the block of the arena. -/
def TecArena.Inside (arena : TecArena) (p : Nat) : Prop :=
  arena.buf ≤ p ∧ p < arena.buf + arena.nslots * arena.elem_size

instance (arena : TecArena) (p : Nat) : Decidable (arena.Inside p) :=
  inferInstanceAs (Decidable (_ ∧ _))

/-- The live elements that lie in the block. -/
def State.slots (s : State) : List Nat := s.live.filter fun p => s.arena.Inside p

/-- The byte belongs to the arena or to a holder of an element. -/
def State.Owned (s : State) (a : Nat) : Prop :=
  s.arena.Inside a ∨ ∃ p ∈ s.live, p ≤ a ∧ a < p + s.arena.elem_size

/-- What `TECC_CALLOC(1, elem_size)` may return: null, or memory that nobody has. -/
def State.Heap (s : State) (calloc : Nat) : Prop :=
  calloc = 0 ∨ calloc + s.arena.elem_size ≤ 18446744073709551616 ∧
    Apart calloc s.arena.elem_size s.arena.buf (s.arena.nslots * s.arena.elem_size) ∧
    ∀ p ∈ s.live, Apart calloc s.arena.elem_size p s.arena.elem_size

inductive Event where
  | allocate (ptr : Nat)
  | release (ptr : Nat)
  | write
  | other

inductive Step : State → Event → State → Prop
  | allocate {s : State} {calloc ptr : Nat} {arena : TecArena} {m : Mem} (hc : s.Heap calloc)
      (h : TecArena_allocate s.arena s.mem calloc = (arena, m, ptr)) :
      Step s (.allocate ptr) ⟨arena, m, if ptr = 0 then s.live else ptr :: s.live⟩
  | release {s : State} {ptr : Nat} {arena : TecArena} {m : Mem} {freed : Option Nat}
      (hp : ptr ∈ s.live) (h : TecArena_release s.arena s.mem ptr = (arena, m, freed)) :
      Step s (.release ptr) ⟨arena, m, s.live.erase ptr⟩
  /-- The holder of an element writes a byte behind the header. -/
  | write {s : State} {ptr offset : Nat} {byte : UInt8} (hp : ptr ∈ s.live) (hlo : 4 ≤ offset)
      (hhi : offset < s.arena.elem_size) :
      Step s .write { s with mem := Function.update s.mem (ptr + offset) byte }
  /-- The rest of the memory belongs to others. -/
  | other {s : State} {m : Mem} (h : ∀ a, s.Owned a → m a = s.mem a) :
      Step s .other { s with mem := m }

/-- The states after `TecArena_init`. -/
def arenaLts (nelems elem_size : Nat) : Transition.Lts State Event where
  Init s := ∃ calloc m, s = ⟨TecArena_init nelems elem_size calloc, m, []⟩ ∧
    (calloc = 0 ∨ calloc + nelems * elem_size ≤ 18446744073709551616)
  Step := Step

end Tecc.Arena
