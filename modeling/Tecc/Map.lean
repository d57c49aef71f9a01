import Tecc.Lib.Linked
import Mathlib.Logic.Function.Basic

/-! The chained hash table of tecc_map.c. Nodes are heap cells with `prev` and `next` pointers;
reading or freeing a cell that is not allocated is a fault. -/
namespace Tecc.Map

variable {K V : Type} [DecidableEq K]

abbrev Addr := Nat

inductive Fault where
  | outOfBounds
  /-- A null pointer or a freed node is followed. -/
  | dangling
  | diverges
deriving DecidableEq, Repr

/-- A value is a pointer: `none` is the null pointer. -/
structure TecMapNode (K V : Type) where
  key : K
  value : Option V
  prev : Option Addr
  next : Option Addr

abbrev Heap (K V : Type) := Addr → Option (TecMapNode K V)

structure TecMap (K V : Type) where
  nodes : List (Option Addr)
  size : Nat
  capacity : Nat
  heap : Heap K V

def TECC_MAP_DEFAULT_SIZE : Nat := 117

def load (heap : Heap K V) (p : Addr) : Except Fault (TecMapNode K V) :=
  match heap p with
  | some n => .ok n
  | none => .error .dangling

/-- Assigns to a member of the node at `p`. -/
def modify (heap : Heap K V) (p : Addr) (f : TecMapNode K V → TecMapNode K V) :
    Except Fault (Heap K V) :=
  match heap p with
  | some n => .ok (Function.update heap p (some (f n)))
  | none => .error .dangling

/-- The same behind a test for null. -/
def modify? (heap : Heap K V) (p : Option Addr) (f : TecMapNode K V → TecMapNode K V) :
    Except Fault (Heap K V) :=
  match p with
  | some p => modify heap p f
  | none => .ok heap

/-- FNV-1a over the bytes of the string, modulo 2^64. -/
def tec_fnv_1a_64 (s : List UInt8) : Nat :=
  s.foldl (fun h c => (h ^^^ c.toNat) * 1099511628211 % 18446744073709551616) 14695981039346656037

/-- `malloc` is the address that the allocation returned. -/
def new_node (heap : Heap K V) (malloc : Addr) (key : K) (value : Option V)
    (prev next : Option Addr) : Heap K V :=
  Function.update heap malloc (some ⟨key, value, prev, next⟩)

def delete_node (heap : Heap K V) (n : Addr) : Except Fault (Heap K V × Option Addr) :=
  match heap n with
  | some node => .ok (Function.update heap n none, node.next)
  | none => .error .dangling

/-- The loop of `delete_bucket`; `fuel` bounds its rounds. -/
def delete_bucket : Nat → Heap K V → Option Addr → Except Fault (Heap K V)
  | _, heap, none => .ok heap
  | 0, _, some _ => .error .diverges
  | fuel + 1, heap, some n => do
    let r ← delete_node heap n
    delete_bucket fuel r.1 r.2

/-- The loop of `find_node` over the rest of a bucket. -/
def find_in_bucket (heap : Heap K V) (key : K) : Nat → Option Addr → Except Fault (Option Addr)
  | _, none => .ok none
  | 0, some _ => .error .diverges
  | fuel + 1, some b => do
    let n ← load heap b
    if n.key = key then .ok (some b) else find_in_bucket heap key fuel n.next

def bucket_at (map : TecMap K V) (ndx : Nat) : Except Fault (Option Addr) :=
  match map.nodes[ndx]? with
  | some p => .ok p
  | none => .error .outOfBounds

/-- A chain without a cycle has at most `size` nodes, which bounds the loop. -/
def find_node (map : TecMap K V) (key : K) (ndx : Nat) : Except Fault (Option Addr) := do
  match ← bucket_at map ndx with
  | none => .ok none
  | some node =>
    let n ← load map.heap node
    if n.key = key then .ok (some node) else find_in_bucket map.heap key map.size n.next

/-- The map made by `TecMap_init` on the given free heap. -/
def TecMap_init (heap : Heap K V) (size : Nat) : TecMap K V :=
  let size := if size = 0 then TECC_MAP_DEFAULT_SIZE else size
  ⟨List.replicate size none, 0, size, heap⟩

/-- One round of the loop of `TecMap_clear`. -/
def clear_bucket (map : TecMap K V) (i : Nat) : Except Fault (TecMap K V) := do
  match ← bucket_at map i with
  | none => .ok map
  | some node =>
    let heap ← delete_bucket map.size map.heap (some node)
    .ok { map with heap := heap, nodes := map.nodes.set i none }

def clear_buckets (map : TecMap K V) : List Nat → Except Fault (TecMap K V)
  | [] => .ok map
  | i :: is => do
    let map ← clear_bucket map i
    clear_buckets map is

def TecMap_clear (map : TecMap K V) : Except Fault (TecMap K V) := do
  let map ← clear_buckets map (List.range map.capacity)
  .ok { map with size := 0 }

variable (hash_str : K → Nat)

/-- Returns the map and the old value. -/
def TecMap_set (map : TecMap K V) (key : K) (value : Option V) (malloc : Addr) :
    Except Fault (TecMap K V × Option V) := do
  let ndx := hash_str key % map.capacity
  match ← find_node map key ndx with
  | some found =>
    let n ← load map.heap found
    let heap ← modify map.heap found fun n => { n with value := value }
    .ok ({ map with heap := heap }, n.value)
  | none =>
    let root ← bucket_at map ndx
    let heap := new_node map.heap malloc key value none root
    let heap ← modify? heap root fun n => { n with prev := some malloc }
    .ok (⟨map.nodes.set ndx (some malloc), map.size + 1, map.capacity, heap⟩, none)

def TecMap_get (map : TecMap K V) (key : K) : Except Fault (Option V) := do
  match ← find_node map key (hash_str key % map.capacity) with
  | some node =>
    let n ← load map.heap node
    .ok n.value
  | none => .ok none

/-- Returns the map and the previous value. -/
def TecMap_remove (map : TecMap K V) (key : K) : Except Fault (TecMap K V × Option V) := do
  let ndx := hash_str key % map.capacity
  match ← find_node map key ndx with
  | none => .ok (map, none)
  | some node =>
    let n ← load map.heap node
    match n.prev with
    | none =>
      -- Root node.
      let heap ← modify? map.heap n.next fun m => { m with prev := none }
      let r ← delete_node heap node
      .ok (⟨map.nodes.set ndx n.next, map.size - 1, map.capacity, r.1⟩, n.value)
    | some prev =>
      -- Bucket node.
      let heap ← modify map.heap prev fun m => { m with next := n.next }
      let heap ← modify? heap n.next fun m => { m with prev := n.prev }
      let r ← delete_node heap node
      .ok (⟨map.nodes, map.size - 1, map.capacity, r.1⟩, n.value)

end Tecc.Map
