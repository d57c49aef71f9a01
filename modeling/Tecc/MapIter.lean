import Tecc.MapRefinement
import Tecc.Lib.Iteration

/-! The iterator of tecc_map.c: it walks the chains of the buckets one after the other. -/
namespace Tecc.Map

open Linked

variable {K V : Type} {hash_str : K → Nat} {map : TecMap K V} {heap : Heap K V}
  {chains : Nat → List Addr} {f : PartialMap K V} {a : Addr} {n pos : Nat}

/-- Nobody changes the map while it is iterated, so the pointer `map` is the map it points to. -/
structure TecMapIter (K V : Type) where
  map : Option (TecMap K V)
  pos : Nat
  cur : Option Addr

/-- The loop `for (; pos < map->capacity; ++pos)` over `nodes`, with `n` rounds left. -/
def find_bucket (map : TecMap K V) : Nat → Nat → Except Fault (Option (Nat × Addr))
  | 0, _ => .ok none
  | n + 1, pos => do
    match ← bucket_at map pos with
    | some cur => .ok (some (pos, cur))
    | none => find_bucket map n (pos + 1)

/-- Returns the iterator and the node whose pair is returned. -/
def TecMapIter_begin (map : TecMap K V) : Except Fault (TecMapIter K V × Option Addr) := do
  match ← find_bucket map map.capacity 0 with
  | some (pos, cur) => .ok (⟨some map, pos, some cur⟩, some cur)
  | none => .ok (⟨some map, 0, none⟩, none)

def TecMapIter_next (iter : TecMapIter K V) : Except Fault (TecMapIter K V × Option Addr) :=
  match iter.cur with
  | none => .ok (iter, none)
  | some cur =>
    match iter.map with
    | none => .error .dangling
    | some map => do
      let node ← load map.heap cur
      match node.next with
      | some next => .ok ({ iter with cur := some next }, some next)
      | none =>
        -- Find next bucket.
        match ← find_bucket map (map.capacity - (iter.pos + 1)) (iter.pos + 1) with
        | some (pos, node) => .ok ({ iter with cur := some node, pos := pos }, some node)
        | none => .ok (iter, none)

def TecMapIter_rewind (iter : TecMapIter K V) : Except Fault (TecMapIter K V × Option Addr) :=
  match iter.map with
  | none => .ok (iter, none)
  | some map => TecMapIter_begin map

/-- What the caller reads through a returned pointer. -/
def pair_at (heap : Heap K V) : Option Addr → Except Fault (Option (K × Option V))
  | none => .ok none
  | some p => do
    let node ← load heap p
    .ok (some (node.key, node.value))

/-- One call of the iterator, with the pair behind the pointer it returns. -/
def iter_step (map : TecMap K V) (iter : TecMapIter K V) :
    Iteration.Call → Except Fault (TecMapIter K V × Option (K × Option V))
  | .next => do
    let r ← TecMapIter_next iter
    let pair ← pair_at map.heap r.2
    .ok (r.1, pair)
  | .rewind => do
    let r ← TecMapIter_rewind iter
    let pair ← pair_at map.heap r.2
    .ok (r.1, pair)

/-- What `TecMapIter_begin` and the calls after it return. -/
def iterate (map : TecMap K V) (calls : List Iteration.Call) :
    Except Fault (List (Option (K × Option V))) := do
  let r ← TecMapIter_begin map
  let pair ← pair_at map.heap r.2
  let rest ← Object.run (iter_step map) r.1 calls
  .ok (pair :: rest.2)

/-- The nodes of `n` buckets from `pos` on. -/
def nodes_from (chains : Nat → List Addr) (n pos : Nat) : List Addr :=
  (List.range' pos n).flatMap chains

theorem nodes_from_succ (chains : Nat → List Addr) (n pos : Nat) :
    nodes_from chains (n + 1) pos = chains pos ++ nodes_from chains n (pos + 1) := by
  rw [nodes_from, List.range'_succ, List.flatMap_cons]
  rfl

/-- The nodes that are visited behind the node `cur` of the bucket `pos`. -/
structure At (map : TecMap K V) (chains : Nat → List Addr) (pos : Nat) (cur : Addr)
    (rest : List Addr) : Prop where
  pos_lt : pos < map.capacity
  split : ∃ pre xs, chains pos = pre ++ cur :: xs ∧
    rest = xs ++ nodes_from chains (map.capacity - (pos + 1)) (pos + 1)

/-- The loop stops at the first bucket that is not empty, or finds that all are empty. -/
theorem find_bucket_spec (h : Inv hash_str map chains) (n : Nat) :
    ∀ {pos : Nat}, pos + n = map.capacity →
      (nodes_from chains n pos = [] ∧ find_bucket map n pos = .ok none) ∨
      ∃ p cur rest, find_bucket map n pos = .ok (some (p, cur)) ∧
        nodes_from chains n pos = cur :: rest ∧ At map chains p cur rest := by
  induction n with
  | zero =>
    intro pos _
    exact .inl ⟨rfl, rfl⟩
  | succ n ih =>
    intro pos hpos
    obtain ⟨root, hroot, hbk⟩ := h.root (i := pos) (by omega)
    rw [nodes_from_succ]
    cases hchain : chains pos with
    | nil =>
      have hnull : root = none := by
        have hc := hbk.chain
        rw [hchain] at hc
        exact hc
      have hfind : find_bucket map (n + 1) pos = find_bucket map n (pos + 1) := by
        simp [find_bucket, bucket_at, hroot, hnull, bind, Except.bind]
      rw [hfind, List.nil_append]
      exact ih (by omega)
    | cons cur xs =>
      have hc := hbk.chain
      rw [hchain] at hc
      obtain ⟨hcur, _⟩ := chain_cons.mp hc
      refine .inr ⟨pos, cur, xs ++ nodes_from chains n (pos + 1), ?_, rfl, ?_⟩
      · simp [find_bucket, bucket_at, hroot, hcur, bind, Except.bind]
      · refine ⟨by omega, [], xs, hchain, ?_⟩
        rw [show map.capacity - (pos + 1) = n by omega]

/-- Where an iterator stands: the nodes that it will still return. -/
def Stands (map : TecMap K V) (chains : Nat → List Addr) (iter : TecMapIter K V)
    (rest : List Addr) : Prop :=
  iter.map = some map ∧
    match iter.cur with
    | none => rest = []
    | some cur => At map chains iter.pos cur rest

/-- The nodes of the map in the order of the iteration. -/
def visited (map : TecMap K V) (chains : Nat → List Addr) : List Addr :=
  nodes_from chains map.capacity 0

theorem TecMapIter_begin_spec (h : Inv hash_str map chains) :
    ∃ iter, TecMapIter_begin map = .ok (iter, (visited map chains).head?) ∧
      Stands map chains iter (visited map chains).tail := by
  rcases find_bucket_spec h map.capacity (Nat.zero_add _) with
    ⟨hnil, hfind⟩ | ⟨p, cur, rest, hfind, hcons, hat⟩
  · refine ⟨⟨some map, 0, none⟩, ?_, rfl, ?_⟩
    · simp [TecMapIter_begin, hfind, visited, hnil, bind, Except.bind]
    · simp [visited, hnil]
  · refine ⟨⟨some map, p, some cur⟩, ?_, rfl, ?_⟩
    · simp [TecMapIter_begin, hfind, visited, hcons, bind, Except.bind]
    · simpa [visited, hcons] using hat

theorem TecMapIter_next_spec (h : Inv hash_str map chains) {iter : TecMapIter K V}
    {rest : List Addr} (hs : Stands map chains iter rest) :
    ∃ iter', TecMapIter_next iter = .ok (iter', rest.head?) ∧
      Stands map chains iter' rest.tail := by
  obtain ⟨imap, ipos, icur⟩ := iter
  obtain ⟨hmap, hcur⟩ := hs
  change imap = some map at hmap
  subst hmap
  cases icur with
  | none =>
    change rest = [] at hcur
    subst hcur
    exact ⟨⟨some map, ipos, none⟩, rfl, rfl, rfl⟩
  | some cur =>
    obtain ⟨hlt, pre, xs, hsplit, hrest⟩ : At map chains ipos cur rest := hcur
    obtain ⟨node, hnode, _⟩ := h.alive hlt (a := cur) (by rw [hsplit]; simp)
    obtain ⟨root, _, hbk⟩ := h.root hlt
    have hchain : Chain (nextOf map.heap) node.next xs := by
      have hc := hbk.chain
      rw [hsplit] at hc
      obtain ⟨_, _, _, htail⟩ := segment_append.mp hc
      have hlink : nextOf map.heap cur = node.next := by simp [nextOf, hnode]
      rw [hlink] at htail
      exact htail
    cases xs with
    | cons a xs =>
      -- Check current bucket.
      obtain ⟨hnext, _⟩ := chain_cons.mp hchain
      refine ⟨⟨some map, ipos, some a⟩, ?_, rfl, ?_⟩
      · simp [TecMapIter_next, load, hnode, hnext, hrest, bind, Except.bind]
      · exact ⟨hlt, pre ++ [cur], xs, by simpa using hsplit, by rw [hrest]; rfl⟩
    | nil =>
      have hnext : node.next = none := hchain
      rw [List.nil_append] at hrest
      have hrounds : ipos + 1 + (map.capacity - (ipos + 1)) = map.capacity := by omega
      rcases find_bucket_spec h _ hrounds with ⟨hnil, hfind⟩ | ⟨p, c, rest', hfind, hcons, hat⟩
      · refine ⟨⟨some map, ipos, some cur⟩, ?_, rfl, ?_⟩
        · simp [TecMapIter_next, load, hnode, hnext, hfind, hrest, hnil, bind, Except.bind]
        · refine ⟨hlt, pre, [], hsplit, ?_⟩
          rw [hrest, hnil]
          rfl
      · refine ⟨⟨some map, p, some c⟩, ?_, rfl, ?_⟩
        · simp [TecMapIter_next, load, hnode, hnext, hfind, hrest, hcons, bind, Except.bind]
        · rw [hrest, hcons]
          exact hat

theorem mem_nodes_from :
    a ∈ nodes_from chains n pos ↔ ∃ i, pos ≤ i ∧ i < pos + n ∧ a ∈ chains i := by
  simp only [nodes_from, List.mem_flatMap, List.mem_range'_1, and_assoc]

theorem mem_visited (h : Inv hash_str map chains) :
    a ∈ visited map chains ↔ (map.heap a).isSome := by
  rw [visited, mem_nodes_from]
  constructor
  · rintro ⟨i, _, hi, ha⟩
    obtain ⟨node, hnode, _⟩ := h.alive (by omega) ha
    simp [hnode]
  · intro ha
    obtain ⟨i, hi, hmem⟩ := h.live a ha
    exact ⟨i, Nat.zero_le i, by omega, hmem⟩

/-- Chains are without repetition and buckets are disjoint. -/
theorem nodes_from_nodup (h : Inv hash_str map chains) (n : Nat) :
    ∀ {pos : Nat}, pos + n = map.capacity → (nodes_from chains n pos).Nodup := by
  induction n with
  | zero =>
    intro pos _
    exact List.nodup_nil
  | succ n ih =>
    intro pos hpos
    obtain ⟨root, _, hbk⟩ := h.root (i := pos) (by omega)
    rw [nodes_from_succ]
    refine List.nodup_append.mpr ⟨chain_nodup hbk.chain, ih (by omega), ?_⟩
    rintro a ha b hb rfl
    obtain ⟨i, hlo, hhi, hi⟩ := mem_nodes_from.mp hb
    have hsame := h.disjoint (by omega) (by omega) ha hi
    omega

theorem nodes_from_length (chains : Nat → List Addr) (n : Nat) :
    (nodes_from chains n 0).length = ∑ i ∈ Finset.range n, (chains i).length := by
  induction n with
  | zero => rfl
  | succ n ih =>
    rw [Finset.sum_range_succ, ← ih, nodes_from, nodes_from, List.range'_concat,
      List.flatMap_append, List.length_append]
    simp

/-- The binding of a node that is allocated. -/
def bindings (heap : Heap K V) (nodes : List Addr) : List (K × Option V) :=
  nodes.filterMap (bindingOf heap)

theorem bindings_cons {b : K × Option V} {nodes : List Addr} (h : bindingOf heap a = some b) :
    bindings heap (a :: nodes) = b :: bindings heap nodes :=
  List.filterMap_cons_some h

theorem bindings_length {nodes : List Addr} (h : ∀ a ∈ nodes, (heap a).isSome) :
    (bindings heap nodes).length = nodes.length := by
  induction nodes with
  | nil => rfl
  | cons a nodes ih =>
    obtain ⟨node, hnode⟩ := Option.isSome_iff_exists.mp (h a List.mem_cons_self)
    rw [bindings_cons (bindingOf_some hnode), List.length_cons, List.length_cons,
      ih (fun b hb => h b (List.mem_cons_of_mem a hb))]

/-- No key comes twice. -/
theorem bindings_keys (h : Inv hash_str map chains) {nodes : List Addr} (hnodup : nodes.Nodup) :
    ((bindings map.heap nodes).map Prod.fst).Nodup := by
  induction nodes with
  | nil => exact List.nodup_nil
  | cons a nodes ih =>
    obtain ⟨hnot, hrest⟩ := List.nodup_cons.mp hnodup
    cases hb : bindingOf map.heap a with
    | none =>
      rw [bindings, List.filterMap_cons_none hb]
      exact ih hrest
    | some b =>
      obtain ⟨key, value⟩ := b
      rw [bindings_cons hb, List.map_cons]
      refine List.nodup_cons.mpr ⟨?_, ih hrest⟩
      intro hmem
      obtain ⟨⟨k, v⟩, hkv, hk⟩ := List.mem_map.mp hmem
      obtain ⟨c, hc, hbc⟩ := List.mem_filterMap.mp hkv
      obtain ⟨node, hnode, hpair⟩ := Option.map_eq_some_iff.mp hb
      obtain ⟨node', hnode', hpair'⟩ := Option.map_eq_some_iff.mp hbc
      have hkeys : node.key = node'.key :=
        (congrArg Prod.fst hpair).trans (hk.symm.trans (congrArg Prod.fst hpair').symm)
      rw [h.key_unique hnode hnode' hkeys] at hnot
      exact hnot hc

/-- The caller reads the next binding. -/
theorem pair_at_head {nodes : List Addr} (h : ∀ a ∈ nodes, (heap a).isSome) :
    pair_at heap nodes.head? = .ok (bindings heap nodes).head? ∧
      bindings heap nodes.tail = (bindings heap nodes).tail := by
  cases nodes with
  | nil => exact ⟨rfl, rfl⟩
  | cons a nodes =>
    obtain ⟨node, hnode⟩ := Option.isSome_iff_exists.mp (h a List.mem_cons_self)
    rw [bindings_cons (bindingOf_some hnode)]
    exact ⟨by simp [pair_at, load, hnode, bind, Except.bind], rfl⟩

/-- The iterator stands for the bindings that are still to come. -/
def Shows (map : TecMap K V) (chains : Nat → List Addr) (iter : TecMapIter K V)
    (rest : List (K × Option V)) : Prop :=
  ∃ nodes, Stands map chains iter nodes ∧ (∀ a ∈ nodes, (map.heap a).isSome) ∧
    rest = bindings map.heap nodes

/-- The bindings of the map in the order of the iteration. -/
def order_of (map : TecMap K V) (chains : Nat → List Addr) : List (K × Option V) :=
  bindings map.heap (visited map chains)

theorem begin_shows (h : Inv hash_str map chains) :
    ∃ iter, TecMapIter_begin map = .ok (iter, (visited map chains).head?) ∧
      pair_at map.heap (visited map chains).head? = .ok (order_of map chains).head? ∧
      Shows map chains iter (order_of map chains).tail := by
  obtain ⟨iter, hbegin, hs⟩ := TecMapIter_begin_spec h
  have halive : ∀ a ∈ visited map chains, (map.heap a).isSome := fun a ha => (mem_visited h).mp ha
  obtain ⟨hpair, htail⟩ := pair_at_head halive
  exact ⟨iter, hbegin, hpair, _, hs, fun a ha => halive a (List.mem_of_mem_tail ha), htail.symm⟩

/-- One call returns the next binding. -/
theorem iter_step_shows (h : Inv hash_str map chains) {iter : TecMapIter K V}
    {rest : List (K × Option V)} (hs : Shows map chains iter rest) (call : Iteration.Call) :
    ∃ iter', iter_step map iter call =
        .ok (iter', (Iteration.step (order_of map chains) rest call).2) ∧
      Shows map chains iter' (Iteration.step (order_of map chains) rest call).1 := by
  obtain ⟨nodes, hstands, halive, rfl⟩ := hs
  cases call with
  | next =>
    obtain ⟨iter', hnext, hstands'⟩ := TecMapIter_next_spec h hstands
    obtain ⟨hpair, htail⟩ := pair_at_head halive
    refine ⟨iter', ?_, _, hstands', fun a ha => halive a (List.mem_of_mem_tail ha), htail.symm⟩
    simp only [iter_step, hnext, hpair, bind, Except.bind]
    rfl
  | rewind =>
    obtain ⟨iter', hbegin, hpair, hs'⟩ := begin_shows h
    have hrewind : TecMapIter_rewind iter = TecMapIter_begin map := by
      rw [TecMapIter_rewind, hstands.1]
    refine ⟨iter', ?_, hs'⟩
    simp only [iter_step, hrewind, hbegin, hpair, bind, Except.bind]
    rfl

theorem iterate_eq (h : Inv hash_str map chains) (calls : List Iteration.Call) :
    iterate map calls = .ok ((order_of map chains).head? ::
      (Object.specRun (Iteration.step (order_of map chains)) (order_of map chains).tail
        calls).2) := by
  obtain ⟨iter, hbegin, hpair, hs⟩ := begin_shows h
  have hsim : ∃ iter', Object.run (iter_step map) iter calls =
      .ok (iter', (Object.specRun (Iteration.step (order_of map chains))
        (order_of map chains).tail calls).2) ∧ Shows map chains iter' _ :=
    Object.run_simulation (C := fun _ _ => True) (D := fun _ _ => True) (R := Shows map chains)
      (fun _ _ call hR _ _ => iter_step_shows h hR call) hs
      (Object.allowed_of_forall (fun _ _ => trivial) calls iter)
      (Object.specAllowed_of_forall (fun _ _ => trivial) calls _)
  obtain ⟨iter', hrun, _⟩ := hsim
  simp only [iterate, hbegin, hpair, hrun, bind, Except.bind]

/-- The calls return each binding of `f` once, as many as `map->size`, then null for ever, and
after a rewind the same again. -/
structure Iterates (map : TecMap K V) (f : PartialMap K V) (order : List (K × Option V)) :
    Prop where
  binds : ∀ k v, (k, v) ∈ order ↔ f k = some v
  keys : (order.map Prod.fst).Nodup
  size : order.length = map.size
  nexts : ∀ n, iterate map (List.replicate n .next) =
    .ok ((order.map some ++ List.replicate (n + 1) none).take (n + 1))
  rewinds : ∀ calls n, ∃ returned, returned.length = calls.length + 1 ∧
    iterate map (calls ++ .rewind :: List.replicate n .next) =
      .ok (returned ++ (order.map some ++ List.replicate (n + 1) none).take (n + 1))

theorem iterates_of_refines (h : Refines hash_str map f) : ∃ order, Iterates map f order := by
  obtain ⟨chains, hinv⟩ := h.inv
  have halive : ∀ a ∈ visited map chains, (map.heap a).isSome :=
    fun a ha => (mem_visited hinv).mp ha
  have hnodup : (visited map chains).Nodup := nodes_from_nodup hinv _ (Nat.zero_add _)
  refine ⟨order_of map chains, ?_, bindings_keys hinv hnodup, ?_, ?_, ?_⟩
  · intro k v
    rw [h.binds k v, order_of, bindings, List.mem_filterMap]
    constructor
    · rintro ⟨a, _, ha⟩
      exact ⟨a, ha⟩
    · rintro ⟨a, ha⟩
      obtain ⟨node, hnode, _⟩ := Option.map_eq_some_iff.mp ha
      exact ⟨a, (mem_visited hinv).mpr (by simp [hnode]), ha⟩
  · rw [order_of, bindings_length halive, visited, nodes_from_length, hinv.size_eq]
  · intro n
    rw [iterate_eq hinv, Iteration.specRun_next, ← Iteration.answers_succ]
    rfl
  · intro calls n
    refine ⟨(order_of map chains).head? :: (Object.specRun
      (Iteration.step (order_of map chains)) (order_of map chains).tail calls).2, ?_, ?_⟩
    · rw [List.length_cons, Object.specRun_length]
    · rw [iterate_eq hinv, Iteration.specRun_rewind]
      rfl

/-- In every map that is reached from a new one, of any capacity and under any hash function,
the iterator visits every binding exactly once. -/
theorem iteration_visits_every_binding [DecidableEq K] (hash_str : K → Nat) (size : Nat)
    (ops : List (Op K V))
    (hfresh : Object.Allowed (exec hash_str) Fresh (TecMap_init (fun _ => none) size) ops) :
    ∃ map outcomes order,
      Object.run (exec hash_str) (TecMap_init (fun _ => none) size) ops = .ok (map, outcomes) ∧
      Iterates map (Object.specRun PartialMap.exec PartialMap.empty ops).1 order := by
  obtain ⟨map, hrun, hrefines⟩ := runs_refine hash_str size ops hfresh
  obtain ⟨order, hiter⟩ := iterates_of_refines hrefines
  exact ⟨map, _, order, hrun, hiter⟩

/-- Two keys in one bucket, a null value, and empty buckets around them. -/
theorem iteration_visits_every_binding_collisions :
    ∃ map outcomes order,
      Object.run (exec fun k => k % 2) (TecMap_init (fun _ => none) 5)
        [.set 1 (some 10) 0, .set 3 none 1, .set 4 (some 30) 2, .remove 1, .set 7 (some 20) 0] =
          .ok (map, outcomes) ∧
      Iterates map (Object.specRun PartialMap.exec PartialMap.empty
        ([.set 1 (some 10) 0, .set 3 none 1, .set 4 (some 30) 2, .remove 1,
          .set 7 (some 20) 0] : List (Op Nat Nat))).1 order :=
  iteration_visits_every_binding (fun k => k % 2) 5 _ (by decide)

end Tecc.Map
