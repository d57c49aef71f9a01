import Tecc.MapRefinement

/-! The pointers of the hash table after any sequence of operations, and the nodes that an
operation frees. A node that is freed twice is a fault, so the cells that were allocated before an
operation and are free after it are the nodes it frees, each of them once. -/
namespace Tecc.Map

open Linked Object

variable {K V : Type} {hash_str : K → Nat} {map map' : TecMap K V}
  {heap heap' : Heap K V} {chains : Nat → List Addr} {key : K} {value : Option V}
  {f : PartialMap K V} {a b : Addr} {i : Nat}

/-- The nodes that are freed between two heaps. -/
def freed (heap heap' : Heap K V) : Set Addr := { a | (heap a).isSome ∧ heap' a = none }

/-- The bucket `i` is the list `chains i`, linked in both directions. -/
structure WellLinked (hash_str : K → Nat) (map : TecMap K V) (chains : Nat → List Addr) :
    Prop where
  chain : ∀ i < map.capacity, ∃ root, map.nodes[i]? = some root ∧
    Chain (nextOf map.heap) root (chains i)
  acyclic : ∀ i < map.capacity, (chains i).Nodup
  head : ∀ i < map.capacity, ∀ a, (chains i).head? = some a → prevOf map.heap a = none
  inverse : ∀ i < map.capacity, ∀ b ∈ chains i, ∀ a,
    prevOf map.heap b = some a ↔ a ∈ chains i ∧ nextOf map.heap a = some b
  disjoint : ∀ i < map.capacity, ∀ j < map.capacity, i ≠ j → (chains i).Disjoint (chains j)
  hashed : ∀ i < map.capacity, ∀ a ∈ chains i, ∃ n, map.heap a = some n ∧
    hash_str n.key % map.capacity = i
  distinct : ∀ i < map.capacity, ∀ j < map.capacity, ∀ a ∈ chains i, ∀ b ∈ chains j,
    keyOf map.heap a = keyOf map.heap b → a = b

theorem Inv.wellLinked (h : Inv hash_str map chains) : WellLinked hash_str map chains where
  chain i hi := by
    obtain ⟨root, hroot, hbk⟩ := h.root hi
    exact ⟨root, hroot, hbk.chain⟩
  acyclic i hi := by
    obtain ⟨_, _, hbk⟩ := h.root hi
    exact chain_nodup hbk.chain
  head i hi a ha := by
    obtain ⟨_, _, hbk⟩ := h.root hi
    obtain ⟨xs, hxs⟩ := List.head?_eq_some_iff.mp ha
    have hback := hbk.back
    rw [hxs] at hback
    exact hback.1
  inverse i hi b hb a := by
    obtain ⟨_, _, hbk⟩ := h.root hi
    exact next_iff_prev hbk.chain hbk.back hb
  disjoint i hi j hj hij a ha ha' := hij (h.disjoint hi hj ha ha')
  hashed i hi a ha := h.alive hi ha
  distinct i hi j hj a ha b hb hkey := by
    obtain ⟨n, hn, _⟩ := h.alive hi ha
    obtain ⟨m, hm, _⟩ := h.alive hj hb
    rw [keyOf, keyOf, hn, hm] at hkey
    exact h.key_unique hn hm (Option.some.inj hkey)

/-- Assignments to members free nothing and allocate nothing. -/
theorem modify_isSome {p : Addr} {g : TecMapNode K V → TecMapNode K V}
    (h : modify heap p g = .ok heap') (a : Addr) : (heap' a).isSome = (heap a).isSome := by
  unfold modify at h
  split at h
  · rename_i n hn
    cases h
    by_cases ha : a = p
    · rw [ha, Function.update_self, hn]
      rfl
    · rw [Function.update_of_ne ha]
  · contradiction

theorem modify?_isSome {p : Option Addr} {g : TecMapNode K V → TecMapNode K V}
    (h : modify? heap p g = .ok heap') (a : Addr) : (heap' a).isSome = (heap a).isSome := by
  cases p with
  | none =>
    cases h
    rfl
  | some p => exact modify_isSome h a

/-- One node is freed between two heaps, and no node is allocated. -/
structure FreesOnly (heap heap' : Heap K V) (a : Addr) : Prop where
  before : (heap a).isSome
  after : heap' a = none
  others : ∀ b, b ≠ a → (heap' b).isSome = (heap b).isSome

theorem FreesOnly.freed (h : FreesOnly heap heap' a) : Map.freed heap heap' = {a} := by
  ext b
  rw [Set.mem_singleton_iff]
  constructor
  · rintro ⟨hbefore, hafter⟩
    by_contra hba
    rw [← h.others b hba, hafter] at hbefore
    cases hbefore
  · rintro rfl
    exact ⟨h.before, h.after⟩

theorem FreesOnly.of_isSome {heap₀ : Heap K V} (h : FreesOnly heap heap' a)
    (hsame : ∀ b, (heap b).isSome = (heap₀ b).isSome) : FreesOnly heap₀ heap' a :=
  ⟨(hsame a).symm.trans h.before, h.after, fun b hb => (h.others b hb).trans (hsame b)⟩

theorem delete_node_frees {r : Heap K V × Option Addr} (h : delete_node heap a = .ok r) :
    FreesOnly heap r.1 a := by
  unfold delete_node at h
  split at h
  · rename_i n hn
    cases h
    refine ⟨by rw [hn]; rfl, Function.update_self a none heap, fun b hb => ?_⟩
    exact congrArg Option.isSome (Function.update_of_ne hb none heap)
  · contradiction

theorem clear_buckets_capacity {is : List Nat} (h : clear_buckets map is = .ok map') :
    map'.capacity = map.capacity := by
  induction is generalizing map with
  | nil =>
    cases h
    rfl
  | cons i is ih =>
    obtain ⟨map₁, hone, h⟩ := bind_ok h
    refine (ih h).trans ?_
    obtain ⟨root, _, hone⟩ := bind_ok hone
    cases root with
    | none =>
      cases hone
      rfl
    | some node =>
      obtain ⟨_, _, hone⟩ := bind_ok hone
      cases hone
      rfl

/-- A map that refines a partial function frees all of its nodes when it is cleared. -/
theorem clear_frees_all (h : Refines hash_str map f) :
    ∃ map', TecMap_clear map = .ok map' ∧ freed map.heap map'.heap = { a | (map.heap a).isSome } ∧
      ∀ a, map'.heap a = none := by
  obtain ⟨map', hok, h'⟩ := TecMap_clear_refines h
  have hnone : ∀ a, map'.heap a = none := by
    intro a
    cases hn : map'.heap a with
    | none => rfl
    | some n => cases h'.binds.lookup hn
  refine ⟨map', hok, ?_, hnone⟩
  ext a
  exact ⟨fun hfreed => hfreed.1, fun hsome => ⟨hsome, hnone a⟩⟩

section Operations

variable [DecidableEq K]

/-- A node that is found is the node that is freed. -/
theorem TecMap_remove_frees {v : Option V}
    (hfound : find_node map key (hash_str key % map.capacity) = .ok (some a))
    (h : TecMap_remove hash_str map key = .ok (map', v)) : FreesOnly map.heap map'.heap a := by
  rw [TecMap_remove, hfound, ok_bind] at h
  obtain ⟨n, _, h⟩ := bind_ok h
  cases hprev : n.prev with
  | none =>
    rw [hprev] at h
    obtain ⟨heap₁, hnext, h⟩ := bind_ok h
    obtain ⟨r, hdel, h⟩ := bind_ok h
    cases h
    exact (delete_node_frees hdel).of_isSome (modify?_isSome hnext)
  | some prev =>
    rw [hprev] at h
    obtain ⟨heap₁, hlink, h⟩ := bind_ok h
    obtain ⟨heap₂, hnext, h⟩ := bind_ok h
    obtain ⟨r, hdel, h⟩ := bind_ok h
    cases h
    exact (delete_node_frees hdel).of_isSome
      fun b => (modify?_isSome hnext b).trans (modify_isSome hlink b)

theorem TecMap_set_capacity {malloc : Addr} {r : TecMap K V × Option V}
    (h : TecMap_set hash_str map key value malloc = .ok r) : r.1.capacity = map.capacity := by
  obtain ⟨found, _, h⟩ := bind_ok h
  cases found with
  | some found =>
    obtain ⟨_, _, h⟩ := bind_ok h
    obtain ⟨_, _, h⟩ := bind_ok h
    cases h
    rfl
  | none =>
    obtain ⟨_, _, h⟩ := bind_ok h
    obtain ⟨_, _, h⟩ := bind_ok h
    cases h
    rfl

theorem TecMap_remove_capacity {r : TecMap K V × Option V}
    (h : TecMap_remove hash_str map key = .ok r) : r.1.capacity = map.capacity := by
  obtain ⟨found, _, h⟩ := bind_ok h
  cases found with
  | none =>
    cases h
    rfl
  | some node =>
    obtain ⟨n, _, h⟩ := bind_ok h
    cases hprev : n.prev with
    | none =>
      rw [hprev] at h
      obtain ⟨_, _, h⟩ := bind_ok h
      obtain ⟨_, _, h⟩ := bind_ok h
      cases h
      rfl
    | some prev =>
      rw [hprev] at h
      obtain ⟨_, _, h⟩ := bind_ok h
      obtain ⟨_, _, h⟩ := bind_ok h
      obtain ⟨_, _, h⟩ := bind_ok h
      cases h
      rfl

/-- The number of buckets never changes. -/
theorem exec_capacity {op : Op K V} {r : TecMap K V × Outcome V}
    (h : exec hash_str map op = .ok r) : r.1.capacity = map.capacity := by
  cases op with
  | set key value malloc =>
    obtain ⟨q, hq, h⟩ := bind_ok h
    cases h
    exact TecMap_set_capacity hq
  | get key =>
    obtain ⟨_, _, h⟩ := bind_ok h
    cases h
    rfl
  | remove key =>
    obtain ⟨q, hq, h⟩ := bind_ok h
    cases h
    exact TecMap_remove_capacity hq
  | clear =>
    obtain ⟨q, hq, h⟩ := bind_ok h
    obtain ⟨map₁, hclear, hq⟩ := bind_ok hq
    cases hq
    cases h
    change map₁.capacity = map.capacity
    exact clear_buckets_capacity hclear

/-- A map that refines a partial function frees one node where it finds the key. -/
theorem remove_frees_one (h : Refines hash_str map f) (key : K) :
    ∃ map', TecMap_remove hash_str map key = .ok (map', (f key).join) ∧
      ((∀ a, keyOf map.heap a ≠ some key) → map' = map) ∧
      ∀ a, keyOf map.heap a = some key → FreesOnly map.heap map'.heap a := by
  obtain ⟨chains, hinv⟩ := h.inv
  obtain ⟨map', hok, _⟩ := TecMap_remove_refines h key
  refine ⟨map', hok, fun habsent => ?_, fun a ha => ?_⟩
  · obtain ⟨b, n, _, _, hn, hkey, _⟩ | ⟨hfind, _, _⟩ := find_node_refines hinv h.binds key
    · exact absurd (by simp [keyOf, hn, hkey]) (habsent b)
    · rw [TecMap_remove, hfind, ok_bind] at hok
      have heq : (map, none) = (map', (f key).join) := Except.ok.inj hok
      exact (Prod.mk.inj heq).1.symm
  · obtain ⟨b, n, hfind, _, hn, rfl, _⟩ | ⟨_, habsent, _⟩ := find_node_refines hinv h.binds key
    · have hab : a = b := by
        by_contra hne
        exact hinv.other hn a hne ha
      rw [hab]
      exact TecMap_remove_frees hfind hok
    · exact absurd ha (habsent a)

/-- After every sequence of operations on a new map of any capacity, under any hash function, the
buckets are well linked, a removal frees the node of its key alone, and clearing frees every
node. -/
theorem map_well_linked (hash_str : K → Nat) (size : Nat) (ops : List (Op K V))
    (hfresh : Allowed (exec hash_str) Fresh (TecMap_init (fun _ => none) size) ops) :
    ∃ map outs, run (exec hash_str) (TecMap_init (fun _ => none) size) ops = .ok (map, outs) ∧
      map.capacity = (TecMap_init (fun _ => none) size : TecMap K V).capacity ∧
      (∃ chains, WellLinked hash_str map chains ∧
        ∀ a, (map.heap a).isSome ↔ ∃ i < map.capacity, a ∈ chains i) ∧
      (∀ key, ∃ map' old, TecMap_remove hash_str map key = .ok (map', old) ∧
        ((∀ a, keyOf map.heap a ≠ some key) → map' = map) ∧
        ∀ a, keyOf map.heap a = some key → freed map.heap map'.heap = {a}) ∧
      ∃ map', TecMap_clear map = .ok map' ∧
        freed map.heap map'.heap = { a | (map.heap a).isSome } := by
  obtain ⟨map, hrun, hrefines, hcap⟩ := run_simulation (C := Fresh) (D := fun _ _ => True)
    (R := fun map f => Refines hash_str map f ∧
      map.capacity = (TecMap_init (fun _ => none) size : TecMap K V).capacity)
    (fun map f op h hC _ => by
      obtain ⟨map', hok, hrefines⟩ := exec_refines h.1 op hC
      exact ⟨map', hok, hrefines, (exec_capacity hok).trans h.2⟩)
    ⟨TecMap_init_refines hash_str size, rfl⟩ hfresh
    (specAllowed_of_forall (fun _ _ => trivial) ops _)
  obtain ⟨chains, hinv⟩ := hrefines.inv
  obtain ⟨map', hclear, hfreed, _⟩ := clear_frees_all hrefines
  refine ⟨map, _, hrun, hcap, ⟨chains, hinv.wellLinked, fun a => ⟨hinv.live a, ?_⟩⟩,
    fun key => ?_, map', hclear, hfreed⟩
  · rintro ⟨i, hi, ha⟩
    obtain ⟨n, hn, _⟩ := hinv.alive hi ha
    simp [hn]
  · obtain ⟨map', hremove, habsent, hone⟩ := remove_frees_one hrefines key
    exact ⟨map', _, hremove, habsent, fun a ha => (hone a ha).freed⟩

end Operations

/-- Three keys in one bucket, the middle node leaves, and then the root. -/
theorem map_well_linked_collisions :
    ∃ map outs, run (exec (fun _ => 0)) (TecMap_init (fun _ => none) 1)
        ([.set 1 (some 10) 0, .set 2 (some 20) 1, .set 3 (some 30) 2, .remove 2, .remove 3] :
          List (Op Nat Nat)) = .ok (map, outs) ∧
      map.capacity = 1 ∧ ∃ chains, WellLinked (fun _ => 0) map chains := by
  obtain ⟨map, outs, hrun, hcap, ⟨chains, hlinked, _⟩, _⟩ :=
    map_well_linked (fun _ => 0) 1 ([.set 1 (some 10) 0, .set 2 (some 20) 1, .set 3 (some 30) 2,
      .remove 2, .remove 3] : List (Op Nat Nat)) (by decide)
  exact ⟨map, outs, hrun, hcap, chains, hlinked⟩

end Tecc.Map
