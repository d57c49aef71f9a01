import Tecc.MapChains
import Tecc.Lib.Object
import Mathlib.Data.Set.Card

/-! The hash table refines a partial function, whatever the hash function. -/
namespace Tecc.Map

open Linked Object

variable {K V : Type} {hash_str : K → Nat} {map : TecMap K V} {heap heap' : Heap K V}
  {chains : Nat → List Addr} {key : K} {value : Option V} {a malloc : Addr}

/-- What a map is for: a partial function from keys to values. A bound value may be null. -/
abbrev PartialMap (K V : Type) := K → Option (Option V)

namespace PartialMap

variable (f : PartialMap K V)

/-- The bound keys. -/
def dom : Set K := { k | f k ≠ none }

def empty : PartialMap K V := fun _ => none

theorem dom_empty : (empty : PartialMap K V).dom = ∅ := by
  ext k
  simp [dom, empty]

variable [DecidableEq K] {f}

theorem dom_bind : dom (Function.update f key (some value)) = insert key f.dom := by
  ext k
  by_cases hk : k = key <;> simp [dom, hk]

theorem dom_unbind : dom (Function.update f key none) = f.dom \ {key} := by
  ext k
  by_cases hk : k = key <;> simp [dom, hk]

end PartialMap

inductive Op (K V : Type) where
  /-- `malloc` is the address that an allocation in this call returns. -/
  | set (key : K) (value : Option V) (malloc : Addr)
  | get (key : K)
  | remove (key : K)
  | clear

/-- What the caller of an operation sees: the value returned and `map->size` afterwards. -/
structure Outcome (V : Type) where
  returned : Option V
  size : Nat

def exec [DecidableEq K] (hash_str : K → Nat) (map : TecMap K V) :
    Op K V → Except Fault (TecMap K V × Outcome V)
  | .set key value malloc => do
    let r ← TecMap_set hash_str map key value malloc
    .ok (r.1, ⟨r.2, r.1.size⟩)
  | .get key => do
    let v ← TecMap_get hash_str map key
    .ok (map, ⟨v, map.size⟩)
  | .remove key => do
    let r ← TecMap_remove hash_str map key
    .ok (r.1, ⟨r.2, r.1.size⟩)
  | .clear => do
    let map ← TecMap_clear map
    .ok (map, ⟨none, map.size⟩)

/-- The abstract operations, with the value that each returns. -/
def PartialMap.apply [DecidableEq K] (f : PartialMap K V) : Op K V → PartialMap K V × Option V
  | .set key value _ => (Function.update f key (some value), (f key).join)
  | .get key => (f, (f key).join)
  | .remove key => (Function.update f key none, (f key).join)
  | .clear => (PartialMap.empty, none)

noncomputable def PartialMap.exec [DecidableEq K] (f : PartialMap K V) (op : Op K V) :
    PartialMap K V × Outcome V :=
  ((f.apply op).1, ⟨(f.apply op).2, (f.apply op).1.dom.ncard⟩)

/-- Allocation succeeds: it returns an address that is not in use. -/
def Fresh (map : TecMap K V) : Op K V → Prop
  | .set _ _ malloc => map.heap malloc = none
  | _ => True

instance (map : TecMap K V) (op : Op K V) : Decidable (Fresh map op) :=
  match op with
  | .set _ _ malloc => inferInstanceAs (Decidable (map.heap malloc = none))
  | .get _ | .remove _ | .clear => .isTrue trivial

/-- The heap holds exactly the bindings of `f`. -/
def Binds (heap : Heap K V) (f : PartialMap K V) : Prop :=
  ∀ k v, f k = some v ↔ ∃ a, bindingOf heap a = some (k, v)

structure Refines (hash_str : K → Nat) (map : TecMap K V) (f : PartialMap K V) : Prop where
  inv : ∃ chains, Inv hash_str map chains
  binds : Binds map.heap f
  finite : f.dom.Finite
  size_eq : map.size = f.dom.ncard

variable {f : PartialMap K V}

theorem keyOf_of_binding {k : K} {v : Option V} (h : bindingOf heap a = some (k, v)) :
    keyOf heap a = some k := by
  simp only [bindingOf, Option.map_eq_some_iff, Prod.mk.injEq] at h
  obtain ⟨n, hn, rfl, _⟩ := h
  simp [keyOf, hn]

theorem bindingOf_some {n : TecMapNode K V} (hn : heap a = some n) :
    bindingOf heap a = some (n.key, n.value) := by
  simp [bindingOf, hn]

theorem Binds.lookup (h : Binds heap f) {n : TecMapNode K V} (hn : heap a = some n) :
    f n.key = some n.value := (h n.key n.value).mpr ⟨a, bindingOf_some hn⟩

theorem Binds.unbound (h : Binds heap f) (hk : ∀ a, keyOf heap a ≠ some key) : f key = none := by
  cases hf : f key with
  | none => rfl
  | some v =>
    obtain ⟨a, ha⟩ := (h key v).mp hf
    exact absurd (keyOf_of_binding ha) (hk a)

/-- One cell comes to hold a binding of `key`, or none; no other cell binds `key`. -/
theorem Binds.update [DecidableEq K] (h : Binds heap f) {b : Option (Option V)}
    (hframe : ∀ p, p ≠ a → bindingOf heap' p = bindingOf heap p)
    (hother : ∀ p, p ≠ a → keyOf heap p ≠ some key)
    (hold : ∀ k v, bindingOf heap a = some (k, v) → k = key)
    (hnew : bindingOf heap' a = b.map (Prod.mk key)) : Binds heap' (Function.update f key b) := by
  intro k v
  by_cases hk : k = key
  · subst hk
    rw [Function.update_self]
    constructor
    · rintro rfl
      exact ⟨a, hnew⟩
    · rintro ⟨p, hp⟩
      by_cases hpa : p = a
      · subst hpa
        rw [hnew] at hp
        simpa using hp
      · rw [hframe p hpa] at hp
        exact absurd (keyOf_of_binding hp) (hother p hpa)
  · rw [Function.update_of_ne hk, h k v]
    constructor
    · rintro ⟨p, hp⟩
      have hpa : p ≠ a := by
        rintro rfl
        exact hk (hold k v hp)
      exact ⟨p, (hframe p hpa).trans hp⟩
    · rintro ⟨p, hp⟩
      have hpa : p ≠ a := by
        rintro rfl
        rw [hnew] at hp
        simp only [Option.map_eq_some_iff, Prod.mk.injEq] at hp
        obtain ⟨_, _, hkey, _⟩ := hp
        exact hk hkey.symm
      exact ⟨p, (hframe p hpa).symm.trans hp⟩

theorem Inv.absent (h : Inv hash_str map chains)
    (hf : Found map.heap key (chains (hash_str key % map.capacity)) none) :
    ∀ a, keyOf map.heap a ≠ some key := by
  intro a ha
  have ha' := ha
  simp only [keyOf, Option.map_eq_some_iff] at ha'
  obtain ⟨n, hn, hkey⟩ := ha'
  have hmem := h.chain_of_node hn
  rw [hkey] at hmem
  exact hf a hmem ha

theorem Inv.other (h : Inv hash_str map chains) {n : TecMapNode K V} (hn : map.heap a = some n) :
    ∀ p, p ≠ a → keyOf map.heap p ≠ some n.key := by
  intro p hpa hp
  simp only [keyOf, Option.map_eq_some_iff] at hp
  obtain ⟨m, hm, hkey⟩ := hp
  exact hpa (h.key_unique hm hn hkey)

theorem TecMap_init_refines (hash_str : K → Nat) (size : Nat) :
    Refines hash_str (TecMap_init (fun _ => none) size : TecMap K V) PartialMap.empty where
  inv := by
    refine ⟨fun _ => [], ?_, ?_, ?_, ?_, ?_⟩
    · simp [TecMap_init]
    · simp only [TecMap_init, TECC_MAP_DEFAULT_SIZE]
      split <;> omega
    · intro i root hr
      simp only [TecMap_init, List.getElem?_replicate] at hr
      have hroot : root = none := by
        split at hr <;> simp_all
      subst hroot
      exact ⟨rfl, trivial, by simp, by simp⟩
    · simp [TecMap_init]
    · simp [TecMap_init]
  binds k v := by simp [PartialMap.empty, bindingOf, TecMap_init]
  finite := by simp [PartialMap.dom_empty]
  size_eq := by simp [PartialMap.dom_empty, TecMap_init]

theorem TecMap_clear_refines (h : Refines hash_str map f) :
    ∃ map', TecMap_clear map = .ok map' ∧ Refines hash_str map' PartialMap.empty := by
  obtain ⟨chains, hinv⟩ := h.inv
  obtain ⟨map', size', chains', hok, hcapacity, h', hcleared, _⟩ :=
    clear_buckets_spec (List.range map.capacity) map.size hinv (le_refl _)
      (fun i hi => List.mem_range.mp hi)
  have hnil : ∀ i < map'.capacity, chains' i = [] := fun i hi =>
    hcleared i (List.mem_range.mpr (hcapacity ▸ hi))
  have hfree : ∀ a, map'.heap a = none := by
    intro a
    cases hn : map'.heap a with
    | none => rfl
    | some n =>
      obtain ⟨i, hi, ha⟩ := h'.live a (by simp [hn])
      rw [hnil i hi] at ha
      cases ha
  have hzero : size' = 0 := by
    have hsum := h'.size_eq
    simp only at hsum
    rw [hsum]
    exact Finset.sum_eq_zero (fun i hi => by simp [hnil i (Finset.mem_range.mp hi)])
  subst hzero
  refine ⟨{ map' with size := 0 }, by simp [TecMap_clear, hok, bind, Except.bind],
    ⟨chains', h'⟩, ?_, ?_, ?_⟩
  · intro k v
    simp [PartialMap.empty, bindingOf, hfree]
  · simp [PartialMap.dom_empty]
  · simp [PartialMap.dom_empty]

section Operations

variable [DecidableEq K]

/-- The search of an operation on `key`, in the terms of the abstract map. -/
theorem find_node_refines (h : Inv hash_str map chains) (hb : Binds map.heap f) (key : K) :
    (∃ a n, find_node map key (hash_str key % map.capacity) = .ok (some a) ∧
      a ∈ chains (hash_str key % map.capacity) ∧ map.heap a = some n ∧ n.key = key ∧
      f key = some n.value) ∨
    (find_node map key (hash_str key % map.capacity) = .ok none ∧
      (∀ a, keyOf map.heap a ≠ some key) ∧ f key = none) := by
  obtain ⟨r, hr, hfound⟩ := find_node_spec h (Nat.mod_lt (hash_str key) h.capacity_pos) key
  cases r with
  | none =>
    have habsent := h.absent hfound
    exact .inr ⟨hr, habsent, hb.unbound habsent⟩
  | some a =>
    obtain ⟨hmem, hkey⟩ := hfound
    simp only [keyOf, Option.map_eq_some_iff] at hkey
    obtain ⟨n, hn, rfl⟩ := hkey
    exact .inl ⟨a, n, hr, hmem, hn, rfl, hb.lookup hn⟩

theorem TecMap_get_refines (h : Refines hash_str map f) (key : K) :
    TecMap_get hash_str map key = .ok (f key).join := by
  obtain ⟨chains, hinv⟩ := h.inv
  rcases find_node_refines hinv h.binds key with ⟨a, n, hr, _, hn, _, hf⟩ | ⟨hr, _, hf⟩
  · simp [TecMap_get, hr, hf, load, hn, bind, Except.bind]
  · simp [TecMap_get, hr, hf, bind, Except.bind]

/-- Changing the value of a bound key. -/
theorem set_found_refines (h : Refines hash_str map f) {n : TecMapNode K V}
    (hn : map.heap a = some n) (hkey : n.key = key) (value : Option V) :
    Refines hash_str
      { map with heap := Function.update map.heap a (some { n with value := value }) }
      (Function.update f key (some value)) := by
  obtain ⟨chains, hinv⟩ := h.inv
  subst hkey
  have hbound : n.key ∈ f.dom := by simp [PartialMap.dom, h.binds.lookup hn]
  have hdom : PartialMap.dom (Function.update f n.key (some value)) = f.dom := by
    rw [PartialMap.dom_bind, Set.insert_eq_of_mem hbound]
  refine ⟨⟨chains, hinv.congr ?_ ?_ ?_⟩, ?_, ?_, ?_⟩
  · intro p
    by_cases hp : p = a
    · subst hp
      simp [nextOf, hn]
    · simp [nextOf, hp]
  · intro p
    by_cases hp : p = a
    · subst hp
      simp [prevOf, hn]
    · simp [prevOf, hp]
  · intro p
    by_cases hp : p = a
    · subst hp
      simp [keyOf, hn]
    · simp [keyOf, hp]
  · refine h.binds.update (a := a) ?_ (hinv.other hn) ?_ (by simp [bindingOf])
    · intro p hp
      simp [bindingOf, hp]
    · intro k v hkv
      rw [bindingOf_some hn] at hkv
      cases hkv
      rfl
  · rw [hdom]
    exact h.finite
  · rw [hdom]
    exact h.size_eq

/-- Adding a new root node in front of the bucket of an unbound key. -/
theorem set_new_refines (h : Refines hash_str map f) (hinv : Inv hash_str map chains)
    (habsent : ∀ a, keyOf map.heap a ≠ some key) (hf : f key = none)
    (hfresh : map.heap malloc = none) (value : Option V) {root : Option Addr}
    (hroot : map.nodes[hash_str key % map.capacity]? = some root) :
    ∃ heap', modify? (new_node map.heap malloc key value none root) root
        (fun n => { n with prev := some malloc }) = .ok heap' ∧
      Refines hash_str
        ⟨map.nodes.set (hash_str key % map.capacity) (some malloc), map.size + 1, map.capacity,
          heap'⟩ (Function.update f key (some value)) := by
  have hi := Nat.mod_lt (hash_str key) hinv.capacity_pos
  generalize hndx : hash_str key % map.capacity = ndx at *
  have hbk := hinv.bucket ndx root hroot
  have hout : ∀ a ∈ chains ndx, a ≠ malloc := by
    rintro a ha rfl
    obtain ⟨n, hn, _⟩ := hbk.alive a ha
    rw [hfresh] at hn
    cases hn
  have hnode : new_node map.heap malloc key value none root malloc =
      some ⟨key, value, none, root⟩ := by simp [new_node]
  have hrest : ∀ a, a ≠ malloc → new_node map.heap malloc key value none root a = map.heap a :=
    fun a ha => by simp [new_node, ha]
  have hold := hbk.frame (fun a ha => hrest a (hout a ha))
  obtain ⟨heap', hok, hbind, hnext, hframe, hback⟩ := set_prev_spec _ hold.chain
    (fun a ha => hold.isSome ha) hold.back (some malloc)
  have hmalloc : heap' malloc = some ⟨key, value, none, root⟩ := by
    rw [hframe malloc (fun hm => hout malloc hm rfl), hnode]
  have hbound : PartialMap.dom (Function.update f key (some value)) = insert key f.dom :=
    PartialMap.dom_bind
  have hunbound : key ∉ f.dom := by simp [PartialMap.dom, hf]
  have hbindings : ∀ p, p ≠ malloc → bindingOf heap' p = bindingOf map.heap p := by
    intro p hp
    rw [hbind p]
    simp only [bindingOf, hrest p hp]
  refine ⟨heap', hok, ⟨_, hinv.update hi (malloc :: chains ndx) ?_ ?_ ?_ ?_ ?_⟩, ?_, ?_, ?_⟩
  · refine ⟨⟨rfl, ?_⟩, ⟨?_, hback⟩, ?_, ?_⟩
    · have hlink : nextOf heap' malloc = root := by simp [nextOf, hmalloc]
      rw [hlink]
      exact chain_congr (fun a _ => hnext a) hold.chain
    · simp [prevOf, hmalloc]
    · intro a ha
      rcases List.mem_cons.mp ha with rfl | ha
      · exact ⟨_, hmalloc, hndx⟩
      · exact hold.alive_congr ha (hbind a)
    · rw [List.map_cons, List.nodup_cons]
      refine ⟨?_, hold.keys_congr (fun a _ => hbind a)⟩
      intro hmem
      obtain ⟨a, ha, hka⟩ := List.mem_map.mp hmem
      rw [keyOf_of_bindingOf (hbindings a (hout a ha))] at hka
      exact habsent a (hka.trans (by simp [keyOf, hmalloc]))
  · intro a ha hax
    rw [hframe a ha, hrest a (fun heq => hax (by simp [heq]))]
  · intro a ha hax
    exact absurd (List.mem_cons_of_mem _ ha) hax
  · intro a ha hac
    rcases List.mem_cons.mp ha with rfl | ha
    · exact hfresh
    · exact absurd ha hac
  · simp only [List.length_cons]
    omega
  · refine h.binds.update hbindings (fun p _ => habsent p) ?_ (by simp [bindingOf, hmalloc])
    intro k v hkv
    simp [bindingOf, hfresh] at hkv
  · rw [hbound]
    exact h.finite.insert key
  · rw [hbound, Set.ncard_insert_of_notMem hunbound h.finite, ← h.size_eq]

theorem TecMap_set_refines (h : Refines hash_str map f) (hfresh : map.heap malloc = none)
    (key : K) (value : Option V) :
    ∃ map', TecMap_set hash_str map key value malloc = .ok (map', (f key).join) ∧
      Refines hash_str map' (Function.update f key (some value)) := by
  obtain ⟨chains, hinv⟩ := h.inv
  rcases find_node_refines hinv h.binds key with ⟨a, n, hr, _, hn, hkey, hf⟩ | ⟨hr, habsent, hf⟩
  · refine ⟨_, ?_, set_found_refines h hn hkey value⟩
    simp [TecMap_set, hr, hf, load, modify, hn, bind, Except.bind]
  · obtain ⟨root, hroot, _⟩ := hinv.root (Nat.mod_lt (hash_str key) hinv.capacity_pos)
    obtain ⟨heap', hok, hrefines⟩ := set_new_refines h hinv habsent hf hfresh value hroot
    refine ⟨_, ?_, hrefines⟩
    simp [TecMap_set, hr, hf, bucket_at, hroot, hok, bind, Except.bind]

/-- Unlinking the node of a bound key: what both branches of `TecMap_remove` have to show. -/
theorem unlink_refines (h : Refines hash_str map f) (hinv : Inv hash_str map chains)
    {n : TecMapNode K V} (hn : map.heap a = some n) (xs ys : List Addr)
    (hsplit : chains (hash_str n.key % map.capacity) = xs ++ a :: ys)
    (root : Option Addr) (heap' : Heap K V) (hgone : heap' a = none)
    (hbind : ∀ p, p ≠ a → bindingOf heap' p = bindingOf map.heap p)
    (hframe : ∀ p, p ∉ xs ++ a :: ys → heap' p = map.heap p)
    (hchain : Chain (nextOf heap') root (xs ++ ys)) (hback : Back (prevOf heap') none (xs ++ ys)) :
    Refines hash_str
      ⟨map.nodes.set (hash_str n.key % map.capacity) root, map.size - 1, map.capacity, heap'⟩
      (Function.update f n.key none) := by
  have hi := Nat.mod_lt (hash_str n.key) hinv.capacity_pos
  generalize hash_str n.key % map.capacity = ndx at *
  obtain ⟨oldroot, _, hbk⟩ := hinv.root hi
  have hnodup : (xs ++ a :: ys).Nodup := hsplit ▸ chain_nodup hbk.chain
  have hsub : (xs ++ ys).Sublist (xs ++ a :: ys) :=
    List.Sublist.append_left (List.sublist_cons_self a ys) xs
  have hne : ∀ p ∈ xs ++ ys, p ≠ a := by
    rintro p hp rfl
    exact (List.nodup_cons.mp (List.nodup_middle.mp hnodup)).1 hp
  have hpos : 0 < map.size := by
    have := hinv.chain_length_le hi
    rw [hsplit] at this
    simp at this
    omega
  have hbound : n.key ∈ f.dom := by simp [PartialMap.dom, h.binds.lookup hn]
  have hdom : PartialMap.dom (Function.update f n.key none) = f.dom \ {n.key} :=
    PartialMap.dom_unbind
  refine ⟨⟨_, hinv.update hi (xs ++ ys) ?_ ?_ ?_ ?_ ?_⟩, ?_, ?_, ?_⟩
  · exact hbk.relink (hsplit ▸ hsub) (fun p hp => hbind p (hne p hp)) hchain hback
  · intro p hp _
    exact hframe p (hsplit ▸ hp)
  · intro p hp hpx
    rw [hsplit] at hp
    have hpa : p = a := by
      simp only [List.mem_append, List.mem_cons] at hp hpx
      tauto
    rw [hpa]
    exact hgone
  · intro p hp hpc
    exact absurd (hsplit ▸ hsub.subset hp) hpc
  · rw [hsplit]
    simp only [List.length_append, List.length_cons]
    omega
  · refine h.binds.update hbind (hinv.other hn) ?_ (by simp [bindingOf, hgone])
    intro k v hkv
    rw [bindingOf_some hn] at hkv
    cases hkv
    rfl
  · rw [hdom]
    exact h.finite.sdiff
  · rw [hdom, Set.ncard_sdiff_singleton_of_mem hbound, ← h.size_eq]

/-- The first branch of `TecMap_remove`: the node is the root of its bucket. -/
theorem remove_root_refines (h : Refines hash_str map f) (hinv : Inv hash_str map chains)
    {n : TecMapNode K V} (hn : map.heap a = some n) {ys : List Addr}
    (hsplit : chains (hash_str n.key % map.capacity) = a :: ys) :
    ∃ heap₁ r, modify? map.heap n.next (fun m => { m with prev := none }) = .ok heap₁ ∧
      delete_node heap₁ a = .ok r ∧
      Refines hash_str
        ⟨map.nodes.set (hash_str n.key % map.capacity) n.next, map.size - 1, map.capacity, r.1⟩
        (Function.update f n.key none) := by
  obtain ⟨root, _, hbk⟩ := hinv.root (Nat.mod_lt (hash_str n.key) hinv.capacity_pos)
  rw [hsplit] at hbk
  have hnodup := List.nodup_cons.mp (chain_nodup hbk.chain)
  have htail : Chain (nextOf map.heap) n.next ys := by
    simpa [nextOf, hn] using (chain_cons.mp hbk.chain).2
  obtain ⟨heap₁, hok, hbind, hnext, hframe, hback⟩ := set_prev_spec map.heap htail
    (fun p hp => hbk.isSome (by simp [hp])) hbk.back.2 none
  have ha : heap₁ a = some n := (hframe a hnodup.1).trans hn
  have hne : ∀ p ∈ ys, p ≠ a := by
    rintro p hp rfl
    exact hnodup.1 hp
  refine ⟨heap₁, (Function.update heap₁ a none, n.next), hok, by simp [delete_node, ha], ?_⟩
  refine unlink_refines h hinv hn [] ys hsplit _ _ (by simp) ?_ ?_ ?_ ?_
  · intro p hp
    rw [← hbind p]
    simp [bindingOf, hp]
  · intro p hp
    simp only [List.nil_append, List.mem_cons, not_or] at hp
    rw [← hframe p hp.2]
    simp [hp.1]
  · refine chain_congr (fun p hp => ?_) htail
    rw [← hnext p]
    simp [nextOf, hne p hp]
  · refine back_congr (fun p hp => ?_) hback
    simp [prevOf, hne p hp]

/-- The second branch: the node follows the node `c` of its bucket. -/
theorem remove_bucket_refines (h : Refines hash_str map f) (hinv : Inv hash_str map chains)
    {n : TecMapNode K V} (hn : map.heap a = some n) {xs ys : List Addr} {c : Addr}
    (hsplit : chains (hash_str n.key % map.capacity) = xs ++ c :: a :: ys) :
    ∃ heap₁ heap₂ r, modify map.heap c (fun m => { m with next := n.next }) = .ok heap₁ ∧
      modify? heap₁ n.next (fun m => { m with prev := some c }) = .ok heap₂ ∧
      delete_node heap₂ a = .ok r ∧
      Refines hash_str ⟨map.nodes, map.size - 1, map.capacity, r.1⟩
        (Function.update f n.key none) := by
  have hi := Nat.mod_lt (hash_str n.key) hinv.capacity_pos
  obtain ⟨root, hroot, hbk⟩ := hinv.root hi
  rw [hsplit] at hbk
  obtain ⟨m, hm, _⟩ := hbk.alive c (by simp)
  have hnodup : (xs ++ c :: a :: ys).Nodup := chain_nodup hbk.chain
  simp only [List.nodup_append, List.nodup_cons, List.mem_cons, not_or] at hnodup
  obtain ⟨_, ⟨⟨hca, hcy⟩, hay, _⟩, hdisj⟩ := hnodup
  have hxc : ∀ p ∈ xs, p ≠ c := fun p hp => hdisj p hp c (by simp)
  have hxa : ∀ p ∈ xs, p ≠ a := fun p hp => hdisj p hp a (by simp)
  have hxy : ∀ p ∈ xs, p ∉ ys := fun p hp hpy => hdisj p hp p (by simp [hpy]) rfl
  have hyc : ∀ p ∈ ys, p ≠ c := fun p hp hpc => hcy (hpc ▸ hp)
  have hya : ∀ p ∈ ys, p ≠ a := fun p hp hpa => hay (hpa ▸ hp)
  obtain ⟨_, _, _, hright⟩ := segment_append.mp hbk.chain
  have htail : Chain (nextOf map.heap) n.next ys := by
    have hnext : nextOf map.heap a = n.next := by simp [nextOf, hn]
    exact hnext ▸ (segment_cons.mp hright).2
  obtain ⟨hbackxs, hbackc, _, hbackys⟩ := back_append_cons.mp hbk.back
  let heap₁ := Function.update map.heap c (some { m with next := n.next })
  have hrest : ∀ p, p ≠ c → heap₁ p = map.heap p := fun p hp => Function.update_of_ne hp _ _
  obtain ⟨heap₂, hok, hbind, hnext, hframe, hback⟩ := set_prev_spec heap₁
    (chain_congr (fun p hp => by simp only [nextOf, hrest p (hyc p hp)]) htail)
    (fun p hp => by rw [hrest p (hyc p hp)]; exact hbk.isSome (by simp [hp]))
    (back_congr (fun p hp => by simp only [prevOf, hrest p (hyc p hp)]) hbackys) (some c)
  have ha : heap₂ a = some n := by rw [hframe a hay, hrest a (Ne.symm hca), hn]
  have hxs : ∀ p ∈ xs, heap₂ p = map.heap p := fun p hp => by
    rw [hframe p (hxy p hp), hrest p (hxc p hp)]
  have hset : map.nodes.set (hash_str n.key % map.capacity) root = map.nodes := by
    rw [← List.getElem_of_getElem? hroot |>.2]
    exact List.set_getElem_self _
  have key := unlink_refines h hinv hn (xs ++ [c]) ys (by simpa using hsplit) root
    (Function.update heap₂ a none) (by simp) ?_ ?_ ?_ ?_
  · rw [hset] at key
    exact ⟨heap₁, heap₂, (Function.update heap₂ a none, n.next), by simp [modify, hm, heap₁], hok,
      by simp [delete_node, ha], key⟩
  · intro p hp
    have hupd : bindingOf (Function.update heap₂ a none) p = bindingOf heap₂ p := by
      simp [bindingOf, hp]
    rw [hupd, hbind p]
    by_cases hpc : p = c
    · subst hpc
      simp [bindingOf, heap₁, hm]
    · simp only [bindingOf, hrest p hpc]
  · intro p hp
    simp only [List.append_assoc, List.cons_append, List.nil_append, List.mem_append,
      List.mem_cons, not_or] at hp
    rw [Function.update_of_ne hp.2.2.1, hframe p hp.2.2.2, hrest p hp.2.1]
  · have hunlink : Chain (nextOf (Function.update heap₂ a none)) root (xs ++ c :: ys) := by
      refine chain_unlink hbk.chain ?_ ?_ ?_
      · have hc : nextOf (Function.update heap₂ a none) c = nextOf heap₂ c := by
          simp [nextOf, hca]
        rw [hc, hnext c]
        simp [nextOf, heap₁, hn]
      · intro p hp
        simp only [nextOf, Function.update_of_ne (hxa p hp), hxs p hp]
      · intro p hp
        have hp' : nextOf (Function.update heap₂ a none) p = nextOf heap₂ p := by
          simp [nextOf, hya p hp]
        rw [hp', hnext p]
        simp only [nextOf, hrest p (hyc p hp)]
    simpa using hunlink
  · have hrelink : Back (prevOf (Function.update heap₂ a none)) none (xs ++ c :: ys) := by
      refine back_append_cons.mpr ⟨back_congr ?_ hbackxs, ?_, back_congr ?_ hback⟩
      · intro p hp
        simp only [prevOf, Function.update_of_ne (hxa p hp), hxs p hp]
      · rw [← hbackc]
        have hc : heap₂ c = heap₁ c := hframe c hcy
        simp [prevOf, hca, hc, heap₁, hm]
      · intro p hp
        simp [prevOf, hya p hp]
    simpa using hrelink

theorem TecMap_remove_refines (h : Refines hash_str map f) (key : K) :
    ∃ map', TecMap_remove hash_str map key = .ok (map', (f key).join) ∧
      Refines hash_str map' (Function.update f key none) := by
  obtain ⟨chains, hinv⟩ := h.inv
  rcases find_node_refines hinv h.binds key with ⟨a, n, hr, hmem, hn, rfl, hf⟩ | ⟨hr, _, hf⟩
  · obtain ⟨xs, ys, hsplit⟩ := List.append_of_mem hmem
    obtain ⟨root, _, hbk⟩ := hinv.root (Nat.mod_lt (hash_str n.key) hinv.capacity_pos)
    rw [hsplit] at hbk
    -- The `prev` pointer tells whether a node stands in front.
    have hprev : n.prev = xs.getLast? := by
      simpa [prevOf, hn] using (back_append_cons.mp hbk.back).2.1
    rcases List.eq_nil_or_concat xs with rfl | ⟨xs, c, rfl⟩
    · obtain ⟨heap₁, r, hok, hdel, hrefines⟩ := remove_root_refines h hinv hn hsplit
      refine ⟨_, ?_, hrefines⟩
      have hnull : n.prev = none := hprev
      simp [TecMap_remove, hr, hf, load, hn, hnull, hok, hdel, bind, Except.bind]
    · obtain ⟨heap₁, heap₂, r, hok, hok', hdel, hrefines⟩ :=
        remove_bucket_refines h hinv hn (c := c) (by simpa using hsplit)
      refine ⟨_, ?_, hrefines⟩
      have hc : n.prev = some c := by simpa using hprev
      simp [TecMap_remove, hr, hf, load, hn, hc, hok, hok', hdel, bind, Except.bind]
  · have hsame : Function.update f key none = f := Function.update_eq_self_iff.mpr hf.symm
    refine ⟨map, ?_, by rw [hsame]; exact h⟩
    simp [TecMap_remove, hr, hf, bind, Except.bind]

/-- One operation: the same outcome, and the refinement is kept. -/
theorem exec_refines (h : Refines hash_str map f) (op : Op K V) (hfresh : Fresh map op) :
    ∃ map', exec hash_str map op = .ok (map', (f.exec op).2) ∧
      Refines hash_str map' (f.exec op).1 := by
  cases op with
  | set key value malloc =>
    obtain ⟨map', hok, h'⟩ := TecMap_set_refines h hfresh key value
    refine ⟨map', ?_, h'⟩
    simp [exec, hok, h'.size_eq, PartialMap.exec, PartialMap.apply, bind, Except.bind]
  | get key =>
    refine ⟨map, ?_, h⟩
    simp [exec, TecMap_get_refines h key, h.size_eq, PartialMap.exec, PartialMap.apply, bind,
      Except.bind]
  | remove key =>
    obtain ⟨map', hok, h'⟩ := TecMap_remove_refines h key
    refine ⟨map', ?_, h'⟩
    simp [exec, hok, h'.size_eq, PartialMap.exec, PartialMap.apply, bind, Except.bind]
  | clear =>
    obtain ⟨map', hok, h'⟩ := TecMap_clear_refines h
    refine ⟨map', ?_, h'⟩
    simp [exec, hok, h'.size_eq, PartialMap.exec, PartialMap.apply, bind, Except.bind]

theorem runs_refine (hash_str : K → Nat) (size : Nat) (ops : List (Op K V))
    (hfresh : Allowed (exec hash_str) Fresh (TecMap_init (fun _ => none) size) ops) :
    ∃ map', run (exec hash_str) (TecMap_init (fun _ => none) size) ops =
        .ok (map', (specRun PartialMap.exec PartialMap.empty ops).2) ∧
      Refines hash_str map' (specRun PartialMap.exec PartialMap.empty ops).1 :=
  run_simulation (C := Fresh) (D := fun _ _ => True) (R := Refines hash_str)
    (fun _ _ op h hC _ => exec_refines h op hC) (TecMap_init_refines hash_str size) hfresh
    (specAllowed_of_forall (fun _ _ => trivial) ops _)

/-- Every sequence of operations on a new map of any capacity, under any hash function, returns
what the partial function returns and keeps the size at the number of bound keys. -/
theorem map_refines_partial_map (hash_str : K → Nat) (size : Nat) (ops : List (Op K V))
    (hfresh : Allowed (exec hash_str) Fresh (TecMap_init (fun _ => none) size) ops) :
    ∃ map', run (exec hash_str) (TecMap_init (fun _ => none) size) ops =
        .ok (map', (specRun PartialMap.exec PartialMap.empty ops).2) ∧
      Refines hash_str map' (specRun PartialMap.exec PartialMap.empty ops).1 :=
  runs_refine hash_str size ops hfresh

end Operations

/-- Three keys in one bucket: the middle node, the root and the last node leave, and a removed
key comes back. -/
theorem map_refines_partial_map_collisions :
    ∃ map', run (exec (fun _ => 0)) (TecMap_init (fun _ => none) 1)
        [.set 1 (some 10) 0, .set 2 (some 20) 1, .set 3 (some 30) 2, .remove 2, .set 2 none 1,
          .remove 2, .get 3, .remove 1] =
        .ok (map', (specRun PartialMap.exec PartialMap.empty
          ([.set 1 (some 10) 0, .set 2 (some 20) 1, .set 3 (some 30) 2, .remove 2, .set 2 none 1,
            .remove 2, .get 3, .remove 1] : List (Op Nat Nat))).2) ∧
      Refines (fun _ => 0) map' (specRun PartialMap.exec PartialMap.empty
          ([.set 1 (some 10) 0, .set 2 (some 20) 1, .set 3 (some 30) 2, .remove 2, .set 2 none 1,
            .remove 2, .get 3, .remove 1] : List (Op Nat Nat))).1 :=
  map_refines_partial_map (fun _ => 0) 1 _ (by decide)

end Tecc.Map
