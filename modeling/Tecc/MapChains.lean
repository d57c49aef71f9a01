import Tecc.Map
import Mathlib.Algebra.BigOperators.Group.Finset.Basic
import Mathlib.Algebra.Order.BigOperators.Group.Finset

/-! The pointer structure of the hash table: its buckets are disjoint doubly linked lists that
hold every allocated node, each in the bucket of its key. -/
namespace Tecc.Map

open Linked

variable {K V : Type} {hash_str : K → Nat} {map map' : TecMap K V}
  {heap heap' : Heap K V} {chains : Nat → List Addr} {key : K} {value : Option V}
  {p q : Option Addr} {a b : Addr} {xs ys : List Addr} {i ndx : Nat}

def nextOf (heap : Heap K V) (a : Addr) : Option Addr := (heap a).bind TecMapNode.next
def prevOf (heap : Heap K V) (a : Addr) : Option Addr := (heap a).bind TecMapNode.prev
def keyOf (heap : Heap K V) (a : Addr) : Option K := (heap a).map TecMapNode.key

/-- The binding that a cell holds. -/
def bindingOf (heap : Heap K V) (a : Addr) : Option (K × Option V) :=
  (heap a).map fun n => (n.key, n.value)

/-- The bucket `i` of a table of `capacity` buckets: from its root pointer a doubly linked list
of live nodes, whose keys hash to `i` and differ from each other. -/
structure Bucket (hash_str : K → Nat) (capacity : Nat) (heap : Heap K V) (i : Nat)
    (root : Option Addr) (xs : List Addr) : Prop where
  chain : Chain (nextOf heap) root xs
  back : Back (prevOf heap) none xs
  alive : ∀ a ∈ xs, ∃ n, heap a = some n ∧ hash_str n.key % capacity = i
  keys : (xs.map (keyOf heap)).Nodup

structure Inv (hash_str : K → Nat) (map : TecMap K V) (chains : Nat → List Addr) : Prop where
  nodes_length : map.nodes.length = map.capacity
  capacity_pos : 0 < map.capacity
  bucket : ∀ i root, map.nodes[i]? = some root →
    Bucket hash_str map.capacity map.heap i root (chains i)
  live : ∀ a, (map.heap a).isSome → ∃ i < map.capacity, a ∈ chains i
  size_eq : map.size = ∑ i ∈ Finset.range map.capacity, (chains i).length

theorem keyOf_of_bindingOf (h : bindingOf heap' a = bindingOf heap a) :
    keyOf heap' a = keyOf heap a := by
  have hk : ∀ g : Heap K V, keyOf g a = (bindingOf g a).map Prod.fst := by
    intro g
    simp [keyOf, bindingOf, Function.comp_def]
  rw [hk, hk, h]

theorem isSome_of_bindingOf (h : bindingOf heap' a = bindingOf heap a) :
    (heap' a).isSome = (heap a).isSome := by
  simpa [bindingOf] using congrArg Option.isSome h

/-- A bucket survives changes elsewhere in the heap. -/
theorem Bucket.frame {capacity : Nat} (h : Bucket hash_str capacity heap i p xs)
    (hf : ∀ a ∈ xs, heap' a = heap a) : Bucket hash_str capacity heap' i p xs where
  chain := chain_congr (fun a ha => by simp [nextOf, hf a ha]) h.chain
  back := back_congr (fun a ha => by simp [prevOf, hf a ha]) h.back
  alive a ha := by rw [hf a ha]; exact h.alive a ha
  keys := by
    have heq : xs.map (keyOf heap') = xs.map (keyOf heap) :=
      List.map_congr_left (fun a ha => by simp [keyOf, hf a ha])
    rw [heq]
    exact h.keys

theorem Bucket.isSome {capacity : Nat} (h : Bucket hash_str capacity heap i p xs) (ha : a ∈ xs) :
    (heap a).isSome := by
  obtain ⟨n, hn, _⟩ := h.alive a ha
  simp [hn]

/-- Liveness and keys survive changes of links: they depend on the bindings only. -/
theorem Bucket.alive_congr {capacity : Nat} (h : Bucket hash_str capacity heap i p xs)
    (ha : a ∈ xs) (hb : bindingOf heap' a = bindingOf heap a) :
    ∃ n, heap' a = some n ∧ hash_str n.key % capacity = i := by
  obtain ⟨n, hn, hi⟩ := h.alive a ha
  obtain ⟨m, hm⟩ := Option.isSome_iff_exists.mp ((isSome_of_bindingOf hb).trans (by simp [hn]))
  have hkey := keyOf_of_bindingOf hb
  simp only [keyOf, hm, hn, Option.map_some, Option.some.injEq] at hkey
  exact ⟨m, hm, by rw [hkey]; exact hi⟩

theorem Bucket.keys_congr {capacity : Nat} (h : Bucket hash_str capacity heap i p xs)
    (hb : ∀ a ∈ xs, bindingOf heap' a = bindingOf heap a) : (xs.map (keyOf heap')).Nodup := by
  have heq : xs.map (keyOf heap') = xs.map (keyOf heap) :=
    List.map_congr_left (fun a ha => keyOf_of_bindingOf (hb a ha))
  rw [heq]
  exact h.keys

/-- Some nodes of a bucket, linked anew. -/
theorem Bucket.relink {capacity : Nat} (h : Bucket hash_str capacity heap i p xs)
    {root : Option Addr} (hsub : ys.Sublist xs)
    (hb : ∀ a ∈ ys, bindingOf heap' a = bindingOf heap a)
    (hchain : Chain (nextOf heap') root ys) (hback : Back (prevOf heap') none ys) :
    Bucket hash_str capacity heap' i root ys where
  chain := hchain
  back := hback
  alive a ha := h.alive_congr (hsub.subset ha) (hb a ha)
  keys := by
    have heq : ys.map (keyOf heap') = ys.map (keyOf heap) :=
      List.map_congr_left (fun a ha => keyOf_of_bindingOf (hb a ha))
    rw [heq]
    exact h.keys.sublist (hsub.map _)

theorem Inv.root (h : Inv hash_str map chains) (hi : i < map.capacity) :
    ∃ root, map.nodes[i]? = some root ∧
      Bucket hash_str map.capacity map.heap i root (chains i) := by
  have hl : i < map.nodes.length := by rw [h.nodes_length]; exact hi
  exact ⟨_, List.getElem?_eq_getElem hl, h.bucket i _ (List.getElem?_eq_getElem hl)⟩

theorem Inv.alive (h : Inv hash_str map chains) (hi : i < map.capacity) (ha : a ∈ chains i) :
    ∃ n, map.heap a = some n ∧ hash_str n.key % map.capacity = i := by
  obtain ⟨root, _, hb⟩ := h.root hi
  exact hb.alive a ha

/-- Distinct buckets share no node. -/
theorem Inv.disjoint (h : Inv hash_str map chains) {j : Nat} (hi : i < map.capacity)
    (hj : j < map.capacity) (ha : a ∈ chains i) (ha' : a ∈ chains j) : i = j := by
  obtain ⟨n, hn, hni⟩ := h.alive hi ha
  obtain ⟨m, hm, hmj⟩ := h.alive hj ha'
  rw [hn] at hm
  cases hm
  rw [← hni, ← hmj]

theorem Inv.chain_of_node (h : Inv hash_str map chains) {n : TecMapNode K V}
    (hn : map.heap a = some n) : a ∈ chains (hash_str n.key % map.capacity) := by
  obtain ⟨i, hi, ha⟩ := h.live a (by simp [hn])
  obtain ⟨m, hm, hmi⟩ := h.alive hi ha
  rw [hn] at hm
  cases hm
  rw [hmi]
  exact ha

/-- No two nodes hold equal keys. -/
theorem Inv.key_unique (h : Inv hash_str map chains) {n m : TecMapNode K V}
    (hn : map.heap a = some n) (hm : map.heap b = some m) (hk : n.key = m.key) : a = b := by
  have ha := h.chain_of_node hn
  have hb := h.chain_of_node hm
  rw [← hk] at hb
  obtain ⟨root, _, hbk⟩ := h.root (Nat.mod_lt (hash_str n.key) h.capacity_pos)
  exact List.inj_on_of_nodup_map hbk.keys ha hb (by simp [keyOf, hn, hm, hk])

theorem Inv.chain_length_le (h : Inv hash_str map chains) (hi : i < map.capacity) :
    (chains i).length ≤ map.size := by
  rw [h.size_eq]
  exact Finset.single_le_sum (f := fun i => (chains i).length) (fun _ _ => Nat.zero_le _)
    (Finset.mem_range.mpr hi)

theorem sum_length_update (chains : Nat → List Addr) (xs : List Addr) {n : Nat} (hi : i < n) :
    (∑ j ∈ Finset.range n, (Function.update chains i xs j).length) + (chains i).length =
      (∑ j ∈ Finset.range n, (chains j).length) + xs.length := by
  have hmem := Finset.mem_range.mpr hi
  rw [← Finset.add_sum_erase _ _ hmem, ← Finset.add_sum_erase (Finset.range n) _ hmem]
  have hrest : ∑ j ∈ (Finset.range n).erase i, (Function.update chains i xs j).length =
      ∑ j ∈ (Finset.range n).erase i, (chains j).length :=
    Finset.sum_congr rfl (fun j hj => by
      rw [Function.update_of_ne (Finset.ne_of_mem_erase hj)])
  rw [hrest, Function.update_self]
  omega

/-- Only the bucket `ndx` changes: what an operation on one key has to show. -/
theorem Inv.update (h : Inv hash_str map chains) (hi : ndx < map.capacity) (xs : List Addr)
    {root : Option Addr} {size : Nat}
    (hbucket : Bucket hash_str map.capacity heap' ndx root xs)
    (hframe : ∀ a, a ∉ chains ndx → a ∉ xs → heap' a = map.heap a)
    (hgone : ∀ a ∈ chains ndx, a ∉ xs → heap' a = none)
    (hnew : ∀ a ∈ xs, a ∉ chains ndx → map.heap a = none)
    (hsize : size + (chains ndx).length = map.size + xs.length) :
    Inv hash_str ⟨map.nodes.set ndx root, size, map.capacity, heap'⟩
      (Function.update chains ndx xs) where
  nodes_length := by simpa using h.nodes_length
  capacity_pos := h.capacity_pos
  bucket := by
    intro i r hr
    by_cases hin : i = ndx
    · subst hin
      have hl : i < map.nodes.length := by rw [h.nodes_length]; exact hi
      simp only [List.getElem?_set_self hl, Option.some.injEq] at hr
      subst hr
      simpa using hbucket
    · simp only [List.getElem?_set_ne (Ne.symm hin)] at hr
      have hib : i < map.capacity := by
        rw [← h.nodes_length]
        exact (List.getElem?_eq_some_iff.mp hr).1
      rw [Function.update_of_ne hin]
      refine (h.bucket i r hr).frame ?_
      intro a ha
      refine hframe a (fun ha' => hin (h.disjoint hib hi ha ha')) ?_
      intro hax
      obtain ⟨n, hn, _⟩ := h.alive hib ha
      have := hnew a hax (fun ha' => hin (h.disjoint hib hi ha ha'))
      simp [hn] at this
  live := by
    intro a ha
    by_cases hax : a ∈ xs
    · exact ⟨ndx, hi, by simpa using hax⟩
    · have hac : a ∉ chains ndx := fun hac => by simp [hgone a hac hax] at ha
      change (heap' a).isSome at ha
      rw [hframe a hac hax] at ha
      obtain ⟨j, hj, haj⟩ := h.live a ha
      have hne : j ≠ ndx := by
        rintro rfl
        exact hac haj
      exact ⟨j, hj, by simpa [Function.update_of_ne hne] using haj⟩
  size_eq := by
    have := sum_length_update chains xs hi
    have := h.size_eq
    simp only
    omega

/-- Values may change freely. -/
theorem Inv.congr (h : Inv hash_str map chains) (hnext : ∀ a, nextOf heap' a = nextOf map.heap a)
    (hprev : ∀ a, prevOf heap' a = prevOf map.heap a)
    (hkey : ∀ a, keyOf heap' a = keyOf map.heap a) :
    Inv hash_str { map with heap := heap' } chains where
  nodes_length := h.nodes_length
  capacity_pos := h.capacity_pos
  size_eq := h.size_eq
  live a ha := by
    have hsome : (heap' a).isSome = (map.heap a).isSome := by
      simpa [keyOf] using congrArg Option.isSome (hkey a)
    exact h.live a (hsome.symm.trans ha)
  bucket i root hr := by
    have hb := h.bucket i root hr
    refine ⟨chain_congr (fun a _ => hnext a) hb.chain, back_congr (fun a _ => hprev a) hb.back,
      ?_, ?_⟩
    · intro a ha
      obtain ⟨n, hn, hi⟩ := hb.alive a ha
      have hk := hkey a
      simp only [keyOf, hn, Option.map_some, Option.map_eq_some_iff] at hk
      obtain ⟨m, hm, hmn⟩ := hk
      exact ⟨m, hm, by rw [hmn]; exact hi⟩
    · simpa only [funext hkey] using hb.keys

/-- The result of a search for `key` along a chain. -/
def Found (heap : Heap K V) (key : K) (xs : List Addr) : Option Addr → Prop
  | some a => a ∈ xs ∧ keyOf heap a = some key
  | none => ∀ a ∈ xs, keyOf heap a ≠ some key

section Search

variable [DecidableEq K]

theorem find_in_bucket_spec (hchain : Chain (nextOf heap) p xs)
    (halive : ∀ a ∈ xs, (heap a).isSome) {fuel : Nat} (hfuel : xs.length ≤ fuel) :
    ∃ r, find_in_bucket heap key fuel p = .ok r ∧ Found heap key xs r := by
  induction xs generalizing p fuel with
  | nil =>
    cases hchain
    cases fuel <;> exact ⟨none, rfl, by simp [Found]⟩
  | cons a xs ih =>
    obtain ⟨rfl, htail⟩ := hchain
    obtain ⟨n, hn⟩ := Option.isSome_iff_exists.mp (halive a (by simp))
    cases fuel with
    | zero => simp at hfuel
    | succ fuel =>
      by_cases hkey : n.key = key
      · refine ⟨some a, ?_, by simp, by simp [keyOf, hn, hkey]⟩
        simp [find_in_bucket, load, hn, hkey, bind, Except.bind]
      · have hnext : nextOf heap a = n.next := by simp [nextOf, hn]
        rw [hnext] at htail
        obtain ⟨r, hr, hfound⟩ := ih htail (fun b hb => halive b (by simp [hb]))
          (Nat.le_of_succ_le_succ hfuel)
        refine ⟨r, ?_, ?_⟩
        · simpa [find_in_bucket, load, hn, hkey, bind, Except.bind] using hr
        · cases r with
          | some b => exact ⟨by simp [hfound.1], hfound.2⟩
          | none =>
            intro b hb
            rcases List.mem_cons.mp hb with rfl | hb
            · simp [keyOf, hn, hkey]
            · exact hfound b hb

/-- The two searches of `find_node`, at the root and along the rest of the bucket. -/
theorem find_node_eq (map : TecMap K V) (key : K) (ndx : Nat) {root : Option Addr}
    (hr : map.nodes[ndx]? = some root) :
    find_node map key ndx = find_in_bucket map.heap key (map.size + 1) root := by
  cases root with
  | none => simp [find_node, bucket_at, hr, find_in_bucket, bind, Except.bind]
  | some a => simp [find_node, bucket_at, hr, find_in_bucket, bind, Except.bind]

theorem find_node_spec (h : Inv hash_str map chains) (hi : ndx < map.capacity) (key : K) :
    ∃ r, find_node map key ndx = .ok r ∧ Found map.heap key (chains ndx) r := by
  obtain ⟨root, hr, hb⟩ := h.root hi
  rw [find_node_eq map key ndx hr]
  exact find_in_bucket_spec hb.chain (fun a ha => hb.isSome ha)
    (Nat.le_succ_of_le (h.chain_length_le hi))

end Search

/-- Assigning the `prev` member of the first node of a chain, where there is one. -/
theorem set_prev_spec (heap : Heap K V) (hchain : Chain (nextOf heap) p xs)
    (halive : ∀ a ∈ xs, (heap a).isSome) (hback : Back (prevOf heap) q xs) (q' : Option Addr) :
    ∃ heap', modify? heap p (fun m => { m with prev := q' }) = .ok heap' ∧
      (∀ a, bindingOf heap' a = bindingOf heap a) ∧ (∀ a, nextOf heap' a = nextOf heap a) ∧
      (∀ a, a ∉ xs → heap' a = heap a) ∧ Back (prevOf heap') q' xs := by
  cases xs with
  | nil =>
    cases hchain
    exact ⟨heap, rfl, fun _ => rfl, fun _ => rfl, fun _ _ => rfl, trivial⟩
  | cons b xs =>
    have hnodup := chain_nodup hchain
    obtain ⟨rfl, _⟩ := hchain
    obtain ⟨n, hn⟩ := Option.isSome_iff_exists.mp (halive b (by simp))
    refine ⟨Function.update heap b (some { n with prev := q' }), by simp [modify?, modify, hn],
      ?_, ?_, ?_, ?_⟩
    · intro a
      by_cases hab : a = b
      · subst hab
        simp [bindingOf, hn]
      · simp [bindingOf, hab]
    · intro a
      by_cases hab : a = b
      · subst hab
        simp [nextOf, hn]
      · simp [nextOf, hab]
    · intro a ha
      rw [Function.update_of_ne (fun hab => ha (by simp [hab]))]
    · refine ⟨by simp [prevOf], back_congr ?_ hback.2⟩
      intro a ha
      have hab : a ≠ b := by
        rintro rfl
        exact (List.nodup_cons.mp hnodup).1 ha
      simp [prevOf, hab]

/-- `delete_bucket` frees the nodes of the chain and no others. -/
theorem delete_bucket_spec (hchain : Chain (nextOf heap) p xs) (halive : ∀ a ∈ xs, (heap a).isSome)
    {fuel : Nat} (hfuel : xs.length ≤ fuel) :
    ∃ heap', delete_bucket fuel heap p = .ok heap' ∧ (∀ a ∈ xs, heap' a = none) ∧
      ∀ a, a ∉ xs → heap' a = heap a := by
  induction xs generalizing heap p fuel with
  | nil =>
    cases hchain
    cases fuel <;> exact ⟨heap, rfl, by simp, fun _ _ => rfl⟩
  | cons b xs ih =>
    have hnodup := List.nodup_cons.mp (chain_nodup hchain)
    obtain ⟨rfl, htail⟩ := hchain
    obtain ⟨n, hn⟩ := Option.isSome_iff_exists.mp (halive b (by simp))
    have hnext : nextOf heap b = n.next := by simp [nextOf, hn]
    rw [hnext] at htail
    have hne : ∀ a ∈ xs, Function.update heap b none a = heap a := by
      intro a ha
      refine Function.update_of_ne ?_ _ _
      rintro rfl
      exact hnodup.1 ha
    cases fuel with
    | zero => simp at hfuel
    | succ fuel =>
      obtain ⟨heap', hok, hgone, hframe⟩ := @ih (Function.update heap b none) _
        (chain_congr (fun a ha => by simp only [nextOf, hne a ha]) htail)
        (fun a ha => by rw [hne a ha]; exact halive a (by simp [ha]))
        fuel (Nat.le_of_succ_le_succ hfuel)
      refine ⟨heap', ?_, ?_, ?_⟩
      · simpa [delete_bucket, delete_node, hn, bind, Except.bind] using hok
      · intro a ha
        rcases List.mem_cons.mp ha with rfl | ha
        · rw [hframe a hnodup.1, Function.update_self]
        · exact hgone a ha
      · intro a ha
        obtain ⟨hab, hax⟩ := not_or.mp (mt List.mem_cons.mpr ha)
        rw [hframe a hax, Function.update_of_ne hab]

/-- `map->size` is set to 0 only at the end of `TecMap_clear`: until then `size` counts the nodes
of the buckets that are not cleared yet. -/
theorem clear_bucket_spec {size i : Nat} (h : Inv hash_str { map with size := size } chains)
    (hsize : size ≤ map.size) (hi : i < map.capacity) :
    ∃ map' size', clear_bucket map i = .ok map' ∧ map'.size = map.size ∧
      map'.capacity = map.capacity ∧ size' ≤ size ∧
      Inv hash_str { map' with size := size' } (Function.update chains i []) := by
  obtain ⟨root, hroot, hbk⟩ := h.root hi
  have hlen : (chains i).length ≤ size := h.chain_length_le hi
  change map.nodes[i]? = some root at hroot
  cases root with
  | none =>
    have hnil := chain_none hbk.chain
    refine ⟨map, size, by simp [clear_bucket, bucket_at, hroot, bind, Except.bind], rfl, rfl,
      le_refl size, ?_⟩
    rw [← hnil, Function.update_eq_self]
    exact h
  | some a =>
    obtain ⟨heap', hok, hgone, hframe⟩ := delete_bucket_spec hbk.chain
      (fun b hb => hbk.isSome hb) (hlen.trans hsize)
    change delete_bucket map.size map.heap (some a) = .ok heap' at hok
    refine ⟨{ map with heap := heap', nodes := map.nodes.set i none },
      size - (chains i).length, by simp [clear_bucket, bucket_at, hroot, hok, bind, Except.bind],
      rfl, rfl, Nat.sub_le _ _, ?_⟩
    refine h.update hi [] ⟨rfl, trivial, by simp, by simp⟩ ?_ ?_ ?_ ?_
    · intro b hb _
      exact hframe b hb
    · intro b hb _
      exact hgone b hb
    · intro b hb
      simp at hb
    · simp only [List.length_nil]
      omega

theorem clear_buckets_spec (is : List Nat) : ∀ {map : TecMap K V} (size : Nat)
    {chains : Nat → List Addr}, Inv hash_str { map with size := size } chains →
    size ≤ map.size → (∀ i ∈ is, i < map.capacity) →
    ∃ map' size' chains', clear_buckets map is = .ok map' ∧ map'.capacity = map.capacity ∧
      Inv hash_str { map' with size := size' } chains' ∧ (∀ i ∈ is, chains' i = []) ∧
      ∀ i, chains i = [] → chains' i = [] := by
  induction is with
  | nil =>
    intro map size chains h _ _
    exact ⟨map, size, chains, rfl, rfl, h, by simp, fun _ hi => hi⟩
  | cons i is ih =>
    intro map size chains h hsize hcap
    obtain ⟨map₁, size₁, hok, hsame, hcapacity, hle, h₁⟩ :=
      clear_bucket_spec h hsize (hcap i (by simp))
    obtain ⟨map₂, size₂, chains₂, hok₂, hcapacity₂, h₂, hcleared, hkept⟩ :=
      ih _ h₁ (by omega) (fun j hj => by rw [hcapacity]; exact hcap j (by simp [hj]))
    refine ⟨map₂, size₂, chains₂, by simp [clear_buckets, hok, hok₂, bind, Except.bind],
      hcapacity₂.trans hcapacity, h₂, ?_, ?_⟩
    · intro j hj
      rcases List.mem_cons.mp hj with rfl | hj
      · exact hkept j (by simp)
      · exact hcleared j hj
    · intro j hj
      refine hkept j ?_
      by_cases hji : j = i
      · simp [hji]
      · simpa [hji] using hj

end Tecc.Map
