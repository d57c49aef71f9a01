import Tecc.Arena
import Tecc.Lib.Linked

/-! An arena never hands out an occupied slot: the slots below the high-water mark are either
live or on the free list, and the mark is the live count plus the length of the free list. -/
namespace Tecc.Arena

open Machine Memory Linked Transition

variable {arena arena' : TecArena} {m m' : Mem} {s t : State} {e : Event} {free : List Nat}
  {i j p q ptr calloc : Nat} {nelems elem_size : Nat}

/-- A pointer value as a pointer. -/
def toPtr (a : Nat) : Option Nat := if a = 0 then none else some a

def nextOf (m : Mem) (p : Nat) : Option Nat := toPtr (next m p)

/-- The free list from its first pointer is `free`. -/
structure Inv (s : State) (free : List Nat) : Prop where
  elem_size_ge : 8 ≤ s.arena.elem_size
  block_le : s.arena.buf + s.arena.nslots * s.arena.elem_size ≤ 18446744073709551616
  counted : s.arena.allocated = s.slots.length
  mark_le : s.arena.allocated + free.length ≤ s.arena.nslots
  perm : (s.slots ++ free).Perm
    ((List.range (s.arena.allocated + free.length)).map s.arena.slotAt)
  chain : Chain (nextOf s.mem) (toPtr s.arena.free_list) free
  slot_flags : ∀ p ∈ s.live, s.arena.Inside p → flags s.mem p = TECC_ARENA_ALLOCATED
  box_flags : ∀ p ∈ s.live, ¬ s.arena.Inside p → flags s.mem p = 0
  live_nodup : s.live.Nodup
  live_ne : ∀ p ∈ s.live, p ≠ 0
  apart : ∀ p ∈ s.live, ∀ q ∈ s.live, p ≠ q →
    Apart p s.arena.elem_size q s.arena.elem_size
  box_apart : ∀ p ∈ s.live, ¬ s.arena.Inside p →
    Apart p s.arena.elem_size s.arena.buf (s.arena.nslots * s.arena.elem_size)

theorem toPtr_of_ne {a : Nat} (h : a ≠ 0) : toPtr a = some a := if_neg h

theorem mem_slots : p ∈ s.slots ↔ p ∈ s.live ∧ s.arena.Inside p := by
  simp [State.slots]

theorem slotAt_apart (hij : i ≠ j) :
    Apart (arena.slotAt i) arena.elem_size (arena.slotAt j) arena.elem_size := by
  rcases Nat.lt_or_gt_of_ne hij with h | h
  · left
    have := Nat.mul_le_mul_right arena.elem_size (Nat.succ_le_of_lt h)
    rw [Nat.succ_mul] at this
    unfold TecArena.slotAt
    omega
  · right
    have := Nat.mul_le_mul_right arena.elem_size (Nat.succ_le_of_lt h)
    rw [Nat.succ_mul] at this
    unfold TecArena.slotAt
    omega

/-- A slot lies in the block with all of its bytes. -/
theorem slotAt_bounds (hi : i < arena.nslots) :
    arena.buf ≤ arena.slotAt i ∧ arena.slotAt i + arena.elem_size ≤
      arena.buf + arena.nslots * arena.elem_size := by
  have := Nat.mul_le_mul_right arena.elem_size (Nat.succ_le_of_lt hi)
  rw [Nat.succ_mul] at this
  unfold TecArena.slotAt
  omega

theorem slotAt_inside (hs : 0 < arena.elem_size) (hi : i < arena.nslots) :
    arena.Inside (arena.slotAt i) := by
  have := slotAt_bounds hi
  unfold TecArena.Inside
  omega

theorem nslots_pos_buf (h : i < arena.nslots) : arena.buf ≠ 0 := by
  unfold TecArena.nslots at h
  split at h
  · omega
  · assumption

theorem slots_cons_inside (ha : ∀ p, arena'.Inside p ↔ s.arena.Inside p) (hp : s.arena.Inside p) :
    State.slots ⟨arena', m, p :: s.live⟩ = p :: s.slots := by
  simp only [State.slots, ha]
  exact List.filter_cons_of_pos (by simpa using hp)

theorem slots_cons_outside (ha : ∀ p, arena'.Inside p ↔ s.arena.Inside p)
    (hp : ¬ s.arena.Inside p) : State.slots ⟨arena', m, p :: s.live⟩ = s.slots := by
  simp only [State.slots, ha]
  exact List.filter_cons_of_neg (by simpa using hp)

theorem heap_outside (hsize : 0 < s.arena.elem_size) (h : s.Heap calloc) (hc : calloc ≠ 0) :
    ¬ s.arena.Inside calloc := by
  obtain ⟨_, hblock, _⟩ := h.resolve_left hc
  unfold TecArena.Inside Apart at *
  omega

/-- What holds of the elements handed out, whatever the block has been used for. -/
structure Handed (s : State) : Prop where
  slot_flags : ∀ p ∈ s.live, s.arena.Inside p → flags s.mem p = TECC_ARENA_ALLOCATED
  box_flags : ∀ p ∈ s.live, ¬ s.arena.Inside p → flags s.mem p = 0
  live_nodup : s.live.Nodup
  live_ne : ∀ p ∈ s.live, p ≠ 0
  apart : ∀ p ∈ s.live, ∀ q ∈ s.live, p ≠ q →
    Apart p s.arena.elem_size q s.arena.elem_size
  box_apart : ∀ p ∈ s.live, ¬ s.arena.Inside p →
    Apart p s.arena.elem_size s.arena.buf (s.arena.nslots * s.arena.elem_size)

namespace Handed

/-- An element that keeps apart from the live ones is handed out with its flags. -/
theorem push (h : Handed s) {n fl : Nat} (hfresh : ptr ∉ s.live) (h0 : ptr ≠ 0)
    (hflags : ∀ p ∈ s.live, flags m p = flags s.mem p)
    (hslot : s.arena.Inside ptr → flags m ptr = TECC_ARENA_ALLOCATED)
    (hbox : ¬ s.arena.Inside ptr → flags m ptr = 0 ∧
      Apart ptr s.arena.elem_size s.arena.buf (s.arena.nslots * s.arena.elem_size))
    (hapart : ∀ q ∈ s.live, Apart ptr s.arena.elem_size q s.arena.elem_size) :
    Handed ⟨{ s.arena with allocated := n, free_list := fl }, m, ptr :: s.live⟩ := by
  constructor
  · intro p hp hpin
    obtain hpp | hpl := List.mem_cons.mp hp
    · exact hpp ▸ hslot (hpp ▸ hpin)
    · exact (hflags p hpl).trans (h.slot_flags p hpl hpin)
  · intro p hp hpout
    obtain hpp | hpl := List.mem_cons.mp hp
    · exact hpp ▸ (hbox (hpp ▸ hpout)).1
    · exact (hflags p hpl).trans (h.box_flags p hpl hpout)
  · exact List.nodup_cons.mpr ⟨hfresh, h.live_nodup⟩
  · intro p hp
    obtain hpp | hpl := List.mem_cons.mp hp
    · exact hpp ▸ h0
    · exact h.live_ne p hpl
  · intro p hp q hq hpq
    obtain hpp | hpl := List.mem_cons.mp hp
    · obtain hqp | hql := List.mem_cons.mp hq
      · exact absurd (hpp.trans hqp.symm) hpq
      · exact hpp ▸ hapart q hql
    · obtain hqp | hql := List.mem_cons.mp hq
      · exact hqp ▸ (hapart p hpl).symm
      · exact h.apart p hpl q hql hpq
  · intro p hp hpout
    obtain hpp | hpl := List.mem_cons.mp hp
    · exact hpp ▸ (hbox (hpp ▸ hpout)).2
    · exact h.box_apart p hpl hpout

/-- Memory of the heap is handed out. -/
theorem box (h : Handed s) (hes : 4 ≤ s.arena.elem_size) (hc : calloc ≠ 0) (hheap : s.Heap calloc) :
    Handed ⟨s.arena, clear s.mem calloc s.arena.elem_size, calloc :: s.live⟩ := by
  have hout := heap_outside (by omega) hheap hc
  obtain ⟨_, hblock, hlive⟩ := hheap.resolve_left hc
  refine h.push ?_ hc ?_ (fun hin => absurd hin hout)
    (fun _ => ⟨load_clear (Nat.le_refl _) (by omega), hblock⟩) hlive
  · intro hl
    have := hlive calloc hl
    unfold Apart at this
    omega
  · intro p hp
    refine load_clear_apart ?_
    have := hlive p hp
    unfold Apart at *
    omega

/-- The elements that stay when one is given back. -/
theorem erase (h : Handed s) {n fl : Nat}
    (hflags : ∀ p ∈ s.live.erase ptr, flags m p = flags s.mem p) :
    Handed ⟨{ s.arena with allocated := n, free_list := fl }, m, s.live.erase ptr⟩ where
  slot_flags p hp hin := (hflags p hp).trans (h.slot_flags p (List.mem_of_mem_erase hp) hin)
  box_flags p hp hin := (hflags p hp).trans (h.box_flags p (List.mem_of_mem_erase hp) hin)
  live_nodup := h.live_nodup.erase ptr
  live_ne p hp := h.live_ne p (List.mem_of_mem_erase hp)
  apart p hp q hq := h.apart p (List.mem_of_mem_erase hp) q (List.mem_of_mem_erase hq)
  box_apart p hp := h.box_apart p (List.mem_of_mem_erase hp)

theorem frame (h : Handed s) (hflags : ∀ p ∈ s.live, flags m p = flags s.mem p) :
    Handed { s with mem := m } where
  slot_flags p hp hin := (hflags p hp).trans (h.slot_flags p hp hin)
  box_flags p hp hin := (hflags p hp).trans (h.box_flags p hp hin)
  live_nodup := h.live_nodup
  live_ne := h.live_ne
  apart := h.apart
  box_apart := h.box_apart

/-- The holder of an element may write behind its flags. -/
theorem flags_behind (h : Handed s) (hp : ptr ∈ s.live)
    (hm : ∀ a, a < ptr + 4 ∨ ptr + s.arena.elem_size ≤ a → m a = s.mem a) :
    ∀ p ∈ s.live, flags m p = flags s.mem p := by
  intro p hl
  refine load_congr ?_
  intro b hblo hbhi
  apply hm
  by_cases hpp : p = ptr
  · omega
  · have := h.apart p hl ptr hp hpp
    unfold Apart at this
    omega

/-- The owners of elements do not touch each other's. -/
theorem flags_other (hes : 4 ≤ s.arena.elem_size) (hm : ∀ a, s.Owned a → m a = s.mem a) :
    ∀ p ∈ s.live, flags m p = flags s.mem p := by
  intro p hl
  refine load_congr ?_
  intro b hlo hhi
  exact hm b (.inr ⟨p, hl, hlo, by omega⟩)

end Handed

namespace Inv

theorem handed (h : Inv s free) : Handed s :=
  ⟨h.slot_flags, h.box_flags, h.live_nodup, h.live_ne, h.apart, h.box_apart⟩

/-- The live and the free slots are the slots below the mark. -/
theorem below_mark (h : Inv s free) :
    (p ∈ s.slots ∨ p ∈ free) ↔ ∃ i < s.arena.allocated + free.length, p = s.arena.slotAt i := by
  rw [← List.mem_append, h.perm.mem_iff, List.mem_map]
  constructor
  · rintro ⟨i, hi, rfl⟩
    exact ⟨i, List.mem_range.mp hi, rfl⟩
  · rintro ⟨i, hi, rfl⟩
    exact ⟨i, List.mem_range.mpr hi, rfl⟩

theorem slotAt_inj (h : Inv s free) (hij : s.arena.slotAt i = s.arena.slotAt j) : i = j := by
  by_contra hne
  have : Apart (s.arena.slotAt i) s.arena.elem_size (s.arena.slotAt j) s.arena.elem_size :=
    slotAt_apart hne
  have := h.elem_size_ge
  unfold Apart at *
  omega

theorem nodup (h : Inv s free) : (s.slots ++ free).Nodup := by
  rw [h.perm.nodup_iff]
  exact List.nodup_range.map (fun _ _ hij => h.slotAt_inj hij)

theorem free_slot (h : Inv s free) (hp : p ∈ free) :
    ∃ i < s.arena.nslots, p = s.arena.slotAt i := by
  obtain ⟨i, hi, rfl⟩ := h.below_mark.mp (.inr hp)
  have := h.mark_le
  exact ⟨i, by omega, rfl⟩

theorem free_not_live (h : Inv s free) (hp : p ∈ free) : p ∉ s.live := by
  intro hl
  obtain ⟨i, hi, rfl⟩ := h.free_slot hp
  have hin := slotAt_inside (by have := h.elem_size_ge; omega) hi
  exact (List.nodup_append.mp h.nodup).2.2 _ (mem_slots.mpr ⟨hl, hin⟩) _ hp rfl

/-- A slot is apart from every live element but itself. -/
theorem slot_apart (h : Inv s free) (hi : i < s.arena.nslots) (hq : q ∈ s.live)
    (hne : s.arena.slotAt i ≠ q) :
    Apart (s.arena.slotAt i) s.arena.elem_size q s.arena.elem_size := by
  by_cases hin : s.arena.Inside q
  · obtain ⟨j, _, rfl⟩ := h.below_mark.mp (.inl (mem_slots.mpr ⟨hq, hin⟩))
    exact slotAt_apart (fun hij => hne (congrArg _ hij))
  · have hb := h.box_apart q hq hin
    have hslot := slotAt_bounds hi
    unfold Apart at *
    omega

theorem free_apart (h : Inv s free) (hp : p ∈ free) (hq : q ∈ s.live) :
    Apart p s.arena.elem_size q s.arena.elem_size := by
  have hne : p ≠ q := fun hpq => h.free_not_live hp (hpq ▸ hq)
  obtain ⟨i, hi, rfl⟩ := h.free_slot hp
  exact h.slot_apart hi hq hne

theorem free_list_lt (h : Inv s free) : s.arena.free_list < 18446744073709551616 := by
  by_cases h0 : s.arena.free_list = 0
  · rw [h0]
    decide
  · have hhead := chain_head h.chain
    rw [toPtr_of_ne h0] at hhead
    obtain ⟨i, hi, hp⟩ := h.free_slot (List.mem_of_mem_head? hhead.symm)
    have := slotAt_bounds hi
    have := h.block_le
    have := h.elem_size_ge
    omega

/-- The invariant needs the headers of the live elements and the links of the free ones. -/
theorem frame (h : Inv s free) (hflags : ∀ p ∈ s.live, flags m p = flags s.mem p)
    (hnext : ∀ p ∈ free, next m p = next s.mem p) : Inv { s with mem := m } free := by
  have hlive := h.handed.frame hflags
  exact
    { elem_size_ge := h.elem_size_ge
      block_le := h.block_le
      counted := h.counted
      mark_le := h.mark_le
      perm := h.perm
      chain := chain_congr (fun p hp => by simp only [nextOf, hnext p hp]) h.chain
      slot_flags := hlive.slot_flags
      box_flags := hlive.box_flags
      live_nodup := hlive.live_nodup
      live_ne := hlive.live_ne
      apart := hlive.apart
      box_apart := hlive.box_apart }

/-- The holder of an element may write behind its flags. -/
theorem write_behind (h : Inv s free) (hp : ptr ∈ s.live)
    (hm : ∀ a, a < ptr + 4 ∨ ptr + s.arena.elem_size ≤ a → m a = s.mem a) :
    Inv { s with mem := m } free := by
  have hes := h.elem_size_ge
  refine h.frame (h.handed.flags_behind hp hm) ?_
  intro p hf
  refine load_congr ?_
  intro b hblo hbhi
  apply hm
  have := h.free_apart hf hp
  unfold Apart at this
  omega

theorem write (h : Inv s free) (hp : ptr ∈ s.live) {offset : Nat} {byte : UInt8}
    (hlo : 4 ≤ offset) (hhi : offset < s.arena.elem_size) :
    Inv { s with mem := Function.update s.mem (ptr + offset) byte } free := by
  refine h.write_behind hp ?_
  intro a ha
  exact Function.update_of_ne (by omega) _ _

theorem other (h : Inv s free) (hm : ∀ a, s.Owned a → m a = s.mem a) :
    Inv { s with mem := m } free := by
  have hes := h.elem_size_ge
  refine h.frame (Handed.flags_other (by omega) hm) ?_
  intro p hf
  obtain ⟨i, hi, rfl⟩ := h.free_slot hf
  have hb := slotAt_bounds hi
  exact load_congr (fun b hlo hhi => hm b (.inl ⟨by omega, by omega⟩))

/-- Allocation from the block: the slot `slotAt i` leaves the free list, or the bump index takes
it, and becomes live. -/
theorem take (h : Inv s free) {rest : List Nat} {free_list : Nat} (hi : i < s.arena.nslots)
    (hfree : s.arena.slotAt i ∉ s.live) (hrest : ∀ p ∈ rest, p ∈ free)
    (hperm : (s.arena.slotAt i :: (s.slots ++ rest)).Perm
      ((List.range (s.arena.allocated + 1 + rest.length)).map s.arena.slotAt))
    (hne : s.arena.slotAt i ∉ rest) (hmark : s.arena.allocated + 1 + rest.length ≤ s.arena.nslots)
    (hchain : Chain (nextOf s.mem) (toPtr free_list) rest) :
    Inv ⟨{ s.arena with allocated := s.arena.allocated + 1, free_list := free_list },
      store s.mem (s.arena.slotAt i) 4 TECC_ARENA_ALLOCATED, s.arena.slotAt i :: s.live⟩ rest := by
  have hes := h.elem_size_ge
  have hin : s.arena.Inside (s.arena.slotAt i) := slotAt_inside (by omega) hi
  have hbuf := nslots_pos_buf hi
  have hslots : State.slots ⟨{ s.arena with
        allocated := s.arena.allocated + 1
        free_list := free_list },
      store s.mem (s.arena.slotAt i) 4 TECC_ARENA_ALLOCATED, s.arena.slotAt i :: s.live⟩ =
        s.arena.slotAt i :: s.slots := slots_cons_inside (fun _ => Iff.rfl) hin
  have hflags : ∀ p ∈ s.live, flags (store s.mem (s.arena.slotAt i) 4 TECC_ARENA_ALLOCATED) p =
      flags s.mem p := by
    intro p hp
    refine load_store_apart ?_
    have := h.slot_apart hi hp (fun heq => hfree (heq ▸ hp))
    unfold Apart at *
    omega
  have hchain' : Chain (nextOf (store s.mem (s.arena.slotAt i) 4 TECC_ARENA_ALLOCATED))
      (toPtr free_list) rest := by
    refine chain_congr ?_ hchain
    intro p hp
    obtain ⟨j, hj, rfl⟩ := h.free_slot (hrest p hp)
    have hij : j ≠ i := fun hij => hne (hij ▸ hp)
    have : Apart (s.arena.slotAt j) s.arena.elem_size (s.arena.slotAt i) s.arena.elem_size :=
      slotAt_apart hij
    have hlink : next (store s.mem (s.arena.slotAt i) 4 TECC_ARENA_ALLOCATED) (s.arena.slotAt j) =
        next s.mem (s.arena.slotAt j) := by
      refine load_store_apart ?_
      unfold Apart at *
      omega
    simp only [nextOf, hlink]
  have hlive : Handed ⟨{ s.arena with allocated := s.arena.allocated + 1, free_list := free_list },
      store s.mem (s.arena.slotAt i) 4 TECC_ARENA_ALLOCATED, s.arena.slotAt i :: s.live⟩ :=
    h.handed.push hfree (by have := hin.1; omega) hflags (fun _ => load_store (by decide))
      (fun hout => absurd hin hout)
      (fun q hq => h.slot_apart hi hq (fun heq => hfree (heq ▸ hq)))
  exact
    { elem_size_ge := hes
      block_le := h.block_le
      counted := by
        rw [hslots, List.length_cons]
        exact congrArg (· + 1) h.counted
      mark_le := hmark
      perm := by
        rw [hslots]
        exact hperm
      chain := hchain'
      slot_flags := hlive.slot_flags
      box_flags := hlive.box_flags
      live_nodup := hlive.live_nodup
      live_ne := hlive.live_ne
      apart := hlive.apart
      box_apart := hlive.box_apart }

/-- Allocation from the heap. -/
theorem box (h : Inv s free) (hc : calloc ≠ 0) (hheap : s.Heap calloc) :
    Inv ⟨s.arena, clear s.mem calloc s.arena.elem_size, calloc :: s.live⟩ free := by
  have hes := h.elem_size_ge
  have hlive := h.handed.box (by omega) hc hheap
  have hout := heap_outside (by omega) hheap hc
  obtain ⟨_, hblock, _⟩ := hheap.resolve_left hc
  have hslots : State.slots ⟨s.arena, clear s.mem calloc s.arena.elem_size, calloc :: s.live⟩ =
      s.slots := slots_cons_outside (fun _ => Iff.rfl) hout
  have hchain : Chain (nextOf (clear s.mem calloc s.arena.elem_size)) (toPtr s.arena.free_list)
      free := by
    refine chain_congr ?_ h.chain
    intro p hp
    obtain ⟨j, hj, rfl⟩ := h.free_slot hp
    have hslot := slotAt_bounds hj
    have hlink : next (clear s.mem calloc s.arena.elem_size) (s.arena.slotAt j) =
        next s.mem (s.arena.slotAt j) := by
      refine load_clear_apart ?_
      unfold Apart at *
      omega
    simp only [nextOf, hlink]
  exact
    { elem_size_ge := hes
      block_le := h.block_le
      counted := by
        rw [hslots]
        exact h.counted
      mark_le := h.mark_le
      perm := by
        rw [hslots]
        exact h.perm
      chain := hchain
      slot_flags := hlive.slot_flags
      box_flags := hlive.box_flags
      live_nodup := hlive.live_nodup
      live_ne := hlive.live_ne
      apart := hlive.apart
      box_apart := hlive.box_apart }

/-- What holds of the elements that stay when one is given back. -/
theorem drop (h : Inv s free) {n fl : Nat} {free' : List Nat}
    (hflags : ∀ p ∈ s.live.erase ptr, flags m p = flags s.mem p)
    (hcount : n = (State.slots ⟨s.arena, m, s.live.erase ptr⟩).length)
    (hmark : n + free'.length ≤ s.arena.nslots)
    (hperm : (State.slots ⟨s.arena, m, s.live.erase ptr⟩ ++ free').Perm
      ((List.range (n + free'.length)).map s.arena.slotAt))
    (hchain : Chain (nextOf m) (toPtr fl) free') :
    Inv ⟨{ s.arena with allocated := n, free_list := fl }, m, s.live.erase ptr⟩ free' := by
  have hlive : Handed ⟨{ s.arena with allocated := n, free_list := fl }, m, s.live.erase ptr⟩ :=
    h.handed.erase hflags
  exact
    { elem_size_ge := h.elem_size_ge
      block_le := h.block_le
      counted := hcount
      mark_le := hmark
      perm := hperm
      chain := hchain
      slot_flags := hlive.slot_flags
      box_flags := hlive.box_flags
      live_nodup := hlive.live_nodup
      live_ne := hlive.live_ne
      apart := hlive.apart
      box_apart := hlive.box_apart }

theorem slots_erase_inside (hp : ptr ∈ s.live) (hin : s.arena.Inside ptr) :
    s.slots.Perm (ptr :: State.slots ⟨s.arena, m, s.live.erase ptr⟩) := by
  have hperm := (List.perm_cons_erase hp).filter fun p => s.arena.Inside p
  rwa [List.filter_cons_of_pos (by simpa using hin)] at hperm

theorem slots_erase_outside (hp : ptr ∈ s.live) (hin : ¬ s.arena.Inside ptr) :
    s.slots.Perm (State.slots ⟨s.arena, m, s.live.erase ptr⟩) := by
  have hperm := (List.perm_cons_erase hp).filter fun p => s.arena.Inside p
  rwa [List.filter_cons_of_neg (by simpa using hin)] at hperm

/-- A slot goes to the head of the free list, which is dropped with the last live slot. -/
theorem release_slot (h : Inv s free) (hp : ptr ∈ s.live) (hin : s.arena.Inside ptr) :
    ∃ free', Inv ⟨{ s.arena with
        allocated := s.arena.allocated - 1
        free_list := if s.arena.allocated - 1 = 0 then 0 else ptr },
      store s.mem ptr 8 s.arena.free_list, s.live.erase ptr⟩ free' := by
  have hes := h.elem_size_ge
  have hslots := slots_erase_inside (m := store s.mem ptr 8 s.arena.free_list) hp hin
  have hlen := hslots.length_eq
  have hcounted := h.counted
  have hmark := h.mark_le
  rw [List.length_cons] at hlen
  have hflags : ∀ p ∈ s.live.erase ptr,
      flags (store s.mem ptr 8 s.arena.free_list) p = flags s.mem p := by
    intro p hpe
    have hne : p ≠ ptr := fun heq => h.live_nodup.not_mem_erase (heq ▸ hpe)
    have := h.apart p (List.mem_of_mem_erase hpe) ptr hp hne
    refine load_store_apart ?_
    unfold Apart at *
    omega
  by_cases hlast : s.arena.allocated - 1 = 0
  · have hnil : State.slots ⟨s.arena, store s.mem ptr 8 s.arena.free_list, s.live.erase ptr⟩ = [] :=
      List.length_eq_zero_iff.mp (by omega)
    rw [if_pos hlast]
    refine ⟨[], h.drop hflags (by omega) (by simp; omega) ?_ ?_⟩
    · rw [hnil, hlast]
      exact List.Perm.refl _
    · exact rfl
  · rw [if_neg hlast]
    refine ⟨ptr :: free, h.drop hflags (by omega) (by simp; omega) ?_ ?_⟩
    · have hsum : s.arena.allocated - 1 + (ptr :: free).length =
          s.arena.allocated + free.length := by
        simp
        omega
      rw [hsum]
      exact (List.perm_middle.trans (hslots.symm.append_right free)).trans h.perm
    · refine chain_cons.mpr ⟨toPtr_of_ne (h.live_ne ptr hp), ?_⟩
      have hlink : next (store s.mem ptr 8 s.arena.free_list) ptr = s.arena.free_list :=
        load_store h.free_list_lt
      rw [nextOf, hlink]
      refine chain_congr ?_ h.chain
      intro p hf
      have hkept : next (store s.mem ptr 8 s.arena.free_list) p = next s.mem p := by
        refine load_store_apart ?_
        have := h.free_apart hf hp
        unfold Apart at *
        omega
      simp only [nextOf, hkept]

theorem release_box (h : Inv s free) (hp : ptr ∈ s.live) (hin : ¬ s.arena.Inside ptr) :
    Inv ⟨s.arena, s.mem, s.live.erase ptr⟩ free := by
  have hslots := slots_erase_outside (m := s.mem) hp hin
  refine h.drop (fun _ _ => rfl) ?_ h.mark_le ?_ h.chain
  · rw [h.counted]
    exact hslots.length_eq
  · exact (hslots.symm.append_right free).trans h.perm

/-- `TecArena_release` tells a slot from a heap element by its flags. -/
theorem release (h : Inv s free) (hp : ptr ∈ s.live) {freed : Option Nat}
    (hr : TecArena_release s.arena s.mem ptr = (arena, m, freed)) :
    ∃ free', Inv ⟨arena, m, s.live.erase ptr⟩ free' := by
  have h0 := h.live_ne ptr hp
  by_cases hin : s.arena.Inside ptr
  · have hflag := h.slot_flags ptr hp hin
    have hpos : 0 < s.slots.length := List.length_pos_of_mem (mem_slots.mpr ⟨hp, hin⟩)
    have hlt : s.arena.allocated < 18446744073709551616 := by
      obtain ⟨i, _, rfl⟩ := h.below_mark.mp (.inl (mem_slots.mpr ⟨hp, hin⟩))
      have := h.block_le
      have := h.mark_le
      have := Nat.mul_le_mul_left s.arena.nslots h.elem_size_ge
      omega
    have hcount : toSize (s.arena.allocated - 1) = s.arena.allocated - 1 := by
      have := h.counted
      unfold toSize
      omega
    simp only [TecArena_release, if_neg h0, hflag, TECC_ARENA_ALLOCATED, hcount] at hr
    obtain ⟨rfl, rfl, _⟩ := by simpa using hr
    exact h.release_slot hp hin
  · have hflag := h.box_flags ptr hp hin
    simp only [TecArena_release, if_neg h0, hflag] at hr
    obtain ⟨rfl, rfl, _⟩ := by simpa using hr
    exact ⟨free, h.release_box hp hin⟩

theorem free_nil (h : Inv s free) (hnull : s.arena.free_list = 0) : free = [] := by
  have hchain := h.chain
  rw [hnull] at hchain
  exact chain_none hchain

/-- Without a free list the live slots are those below the live count. -/
theorem bump_not_live (h : Inv s free) (hnull : s.arena.free_list = 0)
    (hcap : s.arena.allocated < s.arena.capacity) :
    s.arena.slotAt s.arena.allocated ∉ s.live := by
  intro hl
  have hmark := h.mark_le
  rw [h.free_nil hnull] at hmark
  by_cases hbuf : s.arena.buf = 0
  · simp [TecArena.nslots, hbuf] at hmark
    exact h.live_ne _ hl (by simp [TecArena.slotAt, hbuf, hmark])
  · have hi : s.arena.allocated < s.arena.nslots := by simpa [TecArena.nslots, hbuf] using hcap
    have hin := slotAt_inside (by have := h.elem_size_ge; omega) hi
    obtain ⟨j, hj, heq⟩ := h.below_mark.mp (.inl (mem_slots.mpr ⟨hl, hin⟩))
    have := h.slotAt_inj heq
    rw [h.free_nil hnull] at hj
    simp at hj
    omega

/-- The element that the arena gives is a slot that is not live. -/
theorem arena_ptr_spec (h : Inv s free) (hp : (arena_ptr s.arena s.mem).1 ≠ 0) :
    ∃ i rest, i < s.arena.nslots ∧ (arena_ptr s.arena s.mem).1 = s.arena.slotAt i ∧
      s.arena.slotAt i ∉ s.live ∧
      Inv ⟨{ s.arena with
          allocated := s.arena.allocated + 1
          free_list := (arena_ptr s.arena s.mem).2 },
        store s.mem (s.arena.slotAt i) 4 TECC_ARENA_ALLOCATED, s.arena.slotAt i :: s.live⟩
        rest := by
  have hmark := h.mark_le
  by_cases hfl : s.arena.free_list ≠ 0
  · have hptr : arena_ptr s.arena s.mem = (s.arena.free_list, next s.mem s.arena.free_list) :=
      if_pos hfl
    rw [hptr]
    have hchain := h.chain
    rw [toPtr_of_ne hfl] at hchain
    cases free with
    | nil => cases hchain
    | cons p rest =>
      obtain ⟨hhead, htail⟩ := chain_cons.mp hchain
      obtain rfl := Option.some.inj hhead
      obtain ⟨i, hi, heq⟩ := h.free_slot (List.mem_cons_self)
      have hnodup := h.nodup
      have hperm := h.perm
      have hfree := h.free_not_live (List.mem_cons_self)
      rw [nextOf] at htail
      simp only [heq] at *
      have hsum : s.arena.allocated + (s.arena.slotAt i :: rest).length =
          s.arena.allocated + 1 + rest.length := by
        simp only [List.length_cons]
        omega
      rw [hsum] at hperm hmark
      refine ⟨i, rest, hi, rfl, hfree, h.take hi hfree (fun p hp => by simp [hp])
        (List.perm_middle.symm.trans hperm) ?_ hmark htail⟩
      exact (List.nodup_cons.mp (List.nodup_append.mp hnodup).2.1).1
  · have hnull : s.arena.free_list = 0 := not_not.mp hfl
    obtain rfl := h.free_nil hnull
    by_cases hcap : s.arena.allocated < s.arena.capacity
    · have hptr : arena_ptr s.arena s.mem =
          (s.arena.slotAt s.arena.allocated, s.arena.free_list) := by
        simp [arena_ptr, hnull, hcap, TecArena.slotAt]
      rw [hptr] at hp ⊢
      simp only [List.length_nil, Nat.add_zero] at hmark
      have hi : s.arena.allocated < s.arena.nslots := by
        by_cases hbuf : s.arena.buf = 0
        · exfalso
          simp [TecArena.nslots, hbuf] at hmark
          exact hp (by simp [TecArena.slotAt, hbuf, hmark])
        · simpa [TecArena.nslots, hbuf] using hcap
      have hfree := h.bump_not_live hnull hcap
      refine ⟨s.arena.allocated, [], hi, rfl, hfree, h.take hi hfree (by simp) ?_ (by simp)
        (by simp; omega) h.chain⟩
      have hperm := h.perm
      simp only [List.append_nil, List.length_nil, Nat.add_zero] at hperm ⊢
      rw [List.range_succ, List.map_append]
      exact (hperm.cons _).trans (List.perm_append_singleton _ _).symm
    · exact absurd (by simp [arena_ptr, hnull, hcap]) hp

theorem allocate (h : Inv s free) (hheap : s.Heap calloc)
    (hr : TecArena_allocate s.arena s.mem calloc = (arena, m, ptr)) :
    ∃ free', Inv ⟨arena, m, if ptr = 0 then s.live else ptr :: s.live⟩ free' := by
  by_cases hp : (arena_ptr s.arena s.mem).1 ≠ 0
  · obtain ⟨i, rest, hi, hptr, hfree, hinv⟩ := h.arena_ptr_spec hp
    have hlt : toSize (s.arena.allocated + 1) = s.arena.allocated + 1 := by
      have := hinv.block_le
      have hmark := hinv.mark_le
      have hmul := Nat.mul_le_mul_left s.arena.nslots h.elem_size_ge
      simp only at this hmark
      change s.arena.allocated + 1 + _ ≤ s.arena.nslots at hmark
      have := h.block_le
      unfold toSize
      omega
    have hne : s.arena.slotAt i ≠ 0 := hptr ▸ hp
    simp only [TecArena_allocate, hptr, if_pos hne, hlt, Prod.mk.injEq] at hr
    obtain ⟨rfl, rfl, rfl⟩ := hr
    rw [if_neg hne]
    exact ⟨rest, hinv⟩
  · have hnull : (arena_ptr s.arena s.mem).2 = s.arena.free_list := by
      by_cases hfl : s.arena.free_list ≠ 0
      · exact absurd (by simp [arena_ptr, hfl]) hp
      · by_cases hcap : s.arena.allocated < s.arena.capacity <;> simp [arena_ptr, hfl, hcap]
    simp only [TecArena_allocate, if_neg hp, hnull, Prod.mk.injEq] at hr
    obtain ⟨rfl, rfl, rfl⟩ := hr
    by_cases hc : calloc = 0
    · rw [if_pos hc, if_pos hc]
      exact ⟨free, h⟩
    · rw [if_neg hc, if_neg hc]
      exact ⟨free, h.box hc hheap⟩

/-- An element comes from the block or from the heap, and nothing outside of it is written. -/
theorem allocate_frame (h : Inv s free)
    (hr : TecArena_allocate s.arena s.mem calloc = (arena, m, ptr)) :
    (ptr = calloc ∨ ∃ i < s.arena.nslots, ptr = s.arena.slotAt i) ∧
      ∀ a, a < ptr ∨ ptr + s.arena.elem_size ≤ a → m a = s.mem a := by
  have hes := h.elem_size_ge
  by_cases hp : (arena_ptr s.arena s.mem).1 ≠ 0
  · obtain ⟨i, rest, hi, hptr, hfree, hinv⟩ := h.arena_ptr_spec hp
    have hne : s.arena.slotAt i ≠ 0 := hptr ▸ hp
    simp only [TecArena_allocate, hptr, if_pos hne, Prod.mk.injEq] at hr
    obtain ⟨_, rfl, rfl⟩ := hr
    refine ⟨.inr ⟨i, hi, rfl⟩, ?_⟩
    intro a ha
    exact store_other (by omega)
  · simp only [TecArena_allocate, if_neg hp, Prod.mk.injEq] at hr
    obtain ⟨_, rfl, rfl⟩ := hr
    refine ⟨.inl rfl, ?_⟩
    intro a ha
    split
    · rfl
    · exact clear_other ha

theorem step (h : Inv s free) (hs : Step s e t) : ∃ free', Inv t free' := by
  cases hs with
  | allocate hc hr => exact h.allocate hc hr
  | release hp hr => exact h.release hp hr
  | write hp hlo hhi => exact ⟨free, h.write hp hlo hhi⟩
  | other hm => exact ⟨free, h.other hm⟩

end Inv

theorem inv_initial (hsize : 8 ≤ elem_size) (h : (arenaLts nelems elem_size).Init s) :
    Inv s [] := by
  obtain ⟨calloc, m, rfl, hfit⟩ := h
  refine ⟨hsize, ?_, rfl, Nat.zero_le _, List.Perm.refl _, rfl, by simp, by simp, by simp,
    by simp, by simp, by simp⟩
  by_cases hbuf : (TecArena_init nelems elem_size calloc).buf = 0
  · simp [TecArena.nslots, hbuf]
  · have hn : nelems ≠ 0 := fun hn => hbuf (by simp [TecArena_init, hn])
    simp only [TecArena_init, if_neg hn] at hbuf
    simpa [TecArena.nslots, TecArena_init, hn, hbuf] using hfit.resolve_left hbuf

theorem inv_reachable (hsize : 8 ≤ elem_size) (h : (arenaLts nelems elem_size).Reachable s) :
    ∃ free, Inv s free :=
  h.invariant (P := fun s => ∃ free, Inv s free)
    (fun _ hi => ⟨[], inv_initial hsize hi⟩)
    (fun _ _ _ ⟨_, hinv⟩ hs => hinv.step hs)

theorem TecArena_allocate_config (arena : TecArena) (m : Mem) (calloc : Nat) :
    (TecArena_allocate arena m calloc).1.buf = arena.buf ∧
      (TecArena_allocate arena m calloc).1.elem_size = arena.elem_size ∧
      (TecArena_allocate arena m calloc).1.capacity = arena.capacity := by
  simp only [TecArena_allocate]
  split <;> simp

theorem TecArena_release_config (arena : TecArena) (m : Mem) (ptr : Nat) :
    (TecArena_release arena m ptr).1.buf = arena.buf ∧
      (TecArena_release arena m ptr).1.elem_size = arena.elem_size ∧
      (TecArena_release arena m ptr).1.capacity = arena.capacity := by
  simp only [TecArena_release]
  split
  · simp
  · split <;> simp

/-- The bytes of the block depend on the configuration. -/
theorem inside_config (h : arena'.buf = arena.buf ∧ arena'.elem_size = arena.elem_size ∧
    arena'.capacity = arena.capacity) : arena'.Inside p ↔ arena.Inside p := by
  obtain ⟨hbuf, hsize, hcap⟩ := h
  unfold TecArena.Inside TecArena.nslots
  rw [hbuf, hsize, hcap]

/-- A release writes a link into the element at most. -/
theorem TecArena_release_frame {freed : Option Nat}
    (hr : TecArena_release arena m ptr = (arena', m', freed)) :
    ∀ a, a < ptr ∨ ptr + 8 ≤ a → m' a = m a := by
  intro a ha
  unfold TecArena_release at hr
  split at hr
  · cases hr
    rfl
  · split at hr <;> cases hr
    · exact store_other ha
    · rfl

/-- The block, the element size and the capacity never change. -/
theorem config_step (h : Step s e t) :
    t.arena.buf = s.arena.buf ∧ t.arena.elem_size = s.arena.elem_size ∧
      t.arena.capacity = s.arena.capacity := by
  cases h with
  | @allocate calloc ptr arena m hc hr =>
    have hconfig := TecArena_allocate_config s.arena s.mem calloc
    rwa [hr] at hconfig
  | @release ptr arena m freed hp hr =>
    have hconfig := TecArena_release_config s.arena s.mem ptr
    rwa [hr] at hconfig
  | write => exact ⟨rfl, rfl, rfl⟩
  | other => exact ⟨rfl, rfl, rfl⟩

theorem config_reachable (h : (arenaLts nelems elem_size).Reachable s) :
    s.arena.elem_size = elem_size ∧ s.arena.capacity = nelems := by
  refine h.invariant (P := fun s => s.arena.elem_size = elem_size ∧ s.arena.capacity = nelems) ?_ ?_
  · rintro s ⟨calloc, m, rfl, _⟩
    exact ⟨rfl, rfl⟩
  · intro s e t hs hstep
    obtain ⟨_, hsize, hcap⟩ := config_step hstep
    exact ⟨hsize.trans hs.1, hcap.trans hs.2⟩

theorem nslots_le_capacity : arena.nslots ≤ arena.capacity := by
  unfold TecArena.nslots
  split <;> omega

/-- After every run the live elements of the block are distinct slots, the free list is a finite
chain of other slots, the live count and its length add up to a mark below which every slot is on
one side or the other, and the bump index names a slot that is not live. -/
theorem arena_hands_out_free_slots (nelems elem_size : Nat) (hsize : 8 ≤ elem_size) (s : State)
    (h : (arenaLts nelems elem_size).Reachable s) :
    ∃ free : List Nat, s.slots.Nodup ∧
      (∀ p ∈ s.slots, ∃ i < nelems, p = s.arena.buf + i * elem_size) ∧
      Chain (nextOf s.mem) (toPtr s.arena.free_list) free ∧ free.Nodup ∧
      (∀ p ∈ free, p ∉ s.live) ∧
      s.arena.allocated + free.length ≤ nelems ∧
      (∀ p, p ∈ s.slots ∨ p ∈ free ↔
        ∃ i < s.arena.allocated + free.length, p = s.arena.buf + i * elem_size) ∧
      (s.arena.free_list = 0 → s.arena.allocated < nelems →
        s.arena.buf + s.arena.allocated * elem_size ∉ s.live) := by
  obtain ⟨free, hinv⟩ := inv_reachable hsize h
  obtain ⟨rfl, rfl⟩ := config_reachable h
  have hmark := hinv.mark_le.trans nslots_le_capacity
  have hnodup := List.nodup_append.mp hinv.nodup
  refine ⟨free, hnodup.1, ?_, hinv.chain, hnodup.2.1, fun p hp => hinv.free_not_live hp, hmark,
    fun p => hinv.below_mark, hinv.bump_not_live⟩
  intro p hp
  obtain ⟨i, hi, rfl⟩ := hinv.below_mark.mp (.inl hp)
  exact ⟨i, by omega, rfl⟩

/-- Two slots handed out, and the first one given back. -/
theorem arena_hands_out_free_slots_release :
    8 ≤ 8 ∧ ∃ s, (arenaLts 2 8).History [.allocate 4096, .allocate 4104, .release 4096] s ∧
      ∃ free : List Nat, Chain (nextOf s.mem) (toPtr s.arena.free_list) free ∧
        ∀ p ∈ free, p ∉ s.live := by
  have h0 : (arenaLts 2 8).History [] ⟨⟨4096, 8, 2, 0, 0⟩, fun _ => 0, []⟩ :=
    .init ⟨4096, fun _ => 0, rfl, .inr (by decide)⟩
  have h1 := h0.snoc (Step.allocate (.inl rfl) rfl)
  have h2 := h1.snoc (Step.allocate (.inl rfl) rfl)
  have h3 := h2.snoc (@Step.release _ 4096 _ _ _ (by decide) rfl)
  obtain ⟨free, _, _, hchain, _, hout, _⟩ :=
    arena_hands_out_free_slots 2 8 (Nat.le_refl 8) _ h3.reachable
  exact ⟨Nat.le_refl 8, _, h3, free, hchain, hout⟩

end Tecc.Arena
