import Tecc.ArenaSlots

/-! Where elements come from and where they go back to: allocation falls back to the heap only
when every slot is live, and a release tells slots from heap elements while no other element lies
in the eight bytes of its link. -/
namespace Tecc.Arena

open Machine Memory Linked Transition

variable {arena arena' : TecArena} {m m' : Mem} {s t : State} {e : Event} {free : List Nat}
  {a b i k n p q ptr calloc : Nat} {nelems elem_size buf : Nat}

theorem allocate_ptr (arena : TecArena) (m : Mem) (calloc : Nat) :
    (TecArena_allocate arena m calloc).2.2 =
      if (arena_ptr arena m).1 ≠ 0 then (arena_ptr arena m).1 else calloc := by
  rw [TecArena_allocate]
  by_cases h : (arena_ptr arena m).1 ≠ 0
  · rw [if_pos h, if_pos h]
  · rw [if_neg h, if_neg h]

theorem arena_ptr_full (hlist : arena.free_list = 0) (hfull : arena.capacity ≤ arena.allocated) :
    (arena_ptr arena m).1 = 0 := by
  rw [arena_ptr, if_neg (not_not.mpr hlist), if_neg (by omega)]

theorem null_outside (h : s.arena.nslots = 0 ∨ s.arena.buf ≠ 0) : ¬ s.arena.Inside 0 := by
  rintro ⟨hlo, hhi⟩
  obtain h | h := h
  · rw [h] at hhi
    omega
  · omega

/-- While a slot is not live, the free list or the bump index yields one. -/
theorem arena_ptr_ne (hroom : arena.allocated < arena.nslots) : (arena_ptr arena m).1 ≠ 0 := by
  have hbuf := nslots_pos_buf hroom
  have hcap := Nat.lt_of_lt_of_le hroom nslots_le_capacity
  by_cases hlist : arena.free_list ≠ 0
  · rwa [arena_ptr, if_pos hlist]
  · rw [arena_ptr, if_neg hlist, if_pos hcap]
    exact fun hzero => hbuf (Nat.eq_zero_of_add_eq_zero_right hzero)

theorem nslots_of_block (h : s.arena.capacity ≠ 0 → s.arena.buf ≠ 0) :
    s.arena.nslots = s.arena.capacity ∧ (s.arena.nslots = 0 ∨ s.arena.buf ≠ 0) := by
  unfold TecArena.nslots
  split
  · have : s.arena.capacity = 0 := by
      by_contra hne
      exact h hne ‹_›
    exact ⟨this.symm, .inl rfl⟩
  · exact ⟨rfl, .inr ‹_›⟩

/-- When every slot is live, the free list is empty. -/
theorem Inv.free_list_full (h : Inv s free) (hfull : s.arena.allocated = s.arena.nslots) :
    s.arena.free_list = 0 := by
  have hmark := h.mark_le
  have hnil : free = [] := List.length_eq_zero_iff.mp (by omega)
  have hchain := h.chain
  rw [hnil] at hchain
  by_contra hne
  rw [toPtr_of_ne hne] at hchain
  cases hchain

/-- The live count is the number of live elements of the block, and the block is used until each
of its slots is live. -/
theorem arena_slots_never_lost (nelems elem_size : Nat) (hsize : 8 ≤ elem_size) (s : State)
    (h : (arenaLts nelems elem_size).Reachable s) (hblock : nelems ≠ 0 → s.arena.buf ≠ 0) :
    s.arena.allocated = s.slots.length ∧ s.slots.length ≤ nelems ∧
      ∀ calloc, s.Heap calloc →
        (s.arena.Inside (TecArena_allocate s.arena s.mem calloc).2.2 ↔ s.slots.length < nelems) ∧
        ((TecArena_allocate s.arena s.mem calloc).2.2 = calloc ↔ s.slots.length = nelems) := by
  obtain ⟨free, hinv⟩ := inv_reachable hsize h
  obtain ⟨rfl, rfl⟩ := config_reachable h
  obtain ⟨hslots, hnull⟩ := nslots_of_block hblock
  have hcounted := hinv.counted
  have hmark := hinv.mark_le
  have hle : s.slots.length ≤ s.arena.capacity := by omega
  refine ⟨hcounted, hle, fun calloc hheap => ?_⟩
  have hout : ¬ s.arena.Inside calloc := by
    by_cases hc : calloc = 0
    · rw [hc]
      exact null_outside hnull
    · exact heap_outside (by omega) hheap hc
  rw [allocate_ptr]
  by_cases hroom : s.slots.length < s.arena.capacity
  · have hne := arena_ptr_ne (m := s.mem) (show s.arena.allocated < s.arena.nslots by omega)
    obtain ⟨i, _, hi, hptr, _⟩ := hinv.arena_ptr_spec hne
    have hin : s.arena.Inside (arena_ptr s.arena s.mem).1 := by
      rw [hptr]
      exact slotAt_inside (by omega) hi
    rw [if_pos hne]
    refine ⟨⟨fun _ => hroom, fun _ => hin⟩, ⟨fun heq => ?_, fun heq => by omega⟩⟩
    rw [heq] at hin
    exact absurd hin hout
  · have hlist := hinv.free_list_full (by omega)
    rw [if_neg (not_not.mpr (arena_ptr_full hlist (by omega)))]
    exact ⟨⟨fun hin => absurd hin hout, fun hlt => absurd hlt hroom⟩, fun _ => by omega,
        fun _ => rfl⟩

/-- The second element of a block of one comes from the heap. -/
theorem arena_slots_never_lost_full :
    ∃ s, (arenaLts 1 8).History [.allocate 4096] s ∧ s.arena.allocated = 1 ∧
      (TecArena_allocate s.arena s.mem 8192).2.2 = 8192 := by
  have h0 : (arenaLts 1 8).History [] ⟨⟨4096, 8, 1, 0, 0⟩, fun _ => 0, []⟩ :=
    .init ⟨4096, fun _ => 0, rfl, .inr (by decide)⟩
  have h1 := h0.snoc (Step.allocate (.inl rfl) rfl)
  obtain ⟨_, _, hroutes⟩ := arena_slots_never_lost 1 8 (Nat.le_refl 8) _ h1.reachable (by decide)
  refine ⟨_, h1, rfl, (hroutes 8192 (.inr ⟨by decide, .inr (by decide), ?_⟩)).2.mpr (by decide)⟩
  intro p hp
  obtain rfl : p = 4096 := List.mem_singleton.mp hp
  exact .inr (by decide)

/-- The element goes on the free list, its first eight bytes become the link. -/
def State.Pushes (s : State) (ptr : Nat) : Prop :=
  TecArena_release s.arena s.mem ptr =
    ({ s.arena with
        allocated := toSize (s.arena.allocated - 1)
        free_list := if toSize (s.arena.allocated - 1) = 0 then 0 else ptr },
      store s.mem ptr 8 s.arena.free_list, none)

/-- The element is passed to `TECC_FREE`. -/
def State.Frees (s : State) (ptr : Nat) : Prop :=
  TecArena_release s.arena s.mem ptr = (s.arena, s.mem, some ptr)

/-- A release changes no byte of another live element, and the element goes back to where it
came from. -/
structure Routed (s : State) (ptr : Nat) : Prop where
  keeps : ∀ q ∈ s.live, q ≠ ptr → ∀ a, q ≤ a → a < q + s.arena.elem_size →
    (TecArena_release s.arena s.mem ptr).2.1 a = s.mem a
  pushed : s.Pushes ptr ↔ s.arena.Inside ptr
  freed : s.Frees ptr ↔ ¬ s.arena.Inside ptr

theorem pushes_of_flags (h0 : ptr ≠ 0) (h : flags s.mem ptr = TECC_ARENA_ALLOCATED) :
    s.Pushes ptr ∧ ¬ s.Frees ptr := by
  have hpush : s.Pushes ptr := by
    simp [State.Pushes, TecArena_release, h0, h, TECC_ARENA_ALLOCATED]
  refine ⟨hpush, fun hfree => ?_⟩
  have hnone := congrArg (fun r => r.2.2) (Eq.trans (Eq.symm hpush) hfree)
  cases hnone

theorem frees_of_flags (h0 : ptr ≠ 0) (h : flags s.mem ptr = 0) :
    s.Frees ptr ∧ ¬ s.Pushes ptr := by
  have hfree : s.Frees ptr := by
    simp [State.Frees, TecArena_release, h0, h]
  refine ⟨hfree, fun hpush => ?_⟩
  have hnone := congrArg (fun r => r.2.2) (Eq.trans (Eq.symm hpush) hfree)
  cases hnone

/-- The flags tell where an element came from. -/
theorem routed_of_flags (h0 : ptr ≠ 0)
    (hslot : s.arena.Inside ptr → flags s.mem ptr = TECC_ARENA_ALLOCATED)
    (hbox : ¬ s.arena.Inside ptr → flags s.mem ptr = 0)
    (hkeeps : s.Pushes ptr → ∀ q ∈ s.live, q ≠ ptr → ∀ a, q ≤ a → a < q + s.arena.elem_size →
      store s.mem ptr 8 s.arena.free_list a = s.mem a) : Routed s ptr := by
  by_cases hin : s.arena.Inside ptr
  · obtain ⟨hpush, hnfree⟩ := pushes_of_flags h0 (hslot hin)
    refine ⟨?_, ⟨fun _ => hin, fun _ => hpush⟩, fun hf => absurd hf hnfree,
        fun hn => absurd hin hn⟩
    rw [show TecArena_release s.arena s.mem ptr = _ from hpush]
    exact hkeeps hpush
  · obtain ⟨hfree, hnpush⟩ := frees_of_flags h0 (hbox hin)
    refine ⟨?_, ⟨fun hf => absurd hf hnpush, fun hi => absurd hi hin⟩, fun _ => hin,
        fun _ => hfree⟩
    rw [show TecArena_release s.arena s.mem ptr = _ from hfree]
    exact fun _ _ _ _ _ _ => rfl

/-- Elements that hold a pointer hold the link. -/
theorem Inv.routed (h : Inv s free) (hp : ptr ∈ s.live) : Routed s ptr := by
  have hes := h.elem_size_ge
  refine routed_of_flags (h.live_ne ptr hp) (h.slot_flags ptr hp) (h.box_flags ptr hp) ?_
  intro _ q hq hne a hlo hhi
  refine store_other ?_
  have := h.apart q hq ptr hp hne
  unfold Apart at this
  omega

/-- The invariant of a block of at most one element: there is never a free list. -/
structure Lone (s : State) : Prop extends Handed s where
  elem_size_ge : 4 ≤ s.arena.elem_size
  nslots_le : s.arena.nslots ≤ 1
  no_list : s.arena.free_list = 0
  counted : s.arena.allocated = s.slots.length
  slots_eq : s.slots = [] ∨ s.slots = [s.arena.buf]

namespace Lone

theorem slot_eq (h : Lone s) (hp : p ∈ s.live) (hin : s.arena.Inside p) :
    p = s.arena.buf ∧ s.slots = [s.arena.buf] := by
  have hmem : p ∈ s.slots := mem_slots.mpr ⟨hp, hin⟩
  obtain heq | heq := h.slots_eq
  · rw [heq] at hmem
    cases hmem
  · rw [heq] at hmem
    exact ⟨List.mem_singleton.mp hmem, heq⟩

theorem nslots_of_inside (h : Lone s) (hin : s.arena.Inside p) : s.arena.nslots = 1 := by
  have hle := h.nslots_le
  obtain ⟨hlo, hhi⟩ := hin
  by_contra hne
  have hzero : s.arena.nslots = 0 := by omega
  rw [hzero] at hhi
  omega

/-- The zero link of the only slot falls on the zero flags of its neighbour, if on anything. -/
theorem store_keeps (h : Lone s) (hin : s.arena.Inside ptr) (hp : ptr ∈ s.live) (hq : q ∈ s.live)
    (hne : q ≠ ptr) (hlo : q ≤ a) (hhi : a < q + s.arena.elem_size) :
    store s.mem ptr 8 s.arena.free_list a = s.mem a := by
  have hes := h.elem_size_ge
  obtain ⟨rfl, _⟩ := h.slot_eq hp hin
  have hout : ¬ s.arena.Inside q := fun hqin => hne (h.slot_eq hq hqin).1
  have hzero := load_eq_zero.mp (h.box_flags q hq hout)
  have hapart := h.apart q hq _ hp hne
  rw [h.no_list, store_zero, clear]
  split
  · refine (hzero a hlo ?_).symm
    unfold Apart at hapart
    omega
  · rfl

theorem routed (h : Lone s) (hp : ptr ∈ s.live) : Routed s ptr := by
  refine routed_of_flags (h.live_ne ptr hp) (h.slot_flags ptr hp) (h.box_flags ptr hp) ?_
  intro hpush q hq hne a hlo hhi
  have hin : s.arena.Inside ptr := by
    by_contra hout
    exact (frees_of_flags (h.live_ne ptr hp) (h.box_flags ptr hp hout)).2 hpush
  exact h.store_keeps hin hp hq hne hlo hhi

theorem frame (h : Lone s) (hflags : ∀ p ∈ s.live, flags m p = flags s.mem p) :
    Lone { s with mem := m } :=
  ⟨h.toHanded.frame hflags, h.elem_size_ge, h.nslots_le, h.no_list, h.counted, h.slots_eq⟩

/-- The only slot is handed out. -/
theorem take (h : Lone s) (hslots : s.slots = []) (hblock : s.arena.nslots = 1) :
    Lone ⟨{ s.arena with allocated := 1, free_list := s.arena.free_list },
      store s.mem s.arena.buf 4 TECC_ARENA_ALLOCATED, s.arena.buf :: s.live⟩ := by
  have hes := h.elem_size_ge
  have hbuf : s.arena.buf ≠ 0 := nslots_pos_buf (i := 0) (by omega)
  have hin : s.arena.Inside s.arena.buf := by
    rw [TecArena.Inside, hblock]
    omega
  have houts : ∀ p ∈ s.live, ¬ s.arena.Inside p := by
    intro p hp hpin
    have hmem : p ∈ s.slots := mem_slots.mpr ⟨hp, hpin⟩
    rw [hslots] at hmem
    cases hmem
  have hapart : ∀ p ∈ s.live, Apart s.arena.buf s.arena.elem_size p s.arena.elem_size := by
    intro p hp
    have := h.box_apart p hp (houts p hp)
    rw [hblock, Nat.one_mul] at this
    exact this.symm
  have hslots' : State.slots ⟨{ s.arena with allocated := 1, free_list := s.arena.free_list },
      store s.mem s.arena.buf 4 TECC_ARENA_ALLOCATED, s.arena.buf :: s.live⟩ =
        s.arena.buf :: s.slots := slots_cons_inside (fun _ => Iff.rfl) hin
  rw [hslots] at hslots'
  have hlive : Handed ⟨{ s.arena with allocated := 1, free_list := s.arena.free_list },
      store s.mem s.arena.buf 4 TECC_ARENA_ALLOCATED, s.arena.buf :: s.live⟩ := by
    refine h.toHanded.push (fun hl => houts _ hl hin) hbuf ?_ (fun _ => load_store (by decide))
      (fun hout => absurd hin hout) hapart
    intro p hp
    refine load_store_apart ?_
    have := hapart p hp
    unfold Apart at *
    omega
  exact ⟨hlive, hes, h.nslots_le, h.no_list, by rw [hslots']; rfl, .inr hslots'⟩

theorem box (h : Lone s) (hc : calloc ≠ 0) (hheap : s.Heap calloc) :
    Lone ⟨s.arena, clear s.mem calloc s.arena.elem_size, calloc :: s.live⟩ := by
  have hes := h.elem_size_ge
  have hout := heap_outside (by omega) hheap hc
  have hslots : State.slots ⟨s.arena, clear s.mem calloc s.arena.elem_size, calloc :: s.live⟩ =
      s.slots := slots_cons_outside (fun _ => Iff.rfl) hout
  exact ⟨h.toHanded.box hes hc hheap, hes, h.nslots_le, h.no_list, hslots ▸ h.counted,
    hslots.symm ▸ h.slots_eq⟩

/-- The block gives its only element while it is not live. -/
theorem arena_ptr_spec (h : Lone s) : arena_ptr s.arena s.mem =
    (if s.arena.nslots = 1 ∧ s.slots = [] then s.arena.buf else 0, s.arena.free_list) := by
  have hle := h.nslots_le
  have hcounted := h.counted
  rw [arena_ptr, if_neg (not_not.mpr h.no_list)]
  by_cases hroom : s.arena.nslots = 1 ∧ s.slots = []
  · have hzero : s.arena.allocated = 0 := by rw [hcounted, hroom.2]; rfl
    have hcap : s.arena.nslots ≤ s.arena.capacity := nslots_le_capacity
    rw [if_pos hroom, if_pos (by omega), hzero, Nat.zero_mul, Nat.add_zero]
  · rw [if_neg hroom]
    split
    · by_cases hbuf : s.arena.buf = 0
      · -- No block was allocated: the bump index names the null pointer.
        have hnone : s.slots = [] := by
          refine List.eq_nil_iff_forall_not_mem.mpr fun p hp => ?_
          exact nslots_pos_buf (i := 0) (by rw [h.nslots_of_inside (mem_slots.mp hp).2]; omega) hbuf
        rw [hnone, List.length_nil] at hcounted
        rw [hbuf, hcounted, Nat.zero_mul]
      · have hslots : s.arena.nslots = s.arena.capacity := if_neg hbuf
        exact absurd ⟨by omega, List.length_eq_zero_iff.mp (by omega)⟩ hroom
    · rfl

theorem allocate (h : Lone s) (hheap : s.Heap calloc)
    (hr : TecArena_allocate s.arena s.mem calloc = (arena, m, ptr)) :
    Lone ⟨arena, m, if ptr = 0 then s.live else ptr :: s.live⟩ := by
  by_cases hroom : s.arena.nslots = 1 ∧ s.slots = []
  · have hbuf : s.arena.buf ≠ 0 := nslots_pos_buf (i := 0) (by omega)
    have hzero : s.arena.allocated = 0 := by rw [h.counted, hroom.2]; rfl
    have hone : toSize ((0 : Nat) + 1) = 1 := rfl
    simp only [TecArena_allocate, h.arena_ptr_spec, if_pos hroom, if_pos hbuf, hzero, hone,
      Prod.mk.injEq] at hr
    obtain ⟨rfl, rfl, rfl⟩ := hr
    rw [if_neg hbuf]
    exact h.take hroom.2 hroom.1
  · simp only [TecArena_allocate, h.arena_ptr_spec, if_neg hroom, ne_eq, not_true_eq_false,
      if_false, Prod.mk.injEq] at hr
    obtain ⟨rfl, rfl, rfl⟩ := hr
    by_cases hc : calloc = 0
    · rw [if_pos hc, if_pos hc]
      exact h
    · rw [if_neg hc, if_neg hc]
      exact h.box hc hheap

theorem release_slot (h : Lone s) (hp : ptr ∈ s.live) (hin : s.arena.Inside ptr) :
    Lone ⟨{ s.arena with allocated := 0, free_list := 0 }, store s.mem ptr 8 s.arena.free_list,
      s.live.erase ptr⟩ := by
  obtain ⟨hptr, hslots⟩ := h.slot_eq hp hin
  have hlen := (Inv.slots_erase_inside (m := store s.mem ptr 8 s.arena.free_list) hp hin).length_eq
  rw [hslots] at hlen
  have hnil : State.slots ⟨s.arena, store s.mem ptr 8 s.arena.free_list, s.live.erase ptr⟩ = [] :=
    List.length_eq_zero_iff.mp (by simpa using hlen.symm)
  refine ⟨h.toHanded.erase ?_, h.elem_size_ge, h.nslots_le, rfl, ?_, .inl hnil⟩
  · intro p hpe
    have hpl := List.mem_of_mem_erase hpe
    have hne : p ≠ ptr := fun heq => h.live_nodup.not_mem_erase (heq ▸ hpe)
    have hzero : flags s.mem p = 0 :=
      h.box_flags p hpl (fun hpin => hne ((h.slot_eq hpl hpin).1.trans hptr.symm))
    rw [h.no_list, store_zero, hzero]
    exact load_clear_of_zero hzero
  · exact (congrArg List.length hnil).symm

theorem release_box (h : Lone s) (hp : ptr ∈ s.live) (hout : ¬ s.arena.Inside ptr) :
    Lone ⟨s.arena, s.mem, s.live.erase ptr⟩ := by
  have hperm := Inv.slots_erase_outside (m := s.mem) hp hout
  refine ⟨h.toHanded.erase fun _ _ => rfl, h.elem_size_ge, h.nslots_le, h.no_list,
    h.counted.trans hperm.length_eq, ?_⟩
  obtain heq | heq := h.slots_eq
  · rw [heq] at hperm
    exact .inl hperm.nil_eq.symm
  · rw [heq] at hperm
    exact .inr (List.perm_singleton.mp hperm.symm)

theorem release (h : Lone s) (hp : ptr ∈ s.live) {freed : Option Nat}
    (hr : TecArena_release s.arena s.mem ptr = (arena, m, freed)) :
    Lone ⟨arena, m, s.live.erase ptr⟩ := by
  by_cases hin : s.arena.Inside ptr
  · have hpush := (pushes_of_flags (h.live_ne ptr hp) (h.slot_flags ptr hp hin)).1
    have hzero : toSize (s.arena.allocated - 1) = 0 := by
      rw [h.counted, (h.slot_eq hp hin).2]
      rfl
    rw [State.Pushes, hzero, if_pos rfl, hr] at hpush
    cases hpush
    exact h.release_slot hp hin
  · have hfree := (frees_of_flags (h.live_ne ptr hp) (h.box_flags ptr hp hin)).1
    rw [State.Frees, hr] at hfree
    cases hfree
    exact h.release_box hp hin

theorem step (h : Lone s) (hs : Step s e t) : Lone t := by
  cases hs with
  | allocate hc hr => exact h.allocate hc hr
  | release hp hr => exact h.release hp hr
  | write hp hlo hhi =>
    refine h.frame (h.toHanded.flags_behind hp fun a ha => ?_)
    exact Function.update_of_ne (by omega) _ _
  | other hm => exact h.frame (Handed.flags_other h.elem_size_ge hm)

end Lone

theorem nslots_config (h : arena'.buf = arena.buf ∧ arena'.elem_size = arena.elem_size ∧
    arena'.capacity = arena.capacity) : arena'.nslots = arena.nslots := by
  obtain ⟨hbuf, _, hcap⟩ := h
  unfold TecArena.nslots
  rw [hbuf, hcap]

theorem lone_initial (hsize : 4 ≤ elem_size) (h : (arenaLts nelems elem_size).Init s)
    (hone : s.arena.nslots ≤ 1) : Lone s := by
  obtain ⟨calloc, m, rfl, _⟩ := h
  exact ⟨⟨nofun, nofun, List.nodup_nil, nofun, nofun, nofun⟩, hsize, hone, rfl, rfl, .inl rfl⟩

theorem lone_reachable (hsize : 4 ≤ elem_size) (h : (arenaLts nelems elem_size).Reachable s)
    (hone : s.arena.nslots ≤ 1) : Lone s := by
  refine h.invariant (P := fun s => s.arena.nslots ≤ 1 → Lone s)
    (fun _ hi hone => lone_initial hsize hi hone) ?_ hone
  intro s e t hs hstep hone
  rw [nslots_config (config_step hstep)] at hone
  exact (hs hone).step hstep

/-- In every run of an arena with this block, every live element would be routed back. -/
def RoutedAlways (nelems elem_size buf : Nat) : Prop :=
  ∀ s, (arenaLts nelems elem_size).Reachable s → s.arena.buf = buf →
    ∀ ptr ∈ s.live, Routed s ptr

/-- Without a free list the slot of the bump index is handed out. -/
theorem allocate_bump (hcap : n < k) (hfit : n + 1 < 18446744073709551616) (hbuf : buf ≠ 0) :
    TecArena_allocate ⟨buf, elem_size, k, n, 0⟩ m calloc =
      (⟨buf, elem_size, k, n + 1, 0⟩, store m (buf + n * elem_size) 4 TECC_ARENA_ALLOCATED,
        buf + n * elem_size) := by
  have hne : buf + n * elem_size ≠ 0 := fun hzero => hbuf (Nat.eq_zero_of_add_eq_zero_right hzero)
  have hcount : toSize ((n : Int) + 1) = n + 1 := by
    unfold toSize
    omega
  simp only [TecArena_allocate, arena_ptr, ne_eq, not_true_eq_false, if_false, if_pos hcap, hcount,
    if_pos hne]

/-- Two elements are handed out. -/
theorem two_slots (hn : 2 ≤ nelems) (hbuf : buf ≠ 0)
    (hfit : buf + nelems * elem_size ≤ 18446744073709551616) :
    (arenaLts nelems elem_size).Reachable ⟨⟨buf, elem_size, nelems, 2, 0⟩,
      store (store (fun _ => 0) buf 4 TECC_ARENA_ALLOCATED) (buf + elem_size) 4
        TECC_ARENA_ALLOCATED, [buf + elem_size, buf]⟩ := by
  have hinit : TecArena_init nelems elem_size buf = ⟨buf, elem_size, nelems, 0, 0⟩ := by
    rw [TecArena_init, if_neg (by omega)]
  have h0 : (arenaLts nelems elem_size).History []
      ⟨⟨buf, elem_size, nelems, 0, 0⟩, fun _ => 0, []⟩ :=
    .init ⟨buf, fun _ => 0, by rw [hinit], .inr hfit⟩
  have h1 := h0.snoc (Step.allocate (.inl rfl) (allocate_bump (by omega) (by omega) hbuf))
  have h2 := h1.snoc (Step.allocate (.inl rfl) (allocate_bump (by omega) (by omega) hbuf))
  rw [Nat.zero_add, Nat.zero_mul, Nat.one_mul, Nat.add_zero, if_neg hbuf, if_neg (by omega)] at h2
  exact h2.reachable

/-- Two slots that are smaller than a pointer: the link of the first covers the flags of the
second. -/
theorem not_routedAlways (hsize : 4 ≤ elem_size) (hsmall : elem_size < 8) (hn : 2 ≤ nelems)
    (hbuf : buf ≠ 0) (hfit : buf + nelems * elem_size ≤ 18446744073709551616) :
    ¬ RoutedAlways nelems elem_size buf := by
  intro h
  have hreach := two_slots hn hbuf hfit
  generalize hm : store (store (fun _ => 0) buf 4 TECC_ARENA_ALLOCATED) (buf + elem_size) 4
    TECC_ARENA_ALLOCATED = m at hreach
  generalize hs : State.mk ⟨buf, elem_size, nelems, 2, 0⟩ m [buf + elem_size, buf] = s at hreach
  have hflags : flags s.mem buf = TECC_ARENA_ALLOCATED := by
    rw [← hs, ← hm, flags, load_store_apart (.inl (by omega)), load_store (by decide)]
  have hfirst : s.mem (buf + elem_size) = 1 := by
    rw [← hs, ← hm]
    exact Function.update_self _ _ _
  have hpush : TecArena_release s.arena s.mem buf = _ := (pushes_of_flags hbuf hflags).1
  have hkeeps := (h s hreach (by rw [← hs]) buf (by simp [← hs])).keeps (buf + elem_size)
    (by simp [← hs]) (by omega) (buf + elem_size) (Nat.le_refl _) (by rw [← hs]; simp only; omega)
  rw [hpush, hfirst] at hkeeps
  have hlist : s.arena.free_list = 0 := by rw [← hs]
  simp only [hlist, store_zero, clear] at hkeeps
  rw [if_pos (by omega)] at hkeeps
  exact absurd hkeeps (by decide)

/-- An element goes back to where it came from, and its release spares the others, in every run
exactly when an element holds a pointer or has no neighbour in the block. -/
theorem release_routes (nelems elem_size buf : Nat) (hsize : 4 ≤ elem_size)
    (hfit : buf + nelems * elem_size ≤ 18446744073709551616) :
    RoutedAlways nelems elem_size buf ↔ 8 ≤ elem_size ∨ nelems ≤ 1 ∨ buf = 0 := by
  constructor
  · intro h
    by_contra hnot
    exact not_routedAlways hsize (by omega) (by omega) (by omega) hfit h
  · intro hcond s hs hbuf ptr hp
    obtain ⟨_, hcap⟩ := config_reachable hs
    by_cases hlarge : 8 ≤ elem_size
    · obtain ⟨free, hinv⟩ := inv_reachable hlarge hs
      exact hinv.routed hp
    · refine (lone_reachable hsize hs ?_).routed hp
      unfold TecArena.nslots
      split <;> omega

/-- Elements of exactly one pointer. -/
theorem release_routes_pointer : RoutedAlways 4 8 4096 :=
  (release_routes 4 8 4096 (by decide) (by decide)).mpr (.inl (Nat.le_refl 8))

/-- Elements of the header alone: the release of the first slot clears the flags of the second. -/
theorem release_clears_flags :
    ¬ ∀ nelems elem_size buf : Nat, 4 ≤ elem_size →
      buf + nelems * elem_size ≤ 18446744073709551616 → RoutedAlways nelems elem_size buf := by
  intro h
  exact not_routedAlways (by decide) (by decide) (by decide) (by decide) (by decide)
    (h 2 4 4096 (by decide) (by decide))

end Tecc.Arena
