import Mathlib.Algebra.GroupWithZero.Nat
import Tecc.BufferCapacity
import Tecc.Lib.Object

/-! The buffer at its limits: lengths that wrap, a first block that is too small, and growth that
fails. -/
namespace Tecc.Buffer

open Machine Block

variable {buf buf' : TecBuffer} {src : List UInt8} {str : List UInt8} {len : Nat}
  {calloc calloc' : Bool}

/-- A read does not look at the capacity. -/
theorem TecBuffer_read_capacity (buf : TecBuffer) (len c : Nat) :
    TecBuffer_read { buf with capacity := c } len =
      (TecBuffer_read buf len).map fun r => ({ r.1 with capacity := c }, r.2) := by
  by_cases hz : len = 0
  · simp only [TecBuffer_read, if_pos hz]
    rfl
  · simp only [TecBuffer_read, if_neg hz]
    generalize (if toSize (buf.pos + len) > buf.size then toSize (buf.size - buf.pos) else len) = n
    cases memcpy_from buf.data buf.pos n with
    | error e => rfl
    | ok bytes => rfl

/-- A read copies and returns what is left, at most `len` bytes, and no byte behind `size`. -/
def Clamped (buf : TecBuffer) (len : Nat) : Prop :=
  ∃ buf' n bytes, TecBuffer_read buf len = .ok (buf', n, bytes) ∧
    n = min len (buf.size - buf.pos.toNat) ∧
    bytes = (buf.contents.drop buf.pos.toNat).take n ∧ buf'.pos ≤ buf'.size

theorem clamped_of_fits (hpos : 0 ≤ buf.pos) (hps : buf.pos ≤ buf.size)
    (hsize : buf.size < 9223372036854775808) (hblock : buf.size ≤ buf.block.length)
    (hlen : buf.pos + len < 18446744073709551616) : Clamped buf len := by
  have hr : Represented { buf with capacity := buf.block.length } := ⟨hpos, hps, hblock, rfl⟩
  have hread := TecBuffer_read_spec hr len hlen hsize
  rw [TecBuffer_read_capacity] at hread
  cases hk : TecBuffer_read buf len with
  | error e =>
    rw [hk] at hread
    cases hread
  | ok r =>
    obtain ⟨buf', n, bytes⟩ := r
    rw [hk] at hread
    obtain ⟨hbuf, hn, hbytes⟩ : _ ∧ _ ∧ _ := by
      simpa only [Except.map, Except.ok.injEq, Prod.mk.injEq] using hread
    obtain ⟨_, hp, hs, _⟩ := TecBuffer.mk.inj hbuf
    refine ⟨buf', n, bytes, hk, hn, ?_, by omega⟩
    rw [hbytes, hn]
    rfl

/-- A sum that wraps is below the cursor, and nothing is clamped. -/
theorem not_clamped_of_wraps (hps : buf.pos ≤ buf.size) (hsize : buf.size < 9223372036854775808)
    (hlen : len < 18446744073709551616) (hwrap : 18446744073709551616 ≤ buf.pos + len) :
    ¬ Clamped buf len := by
  rintro ⟨buf', n, bytes, hread, hn, _, _⟩
  have hz : len ≠ 0 := by omega
  have hclamp : ¬ toSize (buf.pos + len) > buf.size := by
    unfold toSize
    omega
  simp only [TecBuffer_read, if_neg hz, if_neg hclamp] at hread
  obtain ⟨copied, _, hret⟩ := Object.bind_ok hread
  have hcount : len = n := congrArg (fun r => r.2.1) (Except.ok.inj hret)
  omega

/-- A read is clamped exactly when the sum of cursor and length does not wrap. -/
theorem read_clamped_iff (buf : TecBuffer) (len : Nat) (hpos : 0 ≤ buf.pos)
    (hps : buf.pos ≤ buf.size) (hsize : buf.size < 9223372036854775808)
    (hblock : buf.size ≤ buf.block.length) (hlen : len < 18446744073709551616) :
    Clamped buf len ↔ buf.pos + len < 18446744073709551616 := by
  constructor
  · intro hc
    by_contra hwrap
    exact not_clamped_of_wraps hps hsize hlen (by omega) hc
  · exact clamped_of_fits hpos hps hsize hblock

theorem read_clamped_iff_end :
    Clamped ⟨some [7, 8], 1, 2, 2, 80⟩ 5 ↔ (1 : Int) + (5 : Nat) < 18446744073709551616 :=
  read_clamped_iff ⟨some [7, 8], 1, 2, 2, 80⟩ 5 (by decide) (by decide) (by decide) (by decide)
    (by decide)

/-- Reading `SIZE_MAX` bytes from the second of two. -/
theorem read_everything_overruns :
    ¬ ∀ buf len, 0 ≤ buf.pos → buf.pos ≤ buf.size → buf.size < 9223372036854775808 →
      buf.size ≤ buf.block.length → len < 18446744073709551616 → Clamped buf len := by
  intro h
  obtain ⟨buf', n, bytes, hread, _⟩ := h ⟨some [7, 8], 1, 2, 2, 80⟩ 18446744073709551615
    (by decide) (by decide) (by decide) (by decide) (by decide)
  have hfault : TecBuffer_read ⟨some [7, 8], 1, 2, 2, 80⟩ 18446744073709551615 =
      .error .outOfBounds := rfl
  rw [hfault] at hread
  cases hread

/-- The test with which `ensure_capacity` begins fails. -/
def NeedsGrowth (buf : TecBuffer) (len : Nat) : Prop := ¬ toSize (buf.pos + len) ≤ buf.capacity

instance (buf : TecBuffer) (len : Nat) : Decidable (NeedsGrowth buf len) :=
  inferInstanceAs (Decidable (¬ toSize (buf.pos + len) ≤ buf.capacity))

theorem needsGrowth_iff (hpos : 0 ≤ buf.pos) (hlen : buf.pos + len < 18446744073709551616) :
    NeedsGrowth buf len ↔ (buf.capacity : Int) < buf.pos + len := by
  unfold NeedsGrowth toSize
  omega

/-- What a write into the allocated block leaves. -/
structure WrittenInside (buf : TecBuffer) (src : List UInt8) (buf' : TecBuffer) : Prop
    extends Represented buf' where
  pos_eq : buf'.pos = buf.pos + src.length
  size_eq : buf'.size = max buf.size (buf.pos.toNat + src.length)
  capacity_eq : buf'.capacity = buf.capacity
  block_size_eq : buf'.block_size = buf.block_size

/-- A write that fits the capacity does not allocate, whatever `block_size` is. -/
theorem TecBuffer_write_inside (h : Represented buf)
    (hfit : buf.pos + src.length ≤ buf.capacity)
    (hlen : buf.pos + src.length < 9223372036854775808) :
    ∃ buf', TecBuffer_write calloc buf src src.length = .ok (buf', src.length) ∧
      WrittenInside buf src buf' := by
  have hpos := h.pos_nonneg
  have hps := h.pos_le
  have hsc := h.size_le
  have hbl := h.block_length
  by_cases hz : src.length = 0
  · refine ⟨buf, by rw [TecBuffer_write, if_pos hz, hz], h, ?_, ?_, rfl, rfl⟩ <;> omega
  · have hens : ensure_capacity calloc buf buf.pos src.length = .ok buf :=
      if_pos (by unfold toSize; omega)
    have hcpy : memcpy_to buf.data buf.pos src src.length =
        .ok (some (blit buf.block buf.pos.toNat src)) := by
      rw [h.data_of_capacity (by omega), memcpy_to_ok hpos (Nat.le_refl _) (by omega)]
      simp
    have hl : toLong (buf.pos + src.length) = buf.pos + src.length :=
      toLong_of_bounds (by omega) hlen
    have hsz : (if toSize (buf.pos + src.length) > buf.size then toSize (buf.pos + src.length)
        else buf.size) = max buf.size (buf.pos.toNat + src.length) := by
      unfold toSize
      split <;> omega
    have hlen' : (blit buf.block buf.pos.toNat src).length = buf.capacity := by
      rw [length_blit (by omega), hbl]
      omega
    refine ⟨{ buf with
      data := some (blit buf.block buf.pos.toNat src)
      size := max buf.size (buf.pos.toNat + src.length)
      pos := buf.pos + src.length }, ?_, ?_⟩
    · simp only [TecBuffer_write, if_neg hz, hens, hcpy, bind, Except.bind, hl, hsz]
    · exact
        { pos_nonneg := by simp only; omega
          pos_le := by simp only; omega
          size_le := by simp only; omega
          block_length := hlen'
          pos_eq := rfl
          size_eq := rfl
          capacity_eq := rfl
          block_size_eq := rfl }

/-- One write of a sequence, with every allocation succeeding. -/
def write_step (buf : TecBuffer) (src : List UInt8) : Except Fault (TecBuffer × Nat) :=
  TecBuffer_write true buf src src.length

/-- The number of bytes in a sequence of writes. -/
def total (srcs : List (List UInt8)) : Nat := (srcs.map List.length).sum

/-- No write of the sequence grows the buffer, and none leaves its block. -/
def Stays (buf : TecBuffer) (srcs : List (List UInt8)) : Prop :=
  Object.Allowed write_step (fun buf src => ¬ NeedsGrowth buf src.length) buf srcs ∧
    ∃ buf' os, Object.run write_step buf srcs = .ok (buf', os) ∧ buf'.capacity = buf.capacity

/-- The room that is left pays for the writes. -/
theorem stays_of_room {srcs : List (List UInt8)} :
    ∀ {buf : TecBuffer}, Represented buf → buf.pos + total srcs ≤ buf.capacity →
      buf.pos + total srcs < 9223372036854775808 → Stays buf srcs := by
  induction srcs with
  | nil =>
    intro buf _ _ _
    exact ⟨trivial, buf, [], rfl, rfl⟩
  | cons src srcs ih =>
    intro buf h hroom hlt
    have htotal : total (src :: srcs) = src.length + total srcs := by simp [total]
    have hpos := h.pos_nonneg
    obtain ⟨b, hw, hb⟩ := @TecBuffer_write_inside buf src true h (by omega) (by omega)
    have hposb := hb.pos_eq
    have hcapb := hb.capacity_eq
    obtain ⟨hallowed, buf', os, hrun, hcap⟩ := ih hb.toRepresented (by omega) (by omega)
    have hno : ¬ NeedsGrowth buf src.length := by
      rw [needsGrowth_iff hpos (by omega)]
      omega
    refine ⟨⟨hno, ?_⟩, buf', src.length :: os, Object.run_cons_ok hw hrun, hcap.trans hcapb⟩
    intro s o hs
    cases Except.ok.inj ((Eq.symm hs).trans hw)
    exact hallowed

/-- The block size that `TecBuffer_init_` settles on. -/
def effective_block_size (block_size : Nat) : Nat :=
  if block_size = 0 then TECC_BUFFER_BLOCK_SIZE else block_size

/-- The first allocation is one block, whatever was asked for. -/
theorem TecBuffer_init_eq (initial_size block_size : Nat) (hne : initial_size ≠ 0)
    (hi : initial_size < 18446744073709551616) :
    TecBuffer_init_ true initial_size block_size =
      .ok ⟨some (List.replicate (effective_block_size block_size) 0), 0, 0,
        effective_block_size block_size, effective_block_size block_size⟩ := by
  have hpos : 0 < effective_block_size block_size := by
    unfold effective_block_size TECC_BUFFER_BLOCK_SIZE
    split <;> omega
  have hgrow : ¬ toSize ((0 : Int) + initial_size) ≤ 0 := by
    unfold toSize
    omega
  change (if initial_size ≠ 0 then
    ensure_capacity true ⟨none, 0, 0, 0, effective_block_size block_size⟩ 0 initial_size
    else .ok ⟨none, 0, 0, 0, effective_block_size block_size⟩) = _
  rw [if_pos hne, ensure_capacity, if_neg hgrow]
  simp only [grown_capacity, ne_eq, not_true, if_false, bind, Except.bind,
    raise_capacity_of_le (Nat.zero_le _), realloc_buffer, Nat.not_le.mpr hpos, Bool.true_eq_false]

/-- The initial size is honoured: the capacity covers it, and writes of no more bytes than it
never reallocate and never leave the block. -/
def Honoured (initial_size block_size : Nat) : Prop :=
  ∃ buf, TecBuffer_init_ true initial_size block_size = .ok buf ∧
    TecBuffer_create_ true initial_size block_size = .ok buf ∧ initial_size ≤ buf.capacity ∧
    ∀ srcs, total srcs ≤ initial_size → Stays buf srcs

/-- The initial size is honoured exactly when it is at most one block. -/
theorem initial_size_honoured_iff (initial_size block_size : Nat)
    (hi : initial_size < 9223372036854775808) :
    Honoured initial_size block_size ↔ initial_size ≤ effective_block_size block_size := by
  constructor
  · rintro ⟨buf, hinit, _, hcap, _⟩
    by_cases hz : initial_size = 0
    · omega
    · rw [TecBuffer_init_eq initial_size block_size hz (by omega)] at hinit
      cases hinit
      exact hcap
  · intro hle
    have hstays : ∀ {buf}, Represented buf → buf.pos = 0 → initial_size ≤ buf.capacity →
        ∀ srcs, total srcs ≤ initial_size → Stays buf srcs := by
      intro buf h hpos hcap srcs htotal
      exact stays_of_room h (by omega) (by omega)
    by_cases hz : initial_size = 0
    · subst hz
      refine ⟨⟨none, 0, 0, 0, effective_block_size block_size⟩, rfl, rfl, Nat.le_refl 0, ?_⟩
      exact hstays ⟨Int.le_refl 0, Int.le_refl 0, Nat.le_refl 0, rfl⟩ rfl (Nat.le_refl 0)
    · have hinit := TecBuffer_init_eq initial_size block_size hz (by omega)
      refine ⟨_, hinit, hinit, hle, ?_⟩
      refine hstays ⟨Int.le_refl 0, Int.le_refl 0, Nat.zero_le _, ?_⟩ rfl hle
      exact List.length_replicate

theorem initial_size_honoured_iff_default :
    Honoured 16 0 ↔ 16 ≤ effective_block_size 0 :=
  initial_size_honoured_iff 16 0 (by decide)

/-- An initial size of 100 bytes gets the default block of 80. -/
theorem initial_size_not_honoured :
    ¬ ∀ initial_size block_size, initial_size < 9223372036854775808 →
      Honoured initial_size block_size := by
  intro h
  obtain ⟨buf, hinit, _, hcap, _⟩ := h 100 0 (by decide)
  rw [TecBuffer_init_eq 100 0 (by decide) (by decide)] at hinit
  cases hinit
  exact absurd hcap (by decide)

theorem memcpy_to_error {data : Option (List UInt8)} {pos : Int} {e : Fault}
    (h : memcpy_to data pos src len = .error e) : e = .outOfBounds := by
  unfold memcpy_to at h
  split at h
  · cases h
  · cases data with
    | none => exact (Except.error.inj h).symm
    | some block =>
      simp only at h
      split at h
      · cases h
      · exact (Except.error.inj h).symm

theorem memcpy_from_error {data : Option (List UInt8)} {pos : Int} {e : Fault}
    (h : memcpy_from data pos len = .error e) : e = .outOfBounds := by
  unfold memcpy_from at h
  split at h
  · cases h
  · cases data with
    | none => exact (Except.error.inj h).symm
    | some block =>
      simp only at h
      split at h
      · cases h
      · exact (Except.error.inj h).symm

/-- A write never reports that it wrote nothing of a nonempty source. -/
theorem TecBuffer_write_returns (hlen : len ≠ 0) {n : Nat}
    (h : TecBuffer_write calloc buf src len = .ok (buf', n)) : n = len := by
  rw [TecBuffer_write, if_neg hlen] at h
  obtain ⟨b, _, h⟩ := Object.bind_ok h
  obtain ⟨data, _, h⟩ := Object.bind_ok h
  cases Except.ok.inj h
  rfl

/-- The write goes on behind a growth that failed, and leaves the block. -/
theorem TecBuffer_write_no_memory (h : Represented buf) (hgrow : NeedsGrowth buf len)
    (r : TecBuffer × Nat) : TecBuffer_write false buf src len ≠ .ok r := by
  have hpos := h.pos_nonneg
  have hps := h.pos_le
  have hsc := h.size_le
  have hlen : len ≠ 0 := by
    rintro rfl
    unfold NeedsGrowth toSize at hgrow
    omega
  intro hw
  rw [TecBuffer_write, if_neg hlen] at hw
  obtain ⟨b, hb, hw⟩ := Object.bind_ok hw
  obtain ⟨data, hcpy, _⟩ := Object.bind_ok hw
  rw [ensure_capacity_no_memory hb] at hcpy
  obtain ⟨block, hdata, _, hin⟩ := memcpy_to_bounds hlen hcpy
  have hbl := length_of_data hdata h.block_length
  unfold NeedsGrowth toSize at hgrow
  omega

/-- The number of bytes that `TecBuffer_puts` writes, terminator included. -/
def puts_count (str : List UInt8) : Nat := toSize (toInt (toInt str.length + 1))

/-- One of the two calls of `ensure_capacity` that `TecBuffer_puts` makes has to grow and gets no
memory. -/
def PutsFails (calloc calloc' : Bool) (buf : TecBuffer) (str : List UInt8) : Prop :=
  toInt str.length ≠ 0 ∧ puts_count str ≠ 0 ∧
    ((NeedsGrowth buf (puts_count str) ∧ calloc = false) ∨
      ∃ b, ensure_capacity calloc buf buf.pos (puts_count str) = .ok b ∧
        NeedsGrowth (step_back b) (puts_count str) ∧ calloc' = false)

/-- The outcome that a failed growth should have: nothing is changed, nothing is written. -/
def Intact (buf : TecBuffer) (outcome : Except Fault (TecBuffer × Nat)) : Prop :=
  outcome = .ok (buf, 0)

theorem TecBuffer_puts_not_intact (hne : toInt str.length ≠ 0) (hcount : puts_count str ≠ 0) :
    ¬ Intact buf (TecBuffer_puts calloc calloc' buf (some str)) := by
  intro h
  simp only [Intact, TecBuffer_puts, if_neg hne] at h
  obtain ⟨b, _, h⟩ := Object.bind_ok h
  obtain ⟨back, _, h⟩ := Object.bind_ok h
  exact hcount (TecBuffer_write_returns hcount h).symm

/-- No growth that fails leaves the buffer intact: a write never returns from it, and
`TecBuffer_puts` does not return 0. -/
theorem failed_growth_never_intact (buf : TecBuffer) (h : Represented buf) :
    (∀ src, NeedsGrowth buf src.length →
      ¬ Intact buf (TecBuffer_write false buf src src.length)) ∧
    ∀ str calloc calloc', PutsFails calloc calloc' buf str →
      ¬ Intact buf (TecBuffer_puts calloc calloc' buf (some str)) := by
  constructor
  · intro src hgrow hintact
    exact TecBuffer_write_no_memory h hgrow _ hintact
  · rintro str calloc calloc' ⟨hne, hcount, _⟩
    exact TecBuffer_puts_not_intact hne hcount

theorem failed_growth_never_intact_new :
    ¬ Intact ⟨none, 0, 0, 0, 80⟩ (TecBuffer_write false ⟨none, 0, 0, 0, 80⟩ [7] 1) ∧
      ¬ Intact ⟨none, 0, 0, 0, 80⟩
        (TecBuffer_puts false false ⟨none, 0, 0, 0, 80⟩ (some [7])) := by
  have hnew : Represented ⟨none, 0, 0, 0, 80⟩ :=
    ⟨Int.le_refl 0, Int.le_refl 0, Nat.le_refl 0, rfl⟩
  refine ⟨(failed_growth_never_intact _ hnew).1 [7] (by decide), ?_⟩
  refine (failed_growth_never_intact _ hnew).2 [7] false false ?_
  exact ⟨by decide, by decide, .inl ⟨by decide, rfl⟩⟩

/-- One byte written to a new buffer when there is no memory is copied to a null pointer. -/
theorem failed_growth_copies :
    ¬ ∀ buf, Represented buf →
      (∀ src, NeedsGrowth buf src.length →
        Intact buf (TecBuffer_write false buf src src.length)) ∧
      ∀ str calloc calloc', PutsFails calloc calloc' buf str →
        Intact buf (TecBuffer_puts calloc calloc' buf (some str)) := by
  intro h
  have hintact := (h ⟨none, 0, 0, 0, 80⟩
    ⟨Int.le_refl 0, Int.le_refl 0, Nat.le_refl 0, rfl⟩).1 [7] (by decide)
  have hfault : TecBuffer_write false ⟨none, 0, 0, 0, 80⟩ [7] 1 = .error .outOfBounds := by
    simp [TecBuffer_write, ensure_capacity, toSize, grown_capacity, raise_capacity_of_le,
      realloc_buffer, memcpy_to, bind, Except.bind]
  cases hfault.symm.trans hintact

end Tecc.Buffer
