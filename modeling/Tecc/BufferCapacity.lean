import Tecc.Buffer
import Tecc.Lib.Transition
import Tecc.Lib.Object

/-! The representation invariant of the buffer and the accesses that stay inside its block. -/
namespace Tecc.Buffer

open Machine Block Object

variable {buf buf' : TecBuffer} {pos : Int} {len n : Nat} {src : List UInt8}

/-- The bytes of the allocated block; none are allocated behind a null pointer. -/
def TecBuffer.block (buf : TecBuffer) : List UInt8 := buf.data.getD []

/-- The first `size` bytes of `data`. -/
def TecBuffer.contents (buf : TecBuffer) : List UInt8 := buf.block.take buf.size

/-- `0 <= pos <= size <= capacity`, and `data` holds `capacity` bytes. -/
structure Represented (buf : TecBuffer) : Prop where
  pos_nonneg : 0 ≤ buf.pos
  pos_le : buf.pos ≤ buf.size
  size_le : buf.size ≤ buf.capacity
  block_length : buf.block.length = buf.capacity

/-- What keeps growth sufficient: a buffer that has memory has at least one block of it. -/
structure Roomy (buf : TecBuffer) : Prop extends Represented buf where
  block_pos : 0 < buf.block_size
  block_le : buf.capacity ≠ 0 → buf.block_size ≤ buf.capacity

theorem Represented.contents_length (h : Represented buf) : buf.contents.length = buf.size := by
  have := h.size_le
  simp [TecBuffer.contents, h.block_length, this]

theorem Represented.data_of_capacity (h : Represented buf) (hc : buf.capacity ≠ 0) :
    buf.data = some buf.block := by
  have hl := h.block_length
  cases hd : buf.data with
  | none => simp [TecBuffer.block, hd] at hl; omega
  | some block => simp [TecBuffer.block, hd]

theorem length_of_data {block : List UInt8} (hdata : buf.data = some block)
    (h : buf.block.length = buf.capacity) : block.length = buf.capacity := by
  rw [← h, TecBuffer.block, hdata]
  rfl

theorem memcpy_to_ok {block : List UInt8} (hp : 0 ≤ pos) (hs : len ≤ src.length)
    (hb : pos.toNat + len ≤ block.length) :
    memcpy_to (some block) pos src len = .ok (some (blit block pos.toNat (src.take len))) := by
  unfold memcpy_to
  split
  · subst len; simp
  · exact if_pos ⟨hp, hs, hb⟩

theorem memcpy_from_ok {block : List UInt8} (hp : 0 ≤ pos)
    (hb : pos.toNat + len ≤ block.length) :
    memcpy_from (some block) pos len = .ok ((block.drop pos.toNat).take len) := by
  unfold memcpy_from
  split
  · subst len; simp
  · exact if_pos ⟨hp, hb⟩

/-- A copy that returns stays inside the block. -/
theorem memcpy_to_bounds {data data' : Option (List UInt8)} (hlen : len ≠ 0)
    (h : memcpy_to data pos src len = .ok data') :
    ∃ block, data = some block ∧ 0 ≤ pos ∧ pos.toNat + len ≤ block.length := by
  cases data with
  | none =>
    simp only [memcpy_to, if_neg hlen] at h
    cases h
  | some block =>
    simp only [memcpy_to, if_neg hlen] at h
    split at h
    · rename_i hin
      exact ⟨block, rfl, hin.1, hin.2.2⟩
    · cases h

theorem memcpy_from_bounds {data : Option (List UInt8)} {bytes : List UInt8}
    (hlen : len ≠ 0) (h : memcpy_from data pos len = .ok bytes) :
    ∃ block, data = some block ∧ 0 ≤ pos ∧ pos.toNat + len ≤ block.length := by
  cases data with
  | none =>
    simp only [memcpy_from, if_neg hlen] at h
    cases h
  | some block =>
    simp only [memcpy_from, if_neg hlen] at h
    split at h
    · rename_i hin
      exact ⟨block, rfl, hin⟩
    · cases h

theorem raise_capacity_of_le {capacity block_size fuel : Nat} (h : capacity ≤ n) :
    raise_capacity capacity block_size fuel n = .ok n := by
  cases fuel <;> simp [raise_capacity, Nat.not_lt.mpr h]

/-- The block after a successful reallocation: the old bytes below `size`, then zeros. -/
theorem realloc_buffer_spec (h : Represented buf) (hn : buf.capacity < n) :
    ∃ block, realloc_buffer true buf n =
        .ok ({ buf with capacity := n, data := some block }, true) ∧
      block.length = n ∧ block.take buf.size = buf.contents := by
  have hsize := h.size_le
  have hlen := h.block_length
  simp only [realloc_buffer, Nat.not_le.mpr hn, if_false, Bool.true_eq_false]
  cases hd : buf.data with
  | none =>
    have hb : buf.block = [] := by simp [TecBuffer.block, hd]
    have hz : buf.size = 0 := by simp [hb] at hlen; omega
    exact ⟨_, rfl, by simp, by simp [TecBuffer.contents, hz]⟩
  | some old =>
    have hb : buf.block = old := by simp [TecBuffer.block, hd]
    rw [hb] at hlen
    have hfrom : memcpy_from (some old) 0 buf.size = .ok buf.contents := by
      rw [memcpy_from_ok (Int.le_refl 0) (by simp; omega)]
      simp [TecBuffer.contents, hb]
    have hlc := h.contents_length
    have hto : memcpy_to (some (List.replicate n 0)) 0 buf.contents buf.size =
        .ok (some (blit (List.replicate n 0) 0 buf.contents)) := by
      rw [memcpy_to_ok (Int.le_refl 0) (by omega) (by simp; omega)]
      simp [List.take_of_length_le (Nat.le_of_eq hlc)]
    refine ⟨blit (List.replicate n 0) 0 buf.contents, ?_, ?_, ?_⟩
    · simp only [hfrom, hto, bind, Except.bind]
    · rw [length_blit (Nat.zero_le _)]
      simp
      omega
    · simp [blit, hlc]

/-- Growth of a buffer with memory covers the request, whatever the four numbers are. -/
theorem grown_capacity_covers (h : Roomy buf)
    (hlen : pos + len < 9223372036854775808) (hc : buf.capacity ≠ 0)
    (hbig : buf.capacity < (pos + len).toNat) :
    ∃ n, grown_capacity buf pos len = .ok n ∧ (pos + len).toNat ≤ n ∧ buf.capacity ≤ n := by
  have hblock := h.block_pos
  have hle := h.block_le hc
  have hsum : toSize (pos + len) = (pos + len).toNat := by unfold toSize; omega
  have hdiv := Nat.div_add_mod (pos + len).toNat buf.block_size
  have hmod := Nat.mod_lt (pos + len).toNat hblock
  rw [Nat.mul_comm] at hdiv
  have hfit : buf.capacity + (pos + len).toNat / buf.block_size * buf.block_size <
      18446744073709551616 := by omega
  refine ⟨buf.capacity + (pos + len).toNat / buf.block_size * buf.block_size, ?_, by omega,
    by omega⟩
  rw [grown_capacity, if_pos hc, if_neg (by omega), hsum, ← toSize_of_lt hfit]
  simp

/-- What `ensure_capacity` leaves: the same bytes and cursor, and room for the request unless
an empty buffer was asked for more than one block. -/
structure Ensured (buf : TecBuffer) (need : Nat) (buf' : TecBuffer) : Prop extends Roomy buf' where
  pos_eq : buf'.pos = buf.pos
  size_eq : buf'.size = buf.size
  block_size_eq : buf'.block_size = buf.block_size
  contents_eq : buf'.contents = buf.contents
  capacity_ne : need ≠ 0 → buf'.capacity ≠ 0
  covers : buf.capacity ≠ 0 ∨ need ≤ buf.block_size → need ≤ buf'.capacity

theorem ensure_capacity_spec (h : Roomy buf) (len : Nat) (hp : 0 ≤ pos)
    (hlen : pos + len < 18446744073709551616)
    (hgrow : buf.capacity ≠ 0 → pos + len < 9223372036854775808) :
    ∃ buf', ensure_capacity true buf pos len = .ok buf' ∧ Ensured buf (pos + len).toNat buf' := by
  have hsum : toSize (pos + len) = (pos + len).toNat := by unfold toSize; omega
  have hblock := h.block_pos
  by_cases hfit : (pos + len).toNat ≤ buf.capacity
  · refine ⟨buf, by simp [ensure_capacity, hsum, hfit], ⟨h, rfl, rfl, rfl, rfl, ?_, fun _ => hfit⟩⟩
    omega
  · -- The new capacity, in both branches of the growth rule.
    obtain ⟨n, hn, hcov, hlt, hge⟩ : ∃ n, grown_capacity buf pos len = .ok n ∧
        (buf.capacity ≠ 0 ∨ (pos + len).toNat ≤ buf.block_size → (pos + len).toNat ≤ n) ∧
        buf.capacity < n ∧ buf.block_size ≤ n := by
      by_cases hc : buf.capacity = 0
      · exact ⟨buf.block_size, by simp [grown_capacity, hc], by omega, by omega, Nat.le_refl _⟩
      · obtain ⟨n, hn, hcov, _⟩ := grown_capacity_covers h (hgrow hc) hc (by omega)
        have := h.block_le hc
        exact ⟨n, hn, fun _ => hcov, by omega, by omega⟩
    obtain ⟨block, hr, hl, htake⟩ := realloc_buffer_spec h.toRepresented hlt
    refine ⟨{ buf with capacity := n, data := some block }, ?_, ?_⟩
    · simp [ensure_capacity, hsum, hfit, hn, raise_capacity_of_le (Nat.le_of_lt hlt), hr,
        bind, Except.bind]
    · have hsize := h.size_le
      exact
        { pos_nonneg := h.pos_nonneg
          pos_le := h.pos_le
          size_le := by simp only; omega
          block_length := by simpa [TecBuffer.block] using hl
          block_pos := hblock
          block_le := fun _ => hge
          pos_eq := rfl
          size_eq := rfl
          block_size_eq := rfl
          contents_eq := by simpa [TecBuffer.contents, TecBuffer.block] using htake
          capacity_ne := by simp only; omega
          covers := hcov }

/-- Growth that has no memory leaves the buffer as it is, and tells nobody. -/
theorem ensure_capacity_no_memory (h : ensure_capacity false buf pos len = .ok buf') :
    buf' = buf := by
  by_cases hfit : toSize (pos + len) ≤ buf.capacity
  · rw [ensure_capacity, if_pos hfit] at h
    exact (Except.ok.inj h).symm
  · rw [ensure_capacity, if_neg hfit] at h
    obtain ⟨n, _, h⟩ := bind_ok h
    obtain ⟨n, _, h⟩ := bind_ok h
    obtain ⟨r, hr, h⟩ := bind_ok h
    rw [realloc_buffer] at hr
    split at hr
    · cases hr
      exact (Except.ok.inj h).symm
    · cases hr
      exact (Except.ok.inj h).symm

/-- What a write leaves: its bytes stand at the cursor, everything else is where it was. -/
structure Written (buf : TecBuffer) (src : List UInt8) (buf' : TecBuffer) : Prop
    extends Roomy buf' where
  pos_eq : buf'.pos = buf.pos + src.length
  size_eq : buf'.size = max buf.size (buf.pos.toNat + src.length)
  block_size_eq : buf'.block_size = buf.block_size
  contents_eq : buf'.contents = blit buf.contents buf.pos.toNat src
  capacity_ne : buf.capacity ≠ 0 → buf'.capacity ≠ 0

theorem TecBuffer_write_spec (h : Roomy buf) (src : List UInt8)
    (hlen : buf.pos + src.length < 9223372036854775808)
    (hroom : buf.capacity ≠ 0 ∨ src.length ≤ buf.block_size) :
    ∃ buf', TecBuffer_write true buf src src.length = .ok (buf', src.length) ∧
      Written buf src buf' := by
  have hpos := h.pos_nonneg
  have hps := h.pos_le
  by_cases hz : src.length = 0
  · have hnil : src = [] := List.length_eq_zero_iff.mp hz
    subst hnil
    exact ⟨buf, by simp [TecBuffer_write], ⟨h, by simp, by simp; omega, rfl, by simp, id⟩⟩
  · obtain ⟨b, hb, he⟩ := ensure_capacity_spec h _ hpos (by omega) (fun _ => hlen)
    have hcov : (buf.pos + src.length).toNat ≤ b.capacity := by
      apply he.covers
      rcases hroom with hc | hl
      · exact Or.inl hc
      · by_cases hc : buf.capacity = 0
        · have := h.size_le
          exact Or.inr (by omega)
        · exact Or.inl hc
    have hlb := he.block_length
    have hdata := he.data_of_capacity (he.capacity_ne (by omega))
    have hcpy : memcpy_to b.data buf.pos src src.length =
        .ok (some (blit b.block buf.pos.toNat src)) := by
      rw [hdata, memcpy_to_ok hpos (Nat.le_refl _) (by omega)]
      simp
    have hl : toLong (buf.pos + src.length) = buf.pos + src.length :=
      toLong_of_bounds (by omega) hlen
    have hu : toSize (buf.pos + src.length) = buf.pos.toNat + src.length := by
      unfold toSize
      omega
    have hsz : (if toSize (buf.pos + src.length) > b.size then toSize (buf.pos + src.length)
        else b.size) = max buf.size (buf.pos.toNat + src.length) := by
      rw [hu, he.size_eq]
      split <;> omega
    have hbs := he.size_le
    have hse := he.size_eq
    have hlen' : (blit b.block buf.pos.toNat src).length = b.capacity := by
      rw [length_blit (by omega), hlb]
      omega
    refine ⟨{ b with
      data := some (blit b.block buf.pos.toNat src)
      size := max buf.size (buf.pos.toNat + src.length)
      pos := buf.pos + src.length }, ?_, ?_⟩
    · simp only [TecBuffer_write, if_neg hz, hb, hcpy, bind, Except.bind, hl, hsz]
    · exact
        { pos_nonneg := by simp only; omega
          pos_le := by simp only; omega
          size_le := by simp only; omega
          block_length := by simpa [TecBuffer.block] using hlen'
          block_pos := he.block_pos
          block_le := he.block_le
          pos_eq := rfl
          size_eq := rfl
          block_size_eq := he.block_size_eq
          capacity_ne := fun _ => he.capacity_ne (by omega)
          contents_eq := by
            have ht := take_blit (i := buf.pos.toNat) (n := buf.size) b.block src (by omega)
              (by omega)
            have hc := he.contents_eq
            simp only [TecBuffer.contents, hse] at hc
            rw [hc] at ht
            simpa [TecBuffer.contents, TecBuffer.block] using ht }

/-- A read inside the 64-bit range is clamped to the bytes that are left. -/
theorem TecBuffer_read_spec (h : Represented buf) (len : Nat)
    (hlen : buf.pos + len < 18446744073709551616) (hsize : buf.size < 9223372036854775808) :
    TecBuffer_read buf len =
      .ok ({ buf with pos := buf.pos + min len (buf.size - buf.pos.toNat) },
        min len (buf.size - buf.pos.toNat),
        (buf.contents.drop buf.pos.toNat).take (min len (buf.size - buf.pos.toNat))) := by
  have hpos := h.pos_nonneg
  have hps := h.pos_le
  have hsc := h.size_le
  have hbl := h.block_length
  by_cases hz : len = 0
  · subst hz; simp [TecBuffer_read]
  · have hclamp : (if toSize (buf.pos + len) > buf.size then toSize (buf.size - buf.pos) else len) =
        min len (buf.size - buf.pos.toNat) := by
      unfold toSize
      split <;> omega
    have hl : toLong (buf.pos + (min len (buf.size - buf.pos.toNat) : Nat)) =
        buf.pos + (min len (buf.size - buf.pos.toNat) : Nat) :=
      toLong_of_bounds (by omega) (by omega)
    have hcpy : memcpy_from buf.data buf.pos (min len (buf.size - buf.pos.toNat)) =
        .ok ((buf.contents.drop buf.pos.toNat).take (min len (buf.size - buf.pos.toNat))) := by
      by_cases hc : buf.capacity = 0
      · have : min len (buf.size - buf.pos.toNat) = 0 := by omega
        simp [memcpy_from, this]
      · rw [h.data_of_capacity hc, memcpy_from_ok hpos (by omega)]
        simp [TecBuffer.contents, List.drop_take, List.take_take]
    simp only [TecBuffer_read, if_neg hz, hclamp, hcpy, bind, Except.bind, hl]

/-- The position a seek asks for, as a mathematical integer. -/
def seek_target (buf : TecBuffer) (offset origin : Int) : Int :=
  (if origin = kTecSeekSet then 0 else if origin = kTecSeekCur then buf.pos else buf.size) + offset

/-- A seek lands exactly on targets inside the buffer; a wrapped sum is negative. -/
theorem TecBuffer_seek_spec (hpos : 0 ≤ buf.pos) (hps : buf.pos ≤ buf.size)
    (hsize : buf.size < 9223372036854775808) (offset origin : Int)
    (hlo : -9223372036854775808 ≤ offset) (hhi : offset < 9223372036854775808) :
    TecBuffer_seek buf offset origin =
      if 0 ≤ seek_target buf offset origin ∧ seek_target buf offset origin ≤ buf.size then
        ({ buf with pos := seek_target buf offset origin }, 0)
      else (buf, TECC_EOB) := by
  have key : ∀ base : Int, 0 ≤ base → base ≤ buf.size →
      (if toLong (base + offset) < 0 ∨ toSize (toLong (base + offset)) > buf.size then
          (buf, TECC_EOB)
        else ({ buf with pos := toLong (base + offset) }, (0 : Int))) =
      if 0 ≤ base + offset ∧ base + offset ≤ buf.size then
        ({ buf with pos := base + offset }, 0) else (buf, TECC_EOB) := by
    intro base h0 h1
    by_cases hin : base + offset < 9223372036854775808
    · rw [toLong_of_bounds (by omega) hin]
      unfold toSize
      split <;> split <;> first | rfl | omega
    · have hneg : toLong (base + offset) < 0 := by unfold toLong; omega
      rw [if_pos (Or.inl hneg), if_neg (by omega)]
  have hset := key 0 (Int.le_refl 0) (by omega)
  rw [Int.zero_add, toLong_of_bounds hlo hhi] at hset
  by_cases hs : origin = kTecSeekSet
  · simpa [TecBuffer_seek, seek_target, hs] using hset
  · by_cases hcur : origin = kTecSeekCur
    · have hne : kTecSeekCur ≠ kTecSeekSet := by decide
      simpa [TecBuffer_seek, seek_target, hcur, hne] using key buf.pos hpos hps
    · simpa [TecBuffer_seek, seek_target, hs, hcur] using
        key buf.size (by omega) (Int.le_refl _)

/-- The result is 0 exactly for a target inside the buffer, and then the cursor is there. -/
theorem seek_exact (buf : TecBuffer) (offset origin : Int) (hpos : 0 ≤ buf.pos)
    (hps : buf.pos ≤ buf.size) (hsize : buf.size < 9223372036854775808)
    (hlo : -9223372036854775808 ≤ offset) (hhi : offset < 9223372036854775808) :
    ((TecBuffer_seek buf offset origin).2 = 0 ↔
      0 ≤ seek_target buf offset origin ∧ seek_target buf offset origin ≤ buf.size) ∧
    ((TecBuffer_seek buf offset origin).2 = 0 →
      (TecBuffer_seek buf offset origin).1 = { buf with pos := seek_target buf offset origin }) ∧
    ((TecBuffer_seek buf offset origin).2 ≠ 0 →
      TecBuffer_seek buf offset origin = (buf, TECC_EOB)) := by
  have heob : TECC_EOB ≠ 0 := by decide
  rw [TecBuffer_seek_spec hpos hps hsize offset origin hlo hhi]
  by_cases hin : 0 ≤ seek_target buf offset origin ∧ seek_target buf offset origin ≤ buf.size
  · rw [if_pos hin]
    exact ⟨iff_of_true rfl hin, fun _ => rfl, fun hne => absurd rfl hne⟩
  · rw [if_neg hin]
    exact ⟨iff_of_false heob hin, fun he => absurd he heob, fun _ => rfl⟩

/-- From the cursor 2, the largest offset wraps to a negative position. -/
theorem seek_exact_wrapped :
    seek_target ⟨some [97, 98, 99, 100], 2, 3, 4, 4⟩ 9223372036854775807 kTecSeekCur =
      9223372036854775809 ∧
    TecBuffer_seek ⟨some [97, 98, 99, 100], 2, 3, 4, 4⟩ 9223372036854775807 kTecSeekCur =
      (⟨some [97, 98, 99, 100], 2, 3, 4, 4⟩, TECC_EOB) := by
  refine ⟨rfl, ?_⟩
  apply (seek_exact ⟨some [97, 98, 99, 100], 2, 3, 4, 4⟩ 9223372036854775807 kTecSeekCur
    (by decide) (by decide) (by decide) (by decide) (by decide)).2.2
  decide

/-- The state from which `TecBuffer_puts` writes: before a terminator that ends at the cursor. -/
def step_back (buf : TecBuffer) : TecBuffer :=
  if 0 < buf.pos ∧ buf.block[(buf.pos - 1).toNat]? = some 0 then
    { buf with pos := buf.pos - 1, size := buf.size - 1 }
  else buf

theorem step_back_roomy (h : Roomy buf) : Roomy (step_back buf) := by
  have hps := h.pos_le
  have hsc := h.size_le
  unfold step_back
  split
  · exact ⟨⟨by simp only; omega, by simp only; omega, by simp only; omega, h.block_length⟩,
      h.block_pos, h.block_le⟩
  · exact h

@[simp] theorem step_back_capacity (buf : TecBuffer) :
    (step_back buf).capacity = buf.capacity := by
  unfold step_back
  split <;> rfl

theorem step_back_pos_le (buf : TecBuffer) : (step_back buf).pos ≤ buf.pos := by
  unfold step_back
  split
  · change buf.pos - 1 ≤ buf.pos
    omega
  · exact Int.le_refl _

theorem step_back_size_le (buf : TecBuffer) : (step_back buf).size ≤ buf.size := by
  unfold step_back
  split
  · exact Nat.sub_le _ _
  · exact Nat.le_refl _

theorem byte_is_nul_ok {block : List UInt8} (hp : 0 ≤ pos) (hb : pos.toNat < block.length) :
    byte_is_nul (some block) pos = .ok (block[pos.toNat]? = some 0) := by
  simp [byte_is_nul, hp, List.getElem?_eq_getElem hb]

theorem TecBuffer_write_take {calloc : Bool} (h : len ≤ src.length) :
    TecBuffer_write calloc buf src len = TecBuffer_write calloc buf (src.take len) len := by
  have hcpy : ∀ b : TecBuffer, memcpy_to b.data buf.pos src len =
      memcpy_to b.data buf.pos (src.take len) len := by
    intro b
    simp [memcpy_to, List.take_take, h]
  simp only [TecBuffer_write, hcpy]

/-- Behind the room that `TecBuffer_puts` made, it steps back over a terminator and writes. -/
theorem TecBuffer_puts_behind {calloc calloc' : Bool} {b : TecBuffer} {str : List UInt8}
    {count : Nat} (hne : toInt str.length ≠ 0)
    (hcount : toSize (toInt (toInt str.length + 1)) = count)
    (hb : ensure_capacity calloc buf buf.pos count = .ok b) (h : Represented b)
    (hpb : b.pos = buf.pos) :
    TecBuffer_puts calloc calloc' buf (some str) =
      TecBuffer_write calloc' (step_back b) (str ++ [0]) count := by
  have hpos := h.pos_nonneg
  have hps := h.pos_le
  have hsc := h.size_le
  let back := 0 < buf.pos ∧ b.block[(buf.pos - 1).toNat]? = some 0
  have hback : ends_with_nul b.data buf.pos = .ok (decide back) := by
    unfold ends_with_nul
    by_cases hz : 0 < buf.pos
    · rw [if_pos hz, h.data_of_capacity (by omega),
        byte_is_nul_ok (by omega) (by rw [h.block_length]; omega)]
      simp only [back, hz, true_and]
    · simp only [back, hz, if_false, false_and, decide_false]
  simp only [TecBuffer_puts, if_neg hne, hcount, hb, hback, bind, Except.bind]
  refine congrArg (fun x => TecBuffer_write calloc' x (str ++ [0]) count) ?_
  by_cases hk : back
  · have hsz : b.size ≠ 0 := by have := hk.1; omega
    simp only [hk, decide_true, if_true, hsz, ne_eq, not_false_eq_true, and_self, step_back]
    rw [if_pos (by rw [hpb]; exact hk), hpb]
  · simp only [hk, decide_false, Bool.false_eq_true, false_and, if_false, step_back]
    rw [if_neg (by rw [hpb]; exact hk), ← hpb]

/-- `TecBuffer_puts` makes room, steps back over a terminator and writes. -/
theorem TecBuffer_puts_eq (h : Roomy buf) {str : List UInt8} {count : Nat}
    (hne : toInt str.length ≠ 0) (hcount : toSize (toInt (toInt str.length + 1)) = count)
    (hle : count ≤ str.length + 1) (hlen : buf.pos + count < 9223372036854775808) :
    ∃ b, Ensured buf (buf.pos + count).toNat b ∧
      TecBuffer_puts true true buf (some str) =
        TecBuffer_write true (step_back b) ((str ++ [0]).take count) count := by
  obtain ⟨b, hb, he⟩ := ensure_capacity_spec h _ h.pos_nonneg (by omega) (fun _ => hlen)
  refine ⟨b, he, ?_⟩
  rw [← TecBuffer_write_take (by simpa using hle)]
  exact TecBuffer_puts_behind hne hcount hb he.toRepresented he.pos_eq

/-- The calls of the buffer's interface. -/
inductive Op where
  | write (src : List UInt8)
  | puts (str : Option (List UInt8))
  | read (len : Nat)
  | seek (offset origin : Int)
  | rewind
  | done
deriving DecidableEq, Repr

/-- One call with every allocation succeeding: the value it returns and the bytes it reads. -/
def exec (buf : TecBuffer) : Op → Except Fault (TecBuffer × Int × List UInt8)
  | .write src => do
    let r ← TecBuffer_write true buf src src.length
    .ok (r.1, r.2, [])
  | .puts str => do
    let r ← TecBuffer_puts true true buf str
    .ok (r.1, r.2, [])
  | .read len => do
    let r ← TecBuffer_read buf len
    .ok (r.1, r.2.1, r.2.2)
  | .seek offset origin => .ok ((TecBuffer_seek buf offset origin).1,
      (TecBuffer_seek buf offset origin).2, [])
  | .rewind => .ok (TecBuffer_rewind buf, 0, [])
  | .done => .ok (TecBuffer_done buf, 0, [])

/-- The states of a buffer made by `TecBuffer_init_` and used through its interface. -/
def bufferLts (initial_size block_size : Nat) : Transition.Lts TecBuffer Op where
  Init buf := TecBuffer_init_ true initial_size block_size = .ok buf
  Step buf op buf' := ∃ r, exec buf op = .ok (buf', r)

/-- Every size stays below 2^62; an offset is any 64-bit signed integer. -/
def SizesBelow (buf : TecBuffer) : Op → Prop
  | .write src => buf.pos + src.length < 4611686018427387904
  | .puts str => buf.pos + ((str.getD []).length + 1 : Nat) < 4611686018427387904
  | .read len => buf.pos + len < 4611686018427387904
  | .seek offset _ => -9223372036854775808 ≤ offset ∧ offset < 9223372036854775808
  | .rewind | .done => True

/-- The calls that the growth rule and the `int` length of `TecBuffer_puts` serve: a write into
a buffer without memory fits one block, and a string's length plus one fits an `int` again
after it has been cut to 32 bits. -/
def Served (buf : TecBuffer) : Op → Prop
  | .write src => buf.capacity = 0 → src.length ≤ buf.block_size
  | .puts str => ¬ (2147483647 ≤ (str.getD []).length % 4294967296 ∧
      (str.getD []).length % 4294967296 < 4294967295)
  | .read _ | .seek _ _ | .rewind | .done => True

/-- The outcome the invariant promises of a call: it returns, in a represented state. -/
def Sound (buf : TecBuffer) (op : Op) : Prop :=
  ∃ buf' r, exec buf op = .ok (buf', r) ∧ Represented buf'

/-- The inductive form of the invariant, with the size bound that the calls keep. -/
structure Kept (buf : TecBuffer) : Prop extends Roomy buf where
  size_lt : buf.size < 4611686018427387904

theorem TecBuffer_puts_kept (h : Kept buf) {str : Option (List UInt8)}
    (hs : SizesBelow buf (.puts str)) (hv : Served buf (.puts str)) :
    ∃ buf' r, TecBuffer_puts true true buf str = .ok (buf', r) ∧ Kept buf' := by
  cases str with
  | none => exact ⟨buf, 0, rfl, h⟩
  | some str =>
    simp only [SizesBelow, Served, Option.getD_some] at hs hv
    by_cases hz : toInt str.length = 0
    · exact ⟨buf, 0, by simp [TecBuffer_puts, hz], h⟩
    · have hcount : toSize (toInt (toInt str.length + 1)) ≤ str.length + 1 := by
        unfold toSize toInt at *
        omega
      obtain ⟨b, he, heq⟩ := TecBuffer_puts_eq h.toRoomy hz rfl hcount (by omega)
      have hpos := h.pos_nonneg
      have hps := h.pos_le
      have hsp := step_back_pos_le b
      have hlen : ((str ++ [0]).take (toSize (toInt (toInt str.length + 1)))).length =
          toSize (toInt (toInt str.length + 1)) := by
        rw [List.length_take, List.length_append]
        exact Nat.min_eq_left hcount
      have hpb := he.pos_eq
      have hroom : (step_back b).capacity ≠ 0 ∨
          ((str ++ [0]).take (toSize (toInt (toInt str.length + 1)))).length ≤
            (step_back b).block_size := by
        rw [step_back_capacity, hlen]
        by_cases hc : toSize (toInt (toInt str.length + 1)) = 0
        · exact Or.inr (by omega)
        · exact Or.inl (he.capacity_ne (by omega))
      obtain ⟨buf', hw, hwr⟩ := TecBuffer_write_spec (step_back_roomy he.toRoomy) _
        (by rw [hlen]; omega) hroom
      have hsize := hwr.size_eq
      have hss := step_back_size_le b
      have hsb := he.size_eq
      have hlt := h.size_lt
      rw [hlen] at hw hsize
      exact ⟨buf', _, heq.trans hw, hwr.toRoomy, by omega⟩

/-- One call that the code serves: it returns, and the invariant holds again. -/
theorem exec_kept (h : Kept buf) {op : Op} (hs : SizesBelow buf op) (hv : Served buf op) :
    ∃ buf' r, exec buf op = .ok (buf', r) ∧ Kept buf' := by
  have hpos := h.pos_nonneg
  have hps := h.pos_le
  have hlt := h.size_lt
  cases op with
  | write src =>
    simp only [SizesBelow, Served] at hs hv
    obtain ⟨buf', hw, hwr⟩ := TecBuffer_write_spec h.toRoomy src (by omega) (by omega)
    have hsize := hwr.size_eq
    exact ⟨buf', (src.length, []), by simp only [exec, hw, bind, Except.bind], hwr.toRoomy,
      by omega⟩
  | puts str =>
    obtain ⟨buf', r, hp, hk⟩ := TecBuffer_puts_kept h hs hv
    exact ⟨buf', (r, []), by simp only [exec, hp, bind, Except.bind], hk⟩
  | read len =>
    simp only [SizesBelow] at hs
    have hread := TecBuffer_read_spec h.toRepresented len (by omega) (by omega)
    refine ⟨_, _, by simp only [exec, hread, bind, Except.bind]; rfl, ?_⟩
    exact ⟨⟨⟨by simp only; omega, by simp only; omega, h.size_le, h.block_length⟩,
      h.block_pos, h.block_le⟩, hlt⟩
  | seek offset origin =>
    have hseek := TecBuffer_seek_spec h.pos_nonneg h.pos_le (by omega) offset origin hs.1 hs.2
    refine ⟨_, (_, []), rfl, ?_⟩
    rw [hseek]
    split
    · rename_i ht
      exact ⟨⟨⟨ht.1, ht.2, h.size_le, h.block_length⟩, h.block_pos, h.block_le⟩, hlt⟩
    · exact h
  | rewind => exact ⟨_, _, rfl, ⟨⟨⟨by simp [TecBuffer_rewind], by simp [TecBuffer_rewind],
      h.size_le, h.block_length⟩, h.block_pos, h.block_le⟩, hlt⟩⟩
  | done => exact ⟨_, _, rfl, ⟨⟨⟨by simp [TecBuffer_done], by simp [TecBuffer_done],
      by simp [TecBuffer_done], by simp [TecBuffer_done, TecBuffer.block]⟩, h.block_pos,
      by simp [TecBuffer_done]⟩, by simp [TecBuffer_done]⟩⟩

theorem TecBuffer_init_spec (initial_size block_size : Nat)
    (hi : initial_size < 18446744073709551616) :
    ∃ buf, TecBuffer_init_ true initial_size block_size = .ok buf ∧ Roomy buf ∧
      buf.pos = 0 ∧ buf.size = 0 ∧ (initial_size ≠ 0 → buf.capacity ≠ 0) := by
  let empty : TecBuffer :=
    { data := none
      pos := 0
      size := 0
      capacity := 0
      block_size := if block_size = 0 then TECC_BUFFER_BLOCK_SIZE else block_size }
  have hempty : Roomy empty := by
    refine ⟨⟨Int.le_refl 0, Int.le_refl 0, Nat.le_refl 0, rfl⟩, ?_, fun hc => (hc rfl).elim⟩
    simp only [empty, TECC_BUFFER_BLOCK_SIZE]
    split <;> omega
  by_cases hz : initial_size = 0
  · exact ⟨empty, by simp [TecBuffer_init_, hz, empty], hempty, rfl, rfl, fun hn => (hn hz).elim⟩
  · obtain ⟨buf, hb, he⟩ := ensure_capacity_spec hempty initial_size (Int.le_refl 0)
      (by omega) (fun hc => (hc rfl).elim)
    refine ⟨buf, ?_, he.toRoomy, he.pos_eq, he.size_eq, fun _ => he.capacity_ne (by omega)⟩
    simpa [TecBuffer_init_, hz] using hb

theorem kept_reachable {initial_size block_size : Nat} (hi : initial_size < 4611686018427387904)
    (h : ((bufferLts initial_size block_size).restrict
      fun buf op => SizesBelow buf op ∧ Served buf op).Reachable buf) : Kept buf := by
  refine h.invariant ?_ ?_
  · intro b hb
    obtain ⟨b', hb', hr, _, hsize, _⟩ :=
      TecBuffer_init_spec initial_size block_size (Nat.lt_trans hi (by decide))
    have heq : b = b' := Except.ok.inj (Eq.trans (Eq.symm hb) hb')
    subst heq
    exact ⟨hr, by omega⟩
  · rintro b op b' hk ⟨⟨hs, hv⟩, r, hstep⟩
    obtain ⟨b'', r', hex, hk'⟩ := exec_kept hk hs hv
    have heq : (b', r) = (b'', r') := Except.ok.inj (Eq.trans (Eq.symm hstep) hex)
    rw [(Prod.mk.inj heq).1]
    exact hk'

/-- A copy of more bytes than the source holds leaves the source, whatever room was made. -/
theorem TecBuffer_write_overread {calloc : Bool} (hlen : src.length < len)
    (r : TecBuffer × Nat) : TecBuffer_write calloc buf src len ≠ .ok r := by
  have hcpy : ∀ data, memcpy_to data buf.pos src len = .error .outOfBounds := by
    intro data
    cases data <;> simp [memcpy_to, Nat.not_le.mpr hlen, Nat.ne_of_gt (Nat.zero_lt_of_lt hlen)]
  intro h
  cases he : ensure_capacity calloc buf buf.pos len with
  | error e =>
    simp [TecBuffer_write, he, bind, Except.bind, Nat.ne_of_gt (Nat.zero_lt_of_lt hlen)] at h
  | ok b =>
    simp [TecBuffer_write, he, hcpy, bind, Except.bind,
      Nat.ne_of_gt (Nat.zero_lt_of_lt hlen)] at h

/-- A write of more than one block into a buffer without memory leaves the block. -/
theorem TecBuffer_write_underallocated (h : Roomy buf) (hc : buf.capacity = 0)
    (hlen : buf.block_size < src.length) (hlt : src.length < 9223372036854775808)
    (r : TecBuffer × Nat) : TecBuffer_write true buf src src.length ≠ .ok r := by
  have hpos := h.pos_nonneg
  have hps := h.pos_le
  have hsc := h.size_le
  have hbs := h.block_pos
  have hz : buf.pos = 0 := by omega
  obtain ⟨block, hr, hl, _⟩ := realloc_buffer_spec (n := buf.block_size) h.toRepresented (by omega)
  have hens : ensure_capacity true buf buf.pos src.length =
      .ok { buf with capacity := buf.block_size, data := some block } := by
    have hsum : ¬ toSize (buf.pos + src.length) ≤ buf.capacity := by unfold toSize; omega
    rw [ensure_capacity, if_neg hsum]
    simp only [grown_capacity, hc, ne_eq, not_true, if_false, bind, Except.bind,
      raise_capacity_of_le (Nat.zero_le _), hr]
  have hcpy : memcpy_to (some block) buf.pos src src.length = .error .outOfBounds := by
    have hne : src.length ≠ 0 := by omega
    have hout : ¬ (0 ≤ buf.pos ∧ src.length ≤ src.length ∧
        buf.pos.toNat + src.length ≤ block.length) := by omega
    simp only [memcpy_to, hne, if_false, if_neg hout]
  intro hw
  have hne : src.length ≠ 0 := by omega
  simp [TecBuffer_write, hne, hens, hcpy, bind, Except.bind] at hw

/-- When the `int` length wraps, the count passed on exceeds the string and its terminator. -/
theorem TecBuffer_puts_overread {str : List UInt8} {r : TecBuffer × Nat}
    (hlen : str.length < 4611686018427387904)
    (hlo : 2147483647 ≤ str.length % 4294967296) (hhi : str.length % 4294967296 < 4294967295) :
    TecBuffer_puts true true buf (some str) ≠ .ok r := by
  have hne : toInt str.length ≠ 0 := by unfold toInt; omega
  have hcount : (str ++ [0]).length < toSize (toInt (toInt str.length + 1)) := by
    rw [List.length_append, List.length_singleton]
    unfold toSize toInt
    omega
  intro h
  simp only [TecBuffer_puts, if_neg hne] at h
  cases he : ensure_capacity true buf buf.pos (toSize (toInt (toInt str.length + 1))) with
  | error e => simp [he, bind, Except.bind] at h
  | ok b =>
    cases hn : ends_with_nul b.data buf.pos with
    | error e => simp [he, hn, bind, Except.bind] at h
    | ok back =>
      simp only [he, hn, bind, Except.bind] at h
      exact TecBuffer_write_overread hcount _ h

/-- A call that returns is served. -/
theorem served_of_ok (h : Kept buf) {op : Op} {r : Int × List UInt8} (hs : SizesBelow buf op)
    (hex : exec buf op = .ok (buf', r)) : Served buf op := by
  have hpos := h.pos_nonneg
  cases op with
  | write src =>
    intro hc
    by_contra hlen
    simp only [SizesBelow] at hs
    cases hw : TecBuffer_write true buf src src.length with
    | error e => simp [exec, hw, bind, Except.bind] at hex
    | ok w => exact TecBuffer_write_underallocated h.toRoomy hc (by omega) (by omega) w hw
  | puts str =>
    rintro ⟨hlo, hhi⟩
    cases hp : TecBuffer_puts true true buf str with
    | error e => simp [exec, hp, bind, Except.bind] at hex
    | ok w =>
      cases str with
      | none => exact absurd hlo (by simp)
      | some str =>
        simp only [SizesBelow, Option.getD_some] at hs hlo hhi
        exact TecBuffer_puts_overread (by omega) hlo hhi hp
  | read => trivial
  | seek => trivial
  | rewind => trivial
  | done => trivial

/-- The invariant holds in every state that is reached at all. -/
theorem kept_of_reachable {initial_size block_size : Nat} (hi : initial_size < 4611686018427387904)
    (h : ((bufferLts initial_size block_size).restrict SizesBelow).Reachable buf) : Kept buf := by
  refine h.invariant ?_ ?_
  · exact fun b hb => kept_reachable hi ⟨[], .init hb⟩
  · rintro b op b' hk ⟨hs, r, hstep⟩
    obtain ⟨b'', r', hex, hk'⟩ := exec_kept hk hs (served_of_ok hk hs hstep)
    have heq : (b', r) = (b'', r') := Except.ok.inj (Eq.trans (Eq.symm hstep) hex)
    rw [(Prod.mk.inj heq).1]
    exact hk'

/-- In every run whose calls are served, the buffer is represented in every state reached,
and the next call stays inside the block exactly when it is served. -/
theorem representation_invariant (initial_size block_size : Nat)
    (hi : initial_size < 4611686018427387904) (buf : TecBuffer)
    (h : ((bufferLts initial_size block_size).restrict
      fun buf op => SizesBelow buf op ∧ Served buf op).Reachable buf) :
    Represented buf ∧ ∀ op, SizesBelow buf op → (Sound buf op ↔ Served buf op) := by
  have hk := kept_reachable hi h
  refine ⟨hk.toRepresented, ?_⟩
  intro op hs
  constructor
  · rintro ⟨buf', r, hex, _⟩
    exact served_of_ok hk hs hex
  · intro hv
    obtain ⟨buf', r, hex, hk'⟩ := exec_kept hk hs hv
    exact ⟨buf', r, hex, hk'.toRepresented⟩

/-- A buffer with blocks of 4 bytes that is written, read and emptied. With its memory it takes
9 bytes, without it not even 5. -/
theorem representation_invariant_run :
    ∃ buf, ((bufferLts 0 4).restrict fun buf op => SizesBelow buf op ∧ Served buf op).History
        [.write [1, 2, 3], .puts (some [97, 98, 99, 100]), .seek 2 kTecSeekSet, .read 3] buf ∧
      buf = ⟨some [1, 2, 3, 97, 98, 99, 100, 0, 0, 0, 0, 0], 5, 8, 12, 4⟩ ∧ Represented buf ∧
      Sound buf (.write (List.replicate 9 7)) ∧
      ((bufferLts 0 4).restrict fun buf op => SizesBelow buf op ∧ Served buf op).Reachable
        (TecBuffer_done buf) ∧
      ¬ Sound (TecBuffer_done buf) (.write (List.replicate 5 7)) := by
  have h0 : ((bufferLts 0 4).restrict fun buf op => SizesBelow buf op ∧ Served buf op).History []
      ⟨none, 0, 0, 0, 4⟩ := .init rfl
  have h1 := h0.snoc_restrict (a := .write [1, 2, 3])
    (t := ⟨some [1, 2, 3, 0], 3, 3, 4, 4⟩) ⟨(3, []), by decide⟩ (by simp [SizesBelow, Served])
  have h2 := h1.snoc_restrict (a := .puts (some [97, 98, 99, 100]))
    (t := ⟨some [1, 2, 3, 97, 98, 99, 100, 0, 0, 0, 0, 0], 8, 8, 12, 4⟩) ⟨(5, []), by decide⟩
    (by simp [SizesBelow, Served])
  have h3 := h2.snoc_restrict (a := .seek 2 kTecSeekSet)
    (t := ⟨some [1, 2, 3, 97, 98, 99, 100, 0, 0, 0, 0, 0], 2, 8, 12, 4⟩) ⟨_, rfl⟩
    (by simp [SizesBelow, Served])
  have h4 := h3.snoc_restrict (a := .read 3)
    (t := ⟨some [1, 2, 3, 97, 98, 99, 100, 0, 0, 0, 0, 0], 5, 8, 12, 4⟩)
    ⟨(3, [3, 97, 98]), by decide⟩ (by simp [SizesBelow, Served])
  have h5 := h4.snoc_restrict (a := .done) ⟨(0, []), rfl⟩ (by simp [SizesBelow, Served])
  obtain ⟨hrepresented, hsound⟩ := representation_invariant 0 4 (by decide) _ h4.reachable
  have hempty := (representation_invariant 0 4 (by decide) _ h5.reachable).2
    (.write (List.replicate 5 7)) (by simp [SizesBelow, TecBuffer_done])
  refine ⟨_, h4, rfl, hrepresented, (hsound _ (by simp [SizesBelow])).mpr (by simp [Served]),
    h5.reachable, ?_⟩
  rw [hempty]
  simp [Served, TecBuffer_done]

/-- A write of 81 bytes into a new buffer without memory gets one block of 80 bytes. -/
theorem representation_invariant_fails :
    ¬ ∀ initial_size block_size, initial_size < 4611686018427387904 →
      block_size < 4611686018427387904 → ∀ buf,
      ((bufferLts initial_size block_size).restrict SizesBelow).Reachable buf →
      Represented buf ∧ ∀ op, SizesBelow buf op → Sound buf op := by
  intro h
  have hreach : ((bufferLts 0 0).restrict SizesBelow).Reachable ⟨none, 0, 0, 0, 80⟩ :=
    ⟨[], .init rfl⟩
  obtain ⟨buf', r, hex, _⟩ := (h 0 0 (by decide) (by decide) _ hreach).2
    (.write (List.replicate 81 0)) (by simp [SizesBelow])
  have hfault : exec ⟨none, 0, 0, 0, 80⟩ (.write (List.replicate 81 0)) = .error .outOfBounds := by
    simp [exec, TecBuffer_write, ensure_capacity, toSize, grown_capacity, raise_capacity_of_le,
      realloc_buffer, memcpy_to, bind, Except.bind]
  rw [hfault] at hex
  cases hex

end Tecc.Buffer
