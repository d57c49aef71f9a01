import Tecc.BufferHex

/-! Which bytes a hex dump takes, over the whole range of its start and length. -/
namespace Tecc.Buffer

open Machine Block Object

variable {src dst dst' buf buf' : TecBuffer} {start pos : Int} {n i len k : Nat} {calloc : Bool}
  {block : List UInt8} {data : Option (List UInt8)} {b : UInt8}
  {r : Option (List UInt8) × Int}

/-- The bytes at the indices `s <= i < min(s + n, size)` where `s` is `max(start, 0)` and `n` is
`len`, or `size - s` when `len` is 0. -/
def hex_range (src : TecBuffer) (start : Int) (len : Nat) : List UInt8 :=
  let s := (max start 0).toNat
  let n := if len = 0 then src.size - s else len
  (src.block.take (min (s + n) src.size)).drop s

/-- The buffer whose block ends at its size. -/
def TecBuffer.cut (src : TecBuffer) : TecBuffer :=
  { src with data := some src.contents, capacity := src.size }

/-- Exactly the range is encoded. A source without the bytes behind its size gives the same
result, and the text with its terminator stays inside the new block. -/
def HexInRange (calloc : Bool) (src : TecBuffer) (start : Int) (len : Nat) : Prop :=
  ∃ dst, TecBuffer_as_hex calloc src start len = .ok dst ∧
    TecBuffer_as_hex calloc src.cut start len = .ok dst ∧
    HexWritten dst (hex_range src start len)

theorem hex_range_eq (src : TecBuffer) (start : Int) (len : Nat) :
    hex_range src start len = selected src start len := by
  have hs : (max start 0).toNat = start.toNat := by omega
  rw [hex_range, selected, TecBuffer.contents, hs, List.drop_take, List.drop_take, List.take_take]
  congr 1
  split <;> omega

theorem cut_contents (src : TecBuffer) : src.cut.contents = src.contents := by
  change (src.block.take src.size).take src.size = src.block.take src.size
  rw [List.take_take, Nat.min_self]

theorem cut_represented (h : Represented src) : Represented src.cut :=
  ⟨h.pos_nonneg, h.pos_le, Nat.le_refl _, h.contents_length⟩

theorem selected_cut (src : TecBuffer) (start : Int) (len : Nat) :
    selected src.cut start len = selected src start len := by
  rw [selected, selected, cut_contents]
  rfl

theorem byte_at_take (h : byte_at (some (block.take k)) pos = .ok b) :
    byte_at (some block) pos = .ok b := by
  unfold byte_at at h ⊢
  dsimp only at h ⊢
  split at h
  · rename_i hpos
    rw [if_pos hpos]
    by_cases hk : pos.toNat < k
    · rwa [List.getElem?_take_of_lt hk] at h
    · rw [List.getElem?_take, if_neg hk] at h
      cases h
  · cases h

/-- A loop that stays inside the first bytes of a block runs on the whole block. -/
theorem hex_loop_take (h : hex_loop (some (block.take k)) start n i data pos = .ok r) :
    hex_loop (some block) start n i data pos = .ok r := by
  induction n generalizing i data pos with
  | zero => exact h
  | succ n ih =>
    obtain ⟨b, hread, h⟩ := bind_ok h
    obtain ⟨hex, hchars, h⟩ := bind_ok h
    obtain ⟨first, hfirst, h⟩ := bind_ok h
    obtain ⟨second, hsecond, h⟩ := bind_ok h
    rw [hex_loop, byte_at_take hread, ok_bind, hchars, ok_bind, hfirst, ok_bind]
    dsimp only
    rw [hsecond, ok_bind]
    exact ih h

theorem fill_hex_cut (h : Represented src) (hne : src.size ≠ 0)
    (hdst : fill_hex calloc src.cut buf start n = .ok dst) :
    fill_hex calloc src buf start n = .ok dst := by
  have hsize := h.size_le
  obtain ⟨buf', hens, hdst⟩ := bind_ok hdst
  obtain ⟨r, hloop, hdst⟩ := bind_ok hdst
  have hdata := h.data_of_capacity (by omega)
  have hwhole := hex_loop_take hloop
  rw [← hdata] at hwhole
  simp only [fill_hex, hens, ok_bind, hwhole]
  exact hdst

/-- Nothing behind the size is read by a call that returns without it. -/
theorem as_hex_cut (h : Represented src) (hne : src.size ≠ 0)
    (hdst : TecBuffer_as_hex calloc src.cut start len = .ok dst) :
    TecBuffer_as_hex calloc src start len = .ok dst := by
  have hcut : src.cut.size = src.size := rfl
  rw [TecBuffer_as_hex_eq, hcut, if_neg hne] at hdst
  rw [TecBuffer_as_hex_eq, if_neg hne]
  split at hdst
  · rename_i hend
    rwa [if_pos hend]
  · rename_i hend
    rw [if_neg hend]
    exact fill_hex_cut h hne hdst

theorem hex_loop_null (h : hex_loop data start n i none pos = .ok r) : r.1 = none := by
  cases n with
  | zero =>
    cases h
    rfl
  | succ n =>
    obtain ⟨_, _, h⟩ := bind_ok h
    obtain ⟨_, _, h⟩ := bind_ok h
    obtain ⟨_, hfirst, _⟩ := bind_ok h
    cases hfirst

/-- The terminator is written in every case, also through the null pointer. -/
theorem fill_hex_failed : fill_hex false src blank_hex start n ≠ .ok dst := by
  intro h
  obtain ⟨buf, hens, h⟩ := bind_ok h
  obtain ⟨r, hloop, h⟩ := bind_ok h
  obtain ⟨_, hend, _⟩ := bind_ok h
  obtain rfl := ensure_capacity_no_memory hens
  rw [hex_loop_null hloop] at hend
  cases hend

/-- The range is encoded exactly when the start lies behind the end, or the allocation succeeds
and the sum of start and length is below 2^64. -/
theorem hex_range_exact (calloc : Bool) (src : TecBuffer) (start : Int) (len : Nat)
    (h : Represented src) (hne : src.size ≠ 0) (hsize : src.size < 4611686018427387904)
    (hascii : ∀ b ∈ src.contents, b < 0x80)
    (hlo : -9223372036854775808 ≤ start) (hhi : start < 9223372036854775808)
    (hlen : len < 18446744073709551616) :
    HexInRange calloc src start len ↔
      src.size < start ∨ calloc = true ∧ max start 0 + len < 18446744073709551616 := by
  have hstart : toSize start.toNat = start.toNat := toSize_of_lt (by omega)
  by_cases hend : src.size < start
  · refine iff_of_true ⟨blank_hex, ?_, ?_, ?_⟩ (.inl hend)
    · rw [TecBuffer_as_hex_eq, if_neg hne, hstart, if_pos (by omega)]
    · have hcut : src.cut.size = src.size := rfl
      rw [TecBuffer_as_hex_eq, hcut, if_neg hne, hstart, if_pos (by omega)]
    · have hl := selected_length h start len
      have hnil : selected src start len = [] := List.length_eq_zero_iff.mp (by omega)
      rw [hex_range_eq, hnil]
      exact blank_hex_written
  · constructor
    · rintro ⟨dst, hdst, _, _⟩
      rw [TecBuffer_as_hex_eq, if_neg hne, hstart, if_neg (by omega)] at hdst
      refine .inr ⟨?_, ?_⟩
      · cases calloc with
        | true => rfl
        | false => exact absurd hdst fill_hex_failed
      · -- A wrapped sum lies below the start, so the length is not cut and its text cannot fit.
        by_contra hwrap
        obtain ⟨hfit, _⟩ := fill_hex_returned hdst
        have hcut : ¬ toSize (start.toNat + (len : Nat)) > src.size := by
          unfold toSize
          omega
        rw [if_neg (show len ≠ 0 by omega), if_neg hcut] at hfit
        omega
    · rintro (hbehind | ⟨rfl, hsum⟩)
      · exact absurd hbehind hend
      · have hl := selected_length h start len
        obtain ⟨dst, hdst, hwritten⟩ := TecBuffer_as_hex_spec (cut_represented h) start len
          (by change start.toNat + (if len = 0 then src.size else len) < _; split <;> omega)
          (by
            rw [selected_cut]
            intro b hb
            exact hascii b (List.mem_of_mem_drop (List.mem_of_mem_take hb)))
          (by rw [selected_cut]; omega)
        rw [selected_cut, ← hex_range_eq] at hwritten
        exact ⟨dst, as_hex_cut h hne hdst, hdst, hwritten⟩

/-- The last two of three bytes, with a length that overruns. -/
theorem hex_range_exact_overrun :
    HexInRange true ⟨some [0x48, 0x0A, 0x7F, 0x21], 0, 3, 4, 4⟩ 1 9223372036854775807 :=
  (hex_range_exact true ⟨some [0x48, 0x0A, 0x7F, 0x21], 0, 3, 4, 4⟩ 1 9223372036854775807
    ⟨by decide, by decide, by decide, rfl⟩ (by decide) (by decide)
    (List.all_iff_forall_prop.mp rfl) (by decide) (by decide) (by decide)).mpr
    (.inr ⟨rfl, by decide⟩)

/-- Start 1 and the length 2^64 - 1 have the sum 0, and the length is not cut. -/
theorem hex_range_wraps :
    ¬ ∀ (src : TecBuffer) (start : Int) (len : Nat), Represented src → src.size ≠ 0 →
      src.size < 4611686018427387904 → (∀ b ∈ src.contents, b < 0x80) →
      -9223372036854775808 ≤ start → start < 9223372036854775808 →
      len < 18446744073709551616 → HexInRange true src start len := by
  intro h
  obtain ⟨dst, hdst, _⟩ := h ⟨some [0x48, 0x0A], 0, 2, 2, 2⟩ 1 18446744073709551615
    ⟨by decide, by decide, by decide, rfl⟩ (by decide) (by decide)
    (List.all_iff_forall_prop.mp rfl) (by decide) (by decide) (by decide)
  rw [TecBuffer_as_hex_eq, if_neg (by decide), if_neg (by decide)] at hdst
  obtain ⟨hfit, _⟩ := fill_hex_returned hdst
  exact absurd hfit (by decide)

end Tecc.Buffer
