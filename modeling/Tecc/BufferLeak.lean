import Tecc.BufferTable

/-! What `TecBuffer_as_table` leaves behind: it gives the text of `TecBuffer_as_hex` back with
`TecBuffer_done`, but not where it has nothing to print. -/
namespace Tecc.Buffer

open Machine Object

/-- `TecBuffer_as_table` with its local buffer `tmp` as it is at the return. -/
def TecBuffer_as_table_locals (calloc : Bool) (src : TecBuffer) (start : Int) (len : Nat) :
    Except Fault (TecBuffer × TecBuffer) := do
  let tmp ← TecBuffer_as_hex calloc src start len
  let block_size := toSize (tmp.size / hex_table_block_size * hex_table_block_size +
    hex_table_block_size + 2)
  let dst ← TecBuffer_create_ calloc block_size block_size
  let r ← TecBuffer_puts calloc calloc dst (some hex_table_header)
  let dst := r.1
  let start := if start < 0 then 0 else start
  let start_offset := toSize start / bytes_per_line * bytes_per_line
  if tmp.size = 0 ∨ tmp.data = none then
    let r ← TecBuffer_puts calloc calloc dst (some (row_prefix_format start_offset))
    .ok (r.1, tmp)
  else
    let dst ← table_loop calloc tmp.data tmp.size (toSize start) 18446744073709551616 0 0
      start_offset dst
    .ok (dst, TecBuffer_done tmp)

variable {calloc : Bool} {src dst tmp : TecBuffer} {start : Int} {len n : Nat}

theorem hex_loop_pos {source data : Option (List UInt8)} {r : Option (List UInt8) × Int} {i : Nat}
    {pos : Int} (h : hex_loop source start n i data pos = .ok r) (hpos : 0 ≤ pos)
    (hfit : pos + 2 * n < 9223372036854775808) : r.2 = pos + 2 * n := by
  induction n generalizing i data pos with
  | zero =>
    cases h
    omega
  | succ n ih =>
    obtain ⟨_, _, h⟩ := bind_ok h
    obtain ⟨_, _, h⟩ := bind_ok h
    obtain ⟨_, _, h⟩ := bind_ok h
    obtain ⟨_, _, h⟩ := bind_ok h
    have hfirst : toLong (pos + 1) = pos + 1 := toLong_of_bounds (by omega) (by omega)
    have hsecond : toLong (pos + 1 + 1) = pos + 1 + 1 := toLong_of_bounds (by omega) (by omega)
    rw [hfirst, hsecond] at h
    rw [ih h (by omega) (by omega)]
    omega

theorem set_byte_data {data r : Option (List UInt8)} {pos ch : Int}
    (h : set_byte data pos ch = .ok r) : r ≠ none := by
  rintro rfl
  unfold set_byte memcpy_to at h
  rw [if_neg Nat.one_ne_zero] at h
  split at h
  · cases h
  · split at h <;> cases h

/-- The text has two characters for each byte, and memory for its terminator. -/
theorem fill_hex_text {buf : TecBuffer} {k : Nat}
    (h : fill_hex calloc src buf k n = .ok tmp) : tmp.size = 2 * n ∧ tmp.data ≠ none := by
  have hfit := (fill_hex_returned h).1
  obtain ⟨_, _, h⟩ := bind_ok h
  obtain ⟨r, hloop, h⟩ := bind_ok h
  obtain ⟨data, hend, h⟩ := bind_ok h
  cases h
  refine ⟨?_, set_byte_data hend⟩
  have hpos := hex_loop_pos hloop (Int.le_refl 0) (by omega)
  simp only [hpos, toSize]
  omega

/-- The text is empty for an empty buffer and for a start at or behind the end; at the end it has
memory all the same. -/
theorem as_hex_text (hsize : src.size < 4611686018427387904)
    (hstart : start < 9223372036854775808) (h : TecBuffer_as_hex calloc src start len = .ok tmp) :
    (tmp.size = 0 ∧ tmp.data ≠ none ↔ src.size ≠ 0 ∧ start = src.size) := by
  rw [TecBuffer_as_hex_eq] at h
  by_cases hempty : src.size = 0
  · rw [if_pos hempty] at h
    cases h
    exact iff_of_false (fun h => h.2 rfl) (fun h => h.1 hempty)
  · have hnat : toSize start.toNat = start.toNat := toSize_of_lt (by omega)
    rw [if_neg hempty, hnat] at h
    by_cases hbehind : start.toNat > src.size
    · rw [if_pos hbehind] at h
      cases h
      exact iff_of_false (fun h => h.2 rfl) (by omega)
    · rw [if_neg hbehind] at h
      have hpos : 0 < if len = 0 then src.size else len := by split <;> omega
      generalize (if len = 0 then src.size else len) = count at h hpos
      have hfit := (fill_hex_returned h).1
      obtain ⟨hlength, hdata⟩ := fill_hex_text h
      rw [hlength]
      by_cases hcut : toSize (start.toNat + count) > src.size
      · have hrest : toSize (src.size - start.toNat) = src.size - start.toNat := by
          rw [toSize]
          omega
        rw [if_pos hcut, hrest]
        constructor
        · rintro ⟨hzero, _⟩
          exact ⟨hempty, by omega⟩
        · rintro ⟨_, heq⟩
          exact ⟨by omega, hdata⟩
      · rw [if_neg hcut] at hfit ⊢
        have hsum : toSize (start.toNat + count) = start.toNat + count := by
          rw [toSize]
          omega
        exact iff_of_false (fun h => by omega) (fun h => by omega)

theorem map_bind {α β γ : Type} (g : β → γ) (x : Except Fault α) (f : α → Except Fault β) :
    (x >>= f).map g = x >>= fun a => (f a).map g := by
  cases x <;> rfl

/-- What `TecBuffer_as_table` returns does not depend on `tmp`. -/
theorem as_table_locals_fst (calloc : Bool) (src : TecBuffer) (start : Int) (len : Nat) :
    (TecBuffer_as_table_locals calloc src start len).map Prod.fst =
      TecBuffer_as_table calloc src start len := by
  rw [TecBuffer_as_table_locals, TecBuffer_as_table, map_bind]
  refine bind_congr fun text => ?_
  rw [map_bind]
  refine bind_congr fun dst => ?_
  rw [map_bind]
  refine bind_congr fun r => ?_
  by_cases hnothing : text.size = 0 ∨ text.data = none
  · simp only [if_pos hnothing, map_bind]
    rfl
  · simp only [if_neg hnothing, map_bind]
    exact bind_pure _

/-- At the end of a buffer the table has no cell. -/
theorem as_table_at_end (h : Represented src)
    (hsize : src.size < 288230376151711744) (hsum : src.size + len < 18446744073709551616) :
    ∃ dst tmp, TecBuffer_as_table_locals true src src.size len = .ok (dst, tmp) ∧
      dst.contents = hex_table_header ++ row_prefix_format (src.size / 32 * 32) ++ [0] := by
  have hnone : selected src src.size len = [] := by
    rw [← List.length_eq_zero_iff, selected_length h]
    omega
  obtain ⟨text, htext, hwritten⟩ := TecBuffer_as_hex_spec h src.size len (by split <;> omega)
    (by simp [hnone]) (by simp [hnone])
  have hzero : text.size = 0 := by
    rw [hwritten.size_eq, hnone]
    rfl
  obtain ⟨room, hroom, hnonzero⟩ : ∃ room, toSize (text.size / hex_table_block_size *
      hex_table_block_size + hex_table_block_size + 2) = room ∧ room ≠ 0 := by
    refine ⟨_, rfl, ?_⟩
    unfold toSize hex_table_block_size
    omega
  obtain ⟨fresh, hfresh, hempty⟩ := holds_init room room hnonzero (by
    rw [← hroom]
    exact toSize_lt _)
  obtain ⟨dst₁, q, hput, h₁⟩ := puts_short hempty hex_table_header header_length (by decide)
  have hheader := header_length
  have hprefix := row_prefix_length (show src.size / 32 * 32 < 18446744073709551616 by omega)
  obtain ⟨dst, r, hlast, h₂⟩ := puts_short h₁ (row_prefix_format (src.size / 32 * 32)) (by omega)
    (by rw [List.nil_append]; omega)
  have hstart : (if (src.size : Int) < 0 then 0 else (src.size : Int)) = (src.size : Int) :=
    if_neg (by omega)
  have hoffset : toSize (src.size : Int) / bytes_per_line * bytes_per_line =
      src.size / 32 * 32 := by
    rw [toSize_of_lt (by omega), bytes_per_line]
  refine ⟨dst, text, ?_, ?_⟩
  · rw [TecBuffer_as_table_locals, htext, ok_bind]
    simp only [hroom, TecBuffer_create_, hfresh, ok_bind, hput, hstart, hoffset]
    rw [if_pos (Or.inl hzero), hlast]
    rfl
  · refine h₂.contents_eq ?_
    simp [hex_table_header]

/-- A table whose start is the end of a buffer that is not empty leaks the text, and no other
does. There it has the header and one row without a cell. -/
theorem as_table_leaks (calloc : Bool) (src : TecBuffer) (start : Int) (len : Nat)
    (hsize : src.size < 288230376151711744) (hstart : start < 9223372036854775808) :
    (TecBuffer_as_table_locals calloc src start len).map Prod.fst =
        TecBuffer_as_table calloc src start len ∧
      (∀ dst tmp, TecBuffer_as_table_locals calloc src start len = .ok (dst, tmp) →
        (tmp.data ≠ none ↔ src.size ≠ 0 ∧ start = src.size)) ∧
      (Represented src → src.size ≠ 0 → src.size + len < 18446744073709551616 →
        ∃ dst tmp, TecBuffer_as_table_locals true src src.size len = .ok (dst, tmp) ∧
          dst.contents = hex_table_header ++ row_prefix_format (src.size / 32 * 32) ++ [0] ∧
          tmp.data ≠ none) := by
  have hleaks : ∀ (calloc : Bool) (start : Int) dst tmp, start < 9223372036854775808 →
      TecBuffer_as_table_locals calloc src start len = .ok (dst, tmp) →
      (tmp.data ≠ none ↔ src.size ≠ 0 ∧ start = src.size) := by
    intro calloc start dst tmp hstart h
    obtain ⟨text, htext, h⟩ := bind_ok h
    obtain ⟨_, _, h⟩ := bind_ok h
    obtain ⟨_, _, h⟩ := bind_ok h
    have hleft := as_hex_text (by omega) hstart htext
    by_cases hnothing : text.size = 0 ∨ text.data = none
    · simp only [if_pos hnothing] at h
      obtain ⟨_, _, h⟩ := bind_ok h
      cases h
      constructor
      · intro hdata
        exact hleft.mp ⟨hnothing.resolve_right hdata, hdata⟩
      · intro hend
        exact (hleft.mpr hend).2
    · simp only [if_neg hnothing] at h
      obtain ⟨_, _, h⟩ := bind_ok h
      cases h
      refine iff_of_false (fun hdata => hdata rfl) ?_
      intro hend
      exact hnothing (.inl (hleft.mpr hend).1)
  refine ⟨as_table_locals_fst calloc src start len,
    fun dst tmp => hleaks calloc start dst tmp hstart, ?_⟩
  intro h hne hsum
  obtain ⟨dst, tmp, hlocals, hcontents⟩ := as_table_at_end h hsize hsum
  exact ⟨dst, tmp, hlocals, hcontents, (hleaks true src.size dst tmp (by omega) hlocals).mpr
    ⟨hne, rfl⟩⟩

/-- One byte, and the table from behind it. -/
theorem as_table_leaks_one :
    ∃ dst tmp, TecBuffer_as_table_locals true ⟨some [0x48, 0], 1, 1, 2, 2⟩ (1 : Nat) 0 =
        .ok (dst, tmp) ∧
      dst.contents = hex_table_header ++ row_prefix_format 0 ++ [0] ∧ tmp.data ≠ none :=
  (as_table_leaks true ⟨some [0x48, 0], 1, 1, 2, 2⟩ 1 0 (by decide) (by decide)).2.2
    ⟨by decide, by decide, by decide, rfl⟩ (by decide) (by decide)

end Tecc.Buffer
