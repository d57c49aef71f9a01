import Tecc.BufferHex
import Tecc.BufferPuts
import Tecc.Lib.Rows
import Mathlib.Data.List.TakeWhile

/-! The table of a buffer: rows of 32 cells behind a printed offset. -/
namespace Tecc.Buffer

open Machine Block Object Rows

def bytes_per_line : Nat := 32
def hex_table_block_size : Nat := 256

def ascii (str : String) : List UInt8 := str.toList.map fun c => UInt8.ofNat c.toNat

/-- `"%08lu"`. -/
def offset_digits (offset : Nat) : List UInt8 :=
  let digits := (Nat.toDigits 10 offset).map fun c => UInt8.ofNat c.toNat
  List.replicate (8 - digits.length) 48 ++ digits

/-- `row_prefix_format`, printed. -/
def row_prefix_format (offset : Nat) : List UInt8 := [124, 10] ++ offset_digits offset ++ [124]

def header_columns : List UInt8 :=
  ascii " offset |" ++ ascii "00  02  04  06  08  10  12  14  16  18  20  22  24  26  28  30  |"

def header_rule : List UInt8 :=
  ascii "========|" ++ ascii "++--++--++--++--++--++--++--++--++--++--++--++--++--++--++--++--"

def hex_table_header : List UInt8 := header_columns ++ [10] ++ header_rule

/-- The characters of an array up to its terminator. -/
def c_string (chars : List UInt8) : List UInt8 := chars.takeWhile (· ≠ 0)

/-- The offset is printed before the first cell of a row. -/
def begin_row (calloc : Bool) (nbyte offset : Nat) (dst : TecBuffer) :
    Except Fault (TecBuffer × Nat) :=
  if nbyte % bytes_per_line = 0 then do
    let r ← TecBuffer_puts calloc calloc dst (some (row_prefix_format offset))
    .ok (r.1, toSize (offset + bytes_per_line))
  else .ok (dst, offset)

/-- The loop over the cells: `n` counts characters of the text in `s`, `nbyte` counts cells. -/
def table_loop (calloc : Bool) (s : Option (List UInt8)) (size start : Nat) :
    Nat → Nat → Nat → Nat → TecBuffer → Except Fault TecBuffer
  | 0, n, _, _, dst => if n < size then .error .diverges else .ok dst
  | fuel + 1, n, nbyte, offset, dst =>
    if n < size then do
      let r ← begin_row calloc nbyte offset dst
      if nbyte < start then
        let q ← TecBuffer_puts calloc calloc r.1 (some (c_string [32, 32]))
        table_loop calloc s size start fuel n (toSize (nbyte + 1)) r.2 q.1
      else
        let c ← byte_at s n
        let d ← byte_at s (toSize (n + 1))
        let q ← TecBuffer_puts calloc calloc r.1 (some (c_string [c, d]))
        table_loop calloc s size start fuel (toSize (n + 2)) (toSize (nbyte + 1)) r.2 q.1
    else .ok dst

def TecBuffer_as_table (calloc : Bool) (src : TecBuffer) (start : Int) (len : Nat) :
    Except Fault TecBuffer := do
  let tmp ← TecBuffer_as_hex calloc src start len
  let block_size := toSize (tmp.size / hex_table_block_size * hex_table_block_size +
    hex_table_block_size + 2)
  let dst ← TecBuffer_create_ calloc block_size block_size
  let r ← TecBuffer_puts calloc calloc dst (some hex_table_header)
  let dst := r.1
  let start := if start < 0 then 0 else start
  let start_offset := toSize start / bytes_per_line * bytes_per_line
  if tmp.size = 0 ∨ tmp.data = none then
    -- Nothing to print
    let r ← TecBuffer_puts calloc calloc dst (some (row_prefix_format start_offset))
    .ok r.1
  else
    -- Every value of a 64-bit counter has been seen after 2^64 rounds.
    table_loop calloc tmp.data tmp.size (toSize start) 18446744073709551616 0 0 start_offset dst

/-- The cells the loop writes: `start` blank ones, then the bytes. -/
def table_cells (start : Nat) (bytes : List UInt8) : List (List UInt8) :=
  List.replicate start [32, 32] ++ bytes.map hex_pair

/-- The prefix before cell `j`. -/
def prefix_at (start_offset j : Nat) : List UInt8 := row_prefix_format (start_offset + j)

def table_text (start : Nat) (bytes : List UInt8) : List UInt8 :=
  hex_table_header ++ layout bytes_per_line (prefix_at (start / bytes_per_line * bytes_per_line)) 0
    (table_cells start bytes)

/-- The lines below the two of the header. -/
def table_rows (text : List UInt8) : List (List UInt8) := (text.splitOn 10).drop 2

def printed_offset (row : List UInt8) : List UInt8 := row.takeWhile (· ≠ 124)

/-- The two characters at column `2 * c` behind the prefix of the row. -/
def cell_at (row : List UInt8) (c : Nat) : List UInt8 :=
  ((row.drop ((printed_offset row).length + 1)).drop (2 * c)).take 2

/-- Each byte stands in its own cell: `start` is the index of the first one. -/
structure CellsRight (start : Nat) (bytes : List UInt8) (text : List UInt8) : Prop where
  offsets : (table_rows text).map printed_offset =
    (List.range ((start + bytes.length - 1) / 32 - start / 32 + 1)).map
      fun r => offset_digits (32 * (start / 32 + r))
  cells : ∀ k b, bytes[k]? = some b → ∃ row ∈ table_rows text,
    printed_offset row = offset_digits (32 * ((start + k) / 32)) ∧
      cell_at row ((start + k) % 32) = hex_pair b
  blanks : ∀ j, 32 * (start / 32) ≤ j → j < start → ∃ row, (table_rows text).head? = some row ∧
    cell_at row (j % 32) = [32, 32]

/-- The table is returned, and each selected byte stands in its own cell. -/
def TableRight (src : TecBuffer) (start : Int) (len : Nat) : Prop :=
  ∃ dst text, TecBuffer_as_table true src start len = .ok dst ∧ dst.contents = text ++ [0] ∧
    CellsRight start.toNat (selected src start len) text

variable {bytes text : List UInt8} {b c : UInt8} {src fresh dst : TecBuffer} {start : Int}
  {n nbyte offset first : Nat}

theorem hex_digit_printable : ∀ n < 16, 32 ≤ hex_digit n := by decide

theorem hex_pair_printable (b : UInt8) (h : c ∈ hex_pair b) : 32 ≤ c := by
  have hb := b.toNat_lt
  unfold hex_pair at h
  split at h
  · rename_i hlit
    simp only [List.mem_cons, List.not_mem_nil, or_false] at h
    obtain rfl | rfl := h
    · exact Nat.le_refl 32
    · exact Nat.le_of_lt hlit.1
  · simp only [List.mem_cons, List.not_mem_nil, or_false] at h
    obtain rfl | rfl := h
    · exact hex_digit_printable _ (by omega)
    · exact hex_digit_printable _ (Nat.mod_lt _ (by decide))

theorem ne_of_printable (h : 32 ≤ c) : c ≠ 0 ∧ c ≠ 10 := by
  have hc : 32 ≤ c.toNat := h
  refine ⟨?_, ?_⟩
  · rintro rfl
    exact absurd hc (by decide)
  · rintro rfl
    exact absurd hc (by decide)

theorem offset_digits_digit (h : c ∈ offset_digits offset) : 48 ≤ c ∧ c ≤ 57 := by
  unfold offset_digits at h
  obtain h | h := List.mem_append.mp h
  · rw [List.eq_of_mem_replicate h]
    decide
  · obtain ⟨d, hd, rfl⟩ := List.mem_map.mp h
    have hdigit : 48 ≤ d.toNat ∧ d.toNat ≤ 57 := by
      have := Nat.isDigit_of_mem_toDigits (by decide) (by decide) hd
      simpa [Char.isDigit, UInt32.le_iff_toNat_le] using this
    rw [UInt8.le_iff_toNat_le, UInt8.le_iff_toNat_le, UInt8.toNat_ofNat']
    have h48 : (48 : UInt8).toNat = 48 := rfl
    have h57 : (57 : UInt8).toNat = 57 := rfl
    omega

theorem offset_digits_length (h : offset < 18446744073709551616) :
    (offset_digits offset).length ≤ 20 := by
  have hdigits : (Nat.toDigits 10 offset).length ≤ 20 :=
    (Nat.length_toDigits_le_iff (by decide) (by decide)).mpr (by omega)
  simp only [offset_digits, List.length_append, List.length_replicate, List.length_map]
  omega

theorem row_prefix_length (h : offset < 18446744073709551616) :
    (row_prefix_format offset).length ≤ 23 := by
  have := offset_digits_length h
  simp only [row_prefix_format, List.length_append, List.length_cons, List.length_nil]
  omega

theorem c_string_pair (b : UInt8) : c_string (hex_pair b) = hex_pair b := by
  refine List.takeWhile_eq_self_iff.mpr fun c hc => ?_
  simpa using (ne_of_printable (hex_pair_printable b hc)).1

/-- A short string is appended. -/
theorem puts_short (h : Holds fresh dst text) (str : List UInt8) (hlen : str.length ≤ 200)
    (hfit : text.length + 202 < 9223372036854775808) :
    ∃ dst' r, TecBuffer_puts true true dst (some str) = .ok (dst', r) ∧
      Holds fresh dst' (text ++ str) := by
  obtain ⟨dst', hp, hholds⟩ := puts_appends h (some str) (by rw [Option.getD_some]; omega)
    (by rw [Option.getD_some]; omega)
  exact ⟨dst', _, hp, hholds⟩

/-- The offset that is printed next, before cell `nbyte`. -/
def next_offset (start_offset nbyte : Nat) : Nat := start_offset + (nbyte + 31) / 32 * 32

variable {base : Nat}

theorem begin_row_spec (base nbyte : Nat) (h : Holds fresh dst text)
    (hbase : base + nbyte < 4611686018427387904)
    (hfit : text.length + 202 < 9223372036854775808) :
    ∃ dst', begin_row true nbyte (next_offset base nbyte) dst =
        .ok (dst', next_offset base (nbyte + 1)) ∧
      Holds fresh dst'
        (text ++ if nbyte % bytes_per_line = 0 then prefix_at base nbyte else []) := by
  by_cases hrow : nbyte % bytes_per_line = 0
  · have hoffset : next_offset base nbyte = base + nbyte := by
      unfold next_offset bytes_per_line at *
      omega
    have hnext : toSize (next_offset base nbyte + bytes_per_line) =
        next_offset base (nbyte + 1) := by
      unfold next_offset toSize bytes_per_line at *
      omega
    have hlen := row_prefix_length (show base + nbyte < 18446744073709551616 by omega)
    obtain ⟨dst', r, hp, hholds⟩ := puts_short h (row_prefix_format (base + nbyte)) (by omega) hfit
    refine ⟨dst', ?_, ?_⟩
    · rw [begin_row, if_pos hrow, hnext, hoffset, hp]
      rfl
    · rwa [if_pos hrow]
  · have hnext : next_offset base nbyte = next_offset base (nbyte + 1) := by
      unfold next_offset bytes_per_line at *
      omega
    refine ⟨dst, ?_, ?_⟩
    · rw [begin_row, if_neg hrow, hnext]
    · rwa [if_neg hrow, List.append_nil]

theorem prefix_text_length (base nbyte : Nat) (text : List UInt8)
    (hbase : base + nbyte < 18446744073709551616) :
    (text ++ if nbyte % bytes_per_line = 0 then prefix_at base nbyte else []).length ≤
      text.length + 23 := by
  have hlen := row_prefix_length hbase
  rw [List.length_append]
  split
  · rw [prefix_at]
    omega
  · rw [List.length_nil]
    omega

theorem toSize_succ {k : Nat} (h : n + k < 18446744073709551616) :
    toSize ((n : Int) + (k : Nat)) = n + k := by
  unfold toSize
  omega

/-- The loop over the bytes. -/
theorem table_loop_bytes {tmp : TecBuffer} (base fuel : Nat) (h : Holds fresh dst text)
    (hstart : first ≤ nbyte)
    (hfuel : bytes.length ≤ fuel) (hrest : tmp.contents.drop n = hex_text bytes)
    (hsize : tmp.size = n + 2 * bytes.length) (hbig : tmp.size < 4611686018427387904)
    (hbase : base + nbyte + bytes.length < 4611686018427387904)
    (hfit : text.length + 25 * bytes.length + 202 < 9223372036854775808) :
    ∃ dst', table_loop true tmp.data tmp.size first fuel n nbyte (next_offset base nbyte) dst =
        .ok dst' ∧
      Holds fresh dst'
        (text ++ layout bytes_per_line (prefix_at base) nbyte (bytes.map hex_pair)) := by
  induction bytes generalizing n nbyte dst text fuel with
  | nil =>
    refine ⟨dst, ?_, by simpa [layout] using h⟩
    cases fuel <;> rw [table_loop, if_neg (by rw [hsize]; simp)]
  | cons b bytes ih =>
    rw [List.length_cons] at *
    obtain ⟨fuel, rfl⟩ : ∃ m, fuel = m + 1 := ⟨fuel - 1, by omega⟩
    obtain ⟨c, d, hpair⟩ := List.length_eq_two.mp (hex_pair_length b)
    rw [hex_text_cons] at hrest
    have hfirst : tmp.contents[n]? = some c := by
      rw [← Nat.add_zero n, ← List.getElem?_drop, hrest, hpair]
      rfl
    have hsecond : tmp.contents[n + 1]? = some d := by
      rw [← List.getElem?_drop, hrest, hpair]
      rfl
    have hnext : tmp.contents.drop (n + 2) = hex_text bytes := by
      rw [← List.drop_drop, hrest, ← hex_pair_length b, List.drop_left]
    obtain ⟨dst₁, hprefix, h₁⟩ := begin_row_spec base nbyte h (by omega)
      (by omega)
    have hgrown := prefix_text_length base nbyte text (by omega)
    generalize htext : (text ++ if nbyte % bytes_per_line = 0 then prefix_at base nbyte else []) =
      text₁ at *
    obtain ⟨dst₂, q, hput, h₂⟩ := puts_short h₁ (hex_pair b) (by rw [hex_pair_length]; decide)
      (by omega)
    have hlen : (text₁ ++ hex_pair b).length = text₁.length + 2 := by
      rw [List.length_append, hex_pair_length]
    obtain ⟨dst', hloop, hholds⟩ := ih fuel h₂ (Nat.le_succ_of_le hstart) (by omega) hnext
      (by omega) (by omega) (by omega)
    refine ⟨dst', ?_, ?_⟩
    · have hn := toSize_succ (n := n) (k := 1) (by omega)
      have hn' := toSize_succ (n := n) (k := 2) (by omega)
      have hb := toSize_succ (n := nbyte) (k := 1) (by omega)
      push_cast at hn hn' hb
      have hfirst' := byte_at_contents hfirst
      have hsecond' := byte_at_contents hsecond
      have hchars : c_string [c, d] = hex_pair b := by rw [← hpair, c_string_pair]
      rw [table_loop, if_pos (by omega), hprefix, ok_bind, if_neg (by omega), hfirst', ok_bind, hn,
        hsecond', ok_bind, hn', hb, hchars, hput, ok_bind]
      exact hloop
    · rw [List.map_cons, layout, ← List.append_assoc, ← List.append_assoc, htext]
      exact hholds

/-- The loop over the blank cells before the first byte, then over the bytes. -/
theorem table_loop_spec {tmp : TecBuffer} (base fuel nbyte m : Nat)
    (h : Holds fresh dst text)
    (hstart : first = nbyte + m) (hne : bytes ≠ []) (hfuel : m + bytes.length ≤ fuel)
    (hrest : tmp.contents = hex_text bytes) (hsize : tmp.size = 2 * bytes.length)
    (hbig : tmp.size < 4611686018427387904)
    (hbase : base + first + bytes.length < 4611686018427387904)
    (hfit : text.length + 25 * (m + bytes.length) + 202 < 9223372036854775808) :
    ∃ dst', table_loop true tmp.data tmp.size first fuel 0 nbyte (next_offset base nbyte) dst =
        .ok dst' ∧
      Holds fresh dst' (text ++ layout bytes_per_line (prefix_at base) nbyte
        (List.replicate m [32, 32] ++ bytes.map hex_pair)) := by
  have hpos := List.length_pos_iff.mpr hne
  induction m generalizing nbyte dst text fuel with
  | zero =>
    obtain ⟨dst', hloop, hholds⟩ := table_loop_bytes base fuel h (Nat.le_of_eq hstart)
      (n := 0) (by omega) hrest (by omega) hbig (by omega) (by omega)
    exact ⟨dst', hloop, by simpa using hholds⟩
  | succ m ih =>
    obtain ⟨fuel, rfl⟩ : ∃ k, fuel = k + 1 := ⟨fuel - 1, by omega⟩
    obtain ⟨dst₁, hprefix, h₁⟩ := begin_row_spec base nbyte h (by omega)
      (by omega)
    have hgrown := prefix_text_length base nbyte text (by omega)
    generalize htext : (text ++ if nbyte % bytes_per_line = 0 then prefix_at base nbyte else []) =
      text₁ at *
    obtain ⟨dst₂, q, hput, h₂⟩ := puts_short h₁ [32, 32] (by decide) (by omega)
    have hlen : (text₁ ++ [32, 32]).length = text₁.length + 2 := List.length_append
    obtain ⟨dst', hloop, hholds⟩ := ih fuel (nbyte + 1) h₂ (by omega) (by omega)
      (by omega)
    refine ⟨dst', ?_, ?_⟩
    · have hb := toSize_succ (n := nbyte) (k := 1) (by omega)
      have hblank : c_string [32, 32] = [32, 32] := by decide
      push_cast at hb
      rw [table_loop, if_pos (by omega), hprefix, ok_bind, if_pos (by omega), hblank, hput,
        ok_bind, hb]
      exact hloop
    · rw [List.replicate_succ, List.cons_append, layout, ← List.append_assoc, ← List.append_assoc,
        htext]
      exact hholds

theorem header_length : hex_table_header.length ≤ 200 := by
  have hcolumns : header_columns.length = 74 := by decide
  have hrule : header_rule.length = 73 := by decide
  simp only [hex_table_header, List.length_append, hcolumns, hrule]
  decide

/-- The exact text of the table. -/
theorem TecBuffer_as_table_spec (h : Represented src) (start : Int) (len : Nat)
    (hsize : src.size < 288230376151711744)
    (hsum : start.toNat + len < 18446744073709551616)
    (hascii : ∀ b ∈ selected src start len, b < 0x80) (hne : selected src start len ≠ []) :
    ∃ dst, TecBuffer_as_table true src start len = .ok dst ∧
      dst.contents = table_text start.toNat (selected src start len) ++ [0] := by
  have hlen := selected_length h start len
  have hpos := List.length_pos_iff.mpr hne
  have hstart : (if start < 0 then 0 else start) = (start.toNat : Int) := by split <;> omega
  have hheader := header_length
  obtain ⟨tmp, htmp, hwritten⟩ := TecBuffer_as_hex_spec h start len (by split <;> omega) hascii
    (by omega)
  have hdata := hwritten.data_ne
  have htmpsize := hwritten.size_eq
  have hcontents := hwritten.contents_eq
  clear hwritten
  generalize selected src start len = bytes at *
  generalize hs : start.toNat = first at *
  have hfirst : toSize first = first := toSize_of_lt (by omega)
  obtain ⟨room, hroom, hnonzero⟩ : ∃ room, toSize (tmp.size / hex_table_block_size *
      hex_table_block_size + hex_table_block_size + 2) = room ∧ room ≠ 0 := by
    refine ⟨_, rfl, ?_⟩
    unfold toSize hex_table_block_size
    omega
  obtain ⟨fresh, hfresh, hempty⟩ := holds_init room room hnonzero (by
    rw [← hroom]
    exact toSize_lt _)
  obtain ⟨dst₁, q, hput, h₁⟩ := puts_short hempty hex_table_header hheader (by decide)
  have hbegin : first / bytes_per_line * bytes_per_line =
      next_offset (first / bytes_per_line * bytes_per_line) 0 := rfl
  obtain ⟨dst, hloop, hholds⟩ := table_loop_spec (first / bytes_per_line * bytes_per_line)
    18446744073709551616 0 first h₁ (Nat.zero_add first).symm hne (by omega) hcontents
    htmpsize (by omega) (by unfold bytes_per_line; omega)
    (by rw [List.nil_append]; omega)
  refine ⟨dst, ?_, ?_⟩
  · simp only [TecBuffer_as_table, htmp, ok_bind, hroom, TecBuffer_create_, hfresh, hput, hstart,
      hfirst]
    rw [if_neg (by simp [hdata hne]; omega), hbegin]
    exact hloop
  · refine hholds.contents_eq ?_
    simp [hex_table_header]

/-- The line of row `r`, up to the mark that the next row puts behind it. -/
def row_line (start : Nat) (bytes : List UInt8) (r : Nat) : List UInt8 :=
  offset_digits (start / 32 * 32 + 32 * r) ++
    124 :: (cellsOf 32 (table_cells start bytes) r).flatten

def row_count (start : Nat) (bytes : List UInt8) : Nat := (start + bytes.length + 31) / 32

theorem table_cells_length (start : Nat) (bytes : List UInt8) :
    (table_cells start bytes).length = start + bytes.length := by
  simp [table_cells]

theorem table_cells_printable {cell : List UInt8} (h : cell ∈ table_cells first bytes) :
    cell.length = 2 ∧ ∀ c ∈ cell, 32 ≤ c := by
  obtain h | h := List.mem_append.mp h
  · rw [List.eq_of_mem_replicate h]
    exact ⟨rfl, List.all_iff_forall_prop.mp rfl⟩
  · obtain ⟨b, _, rfl⟩ := List.mem_map.mp h
    exact ⟨hex_pair_length b, fun c hc => hex_pair_printable b hc⟩

theorem mem_of_mem_cellsOf {cells : List (List UInt8)} {cell : List UInt8} {r : Nat}
    (h : cell ∈ cellsOf 32 cells r) : cell ∈ cells :=
  List.mem_of_mem_drop (List.mem_of_mem_take h)

theorem row_line_one_line (start : Nat) (bytes : List UInt8) (r : Nat) :
    (10 : UInt8) ∉ row_line start bytes r := by
  intro h
  obtain h | h := List.mem_append.mp h
  · exact absurd (offset_digits_digit h).1 (by decide)
  · obtain h | h := List.mem_cons.mp h
    · exact absurd h (by decide)
    · obtain ⟨cell, hcell, h⟩ := List.mem_flatten.mp h
      exact absurd ((table_cells_printable (mem_of_mem_cellsOf hcell)).2 _ h) (by decide)

theorem table_text_lines (start : Nat) (bytes : List UInt8) : table_text start bytes =
    header_columns ++ 10 :: (header_rule ++
      ((List.range (row_count start bytes)).map (row_line start bytes)).flatMap
        fun line => 124 :: 10 :: line) := by
  have hcount : count bytes_per_line (table_cells start bytes) = row_count start bytes := by
    rw [count, table_cells_length]
    rfl
  rw [table_text, layout_rows (by decide), hcount, List.flatMap_map, hex_table_header]
  simp [prefix_at, row_prefix_format, row_line, bytes_per_line]

/-- The rows of the text: behind the line of a row stands at most a mark. -/
theorem table_rows_text (start : Nat) (bytes : List UInt8) :
    (table_rows (table_text start bytes)).length = row_count start bytes ∧
      ∀ r < row_count start bytes, ∃ e,
        (table_rows (table_text start bytes))[r]? = some (row_line start bytes r ++ e) := by
  obtain ⟨ends, hlen, htail⟩ := closed_tail 124 header_rule
    ((List.range (row_count start bytes)).map (row_line start bytes))
  have hrows : table_rows (table_text start bytes) = List.zipWith (· ++ ·)
      ((List.range (row_count start bytes)).map (row_line start bytes)) ends := by
    rw [table_rows, table_text_lines, List.splitOn_append_cons_self_of_not_mem (by decide),
      splitOn_closed (by decide) (by decide) ?_, ← htail, List.drop_succ_cons, List.drop_one]
    intro line hline
    obtain ⟨r, _, rfl⟩ := List.mem_map.mp hline
    exact row_line_one_line start bytes r
  rw [List.length_map, List.length_range] at hlen
  refine ⟨by simp [hrows, hlen], fun r hr => ?_⟩
  obtain ⟨e, he⟩ : ∃ e, ends[r]? = some e := ⟨_, List.getElem?_eq_getElem (by omega)⟩
  exact ⟨e, by simp [hrows, List.getElem?_zipWith, hr, he]⟩

theorem printed_offset_line (start : Nat) (bytes e : List UInt8) (r : Nat) :
    printed_offset (row_line start bytes r ++ e) = offset_digits (start / 32 * 32 + 32 * r) := by
  rw [row_line, printed_offset, List.append_assoc, List.takeWhile_append_of_pos]
  · simp
  · intro c hc
    have hdigit := (offset_digits_digit hc).2
    refine decide_eq_true ?_
    rintro rfl
    exact absurd hdigit (by decide)

theorem cell_at_line {cell : List UInt8} {r c : Nat} (e : List UInt8)
    (h : (cellsOf 32 (table_cells first bytes) r)[c]? = some cell) :
    cell_at (row_line first bytes r ++ e) c = cell := by
  rw [cell_at, printed_offset_line]
  have hrow : (row_line first bytes r ++ e).drop
      ((offset_digits (first / 32 * 32 + 32 * r)).length + 1) =
      (cellsOf 32 (table_cells first bytes) r).flatten ++ e := by
    rw [row_line, ← List.drop_drop]
    simp
  rw [hrow]
  exact take_drop_flatten
    (fun cell hcell => (table_cells_printable (mem_of_mem_cellsOf hcell)).1) h e

/-- The printed offsets go on in steps of 32. -/
theorem printed_offsets (start : Nat) (bytes : List UInt8) :
    (table_rows (table_text start bytes)).map printed_offset =
      (List.range (row_count start bytes)).map
        fun r => offset_digits (start / 32 * 32 + 32 * r) := by
  obtain ⟨hlen, hrows⟩ := table_rows_text start bytes
  apply List.ext_getElem?
  intro r
  by_cases hr : r < row_count start bytes
  · obtain ⟨e, he⟩ := hrows r hr
    rw [List.getElem?_map, he, Option.map_some, printed_offset_line]
    simp [hr]
  · rw [List.getElem?_eq_none (by simp; omega), List.getElem?_eq_none (by simp; omega)]

/-- Cell `j` stands in row `j / 32`, whose number is `j / 32` from the first row on. -/
theorem row_of_cell {cell : List UInt8} {j : Nat}
    (h : (table_cells first bytes)[j]? = some cell) :
    ∃ row, (table_rows (table_text first bytes))[j / 32]? = some row ∧
      printed_offset row = offset_digits (first / 32 * 32 + 32 * (j / 32)) ∧
      cell_at row (j % 32) = cell := by
  obtain ⟨hj, _⟩ := List.getElem?_eq_some_iff.mp h
  rw [table_cells_length] at hj
  obtain ⟨e, he⟩ := (table_rows_text first bytes).2 (j / 32) (by rw [row_count]; omega)
  refine ⟨_, he, printed_offset_line _ _ _ _, cell_at_line e ?_⟩
  rw [cellsOf, List.getElem?_take_of_lt (Nat.mod_lt j (by decide)), List.getElem?_drop,
    Nat.div_add_mod, h]

/-- Cells are counted from 0 and offsets from the row of the first byte: they agree in the first
row only. -/
theorem cellsRight_iff (hne : bytes ≠ []) :
    CellsRight first bytes (table_text first bytes) ↔ first < 32 := by
  have hpos := List.length_pos_iff.mpr hne
  constructor
  · intro h
    have hlen := congrArg List.length h.offsets
    simp only [List.length_map, List.length_range, (table_rows_text first bytes).1, row_count]
      at hlen
    omega
  · intro hfirst
    have hzero : first / 32 = 0 := by omega
    refine ⟨?_, fun k b hb => ?_, fun j _ hj => ?_⟩
    · have hcount : row_count first bytes = (first + bytes.length - 1) / 32 - 0 + 1 := by
        rw [row_count]
        omega
      rw [printed_offsets, hzero, hcount]
      simp
    · have hcell : (table_cells first bytes)[first + k]? = some (hex_pair b) := by
        rw [table_cells, List.getElem?_append_right (by simp), List.length_replicate,
          Nat.add_sub_cancel_left, List.getElem?_map, hb]
        rfl
      obtain ⟨row, hrow, hoffset, hat⟩ := row_of_cell hcell
      refine ⟨row, List.mem_of_getElem? hrow, ?_, hat⟩
      rw [hoffset, hzero, Nat.zero_mul, Nat.zero_add]
    · have hcell : (table_cells first bytes)[j]? = some [32, 32] := by
        rw [table_cells, List.getElem?_append_left (by simpa using hj), List.getElem?_replicate,
          if_pos hj]
      obtain ⟨row, hrow, _, hat⟩ := row_of_cell hcell
      refine ⟨row, ?_, hat⟩
      rw [← hrow, Nat.div_eq_of_lt (by omega), List.head?_eq_getElem?]

/-- The code writes one text. -/
theorem tableRight_text (h : Represented src) (hsize : src.size < 288230376151711744)
    (hascii : ∀ b ∈ src.contents, b < 0x80) {len : Nat}
    (hsum : start.toNat + len < 18446744073709551616) (hne : selected src start len ≠ []) :
    TableRight src start len ↔ CellsRight start.toNat (selected src start len)
      (table_text start.toNat (selected src start len)) := by
  have hbytes : ∀ b ∈ selected src start len, b < 0x80 := fun b hb =>
    hascii b (List.mem_of_mem_drop (List.mem_of_mem_take hb))
  obtain ⟨dst, hdst, hcontents⟩ := TecBuffer_as_table_spec h start len hsize hsum hbytes hne
  constructor
  · rintro ⟨dst', text, hdst', hcontents', hright⟩
    rw [hdst] at hdst'
    cases hdst'
    rw [hcontents] at hcontents'
    rwa [← List.append_cancel_right hcontents'] at hright
  · exact fun hright => ⟨dst, _, hdst, hcontents, hright⟩

/-- Each byte stands in its own cell exactly when the selection begins in the first row. -/
theorem table_right (src : TecBuffer) (h : Represented src) (hsize : src.size < 288230376151711744)
    (hascii : ∀ b ∈ src.contents, b < 0x80) (start : Int) (len : Nat)
    (hlong : -9223372036854775808 ≤ start) (hsum : start + len < 9223372036854775808)
    (hne : selected src start len ≠ []) : TableRight src start len ↔ start < 32 := by
  rw [tableRight_text h hsize hascii (by omega) hne, cellsRight_iff hne]
  omega

/-- Two bytes from index 1 on. -/
theorem table_right_first_row :
    TableRight ⟨some [0x41, 0x42, 0x0A, 0x43], 4, 4, 4, 4⟩ 1 2 :=
  (table_right _ ⟨by decide, by decide, by decide, rfl⟩ (by decide)
    (List.all_iff_forall_prop.mp rfl) 1 2 (by decide) (by decide) (by decide)).mpr (by decide)

/-- 33 bytes, of which the last one is selected: a row of blanks comes first. -/
theorem table_wrong_second_row :
    ¬ ∀ (src : TecBuffer), Represented src → src.size < 288230376151711744 →
      (∀ b ∈ src.contents, b < 0x80) → ∀ (start : Int) (len : Nat),
      -9223372036854775808 ≤ start → start + len < 9223372036854775808 →
      selected src start len ≠ [] → TableRight src start len := by
  intro h
  let src : TecBuffer :=
    { data := some (List.replicate 33 0x41)
      pos := 33
      size := 33
      capacity := 33
      block_size := 33 }
  have hascii : ∀ b ∈ src.contents, b < 0x80 := List.all_iff_forall_prop.mp rfl
  have hright := h src ⟨by decide, by decide, by decide, rfl⟩ (by decide) hascii 32 1
    (by decide) (by decide) (by decide)
  rw [tableRight_text ⟨by decide, by decide, by decide, rfl⟩ (by decide) hascii (by decide)
    (by decide), cellsRight_iff (by decide)] at hright
  exact absurd hright (by decide)

end Tecc.Buffer
