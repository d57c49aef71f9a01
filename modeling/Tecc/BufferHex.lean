import Tecc.BufferCapacity
import Tecc.Lib.Object
import Mathlib.Data.Bool.AllAny

/-! Hexadecimal text of the buffer. A byte above 0x7F is a negative `char`. -/
namespace Tecc.Buffer

open Machine Block Object

/-- The characters of `table`, with the terminator. -/
def table : List UInt8 :=
  [48, 49, 50, 51, 52, 53, 54, 55, 56, 57, 65, 66, 67, 68, 69, 70, 0]

/-- `data[i]`. -/
def byte_at (data : Option (List UInt8)) (i : Int) : Except Fault UInt8 :=
  match data with
  | none => .error .outOfBounds
  | some block =>
    if 0 ≤ i then
      match block[i.toNat]? with
      | none => .error .outOfBounds
      | some b => .ok b
    else .error .outOfBounds

/-- `data[pos] = ch`. -/
def set_byte (data : Option (List UInt8)) (pos ch : Int) : Except Fault (Option (List UInt8)) :=
  memcpy_to data pos [UInt8.ofInt ch] 1

/-- `ch >> 4` and `ch & 0x0F` of a two's complement number are its quotient and remainder. -/
def to_hex_chars (ch : Int) : Except Fault (Int × Int) :=
  if 0x20 < ch ∧ ch < 0x7F then .ok (0x20, ch)
  else do
    let c ← byte_at (some table) (ch / 16)
    let d ← byte_at (some table) (ch % 16)
    .ok (toChar c.toNat, toChar d.toNat)

/-- The indices at which `to_hex_chars` reads `table`. -/
def table_indices (ch : Int) : List Int :=
  if 0x20 < ch ∧ ch < 0x7F then [] else [ch / 16, ch % 16]

def hex_buffer_block_size : Nat := 256

/-- The loop over the bytes from `data[i]` on, `n` of them are left. -/
def hex_loop (src : Option (List UInt8)) (start : Int) :
    Nat → Nat → Option (List UInt8) → Int → Except Fault (Option (List UInt8) × Int)
  | 0, _, data, pos => .ok (data, pos)
  | n + 1, i, data, pos => do
    let ch ← byte_at src (start + i)
    let hex ← to_hex_chars (toChar ch.toNat)
    let data ← set_byte data pos hex.1
    let pos := toLong (pos + 1)
    let data ← set_byte data pos hex.2
    let pos := toLong (pos + 1)
    hex_loop src start n (i + 1) data pos

/-- The text of `len` bytes from `start` on is written to `dst`. -/
def fill_hex (calloc : Bool) (src dst : TecBuffer) (start : Int) (len : Nat) :
    Except Fault TecBuffer := do
  let size := toSize (toSize (2 * len) + 1)
  let block_size := toSize (size / hex_buffer_block_size * hex_buffer_block_size +
    hex_buffer_block_size)
  let dst ← ensure_capacity calloc { dst with block_size := block_size } 0 size
  let r ← hex_loop src.data start len 0 dst.data 0
  let data ← set_byte r.1 r.2 0
  .ok { dst with data := data, size := toSize r.2, pos := r.2 }

/-- The empty `dst` is returned for an empty buffer and for a start behind its end. -/
def TecBuffer_as_hex (calloc : Bool) (src : TecBuffer) (start : Int) (len : Nat) :
    Except Fault TecBuffer := do
  let dst ← TecBuffer_create_ calloc 0 hex_buffer_block_size
  if src.size = 0 then .ok dst
  else
    let start := if start < 0 then 0 else start
    let len := if len = 0 then src.size else len
    if toSize start > src.size then .ok dst
    else
      let len := if toSize (start + len) > src.size then toSize (src.size - start) else len
      fill_hex calloc src dst start len

/-- The upper-case digit of a number below 16. -/
def hex_digit (n : Nat) : UInt8 := if n < 10 then UInt8.ofNat (48 + n) else UInt8.ofNat (55 + n)

/-- The two characters of a byte. -/
def hex_pair (b : UInt8) : List UInt8 :=
  if 0x20 < b ∧ b < 0x7F then [0x20, b] else [hex_digit (b.toNat / 16), hex_digit (b.toNat % 16)]

def hex_text (bytes : List UInt8) : List UInt8 := bytes.flatMap hex_pair

def digit_value (c : UInt8) : Option Nat :=
  if 48 ≤ c ∧ c ≤ 57 then some (c.toNat - 48)
  else if 65 ≤ c ∧ c ≤ 70 then some (c.toNat - 55)
  else none

def decode_pair (c d : UInt8) : Option UInt8 :=
  if c = 0x20 then some d
  else do
    let x ← digit_value c
    let y ← digit_value d
    some (UInt8.ofNat (16 * x + y))

/-- Reads the text two characters at a time. -/
def decode : List UInt8 → Option (List UInt8)
  | [] => some []
  | [_] => none
  | c :: d :: text => do
    let b ← decode_pair c d
    let bytes ← decode text
    some (b :: bytes)

variable {bytes block text : List UInt8} {b : UInt8} {src buf : TecBuffer} {start pos : Int}
  {n i k : Nat}

theorem digit_value_hex_digit : ∀ n < 16, digit_value (hex_digit n) = some n := by decide

theorem hex_digit_ne_blank : ∀ n < 16, hex_digit n ≠ 0x20 := by decide

theorem hex_pair_length (b : UInt8) : (hex_pair b).length = 2 := by
  unfold hex_pair
  split <;> rfl

theorem hex_text_cons (b : UInt8) (bytes : List UInt8) :
    hex_text (b :: bytes) = hex_pair b ++ hex_text bytes := List.flatMap_cons

theorem hex_text_length (bytes : List UInt8) : (hex_text bytes).length = 2 * bytes.length := by
  induction bytes with
  | nil => rfl
  | cons b bytes ih =>
    rw [hex_text_cons, List.length_append, hex_pair_length, List.length_cons]
    omega

theorem decode_hex_pair (b : UInt8) (text : List UInt8) :
    decode (hex_pair b ++ text) = (decode text).map (b :: ·) := by
  unfold hex_pair
  split
  · cases h : decode text <;> simp [decode, decode_pair, h]
  · have hb := b.toNat_lt
    have hhigh := digit_value_hex_digit (b.toNat / 16) (by omega)
    have hlow := digit_value_hex_digit (b.toNat % 16) (Nat.mod_lt _ (by decide))
    have hne := hex_digit_ne_blank (b.toNat / 16) (by omega)
    have hpair : decode_pair (hex_digit (b.toNat / 16)) (hex_digit (b.toNat % 16)) = some b := by
      rw [decode_pair, if_neg hne, hhigh, hlow]
      change some (UInt8.ofNat (16 * (b.toNat / 16) + b.toNat % 16)) = some b
      rw [Nat.div_add_mod, UInt8.ofNat_toNat]
    cases h : decode text <;> simp [decode, hpair, h]

/-- Two alphabets, one decoder: the blank tells a literal byte from its digits. -/
theorem decode_hex_text (bytes : List UInt8) : decode (hex_text bytes) = some bytes := by
  induction bytes with
  | nil => rfl
  | cons b bytes ih =>
    rw [hex_text_cons, decode_hex_pair, ih]
    rfl

theorem ofInt_toChar (c : UInt8) : UInt8.ofInt (toChar c.toNat) = c := by
  have hc := c.toNat_lt
  have hmod : (toChar c.toNat % 2 ^ 8).toNat = c.toNat := by
    unfold toChar
    omega
  rw [UInt8.ofInt, hmod, UInt8.ofNat_toNat]

theorem table_digit : ∀ n < 16, byte_at (some table) (n : Nat) = .ok (hex_digit n) := by decide

/-- A byte below 0x80 gets its two characters. -/
theorem to_hex_chars_ascii (h : b < 0x80) : ∃ c d, hex_pair b = [c, d] ∧
    to_hex_chars (toChar b.toNat) = .ok (toChar c.toNat, toChar d.toNat) := by
  have hb : b.toNat < 128 := h
  have hch : toChar b.toNat = b.toNat := toChar_of_lt hb
  by_cases hlit : 0x20 < b ∧ b < 0x7F
  · have hlow : 32 < b.toNat := hlit.1
    have hhigh : b.toNat < 127 := hlit.2
    refine ⟨0x20, b, if_pos hlit, ?_⟩
    rw [to_hex_chars, if_pos (by omega)]
    rfl
  · have hout : ¬ (32 < b.toNat ∧ b.toNat < 127) := hlit
    refine ⟨_, _, if_neg hlit, ?_⟩
    rw [to_hex_chars, if_neg (by omega), hch]
    have hdiv := table_digit (b.toNat / 16) (by omega)
    have hmod := table_digit (b.toNat % 16) (Nat.mod_lt _ (by decide))
    push_cast at hdiv hmod
    rw [hdiv, hmod]
    rfl

/-- A byte above 0x7F is a negative `char`, its digits lie before the table. -/
theorem to_hex_chars_fault (h : ¬ b < 0x80) :
    to_hex_chars (toChar b.toNat) = .error .outOfBounds := by
  have hb : ¬ b.toNat < 128 := h
  have hlt := b.toNat_lt
  have hch : toChar b.toNat = b.toNat - 256 := toChar_neg (by omega) hlt
  have hneg : ¬ (0 : Int) ≤ toChar b.toNat / 16 := by omega
  rw [to_hex_chars, if_neg (by omega), byte_at, if_neg hneg]
  rfl

theorem set_byte_ok (c : UInt8) (hp : 0 ≤ pos) (hb : pos.toNat < block.length) :
    set_byte (some block) pos (toChar c.toNat) = .ok (some (blit block pos.toNat [c])) := by
  rw [set_byte, ofInt_toChar]
  exact memcpy_to_ok hp (Nat.le_refl 1) (by omega)

theorem set_byte_pos {data r : Option (List UInt8)} {ch : Int}
    (h : set_byte data pos ch = .ok r) : 0 ≤ pos := by
  obtain ⟨_, _, hpos, _⟩ := memcpy_to_bounds Nat.one_ne_zero h
  exact hpos

/-- The loop writes the text of the bytes it reads. -/
theorem hex_loop_spec {source : List UInt8} (hsource : start + i = (k : Nat))
    (hn : k + n ≤ source.length) (hascii : ∀ b ∈ (source.drop k).take n, b < 0x80) (hp : 0 ≤ pos)
    (hroom : pos + 2 * n ≤ block.length) (hlong : pos + 2 * n < 9223372036854775808) :
    hex_loop (some source) start n i (some block) pos =
      .ok (some (blit block pos.toNat (hex_text ((source.drop k).take n))), pos + 2 * n) := by
  induction n generalizing i k block pos with
  | zero => simp [hex_loop, hex_text]
  | succ n ih =>
    have hlt : k < source.length := by omega
    rw [List.drop_eq_getElem_cons hlt, List.take_succ_cons] at hascii ⊢
    obtain ⟨c, d, hpair, hchars⟩ := to_hex_chars_ascii (hascii _ List.mem_cons_self)
    have hread : byte_at (some source) (start + i) = .ok source[k] := by
      rw [hsource, byte_at, if_pos (Int.natCast_nonneg k), Int.toNat_natCast,
        List.getElem?_eq_getElem hlt]
    have hlen : (blit block pos.toNat [c]).length = block.length := by
      rw [length_blit (by omega), List.length_singleton]
      omega
    have hsecond : (pos + 1).toNat = pos.toNat + [c].length := by
      rw [List.length_singleton]
      omega
    have hboth : blit (blit block pos.toNat [c]) (pos + 1).toNat [d] =
        blit block pos.toNat (hex_pair source[k]) := by
      rw [hsecond, blit_blit _ (by omega), hpair]
      rfl
    have hnext : (pos + 1 + 1).toNat = pos.toNat + (hex_pair source[k]).length := by
      rw [hex_pair_length]
      omega
    have hlen' : (blit block pos.toNat (hex_pair source[k])).length = block.length := by
      rw [length_blit (by omega), hex_pair_length]
      omega
    simp only [hex_loop, hread, hchars, bind, Except.bind]
    rw [set_byte_ok c hp (by omega), toLong_of_bounds (by omega) (by omega)]
    dsimp only
    rw [set_byte_ok d (by omega) (by omega), toLong_of_bounds (by omega) (by omega), hboth]
    dsimp only
    rw [ih (k := k + 1) (by omega) (by omega)
      (fun b hb => hascii b (List.mem_cons_of_mem _ hb)) (by omega) (by omega) (by omega)]
    rw [hnext, blit_blit _ (by omega), ← hex_text_cons]
    congr 2
    omega

/-- A loop that returns has read bytes below 0x80 only, and its counter has not wrapped. -/
theorem hex_loop_returns {source data : Option (List UInt8)} {r : Option (List UInt8) × Int}
    (h : hex_loop source start n i data pos = .ok r) (hr : 0 ≤ r.2)
    (hlong : pos < 9223372036854775808) :
    0 ≤ pos ∧ pos + 2 * n < 9223372036854775808 ∧
      ∀ k < n, ∃ b, byte_at source (start + i + k) = .ok b ∧ b < 0x80 := by
  induction n generalizing i data pos with
  | zero =>
    cases h
    exact ⟨hr, by omega, fun k hk => absurd hk (Nat.not_lt_zero k)⟩
  | succ n ih =>
    obtain ⟨b, hread, h⟩ := bind_ok h
    obtain ⟨hex, hchars, h⟩ := bind_ok h
    obtain ⟨_, hfirst, h⟩ := bind_ok h
    obtain ⟨_, hsecond, h⟩ := bind_ok h
    have hp := set_byte_pos hfirst
    have hp' := set_byte_pos hsecond
    have hb : b < 0x80 := by
      by_contra hb
      rw [to_hex_chars_fault hb] at hchars
      cases hchars
    obtain ⟨hp'', hfit, hrest⟩ := ih h (toLong_bounds _).2
    refine ⟨hp, ?_, fun k hk => ?_⟩
    · unfold toLong at hfit hp' hp''
      omega
    · cases k with
      | zero => exact ⟨b, by simpa using hread, hb⟩
      | succ k =>
        obtain ⟨c, hc, hlt⟩ := hrest k (by omega)
        refine ⟨c, ?_, hlt⟩
        rw [← hc]
        congr 1
        omega

/-- The bytes that `start` and `len` select; no length means the length of the whole buffer. -/
def selected (src : TecBuffer) (start : Int) (len : Nat) : List UInt8 :=
  (src.contents.drop start.toNat).take (if len = 0 then src.size else len)

/-- The text of `bytes` is the whole content, and a block that was written to holds its
terminator as well. -/
structure HexWritten (dst : TecBuffer) (bytes : List UInt8) : Prop where
  contents_eq : dst.contents = hex_text bytes
  size_eq : dst.size = 2 * bytes.length
  pos_eq : dst.pos = dst.size
  block_length : dst.block.length = dst.capacity
  terminated : dst.data ≠ none → dst.size < dst.capacity ∧ dst.block[dst.size]? = some 0

theorem HexWritten.data_ne {dst : TecBuffer} (h : HexWritten dst bytes) (hne : bytes ≠ []) :
    dst.data ≠ none := by
  intro hnone
  have hlen := congrArg List.length h.contents_eq
  rw [hex_text_length, TecBuffer.contents, TecBuffer.block, hnone, Option.getD_none,
    List.take_nil, List.length_nil] at hlen
  have hpos := List.length_pos_iff.mpr hne
  omega

/-- The new buffer that takes the text. -/
def blank_hex : TecBuffer :=
  { data := none, pos := 0, size := 0, capacity := 0, block_size := hex_buffer_block_size }

theorem blank_hex_written : HexWritten blank_hex [] :=
  ⟨rfl, rfl, rfl, rfl, fun hdata => absurd rfl hdata⟩

theorem blank_hex_roomy (hn : 0 < n) : Roomy { blank_hex with block_size := n } :=
  ⟨⟨Int.le_refl 0, Int.le_refl 0, Nat.le_refl 0, rfl⟩, hn, fun hc => (hc rfl).elim⟩

theorem fill_hex_spec (h : Represented src) (hne : src.size ≠ 0) (hin : k + n ≤ src.size)
    (hascii : ∀ b ∈ (src.contents.drop k).take n, b < 0x80)
    (hfit : 2 * n < 9223372036854775808) :
    ∃ dst, fill_hex true src blank_hex k n = .ok dst ∧
      HexWritten dst ((src.contents.drop k).take n) := by
  have hsize := h.size_le
  have hblock := h.block_length
  have hdata := h.data_of_capacity (by omega)
  have hbytes : (src.contents.drop k).take n = (src.block.drop k).take n := by
    rw [TecBuffer.contents, List.drop_take, List.take_take, Nat.min_eq_left (by omega)]
  have htext : (hex_text ((src.block.drop k).take n)).length = 2 * n := by
    rw [hex_text_length, List.length_take, List.length_drop]
    omega
  have hcount : toSize (toSize (2 * n) + 1) = 2 * n + 1 := by
    unfold toSize
    omega
  -- One block of the new size holds the text and its terminator.
  obtain ⟨room, hroom, hcover⟩ : ∃ room, toSize ((2 * n + 1 : Nat) / hex_buffer_block_size *
      hex_buffer_block_size + hex_buffer_block_size) = room ∧ 2 * n + 1 ≤ room := by
    refine ⟨_, rfl, ?_⟩
    unfold toSize hex_buffer_block_size
    omega
  obtain ⟨dst, hdst, he⟩ := ensure_capacity_spec (blank_hex_roomy (n := room) (by omega))
    (2 * n + 1) (Int.le_refl 0) (by omega) (fun hc => (hc rfl).elim)
  have hcap : 2 * n + 1 ≤ dst.capacity := by
    have := he.covers (.inr (by simp only; omega))
    omega
  have hlen := he.block_length
  have hsome := he.data_of_capacity (by omega)
  rw [hbytes] at hascii ⊢
  have hloop : hex_loop (some src.block) k n 0 (some dst.block) 0 = .ok
      (some (blit dst.block (0 : Int).toNat (hex_text ((src.block.drop k).take n))), 0 + 2 * n) :=
    hex_loop_spec (k := k) (by omega) (by omega) hascii (Int.le_refl 0) (by omega) (by omega)
  generalize (src.block.drop k).take n = bytes at *
  have hend : set_byte (some (blit dst.block 0 (hex_text bytes))) (0 + 2 * n) 0 =
      .ok (some (blit (blit dst.block 0 (hex_text bytes)) ((0 : Int) + 2 * n).toNat [0])) :=
    set_byte_ok 0 (by omega) (by rw [length_blit (Nat.zero_le _)]; omega)
  have hat : ((0 : Int) + 2 * n).toNat = 0 + (hex_text bytes).length := by omega
  have hsize : toSize (0 + 2 * n) = (hex_text bytes).length := by
    unfold toSize
    omega
  have hblit : blit (blit dst.block 0 (hex_text bytes)) ((0 : Int) + 2 * n).toNat [0] =
      blit dst.block 0 (hex_text bytes ++ [0]) := by
    rw [hat, blit_blit _ (Nat.zero_le _)]
  have htotal : (hex_text bytes ++ [0]).length = 2 * n + 1 := by
    rw [List.length_append, List.length_singleton, htext]
  refine ⟨{ dst with
    data := some (blit dst.block 0 (hex_text bytes ++ [0]))
    size := (hex_text bytes).length
    pos := 0 + 2 * n }, ?_, ?_⟩
  · simp only [fill_hex, hcount, hroom, hdst, hdata, hsome, bind, Except.bind]
    rw [hloop]
    dsimp only [Int.toNat_zero]
    rw [hend, hsize, hblit]
  · exact
      { contents_eq := by simp [TecBuffer.contents, TecBuffer.block, blit]
        size_eq := hex_text_length bytes
        pos_eq := by simp only; omega
        block_length := by
          change (blit dst.block 0 (hex_text bytes ++ [0])).length = dst.capacity
          rw [length_blit (Nat.zero_le _), htotal]
          omega
        terminated := by
          intro _
          refine ⟨by simp only; omega, ?_⟩
          change (blit dst.block 0 (hex_text bytes ++ [0]))[(hex_text bytes).length]? = some 0
          rw [getElem?_blit (Nat.zero_le _), if_neg (Nat.not_lt_zero _), if_pos (by omega)]
          simp }

/-- How many bytes are selected when the last index does not wrap. -/
theorem selected_length (h : Represented src) (start : Int) (len : Nat) :
    (selected src start len).length =
      min (if len = 0 then src.size else len) (src.size - start.toNat) := by
  rw [selected, List.length_take, List.length_drop, h.contents_length]

theorem TecBuffer_as_hex_eq (calloc : Bool) (src : TecBuffer) (start : Int) (len : Nat) :
    TecBuffer_as_hex calloc src start len =
      if src.size = 0 then .ok blank_hex
      else if toSize start.toNat > src.size then .ok blank_hex
      else fill_hex calloc src blank_hex start.toNat
        (if toSize (start.toNat + (if len = 0 then src.size else len : Nat)) > src.size then
          toSize (src.size - start.toNat) else if len = 0 then src.size else len) := by
  have hstart : (if start < 0 then 0 else start) = (start.toNat : Int) := by split <;> omega
  rw [TecBuffer_as_hex, hstart]
  rfl

theorem TecBuffer_as_hex_spec (h : Represented src) (start : Int) (len : Nat)
    (hsum : start.toNat + (if len = 0 then src.size else len) < 18446744073709551616)
    (hascii : ∀ b ∈ selected src start len, b < 0x80)
    (hfit : 2 * (selected src start len).length < 9223372036854775808) :
    ∃ dst, TecBuffer_as_hex true src start len = .ok dst ∧
      HexWritten dst (selected src start len) := by
  have hlen := selected_length h start len
  have hsize : toSize start.toNat = start.toNat := toSize_of_lt (by omega)
  rw [TecBuffer_as_hex_eq, hsize]
  by_cases hnone : src.size = 0 ∨ src.size < start.toNat
  · have hnil : selected src start len = [] := List.length_eq_zero_iff.mp (by omega)
    refine ⟨blank_hex, ?_, hnil ▸ blank_hex_written⟩
    by_cases hempty : src.size = 0
    · rw [if_pos hempty]
    · rw [if_neg hempty, if_pos (by omega)]
  · have hcut : (if toSize (start.toNat + (if len = 0 then src.size else len : Nat)) > src.size then
        toSize (src.size - start.toNat) else if len = 0 then src.size else len) =
        (selected src start len).length := by
      rw [hlen]
      unfold toSize
      generalize (if len = 0 then src.size else len) = count at *
      split <;> omega
    rw [if_neg (by omega), if_neg (by omega), hcut]
    have heq : (src.contents.drop start.toNat).take (selected src start len).length =
        selected src start len := by
      rw [hlen, selected]
      generalize (if len = 0 then src.size else len) = count
      rw [List.take_eq_take_iff, List.length_drop, h.contents_length]
      omega
    obtain ⟨dst, hdst, hwritten⟩ := fill_hex_spec h (k := start.toNat)
      (n := (selected src start len).length) (by omega) (by omega) (by rwa [heq]) hfit
    exact ⟨dst, hdst, heq ▸ hwritten⟩

/-- Every byte has its two characters, read from the digits of the table, and they decode to it. -/
def HexDecodable (src : TecBuffer) : Prop :=
  (∀ b ∈ src.contents, ∀ i ∈ table_indices (toChar b.toNat), 0 ≤ i ∧ i < 16) ∧
    ∃ dst, TecBuffer_as_hex true src 0 0 = .ok dst ∧ dst.contents = hex_text src.contents ∧
      decode dst.contents = some src.contents

theorem selected_all (h : Represented src) : selected src 0 0 = src.contents := by
  rw [selected, if_pos rfl, Int.toNat_zero, List.drop_zero,
    List.take_of_length_le (Nat.le_of_eq h.contents_length)]

theorem table_indices_inside (h : b < 0x80) :
    ∀ i ∈ table_indices (toChar b.toNat), 0 ≤ i ∧ i < 16 := by
  have hb : b.toNat < 128 := h
  rw [toChar_of_lt hb, table_indices]
  split
  · exact fun i hi => absurd hi List.not_mem_nil
  · simp only [List.forall_mem_cons, List.not_mem_nil, false_imp_iff, implies_true, and_true]
    omega

theorem byte_at_contents (hb : src.contents[k]? = some b) : byte_at src.data k = .ok b := by
  rw [TecBuffer.contents, List.getElem?_take] at hb
  split at hb
  · cases hdata : src.data with
    | none => simp [TecBuffer.block, hdata] at hb
    | some block =>
      rw [TecBuffer.block, hdata, Option.getD_some] at hb
      rw [byte_at, if_pos (Int.natCast_nonneg k), Int.toNat_natCast, hb]
  · contradiction

/-- A loop that left its text was run on bytes below 0x80, and their count fits the counter. -/
theorem fill_hex_returned {calloc : Bool} {dst dst' : TecBuffer}
    (h : fill_hex calloc src dst start n = .ok dst') : 2 * n < 9223372036854775808 ∧
      ∀ k < n, ∃ b, byte_at src.data (start + k) = .ok b ∧ b < 0x80 := by
  obtain ⟨_, _, h⟩ := bind_ok h
  obtain ⟨r, hloop, h⟩ := bind_ok h
  obtain ⟨_, hend, _⟩ := bind_ok h
  obtain ⟨_, hfit, hread⟩ := hex_loop_returns hloop (set_byte_pos hend) (by decide)
  refine ⟨by omega, fun k hk => ?_⟩
  obtain ⟨b, hb, hascii⟩ := hread k hk
  rw [Int.natCast_zero, Int.add_zero] at hb
  exact ⟨b, hb, hascii⟩

/-- A text that is returned was made of bytes below 0x80, and its length fits the counter. -/
theorem as_hex_returned (h : Represented src) (hsize : src.size < 18446744073709551616)
    {dst : TecBuffer} (hdst : TecBuffer_as_hex true src 0 0 = .ok dst) :
    (∀ b ∈ src.contents, b < 0x80) ∧ 2 * src.size < 9223372036854775808 := by
  have hlen := h.contents_length
  rw [TecBuffer_as_hex_eq] at hdst
  by_cases hempty : src.size = 0
  · refine ⟨fun b hb => ?_, by omega⟩
    rw [List.length_eq_zero_iff.mp (hlen.trans hempty)] at hb
    exact absurd hb List.not_mem_nil
  · have hall : toSize ((0 : Int).toNat + src.size) = src.size := by
      unfold toSize
      omega
    have hstart : ¬ toSize ((0 : Int).toNat) > src.size := Nat.not_lt_zero _
    rw [if_neg hempty, if_neg hstart, if_pos rfl, hall, if_neg (Nat.lt_irrefl _)] at hdst
    obtain ⟨hfit, hread⟩ := fill_hex_returned hdst
    refine ⟨fun b hb => ?_, by omega⟩
    obtain ⟨k, hk⟩ := List.mem_iff_getElem?.mp hb
    have hlt : k < src.size := by
      rw [← hlen]
      exact (List.getElem?_eq_some_iff.mp hk).1
    obtain ⟨c, hc, hascii⟩ := hread k hlt
    rw [show ((0 : Int).toNat : Int) + k = k by simp, byte_at_contents hk] at hc
    rwa [Except.ok.inj hc]

/-- The text is decodable exactly when no byte is a negative `char`, and its length fits the
`long` that counts it. -/
theorem hex_decodable (src : TecBuffer) (h : Represented src)
    (hsize : src.size < 18446744073709551616) :
    HexDecodable src ↔
      (∀ b ∈ src.contents, b < 0x80) ∧ 2 * src.size < 9223372036854775808 := by
  constructor
  · rintro ⟨_, dst, hdst, _⟩
    exact as_hex_returned h hsize hdst
  · rintro ⟨hascii, hfit⟩
    have hall := selected_all h
    refine ⟨fun b hb => table_indices_inside (hascii b hb), ?_⟩
    obtain ⟨dst, hdst, hwritten⟩ := TecBuffer_as_hex_spec h 0 0 (by simpa using hsize)
      (by rwa [hall]) (by rw [hall, h.contents_length]; omega)
    have hcontents := hwritten.contents_eq
    rw [hall] at hcontents
    exact ⟨dst, hdst, hcontents, by rw [hcontents, decode_hex_text]⟩

/-- The bytes 0x48, 0x0A and 0x7F. -/
theorem hex_decodable_text : HexDecodable ⟨some [0x48, 0x0A, 0x7F, 0], 3, 3, 4, 4⟩ :=
  (hex_decodable _ ⟨by decide, by decide, by decide, rfl⟩ (by decide)).mpr
    ⟨List.all_iff_forall_prop.mp rfl, by decide⟩

/-- The byte 0x80 reads the table at index -8. -/
theorem hex_reads_before_table :
    ¬ ∀ src : TecBuffer, Represented src → src.size < 4611686018427387904 → HexDecodable src := by
  intro h
  obtain ⟨_, dst, hdst, _⟩ := h ⟨some [0x80], 1, 1, 1, 1⟩ ⟨by decide, by decide, by decide, rfl⟩
    (by decide)
  cases hdst

end Tecc.Buffer
