import Tecc.BufferTable

/-! The description of a buffer, printed into an array of 128 bytes. -/
namespace Tecc.Buffer

open Machine Block Object

/-- An unsigned number in `base`, padded with zeros. -/
def print_unsigned (base width n : Nat) : List UInt8 :=
  let digits := (Nat.toDigits base n).map fun c => UInt8.ofNat c.toNat
  List.replicate (width - digits.length) 48 ++ digits

/-- `"%ld"`. -/
def print_signed (n : Int) : List UInt8 :=
  if n < 0 then 45 :: print_unsigned 10 1 n.natAbs else print_unsigned 10 1 n.natAbs

def ENQUOTE (s : String) : List UInt8 := [34] ++ ascii s ++ [34]

def COMMA : List UInt8 := ascii ", "

/-- `json_format`, printed: `"%08lx"` is the address in `buf->data`, `"%lu"` the other numbers. -/
def json_format (address : Nat) (buf : TecBuffer) : List UInt8 :=
  [123] ++
    (ENQUOTE "data" ++ ascii ": 0x" ++ print_unsigned 16 8 address ++ COMMA) ++
    (ENQUOTE "block_size" ++ ascii ": " ++ print_unsigned 10 1 buf.block_size ++ COMMA) ++
    (ENQUOTE "capacity" ++ ascii ": " ++ print_unsigned 10 1 buf.capacity ++ COMMA) ++
    (ENQUOTE "size" ++ ascii ": " ++ print_unsigned 10 1 buf.size ++ COMMA) ++
    (ENQUOTE "pos" ++ ascii ": " ++ print_signed buf.pos) ++
    [125]

/-- The quoted name and a colon, printed. -/
def name_format (name : List UInt8) : List UInt8 := [34] ++ name ++ [34] ++ ascii ": "

/-- The text and its terminator are written from the start of the array. -/
def sprintf (content text : List UInt8) : Except Fault (List UInt8) :=
  if text.length + 1 ≤ content.length then .ok (blit content 0 (text ++ [0]))
  else .error .outOfBounds

/-- `name` holds the characters before the terminator, `none` is the null pointer. -/
def json_name (calloc : Bool) (dst : TecBuffer) (content : List UInt8) :
    Option (List UInt8) → Except Fault (TecBuffer × List UInt8)
  | none => .ok (dst, content)
  | some name => do
    let content ← sprintf content (name_format name)
    let r ← TecBuffer_puts calloc calloc dst (some (c_string content))
    .ok (r.1, content)

/-- The first contents of the array are never read. -/
def TecBuffer_json (calloc : Bool) (address : Nat) (buf : TecBuffer) (name : Option (List UInt8))
    (_maxlen : Nat) : Except Fault TecBuffer := do
  let dst ← TecBuffer_create_ calloc 80 80
  let content := List.replicate 128 0
  let r ← json_name calloc dst content name
  let content ← sprintf r.2 (json_format address buf)
  let r ← TecBuffer_puts calloc calloc r.1 (some (c_string content))
  .ok r.1

/-- The texts that are printed into the array, in order. -/
def json_texts (address : Nat) (buf : TecBuffer) (name : Option (List UInt8)) :
    List (List UInt8) :=
  (name.map name_format).toList ++ [json_format address buf]

/-- Each text fits the array with its terminator, and the buffer that is returned holds them as one
string. -/
structure JsonRight (calloc : Bool) (address : Nat) (buf : TecBuffer) (name : Option (List UInt8))
    (maxlen : Nat) : Prop where
  fits : ∀ text ∈ json_texts address buf name, text.length + 1 ≤ 128
  unterminated : 0 ∉ (json_texts address buf name).flatten
  returned : ∃ dst, TecBuffer_json calloc address buf name maxlen = .ok dst ∧
    dst.contents = (json_texts address buf name).flatten ++ [0]

variable {text content name : List UInt8} {base width n : Nat} {dst fresh : TecBuffer}
  {c : UInt8}

theorem digitChar_ne_nul (d : Nat) : UInt8.ofNat d.digitChar.toNat ≠ 0 := by
  match d with
  | 0 | 1 | 2 | 3 | 4 | 5 | 6 | 7 | 8 | 9 | 10 | 11 | 12 | 13 | 14 | 15 => decide
  | d + 16 =>
    have hstar : (d + 16).digitChar = '*' := Nat.digitChar_eq_star.mpr (by omega)
    rw [hstar]
    decide

theorem mem_toDigits {d : Char} (hb : 1 < base) (h : d ∈ Nat.toDigits base n) :
    ∃ k : Nat, d = k.digitChar := by
  induction n using Nat.strongRecOn with
  | ind n ih =>
    rw [Nat.toDigits_eq_if hb] at h
    split at h
    · exact ⟨n, List.mem_singleton.mp h⟩
    · rename_i hlt
      rcases List.mem_append.mp h with h | h
      · exact ih _ (Nat.div_lt_self (by omega) hb) h
      · exact ⟨_, List.mem_singleton.mp h⟩

theorem print_unsigned_ne_nul (hb : 1 < base) (h : c ∈ print_unsigned base width n) : c ≠ 0 := by
  rcases List.mem_append.mp h with h | h
  · rw [List.eq_of_mem_replicate h]
    decide
  · obtain ⟨d, hd, rfl⟩ := List.mem_map.mp h
    obtain ⟨k, rfl⟩ := mem_toDigits hb hd
    exact digitChar_ne_nul k

theorem print_unsigned_length {k : Nat} (hb : 1 < base) (hw : width ≤ k) (hk : 0 < k)
    (h : n < base ^ k) : (print_unsigned base width n).length ≤ k := by
  have hdigits := (Nat.length_toDigits_le_iff hb hk).mpr h
  simp only [print_unsigned, List.length_append, List.length_replicate, List.length_map]
  omega

theorem print_signed_ne_nul {n : Int} (h : c ∈ print_signed n) : c ≠ 0 := by
  unfold print_signed at h
  split at h
  · rcases List.mem_cons.mp h with rfl | h
    · decide
    · exact print_unsigned_ne_nul (by decide) h
  · exact print_unsigned_ne_nul (by decide) h

theorem print_signed_length {n : Int} {k : Nat} (hk : 0 < k) (h : n.natAbs < 10 ^ k) :
    (print_signed n).length ≤ k + 1 := by
  have hdigits : (print_unsigned 10 1 n.natAbs).length ≤ k :=
    print_unsigned_length (by decide) hk hk h
  unfold print_signed
  split
  · exact Nat.succ_le_succ hdigits
  · omega

/-- Numbers of 40 bits, behind an address of 48. -/
structure Printable (address : Nat) (buf : TecBuffer) : Prop where
  address_lt : address < 281474976710656
  block_size_lt : buf.block_size < 1099511627776
  capacity_lt : buf.capacity < 1099511627776
  size_lt : buf.size < 1099511627776
  pos_lt : buf.pos.natAbs < 1099511627776

theorem json_format_length {address : Nat} {buf : TecBuffer} (hp : Printable address buf) :
    (json_format address buf).length ≤ 126 := by
  have hnumber : ∀ n < 1099511627776, (print_unsigned 10 1 n).length ≤ 13 :=
    fun n hn => print_unsigned_length (by decide) (by decide) (by decide) (by omega)
  have haddress' : (print_unsigned 16 8 address).length ≤ 12 :=
    print_unsigned_length (by decide) (by decide) (by decide) hp.address_lt
  have hblock' := hnumber _ hp.block_size_lt
  have hcapacity' := hnumber _ hp.capacity_lt
  have hsize' := hnumber _ hp.size_lt
  have hpos' : (print_signed buf.pos).length ≤ 13 + 1 := by
    have hpos := hp.pos_lt
    exact print_signed_length (by decide) (by omega)
  have hliteral : (ascii "data").length = 4 ∧ (ascii "block_size").length = 10 ∧
      (ascii "capacity").length = 8 ∧ (ascii "size").length = 4 ∧ (ascii "pos").length = 3 ∧
      (ascii ": ").length = 2 ∧ (ascii ": 0x").length = 4 ∧ COMMA.length = 2 := by decide
  simp only [json_format, ENQUOTE, List.length_append, List.length_singleton]
  omega

theorem json_format_ne_nul {address : Nat} {buf : TecBuffer} : 0 ∉ json_format address buf := by
  have hliteral : 0 ∉ ascii "data" ∧ 0 ∉ ascii "block_size" ∧ 0 ∉ ascii "capacity" ∧
      0 ∉ ascii "size" ∧ 0 ∉ ascii "pos" ∧ 0 ∉ ascii ": " ∧ 0 ∉ ascii ": 0x" ∧ 0 ∉ COMMA := by
    decide
  have hnumber : ∀ n, 0 ∉ print_unsigned 10 1 n :=
    fun n h => print_unsigned_ne_nul (by decide) h rfl
  have haddress : 0 ∉ print_unsigned 16 8 address :=
    fun h => print_unsigned_ne_nul (by decide) h rfl
  have hpos : 0 ∉ print_signed buf.pos := fun h => print_signed_ne_nul h rfl
  simp [json_format, ENQUOTE, hliteral, hnumber, haddress, hpos]

theorem name_format_length (name : List UInt8) :
    (name_format name).length = name.length + 4 := by
  have hcolon : (ascii ": ").length = 2 := by decide
  simp only [name_format, List.length_append, List.length_singleton]
  omega

theorem name_format_ne_nul (h : 0 ∉ name) : 0 ∉ name_format name := by
  have hcolon : 0 ∉ ascii ": " := by decide
  simp [name_format, h, hcolon]

/-- A text that fits is the string that the array holds. -/
theorem sprintf_spec (hfit : text.length + 1 ≤ content.length) (hnul : 0 ∉ text) :
    ∃ content', sprintf content text = .ok content' ∧ content'.length = content.length ∧
      c_string content' = text := by
  have hlen : (text ++ [0]).length = text.length + 1 := by simp
  refine ⟨_, if_pos hfit, ?_, ?_⟩
  · rw [length_blit (Nat.zero_le _), hlen]
    omega
  · have hall : ∀ c ∈ text, decide (c ≠ 0) = true := by
      intro c hc
      have hne : c ≠ 0 := fun he => hnul (he ▸ hc)
      simpa using hne
    rw [c_string, blit, List.take_zero, List.nil_append, List.append_assoc,
      List.takeWhile_append_of_pos hall, List.singleton_append,
      List.takeWhile_cons_of_neg (by simp), List.append_nil]

theorem sprintf_returns {content' : List UInt8} (h : sprintf content text = .ok content') :
    text.length + 1 ≤ content.length := by
  unfold sprintf at h
  split at h
  · assumption
  · cases h

/-- A text is printed into the array and appended. -/
theorem puts_printed (h : Holds fresh dst text) (hlen : content.length = 128)
    {str : List UInt8} (hfit : str.length + 1 ≤ 128) (hnul : 0 ∉ str)
    (htext : text.length + 202 < 9223372036854775808) :
    ∃ content' dst' r, sprintf content str = .ok content' ∧ content'.length = 128 ∧
      TecBuffer_puts true true dst (some (c_string content')) = .ok (dst', r) ∧
      Holds fresh dst' (text ++ str) := by
  obtain ⟨content', hprint, hlen', hstring⟩ :=
    sprintf_spec (show str.length + 1 ≤ content.length by omega) hnul
  obtain ⟨dst', r, hput, hholds⟩ := puts_short h str (by omega) htext
  exact ⟨content', dst', r, hprint, by omega, by rw [hstring, hput], hholds⟩

variable {address maxlen : Nat} {buf : TecBuffer} {names : Option (List UInt8)} {calloc : Bool}

theorem json_name_spec (h : Holds fresh dst []) (hlen : content.length = 128)
    (hfit : ∀ name, names = some name → name.length ≤ 123)
    (hnul : ∀ name, names = some name → 0 ∉ name) :
    ∃ dst' content', json_name true dst content names = .ok (dst', content') ∧
      content'.length = 128 ∧ Holds fresh dst' (names.map name_format).toList.flatten ∧
      (names.map name_format).toList.flatten.length ≤ 127 := by
  cases names with
  | none => exact ⟨dst, content, rfl, hlen, h, Nat.zero_le _⟩
  | some name =>
    have hname := name_format_length name
    have hshort := hfit name rfl
    obtain ⟨content', dst', r, hprint, hlen', hput, hholds⟩ := puts_printed h hlen (by omega)
      (name_format_ne_nul (hnul name rfl)) (by simp)
    refine ⟨dst', content', ?_, hlen', by simpa using hholds, by simp; omega⟩
    rw [json_name, hprint, ok_bind, hput]
    rfl

theorem json_returned (hp : Printable address buf)
    (hfit : ∀ name, names = some name → name.length ≤ 123)
    (hnul : ∀ name, names = some name → 0 ∉ name) (maxlen : Nat) :
    ∃ dst, TecBuffer_json true address buf names maxlen = .ok dst ∧
      dst.contents = (json_texts address buf names).flatten ++ [0] := by
  have hjson := json_format_length hp
  obtain ⟨fresh, hfresh, hempty⟩ := holds_init 80 80 (by decide) (by decide)
  have hlen : (List.replicate 128 (0 : UInt8)).length = 128 := List.length_replicate
  obtain ⟨dst₁, content₁, hname, hlen₁, hholds₁, hshort⟩ := json_name_spec hempty hlen hfit hnul
  obtain ⟨content₂, dst₂, r, hprint, _, hput, hholds₂⟩ := puts_printed hholds₁ hlen₁
    (show (json_format address buf).length + 1 ≤ 128 by omega) json_format_ne_nul (by omega)
  refine ⟨dst₂, ?_, ?_⟩
  · rw [TecBuffer_json, TecBuffer_create_, hfresh, ok_bind]
    dsimp only
    rw [hname, ok_bind, hprint, ok_bind, hput, ok_bind]
  · have hne : (names.map name_format).toList.flatten ++ json_format address buf ≠ [] := by
      simp [json_format]
    rw [hholds₂.contents_eq hne, json_texts, List.flatten_append, List.flatten_singleton]

/-- Without memory nothing can be appended. -/
theorem puts_failed {r : TecBuffer × Nat} (hdata : dst.data = none) (hne : text ≠ [])
    (hlen : text.length < 2147483647) : TecBuffer_puts false false dst (some text) ≠ .ok r := by
  intro h
  have hpos := List.length_pos_iff.mpr hne
  have hint : toInt text.length = text.length := toInt_of_lt (by omega)
  have hcount : toSize (toInt (toInt text.length + 1)) = text.length + 1 := by
    rw [hint]
    unfold toSize toInt
    omega
  simp only [TecBuffer_puts, hint, if_neg (show (text.length : Int) ≠ 0 by omega)] at h
  obtain ⟨b, hens, h⟩ := bind_ok h
  obtain ⟨back, _, h⟩ := bind_ok h
  obtain rfl := ensure_capacity_no_memory hens
  rw [← hint, hcount] at h
  unfold TecBuffer_write at h
  rw [if_neg (Nat.succ_ne_zero _)] at h
  obtain ⟨b', hens', h⟩ := bind_ok h
  obtain ⟨data, hcopy, _⟩ := bind_ok h
  obtain rfl := ensure_capacity_no_memory hens'
  obtain ⟨block, hsome, _⟩ := memcpy_to_bounds (Nat.succ_ne_zero _) hcopy
  cases hdata.symm.trans hsome

theorem json_failed (hp : Printable address buf) (hnul : ∀ name, names = some name → 0 ∉ name) :
    TecBuffer_json false address buf names maxlen ≠ .ok dst := by
  intro h
  have hjson := json_format_length hp
  rw [TecBuffer_json] at h
  obtain ⟨fresh, hfresh, h⟩ := bind_ok h
  dsimp only at h
  obtain ⟨q, hname, h⟩ := bind_ok h
  obtain ⟨content, hprint, h⟩ := bind_ok h
  obtain ⟨r, hput, _⟩ := bind_ok h
  rw [TecBuffer_create_, TecBuffer_init_] at hfresh
  dsimp only at hfresh
  rw [if_pos (by decide)] at hfresh
  have hdata : fresh.data = none := by rw [ensure_capacity_no_memory hfresh]
  cases names with
  | none =>
    cases hname
    obtain ⟨content', hprint', _, hstring⟩ := sprintf_spec (sprintf_returns hprint)
      json_format_ne_nul
    rw [Except.ok.inj (hprint.symm.trans hprint'), hstring] at hput
    exact puts_failed hdata (by simp [json_format]) (by omega) hput
  | some name =>
    obtain ⟨content', hprint', hname⟩ := bind_ok hname
    obtain ⟨r', hput', _⟩ := bind_ok hname
    have hfits := sprintf_returns hprint'
    rw [List.length_replicate] at hfits
    obtain ⟨content'', hprint'', _, hstring⟩ :=
      sprintf_spec (sprintf_returns hprint') (name_format_ne_nul (hnul name rfl))
    rw [Except.ok.inj (hprint'.symm.trans hprint''), hstring] at hput'
    exact puts_failed hdata (by simp [name_format]) (by omega) hput'

theorem json_texts_ne_nul (address : Nat) (buf : TecBuffer)
    (hnul : ∀ name, names = some name → 0 ∉ name) :
    0 ∉ (json_texts address buf names).flatten := by
  cases names with
  | none => simpa [json_texts] using json_format_ne_nul
  | some name => simpa [json_texts, json_format_ne_nul] using name_format_ne_nul (hnul name rfl)

/-- The description always fits its array, and the name exactly when it has at most 123
characters. -/
theorem json_fits (calloc : Bool) (address : Nat) (buf : TecBuffer)
    (names : Option (List UInt8)) (maxlen : Nat) (hp : Printable address buf)
    (hnul : ∀ name, names = some name → 0 ∉ name) :
    JsonRight calloc address buf names maxlen ↔
      calloc = true ∧ ∀ name, names = some name → name.length ≤ 123 := by
  have hjson := json_format_length hp
  constructor
  · intro hr
    refine ⟨?_, ?_⟩
    · obtain ⟨dst, hdst, _⟩ := hr.returned
      cases calloc with
      | true => rfl
      | false => exact absurd hdst (json_failed hp hnul)
    · rintro name rfl
      have hfits := hr.fits (name_format name) (by simp [json_texts])
      rw [name_format_length] at hfits
      omega
  · rintro ⟨rfl, hfit⟩
    refine ⟨?_, json_texts_ne_nul address buf hnul, json_returned hp hfit hnul maxlen⟩
    intro text htext
    rcases List.mem_append.mp htext with hname | hdescription
    · cases names with
      | none => cases hname
      | some name =>
        have hshort := hfit name rfl
        rw [List.mem_singleton.mp hname, name_format_length]
        omega
    · rw [List.mem_singleton.mp hdescription]
      omega

/-- A buffer without memory, under the name `x`. -/
theorem json_fits_small : JsonRight true 0 ⟨none, 0, 0, 0, 80⟩ (some [120]) 0 :=
  (json_fits true 0 ⟨none, 0, 0, 0, 80⟩ (some [120]) 0
    ⟨by decide, by decide, by decide, by decide, by decide⟩ (by simp)).mpr ⟨rfl, by simp⟩

/-- A name of 124 characters takes 129 bytes. -/
theorem json_overflows :
    ¬ ∀ (address : Nat) (buf : TecBuffer) (names : Option (List UInt8)), Printable address buf →
      (∀ name, names = some name → 0 ∉ name) → JsonRight true address buf names 0 := by
  intro h
  have hr := h 0 ⟨none, 0, 0, 0, 80⟩ (some (List.replicate 124 120))
    ⟨by decide, by decide, by decide, by decide, by decide⟩ (by simp)
  have hfits := hr.fits (name_format (List.replicate 124 120)) (by simp [json_texts])
  rw [name_format_length, List.length_replicate] at hfits
  omega

end Tecc.Buffer
