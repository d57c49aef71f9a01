import Tecc.BufferCapacity
import Tecc.Lib.Object

/-! Strings in the buffer: `TecBuffer_puts` writes behind what stands at the cursor, or over the
terminator that ends there. -/
namespace Tecc.Buffer

open Machine Block

variable {buf : TecBuffer} {str : List UInt8} {strs : List (Option (List UInt8))}

/-- A terminator ends at the cursor. -/
def Terminated (buf : TecBuffer) : Prop :=
  0 < buf.pos ∧ buf.contents[(buf.pos - 1).toNat]? = some 0

instance (buf : TecBuffer) : Decidable (Terminated buf) :=
  inferInstanceAs (Decidable (0 < buf.pos ∧ buf.contents[(buf.pos - 1).toNat]? = some 0))

/-- Where `TecBuffer_puts` begins to write. -/
def puts_pos (buf : TecBuffer) : Nat :=
  if Terminated buf then buf.pos.toNat - 1 else buf.pos.toNat

/-- What `buf->size` is when `TecBuffer_puts` begins to write. -/
def puts_size (buf : TecBuffer) : Nat := if Terminated buf then buf.size - 1 else buf.size

theorem step_back_eq {need : Nat} {b : TecBuffer} (h : Represented buf) (he : Ensured buf need b) :
    (step_back b).pos = puts_pos buf ∧ (step_back b).size = puts_size buf ∧
      (step_back b).contents = buf.contents.take (puts_size buf) := by
  have hpos := h.pos_nonneg
  have hps := h.pos_le
  have hpb := he.pos_eq
  have hsb := he.size_eq
  have hlen := h.contents_length
  have hbyte : 0 < buf.pos →
      b.block[(b.pos - 1).toNat]? = buf.contents[(buf.pos - 1).toNat]? := by
    intro hp
    rw [← he.contents_eq, TecBuffer.contents, List.getElem?_take_of_lt (by omega), hpb]
  have hiff : (0 < b.pos ∧ b.block[(b.pos - 1).toNat]? = some 0) ↔ Terminated buf := by
    rw [Terminated, hpb]
    refine and_congr_right fun hp => ?_
    rw [← hpb, hbyte hp, hpb]
  by_cases hback : Terminated buf
  · have hp := hback.1
    rw [step_back, if_pos (hiff.mpr hback), puts_pos, puts_size, if_pos hback, if_pos hback]
    refine ⟨by simp only; omega, by simp only; omega, ?_⟩
    rw [← he.contents_eq, TecBuffer.contents, TecBuffer.contents, List.take_take]
    congr 1
    simp only
    omega
  · rw [step_back, if_neg (mt hiff.mp hback), puts_pos, puts_size, if_neg hback, if_neg hback]
    refine ⟨by omega, hsb, ?_⟩
    rw [he.contents_eq, List.take_of_length_le (by omega)]

/-- What `TecBuffer_puts` leaves. -/
structure Put (buf : TecBuffer) (str : List UInt8) (buf' : TecBuffer) : Prop
    extends Roomy buf' where
  capacity_ne : buf'.capacity ≠ 0
  pos_eq : buf'.pos = puts_pos buf + str.length + 1
  size_eq : buf'.size = max (puts_size buf) (puts_pos buf + str.length + 1)
  contents_eq : buf'.contents =
    blit (buf.contents.take (puts_size buf)) (puts_pos buf) (str ++ [0])

theorem puts_pos_le (h : Represented buf) : puts_pos buf ≤ buf.pos := by
  have hpos := h.pos_nonneg
  unfold puts_pos
  split <;> omega

/-- A string whose length and terminator fit an `int` is written as a whole. -/
theorem TecBuffer_puts_spec (h : Roomy buf) (hne : str ≠ []) (hlen : str.length < 2147483647)
    (hfit : buf.pos + (str.length + 1 : Nat) < 9223372036854775808) :
    ∃ buf', TecBuffer_puts true true buf (some str) = .ok (buf', str.length + 1) ∧
      Put buf str buf' := by
  have hpos := h.pos_nonneg
  have hle := puts_pos_le h.toRepresented
  have hz : 0 < str.length := List.length_pos_iff.mpr hne
  have hint : toInt str.length = str.length := toInt_of_lt (by omega)
  have hcount : toSize (toInt (toInt str.length + 1)) = str.length + 1 := by
    rw [hint]
    unfold toSize toInt
    omega
  obtain ⟨b, he, heq⟩ := TecBuffer_puts_eq h (by omega) hcount (Nat.le_refl _) hfit
  obtain ⟨hposb, hsizeb, hcontents⟩ := step_back_eq h.toRepresented he
  have hall : (str ++ [0]).take (str.length + 1) = str ++ [0] := List.take_of_length_le (by simp)
  have hlength : (str ++ [0]).length = str.length + 1 := by simp
  have hcap : (step_back b).capacity ≠ 0 := by
    rw [step_back_capacity]
    exact he.capacity_ne (by omega)
  obtain ⟨buf', hw, hwritten⟩ := TecBuffer_write_spec (step_back_roomy he.toRoomy) (str ++ [0])
    (by rw [hlength]; omega) (.inl hcap)
  rw [hlength] at hw
  rw [hall, hw] at heq
  refine ⟨buf', heq, hwritten.toRoomy, hwritten.capacity_ne hcap, ?_, ?_, ?_⟩
  · rw [hwritten.pos_eq, hposb, hlength]
    omega
  · rw [hwritten.size_eq, hsizeb, hposb, hlength]
    omega
  · rw [hwritten.contents_eq, hcontents, hposb]
    rfl

/-- The characters of all strings; a null pointer has none. -/
def characters (strs : List (Option (List UInt8))) : List UInt8 := strs.flatMap (·.getD [])

/-- One more string, and what `TecBuffer_puts` returns for it. -/
def append (text : List UInt8) (str : Option (List UInt8)) : List UInt8 × Nat :=
  (text ++ str.getD [], if str.getD [] = [] then 0 else (str.getD []).length + 1)

/-- The length of the whole text fits an `int`, with its terminator. -/
def FitsInt (text : List UInt8) (str : Option (List UInt8)) : Prop :=
  text.length + (str.getD []).length < 2147483647

/-- The buffer holds the text with one terminator, or it is still the new buffer. -/
structure Holds (fresh : TecBuffer) (buf : TecBuffer) (text : List UInt8) : Prop
    extends Roomy buf where
  capacity_ne : buf.capacity ≠ 0
  untouched : text = [] → buf = fresh ∧ buf.pos = 0 ∧ buf.size = 0
  contents_eq : text ≠ [] → buf.contents = text ++ [0]
  pos_eq : text ≠ [] → buf.pos = text.length + 1
  size_eq : text ≠ [] → buf.size = text.length + 1

variable {fresh : TecBuffer} {text : List UInt8}

/-- A new buffer that has memory holds nothing yet. -/
theorem holds_init (initial_size block_size : Nat) (hne : initial_size ≠ 0)
    (hi : initial_size < 18446744073709551616) :
    ∃ buf, TecBuffer_init_ true initial_size block_size = .ok buf ∧ Holds buf buf [] := by
  obtain ⟨buf, hb, hroomy, hpos, hsize, hcapacity⟩ := TecBuffer_init_spec initial_size block_size hi
  exact ⟨buf, hb, hroomy, hcapacity hne, fun _ => ⟨rfl, hpos, hsize⟩, fun hn => absurd rfl hn,
    fun hn => absurd rfl hn, fun hn => absurd rfl hn⟩

/-- The next string begins where the text ends. -/
theorem Holds.puts_at (h : Holds fresh buf text) : puts_pos buf = text.length ∧
    puts_size buf = text.length ∧ buf.contents.take (puts_size buf) = text := by
  by_cases hempty : text = []
  · obtain ⟨_, hpos, hsize⟩ := h.untouched hempty
    have hopen : ¬ Terminated buf := fun hback => by rw [Terminated, hpos] at hback; omega
    rw [puts_pos, puts_size, if_neg hopen, if_neg hopen, hpos, hsize, hempty]
    exact ⟨rfl, rfl, rfl⟩
  · have hpos := h.pos_eq hempty
    have hsize := h.size_eq hempty
    have hcontents := h.contents_eq hempty
    have hback : Terminated buf := by
      refine ⟨by omega, ?_⟩
      rw [hcontents, hpos, show ((text.length : Int) + 1 - 1).toNat = text.length by omega]
      simp
    rw [puts_pos, puts_size, if_pos hback, if_pos hback, hpos, hsize, hcontents]
    exact ⟨by omega, by omega, by simp⟩

theorem holds_put {buf' : TecBuffer} (h : Holds fresh buf text) (hput : Put buf str buf')
    (hne : str ≠ []) : Holds fresh buf' (text ++ str) := by
  obtain ⟨hpos, hsize, hcontents⟩ := h.puts_at
  have hlen : (text ++ str).length = text.length + str.length := List.length_append
  refine ⟨hput.toRoomy, hput.capacity_ne, ?_, fun _ => ?_, fun _ => ?_, fun _ => ?_⟩
  · exact fun hnil => absurd (List.append_eq_nil_iff.mp hnil).2 hne
  · rw [hput.contents_eq, hcontents, hpos]
    simp [blit]
  · rw [hput.pos_eq, hpos, hlen]
    omega
  · rw [hput.size_eq, hpos, hsize, hlen]
    omega

/-- One call appends its string. -/
theorem puts_appends (h : Holds fresh buf text) (str : Option (List UInt8))
    (hlen : (str.getD []).length < 2147483647)
    (hfit : text.length + (str.getD []).length + 2 < 9223372036854775808) :
    ∃ buf', TecBuffer_puts true true buf str = .ok (buf', (append text str).2) ∧
      Holds fresh buf' (append text str).1 := by
  cases str with
  | none => exact ⟨buf, rfl, by simpa [append] using h⟩
  | some str =>
    rw [Option.getD_some] at hlen hfit
    by_cases hne : str = []
    · subst hne
      exact ⟨buf, rfl, by simpa [append] using h⟩
    · have hpos : buf.pos ≤ text.length + 1 := by
        by_cases hempty : text = []
        · rw [(h.untouched hempty).2.1]
          omega
        · exact Int.le_of_eq (h.pos_eq hempty)
      obtain ⟨buf', hp, hput⟩ := TecBuffer_puts_spec h.toRoomy hne (by omega) (by omega)
      refine ⟨buf', ?_, ?_⟩
      · rw [hp, append, Option.getD_some, if_neg hne]
      · exact holds_put h hput hne

theorem appended (strs : List (Option (List UInt8))) (text : List UInt8) :
    Object.specRun append text strs =
      (text ++ characters strs, strs.map fun str => (append [] str).2) := by
  induction strs generalizing text with
  | nil => simp [Object.specRun, characters]
  | cons str strs ih => simp [Object.specRun, ih, append, characters]

theorem append_allowed (strs : List (Option (List UInt8))) (text : List UInt8)
    (h : text.length + (characters strs).length < 2147483647) :
    Object.SpecAllowed append FitsInt text strs := by
  induction strs generalizing text with
  | nil => trivial
  | cons str strs ih =>
    have hlen : (characters (str :: strs)).length =
        (str.getD []).length + (characters strs).length := by
      simp [characters]
    refine ⟨?_, ih _ ?_⟩
    · rw [FitsInt]
      omega
    · rw [append, List.length_append]
      omega

/-- The calls of `TecBuffer_puts` on a new buffer make one string of theirs. -/
theorem puts_concatenates (initial_size block_size : Nat) (hne : initial_size ≠ 0)
    (hi : initial_size < 18446744073709551616) (strs : List (Option (List UInt8)))
    (hlen : (characters strs).length < 2147483647) :
    ∃ buf buf', TecBuffer_init_ true initial_size block_size = .ok buf ∧
      Object.run (TecBuffer_puts true true) buf strs =
        .ok (buf', strs.map fun str =>
          if str.getD [] = [] then 0 else (str.getD []).length + 1) ∧
      (characters strs = [] → buf' = buf ∧ buf.pos = 0 ∧ buf.size = 0) ∧
      (characters strs ≠ [] → buf'.contents = characters strs ++ [0] ∧
        buf'.pos = (characters strs).length + 1 ∧ buf'.size = (characters strs).length + 1) := by
  obtain ⟨buf, hb, hempty⟩ := holds_init initial_size block_size hne hi
  obtain ⟨buf', hrun, hholds⟩ := Object.run_simulation (R := Holds buf) (C := fun _ _ => True)
    (D := FitsInt)
    (fun _ _ str h _ hfit => by
      rw [FitsInt] at hfit
      exact puts_appends h str (by omega) (by omega)) hempty
    (Object.allowed_of_forall (fun _ _ => trivial) strs buf)
    (append_allowed strs [] (by simpa using hlen))
  rw [appended] at hrun hholds
  refine ⟨buf, buf', hb, hrun, fun hnil => ?_, fun hn => ?_⟩
  · exact ⟨(hholds.untouched hnil).1, (hempty.untouched rfl).2⟩
  · exact ⟨hholds.contents_eq hn, hholds.pos_eq hn, hholds.size_eq hn⟩

/-- Growth over a block of 4 bytes, with a null pointer and an empty string in between. -/
theorem puts_concatenates_growth :
    ∃ buf buf', TecBuffer_init_ true 1 4 = .ok buf ∧
      Object.run (TecBuffer_puts true true) buf [some [72, 105], none, some [], some [33, 33, 33]] =
        .ok (buf', [3, 0, 0, 4]) ∧ buf'.contents = [72, 105, 33, 33, 33, 0] := by
  obtain ⟨buf, buf', hb, hrun, _, hcontents⟩ := puts_concatenates 1 4 (by decide) (by decide)
    [some [72, 105], none, some [], some [33, 33, 33]] (by decide)
  exact ⟨buf, buf', hb, hrun, (hcontents (by decide)).1⟩

/-- The outcome that keeps the rest of the buffer: the string and its terminator stand where
`TecBuffer_puts` begins, and all other bytes are where they were. -/
def KeepsRest (buf : TecBuffer) (str : List UInt8) : Prop :=
  ∃ buf' r, TecBuffer_puts true true buf (some str) = .ok (buf', r) ∧
    buf'.pos = puts_pos buf + str.length + 1 ∧
    buf'.size = max buf.size (puts_pos buf + str.length + 1) ∧
    buf'.contents = blit buf.contents (puts_pos buf) (str ++ [0])

/-- A string that covers the byte that is dropped keeps the rest. -/
theorem keepsRest_of_covers (h : Kept buf) (hne : str ≠ []) (hlen : str.length < 2147483647)
    (hcovers : Terminated buf → buf.size ≤ puts_pos buf + str.length + 1) : KeepsRest buf str := by
  have hpos := h.pos_nonneg
  have hps := h.pos_le
  have hlt := h.size_lt
  obtain ⟨buf', hp, hput⟩ := TecBuffer_puts_spec h.toRoomy hne hlen (by omega)
  refine ⟨buf', _, hp, hput.pos_eq, ?_, ?_⟩
  · rw [hput.size_eq, puts_size]
    split
    · rename_i hback
      have := hcovers hback
      omega
    · rfl
  · rw [hput.contents_eq]
    by_cases hback : Terminated buf
    · have hp := hback.1
      have hcontents := h.toRepresented.contents_length
      have hcover := hcovers hback
      have hat : puts_pos buf = buf.pos.toNat - 1 := if_pos hback
      have hsize : puts_size buf = buf.size - 1 := if_pos hback
      simp only [blit, List.length_append, List.length_singleton]
      rw [List.drop_eq_nil_of_le (by simp; omega), List.drop_eq_nil_of_le (by omega),
        List.take_take, Nat.min_eq_left (by omega)]
    · rw [show puts_size buf = buf.size from if_neg hback,
        List.take_of_length_le (Nat.le_of_eq h.toRepresented.contents_length)]

/-- A string whose length does not fit an `int` with its terminator is cut, dropped or overread. -/
theorem not_keepsRest_of_long (h : Kept buf) (hs : SizesBelow buf (.puts (some str)))
    (hlen : 2147483647 ≤ str.length) : ¬ KeepsRest buf str := by
  rintro ⟨buf', r, hp, hpos', _⟩
  simp only [SizesBelow, Option.getD_some] at hs
  have hpos := h.pos_nonneg
  have hle := puts_pos_le h.toRepresented
  have hgap : buf.pos ≤ puts_pos buf + 1 := by
    unfold puts_pos
    split <;> omega
  by_cases hz : toInt str.length = 0
  · simp only [TecBuffer_puts, if_pos hz] at hp
    cases hp
    omega
  · by_cases hover : 2147483647 ≤ str.length % 4294967296 ∧ str.length % 4294967296 < 4294967295
    · exact TecBuffer_puts_overread (by omega) hover.1 hover.2 hp
    · have hcount : toSize (toInt (toInt str.length + 1)) ≤ str.length := by
        unfold toSize toInt at *
        omega
      obtain ⟨b, he, heq⟩ := TecBuffer_puts_eq h.toRoomy hz rfl (by omega) (by omega)
      obtain ⟨hposb, _, _⟩ := step_back_eq h.toRepresented he
      generalize hc : toSize (toInt (toInt str.length + 1)) = count at *
      have htake : ((str ++ [0]).take count).length = count := by
        rw [List.length_take, List.length_append]
        omega
      have hroom : (step_back b).capacity ≠ 0 ∨
          ((str ++ [0]).take count).length ≤ (step_back b).block_size := by
        rw [step_back_capacity, htake]
        by_cases hzero : count = 0
        · exact .inr (by omega)
        · exact .inl (he.capacity_ne (by omega))
      obtain ⟨b', hw, hwritten⟩ := TecBuffer_write_spec (step_back_roomy he.toRoomy)
        ((str ++ [0]).take count) (by rw [htake]; omega) hroom
      rw [htake] at hw
      rw [heq, hw] at hp
      cases hp
      have hpos'' := hwritten.pos_eq
      rw [htake, hposb] at hpos''
      omega

/-- Wherever the cursor is, a string keeps the rest of the buffer exactly when its length fits an
`int` with the terminator, and it covers the last byte if `TecBuffer_puts` steps back. -/
theorem puts_keeps_rest (initial_size block_size : Nat) (hi : initial_size < 4611686018427387904)
    (buf : TecBuffer) (h : ((bufferLts initial_size block_size).restrict SizesBelow).Reachable buf)
    (str : List UInt8) (hne : str ≠ []) (hs : SizesBelow buf (.puts (some str))) :
    KeepsRest buf str ↔
      str.length < 2147483647 ∧ (Terminated buf → buf.size ≤ puts_pos buf + str.length + 1) := by
  have hk := kept_of_reachable hi h
  constructor
  · intro hkeeps
    have hlen : str.length < 2147483647 := by
      by_contra hlong
      exact not_keepsRest_of_long hk hs (by omega) hkeeps
    refine ⟨hlen, fun hback => ?_⟩
    have hpos := hk.pos_nonneg
    have hps := hk.pos_le
    have hlt := hk.size_lt
    obtain ⟨buf', hp, hput⟩ := TecBuffer_puts_spec hk.toRoomy hne hlen (by omega)
    obtain ⟨buf'', r, hp', _, hsize, _⟩ := hkeeps
    have heq : (buf', str.length + 1) = (buf'', r) := Except.ok.inj (hp.symm.trans hp')
    rw [← (Prod.mk.inj heq).1, hput.size_eq, show puts_size buf = buf.size - 1 from if_pos hback]
      at hsize
    have := hback.1
    omega
  · rintro ⟨hlen, hcovers⟩
    exact keepsRest_of_covers hk hne hlen hcovers

/-- The buffer of `init`, `write` of 97, 0, 98, 99 and `seek` to 2. -/
theorem reachable_inside : ((bufferLts 4 4).restrict SizesBelow).Reachable
    ⟨some [97, 0, 98, 99], 2, 4, 4, 4⟩ := by
  have h0 : ((bufferLts 4 4).restrict SizesBelow).History [] ⟨some [0, 0, 0, 0], 0, 0, 4, 4⟩ := by
    refine .init (show TecBuffer_init_ true 4 4 = _ from ?_)
    simp [TecBuffer_init_, ensure_capacity, toSize, grown_capacity,
      raise_capacity_of_le, realloc_buffer, bind, Except.bind, List.replicate]
  have h1 := h0.snoc_restrict (a := .write [97, 0, 98, 99])
    (t := ⟨some [97, 0, 98, 99], 4, 4, 4, 4⟩) ⟨(4, []), rfl⟩ (by simp [SizesBelow])
  have h2 := h1.snoc_restrict (a := .seek 2 kTecSeekSet)
    (t := ⟨some [97, 0, 98, 99], 2, 4, 4, 4⟩) ⟨(0, []), rfl⟩ (by simp [SizesBelow])
  exact h2.reachable

/-- A string of two characters covers the last byte. -/
theorem puts_keeps_rest_covering : KeepsRest ⟨some [97, 0, 98, 99], 2, 4, 4, 4⟩ [120, 121] :=
  (puts_keeps_rest 4 4 (by decide) _ reachable_inside [120, 121] (by decide)
    (by simp [SizesBelow])).mpr ⟨by decide, fun _ => by decide⟩

/-- A string of one character does not: the byte 99 is dropped. -/
theorem puts_drops_byte :
    ¬ ∀ (initial_size block_size : Nat) (buf : TecBuffer),
      ((bufferLts initial_size block_size).restrict SizesBelow).Reachable buf →
      buf.capacity ≠ 0 → ∀ str : List UInt8, str ≠ [] → SizesBelow buf (.puts (some str)) →
      KeepsRest buf str := by
  intro h
  obtain ⟨buf', r, hp, _, hsize, _⟩ := h 4 4 _ reachable_inside (by decide) [120] (by decide)
    (by simp [SizesBelow])
  cases hp
  cases hsize

end Tecc.Buffer
