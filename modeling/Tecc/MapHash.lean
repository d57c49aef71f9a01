import Tecc.Map
import Mathlib.Data.Nat.Bitwise
import Mathlib.Data.Nat.ModEq

/-! What the hash function of the table tells apart. -/
namespace Tecc.Map

/-- One round of the loop. -/
def fnv_round (h : Nat) (c : UInt8) : Nat :=
  (h ^^^ c.toNat) * 1099511628211 % 18446744073709551616

variable {g h k : Nat} {a b c : UInt8} {s t u : List UInt8}

theorem fnv_eq_foldl (s : List UInt8) :
    tec_fnv_1a_64 s = s.foldl fnv_round 14695981039346656037 := rfl

theorem fnv_round_lt (h : Nat) (c : UInt8) : fnv_round h c < 2 ^ 64 :=
  Nat.mod_lt _ (by decide)

theorem foldl_lt (hh : h < 2 ^ 64) (s : List UInt8) : s.foldl fnv_round h < 2 ^ 64 := by
  induction s generalizing h with
  | nil => exact hh
  | cons c s ih => exact ih (fnv_round_lt h c)

theorem xor_byte_lt (hh : h < 2 ^ 64) (c : UInt8) : h ^^^ c.toNat < 2 ^ 64 := by
  have hc : c.toNat < 2 ^ 8 := c.toNat_lt
  exact Nat.xor_lt_two_pow hh (hc.trans_le (by decide))

/-- The multiplier is odd, so the multiplication loses nothing. -/
theorem mul_prime_inj (hg : g < 2 ^ 64) (hh : h < 2 ^ 64)
    (heq : g * 1099511628211 % 2 ^ 64 = h * 1099511628211 % 2 ^ 64) : g = h := by
  have hcoprime : Nat.gcd (2 ^ 64) 1099511628211 = 1 := by decide
  have hmod : g ≡ h [MOD 2 ^ 64] := Nat.ModEq.cancel_right_of_coprime hcoprime heq
  exact hmod.eq_of_lt_of_lt hg hh

theorem fnv_round_left_inj (hg : g < 2 ^ 64) (hh : h < 2 ^ 64) :
    fnv_round g c = fnv_round h c ↔ g = h := by
  constructor
  · intro heq
    exact Nat.xor_left_inj.mp (mul_prime_inj (xor_byte_lt hg c) (xor_byte_lt hh c) heq)
  · rintro rfl
    rfl

theorem fnv_round_right_inj (hh : h < 2 ^ 64) :
    fnv_round h a = fnv_round h b ↔ a = b := by
  constructor
  · intro heq
    have hxor := mul_prime_inj (xor_byte_lt hh a) (xor_byte_lt hh b) heq
    exact UInt8.toNat_inj.mp (Nat.xor_right_inj.mp hxor)
  · rintro rfl
    rfl

/-- The rest of a string keeps apart what was apart. -/
theorem foldl_inj (hg : g < 2 ^ 64) (hh : h < 2 ^ 64) (s : List UInt8) :
    s.foldl fnv_round g = s.foldl fnv_round h ↔ g = h := by
  induction s generalizing g h with
  | nil => exact Iff.rfl
  | cons c s ih =>
    rw [List.foldl_cons, List.foldl_cons, ih (fnv_round_lt g c) (fnv_round_lt h c)]
    exact fnv_round_left_inj hg hh

theorem start_lt : 14695981039346656037 < 2 ^ 64 := by decide

/-- The low bits of a round come from the low bits. -/
theorem fnv_round_low (hk : k ≤ 64) (hgh : g % 2 ^ k = h % 2 ^ k)
    (hab : a.toNat % 2 ^ k = b.toNat % 2 ^ k) :
    fnv_round g a % 2 ^ k = fnv_round h b % 2 ^ k := by
  have hdvd : 2 ^ k ∣ 18446744073709551616 := Nat.pow_dvd_pow 2 hk
  have hxor : (g ^^^ a.toNat) % 2 ^ k = (h ^^^ b.toNat) % 2 ^ k := by
    rw [Nat.xor_mod_two_pow, Nat.xor_mod_two_pow, hgh, hab]
  rw [fnv_round, fnv_round, Nat.mod_mod_of_dvd _ hdvd, Nat.mod_mod_of_dvd _ hdvd, Nat.mul_mod,
    hxor, ← Nat.mul_mod]

theorem foldl_low (hk : k ≤ 64) (hgh : g % 2 ^ k = h % 2 ^ k)
    (hst : s.map (fun c => c.toNat % 2 ^ k) = t.map (fun c => c.toNat % 2 ^ k)) :
    s.foldl fnv_round g % 2 ^ k = t.foldl fnv_round h % 2 ^ k := by
  induction s generalizing t g h with
  | nil =>
    have ht : t = [] := List.map_eq_nil_iff.mp hst.symm
    subst ht
    exact hgh
  | cons a s ih =>
    cases t with
    | nil => cases hst
    | cons b t =>
      obtain ⟨hab, hst⟩ := List.cons.inj hst
      rw [List.foldl_cons, List.foldl_cons]
      exact ih (fnv_round_low hk hgh hab) hst

/-- Keys that differ in one byte never have the same hash, nor have keys that only differ in front
of a common end unless the fronts have; but a power of two as capacity only sees the low bits of
each byte: keys that agree in these share their bucket. -/
theorem hash_separates :
    (∀ s a b u, tec_fnv_1a_64 (s ++ a :: u) = tec_fnv_1a_64 (s ++ b :: u) ↔ a = b) ∧
      (∀ s t u, tec_fnv_1a_64 (s ++ u) = tec_fnv_1a_64 (t ++ u) ↔
        tec_fnv_1a_64 s = tec_fnv_1a_64 t) ∧
      ∀ k s t, k ≤ 64 → s.map (fun c => c.toNat % 2 ^ k) = t.map (fun c => c.toNat % 2 ^ k) →
        tec_fnv_1a_64 s % 2 ^ k = tec_fnv_1a_64 t % 2 ^ k := by
  refine ⟨?_, ?_, ?_⟩
  · intro s a b u
    have hs := foldl_lt start_lt s
    rw [fnv_eq_foldl, fnv_eq_foldl, List.foldl_append, List.foldl_append, List.foldl_cons,
      List.foldl_cons, foldl_inj (fnv_round_lt _ _) (fnv_round_lt _ _)]
    exact fnv_round_right_inj hs
  · intro s t u
    rw [fnv_eq_foldl, fnv_eq_foldl, List.foldl_append, List.foldl_append]
    exact foldl_inj (foldl_lt start_lt s) (foldl_lt start_lt t) u
  · intro k s t hk hst
    rw [fnv_eq_foldl, fnv_eq_foldl]
    exact foldl_low hk rfl hst

/-- "Ab" and "Ac" differ in one byte; "Ab" and "Qr" agree in the low 4 bits of each byte, which
is all that a table of 16 buckets sees. -/
theorem hash_separates_keys :
    tec_fnv_1a_64 [0x41, 0x62] ≠ tec_fnv_1a_64 [0x41, 0x63] ∧
      tec_fnv_1a_64 [0x41, 0x62, 0x7a] ≠ tec_fnv_1a_64 [0x51, 0x72, 0x7a] ∧
      tec_fnv_1a_64 [0x41, 0x62] % 2 ^ 4 = tec_fnv_1a_64 [0x51, 0x72] % 2 ^ 4 := by
  obtain ⟨hbyte, hfront, hlow⟩ := hash_separates
  refine ⟨?_, ?_, hlow 4 _ _ (by decide) (by decide)⟩
  · exact fun heq => absurd ((hbyte [0x41] 0x62 0x63 []).mp heq) (by decide)
  · exact fun heq => absurd ((hfront [0x41, 0x62] [0x51, 0x72] [0x7a]).mp heq) (by decide)

end Tecc.Map
