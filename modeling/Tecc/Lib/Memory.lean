import Mathlib.Data.UInt
import Mathlib.Logic.Function.Basic
import Mathlib.Tactic.Ring

/-! Byte-addressed memory with little-endian loads and stores of `n` bytes. -/
namespace Memory

/-- Addresses are numbers. -/
abbrev Mem := Nat → UInt8

variable {m m' : Mem} {a b n k v : Nat}

def load (m : Mem) (a : Nat) : Nat → Nat
  | 0 => 0
  | n + 1 => (m a).toNat + 256 * load m (a + 1) n

def store (m : Mem) (a : Nat) : Nat → Nat → Mem
  | 0, _ => m
  | n + 1, v => Function.update (store m (a + 1) n (v / 256)) a (UInt8.ofNat v)

/-- Zeroes `n` bytes. -/
def clear (m : Mem) (a : Nat) (n : Nat) : Mem := fun b => if a ≤ b ∧ b < a + n then 0 else m b

/-- Two address ranges without a common byte. -/
def Apart (a n b k : Nat) : Prop := a + n ≤ b ∨ b + k ≤ a

theorem Apart.symm (h : Apart a n b k) : Apart b k a n := Or.symm h

/-- Where two memories hold the same bytes, they read the same. -/
theorem load_eq (h : ∀ i < n, m' (b + i) = m (a + i)) : load m' b n = load m a n := by
  induction n generalizing a b with
  | zero => rfl
  | succ n ih =>
    have hfirst : m' b = m a := h 0 (Nat.succ_pos n)
    have hrest : load m' (b + 1) n = load m (a + 1) n := by
      apply ih
      intro i hi
      rw [Nat.add_right_comm b, Nat.add_right_comm a]
      exact h (i + 1) (Nat.succ_lt_succ hi)
    rw [load, load, hfirst, hrest]

/-- A load depends on the bytes it reads. -/
theorem load_congr (h : ∀ b, a ≤ b → b < a + n → m' b = m b) : load m' a n = load m a n :=
  load_eq fun i hi => h (a + i) (Nat.le_add_right a i) (Nat.add_lt_add_left hi a)

theorem store_other (h : b < a ∨ a + n ≤ b) : store m a n v b = m b := by
  induction n generalizing a v with
  | zero => rfl
  | succ n ih =>
    rw [store, Function.update_of_ne (by omega)]
    exact ih (by omega)

/-- A byte outside of a range. -/
theorem load_update {byte : UInt8} (h : b < a ∨ a + n ≤ b) :
    load (Function.update m b byte) a n = load m a n :=
  load_congr fun c _ _ => Function.update_of_ne (by omega) _ _

theorem load_store (h : v < 256 ^ n) : load (store m a n v) a n = v := by
  induction n generalizing a v with
  | zero =>
    simp at h
    simp [load, h]
  | succ n ih =>
    have hpow : 256 ^ (n + 1) = 256 * 256 ^ n := by ring
    have hquot : v / 256 < 256 ^ n := by
      rw [Nat.div_lt_iff_lt_mul (by decide)]
      rw [hpow] at h
      omega
    have hrest : load (store m a (n + 1) v) (a + 1) n = v / 256 := by
      rw [← ih (a := a + 1) hquot]
      refine load_congr ?_
      intro b hlo hhi
      rw [store, Function.update_of_ne (by omega)]
    rw [load, hrest, store, Function.update_self, UInt8.toNat_ofNat']
    omega

theorem load_store_apart (h : Apart a n b k) : load (store m b k v) a n = load m a n := by
  refine load_congr ?_
  intro c hlo hhi
  refine store_other ?_
  rcases h with h | h <;> omega

theorem clear_other (h : b < a ∨ a + n ≤ b) : clear m a n b = m b := if_neg (by omega)

theorem load_clear_apart (h : Apart a n b k) : load (clear m b k) a n = load m a n := by
  refine load_congr ?_
  intro c hlo hhi
  refine clear_other ?_
  rcases h with h | h <;> omega

/-- A cleared range reads as zero. -/
theorem load_clear (hlo : b ≤ a) (hhi : a + n ≤ b + k) : load (clear m b k) a n = 0 := by
  induction n generalizing a with
  | zero => rfl
  | succ n ih =>
    rw [load, ih (by omega) (by omega), clear, if_pos (by omega)]
    rfl

/-- A number is zero when all of its bytes are. -/
theorem load_eq_zero : load m a n = 0 ↔ ∀ b, a ≤ b → b < a + n → m b = 0 := by
  induction n generalizing a with
  | zero => exact ⟨fun _ b hlo hhi => by omega, fun _ => rfl⟩
  | succ n ih =>
    have hsum : load m a (n + 1) = 0 ↔ (m a).toNat = 0 ∧ load m (a + 1) n = 0 := by
      rw [load]
      omega
    rw [hsum, ih]
    constructor
    · rintro ⟨hbyte, hrest⟩ b hlo hhi
      by_cases hb : b = a
      · rw [hb]
        exact UInt8.toNat_inj.mp hbyte
      · exact hrest b (by omega) (by omega)
    · intro h
      exact ⟨by rw [h a (Nat.le_refl a) (by omega)]; rfl,
    fun b hlo hhi => h b (by omega) (by omega)⟩

theorem store_zero (m : Mem) (a n : Nat) : store m a n 0 = clear m a n := by
  induction n generalizing a with
  | zero =>
    funext b
    rw [store, clear, if_neg (by omega)]
  | succ n ih =>
    funext b
    rw [store, Nat.zero_div, ih]
    by_cases hb : b = a
    · rw [hb, Function.update_self, clear, if_pos (by omega)]
      rfl
    · rw [Function.update_of_ne hb, clear, clear]
      congr 1
      simp only [eq_iff_iff]
      omega

/-- A zero stays zero. -/
theorem load_clear_of_zero (h : load m a n = 0) : load (clear m b k) a n = 0 := by
  rw [load_eq_zero] at h ⊢
  intro c hlo hhi
  unfold clear
  split
  · rfl
  · exact h c hlo hhi

end Memory
