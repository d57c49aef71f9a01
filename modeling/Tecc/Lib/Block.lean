import Mathlib.Data.List.Basic

/-! Copying a run of bytes into a block at an offset. -/
namespace Block

variable {α : Type*} {xs ys : List α} {i n k : Nat}

/-- `xs` with its items from `i` on replaced by `ys`; past its end `xs` is extended. -/
def blit (xs : List α) (i : Nat) (ys : List α) : List α :=
  xs.take i ++ ys ++ xs.drop (i + ys.length)

theorem length_blit (h : i ≤ xs.length) :
    (blit xs i ys).length = max xs.length (i + ys.length) := by
  simp only [blit, List.length_append, List.length_take, List.length_drop]
  omega

@[simp] theorem blit_nil (xs : List α) (i : Nat) : blit xs i [] = xs := by
  simp [blit]

/-- Two adjacent copies are one. -/
theorem blit_blit (zs : List α) (h : i ≤ xs.length) :
    blit (blit xs i ys) (i + ys.length) zs = blit xs i (ys ++ zs) := by
  have hi : (xs.take i).length = i := by simp; omega
  have hmid : (xs.take i ++ ys).length = i + ys.length := by rw [List.length_append, hi]
  rw [blit, blit, blit, List.take_append_of_le_length (by omega), List.take_of_length_le (by omega),
    List.drop_append, hmid, List.drop_eq_nil_of_le (by omega), List.drop_drop,
    Nat.add_sub_cancel_left, List.nil_append, List.length_append, Nat.add_assoc]
  simp only [List.append_assoc]

theorem getElem?_blit (h : i ≤ xs.length) : (blit xs i ys)[k]? =
    if k < i then xs[k]? else if k < i + ys.length then ys[k - i]? else xs[k]? := by
  have hi : (xs.take i).length = i := by simp [h]
  simp only [blit, List.append_assoc]
  split
  · rename_i hk
    rw [List.getElem?_append_left (by omega), List.getElem?_take_of_lt hk]
  · rename_i hk
    rw [List.getElem?_append_right (by omega), hi]
    split
    · rw [List.getElem?_append_left (by omega)]
    · rw [List.getElem?_append_right (by omega), List.getElem?_drop]
      congr 1
      omega

/-- Writing inside a block and looking at its first bytes is writing into these bytes, which
grow as far as the write reaches. -/
theorem take_blit (xs ys : List α) (hi : i ≤ n) (hn : n ≤ xs.length) :
    (blit xs i ys).take (max n (i + ys.length)) = blit (xs.take n) i ys := by
  apply List.ext_getElem?
  intro k
  have hl : i ≤ (xs.take n).length := by simp; omega
  rw [getElem?_blit hl]
  by_cases hkn : k < max n (i + ys.length)
  · rw [List.getElem?_take_of_lt hkn, getElem?_blit (by omega)]
    by_cases h1 : k < i
    · rw [if_pos h1, if_pos h1, List.getElem?_take_of_lt (by omega)]
    · by_cases h2 : k < i + ys.length
      · rw [if_neg h1, if_neg h1, if_pos h2, if_pos h2]
      · rw [if_neg h1, if_neg h1, if_neg h2, if_neg h2, List.getElem?_take_of_lt (by omega)]
  · rw [List.getElem?_eq_none (by simp; omega), if_neg (by omega), if_neg (by omega),
      List.getElem?_eq_none (by simp; omega)]

end Block
