import Mathlib.Data.List.Nodup

/-! Linked lists in a heap: the cells that a `next` pointer visits, in order. -/
namespace Linked

variable {α : Type*} {next next' prev prev' : α → Option α} {p q : Option α} {a b : α}
  {xs ys : List α}

/-- Following `next` from the pointer `p` visits exactly `xs` and arrives at the pointer `q`. -/
def Segment (next : α → Option α) : Option α → List α → Option α → Prop
  | p, [], q => p = q
  | p, a :: xs, q => p = some a ∧ Segment next (next a) xs q

/-- A null-terminated list. -/
def Chain (next : α → Option α) (p : Option α) (xs : List α) : Prop := Segment next p xs none

/-- `prev` is the inverse of `next` along `xs`, and `before` stands in front of its first cell. -/
def Back (prev : α → Option α) : Option α → List α → Prop
  | _, [] => True
  | before, a :: xs => prev a = before ∧ Back prev (some a) xs

@[simp] theorem segment_nil : Segment next p [] q ↔ p = q := Iff.rfl

@[simp] theorem segment_cons :
    Segment next p (a :: xs) q ↔ p = some a ∧ Segment next (next a) xs q := Iff.rfl

theorem segment_append :
    Segment next p (xs ++ ys) q ↔ ∃ r, Segment next p xs r ∧ Segment next r ys q := by
  induction xs generalizing p with
  | nil => simp
  | cons a xs ih => simp [ih, and_assoc]

theorem segment_snoc : Segment next p (xs ++ [a]) q ↔ Segment next p xs (some a) ∧ next a = q := by
  rw [segment_append]
  constructor
  · rintro ⟨r, hr, rfl, hq⟩
    exact ⟨hr, hq⟩
  · rintro ⟨hr, hq⟩
    exact ⟨some a, hr, rfl, hq⟩

/-- Cells outside the list may change: the frame rule of linked lists. -/
theorem segment_congr (h : ∀ a ∈ xs, next' a = next a) (hs : Segment next p xs q) :
    Segment next' p xs q := by
  induction xs generalizing p with
  | nil => exact hs
  | cons a xs ih =>
    obtain ⟨hp, hs⟩ := hs
    refine ⟨hp, ?_⟩
    rw [h a (by simp)]
    exact ih (fun b hb => h b (by simp [hb])) hs

theorem chain_congr (h : ∀ a ∈ xs, next' a = next a) (hs : Chain next p xs) : Chain next' p xs :=
  segment_congr h hs

theorem chain_nil : Chain next none [] := rfl

theorem chain_cons : Chain next p (a :: xs) ↔ p = some a ∧ Chain next (next a) xs := Iff.rfl

theorem chain_head (h : Chain next p xs) : p = xs.head? := by
  cases xs with
  | nil => exact h
  | cons a xs => exact h.1

theorem chain_none (h : Chain next none xs) : xs = [] := by
  have := chain_head h
  cases xs with
  | nil => rfl
  | cons a xs => simp at this

/-- The pointer determines the list. -/
theorem chain_unique (h : Chain next p xs) (k : Chain next p ys) : xs = ys := by
  induction xs generalizing p ys with
  | nil =>
    cases ys with
    | nil => rfl
    | cons b ys =>
      have := h.symm.trans k.1
      simp at this
  | cons a xs ih =>
    cases ys with
    | nil =>
      have := h.1.symm.trans k
      simp at this
    | cons b ys =>
      have hab : a = b := Option.some.inj (h.1.symm.trans k.1)
      subst hab
      rw [ih h.2 k.2]

/-- A null-terminated list has no cycle: a cell met twice would be followed by itself. -/
theorem chain_nodup (h : Chain next p xs) : xs.Nodup := by
  induction xs generalizing p with
  | nil => exact List.nodup_nil
  | cons a xs ih =>
    refine List.nodup_cons.mpr ⟨?_, ih h.2⟩
    intro ha
    obtain ⟨l, r, rfl⟩ := List.append_of_mem ha
    obtain ⟨c, _, _, hr⟩ := segment_append.mp h.2
    have hback : Chain next (some a) (a :: r) := chain_cons.mpr ⟨rfl, hr⟩
    have hhere : Chain next (some a) (a :: (l ++ a :: r)) := chain_cons.mpr ⟨rfl, h.2⟩
    have := congrArg List.length (chain_unique hback hhere)
    simp only [List.length_cons, List.length_append] at this
    omega

/-- Linking a new last cell behind `a`. -/
theorem chain_append_last (h : Chain next p (xs ++ [a])) (ha : next' a = some b)
    (hb : next' b = none) (hne : ∀ c ∈ xs, next' c = next c) :
    Chain next' p (xs ++ [a] ++ [b]) :=
  segment_snoc.mpr ⟨segment_snoc.mpr ⟨segment_congr hne (segment_snoc.mp h).1, ha⟩, hb⟩

/-- Unlinking `a` from behind `b`. -/
theorem chain_unlink (h : Chain next p (xs ++ b :: a :: ys)) (hb : next' b = next a)
    (hxs : ∀ c ∈ xs, next' c = next c) (hys : ∀ c ∈ ys, next' c = next c) :
    Chain next' p (xs ++ b :: ys) := by
  obtain ⟨r, hr, hrb, hba, hy⟩ := segment_append.mp h
  refine segment_append.mpr ⟨r, segment_congr hxs hr, hrb, ?_⟩
  rw [hb]
  exact segment_congr hys hy

@[simp] theorem back_nil : Back prev q [] := trivial

@[simp] theorem back_cons : Back prev q (a :: xs) ↔ prev a = q ∧ Back prev (some a) xs := Iff.rfl

theorem back_congr (h : ∀ a ∈ xs, prev' a = prev a) (hs : Back prev q xs) : Back prev' q xs := by
  induction xs generalizing q with
  | nil => trivial
  | cons a xs ih =>
    refine ⟨(h a (by simp)).trans hs.1, ih (fun b hb => h b (by simp [hb])) hs.2⟩

/-- The cell in front of `a` is the one its `prev` pointer names. -/
theorem back_append_cons :
    Back prev q (xs ++ a :: ys) ↔
      Back prev q xs ∧ prev a = (xs.getLast?.or q) ∧ Back prev (some a) ys := by
  induction xs generalizing q with
  | nil => simp
  | cons b xs ih =>
    simp only [List.cons_append, back_cons, ih, and_assoc]
    cases hx : xs.getLast? <;> simp [List.getLast?_cons, hx]

/-- In a doubly linked list, `b` follows `a` exactly when `a` precedes `b`. -/
theorem next_iff_prev (h : Chain next p xs) (k : Back prev none xs) (hb : b ∈ xs) :
    prev b = some a ↔ a ∈ xs ∧ next a = some b := by
  constructor
  · intro hprev
    obtain ⟨l, r, rfl⟩ := List.append_of_mem hb
    have hlast : l.getLast? = some a := by
      simpa [hprev] using (back_append_cons.mp k).2.1.symm
    obtain ⟨l, rfl⟩ := List.getLast?_eq_some_iff.mp hlast
    refine ⟨by simp, ?_⟩
    rw [List.append_assoc] at h
    obtain ⟨_, _, _, htail, _⟩ := segment_append.mp h
    exact htail
  · rintro ⟨ha, hnext⟩
    obtain ⟨l, r, rfl⟩ := List.append_of_mem ha
    obtain ⟨_, _, _, htail⟩ := segment_append.mp h
    rw [hnext] at htail
    cases r with
    | nil => cases htail
    | cons c r =>
      obtain rfl : b = c := Option.some.inj htail.1
      exact ((back_append_cons.mp k).2.2).1

end Linked
