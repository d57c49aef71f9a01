import Mathlib.Data.List.Basic

/-! Interleavings of sequences that belong to different keys, and what is seen of them by an
observer who knows the items but not their keys. -/
namespace Interleave

variable {κ β δ : Type*} {l l' : List (κ × β)} {k : κ} {tag : β → δ} {f : κ → δ}

/-- The items of one key, in their order. -/
def lane [DecidableEq κ] (k : κ) (l : List (κ × β)) : List β :=
  (l.filter fun p => p.1 = k).map Prod.snd

/-- The items with one tag, in their order. -/
def view [DecidableEq δ] (tag : β → δ) (d : δ) (l : List (κ × β)) : List β :=
  (l.map Prod.snd).filter fun b => tag b = d

theorem view_eq_nil [DecidableEq δ] {d : δ} (h : ∀ p ∈ l, tag p.2 ≠ d) : view tag d l = [] := by
  apply List.filter_eq_nil_iff.mpr
  intro b hb
  obtain ⟨p, hp, rfl⟩ := List.mem_map.mp hb
  simpa using h p hp

variable [DecidableEq κ]

@[simp] theorem lane_nil (k : κ) : lane k ([] : List (κ × β)) = [] := rfl

@[simp] theorem lane_append (k : κ) (l l' : List (κ × β)) :
    lane k (l ++ l') = lane k l ++ lane k l' := by
  simp [lane]

theorem lane_self (k : κ) (b : β) : lane k [(k, b)] = [b] := by
  simp [lane]

theorem lane_of_ne {j : κ} (h : j ≠ k) (b : β) : lane k [(j, b)] = [] := by
  simp [lane, h]

/-- All items of one key. -/
theorem lane_map_self (k : κ) (bs : List β) : lane k (bs.map fun b => (k, b)) = bs := by
  induction bs with
  | nil => rfl
  | cons b bs ih =>
    calc lane k ((b :: bs).map fun b => (k, b))
        = lane k [(k, b)] ++ lane k (bs.map fun b => (k, b)) := lane_append k [(k, b)] _
      _ = b :: bs := by rw [lane_self, ih, List.singleton_append]

theorem mem_lane {b : β} : b ∈ lane k l ↔ (k, b) ∈ l := by
  simp [lane]

/-- The keys in sequence, one after the other. -/
def sequential (n : Nat) (f : Nat → List β) : List (Nat × β) :=
  (List.range n).flatMap fun k => (f k).map fun b => (k, b)

theorem lane_sequential (n k : Nat) (f : Nat → List β) :
    lane k (sequential n f) = if k < n then f k else [] := by
  induction n with
  | zero => simp [sequential]
  | succ n ih =>
    have hlast : sequential (n + 1) f = sequential n f ++ (f n).map fun b => (n, b) := by
      simp [sequential, List.range_succ]
    rw [hlast, lane_append, ih]
    by_cases hk : k = n
    · subst hk
      simp [lane_map_self]
    · have hnone : lane k ((f n).map fun b => (n, b)) = [] := by
        apply List.eq_nil_iff_forall_not_mem.mpr
        intro b hb
        obtain ⟨_, _, heq⟩ := List.mem_map.mp (mem_lane.mp hb)
        exact hk (congrArg Prod.fst heq).symm
      rw [hnone, List.append_nil]
      congr 1
      simp only [eq_iff_iff]
      omega

variable [DecidableEq δ]

/-- Where the keys have tags of their own, a tag shows the items of its key. -/
theorem view_eq_lane (htag : ∀ p ∈ l, tag p.2 = f p.1) (hinj : ∀ p ∈ l, f p.1 = f k → p.1 = k) :
    view tag (f k) l = lane k l := by
  rw [view, lane, List.filter_map]
  congr 1
  apply List.filter_congr
  intro p hp
  simp only [Function.comp_apply, decide_eq_decide]
  rw [htag p hp]
  exact ⟨hinj p hp, fun h => congrArg f h⟩

/-- Two interleavings of the same sequences look the same under every tag, when the tags tell the
keys apart. -/
theorem view_congr (hlanes : ∀ k, lane k l = lane k l') (htag : ∀ p ∈ l, tag p.2 = f p.1)
    (hinj : ∀ p ∈ l, ∀ q ∈ l, f p.1 = f q.1 → p.1 = q.1) (d : δ) :
    view tag d l = view tag d l' := by
  have hmem : ∀ p, p ∈ l' → p ∈ l := by
    rintro ⟨k, b⟩ hp
    rw [← mem_lane, hlanes k]
    exact mem_lane.mpr hp
  by_cases hd : ∃ p ∈ l, tag p.2 = d
  · obtain ⟨q, hq, rfl⟩ := hd
    rw [htag q hq, view_eq_lane htag (fun p hp h => hinj p hp q hq h),
      view_eq_lane (fun p hp => htag p (hmem p hp)) (fun p hp h => hinj p (hmem p hp) q hq h)]
    exact hlanes q.1
  · have hnone : ∀ p ∈ l, tag p.2 ≠ d := fun p hp h => hd ⟨p, hp, h⟩
    rw [view_eq_nil hnone, view_eq_nil (fun p hp => hnone p (hmem p hp))]

end Interleave
