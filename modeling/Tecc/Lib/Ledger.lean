import Mathlib.Data.List.Perm.Basic
import Mathlib.Data.List.Basic
import Tecc.Lib.Transition

/-! A ledger of resources: what is acquired against what is released and what is held. -/
namespace Ledger

variable {α : Type*} {a b c lost : List α}

inductive Entry (α : Type*) where
  | acquired (r : α)
  | released (r : α)
deriving DecidableEq, Repr

variable {xs ys : List (Entry α)}

def Entry.acquired? : Entry α → Option α
  | .acquired r => some r
  | .released _ => none

def Entry.released? : Entry α → Option α
  | .released r => some r
  | .acquired _ => none

def acquired (xs : List (Entry α)) : List α := xs.filterMap Entry.acquired?

def released (xs : List (Entry α)) : List α := xs.filterMap Entry.released?

theorem acquired_append (xs ys : List (Entry α)) :
    acquired (xs ++ ys) = acquired xs ++ acquired ys := List.filterMap_append

theorem released_append (xs ys : List (Entry α)) :
    released (xs ++ ys) = released xs ++ released ys := List.filterMap_append

/-- What was held before the entries and what they acquire is what they release and what is held
after them. -/
def Balanced (before : List α) (xs : List (Entry α)) (after : List α) : Prop :=
  (before ++ acquired xs).Perm (released xs ++ after)

theorem balanced_nil (a : List α) : Balanced a [] a := by
  simp [Balanced, acquired, released]

theorem Balanced.append (h : Balanced a xs b) (k : Balanced b ys c) : Balanced a (xs ++ ys) c := by
  unfold Balanced at *
  rw [acquired_append, released_append, ← List.append_assoc]
  apply (h.append_right (acquired ys)).trans
  rw [List.append_assoc, List.append_assoc]
  exact k.append_left (released xs)

/-- The frame rule: what the entries do not touch stays held. -/
theorem Balanced.frame (h : Balanced a xs b) (rest : List α) :
    Balanced (a ++ rest) xs (b ++ rest) := by
  unfold Balanced at *
  have hswap : (a ++ rest ++ acquired xs).Perm (a ++ acquired xs ++ rest) := by
    rw [List.append_assoc, List.append_assoc]
    exact List.perm_append_comm.append_left a
  apply hswap.trans
  rw [← List.append_assoc]
  exact h.append_right rest

/-- Entries that leave two resources held differ in them. -/
theorem Balanced.unique (h : Balanced a xs b) (k : Balanced a xs c) : b.Perm c :=
  (List.perm_append_left_iff (released xs)).mp (h.symm.trans k)

/-- Nothing is lost exactly when the account is settled without it. -/
theorem Balanced.lost_nil (h : Balanced a xs (b ++ lost)) : lost = [] ↔ Balanced a xs b := by
  constructor
  · rintro rfl
    rwa [List.append_nil] at h
  · intro k
    have hlength := (h.unique k).length_eq
    rw [List.length_append] at hlength
    exact List.length_eq_zero_iff.mp (by omega)

theorem Balanced.acquire (h : Balanced a xs b) (r : α) :
    Balanced a (xs ++ [.acquired r]) (b ++ [r]) := by
  unfold Balanced at *
  rw [acquired_append, released_append, ← List.append_assoc]
  have hnew : released [Entry.acquired r] = [] := rfl
  rw [hnew, List.append_nil, ← List.append_assoc]
  exact h.append_right [r]

theorem Balanced.release {b₁ b₂ : List α} {r : α} (h : Balanced a xs (b₁ ++ r :: b₂)) :
    Balanced a (xs ++ [.released r]) (b₁ ++ b₂) := by
  unfold Balanced at *
  rw [acquired_append, released_append]
  have hnew : acquired [Entry.released r] = [] := rfl
  have hfront : (b₁ ++ r :: b₂).Perm (r :: (b₁ ++ b₂)) := List.perm_middle
  rw [hnew, List.append_nil, List.append_assoc]
  exact h.trans (hfront.append_left (released xs))

/-- What an entry does to what is held: only a free resource is acquired, and only a held one
released. -/
def Moves (before after : α → Prop) : Option (Entry α) → Prop
  | none => ∀ r, after r ↔ before r
  | some (.acquired a) => ¬ before a ∧ ∀ r, after r ↔ before r ∨ r = a
  | some (.released a) => before a ∧ ∀ r, after r ↔ before r ∧ r ≠ a

/-- A list of what is held, each resource once. -/
structure Lists (l : List α) (held : α → Prop) : Prop where
  nodup : l.Nodup
  mem : ∀ r, r ∈ l ↔ held r

theorem Lists.moves {before after : α → Prop} {e : Option (Entry α)} (h : Lists a before)
    (hb : Balanced c xs a) (hm : Moves before after e) :
    ∃ b, Lists b after ∧ Balanced c (xs ++ e.toList) b := by
  cases e with
  | none =>
    refine ⟨a, ⟨h.nodup, fun r => (h.mem r).trans (hm r).symm⟩, ?_⟩
    rwa [Option.toList_none, List.append_nil]
  | some e =>
    cases e with
    | acquired x =>
      obtain ⟨hfree, hafter⟩ := hm
      refine ⟨a ++ [x], ⟨?_, ?_⟩, hb.acquire x⟩
      · refine List.nodup_append.mpr ⟨h.nodup, List.nodup_singleton x, ?_⟩
        rintro y hy z hz rfl
        rw [List.mem_singleton.mp hz] at hy
        exact hfree ((h.mem x).mp hy)
      · intro r
        rw [hafter, ← h.mem, List.mem_append, List.mem_singleton]
    | released x =>
      obtain ⟨hheld, hafter⟩ := hm
      obtain ⟨b₁, b₂, rfl⟩ := List.append_of_mem ((h.mem x).mpr hheld)
      have hnodup := List.nodup_middle.mp h.nodup
      refine ⟨b₁ ++ b₂, ⟨(List.nodup_cons.mp hnodup).2, ?_⟩, hb.release⟩
      intro r
      rw [hafter, ← h.mem, List.perm_middle.mem_iff, List.mem_cons]
      constructor
      · intro hr
        refine ⟨.inr hr, ?_⟩
        rintro rfl
        exact (List.nodup_cons.mp hnodup).1 hr
      · rintro ⟨rfl | hr, hne⟩
        · exact absurd rfl hne
        · exact hr

/-- A system whose events say what they acquire and release keeps its books: at any time what was
acquired is what was released and what is held. -/
theorem history_balanced {σ β : Type*} {M : Transition.Lts σ β} (entry : β → Option (Entry α))
    (Held : σ → α → Prop) (init : ∀ s, M.Init s → ∀ r, ¬ Held s r)
    (step : ∀ s b t, M.Step s b t → Moves (Held s) (Held t) (entry b)) {bs : List β} {s : σ}
    (h : M.History bs s) : ∃ l, Lists l (Held s) ∧ Balanced [] (bs.filterMap entry) l := by
  refine h.induction
    (P := fun bs s => ∃ l, Lists l (Held s) ∧ Balanced [] (bs.filterMap entry) l) ?_ ?_
  · intro s hi
    refine ⟨[], ⟨List.nodup_nil, ?_⟩, balanced_nil []⟩
    exact fun r => iff_of_false List.not_mem_nil (init s hi r)
  · rintro bs s b t _ ⟨l, hl, hb⟩ hs
    obtain ⟨l', hl', hb'⟩ := hl.moves hb (step s b t hs)
    refine ⟨l', hl', ?_⟩
    rw [List.filterMap_append]
    cases hentry : entry b <;> rw [hentry] at hb' <;>
      simpa [hentry] using hb'

/-- Once nothing is held, each resource has been released as often as it was acquired. -/
theorem Balanced.settled {held : α → Prop} (h : Balanced [] xs a) (hl : Lists a held)
    (hnone : ∀ r, ¬ held r) : (acquired xs).Perm (released xs) := by
  have hempty : a = [] := List.eq_nil_iff_forall_not_mem.mpr fun r hr => hnone r ((hl.mem r).mp hr)
  subst hempty
  simpa [Balanced] using h

end Ledger
