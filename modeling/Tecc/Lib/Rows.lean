import Mathlib.Data.List.Basic
import Mathlib.Tactic.Ring

/-! Text laid out in rows: every `w` cells a new row begins with its own prefix. -/
namespace Rows

variable {α : Type*} {w j k c : Nat} {pre : Nat → List α} {cells : List (List α)} {cell : List α}

/-- The cells from number `j` on. -/
def layout (w : Nat) (pre : Nat → List α) : Nat → List (List α) → List α
  | _, [] => []
  | j, cell :: cells => (if j % w = 0 then pre j else []) ++ cell ++ layout w pre (j + 1) cells

/-- The cells of row `r`. -/
def cellsOf (w : Nat) (cells : List (List α)) (r : Nat) : List (List α) :=
  (cells.drop (w * r)).take w

def count (w : Nat) (cells : List (List α)) : Nat := (cells.length + w - 1) / w

/-- Inside a row nothing but the cells is written. -/
theorem layout_inside (m : Nat) (h : ∀ i < m, (j + i) % w ≠ 0) :
    layout w pre j cells = (cells.take m).flatten ++ layout w pre (j + m) (cells.drop m) := by
  induction m generalizing j cells with
  | zero => simp
  | succ m ih =>
    cases cells with
    | nil => simp [layout]
    | cons cell cells =>
      have hne : ¬ j % w = 0 := h 0 (by omega)
      have hrest : ∀ i < m, (j + 1 + i) % w ≠ 0 := by
        intro i hi
        rw [Nat.add_right_comm]
        exact h (i + 1) (by omega)
      rw [layout, if_neg hne, ih hrest]
      simp [Nat.add_comm, Nat.add_left_comm]

theorem layout_row (hw : 0 < w) (h : w * k < cells.length) :
    layout w pre (w * k) (cells.drop (w * k)) =
      pre (w * k) ++ (cellsOf w cells k).flatten ++
        layout w pre (w * (k + 1)) (cells.drop (w * (k + 1))) := by
  obtain ⟨v, rfl⟩ : ∃ v, w = v + 1 := ⟨w - 1, by omega⟩
  have hin : ∀ i < v, ((v + 1) * k + 1 + i) % (v + 1) ≠ 0 := by
    intro i hi
    rw [Nat.add_assoc, Nat.mul_add_mod, Nat.mod_eq_of_lt (by omega)]
    omega
  have hcells := List.drop_eq_getElem_cons h
  rw [cellsOf, hcells, layout, if_pos (Nat.mul_mod_right _ _), layout_inside v hin,
    List.take_succ_cons, List.flatten_cons, List.drop_drop,
    show (v + 1) * (k + 1) = (v + 1) * k + 1 + v by ring]
  simp

theorem layout_from (hw : 0 < w) (m : Nat) (h : k + m = count w cells) :
    layout w pre (w * k) (cells.drop (w * k)) =
      (List.range' k m).flatMap fun r => pre (w * r) ++ (cellsOf w cells r).flatten := by
  have hcount : cells.length ≤ w * count w cells ∧
      (∀ r, r < count w cells → w * r < cells.length) := by
    unfold count
    have hdiv := Nat.div_add_mod (cells.length + w - 1) w
    have hmod := Nat.mod_lt (cells.length + w - 1) hw
    refine ⟨by omega, fun r hr => ?_⟩
    have hle := Nat.mul_le_mul_left w (show r + 1 ≤ (cells.length + w - 1) / w from hr)
    rw [Nat.mul_succ] at hle
    omega
  induction m generalizing k with
  | zero =>
    rw [List.drop_eq_nil_of_le (by rw [show k = count w cells by omega]; exact hcount.1)]
    rfl
  | succ m ih =>
    rw [layout_row hw (hcount.2 k (by omega)), ih (by omega), List.range'_succ, List.flatMap_cons]

/-- A layout is its rows. -/
theorem layout_rows (hw : 0 < w) : layout w pre 0 cells =
    (List.range (count w cells)).flatMap fun r => pre (w * r) ++ (cellsOf w cells r).flatten := by
  rw [List.range_eq_range', ← layout_from hw _ (Nat.zero_add _)]
  rfl

/-- In cells of one width, a cell stands at its column. -/
theorem take_drop_flatten {v : Nat} (hcells : ∀ cell ∈ cells, cell.length = v)
    (h : cells[c]? = some cell) (rest : List α) :
    ((cells.flatten ++ rest).drop (v * c)).take v = cell := by
  induction c generalizing cells with
  | zero =>
    cases cells with
    | nil => cases h
    | cons first cells =>
      cases h
      have hlen := hcells cell List.mem_cons_self
      simp [← hlen]
  | succ c ih =>
    cases cells with
    | nil => cases h
    | cons first cells =>
      have hlen := hcells first List.mem_cons_self
      rw [List.flatten_cons, List.append_assoc, List.drop_append, hlen,
        List.drop_eq_nil_of_le (by rw [hlen, Nat.mul_succ]; omega),
        show v * (c + 1) - v = v * c by rw [Nat.mul_succ]; omega]
      exact ih (fun cell hcell => hcells cell (List.mem_cons_of_mem _ hcell)) h

/-- Lines whose end is marked before the separator, the last one excepted. -/
def closed (mark : α) (first : List α) : List (List α) → List (List α)
  | [] => [first]
  | line :: lines => (first ++ [mark]) :: closed mark line lines

variable {first : List α} {lines : List (List α)} {mark sep : α}

theorem splitOn_closed [BEq α] [LawfulBEq α] (hmark : mark ≠ sep) (hfirst : sep ∉ first)
    (hlines : ∀ line ∈ lines, sep ∉ line) :
    (first ++ lines.flatMap fun line => mark :: sep :: line).splitOn sep =
      closed mark first lines := by
  induction lines generalizing first with
  | nil => simp [closed, List.splitOn_eq_singleton hfirst]
  | cons line lines ih =>
    have hend : sep ∉ first ++ [mark] := by simp [hfirst, Ne.symm hmark]
    have hshape : (first ++ (line :: lines).flatMap fun line => mark :: sep :: line) =
        (first ++ [mark]) ++ sep :: (line ++ lines.flatMap fun line => mark :: sep :: line) := by
      simp
    rw [hshape, List.splitOn_append_cons_self_of_not_mem hend, closed,
      ih (hlines line List.mem_cons_self) (fun l hl => hlines l (List.mem_cons_of_mem _ hl))]

/-- Behind a line stands at most the mark. -/
theorem closed_tail (mark : α) (first : List α) (lines : List (List α)) :
    ∃ ends : List (List α), ends.length = lines.length ∧
      (closed mark first lines).tail = List.zipWith (· ++ ·) lines ends := by
  induction lines generalizing first with
  | nil => exact ⟨[], rfl, rfl⟩
  | cons line lines ih =>
    obtain ⟨ends, hlen, htail⟩ := ih line
    cases lines with
    | nil => exact ⟨[[]], rfl, by simp [closed]⟩
    | cons next lines =>
      refine ⟨[mark] :: ends, by simp [hlen], ?_⟩
      rw [closed, List.tail_cons, List.zipWith_cons_cons, ← htail]
      rfl

end Rows
