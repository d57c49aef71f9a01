import Mathlib.Data.List.Nodup

/-! Labelled transition systems, their finite histories, and the induction rules over them. -/
namespace Transition

/-- A labelled transition system together with its initial states. -/
structure Lts (σ α : Type*) where
  Init : σ → Prop
  Step : σ → α → σ → Prop

variable {σ α : Type*} {M : Lts σ α} {s t u : σ} {xs ys : List α} {a : α}

/-- A finite run, extended at its end: the labels are listed oldest first. -/
inductive Lts.Run (M : Lts σ α) : σ → List α → σ → Prop
  | refl {s : σ} : Run M s [] s
  | snoc {s t u : σ} {xs : List α} {a : α} :
      Run M s xs t → M.Step t a u → Run M s (xs ++ [a]) u

/-- `s` is reached from an initial state by the events `xs`. -/
def Lts.History (M : Lts σ α) (xs : List α) (s : σ) : Prop :=
  ∃ s₀, M.Init s₀ ∧ M.Run s₀ xs s

def Lts.Reachable (M : Lts σ α) (s : σ) : Prop := ∃ xs, M.History xs s

/-- The runs of `M` in which every step meets the condition `C` on the state before it. -/
def Lts.restrict (M : Lts σ α) (C : σ → α → Prop) : Lts σ α where
  Init := M.Init
  Step s a t := C s a ∧ M.Step s a t

theorem Lts.Run.trans (h : M.Run s xs t) (k : M.Run t ys u) : M.Run s (xs ++ ys) u := by
  induction k with
  | refl => simpa using h
  | snoc _ hstep ih => simpa [List.append_assoc] using Lts.Run.snoc ih hstep

theorem Lts.Run.single (h : M.Step s a t) : M.Run s [a] t := by
  simpa using Lts.Run.snoc Lts.Run.refl h

theorem Lts.Run.cons (h : M.Step s a t) (k : M.Run t xs u) : M.Run s (a :: xs) u := by
  simpa using (Lts.Run.single h).trans k

theorem Lts.History.init (h : M.Init s) : M.History [] s := ⟨s, h, .refl⟩

theorem Lts.History.snoc (h : M.History xs s) (k : M.Step s a t) : M.History (xs ++ [a]) t := by
  obtain ⟨s₀, hi, hr⟩ := h
  exact ⟨s₀, hi, hr.snoc k⟩

theorem Lts.History.snoc_restrict {C : σ → α → Prop} (h : (M.restrict C).History xs s)
    (k : M.Step s a t) (hC : C s a) : (M.restrict C).History (xs ++ [a]) t := h.snoc ⟨hC, k⟩

theorem Lts.Run.snoc_restrict {C : σ → α → Prop} (h : (M.restrict C).Run s xs t)
    (k : M.Step t a u) (hC : C t a) : (M.restrict C).Run s (xs ++ [a]) u := h.snoc ⟨hC, k⟩

theorem Lts.History.run (h : M.History xs s) (k : M.Run s ys t) : M.History (xs ++ ys) t := by
  obtain ⟨s₀, hi, hr⟩ := h
  exact ⟨s₀, hi, hr.trans k⟩

/-- The run that has not begun yet, from the end of a history. -/
theorem Lts.History.here (_ : M.History xs s) : M.Run s [] s := .refl

theorem Lts.History.reachable (h : M.History xs s) : M.Reachable s := ⟨xs, h⟩

/-- History induction: each event may use whatever held of the history before it. -/
theorem Lts.History.induction {P : List α → σ → Prop} (h : M.History xs s)
    (init : ∀ s, M.Init s → P [] s)
    (step : ∀ xs s a t, M.History xs s → P xs s → M.Step s a t → P (xs ++ [a]) t) :
    P xs s := by
  obtain ⟨s₀, hi, hr⟩ := h
  induction hr with
  | refl => exact init _ hi
  | snoc hr hstep ih => exact step _ _ _ _ ⟨s₀, hi, hr⟩ ih hstep

/-- The invariant rule: what holds initially and is kept by every step holds of every
reachable state. -/
theorem Lts.Reachable.invariant {P : σ → Prop} (h : M.Reachable s)
    (init : ∀ s, M.Init s → P s) (step : ∀ s a t, P s → M.Step s a t → P t) : P s := by
  obtain ⟨xs, hx⟩ := h
  exact hx.induction (P := fun _ s => P s) init (fun _ s a t _ hp hs => step s a t hp hs)

/-- A property kept by every step is kept along every run. -/
theorem Lts.Run.stable {P : σ → Prop} (h : M.Run s xs t)
    (step : ∀ s a t, P s → M.Step s a t → P t) (hs : P s) : P t := by
  induction h with
  | refl => exact hs
  | snoc _ hstep ih => exact step _ _ _ ih hstep

theorem Lts.Run.split {zs : List α} (h : M.Run s zs u) :
    ∀ {xs ys : List α}, zs = xs ++ ys → ∃ t, M.Run s xs t ∧ M.Run t ys u := by
  induction h with
  | refl =>
    intro xs ys hzs
    obtain ⟨rfl, rfl⟩ := List.append_eq_nil_iff.mp hzs.symm
    exact ⟨_, .refl, .refl⟩
  | @snoc _ u _ a hr hstep ih =>
    intro xs ys hzs
    rcases List.eq_nil_or_concat ys with rfl | ⟨ys', b, rfl⟩
    · rw [List.append_nil] at hzs
      exact ⟨_, hzs ▸ hr.snoc hstep, .refl⟩
    · rw [List.concat_eq_append, ← List.append_assoc] at hzs
      obtain ⟨hinit, hlast⟩ := List.append_inj' hzs rfl
      obtain ⟨t, hxs, hys⟩ := ih hinit
      cases hlast
      exact ⟨t, hxs, List.concat_eq_append ▸ hys.snoc hstep⟩

/-- The step of an event in the middle of a run. -/
theorem Lts.Run.step_at (h : M.Run s (xs ++ a :: ys) u) :
    ∃ t t', M.Run s xs t ∧ M.Step t a t' ∧ M.Run t' ys u := by
  obtain ⟨t, hxs, hrun⟩ := h.split rfl
  obtain ⟨t', hsingle, hys⟩ := hrun.split (show a :: ys = [a] ++ ys from rfl)
  generalize hlist : [a] = l at hsingle
  cases hsingle with
  | refl => cases hlist
  | snoc hr hstep =>
    obtain ⟨hnil, ha⟩ := List.append_inj' (hlist.symm.trans (List.nil_append [a]).symm) rfl
    subst hnil
    cases ha
    generalize hempty : [] = l' at hr
    cases hr with
    | refl => exact ⟨_, t', hxs, hstep, hys⟩
    | snoc _ _ => exact absurd hempty (by simp)

/-- The step of an event in the middle of a history. -/
theorem Lts.History.step_at (h : M.History (xs ++ a :: ys) s) :
    ∃ t u, M.History xs t ∧ M.Step t a u ∧ M.Run u ys s := by
  obtain ⟨s₀, hi, hr⟩ := h
  obtain ⟨t, u, hxs, hstep, hys⟩ := hr.step_at
  exact ⟨t, u, ⟨s₀, hi, hxs⟩, hstep, hys⟩

/-- An event that marks its key for good, and needs it unmarked, comes once for each key. -/
theorem Lts.History.once {κ : Type*} (key : α → Option κ) (Marked : σ → κ → Prop)
    (step : ∀ xs s a t, M.History xs s → M.Step s a t →
      (∀ k, Marked s k → Marked t k) ∧ ∀ k, key a = some k → ¬ Marked s k ∧ Marked t k)
    (h : M.History xs s) :
    (xs.filterMap key).Nodup ∧ ∀ k ∈ xs.filterMap key, Marked s k := by
  refine h.induction (P := fun xs s => (xs.filterMap key).Nodup ∧
    ∀ k ∈ xs.filterMap key, Marked s k) ?_ ?_
  · intro s _
    exact ⟨List.nodup_nil, fun k hk => by cases hk⟩
  · rintro xs s a t hhist ⟨hnodup, hmarked⟩ hs
    obtain ⟨hkept, hnew⟩ := step xs s a t hhist hs
    rw [List.filterMap_append]
    cases ha : key a with
    | none =>
      rw [List.filterMap_cons_none ha, List.filterMap_nil, List.append_nil]
      exact ⟨hnodup, fun k hk => hkept k (hmarked k hk)⟩
    | some k =>
      obtain ⟨hunmarked, hk⟩ := hnew k ha
      rw [List.filterMap_cons_some ha, List.filterMap_nil]
      refine ⟨List.nodup_append.mpr ⟨hnodup, List.nodup_singleton k, ?_⟩, ?_⟩
      · rintro k₁ hk₁ k₂ hk₂ rfl
        rw [List.mem_singleton.mp hk₂] at hk₁
        exact hunmarked (hmarked k hk₁)
      · intro k' hk'
        rcases List.mem_append.mp hk' with hk' | hk'
        · exact hkept k' (hmarked k' hk')
        · rw [List.mem_singleton.mp hk']
          exact hk

/-- Where each step is a step of `N` on a part of the state, or leaves that part alone, a history
is a history of `N`. -/
theorem Lts.History.project {τ β : Type*} {N : Lts τ β} (π : σ → τ) (label : α → Option β)
    (h : M.History xs s) (init : ∀ s, M.Init s → N.Init (π s))
    (step : ∀ s a t, M.Step s a t → label a = none ∧ π t = π s ∨
      ∃ b, label a = some b ∧ N.Step (π s) b (π t)) :
    N.History (xs.filterMap label) (π s) := by
  refine h.induction (P := fun xs s => N.History (xs.filterMap label) (π s)) ?_ ?_
  · exact fun s hi => .init (init s hi)
  · intro xs s a t _ ih hs
    rw [List.filterMap_append]
    rcases step s a t hs with ⟨hnone, hsame⟩ | ⟨b, hb, hstep⟩
    · rw [List.filterMap_cons_none hnone, List.filterMap_nil, List.append_nil, hsame]
      exact ih
    · rw [List.filterMap_cons_some hb, List.filterMap_nil]
      exact ih.snoc hstep

theorem Lts.Run.of_restrict {C : σ → α → Prop} (h : (M.restrict C).Run s xs t) :
    M.Run s xs t := by
  induction h with
  | refl => exact .refl
  | snoc _ hstep ih => exact ih.snoc hstep.2

theorem Lts.History.of_restrict {C : σ → α → Prop} (h : (M.restrict C).History xs s) :
    M.History xs s :=
  h.induction (fun _ hi => .init hi) (fun _ _ _ _ _ hp hs => hp.snoc hs.2)

theorem Lts.Reachable.of_restrict {C : σ → α → Prop} (h : (M.restrict C).Reachable s) :
    M.Reachable s := by
  obtain ⟨xs, hx⟩ := h
  exact ⟨xs, hx.of_restrict⟩

/-- Each event of a restricted history meets the condition where it is taken. -/
theorem Lts.History.restrict_mem {C : σ → α → Prop} (h : (M.restrict C).History xs s)
    (ha : a ∈ xs) : ∃ t, C t a := by
  obtain ⟨ys, zs, rfl⟩ := List.append_of_mem ha
  obtain ⟨t, _, _, hstep, _⟩ := h.step_at
  exact ⟨t, hstep.1⟩

/-- A history whose events all meet the condition, whatever the state is. -/
theorem Lts.History.restrict {C : σ → α → Prop} (h : M.History xs s)
    (hC : ∀ a ∈ xs, ∀ s, C s a) : (M.restrict C).History xs s := by
  revert hC
  refine h.induction (P := fun xs s => (∀ a ∈ xs, ∀ s, C s a) → (M.restrict C).History xs s) ?_ ?_
  · exact fun s hi _ => .init hi
  · intro xs s a t _ ih hs hC
    have hold := ih fun b hb => hC b (List.mem_append_left _ hb)
    exact hold.snoc_restrict hs (hC a List.mem_concat_self s)

/-- An event has one place at which it comes first. -/
theorem split_unique {xs' ys' : List α} (h : xs ++ a :: ys = xs' ++ a :: ys') (hx : a ∉ xs)
    (hx' : a ∉ xs') : xs = xs' := by
  induction xs generalizing xs' with
  | nil =>
    cases xs' with
    | nil => rfl
    | cons b xs' =>
      rw [(List.cons.inj h).1] at hx'
      exact absurd List.mem_cons_self hx'
  | cons b xs ih =>
    cases xs' with
    | nil =>
      rw [(List.cons.inj h).1] at hx
      exact absurd List.mem_cons_self hx
    | cons b' xs' =>
      obtain ⟨rfl, htail⟩ := List.cons.inj h
      rw [ih htail (mt (List.mem_cons_of_mem b) hx) (mt (List.mem_cons_of_mem b) hx')]

/-- `M` together with what `R` notes of each step, oldest first. -/
def Lts.record {β : Type*} (M : Lts σ α) (R : σ → α → σ → List β → Prop) :
    Lts (σ × List β) α where
  Init p := M.Init p.1 ∧ p.2 = []
  Step p a q := M.Step p.1 a q.1 ∧ ∃ l, R p.1 a q.1 l ∧ q.2 = p.2 ++ l

section Record

variable {β : Type*} {R : σ → α → σ → List β → Prop} {l : List β}

theorem Lts.History.of_record {p : σ × List β} (h : (M.record R).History xs p) :
    M.History xs p.1 :=
  h.induction (P := fun xs p => M.History xs p.1) (fun _ hi => .init hi.1)
    (fun _ _ _ _ _ hp hs => hp.snoc hs.1)

/-- Where something can be noted of each step, every history has its record. -/
theorem Lts.History.record (h : M.History xs s) (hR : ∀ s a t, M.Step s a t → ∃ l, R s a t l) :
    ∃ l, (M.record R).History xs (s, l) := by
  refine h.induction (P := fun xs s => ∃ l, (M.record R).History xs (s, l)) ?_ ?_
  · intro s hi
    exact ⟨[], .init ⟨hi, rfl⟩⟩
  · rintro xs s a t _ ⟨l, hl⟩ hs
    obtain ⟨l', hl'⟩ := hR s a t hs
    exact ⟨l ++ l', hl.snoc ⟨hs, l', hl', rfl⟩⟩

theorem Lts.History.snoc_record {l' : List β} (h : (M.record R).History xs (s, l))
    (k : M.Step s a t) (hR : R s a t l') : (M.record R).History (xs ++ [a]) (t, l ++ l') :=
  h.snoc ⟨k, l', hR, rfl⟩

end Record

end Transition
