import Mathlib.Logic.Basic

/-! Sequential objects: operations that return a result or fault, run in sequence, and
their simulation by a total specification. -/
namespace Object

section Fallible

variable {ε : Type*} {α β : Type}

/-- A computation that does not fault goes on with its result. -/
theorem ok_bind (a : α) (f : α → Except ε β) : (Except.ok a >>= f) = f a := rfl

/-- A computation that returns has not faulted on the way. -/
theorem bind_ok {x : Except ε α} {f : α → Except ε β} {r : β} (h : (x >>= f) = .ok r) :
    ∃ a, x = .ok a ∧ f a = .ok r := by
  cases x with
  | error e => cases h
  | ok a => exact ⟨a, rfl, h⟩

end Fallible

variable {σ τ ι ο ε : Type*}

/-- Runs the operations in order, stopping at the first fault. -/
def run (step : σ → ι → Except ε (σ × ο)) : σ → List ι → Except ε (σ × List ο)
  | s, [] => .ok (s, [])
  | s, i :: is =>
    match step s i with
    | .error e => .error e
    | .ok (s', o) =>
      match run step s' is with
      | .error e => .error e
      | .ok (s'', os) => .ok (s'', o :: os)

/-- The outputs and the final state of a specification, which never faults. -/
def specRun (spec : τ → ι → τ × ο) : τ → List ι → τ × List ο
  | t, [] => (t, [])
  | t, i :: is =>
    let r := specRun spec (spec t i).1 is
    (r.1, (spec t i).2 :: r.2)

/-- Every operation meets the condition `C` on the state it is called in. -/
def Allowed (step : σ → ι → Except ε (σ × ο)) (C : σ → ι → Prop) : σ → List ι → Prop
  | _, [] => True
  | s, i :: is => C s i ∧ ∀ s' o, step s i = .ok (s', o) → Allowed step C s' is

/-- The same along the states of the specification. -/
def SpecAllowed (spec : τ → ι → τ × ο) (C : τ → ι → Prop) : τ → List ι → Prop
  | _, [] => True
  | t, i :: is => C t i ∧ SpecAllowed spec C (spec t i).1 is

variable {step : σ → ι → Except ε (σ × ο)} {spec : τ → ι → τ × ο}
  {C : σ → ι → Prop} {D : τ → ι → Prop} {I : σ → Prop} {R : σ → τ → Prop}

@[simp] theorem run_nil (s : σ) : run step s [] = .ok (s, []) := rfl

theorem run_cons_ok {s s' s'' : σ} {i : ι} {is : List ι} {o : ο} {os : List ο}
    (h : step s i = .ok (s', o)) (k : run step s' is = .ok (s'', os)) :
    run step s (i :: is) = .ok (s'', o :: os) := by
  simp [run, h, k]

/-- Forward simulation: related states stay related and give the same outputs, so the run
returns exactly what the specification returns. `C` and `D` are what the caller promises
about the concrete and the specified state. -/
theorem run_simulation
    (hstep : ∀ s t i, R s t → C s i → D t i →
      ∃ s', step s i = .ok (s', (spec t i).2) ∧ R s' (spec t i).1)
    {is : List ι} : ∀ {s : σ} {t : τ}, R s t → Allowed step C s is → SpecAllowed spec D t is →
      ∃ s', run step s is = .ok (s', (specRun spec t is).2) ∧ R s' (specRun spec t is).1 := by
  induction is with
  | nil =>
    intro s t hR _ _
    exact ⟨s, rfl, hR⟩
  | cons i is ih =>
    intro s t hR hC hD
    obtain ⟨s', ho, hR'⟩ := hstep s t i hR hC.1 hD.1
    obtain ⟨s'', hos, hR''⟩ := ih hR' (hC.2 s' _ ho) hD.2
    exact ⟨s'', run_cons_ok ho hos, hR''⟩

instance [∀ s i, Decidable (C s i)] (s : σ) (is : List ι) : Decidable (Allowed step C s is) :=
  allowedDecidable s is
where
  allowedDecidable : ∀ (s : σ) (is : List ι), Decidable (Allowed step C s is)
    | _, [] => .isTrue trivial
    | s, i :: is =>
      match h : step s i with
      | .error e => decidable_of_iff (C s i) (by simp [Allowed, h])
      | .ok (s', o) =>
        have := allowedDecidable s' is
        decidable_of_iff (C s i ∧ Allowed step C s' is) (by simp [Allowed, h])

theorem allowed_of_forall (h : ∀ s i, C s i) (is : List ι) (s : σ) : Allowed step C s is := by
  induction is generalizing s with
  | nil => trivial
  | cons i is ih => exact ⟨h s i, fun s' _ _ => ih s'⟩

theorem specAllowed_of_forall (h : ∀ t i, D t i) (is : List ι) (t : τ) :
    SpecAllowed spec D t is := by
  induction is generalizing t with
  | nil => trivial
  | cons i is ih => exact ⟨h t i, ih _⟩

/-- Two conditions that agree wherever the invariant `I` holds allow the same sequences. -/
theorem allowed_congr {C' : σ → ι → Prop} {E : ι → Prop}
    (hstep : ∀ s i s' o, I s → E i → step s i = .ok (s', o) → I s')
    (hiff : ∀ s i, I s → E i → (C s i ↔ C' s i)) {is : List ι} :
    ∀ {s : σ}, I s → (∀ i ∈ is, E i) → (Allowed step C s is ↔ Allowed step C' s is) := by
  induction is with
  | nil =>
    intro s _ _
    exact Iff.rfl
  | cons i is ih =>
    intro s hs hE
    have hi := hE i List.mem_cons_self
    have hrest : ∀ s' o, step s i = .ok (s', o) →
        (Allowed step C s' is ↔ Allowed step C' s' is) := by
      intro s' o ho
      exact ih (hstep s i s' o hs hi ho) (fun j hj => hE j (List.mem_cons_of_mem i hj))
    constructor
    · rintro ⟨hC, hA⟩
      exact ⟨(hiff s i hs hi).mp hC, fun s' o ho => (hrest s' o ho).mp (hA s' o ho)⟩
    · rintro ⟨hC, hA⟩
      exact ⟨(hiff s i hs hi).mpr hC, fun s' o ho => (hrest s' o ho).mpr (hA s' o ho)⟩

theorem specRun_append (spec : τ → ι → τ × ο) (t : τ) (is js : List ι) :
    (specRun spec t (is ++ js)).2 =
      (specRun spec t is).2 ++ (specRun spec (specRun spec t is).1 js).2 := by
  induction is generalizing t with
  | nil => rfl
  | cons i is ih => simp only [List.cons_append, specRun, ih]

theorem specRun_length (spec : τ → ι → τ × ο) (t : τ) (is : List ι) :
    (specRun spec t is).2.length = is.length := by
  induction is generalizing t with
  | nil => rfl
  | cons i is ih => simp only [specRun, List.length_cons, ih]

theorem specAllowed_append {is js : List ι} : ∀ {t : τ},
    SpecAllowed spec D t (is ++ js) ↔
      SpecAllowed spec D t is ∧ SpecAllowed spec D (specRun spec t is).1 js := by
  induction is with
  | nil =>
    intro t
    simp [SpecAllowed, specRun]
  | cons i is ih =>
    intro t
    simp only [List.cons_append, SpecAllowed, specRun, ih, and_assoc]

end Object
