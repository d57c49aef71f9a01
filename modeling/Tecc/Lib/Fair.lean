import Tecc.Lib.Progress
import Mathlib.Order.WellFounded

/-! Runs without end: weak fairness towards an actor, and what a fair run leads to. -/
namespace Transition

variable {σ α ι β : Type*} {M : Lts σ α} {A : σ → α → σ → Prop} {P Q R : σ → Prop} {s t : σ}
  {xs ys : List α} {a : α} {m n : ℕ}

/-- The state of each moment, and the event that comes next; `none` is a pause. -/
structure Execution (σ α : Type*) where
  state : ℕ → σ
  event : ℕ → Option α

variable {E : Execution σ α}

structure Lts.Valid (M : Lts σ α) (E : Execution σ α) : Prop where
  init : M.Init (E.state 0)
  pause : ∀ n, E.event n = none → E.state (n + 1) = E.state n
  step : ∀ n a, E.event n = some a → M.Step (E.state n) a (E.state (n + 1))

/-- An actor takes the next step. -/
def Execution.Takes (E : Execution σ α) (A : σ → α → σ → Prop) (n : ℕ) : Prop :=
  ∃ a, E.event n = some a ∧ A (E.state n) a (E.state (n + 1))

/-- An actor that can take a step from some moment on takes one. -/
def Execution.Fair (E : Execution σ α) (A : σ → α → σ → Prop) : Prop :=
  ∀ m, (∀ n, m ≤ n → ∃ a t, A (E.state n) a t) → ∃ n, m ≤ n ∧ E.Takes A n

/-- Whenever `P` holds, `Q` holds then or later. -/
def Execution.LeadsTo (E : Execution σ α) (P Q : σ → Prop) : Prop :=
  ∀ m, P (E.state m) → ∃ n, m ≤ n ∧ Q (E.state n)

/-- The events up to a moment. -/
def Execution.trace (E : Execution σ α) (n : ℕ) : List α := (List.range n).filterMap E.event

theorem Execution.mem_trace : a ∈ E.trace n ↔ ∃ k < n, E.event k = some a := by
  simp [Execution.trace]

theorem Lts.Valid.history (h : M.Valid E) (n : ℕ) : M.History (E.trace n) (E.state n) := by
  induction n with
  | zero => exact .init h.init
  | succ n ih =>
    have htrace : E.trace (n + 1) = E.trace n ++ (E.event n).toList := by
      unfold Execution.trace
      rw [List.range_succ, List.filterMap_append]
      cases he : E.event n <;> simp [he]
    cases he : E.event n with
    | none =>
      rw [htrace, he, h.pause n he]
      simpa using ih
    | some a =>
      rw [htrace, he]
      exact ih.snoc (h.step n a he)

theorem Lts.Valid.reachable (h : M.Valid E) (n : ℕ) : M.Reachable (E.state n) :=
  ⟨_, h.history n⟩

theorem Lts.Valid.restrict {C : σ → α → Prop} (h : M.Valid E)
    (hC : ∀ n a, E.event n = some a → C (E.state n) a) : (M.restrict C).Valid E :=
  ⟨h.init, h.pause, fun n a he => ⟨hC n a he, h.step n a he⟩⟩

theorem Lts.Valid.of_restrict {C : σ → α → Prop} (h : (M.restrict C).Valid E) : M.Valid E :=
  ⟨h.init, h.pause, fun n a he => (h.step n a he).2⟩

/-- What every step keeps stays from then on. -/
theorem Lts.Valid.stable (h : M.Valid E)
    (hstep : ∀ s a t, M.Reachable s → P s → M.Step s a t → P t) (hm : P (E.state m))
    (hmn : m ≤ n) : P (E.state n) := by
  induction n, hmn using Nat.le_induction with
  | base => exact hm
  | succ n hmn ih =>
    cases he : E.event n with
    | none => exact (h.pause n he).symm ▸ ih
    | some a => exact hstep _ a _ (h.reachable n) ih (h.step n a he)

/-- What waits for something that comes sooner or later is there when it comes. -/
theorem Lts.Valid.meets (h : M.Valid E)
    (hwaits : ∀ s a t, M.Reachable s → P s → ¬ Q s → M.Step s a t → P t)
    (hstays : ∀ s a t, M.Reachable s → Q s → M.Step s a t → Q t) (hm : P (E.state m))
    (hn : Q (E.state n)) : ∃ k, m ≤ k ∧ P (E.state k) ∧ Q (E.state k) := by
  by_contra hnever
  have hP : ∀ k, m ≤ k → P (E.state k) := by
    intro k hk
    induction k, hk using Nat.le_induction with
    | base => exact hm
    | succ k hk ih =>
      cases he : E.event k with
      | none => exact (h.pause k he).symm ▸ ih
      | some a =>
        refine hwaits _ a _ (h.reachable k) ih ?_ (h.step k a he)
        exact fun hQ => hnever ⟨k, hk, ih, hQ⟩
  exact hnever ⟨max m n, Nat.le_max_left m n, hP _ (Nat.le_max_left m n),
    h.stable hstays hn (Nat.le_max_right m n)⟩

/-- The actors that bring about `Q`: in each state one of them can step, and its step makes the
rank smaller, while the others leave the rank and the choice of the actor as they are. -/
structure Lts.Helpful (M : Lts σ α) (A : ι → σ → α → σ → Prop) (P Q : σ → Prop) [LT β]
    (rank : σ → β) (helpful : σ → ι) : Prop where
  enabled : ∀ s, M.Reachable s → P s → ¬ Q s → ∃ a t, A (helpful s) s a t
  step : ∀ s a t, M.Reachable s → P s → ¬ Q s → M.Step s a t →
    Q t ∨ P t ∧ (rank t < rank s ∨ rank t = rank s ∧ helpful t = helpful s)
  actor : ∀ s a t, M.Reachable s → P s → ¬ Q s → A (helpful s) s a t → Q t ∨ rank t < rank s

/-- The rule of helpful actors. While the rank stays, one actor is helpful and can step, so that
fairness makes it step; the induction is on the rank. -/
theorem Lts.Helpful.leadsTo {A : ι → σ → α → σ → Prop} [LT β] [WellFoundedLT β] {rank : σ → β}
    {helpful : σ → ι} (h : M.Helpful A P Q rank helpful) (hE : M.Valid E)
    (hfair : ∀ s, P s → E.Fair (A (helpful s))) : E.LeadsTo P Q := by
  have hdrop : ∀ r : β, ∀ m, rank (E.state m) = r → P (E.state m) →
      ∃ n, m ≤ n ∧ Q (E.state n) := by
    intro r
    induction r using WellFoundedLT.induction with
    | _ r ih =>
      intro m hr hm
      by_contra hnever
      have hno : ∀ n, m ≤ n → ¬ Q (E.state n) := fun n hmn hn => hnever ⟨n, hmn, hn⟩
      have hlower : ∀ n, m ≤ n → P (E.state n) → ¬ rank (E.state n) < r := by
        intro n hmn hn hlt
        obtain ⟨k, hnk, hk⟩ := ih _ hlt n rfl hn
        exact hno k (Nat.le_trans hmn hnk) hk
      have hstays : ∀ n, m ≤ n → P (E.state n) ∧ rank (E.state n) = r ∧
          helpful (E.state n) = helpful (E.state m) := by
        intro n hmn
        induction n, hmn using Nat.le_induction with
        | base => exact ⟨hm, hr, rfl⟩
        | succ n hmn ih =>
          obtain ⟨hP, hrank, hsame⟩ := ih
          cases he : E.event n with
          | none =>
            rw [hE.pause n he]
            exact ⟨hP, hrank, hsame⟩
          | some a =>
            obtain ⟨hPt, hcases⟩ := (h.step _ a _ (hE.reachable n) hP (hno n hmn)
              (hE.step n a he)).resolve_left (hno (n + 1) (Nat.le_succ_of_le hmn))
            rcases hcases with hlt | ⟨hkept, hactor⟩
            · exact absurd (hrank ▸ hlt) (hlower (n + 1) (Nat.le_succ_of_le hmn) hPt)
            · exact ⟨hPt, hkept.trans hrank, hactor.trans hsame⟩
      obtain ⟨n, hmn, a, he, hA⟩ := hfair (E.state m) hm m (fun n hmn => by
        obtain ⟨hP, _, hsame⟩ := hstays n hmn
        rw [← hsame]
        exact h.enabled _ (hE.reachable n) hP (hno n hmn))
      obtain ⟨hP, hrank, hsame⟩ := hstays n hmn
      rw [← hsame] at hA
      have hlt := (h.actor _ a _ (hE.reachable n) hP (hno n hmn) hA).resolve_left
        (hno (n + 1) (Nat.le_succ_of_le hmn))
      exact hlower (n + 1) (Nat.le_succ_of_le hmn) (hstays _ (Nat.le_succ_of_le hmn)).1
        (hrank ▸ hlt)
  exact fun m hm => hdrop _ m rfl hm

/-- The rule of one helpful actor, whose events are known. -/
theorem Lts.Ranking.leadsTo {C : α → Bool} {rank : σ → ℕ} (h : M.Ranking C Q P rank)
    (hE : M.Valid E) (hfair : E.Fair A) (henabled : ∀ s, P s → ¬ Q s → ∃ a t, A s a t)
    (hstep : ∀ s a t, A s a t → M.Step s a t ∧ C a = true) : E.LeadsTo P Q := by
  have hhelpful : M.Helpful (fun _ : Unit => A) P Q rank fun _ => () := by
    refine ⟨fun s _ hP hQ => henabled s hP hQ, fun s a t _ hP hQ hs => ?_,
      fun s a t _ hP hQ hA => ?_⟩
    · cases ha : C a with
      | true => exact (h.actor s a t hP hQ hs ha).imp id fun hlt => ⟨hlt.1, .inl hlt.2⟩
      | false =>
        refine (h.other s a t hP hQ hs ha).imp id fun hle => ⟨hle.1, ?_⟩
        exact (Nat.lt_or_eq_of_le hle.2).imp id fun heq => ⟨heq, rfl⟩
    · obtain ⟨hs, ha⟩ := hstep s a t hA
      exact (h.actor s a t hP hQ hs ha).imp id And.right
  exact hhelpful.leadsTo hE fun _ _ => hfair

/-- The event that a helpful actor is waited for: it comes while the actor is the only one to leave
the state of affairs `P`. -/
theorem Lts.Valid.takes (hE : M.Valid E) (hfair : E.Fair A)
    (henabled : ∀ s, M.Reachable s → P s → ∃ a t, A s a t)
    (hstep : ∀ s a t, M.Reachable s → P s → M.Step s a t → P t ∨ A s a t) (hm : P (E.state m)) :
    ∃ n, m ≤ n ∧ P (E.state n) ∧ E.Takes A n := by
  by_contra hnever
  have hno : ∀ n, m ≤ n → P (E.state n) → ¬ E.Takes A n :=
    fun n hmn hn htakes => hnever ⟨n, hmn, hn, htakes⟩
  have hstays : ∀ n, m ≤ n → P (E.state n) := by
    intro n hmn
    induction n, hmn using Nat.le_induction with
    | base => exact hm
    | succ n hmn ih =>
      cases he : E.event n with
      | none => exact (hE.pause n he).symm ▸ ih
      | some a =>
        refine (hstep _ a _ (hE.reachable n) ih (hE.step n a he)).resolve_right ?_
        exact fun hA => hno n hmn ih ⟨a, he, hA⟩
  obtain ⟨n, hmn, htakes⟩ :=
    hfair m (fun n hmn => henabled _ (hE.reachable n) (hstays n hmn))
  exact hno n hmn (hstays n hmn) htakes

/-! Executions seen from outside -/

/-- Fairness only looks at the states that are reached. -/
theorem Execution.Fair.congr {B : σ → α → σ → Prop} (h : E.Fair A)
    (hAB : ∀ n a t, A (E.state n) a t ↔ B (E.state n) a t) : E.Fair B := by
  intro m hm
  obtain ⟨n, hn, a, he, hA⟩ := h m fun k hk => by
    obtain ⟨a, t, hB⟩ := hm k hk
    exact ⟨a, t, (hAB k a t).mpr hB⟩
  exact ⟨n, hn, a, he, (hAB n a _).mp hA⟩

section View

variable {τ γ : Type*} {N : Lts τ γ} {B : τ → γ → τ → Prop} {f : σ → τ} {g : α → Option γ}

/-- What an execution shows of another system: a step that does not show there is a pause. -/
def Execution.view (E : Execution σ α) (f : σ → τ) (g : α → Option γ) : Execution τ γ :=
  ⟨fun n => f (E.state n), fun n => (E.event n).bind g⟩

theorem Lts.Valid.view (hE : M.Valid E) (hinit : ∀ s, M.Init s → N.Init (f s))
    (hstep : ∀ n a, E.event n = some a →
      (∃ b, g a = some b ∧ N.Step (f (E.state n)) b (f (E.state (n + 1)))) ∨
        g a = none ∧ f (E.state (n + 1)) = f (E.state n)) : N.Valid (E.view f g) := by
  refine ⟨hinit _ hE.init, fun n hn => ?_, fun n b hb => ?_⟩
  · cases he : E.event n with
    | none => exact congrArg f (hE.pause n he)
    | some a =>
      rcases hstep n a he with ⟨b, hb, _⟩ | ⟨_, hsame⟩
      · cases hn.symm.trans ((congrArg (Option.bind · g) he).trans hb)
      · exact hsame
  · obtain ⟨a, he, hab⟩ := Option.bind_eq_some_iff.mp hb
    rcases hstep n a he with ⟨b', hb', hs⟩ | ⟨hnone, _⟩
    · cases hab.symm.trans hb'
      exact hs
    · cases hab.symm.trans hnone

/-- An actor whose steps show is treated fairly there, when it can step where it shows that it
can. It is enough that this holds from some moment on. -/
theorem Execution.Fair.view (h : E.Fair A) (m : ℕ)
    (henabled : ∀ n, m ≤ n → (∃ b t, B (f (E.state n)) b t) → ∃ a t, A (E.state n) a t)
    (hshow : ∀ n a, E.event n = some a → A (E.state n) a (E.state (n + 1)) →
      ∃ b, g a = some b ∧ B (f (E.state n)) b (f (E.state (n + 1)))) : (E.view f g).Fair B := by
  intro k hk
  obtain ⟨n, hn, a, he, hA⟩ := h (max m k) fun n hn =>
    henabled n (Nat.le_trans (Nat.le_max_left m k) hn)
      (hk n (Nat.le_trans (Nat.le_max_right m k) hn))
  obtain ⟨b, hb, hB⟩ := hshow n a he hA
  exact ⟨n, Nat.le_trans (Nat.le_max_right m k) hn, b, (congrArg (Option.bind · g) he).trans hb, hB⟩

end View

/-! Finite runs -/

/-- Nothing happens any more. -/
def Execution.Ends (E : Execution σ α) (n : ℕ) (s : σ) : Prop :=
  ∀ k, n ≤ k → E.state k = s ∧ E.event k = none

/-- A run is appended where nothing happens any more. -/
theorem Lts.Valid.extend (hE : M.Valid E) (hends : E.Ends ys.length s)
    (hevent : ∀ k, E.event k = ys[k]?) (h : M.Run s xs t) :
    ∃ F : Execution σ α, M.Valid F ∧ F.Ends (ys ++ xs).length t ∧
      (∀ k, F.event k = (ys ++ xs)[k]?) ∧ ∀ k ≤ ys.length, F.state k = E.state k := by
  induction h with
  | refl =>
    rw [List.append_nil]
    exact ⟨E, hE, hends, hevent, fun _ _ => rfl⟩
  | @snoc t u xs a _ hstep ih =>
    obtain ⟨F, hF, hFends, hFevent, hsame⟩ := ih
    rw [← List.append_assoc]
    generalize hzs : ys ++ xs = zs at *
    have hle : ys.length ≤ zs.length := by
      rw [← hzs, List.length_append]
      exact Nat.le_add_right _ _
    -- the last step leaves the execution as it was up to `t`
    refine ⟨⟨fun k => if k ≤ zs.length then F.state k else u, fun k => (zs ++ [a])[k]?⟩,
      ⟨by simpa using hF.init, ?_, ?_⟩, ?_, fun _ => rfl, ?_⟩
    · intro k hk
      have hlast : zs.length < k := by
        simpa [Nat.succ_le_iff] using List.getElem?_eq_none_iff.mp hk
      simp [Nat.not_le_of_lt hlast, Nat.not_le_of_lt (Nat.lt_succ_of_lt hlast)]
    · intro k b hk
      rcases Nat.lt_trichotomy k zs.length with hlt | rfl | hgt
      · have hold : F.event k = some b :=
          (hFevent k).trans ((List.getElem?_append_left hlt).symm.trans hk)
        simpa [Nat.le_of_lt hlt, Nat.succ_le_of_lt hlt] using hF.step k b hold
      · obtain rfl : a = b := by simpa using hk
        simpa [(hFends _ (Nat.le_refl _)).1, Nat.not_succ_le_self] using hstep
      · have hnone : (zs ++ [a])[k]? = none :=
          List.getElem?_eq_none (by simpa [Nat.succ_le_iff] using hgt)
        cases hnone.symm.trans hk
    · intro k hk
      have hlast : zs.length < k := by simpa [Nat.succ_le_iff] using hk
      exact ⟨if_neg (Nat.not_le_of_lt hlast), List.getElem?_eq_none hk⟩
    · intro k hk
      exact (if_pos (Nat.le_trans hk hle)).trans (hsame k hk)

/-- A history and a run from its end as an execution, which passes the state between them. -/
theorem Lts.History.execution (h : M.History ys s) (hrun : M.Run s xs t) :
    ∃ E : Execution σ α, M.Valid E ∧ E.Ends (ys ++ xs).length t ∧
      (∀ k, E.event k = (ys ++ xs)[k]?) ∧ E.state ys.length = s := by
  obtain ⟨s₀, hi, hstart⟩ := h
  have hpause : M.Valid ⟨fun _ => s₀, fun _ => none⟩ := ⟨hi, fun _ _ => rfl, nofun⟩
  have hends : Execution.Ends (⟨fun _ => s₀, fun _ => none⟩ : Execution σ α) ([] : List α).length
      s₀ := fun _ _ => ⟨rfl, rfl⟩
  obtain ⟨E, hE, hends, hevent, _⟩ := hpause.extend hends (fun _ => rfl) hstart
  obtain ⟨F, hF, hFends, hFevent, hsame⟩ := hE.extend hends hevent hrun
  exact ⟨F, hF, hFends, hFevent, (hsame _ (Nat.le_refl _)).trans (hends _ (Nat.le_refl _)).1⟩

/-- An execution may end where the actor cannot step. -/
theorem Execution.Ends.fair (h : E.Ends n s) (hA : ∀ a t, ¬ A s a t) : E.Fair A := by
  intro m hm
  obtain ⟨a, t, hstep⟩ := hm (max m n) (Nat.le_max_left m n)
  rw [(h _ (Nat.le_max_right m n)).1] at hstep
  exact absurd hstep (hA a t)

end Transition
