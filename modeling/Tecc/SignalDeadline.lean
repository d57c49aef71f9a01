import Tecc.SignalTimed

/-! The deadline of a timed wait: a 64-bit sum, split into seconds and nanoseconds. -/
namespace Tecc.SignalTimed

open Machine Time Transition

variable {T : Type*} [DecidableEq T] {LockErr : Int → Prop} {timeout now : Int} {s s' : State T}
  {e : Event T}

/-- The time that a wait with this timeout shall not end before. -/
def end_time (timeout now : Int) : Int := min (now + timeout) 9223372036854775807

/-- The time handed to the condition variable is normalised and not too early, and no error is
returned before. -/
structure NotEarly (timeout now : Int) (s : State T) : Prop where
  deadline : ∀ ts, s.pc = .timedwait ts → ts.Normalised ∧ end_time timeout now ≤ ts.value
  returns : ∀ err, s.pc = .ret err → err ≠ 0 → end_time timeout now ≤ s.clock

/-- Where the caller stands when the sum fits: its deadline is exact, and it has been reached where
a timeout or another error is on its way. -/
def Pc.Sound (timeout now clock : Int) : Pc → Prop
  | .load | .now | .done => True
  | .lock ts | .check ts | .timedwait ts | .asleep ts | .woken ts =>
    now ≤ clock ∧ ts = tec_tp_to_ts (now + timeout)
  | .expired _ => now + timeout ≤ clock
  | .unlock err | .ret err => err ≠ 0 → now + timeout ≤ clock

omit [DecidableEq T] in
theorem notified_sound {clock : Int} {pc : Pc} (e : Signal.Event T)
    (h : pc.Sound timeout now clock) : (pc.notified e).Sound timeout now clock := by
  cases pc with
  | asleep ts =>
    cases e with
    | broadcast t err =>
      by_cases herr : err = 0
      · rw [show (Pc.asleep ts).notified (.broadcast t err) = .woken ts from if_pos herr]
        exact h
      · rw [show (Pc.asleep ts).notified (.broadcast t err) = .asleep ts from if_neg herr]
        exact h
    | _ => exact h
  | _ => rwa [notified_of_ne (by simp)]

theorem sound_later {clock clock' : Int} {pc : Pc} (h : pc.Sound timeout now clock)
    (hc : clock ≤ clock') : pc.Sound timeout now clock' := by
  cases pc with
  | load | now | done => trivial
  | expired ts => exact Int.le_trans h hc
  | unlock err | ret err => exact fun hne => Int.le_trans (h hne) hc
  | _ => exact ⟨Int.le_trans h.1 hc, h.2⟩

theorem sound_step (hnow : 0 < now) (ht : 0 ≤ timeout) (hrange : TimePoint (now + timeout))
    (hlock : timeout = 0 ∨ ∀ err, LockErr err → err = 0)
    (h : Step LockErr timeout now s e s') (hi : s.pc.Sound timeout now s.clock) :
    s'.pc.Sound timeout now s'.clock := by
  cases h with
  | set t h => exact notified_sound _ hi
  | tick hc => exact sound_later hi hc
  | load ht =>
    by_cases hv : s.signal.value = 1
    · simp [State.setPC, hv, Pc.Sound]
    · simp [State.setPC, hv, Pc.Sound]
  | now ht hn =>
    simp only [State.setPC, if_neg (show now ≠ 0 by omega), Pc.Sound]
    rw [toLong_of_bounds hrange.1 hrange.2]
    exact ⟨by omega, rfl⟩
  | lock ht hm | sleep ht hn | wake ht | relock ht hm =>
    rw [ht] at hi
    exact hi
  | lock_failed ht herr hl =>
    rw [ht] at hi
    intro _
    rcases hlock with hzero | hnone
    · have := hi.1
      simp only [State.setPC]
      omega
    · exact absurd (hnone _ hl) herr
  | check ht =>
    rw [ht] at hi
    by_cases hv : s.signal.value = 1
    · simp [State.setPC, hv, Pc.Sound]
    · simpa [State.setPC, hv, Pc.Sound] using hi
  | reject ht hn =>
    rw [ht] at hi
    rw [hi.2] at hn
    exact absurd (normalised_of_nonneg hrange (by omega)) hn
  | expire ht hc =>
    rw [ht] at hi
    rw [hi.2, value_tec_tp_to_ts hrange] at hc
    exact hc
  | relock_expired ht hm =>
    rw [ht] at hi
    exact fun _ => hi
  | unlock ht =>
    rw [ht] at hi
    exact hi
  | returns ht => trivial

theorem sound_reachable (hnow : 0 < now) (ht : 0 ≤ timeout) (hrange : TimePoint (now + timeout))
    (hlock : timeout = 0 ∨ ∀ err, LockErr err → err = 0)
    (h : (timedLts T LockErr timeout now).Reachable s) : s.pc.Sound timeout now s.clock := by
  refine h.invariant (P := fun s => s.pc.Sound timeout now s.clock) ?_ ?_
  · rintro s ⟨_, hload⟩
    rw [hload]
    trivial
  · exact fun s e s' hi hs => sound_step hnow ht hrange hlock hs hi

omit [DecidableEq T] in
theorem not_early_of_sound (hnow : 0 < now) (ht : 0 ≤ timeout) (hrange : TimePoint (now + timeout))
    (h : s.pc.Sound timeout now s.clock) : NotEarly timeout now s := by
  have hend : end_time timeout now ≤ now + timeout := Int.min_le_left _ _
  refine ⟨fun ts hpc => ?_, fun err hpc hne => ?_⟩
  · rw [hpc] at h
    rw [h.2, value_tec_tp_to_ts hrange]
    exact ⟨normalised_of_nonneg hrange (by omega), hend⟩
  · rw [hpc] at h
    exact Int.le_trans hend (h hne)

/-- The caller is about to lock the mutex. -/
theorem locking_history (T : Type*) [DecidableEq T] (LockErr : Int → Prop) (timeout : Int)
    (hnow : 0 < now) : ∃ xs, (timedLts T LockErr timeout now).History xs
      ⟨Signal.TecSignal_init T, now, .lock (tec_tp_to_ts (toLong (now + timeout)))⟩ := by
  have h0 : (timedLts T LockErr timeout now).History []
      ⟨Signal.TecSignal_init T, now, .load⟩ := .init ⟨rfl, rfl⟩
  have h1 := h0.snoc (Step.load rfl)
  have h2 := h1.snoc (Step.now rfl (.inr rfl))
  simp only [State.setPC, if_neg (show now ≠ 0 by omega)] at h2
  exact ⟨_, h2⟩

/-- A sum that does not fit is negative. -/
theorem wrapped_early (hfit : 9223372036854775807 < now + timeout)
    (hbound : now + timeout < 18446744073709551616) :
    ¬ end_time timeout now ≤ (tec_tp_to_ts (toLong (now + timeout))).value := by
  rw [value_tec_tp_to_ts (toLong_bounds _)]
  unfold end_time toLong
  omega

/-- A timed wait does not end early exactly when the sum of the current time and the timeout fits,
and no mutex error cuts a timeout short. -/
theorem deadline_exact (T : Type*) [DecidableEq T] (LockErr : Int → Prop) (timeout now : Int)
    (hnow : 0 < now) (hnow' : now < 9223372036854775808) (ht : 0 ≤ timeout)
    (ht' : timeout < 9223372036854775808) :
    (∀ s, (timedLts T LockErr timeout now).Reachable s → NotEarly timeout now s) ↔
      now + timeout < 9223372036854775808 ∧ (timeout = 0 ∨ ∀ err, LockErr err → err = 0) := by
  constructor
  · intro hearly
    obtain ⟨xs, h⟩ := locking_history T LockErr timeout hnow
    have hfit : now + timeout < 9223372036854775808 := by
      by_contra hwrap
      have h1 := h.snoc (Step.lock rfl rfl)
      have h2 := h1.snoc (Step.check rfl)
      exact wrapped_early (by omega) (by omega) ((hearly _ h2.reachable).deadline _ rfl).2
    refine ⟨hfit, ?_⟩
    by_contra hlock
    simp only [not_or, not_forall] at hlock
    obtain ⟨hpos, err, hl, herr⟩ := hlock
    have h1 := h.snoc (Step.lock_failed rfl herr hl)
    have h2 := h1.snoc (Step.unlock rfl)
    have hend := (hearly _ h2.reachable).returns err rfl herr
    have hmin : end_time timeout now = now + timeout := by
      unfold end_time
      omega
    rw [hmin] at hend
    simp only [State.setPC, State.setMtx] at hend
    omega
  · rintro ⟨hfit, hlock⟩ s hs
    have hrange : TimePoint (now + timeout) := ⟨by omega, hfit⟩
    exact not_early_of_sound hnow ht hrange (sound_reachable hnow ht hrange hlock hs)

/-- Five seconds, with a mutex that does not fail: the caller is about to wait until second 5 from
now. -/
theorem deadline_exact_five : ∃ s : State Nat, s.pc = .timedwait ⟨1700000005, 0⟩ ∧
    NotEarly 5000000000 1700000000000000000 s := by
  obtain ⟨xs, h⟩ := locking_history Nat (fun _ => False) 5000000000
    (show (0 : Int) < 1700000000000000000 by decide)
  have h1 := h.snoc (Step.lock rfl rfl)
  have h2 := h1.snoc (Step.check rfl)
  have hearly := (deadline_exact Nat (fun _ => False) 5000000000 1700000000000000000 (by decide)
    (by decide) (by decide) (by decide)).mpr ⟨by decide, .inr fun _ h => h.elim⟩ _ h2.reachable
  exact ⟨_, rfl, hearly⟩

/-- The largest timeout is over before it begins. -/
theorem deadline_wraps : ¬ ∀ timeout now : Int, 0 < now → now < 9223372036854775808 →
    0 ≤ timeout → timeout < 9223372036854775808 →
    ∀ s, (timedLts Nat (fun _ => False) timeout now).Reachable s → NotEarly timeout now s := by
  intro hclaim
  obtain ⟨xs, h⟩ := locking_history Nat (fun _ => False) 9223372036854775807
    (show (0 : Int) < 1700000000000000000 by decide)
  have h1 := h.snoc (Step.lock rfl rfl)
  have h2 := h1.snoc (Step.check rfl)
  have hearly := hclaim 9223372036854775807 1700000000000000000 (by decide) (by decide)
    (by decide) (by decide) _ h2.reachable
  exact wrapped_early (by decide) (by decide) (hearly.deadline _ rfl).2

end Tecc.SignalTimed
