import Tecc.Signal
import Tecc.Time

/-! One timed wait of tecc_signal.c, with any number of threads that set the signal. The clock does
not go back, and a timed wait on the condition variable rejects a time that is not normalised. -/
namespace Tecc.SignalTimed

open Machine Time Transition

def EINVAL : Int := 22
def ETIMEDOUT : Int := 110

/-- Where the caller stands in `TecSignal_wait_for`. -/
inductive Pc where
  | load
  | now
  | lock (ts : timespec)
  /-- The test of the loop. -/
  | check (ts : timespec)
  | timedwait (ts : timespec)
  /-- In `TecCV_timedwait`, which has released the mutex. -/
  | asleep (ts : timespec)
  /-- About to take the mutex again, inside of `TecCV_timedwait`. -/
  | woken (ts : timespec)
  | expired (ts : timespec)
  | unlock (err : Int)
  | ret (err : Int)
  | done
deriving DecidableEq

structure State (T : Type*) where
  signal : Signal.State T
  clock : Int
  pc : Pc

inductive Event (T : Type*) where
  | set (e : Signal.Event T)
  | tick
  | load
  | now
  | lock (err : Int)
  | timedwait
  | wake
  | expire
  | relock
  /-- The wait that timed out has the mutex again. -/
  | relock_expired
  | unlock
  | returns (err : Int)

variable {T : Type*}

def State.setPC (s : State T) (pc : Pc) : State T := { s with pc := pc }

def State.setMtx (s : State T) (mtx : Bool) : State T :=
  { s with signal := { s.signal with mtx := mtx } }

/-- A broadcast wakes the caller as well. -/
def Pc.notified : Signal.Event T → Pc → Pc
  | .broadcast _ err, .asleep ts => if err = 0 then .woken ts else .asleep ts
  | _, pc => pc

/-- The call with the given `timeout`, for which `tec_tp_now` returns `now`: 0 when the time cannot
be read. `LockErr` are the errors of the mutex. -/
inductive Step [DecidableEq T] (LockErr : Int → Prop) (timeout now : Int) :
    State T → Event T → State T → Prop
  | set {s : State T} {e : Signal.Event T} {signal : Signal.State T} (t : T)
      (h : Signal.SetStep t s.signal e signal) :
      Step LockErr timeout now s (.set e) { s with signal := signal, pc := s.pc.notified e }
  | tick {s : State T} {clock : Int} (hc : s.clock ≤ clock) :
      Step LockErr timeout now s .tick { s with clock := clock }
  | load {s : State T} (ht : s.pc = .load) : Step LockErr timeout now s .load
      (s.setPC (if s.signal.value = 1 then .ret 0 else .now))
  | now {s : State T} (ht : s.pc = .now) (hn : now = 0 ∨ s.clock = now) :
      Step LockErr timeout now s .now
        (s.setPC (if now = 0 then .ret EINVAL
          else .lock (tec_tp_to_ts (toLong (now + timeout)))))
  | lock {s : State T} {ts : timespec} (ht : s.pc = .lock ts) (hm : s.signal.mtx = false) :
      Step LockErr timeout now s (.lock 0) ((s.setPC (.check ts)).setMtx true)
  /-- The mutex is unlocked and the error returned. -/
  | lock_failed {s : State T} {ts : timespec} {err : Int} (ht : s.pc = .lock ts) (herr : err ≠ 0)
      (hl : LockErr err) : Step LockErr timeout now s (.lock err) (s.setPC (.unlock err))
  | check {s : State T} {ts : timespec} (ht : s.pc = .check ts) :
      Step LockErr timeout now s .load
        (s.setPC (if s.signal.value = 1 then .unlock 0 else .timedwait ts))
  | reject {s : State T} {ts : timespec} (ht : s.pc = .timedwait ts) (hn : ¬ ts.Normalised) :
      Step LockErr timeout now s .timedwait (s.setPC (.unlock EINVAL))
  | sleep {s : State T} {ts : timespec} (ht : s.pc = .timedwait ts) (hn : ts.Normalised) :
      Step LockErr timeout now s .timedwait ((s.setPC (.asleep ts)).setMtx false)
  /-- A wakeup that no broadcast caused. -/
  | wake {s : State T} {ts : timespec} (ht : s.pc = .asleep ts) :
      Step LockErr timeout now s .wake (s.setPC (.woken ts))
  | expire {s : State T} {ts : timespec} (ht : s.pc = .asleep ts) (hc : ts.value ≤ s.clock) :
      Step LockErr timeout now s .expire (s.setPC (.expired ts))
  | relock {s : State T} {ts : timespec} (ht : s.pc = .woken ts) (hm : s.signal.mtx = false) :
      Step LockErr timeout now s .relock ((s.setPC (.check ts)).setMtx true)
  /-- The error leaves the loop before the value is looked at again. -/
  | relock_expired {s : State T} {ts : timespec} (ht : s.pc = .expired ts)
      (hm : s.signal.mtx = false) :
      Step LockErr timeout now s .relock_expired ((s.setPC (.unlock ETIMEDOUT)).setMtx true)
  | unlock {s : State T} {err : Int} (ht : s.pc = .unlock err) :
      Step LockErr timeout now s .unlock ((s.setPC (.ret err)).setMtx false)
  | returns {s : State T} {err : Int} (ht : s.pc = .ret err) :
      Step LockErr timeout now s (.returns err) (s.setPC .done)

/-- A call is about to begin, at any time, on a signal that is not set. -/
def timedLts (T : Type*) [DecidableEq T] (LockErr : Int → Prop) (timeout now : Int) :
    Lts (State T) (Event T) where
  Init s := s.signal = Signal.TecSignal_init T ∧ s.pc = .load
  Step := Step LockErr timeout now

/-- Some call of `TecSignal_set` has stored 1. -/
def Stored (xs : List (Event T)) : Prop := ∃ t, .set (.store t) ∈ xs

/-- The wait has timed out and has its mutex back, or the call is over. -/
def Pc.Late (pc : Pc) : Prop := pc = .unlock ETIMEDOUT ∨ pc = .ret ETIMEDOUT ∨ pc = .done

section Events

variable {xs ys : List (Event T)} {e : Signal.Event T} {pc pc' : Pc}

/-- A broadcast moves a sleeping caller only. -/
theorem notified_of_ne (hne : ∀ ts, pc ≠ .asleep ts) : pc.notified e = pc := by
  cases e with
  | broadcast t err =>
    cases pc with
    | asleep ts => exact absurd rfl (hne ts)
    | _ => rfl
  | _ => rfl

theorem of_notified (h : pc.notified e = pc') (hne : ∀ ts, pc' ≠ .woken ts) : pc = pc' := by
  subst h
  cases pc with
  | asleep ts =>
    cases e with
    | broadcast t err =>
      by_cases herr : err = 0
      · exact absurd (if_pos herr) (hne ts)
      · exact (if_neg herr).symm
    | _ => rfl
  | _ => exact (notified_of_ne (by simp)).symm

theorem stored_append : Stored (xs ++ ys) ↔ Stored xs ∨ Stored ys := by
  constructor
  · rintro ⟨t, ht⟩
    rcases List.mem_append.mp ht with ht | ht
    · exact .inl ⟨t, ht⟩
    · exact .inr ⟨t, ht⟩
  · rintro (⟨t, ht⟩ | ⟨t, ht⟩)
    · exact ⟨t, List.mem_append_left _ ht⟩
    · exact ⟨t, List.mem_append_right _ ht⟩

end Events

variable [DecidableEq T] {LockErr : Int → Prop} {timeout now : Int} {s s' u : State T}
  {e : Event T} {xs ys zs : List (Event T)} {pc : Pc} {err : Int}

/-- The call returns 0 only if the value is 1, and a timeout only if the value was not 1 at some
moment after the wait had timed out and had taken the mutex again. -/
def NotMissed (LockErr : Int → Prop) (timeout now : Int) (xs : List (Event T)) (s : State T)
    (err : Int) : Prop :=
  (err = 0 → s.signal.value = 1) ∧
    (err = ETIMEDOUT → ∃ ys zs u, xs = ys ++ zs ∧ .relock_expired ∈ ys ∧
      (timedLts T LockErr timeout now).History ys u ∧
      (timedLts T LockErr timeout now).Run u zs s ∧ u.signal.value ≠ 1)

theorem set_step_value {signal signal' : Signal.State T} {e : Signal.Event T} {t : T}
    (h : Signal.SetStep t signal e signal') :
    signal'.value = 1 ↔ signal.value = 1 ∨ ∃ u, e = .store u := by
  cases h with
  | store ht => exact iff_of_true rfl (.inr ⟨t, rfl⟩)
  | _ =>
    constructor
    · exact .inl
    · rintro (hv | ⟨_, he⟩)
      · exact hv
      · cases he

theorem step_value (h : Step LockErr timeout now s e s') :
    s'.signal.value = 1 ↔ s.signal.value = 1 ∨ Stored [e] := by
  cases h with
  | set t h =>
    rw [set_step_value h]
    simp [Stored, eq_comm]
  | _ =>
    constructor
    · exact .inl
    · rintro (hv | ⟨_, he⟩)
      · exact hv
      · simp at he

/-- The value is 1 exactly after a store. -/
theorem value_iff_stored (h : (timedLts T LockErr timeout now).History xs s) :
    s.signal.value = 1 ↔ Stored xs := by
  refine h.induction (P := fun xs s => s.signal.value = 1 ↔ Stored xs) ?_ ?_
  · rintro s ⟨hsignal, _⟩
    rw [hsignal]
    exact iff_of_false Int.zero_ne_one (by rintro ⟨_, ht⟩; cases ht)
  · intro xs s e s' _ ih hs
    rw [step_value hs, ih, stored_append]

/-- A result 0 has seen the value 1. -/
theorem zero_step (h : Step LockErr timeout now s e s')
    (hz : s.pc = .unlock 0 ∨ s.pc = .ret 0 → s.signal.value = 1)
    (hz' : s'.pc = .unlock 0 ∨ s'.pc = .ret 0) : s'.signal.value = 1 := by
  refine (step_value h).mpr (.inl ?_)
  cases h with
  | set t h =>
    exact hz (hz'.imp (of_notified · (by simp)) (of_notified · (by simp)))
  | tick hc => exact hz hz'
  | load ht | check ht =>
    by_contra hv
    simp only [State.setPC, if_neg hv] at hz'
    rcases hz' with hz' | hz' <;> cases hz'
  | now ht hn =>
    simp only [State.setPC] at hz'
    split at hz' <;> rcases hz' with hz' | hz' <;> cases hz'
  | lock_failed ht herr hl =>
    rcases hz' with hz' | hz'
    · exact absurd (Pc.unlock.inj hz') herr
    · cases hz'
  | unlock ht =>
    rcases hz' with hz' | hz'
    · cases hz'
    · exact hz (.inl (ht.trans (congrArg Pc.unlock (Pc.ret.inj hz'))))
  | _ => rcases hz' with hz' | hz' <;> cases hz'

theorem zero_value (h : (timedLts T LockErr timeout now).History xs s)
    (hz : s.pc = .unlock 0 ∨ s.pc = .ret 0) : s.signal.value = 1 := by
  revert hz
  refine Lts.Reachable.invariant (P := fun s => s.pc = .unlock 0 ∨ s.pc = .ret 0 →
    s.signal.value = 1) h.reachable ?_ ?_
  · rintro s ⟨_, hload⟩ hz
    rw [hload] at hz
    rcases hz with hz | hz <;> cases hz
  · exact fun s e s' hz hs hz' => zero_step hs hz hz'

/-- Only the wait that timed out returns the timeout. -/
theorem timeout_step (hE : ¬ LockErr ETIMEDOUT) (h : Step LockErr timeout now s e s')
    (hpc : s'.pc = .unlock ETIMEDOUT ∨ s'.pc = .ret ETIMEDOUT) :
    (s.pc = .unlock ETIMEDOUT ∨ s.pc = .ret ETIMEDOUT) ∨ e = .relock_expired := by
  cases h with
  | set t h =>
    exact .inl (hpc.imp (of_notified · (by simp)) (of_notified · (by simp)))
  | tick hc => exact .inl hpc
  | load ht | check ht | now ht =>
    simp only [State.setPC] at hpc
    split at hpc <;> rcases hpc with hpc | hpc <;> cases hpc
  | lock_failed ht herr hl =>
    rcases hpc with hpc | hpc
    · cases hpc
      exact absurd hl hE
    · cases hpc
  | unlock ht =>
    rcases hpc with hpc | hpc
    · cases hpc
    · exact .inl (.inl (ht.trans (congrArg Pc.unlock (Pc.ret.inj hpc))))
  | relock_expired ht hm => exact .inr rfl
  | _ => rcases hpc with hpc | hpc <;> cases hpc

theorem timeout_relocked (hE : ¬ LockErr ETIMEDOUT)
    (h : (timedLts T LockErr timeout now).History xs s)
    (hpc : s.pc = .unlock ETIMEDOUT ∨ s.pc = .ret ETIMEDOUT) : .relock_expired ∈ xs := by
  revert hpc
  refine h.induction (P := fun xs s => s.pc = .unlock ETIMEDOUT ∨ s.pc = .ret ETIMEDOUT →
    .relock_expired ∈ xs) ?_ ?_
  · rintro s ⟨_, hload⟩ hpc
    rw [hload] at hpc
    rcases hpc with hpc | hpc <;> cases hpc
  · intro xs s e s' _ ih hs hpc
    rcases timeout_step hE hs hpc with hold | rfl
    · exact List.mem_append_left _ (ih hold)
    · exact List.mem_concat_self

/-- The wait that timed out takes its mutex again once, and then it only returns. -/
theorem late_step (h : Step LockErr timeout now s e s') (hlate : s.pc.Late) :
    s'.pc.Late ∧ e ≠ .relock_expired := by
  cases h with
  | set t h =>
    refine ⟨?_, by simp⟩
    have hawake : ∀ ts, s.pc ≠ .asleep ts := by
      intro ts hts
      rw [hts] at hlate
      rcases hlate with hpc | hpc | hpc <;> cases hpc
    dsimp only
    rwa [notified_of_ne hawake]
  | tick hc => exact ⟨hlate, by simp⟩
  | unlock ht =>
    rcases hlate with hpc | hpc | hpc
    · cases hpc.symm.trans ht
      exact ⟨.inr (.inl rfl), by simp⟩
    · cases hpc.symm.trans ht
    · cases hpc.symm.trans ht
  | returns ht => exact ⟨.inr (.inr rfl), by simp⟩
  | _ ht =>
    rw [ht] at hlate
    rcases hlate with hpc | hpc | hpc <;> cases hpc

theorem late_of_relocked (h : (timedLts T LockErr timeout now).History xs s)
    (hx : .relock_expired ∈ xs) : s.pc.Late := by
  revert hx
  refine h.induction (P := fun xs s => .relock_expired ∈ xs → s.pc.Late) ?_ ?_
  · exact fun _ _ hx => absurd hx List.not_mem_nil
  · intro xs s e s' _ ih hs hx
    rcases List.mem_append.mp hx with hx | hx
    · exact (late_step hs (ih hx)).1
    · rw [List.mem_singleton] at hx
      subst hx
      cases hs
      exact .inl rfl

/-- There is one such event in a history. -/
theorem relocked_once
    (h : (timedLts T LockErr timeout now).History (xs ++ .relock_expired :: ys) s) :
    .relock_expired ∉ xs := by
  intro hx
  obtain ⟨t, u, ht, hs, _⟩ := h.step_at
  exact (late_step hs (late_of_relocked ht hx)).2 rfl

/-- A store before the wait that timed out has its mutex again is missed. -/
theorem missed_of_stored
    (h : (timedLts T LockErr timeout now).History (xs ++ .relock_expired :: ys) s)
    (hret : s.pc = .ret err) (hstored : Stored xs) :
    ¬ NotMissed LockErr timeout now (xs ++ .relock_expired :: ys) s err := by
  rintro ⟨_, htimeout⟩
  have hlate := late_of_relocked h (List.mem_append_right _ List.mem_cons_self)
  have herr : err = ETIMEDOUT := by
    rw [hret] at hlate
    rcases hlate with hpc | hpc | hpc
    · cases hpc
    · exact Pc.ret.inj hpc
    · cases hpc
  obtain ⟨xs', zs, u, hsplit, hmem, hu, _, hvalue⟩ := htimeout herr
  obtain ⟨as, bs, rfl⟩ := List.append_of_mem hmem
  rw [List.append_assoc, List.cons_append] at hsplit
  have hfirst := relocked_once h
  rw [hsplit] at h
  rw [split_unique hsplit hfirst (relocked_once h)] at hstored
  exact hvalue ((value_iff_stored hu).mpr (stored_append.mpr (.inl hstored)))

/-- The call tells a set from a timeout exactly when no store precedes the moment at which the wait
that timed out takes its mutex again. -/
theorem timed_wait_not_missed (LockErr : Int → Prop) (timeout now : Int)
    (hE : ¬ LockErr ETIMEDOUT) (xs : List (Event T)) (s : State T) (err : Int)
    (h : (timedLts T LockErr timeout now).History xs s) (hret : s.pc = .ret err) :
    NotMissed LockErr timeout now xs s err ↔
      ∀ ys zs, xs = ys ++ .relock_expired :: zs → ¬ Stored ys := by
  constructor
  · rintro hnot ys zs rfl hstored
    exact missed_of_stored h hret hstored hnot
  · intro hcond
    refine ⟨fun hz => zero_value h (.inr (hz ▸ hret)), ?_⟩
    rintro rfl
    obtain ⟨ys, zs, rfl⟩ := List.append_of_mem (timeout_relocked hE h (.inr hret))
    obtain ⟨t, u, ht, hs, hrun⟩ := h.step_at
    have hunset := mt (value_iff_stored ht).mp (hcond ys zs rfl)
    refine ⟨ys ++ [.relock_expired], zs, u, by simp, List.mem_concat_self, ht.snoc hs, hrun, ?_⟩
    rw [ne_eq, step_value hs]
    rintro (hv | ⟨_, hv⟩)
    · exact hunset hv
    · simp at hv

/-- The caller sleeps from second 1 to second 2, when its wait times out. -/
theorem expired_history : ∃ (xs : List (Event Nat)) (clock : Int),
    (timedLts Nat (fun _ => False) 1000000000 1000000000).History xs
      ⟨Signal.TecSignal_init Nat, clock, .expired ⟨2, 0⟩⟩ := by
  let M := timedLts Nat (fun _ => False) 1000000000 1000000000
  have h0 : M.History [] ⟨Signal.TecSignal_init Nat, 1000000000, .load⟩ := .init ⟨rfl, rfl⟩
  have h1 := h0.snoc (Step.load rfl)
  have h2 := h1.snoc (Step.now rfl (.inr rfl))
  have h3 := h2.snoc (@Step.lock _ _ _ _ _ _ ⟨2, 0⟩ rfl rfl)
  have h4 := h3.snoc (Step.check rfl)
  have h5 := h4.snoc (@Step.sleep _ _ _ _ _ _ ⟨2, 0⟩ rfl (by decide))
  have h6 := h5.snoc (@Step.tick _ _ _ _ _ _ 2000000000 (by decide))
  have h7 := h6.snoc (@Step.expire _ _ _ _ _ _ ⟨2, 0⟩ rfl (by decide))
  exact ⟨_, _, h7⟩

/-- A set stores 1 when the wait that has timed out has its mutex again, and the timeout is
returned. -/
theorem timed_wait_not_missed_unset : ∃ (xs : List (Event Nat)) (s : State Nat),
    (timedLts Nat (fun _ => False) 1000000000 1000000000).History xs s ∧ Stored xs ∧
      s.pc = .ret ETIMEDOUT ∧
      NotMissed (fun _ => False) 1000000000 1000000000 xs s ETIMEDOUT := by
  obtain ⟨xs, clock, h⟩ := expired_history
  have h1 := h.snoc (Step.relock_expired rfl rfl)
  have h2 := h1.snoc (Step.set 0 (.set rfl))
  have h3 := h2.snoc (Step.set 0 (.store rfl))
  have h4 := h3.snoc (@Step.unlock _ _ _ _ _ _ ETIMEDOUT rfl)
  refine ⟨_, _, h4, (value_iff_stored h4).mp rfl, rfl,
    (timed_wait_not_missed _ _ _ id _ _ ETIMEDOUT h4 rfl).mpr ?_⟩
  intro ys zs hsplit
  rw [List.append_assoc, List.append_assoc, List.append_assoc] at h4 hsplit
  have honce := relocked_once h4
  rw [hsplit] at h4
  rw [← split_unique hsplit honce (relocked_once h4), ← value_iff_stored h]
  exact Int.zero_ne_one

/-- A set stores 1 after the wait has timed out and before it has its mutex again. -/
theorem timed_wait_misses_set : ¬ ∀ (LockErr : Int → Prop) (timeout now : Int),
    ¬ LockErr ETIMEDOUT → ∀ (xs : List (Event Nat)) (s : State Nat) (err : Int),
    (timedLts Nat LockErr timeout now).History xs s → s.pc = .ret err →
    NotMissed LockErr timeout now xs s err := by
  intro hclaim
  obtain ⟨xs, clock, h⟩ := expired_history
  have h1 := h.snoc (Step.set 0 (.set rfl))
  have h2 := h1.snoc (Step.set 0 (.store rfl))
  have h3 := h2.snoc (Step.relock_expired rfl rfl)
  have h4 := h3.snoc (@Step.unlock _ _ _ _ _ _ ETIMEDOUT rfl)
  have hnot := hclaim _ _ _ id _ _ ETIMEDOUT h4 rfl
  rw [List.append_assoc] at h4 hnot
  exact missed_of_stored h4 rfl ⟨0, List.mem_concat_self⟩ hnot

end Tecc.SignalTimed
