import Tecc.WorkerLife

/-! Callbacks that use their own worker: `TecWorker_register` and `TecDaemon_send` from `on_init`,
`on_exit` and the handlers, next to callers of `TecWorker_register` outside. -/
namespace Tecc.Worker

open Map Transition

variable {Cb : Type} {cfg : Config}

/-- The position of a caller of `TecWorker_register_`. -/
inductive RegisterPc (Cb : Type) where
  | idle
  | lock (tag : String) (callback : Cb)
  | set (tag : String) (callback : Cb)
  | unlock

structure Reentry (Cb : Type) where
  life : Life Cb
  /-- The worker thread itself is the caller `none`. -/
  register : Option Nat → RegisterPc Cb

inductive ReentryEvent (Cb : Type) where
  | life (e : LifeEvent Cb)
  | register_called (i : Option Nat)
  | register (i : Option Nat)
  | send

/-- The worker thread is in `on_init`, in `on_exit` or in a handler. -/
def Life.InCallback (l : Life Cb) : Prop :=
  l.hook = true ∨ ∃ msg, l.worker.worker = .callback msg

/-- The steps of `TecWorker_register_`. -/
inductive RegisterStep (cfg : Config) :
    RegisterPc Cb → State Cb → RegisterPc Cb → State Cb → Prop
  | lock {s : State Cb} {tag : String} {callback : Cb} (hl : s.lock = false) :
      RegisterStep cfg (.lock tag callback) s (.set tag callback) { s with lock := true }
  | set {s : State Cb} {tag : String} {callback : Cb} {malloc : Map.Addr}
      {callbacks : TecMap String Cb} {old : Option Cb}
      (hfree : s.callbacks.heap malloc = none)
      (hset : TecMap_set cfg.hash_str s.callbacks tag (some callback) malloc =
        .ok (callbacks, old)) :
      RegisterStep cfg (.set tag callback) s .unlock { s with callbacks := callbacks }
  | unlock {s : State Cb} : RegisterStep cfg .unlock s .idle { s with lock := false }

def Reentry.setRegister (r : Reentry Cb) (i : Option Nat) (pc : RegisterPc Cb) : Reentry Cb :=
  { r with register := Function.update r.register i pc }

/-- While it is in `TecWorker_register_`, the worker thread does nothing else. -/
inductive ReentryStep (cfg : Config) : Reentry Cb → ReentryEvent Cb → Reentry Cb → Prop
  | worker {r : Reentry Cb} {e : LifeEvent Cb} {l : Life Cb}
      (hs : LifeWorkerStep cfg r.life e l) (hidle : r.register none = .idle) :
      ReentryStep cfg r (.life e) { r with life := l }
  | run {r : Reentry Cb} {e : LifeEvent Cb} {l : Life Cb} (hs : LifeRunStep r.life e l) :
      ReentryStep cfg r (.life e) { r with life := l }
  | terminate {r : Reentry Cb} {e : LifeEvent Cb} {l : Life Cb} (n : Nat)
      (hs : LifeTerminateStep n r.life e l) : ReentryStep cfg r (.life e) { r with life := l }
  | call {r : Reentry Cb} {e : Event Cb} {t : State Cb} (c : Nat)
      (hs : CallStep c r.life.worker e t) :
      ReentryStep cfg r (.life (.event e)) { r with life := { r.life with worker := t } }
  | send {r : Reentry Cb} {address : Nat} {tag : String} (htag : tag ≠ TecRPC_msg_) :
      ReentryStep cfg r (.life (.event (.push (some (.normal address tag)))))
        { r with life := { r.life with worker :=
          { r.life.worker with queue := r.life.worker.queue ++ [some (.normal address tag)] } } }
  | register_called {r : Reentry Cb} {tag : String} {callback : Cb} (n : Nat)
      (hidle : r.register (some n) = .idle) :
      ReentryStep cfg r (.register_called (some n)) (r.setRegister (some n) (.lock tag callback))
  | register {r : Reentry Cb} {pc : RegisterPc Cb} {t : State Cb} (i : Option Nat)
      (hs : RegisterStep cfg (r.register i) r.life.worker pc t) :
      ReentryStep cfg r (.register i)
        { r.setRegister i pc with life := { r.life with worker := t } }
  | nested_register {r : Reentry Cb} {tag : String} {callback : Cb} (hin : r.life.InCallback)
      (hidle : r.register none = .idle) :
      ReentryStep cfg r (.register_called none) (r.setRegister none (.lock tag callback))
  | nested_send {r : Reentry Cb} {address : Nat} {tag : String} (hin : r.life.InCallback)
      (hidle : r.register none = .idle) (htag : tag ≠ TecRPC_msg_) :
      ReentryStep cfg r .send
        { r with life := { r.life with worker :=
          { r.life.worker with queue := r.life.worker.queue ++ [some (.normal address tag)] } } }

def reentryLts (Cb : Type) (cfg : Config) : Lts (Reentry Cb) (ReentryEvent Cb) where
  Init r := LifeInitial cfg r.life ∧ ∀ i, r.register i = .idle
  Step := ReentryStep cfg

variable {r r' : Reentry Cb} {e : ReentryEvent Cb} {s t : State Cb} {n : Nat} {i : Option Nat}

/-- The caller has the lock of the worker. -/
def RegisterPc.Holds : RegisterPc Cb → Prop
  | .set _ _ | .unlock => True
  | _ => False

/-- Who has the lock: as before, or a caller of `TecWorker_register_`. -/
def Reentry.Holds (r : Reentry Cb) : Option Nat ⊕ Option Nat → Prop :=
  Sum.elim r.life.worker.Holds fun i => (r.register i).Holds

/-- What `i` waits for is not there yet: `sig_running` for the caller of `TecDaemon_run`,
`sig_terminated` for one of `TecDaemon_terminate`. -/
def State.Waits (s : State Cb) : Option Nat → Prop
  | none => s.run = .wait_running ∧ s.sig_running = false
  | some n => s.terminate n = .wait_terminated ∧ s.sig_terminated = false

/-- The one who waits for the worker thread has the lock that the worker thread waits for. -/
def Reentry.Circular (r : Reentry Cb) : Prop :=
  (∃ tag callback, r.register none = .lock tag callback) ∧
    ∃ i, r.life.worker.Holds i ∧ r.life.worker.Waits i

/-- The worker thread does not call `TecWorker_register` while `TecDaemon_run` waits for its
initialization or `TecDaemon_terminate` has the lock, and `TecDaemon_terminate` does not get the
lock while the worker thread waits for it. -/
def Apart (r : Reentry Cb) : ReentryEvent Cb → Prop
  | .register_called none =>
    (r.life.worker.run = .wait_running → r.life.worker.sig_running = true) ∧
      ∀ n, r.life.worker.terminate n ≠ .push ∧ r.life.worker.terminate n ≠ .wait_terminated
  | .life (.terminate_called _) => ∀ tag callback, r.register none ≠ .lock tag callback
  | _ => True

/-- A step is one of the worker alone, or one of a caller of `TecWorker_register_`, or a call that
leaves the worker as it is. -/
theorem reentry_step_cases (hs : ReentryStep cfg r e r') :
    (∃ b, Step cfg r.life.worker b r'.life.worker ∧ r'.register = r.register) ∨
      (∃ i pc, RegisterStep cfg (r.register i) r.life.worker pc r'.life.worker ∧
        r'.register = Function.update r.register i pc) ∨
      r'.life.worker = r.life.worker ∧
        (r'.register = r.register ∨ ∃ i tag callback, e = .register_called i ∧
          r'.register = Function.update r.register i (.lock tag callback)) := by
  cases hs with
  | worker hs hidle =>
    cases hs with
    | on_init hw hout hhook => exact .inr (.inr ⟨rfl, .inl rfl⟩)
    | on_exit hw hout hhook => exact .inr (.inr ⟨rfl, .inl rfl⟩)
    | step hs hin => exact .inl ⟨_, .worker hs, rfl⟩
  | run hs =>
    cases hs with
    | step hs => exact .inl ⟨_, .run hs, rfl⟩
  | terminate n hs =>
    cases hs with
    | step hs => exact .inl ⟨_, .terminate n hs, rfl⟩
  | call c hs => exact .inl ⟨_, .call c hs, rfl⟩
  | send htag => exact .inl ⟨_, .user (.send htag), rfl⟩
  | register_called n hidle => exact .inr (.inr ⟨rfl, .inr ⟨_, _, _, rfl, rfl⟩⟩)
  | register i hs => exact .inr (.inl ⟨i, _, hs, rfl⟩)
  | nested_register hin hidle => exact .inr (.inr ⟨rfl, .inr ⟨_, _, _, rfl, rfl⟩⟩)
  | nested_send hin hidle htag => exact .inl ⟨_, .user (.send htag), rfl⟩

theorem register_step_same {pc pc' : RegisterPc Cb} (hs : RegisterStep cfg pc s pc' t) :
    t.run = s.run ∧ t.terminate = s.terminate ∧ t.worker = s.worker ∧
      t.sig_running = s.sig_running ∧ t.sig_terminated = s.sig_terminated ∧ t.queue = s.queue ∧
      t.error = s.error := by
  cases hs <;> exact ⟨rfl, rfl, rfl, rfl, rfl, rfl, rfl⟩

theorem phaseInv_register_step {pc pc' : RegisterPc Cb} (hs : RegisterStep cfg pc s pc' t)
    (h : PhaseInv s) : PhaseInv t := by
  cases hs <;> exact ⟨h.created, h.started, h.failed, ⟨h.signal.running, h.signal.terminated,
    h.signal.loop⟩, h.seen, h.ended, h.asked⟩

theorem lock_register_step {pc : RegisterPc Cb}
    (hs : RegisterStep cfg (r.register i) s pc t) :
    Lock.Move (fun j => (r.register j).Holds)
      (fun j => (Function.update r.register i pc j).Holds) s.lock t.lock := by
  have hothers : ∀ j, j ≠ i → (Function.update r.register i pc j).Holds → (r.register j).Holds := by
    intro j hj hholds
    rw [Function.update_of_ne hj] at hholds
    exact hholds
  generalize hpc : r.register i = pc₀ at hs
  cases hs with
  | lock hl => exact .take i hothers hl rfl
  | set hfree hset =>
    refine .same ?_ rfl
    intro j hholds
    by_cases hj : j = i
    · rw [hj, hpc]
      trivial
    · exact hothers j hj hholds
  | unlock =>
    refine .release i ?_ ?_ hothers rfl
    · rw [hpc]
      trivial
    · rw [Function.update_self]
      exact id

/-- The lock is held by at most one of its users, and taken while it is held. -/
theorem reentry_lock_step (hs : ReentryStep cfg r e r')
    (h : Lock.Exclusive r.Holds r.life.worker.lock) :
    Lock.Exclusive r'.Holds r'.life.worker.lock := by
  refine h.move ?_
  rcases reentry_step_cases hs with ⟨b, hstep, hsame⟩ | ⟨i, pc, hreg, hupdate⟩ |
    ⟨hworker, hsame | ⟨i, tag, callback, _, hupdate⟩⟩
  · exact (lock_step hstep).inl fun k hk => by rw [hsame] at hk; exact hk
  · obtain ⟨hrun, hterminate, _⟩ := register_step_same hreg
    rw [Reentry.Holds, Reentry.Holds, hupdate]
    refine (lock_register_step hreg).inr ?_
    intro k hk
    cases k with
    | none => exact holds_run hrun hk
    | some n => exact holds_terminate (congrFun hterminate n) hk
  · rw [Reentry.Holds, Reentry.Holds, hworker, hsame]
    exact .same (fun _ => id) rfl
  · rw [Reentry.Holds, Reentry.Holds, hworker, hupdate]
    refine .same ?_ rfl
    rintro (k | k) hk
    · exact hk
    · by_cases hki : k = i
      · subst hki
        rw [Sum.elim_inr, Function.update_self] at hk
        exact hk.elim
      · rw [Sum.elim_inr, Function.update_of_ne hki] at hk
        exact hk

/-- What holds while callbacks use their own worker. -/
structure ReentryInv (r : Reentry Cb) : Prop where
  phase : PhaseInv r.life.worker
  lock : Lock.Exclusive r.Holds r.life.worker.lock
  hook : r.life.hook = true → r.life.worker.worker ≠ .absent
  nested : r.register none ≠ .idle → r.life.worker.worker ≠ .absent
  apart : ∀ tag callback, r.register none = .lock tag callback →
    (r.life.worker.run = .wait_running → r.life.worker.sig_running = true) ∧
      ∀ n, r.life.worker.terminate n ≠ .push ∧ r.life.worker.terminate n ≠ .wait_terminated

theorem step_present {b : Event Cb} (hs : Step cfg s b t) (h : s.worker ≠ .absent) :
    t.worker ≠ .absent := by
  rcases step_cases hs with hw | ⟨c, hc⟩ | hu
  · exact (move_present (worker_step_move hw)).2
  · rw [call_step_worker hc]
    exact h
  · rcases control_step_worker hu with hw | ⟨_, hw⟩
    · rw [hw]
      exact h
    · rw [hw]
      exact WorkerPc.noConfusion

theorem reentry_step_present (hs : ReentryStep cfg r e r') (h : r.life.worker.worker ≠ .absent) :
    r'.life.worker.worker ≠ .absent := by
  rcases reentry_step_cases hs with ⟨b, hstep, _⟩ | ⟨i, pc, hreg, _⟩ | ⟨hworker, _⟩
  · exact step_present hstep h
  · rw [(register_step_same hreg).2.2.1]
    exact h
  · rw [hworker]
    exact h

theorem reentry_step_hook (hs : ReentryStep cfg r e r')
    (h : r.life.hook = true → r.life.worker.worker ≠ .absent) (hin : r'.life.hook = true) :
    r'.life.worker.worker ≠ .absent := by
  cases hs with
  | worker hs hidle =>
    cases hs with
    | on_init hw _ _ =>
      rw [hw]
      exact WorkerPc.noConfusion
    | on_exit hw _ _ =>
      rw [hw]
      exact WorkerPc.noConfusion
    | step hs hout => cases hin
  | run hs =>
    cases hs with
    | step hs => exact step_present (show Step cfg _ _ _ from .run hs) (h hin)
  | terminate n hs =>
    cases hs with
    | step hs => exact step_present (show Step cfg _ _ _ from .terminate n hs) (h hin)
  | call c hs => exact step_present (show Step cfg _ _ _ from .call c hs) (h hin)
  | register i hs =>
    rw [(register_step_same hs).2.2.1]
    exact h hin
  | send | register_called | nested_register | nested_send => exact h hin

theorem in_callback_present (hhook : r.life.hook = true → r.life.worker.worker ≠ .absent)
    (hin : r.life.InCallback) : r.life.worker.worker ≠ .absent := by
  rcases hin with hin | ⟨msg, hw⟩
  · exact hhook hin
  · rw [hw]
    exact WorkerPc.noConfusion

theorem reentry_step_nested (hs : ReentryStep cfg r e r')
    (hhook : r.life.hook = true → r.life.worker.worker ≠ .absent)
    (h : r.register none ≠ .idle → r.life.worker.worker ≠ .absent)
    (hbusy : r'.register none ≠ .idle) : r'.life.worker.worker ≠ .absent := by
  refine reentry_step_present hs ?_
  by_cases hidle : r.register none = .idle
  · cases hs with
    | nested_register hin _ => exact in_callback_present hhook hin
    | register_called n _ =>
      have hother : (none : Option Nat) ≠ some n := (by simp)
      simp only [Reentry.setRegister, Function.update_of_ne hother] at hbusy
      exact absurd hidle hbusy
    | register i hs =>
      by_cases hi : i = none
      · subst hi
        rw [hidle] at hs
        cases hs
      · simp only [Reentry.setRegister, Function.update_of_ne (Ne.symm hi)] at hbusy
        exact absurd hidle hbusy
    | worker | run | terminate | call | send | nested_send => exact absurd hidle hbusy
  · exact h hidle

/-- The worker thread waits for the lock only apart from those who wait for it. -/
theorem reentry_step_apart (hs : ReentryStep cfg r e r') (hC : Apart r e) (h : ReentryInv r)
    {tag : String} {callback : Cb} (hlock : r'.register none = .lock tag callback) :
    (r'.life.worker.run = .wait_running → r'.life.worker.sig_running = true) ∧
      ∀ n, r'.life.worker.terminate n ≠ .push ∧ r'.life.worker.terminate n ≠ .wait_terminated := by
  cases hs with
  | worker hs hidle => cases hidle.symm.trans hlock
  | nested_send hin hidle htag => cases hidle.symm.trans hlock
  | run hs =>
    obtain ⟨hrunning, hterminate⟩ := h.apart tag callback hlock
    have hpresent := h.nested (by rw [show r.register none = _ from hlock]; exact (by simp))
    cases hs with
    | @step b t hs =>
      refine ⟨?_, ?_⟩
      · cases hs with
        | create hr => exact absurd (h.phase.created (.inr hr)) hpresent
        | wait_running hr hsig => exact fun _ => hsig
        | _ => exact fun hw => by cases hw
      · have hsame : t.terminate = r.life.worker.terminate := by cases hs <;> rfl
        simp only [hsame]
        exact hterminate
  | terminate n hs =>
    obtain ⟨hrunning, hterminate⟩ := h.apart tag callback hlock
    cases hs with
    | @step b t hs =>
      obtain ⟨hrun, _⟩ := terminate_step_same hs
      have hsig : t.sig_running = r.life.worker.sig_running := by cases hs <;> rfl
      refine ⟨fun hw => hsig.trans (hrunning (hrun.symm.trans hw)), fun m => ?_⟩
      by_cases hm : m = n
      · subst hm
        cases hs with
        | lock ht _ =>
          simp only [terminate_label, ht] at hC
          exact absurd hlock (hC tag callback)
        | push ht => exact absurd ht (hterminate m).1
        | wait_terminated | join | read | unlock => simp [State.setTerminate]
      · simp only [terminate_step_other hs hm]
        exact hterminate m
  | @call b t c hs =>
    obtain ⟨hrun, hterminate, _⟩ := call_step_control hs
    have hsig : t.sig_running = r.life.worker.sig_running := by cases hs <;> rfl
    simp only [hrun, hterminate, hsig]
    exact h.apart tag callback hlock
  | send htag => exact h.apart tag callback hlock
  | register_called n hidle =>
    have hother : (none : Option Nat) ≠ some n := (by simp)
    simp only [Reentry.setRegister, Function.update_of_ne hother] at hlock
    exact h.apart tag callback hlock
  | register i hs =>
    obtain ⟨hrun, hterminate, _, hsig, _⟩ := register_step_same hs
    simp only [hrun, hterminate, hsig]
    by_cases hi : i = none
    · subst hi
      simp only [Reentry.setRegister, Function.update_self] at hlock
      generalize r.register none = pc at hs
      subst hlock
      cases hs
    · simp only [Reentry.setRegister, Function.update_of_ne (Ne.symm hi)] at hlock
      exact h.apart tag callback hlock
  | nested_register hin hidle => exact hC

theorem reentryInv_reachable (h : ((reentryLts Cb cfg).restrict Apart).Reachable r) :
    ReentryInv r := by
  refine h.invariant (P := ReentryInv) ?_ ?_
  · rintro r ⟨hi, hidle⟩
    have hworker := hi.worker
    refine ⟨?_, ?_, ?_, fun hbusy => absurd (hidle none) hbusy, fun tag callback hlock => ?_⟩
    · rw [hworker]
      exact phaseInv_initial
    · have hnone : ∀ k, ¬ r.Holds k := by
        rintro (k | k) hk
        · rw [Reentry.Holds, Sum.elim_inl, hworker] at hk
          exact lock_initial.not_held hk
        · rw [Reentry.Holds, Sum.elim_inr, hidle k] at hk
          exact hk
      exact ⟨fun k hk => absurd hk (hnone k), fun k _ hk => absurd hk (hnone k)⟩
    · rw [hi.hook]
      exact fun hin => Bool.noConfusion hin
    · cases (hidle none).symm.trans hlock
  · rintro r e r' hinv ⟨hC, hs⟩
    refine ⟨?_, reentry_lock_step hs hinv.lock, reentry_step_hook hs hinv.hook,
      reentry_step_nested hs hinv.hook hinv.nested, fun _ _ => reentry_step_apart hs hC hinv⟩
    rcases reentry_step_cases hs with ⟨b, hstep, _⟩ | ⟨i, pc, hreg, _⟩ | ⟨hworker, _⟩
    · exact phaseInv_step hstep hinv.phase
    · exact phaseInv_register_step hreg hinv.phase
    · rw [hworker]
      exact hinv.phase

/-- Where the worker thread calls `TecWorker_register` only apart from those who hold the lock
and wait for it, nobody waits in a circle. -/
theorem no_circular_wait (cfg : Config) (r : Reentry Cb)
    (h : ((reentryLts Cb cfg).restrict Apart).Reachable r) : ¬ r.Circular := by
  rintro ⟨⟨tag, callback, hlock⟩, i, _, hwaits⟩
  obtain ⟨hrunning, hterminate⟩ := (reentryInv_reachable h).apart tag callback hlock
  cases i with
  | none =>
    obtain ⟨hrun, hsig⟩ := hwaits
    cases hsig.symm.trans (hrunning hrun)
  | some n => exact (hterminate n).2 hwaits.1

/-- A handler registers another one before `TecDaemon_terminate` is called. -/
theorem no_circular_wait_handler :
    ∃ r : Reentry Nat, (reentryLts Nat bareConfig).Reachable r ∧
      (∃ tag callback, r.register none = .lock tag callback) ∧ ¬ r.Circular := by
  let start : Reentry Nat := ⟨⟨TecWorker_init bareConfig, ⟨0, none⟩, false, .idle⟩, fun _ => .idle⟩
  have h0 : ((reentryLts Nat bareConfig).restrict Apart).History [] start :=
    .init ⟨⟨rfl, rfl, rfl, rfl⟩, fun _ => rfl⟩
  have h1 := h0.snoc_restrict (@ReentryStep.register_called _ _ _ "job" 7 0 rfl) trivial
  have h2 := h1.snoc_restrict (ReentryStep.register (some 0) (.lock rfl)) trivial
  have h3 := h2.snoc_restrict (ReentryStep.register (some 0)
    (@RegisterStep.set _ _ _ _ _ 3 _ _ rfl rfl)) trivial
  have h4 := h3.snoc_restrict (ReentryStep.register (some 0) .unlock) trivial
  have h5 := h4.snoc_restrict (ReentryStep.run (.step (.lock rfl rfl))) trivial
  have h6 := h5.snoc_restrict (ReentryStep.run (.step (.create rfl))) trivial
  have h7 := h6.snoc_restrict (ReentryStep.worker (.step (.on_init rfl) rfl) rfl) trivial
  have h8 := h7.snoc_restrict (ReentryStep.worker (.step (.set_running rfl) rfl) rfl) trivial
  have h9 := h8.snoc_restrict (ReentryStep.worker (.step (.test_error rfl) rfl) rfl) trivial
  have h10 := h9.snoc_restrict (@ReentryStep.send _ _ _ 1 "job" (by decide)) trivial
  have h11 := h10.snoc_restrict (ReentryStep.worker (.step (.pop rfl rfl) rfl) rfl) trivial
  have h12 := h11.snoc_restrict (ReentryStep.worker
    (.step (.dispatch_msg rfl (by decide)) rfl) rfl) trivial
  have h13 := h12.snoc_restrict (ReentryStep.worker (.step (.on_msg rfl rfl) rfl) rfl) trivial
  have h14 := h13.snoc_restrict
    (@ReentryStep.nested_register _ _ _ "text" 8 (.inr ⟨_, rfl⟩) rfl)
    ⟨fun _ => rfl, fun _ => ⟨nofun, nofun⟩⟩
  exact ⟨_, h14.of_restrict.reachable, ⟨"text", 8, rfl⟩, no_circular_wait _ _ h14.reachable⟩

/-- `on_init` calls `TecWorker_register`, while `TecDaemon_run` waits for it with the lock. -/
theorem circular_wait :
    ¬ ∀ (cfg : Config) (r : Reentry Nat), (reentryLts Nat cfg).Reachable r → ¬ r.Circular := by
  intro h
  let cfg : Config := { bareConfig with on_init := some 0 }
  let start : Reentry Nat := ⟨⟨TecWorker_init cfg, ⟨0, none⟩, false, .idle⟩, fun _ => .idle⟩
  have h0 : (reentryLts Nat cfg).History [] start := .init ⟨⟨rfl, rfl, rfl, rfl⟩, fun _ => rfl⟩
  have h1 := h0.snoc (ReentryStep.run (.step (.lock rfl rfl)))
  have h2 := h1.snoc (ReentryStep.run (.step (.create rfl)))
  have h3 := h2.snoc (ReentryStep.worker (.on_init rfl rfl rfl) rfl)
  have h4 := h3.snoc (@ReentryStep.nested_register _ _ _ "text" 7 (.inl rfl) rfl)
  exact h cfg _ h4.reachable ⟨⟨"text", 7, rfl⟩, none, trivial, rfl, rfl⟩

end Tecc.Worker
