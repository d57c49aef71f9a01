import Tecc.WorkerProgress
import Tecc.WorkerReentry
import Tecc.WorkerSignal
import Mathlib.Data.Prod.Lex

/-! `TecDaemon_run`, `TecDaemon_terminate` and `TecDaemon_rpc` return, when the threads are
scheduled fairly and the handlers return. Where a call is waited for, no signal may be destroyed
while it is used. -/
namespace Tecc.Worker

open Transition

variable {Cb : Type} {cfg : Config} {s t : State Cb} {e : Event Cb} {c d n : Nat}
  {x : Option TecMsg} {E : Execution (State Cb) (Event Cb)}

/-- Who has to be scheduled. -/
inductive Actor where
  | worker
  | run
  | terminate (n : Nat)
  | call (c : Nat)

/-- The steps that an actor takes. Nobody has to call the worker, and no caller is relied on to wake
up by itself. -/
def Actor.steps (cfg : Config) : Actor → State Cb → Event Cb → State Cb → Prop
  | .worker => WorkerStep cfg
  | .run => fun s e t => RunStep s e t ∧ s.run ≠ .idle
  | .terminate n => fun s e t => TerminateStep n s e t ∧ s.terminate n ≠ .idle
  | .call c => fun s e t =>
    CallStep c s e t ∧ (s.calls c).pc ≠ .idle ∧ (s.calls c).pc ≠ .asleep

theorem Actor.step {i : Actor} (hs : Actor.steps cfg i s e t) : Step cfg s e t := by
  cases i with
  | worker => exact .worker hs
  | run => exact .run hs.1
  | terminate n => exact .terminate n hs.1
  | call c => exact .call c hs.1

/-- The steps that an actor can be relied on to take: whoever uses a destroyed signal need not come
back from it. -/
def Actor.alive_steps (cfg : Config) (i : Actor) (s : State Cb) (e : Event Cb) (t : State Cb) :
    Prop :=
  Actor.steps cfg i s e t ∧ Alive s e

/-- Where no signal is destroyed too early each step can be relied on. -/
theorem steps_fair (hE : ((workerLts Cb cfg).restrict Outlives).Valid E)
    (hfair : ∀ i, E.Fair (Actor.alive_steps cfg i)) (i : Actor) : E.Fair (Actor.steps cfg i) :=
  (hfair i).congr fun n _ _ =>
    ⟨And.left, fun hs => ⟨hs, alive_of_outlives (hE.reachable n) (Actor.step hs)⟩⟩

/-- Where nobody reads 1 too early no signal is destroyed too early. -/
theorem outlives_valid (hE : ((workerLts Cb cfg).restrict Settled).Valid E) :
    ((workerLts Cb cfg).restrict Outlives).Valid E :=
  hE.of_restrict.restrict fun n e he =>
    outlives_of_settled (hE.reachable n) (hE.step n e he).2

/-- The steps that the worker thread needs until it pops what is behind `i` messages, and those at
its end. -/
def WorkerPc.steps (i : Nat) : WorkerPc → Nat
  | .absent | .exited => 0
  | .set_terminated => 1
  | .on_exit => 2
  | .pop => 8 * i + 3
  | .test_error | .free _ | .set_unlock _ => 8 * i + 4
  | .set_running | .set_broadcast _ => 8 * i + 5
  | .on_init | .set_lock _ => 8 * i + 6
  | .set_store _ => 8 * i + 7
  | .callback _ => 8 * i + 8
  | .on_msg _ | .on_rpc _ => 8 * i + 9
  | .dispatch _ => 8 * i + 10

/-- The steps that a caller of `TecDaemon_rpc` needs when its value is set. -/
def CallPc.steps : CallPc → Nat
  | .returned _ => 0
  | .return => 1
  | .signal_done => 2
  | .wait_unlock => 3
  | .wait_check => 4
  | .wait_lock | .woken => 5
  | .asleep | .wait_load => 6
  | .wait_sleep | .push _ => 7
  | .idle => 8

/-- The call whose mutex the worker thread waits for. -/
def State.blocked (s : State Cb) : Option Nat :=
  match s.worker with
  | .set_lock c => if (s.calls c).mtx = none then none else some c
  | _ => none

def workerHelpful (s : State Cb) : Actor :=
  match s.blocked with
  | some c => .call c
  | none => .worker

def lockRank (s : State Cb) : Nat :=
  match s.worker with
  | .set_lock c => (s.calls c).pc.steps
  | _ => 0

def workRank (x : Option TecMsg) (s : State Cb) : Nat ×ₗ Nat :=
  toLex (s.worker.steps (s.queue.idxOf x), lockRank s)

theorem worker_steps_lt (hs : WorkerStep cfg s e t) (x : Option TecMsg) :
    t.worker.steps (t.queue.idxOf x) < s.worker.steps (s.queue.idxOf x) ∨
      ∃ msg, x = some msg ∧ t.worker = .dispatch msg := by
  cases hs with
  | test_error hw =>
    left
    by_cases hzero : s.error = 0 <;> simp [hzero, hw, WorkerPc.steps]
  | @pop msg q hw hq =>
    by_cases hx : x = some msg
    · exact .inr ⟨msg, hx, rfl⟩
    · left
      simp only [hw, hq, WorkerPc.steps, List.idxOf_cons_ne _ (Ne.symm hx)]
      omega
  | pop_null hw hq | on_init hw | set_running hw | dispatch_rpc hw _ | dispatch_msg hw _
  | on_msg hw _ | on_msg_none hw _ | msg_handled hw | free hw | on_rpc hw _ | on_rpc_none hw _
  | rpc_handled hw | set_store hw | set_lock hw _ | set_broadcast hw | set_unlock hw | on_exit hw
  | set_terminated hw =>
    left
    simp only [hw, WorkerPc.steps, State.setCall]
    omega

/-- With the value set each step of the caller brings it closer to its end. -/
theorem call_steps_lt (hs : CallStep c s e t) (hvalue : (s.calls c).value = true) :
    (t.calls c).pc.steps < (s.calls c).pc.steps := by
  cases hs <;> simp_all [State.setCall, CallPc.steps]

/-- A step that leaves the worker thread alone. -/
structure Stays (s t : State Cb) : Prop where
  worker : t.worker = s.worker
  queue : s.queue <+: t.queue
  error : t.error = s.error
  running : t.sig_running = s.sig_running
  terminated : t.sig_terminated = s.sig_terminated

theorem stays_cases (hs : Step cfg s e t) : WorkerStep cfg s e t ∨
    s.run = .create ∧ t = { s with worker := .on_init, run := .wait_running } ∨
    Stays s t ∧ (t.calls = s.calls ∨ ∃ c, CallStep c s e t) := by
  cases hs with
  | worker hs => exact .inl hs
  | call c hs =>
    refine .inr (.inr ⟨?_, .inr ⟨c, hs⟩⟩)
    cases hs with
    | push hc => exact ⟨rfl, List.prefix_append _ _, rfl, rfl, rfl⟩
    | _ => exact ⟨rfl, List.prefix_rfl, rfl, rfl, rfl⟩
  | run hs =>
    right
    cases hs with
    | create hr => exact .inl ⟨hr, rfl⟩
    | _ => exact .inr ⟨⟨rfl, List.prefix_rfl, rfl, rfl, rfl⟩, .inl rfl⟩
  | terminate n hs =>
    right
    cases hs with
    | push ht => exact .inr ⟨⟨rfl, List.prefix_append _ _, rfl, rfl, rfl⟩, .inl rfl⟩
    | _ => exact .inr ⟨⟨rfl, List.prefix_rfl, rfl, rfl, rfl⟩, .inl rfl⟩
  | user hs =>
    right
    cases hs with
    | register => exact .inr ⟨⟨rfl, List.prefix_rfl, rfl, rfl, rfl⟩, .inl rfl⟩
    | send htag => exact .inr ⟨⟨rfl, List.prefix_append _ _, rfl, rfl, rfl⟩, .inl rfl⟩

/-- There is one worker thread. -/
theorem stays_step (hs : Step cfg s e t) (hcreated : Created s) (hpresent : s.worker ≠ .absent) :
    WorkerStep cfg s e t ∨ Stays s t ∧ (t.calls = s.calls ∨ ∃ c, CallStep c s e t) := by
  rcases stays_cases hs with hw | ⟨hr, _⟩ | hstays
  · exact .inl hw
  · exact absurd (hcreated (.inr hr)) hpresent
  · exact .inr hstays

/-- What the queue has in front of a message does not change by a push. -/
theorem Stays.steps (h : Stays s t) (hx : x ∈ s.queue ∨ s.worker.Left) :
    t.worker.steps (t.queue.idxOf x) = s.worker.steps (s.queue.idxOf x) := by
  rw [h.worker]
  rcases hx with hx | hleft
  · obtain ⟨new, hq⟩ := h.queue
    rw [← hq, List.idxOf_append_of_mem hx]
  · cases hw : s.worker with
    | on_exit | set_terminated | exited => rfl
    | _ =>
      rw [hw] at hleft
      exact hleft.elim

/-- The worker thread, or the caller that has the mutex it waits for, brings it closer to the
message; the others do not hold it up. -/
theorem workRank_step (hs : Step cfg s e t) (hinv : WorkerInv cfg s)
    (hpresent : s.worker ≠ .absent) (hx : x ∈ s.queue ∨ s.worker.Left) :
    (∃ msg, x = some msg ∧ t.worker = .dispatch msg) ∨ workRank x t < workRank x s ∨
      workRank x t = workRank x s ∧ workerHelpful t = workerHelpful s ∧ Stays s t := by
  rcases stays_step hs hinv.phase.created hpresent with hw | ⟨hstays, hcalls⟩
  · rcases worker_steps_lt hw x with hlt | hpopped
    · exact .inr (.inl (Prod.Lex.toLex_lt_toLex.mpr (.inl hlt)))
    · exact .inl hpopped
  · right
    have hsteps := hstays.steps hx
    have hsame : (∀ c, s.worker = .set_lock c → t.calls c = s.calls c) →
        workRank x t = workRank x s ∧ workerHelpful t = workerHelpful s ∧ Stays s t := by
      intro hcall
      have hrank : lockRank t = lockRank s ∧ t.blocked = s.blocked := by
        unfold lockRank State.blocked
        rw [hstays.worker]
        cases hw : s.worker with
        | set_lock c => simp only [hcall c hw, and_self]
        | _ => exact ⟨rfl, rfl⟩
      refine ⟨?_, ?_, hstays⟩
      · unfold workRank
        rw [hsteps, hrank.1]
      · unfold workerHelpful
        rw [hrank.2]
    rcases hcalls with hcalls | ⟨c, hc⟩
    · exact .inr (hsame fun c _ => by rw [hcalls])
    · by_cases hset : s.worker = .set_lock c
      · left
        refine Prod.Lex.toLex_lt_toLex.mpr (.inr ⟨hsteps, ?_⟩)
        unfold lockRank
        rw [hstays.worker, hset]
        exact call_steps_lt hc ((hinv.signals c).stored (by rw [hset]; rfl)).1
      · refine .inr (hsame ?_)
        intro d hd
        exact call_step_other hc (by rintro rfl; exact hset hd)

theorem blocked_some (h : s.blocked = some c) :
    s.worker = .set_lock c ∧ (s.calls c).mtx ≠ none := by
  unfold State.blocked at h
  split at h
  · split at h
    · cases h
    · cases h
      exact ⟨‹_›, ‹_›⟩
  · cases h

theorem blocked_none (h : s.blocked = none) (hw : s.worker = .set_lock c) :
    (s.calls c).mtx = none := by
  simpa [State.blocked, hw] using h

/-- A caller that has the mutex does not wait for anybody. -/
theorem locked_enabled (h : (s.calls c).pc.Locked) : ∃ e t, Actor.steps cfg (.call c) s e t := by
  cases hpc : (s.calls c).pc with
  | wait_check => exact ⟨_, _, .wait_check hpc, by rw [hpc]; nofun, by rw [hpc]; nofun⟩
  | wait_sleep => exact ⟨_, _, .wait_sleep hpc, by rw [hpc]; nofun, by rw [hpc]; nofun⟩
  | wait_unlock => exact ⟨_, _, .wait_unlock hpc, by rw [hpc]; nofun, by rw [hpc]; nofun⟩
  | _ =>
    rw [hpc] at h
    exact h.elim

theorem work_enabled (hinv : WorkerInv cfg s) (hpresent : s.worker ≠ .absent)
    (hexited : s.worker ≠ .exited) (hpop : s.worker = .pop → s.queue ≠ []) :
    ∃ e t, Actor.steps cfg (workerHelpful s) s e t := by
  cases hb : s.blocked with
  | none =>
    rw [workerHelpful, hb]
    exact worker_enabled hinv hpresent hexited hpop fun c hw => blocked_none hb hw
  | some c =>
    rw [workerHelpful, hb]
    obtain ⟨hw, hmtx⟩ := blocked_some hb
    have hsignal := hinv.signals c
    refine locked_enabled (hsignal.caller.mp ?_)
    obtain ⟨holder, hholder⟩ := Option.ne_none_iff_exists'.mp hmtx
    cases holder with
    | caller => exact hholder
    | setter =>
      have hset := hsignal.setter.mp hholder
      rw [hw] at hset
      exact absurd hset (by simp)

theorem work_actor (hinv : WorkerInv cfg s) (hx : x ∈ s.queue ∨ s.worker.Left)
    (hs : Actor.steps cfg (workerHelpful s) s e t) :
    (∃ msg, x = some msg ∧ t.worker = .dispatch msg) ∨ workRank x t < workRank x s := by
  cases hb : s.blocked with
  | none =>
    rw [workerHelpful, hb] at hs
    rcases worker_steps_lt hs x with hlt | hpopped
    · exact .inr (Prod.Lex.toLex_lt_toLex.mpr (.inl hlt))
    · exact .inl hpopped
  | some c =>
    rw [workerHelpful, hb] at hs
    obtain ⟨hw, _⟩ := blocked_some hb
    have hpresent : s.worker ≠ .absent := by
      rw [hw]
      nofun
    rcases workRank_step (.call c hs.1) hinv hpresent hx with hpopped | hlt | ⟨hsame, _⟩
    · exact .inl hpopped
    · exact .inr hlt
    · have hlt := call_steps_lt hs.1 ((hinv.signals c).stored (by rw [hw]; rfl)).1
      have hrank : lockRank t = lockRank s := congrArg (fun r => (ofLex r).2) hsame
      unfold lockRank at hrank
      rw [call_step_worker hs.1, hw] at hrank
      exact absurd hrank (Nat.ne_of_lt hlt)

/-! The caller of `TecDaemon_terminate` -/

/-- The steps that the caller needs itself. -/
def TerminatePc.steps : TerminatePc → Nat
  | .idle => 6
  | .push => 5
  | .wait_terminated => 4
  | .join => 3
  | .read => 2
  | .unlock _ => 1
  | .returned _ => 0

/-- The caller `n` waits for the end of the worker thread. -/
def State.Ends (s : State Cb) (n : Nat) : Prop :=
  s.terminate n = .wait_terminated ∧ s.sig_terminated = false

instance (s : State Cb) (n : Nat) : Decidable (s.Ends n) :=
  inferInstanceAs (Decidable (_ ∧ _))

def terminateRank (n : Nat) (s : State Cb) : Nat ×ₗ (Nat ×ₗ Nat) :=
  toLex ((s.terminate n).steps, if s.Ends n then workRank none s else toLex (0, 0))

def terminateHelpful (n : Nat) (s : State Cb) : Actor :=
  if s.Ends n then workerHelpful s else .terminate n

theorem terminate_steps_lt (hs : TerminateStep n s e t) :
    (t.terminate n).steps < (s.terminate n).steps := by
  cases hs <;> simp_all [State.setTerminate, TerminatePc.steps]

/-- Only the caller itself moves on. -/
theorem terminate_stays (hs : Step cfg s e t) :
    TerminateStep n s e t ∨ t.terminate n = s.terminate n := by
  cases hs with
  | worker hs => exact .inr (congrFun (worker_step_control hs).2.1 n)
  | call c hs => exact .inr (congrFun (call_step_control hs).2.1 n)
  | run hs => cases hs <;> exact .inr rfl
  | terminate m hs =>
    by_cases hm : n = m
    · subst hm
      exact .inl hs
    · exact .inr (terminate_step_other hs hm)
  | user hs => exact .inr (congrFun (user_step_control hs).2.1 n)

theorem terminate_begun (hs : Step cfg s e t) (h : s.terminate n ≠ .idle) :
    t.terminate n ≠ .idle := by
  rcases terminate_stays (n := n) hs with hown | hstays
  · cases hown <;> simp [State.setTerminate]
  · rw [hstays]
    exact h

theorem sig_terminated_stays (hs : Step cfg s e t) (h : s.sig_terminated = true) :
    t.sig_terminated = true := by
  cases hs with
  | worker hs => exact (move_signals (worker_step_move hs)).2 h
  | call c hs => cases hs <;> exact h
  | run hs => cases hs <;> exact h
  | terminate n hs => cases hs <;> exact h
  | user hs => cases hs <;> exact h

theorem terminateRank_lt (hends : s.Ends n) (hsteps : (t.terminate n).steps = (s.terminate n).steps)
    (hlt : workRank none t < workRank none s) : terminateRank n t < terminateRank n s := by
  refine Prod.Lex.toLex_lt_toLex.mpr (.inr ⟨hsteps, ?_⟩)
  simp only [if_pos hends]
  by_cases hends' : t.Ends n
  · rw [if_pos hends']
    exact hlt
  · rw [if_neg hends']
    refine lt_of_le_of_lt (Prod.Lex.toLex_mono (Prod.mk_le_mk.mpr ⟨?_, ?_⟩)) hlt
    · exact Nat.zero_le _
    · exact Nat.zero_le _

theorem terminateRank_step (hs : Step cfg s e t) (hinv : WorkerInv cfg s)
    (hpresent : s.worker ≠ .absent) : terminateRank n t < terminateRank n s ∨
      terminateRank n t = terminateRank n s ∧ terminateHelpful n t = terminateHelpful n s := by
  rcases terminate_stays hs with hown | hstays
  · exact .inl (Prod.Lex.toLex_lt_toLex.mpr (.inl (terminate_steps_lt hown)))
  · have hsteps : (t.terminate n).steps = (s.terminate n).steps := by rw [hstays]
    by_cases hends : s.Ends n
    · have hx := hinv.phase.asked n hends.1
      rcases workRank_step hs hinv hpresent hx with ⟨msg, hmsg, _⟩ | hlt | ⟨hrank, hsame, hwork⟩
      · cases hmsg
      · exact .inl (terminateRank_lt hends hsteps hlt)
      · right
        have hends' : t.Ends n := ⟨hstays.trans hends.1, hwork.terminated.trans hends.2⟩
        unfold terminateRank terminateHelpful
        rw [if_pos hends, if_pos hends', if_pos hends, if_pos hends', hsteps, hrank, hsame]
        exact ⟨rfl, rfl⟩
    · have hends' : ¬ t.Ends n := by
        intro h
        refine hends ⟨hstays.symm.trans h.1, ?_⟩
        cases hsig : s.sig_terminated with
        | false => rfl
        | true => cases (sig_terminated_stays hs hsig).symm.trans h.2
      right
      unfold terminateRank terminateHelpful
      rw [if_neg hends, if_neg hends', if_neg hends, if_neg hends', hsteps]
      exact ⟨rfl, rfl⟩

theorem terminate_enabled (hinv : WorkerInv cfg s) (hpresent : s.worker ≠ .absent)
    (hidle : s.terminate n ≠ .idle) (hreturned : ∀ result, s.terminate n ≠ .returned result) :
    ∃ e t, Actor.steps cfg (terminateHelpful n s) s e t := by
  by_cases hends : s.Ends n
  · rw [terminateHelpful, if_pos hends]
    have hasked := hinv.phase.asked n hends.1
    refine work_enabled hinv hpresent ?_ ?_
    · rw [Ne, ← hinv.phase.signal.terminated, hends.2]
      exact Bool.false_ne_true
    · intro hpop
      rw [hpop] at hasked
      exact List.ne_nil_of_mem (hasked.resolve_right id)
  · rw [terminateHelpful, if_neg hends]
    suffices h : ∃ e t, TerminateStep n s e t by
      obtain ⟨e, t, hs⟩ := h
      exact ⟨e, t, hs, hidle⟩
    cases ht : s.terminate n with
    | idle => exact absurd ht hidle
    | returned result => exact absurd ht (hreturned result)
    | push => exact ⟨_, _, .push ht⟩
    | wait_terminated =>
      refine ⟨_, _, .wait_terminated ht ?_⟩
      exact Bool.eq_true_of_not_eq_false fun hsig => hends ⟨ht, hsig⟩
    | join =>
      have hsig := hinv.phase.ended n (by rw [ht]; trivial)
      exact ⟨_, _, .join ht (hinv.phase.signal.terminated.mp hsig)⟩
    | read => exact ⟨_, _, .read ht⟩
    | unlock result => exact ⟨_, _, .unlock ht⟩

theorem terminate_actor (hinv : WorkerInv cfg s)
    (hs : Actor.steps cfg (terminateHelpful n s) s e t) :
    terminateRank n t < terminateRank n s := by
  by_cases hends : s.Ends n
  · have hx := hinv.phase.asked n hends.1
    rw [terminateHelpful, if_pos hends] at hs
    rcases work_actor hinv hx hs with ⟨msg, hmsg, _⟩ | hlt
    · cases hmsg
    · rcases terminate_stays (n := n) (Actor.step hs) with hown | hstays
      · exact Prod.Lex.toLex_lt_toLex.mpr (.inl (terminate_steps_lt hown))
      · exact terminateRank_lt hends (congrArg _ hstays) hlt
  · rw [terminateHelpful, if_neg hends] at hs
    exact Prod.Lex.toLex_lt_toLex.mpr (.inl (terminate_steps_lt hs.1))

theorem terminate_helpful (n : Nat) : (workerLts Cb cfg).Helpful (Actor.steps cfg)
    (fun s => s.terminate n ≠ .idle ∧ s.worker ≠ .absent)
    (fun s => ∃ result, s.terminate n = .returned result) (terminateRank n)
    (terminateHelpful n) where
  enabled _ hr h hreturned := terminate_enabled (workerInv_reachable hr) h.2 h.1
    fun result hresult => hreturned ⟨result, hresult⟩
  step _ _ _ hr h _ hs := by
    refine .inr ⟨⟨terminate_begun hs h.1, step_present hs h.2⟩, ?_⟩
    exact terminateRank_step hs (workerInv_reachable hr) h.2
  actor _ _ _ hr _ _ hs := .inr (terminate_actor (workerInv_reachable hr) hs)

theorem terminate_comes (n : Nat) (hE : (workerLts Cb cfg).Valid E)
    (hfair : ∀ i, E.Fair (Actor.steps cfg i)) :
    E.LeadsTo (fun s => s.terminate n ≠ .idle ∧ s.worker ≠ .absent)
      (fun s => (∃ result, s.terminate n = .returned result) ∧ s.worker = .exited) := by
  intro m hm
  obtain ⟨k, hmk, result, hk⟩ := (terminate_helpful n).leadsTo hE (fun _ _ => hfair _) m hm
  have hphase := (workerInv_reachable (hE.reachable k)).phase
  refine ⟨k, hmk, ⟨result, hk⟩, hphase.signal.terminated.mp (hphase.ended n ?_)⟩
  rw [hk]
  trivial

/-- `TecDaemon_terminate` of a worker that was run returns, whatever is queued in front of its NULL
and whoever calls the worker meanwhile, as long as no caller destroys its signal too early. -/
theorem terminate_returns (cfg : Config) (n : Nat) (E : Execution (State Cb) (Event Cb))
    (hE : ((workerLts Cb cfg).restrict Outlives).Valid E)
    (hfair : ∀ i, E.Fair (Actor.alive_steps cfg i)) :
    E.LeadsTo (fun s => s.terminate n ≠ .idle ∧ s.worker ≠ .absent)
      (fun s => (∃ result, s.terminate n = .returned result) ∧ s.worker = .exited) :=
  terminate_comes n hE.of_restrict (steps_fair hE hfair)

/-! The caller of `TecDaemon_run` -/

def RunPc.steps : RunPc → Nat
  | .idle => 6
  | .create => 5
  | .wait_running => 4
  | .join => 3
  | .unlock => 2
  | .return | .create_failed _ => 1
  | .returned _ => 0

/-- The caller waits for the worker thread to start, or to end after an error. -/
def State.waits (s : State Cb) : Nat :=
  match s.run, s.worker with
  | .wait_running, .on_init => 2
  | .wait_running, .set_running => 1
  | .join, .test_error => 3
  | .join, .on_exit => 2
  | .join, .set_terminated => 1
  | _, _ => 0

def runHelpful (s : State Cb) : Actor := if s.waits = 0 then .run else .worker

def runRank (s : State Cb) : Nat ×ₗ Nat := toLex (s.run.steps, s.waits)

/-- Once the caller has seen an error it joins a worker thread that skips its loop. -/
def Joins (s : State Cb) : Prop := s.run = .join → s.error ≠ 0

theorem run_steps_lt (hs : RunStep s e t) : t.run.steps < s.run.steps := by
  cases hs with
  | wait_running hr hsig => by_cases hzero : s.error = 0 <;> simp [hzero, hr, RunPc.steps]
  | _ => simp_all [RunPc.steps]

theorem run_stays (hs : Step cfg s e t) : RunStep s e t ∨ t.run = s.run := by
  cases hs with
  | worker hs => exact .inr (worker_step_control hs).1
  | call c hs => exact .inr (call_step_control hs).1
  | run hs => exact .inl hs
  | terminate n hs => exact .inr (terminate_step_same hs).1
  | user hs => exact .inr (user_step_control hs).1

theorem joins_step (hs : Step cfg s e t) (hinv : WorkerInv cfg s) (h : Joins s) : Joins t := by
  intro hjoin
  cases hs with
  | worker hs =>
    rw [(worker_step_control hs).1] at hjoin
    have herror := h hjoin
    have hrunning := hinv.phase.signal.running.mp (hinv.phase.seen (by rw [hjoin]; trivial))
    cases hs with
    | on_init hw =>
      rw [hw] at hrunning
      exact hrunning.elim
    | on_exit hw =>
      simp only [run_hook]
      cases cfg.on_exit <;> simp [herror]
    | _ => exact herror
  | call c hs =>
    rw [(call_step_control hs).1] at hjoin
    cases hs <;> exact h hjoin
  | run hs =>
    cases hs with
    | wait_running hr hsig =>
      intro hzero
      simp [show s.error = 0 from hzero] at hjoin
    | _ => cases hjoin
  | terminate n hs =>
    rw [(terminate_step_same hs).1] at hjoin
    cases hs <;> exact h hjoin
  | user hs => cases hs <;> exact h hjoin

/-- The worker thread is on its way as long as the caller waits. -/
theorem waits_worker_step (hs : WorkerStep cfg s e t) (hinv : WorkerInv cfg s) (h : Joins s) :
    t.waits < s.waits ∨ t.waits = 0 ∧ s.waits = 0 := by
  have hrun := (worker_step_control hs).1
  unfold State.waits
  rw [hrun]
  cases hr : s.run with
  | wait_running =>
    cases hs with
    | on_init hw | set_running hw =>
      left
      simp [hw]
    | test_error hw =>
      right
      by_cases hzero : s.error = 0 <;> simp [hw, hzero]
    | pop hw _ | pop_null hw _ | dispatch_rpc hw _ | dispatch_msg hw _ | on_msg hw _
    | on_msg_none hw _ | msg_handled hw | free hw | on_rpc hw _ | on_rpc_none hw _ | rpc_handled hw
    | set_store hw | set_lock hw _ | set_broadcast hw | set_unlock hw | on_exit hw
    | set_terminated hw =>
      right
      simp [hw]
  | join =>
    have herror := h hr
    have hrunning := hinv.phase.signal.running.mp (hinv.phase.seen (by rw [hr]; trivial))
    have hloop : ¬ s.worker.Loop := fun hl => herror (hinv.phase.signal.loop hl)
    cases hs with
    | on_init hw | set_running hw =>
      rw [hw] at hrunning
      exact hrunning.elim
    | test_error hw =>
      left
      simp [hw, herror]
    | on_exit hw | set_terminated hw =>
      left
      simp [hw]
    | pop hw _ | pop_null hw _ | dispatch_rpc hw _ | dispatch_msg hw _ | on_msg hw _
    | on_msg_none hw _ | msg_handled hw | free hw | on_rpc hw _ | on_rpc_none hw _ | rpc_handled hw
    | set_store hw | set_lock hw _ | set_broadcast hw | set_unlock hw =>
      rw [hw] at hloop
      exact absurd trivial hloop
  | _ => exact .inr ⟨rfl, rfl⟩

theorem runRank_step (hs : Step cfg s e t) (hinv : WorkerInv cfg s) (h : Joins s) :
    runRank t < runRank s ∨ runRank t = runRank s ∧ runHelpful t = runHelpful s := by
  rcases run_stays hs with hown | hrun
  · exact .inl (Prod.Lex.toLex_lt_toLex.mpr (.inl (run_steps_lt hown)))
  · have hsame : t.waits = s.waits → runRank t = runRank s ∧ runHelpful t = runHelpful s := by
      intro hwaits
      unfold runRank runHelpful
      rw [hrun, hwaits]
      exact ⟨rfl, rfl⟩
    rcases step_cases hs with hw | ⟨c, hc⟩ | hu
    · rcases waits_worker_step hw hinv h with hlt | ⟨ht, hs⟩
      · exact .inl (Prod.Lex.toLex_lt_toLex.mpr (.inr ⟨congrArg RunPc.steps hrun, hlt⟩))
      · exact .inr (hsame (ht.trans hs.symm))
    · refine .inr (hsame ?_)
      unfold State.waits
      rw [hrun, call_step_worker hc]
    · right
      rcases control_step_worker hu with hw | ⟨hcreate, hw⟩
      · refine hsame ?_
        unfold State.waits
        rw [hrun, hw]
      · refine hsame ?_
        unfold State.waits
        rw [hrun, hcreate]

theorem run_enabled (hinv : WorkerInv cfg s) (h : Joins s) (hidle : s.run ≠ .idle)
    (hreturned : ∀ error, s.run ≠ .returned error) :
    ∃ e t, Actor.steps cfg (runHelpful s) s e t := by
  by_cases hwaits : s.waits = 0
  · rw [runHelpful, if_pos hwaits]
    suffices h : ∃ e t, RunStep s e t by
      obtain ⟨e, t, hs⟩ := h
      exact ⟨e, t, hs, hidle⟩
    cases hr : s.run with
    | idle => exact absurd hr hidle
    | returned error => exact absurd hr (hreturned error)
    | create => exact ⟨_, _, .create hr⟩
    | wait_running =>
      refine ⟨_, _, .wait_running hr (hinv.phase.signal.running.mpr ?_)⟩
      have hstarted := hinv.phase.started hr
      unfold State.waits at hwaits
      rw [hr] at hwaits
      cases hw : s.worker <;> simp_all [WorkerPc.Running]
    | join =>
      refine ⟨_, _, .join hr ?_⟩
      have herror := h hr
      have hrunning := hinv.phase.signal.running.mp (hinv.phase.seen (by rw [hr]; trivial))
      have hloop : ¬ s.worker.Loop := fun hl => herror (hinv.phase.signal.loop hl)
      unfold State.waits at hwaits
      rw [hr] at hwaits
      cases hw : s.worker <;> simp_all [WorkerPc.Running, WorkerPc.Loop]
    | unlock => exact ⟨_, _, .unlock hr⟩
    | «return» => exact ⟨_, _, .return hr⟩
    | create_failed result => exact ⟨_, _, .return_failed hr⟩
  · rw [runHelpful, if_neg hwaits]
    unfold State.waits at hwaits
    split at hwaits
    · exact ⟨_, _, WorkerStep.on_init ‹_›⟩
    · exact ⟨_, _, WorkerStep.set_running ‹_›⟩
    · exact ⟨_, _, WorkerStep.test_error ‹_›⟩
    · exact ⟨_, _, WorkerStep.on_exit ‹_›⟩
    · exact ⟨_, _, WorkerStep.set_terminated ‹_›⟩
    · exact absurd rfl hwaits

theorem run_actor (hinv : WorkerInv cfg s) (h : Joins s)
    (hs : Actor.steps cfg (runHelpful s) s e t) : runRank t < runRank s := by
  by_cases hwaits : s.waits = 0
  · rw [runHelpful, if_pos hwaits] at hs
    exact Prod.Lex.toLex_lt_toLex.mpr (.inl (run_steps_lt hs.1))
  · rw [runHelpful, if_neg hwaits] at hs
    rcases waits_worker_step hs hinv h with hlt | ⟨_, hzero⟩
    · refine Prod.Lex.toLex_lt_toLex.mpr (.inr ⟨?_, hlt⟩)
      exact congrArg RunPc.steps (worker_step_control hs).1
    · exact absurd hzero hwaits

theorem run_begun (hs : Step cfg s e t) (h : s.run ≠ .idle) : t.run ≠ .idle := by
  rcases run_stays hs with hown | hrun
  · cases hown with
    | wait_running => by_cases hzero : s.error = 0 <;> simp [hzero]
    | _ => nofun
  · rw [hrun]
    exact h

theorem joins_reachable (h : (workerLts Cb cfg).Reachable s) : Joins s := by
  obtain ⟨xs, hx⟩ := h
  refine hx.induction (P := fun _ s => Joins s) ?_ ?_
  · rintro s rfl
    nofun
  · exact fun _ _ _ _ hhist h hs => joins_step hs (workerInv_reachable hhist.reachable) h

theorem run_helpful : (workerLts Cb cfg).Helpful (Actor.steps cfg) (fun s => s.run ≠ .idle)
    (fun s => ∃ error, s.run = .returned error) runRank runHelpful where
  enabled _ hr h hreturned := run_enabled (workerInv_reachable hr) (joins_reachable hr) h
    fun error herror => hreturned ⟨error, herror⟩
  step _ _ _ hr h _ hs := .inr ⟨run_begun hs h,
    runRank_step hs (workerInv_reachable hr) (joins_reachable hr)⟩
  actor _ _ _ hr _ _ hs := .inr (run_actor (workerInv_reachable hr) (joins_reachable hr) hs)

/-- `TecDaemon_run` returns, with the worker thread in its loop or joined after an error. -/
theorem run_returns (cfg : Config) (E : Execution (State Cb) (Event Cb))
    (hE : (workerLts Cb cfg).Valid E) (hfair : ∀ i, E.Fair (Actor.steps cfg i)) :
    E.LeadsTo (fun s => s.run ≠ .idle) (fun s => ∃ error, s.run = .returned error) :=
  run_helpful.leadsTo hE (fun _ _ => hfair _)

/-! A worker whose callers have all returned -/

theorem returned_no_steps (hw : ∀ e t, ¬ WorkerStep cfg s e t)
    (hr : ∃ error, s.run = .returned error)
    (ht : ∀ n, s.terminate n = .idle ∨ ∃ result, s.terminate n = .returned result)
    (hc : ∀ c, (s.calls c).pc = .idle ∨ ∃ error, (s.calls c).pc = .returned error) (i : Actor) :
    ¬ Actor.steps cfg i s e t := by
  intro hs
  cases i with
  | worker => exact hw _ _ hs
  | run =>
    obtain ⟨error, hr⟩ := hr
    cases hs.1 <;> simp_all
  | terminate n =>
    obtain ⟨result, hresult⟩ := (ht n).resolve_left hs.2
    cases hs.1 <;> simp_all
  | call c =>
    obtain ⟨error, herror⟩ := (hc c).resolve_left hs.2.1
    cases hs.1 <;> simp_all

theorem waiting_no_step (hw : s.worker = .pop) (hq : s.queue = []) :
    ¬ WorkerStep cfg s e t := by
  intro hs
  cases hs <;> simp_all

/-- A worker that is run waits for messages. -/
theorem run_returns_bare :
    ∃ E : Execution (State Nat) (Event Nat), (workerLts Nat bareConfig).Valid E ∧
      (E.state 1).run = .create ∧ ∃ n error, 1 ≤ n ∧ (E.state n).run = .returned error := by
  have h0 : (workerLts Nat bareConfig).History [] (TecWorker_init bareConfig) := .init rfl
  have h1 := h0.snoc (Step.run (.lock rfl rfl))
  have r2 := h1.here.snoc (Step.run (.create rfl))
  have r3 := r2.snoc (Step.worker (.on_init rfl))
  have r4 := r3.snoc (Step.worker (.set_running rfl))
  have r5 := r4.snoc (Step.worker (.test_error rfl))
  have r6 := r5.snoc (Step.run (.wait_running rfl rfl))
  have r7 := r6.snoc (Step.run (.unlock rfl))
  have r8 := r7.snoc (Step.run (.return rfl))
  obtain ⟨E, hE, hends, _, hbegun⟩ := h1.execution r8
  have hfair : ∀ i, E.Fair (Actor.steps bareConfig i) := by
    intro i
    refine hends.fair fun e t => returned_no_steps ?_ ⟨_, rfl⟩ ?_ ?_ i
    · exact fun _ _ => waiting_no_step rfl rfl
    · exact fun n => .inl rfl
    · exact fun c => .inl rfl
  have hcreate : (E.state 1).run = .create := by
    rw [show E.state 1 = _ from hbegun]
  have hactive : (E.state 1).run ≠ .idle := by
    rw [hcreate]
    nofun
  obtain ⟨n, hn, error, hreturned⟩ := run_returns bareConfig E hE hfair 1 hactive
  exact ⟨E, hE, hcreate, n, error, hn, hreturned⟩

/-- While one caller asks the worker to terminate, the worker waits for the mutex of another one,
which has read 0 and is about to sleep. -/
theorem terminate_returns_locked :
    ∃ E : Execution (State Nat) (Event Nat),
      ((workerLts Nat bareConfig).restrict Outlives).Valid E ∧
      (E.state 18).terminate 0 = .push ∧ (E.state 18).worker = .set_lock 0 ∧
      ((E.state 18).calls 0).mtx = some .caller ∧
      ∃ n, 18 ≤ n ∧ (∃ result, (E.state n).terminate 0 = .returned result) ∧
        (E.state n).worker = .exited := by
  have h0 : ((workerLts Nat bareConfig).restrict Outlives).History []
      (TecWorker_init bareConfig) := .init rfl
  have h1 := h0.snoc_restrict (Step.call 0 (@CallStep.init _ 0 _ "add" rfl)) trivial
  have h2 := h1.snoc_restrict (Step.call 0 (.push rfl)) trivial
  have h3 := h2.run (run_started rfl (fun _ => trivial) rfl rfl rfl)
  have h4 := h3.snoc_restrict (Step.terminate 0 (.lock rfl rfl)) trivial
  have h5 := h4.snoc_restrict (Step.call 0 (.wait_load rfl)) trivial
  have h6 := h5.snoc_restrict (Step.call 0 (.wait_lock rfl rfl)) trivial
  have h7 := h6.snoc_restrict (Step.call 0 (.wait_check rfl)) trivial
  have h8 := h7.snoc_restrict (Step.worker (.pop rfl rfl)) trivial
  have h9 := h8.snoc_restrict (Step.worker (.dispatch_rpc rfl rfl)) trivial
  have h10 := h9.snoc_restrict (Step.worker (.on_rpc_none rfl rfl)) trivial
  have h11 := h10.snoc_restrict (Step.worker (.set_store rfl)) trivial
  have r12 := h11.here.snoc_restrict (Step.terminate 0 (.push rfl)) trivial
  have r13 := r12.snoc_restrict (Step.call 0 (.wait_sleep rfl)) trivial
  have r14 := r13.snoc_restrict (Step.worker (.set_lock rfl rfl)) trivial
  have r15 := r14.snoc_restrict (Step.worker (.set_broadcast rfl)) trivial
  have r16 := r15.snoc_restrict (Step.worker (.set_unlock rfl)) trivial
  have r17 := r16.snoc_restrict (Step.call 0 (.woken rfl rfl)) trivial
  have r18 := r17.snoc_restrict (Step.call 0 (.wait_check rfl)) trivial
  have r19 := r18.snoc_restrict (Step.call 0 (.wait_unlock rfl)) trivial
  have r20 := r19.snoc_restrict (Step.call 0 (.signal_done rfl)) (fun hset => by cases hset)
  have r21 := r20.snoc_restrict (Step.call 0 (.return rfl)) trivial
  have r22 := r21.snoc_restrict (Step.worker (.pop_null rfl rfl)) trivial
  have r23 := r22.snoc_restrict (Step.worker (.on_exit rfl)) trivial
  have r24 := r23.snoc_restrict (Step.worker (.set_terminated rfl)) trivial
  have r25 := r24.snoc_restrict (Step.terminate 0 (.wait_terminated rfl rfl)) trivial
  have r26 := r25.snoc_restrict (Step.terminate 0 (.join rfl rfl)) trivial
  have r27 := r26.snoc_restrict (Step.terminate 0 (.read rfl)) trivial
  have r28 := r27.snoc_restrict (Step.terminate 0 (.unlock rfl)) trivial
  obtain ⟨E, hE, hends, _, hbegun⟩ := h11.execution r28
  have hfair : ∀ i, E.Fair (Actor.alive_steps bareConfig i) := by
    intro i
    refine hends.fair fun e t hs => returned_no_steps ?_ ⟨_, rfl⟩ ?_ ?_ i hs.1
    · exact fun _ _ hs => worker_step_exited hs rfl
    · intro n
      by_cases hn : n = 0
      · subst hn
        exact .inr ⟨_, rfl⟩
      · left
        simp [State.setTerminate, State.setCall, hn]
        rfl
    · intro c
      by_cases hc : c = 0
      · subst hc
        exact .inr ⟨_, rfl⟩
      · left
        simp [State.setTerminate, State.setCall, hc]
        rfl
  have hstart : (E.state 18).terminate 0 = .push ∧ (E.state 18).worker = .set_lock 0 ∧
      ((E.state 18).calls 0).mtx = some .caller := by
    rw [show E.state 18 = _ from hbegun]
    exact ⟨rfl, rfl, rfl⟩
  obtain ⟨hpush, hworker, hmtx⟩ := hstart
  obtain ⟨n, hn, hreturned, hexited⟩ := terminate_returns bareConfig 0 E hE hfair 18
    ⟨by simp [hpush], by simp [hworker]⟩
  exact ⟨E, hE, hpush, hworker, hmtx, n, hn, hreturned, hexited⟩

end Tecc.Worker
