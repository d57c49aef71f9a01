import Tecc.WorkerJoin

/-! Who frees the messages: what was sent to a worker and what it has freed when `TecDaemon_done`
returns. -/
namespace Tecc.Worker

open Transition Fifo

variable {Cb : Type} {cfg : Config} {s t : State Cb} {l l' : Life Cb} {e : LifeEvent Cb}
  {ys : List (Event Cb)} {xs : List (LifeEvent Cb)}

def TecMsg.isNormal : TecMsg → Bool
  | .normal _ _ => true
  | .rpc _ _ => false

/-- The messages passed to `TecDaemon_send`, NULL and RPC messages aside. -/
def sent (ys : List (Event Cb)) : List TecMsg := (pushes ys).reduceOption.filter TecMsg.isNormal

/-- Those ahead of the first NULL. -/
def sent_ahead (ys : List (Event Cb)) : List TecMsg :=
  (before_null (pushes ys)).filter TecMsg.isNormal

/-- The messages passed to `TecMsg_free`. -/
def freed (ys : List (Event Cb)) : List TecMsg :=
  ys.filterMap fun e => match e with
    | .free msg => some msg
    | _ => none

theorem freed_append (ys zs : List (Event Cb)) : freed (ys ++ zs) = freed ys ++ freed zs :=
  List.filterMap_append

theorem freed_actions (ys : List (Event Cb)) : freed (actions ys) = freed ys := by
  rw [freed, actions, List.filterMap_filter]
  congr 1
  funext e
  cases e <;> rfl

theorem freed_script (f : String → Option Cb) (msg : TecMsg) :
    freed (script f msg) = if msg.isNormal then [msg] else [] := by
  cases hf : f msg.selector <;> cases msg <;> simp [script, handling, hf, freed, TecMsg.isNormal]

/-- The scripts of messages free the normal ones, in order. -/
theorem freed_scripts (f : String → Option Cb) (l : List TecMsg) :
    freed (l.flatMap (script f)) = l.filter TecMsg.isNormal := by
  induction l with
  | nil => rfl
  | cons msg l ih =>
    rw [List.flatMap_cons, freed_append, freed_script, ih, List.filter_cons]
    cases msg.isNormal <;> rfl

theorem sent_ahead_sublist (ys : List (Event Cb)) : (sent_ahead ys).Sublist (sent ys) :=
  (before_null_sublist _).filter _

/-- Only a worker that is initialized frees messages. -/
theorem freed_inited (h : (workerLts Cb cfg).History ys s) :
    PhaseInv s ∧ ErrorInv cfg s ∧
      ∀ msg, .free msg ∈ ys → cfg.InitOk ∧ s.worker.Inited := by
  refine h.induction (P := fun ys s => PhaseInv s ∧ ErrorInv cfg s ∧
    ∀ msg, .free msg ∈ ys → cfg.InitOk ∧ s.worker.Inited) ?_ ?_
  · intro s hi
    rw [show s = TecWorker_init cfg from hi]
    exact ⟨phaseInv_initial, ⟨fun _ => rfl, fun hin => hin.elim, fun hend => hend.elim⟩, (by simp)⟩
  · rintro ys s e t _ ⟨hphase, herror, hfreed⟩ hs
    refine ⟨phaseInv_step hs hphase, errorInv_step hs hphase.created herror, ?_⟩
    intro msg hm
    have hkept : s.worker.Inited → t.worker.Inited := by
      intro hin
      rcases step_cases hs with hw | ⟨c, hc⟩ | hu
      · exact move_inited (worker_step_move hw)
      · rw [call_step_worker hc]
        exact hin
      · rcases control_step_worker hu with hw | ⟨hrun, _⟩
        · rw [hw]
          exact hin
        · rw [hphase.created (.inr hrun)] at hin
          exact hin.elim
    rcases List.mem_append.mp hm with hm | hm
    · exact (hfreed msg hm).imp id hkept
    · cases List.mem_singleton.mp hm
      rcases step_cases hs with hw | ⟨c, hc⟩ | hu
      · have hloop : s.worker.Loop := by
          cases hw with
          | free hw =>
            rw [hw]
            trivial
        obtain ⟨hin, hend⟩ := loop_inited hloop
        exact ⟨(herror.inited hin hend).symm.trans (hphase.signal.loop hloop), hkept hin⟩
      · cases hc
      · rcases hu with hu | ⟨n, hu⟩ | hu <;> cases hu

/-- There is a worker thread once it was created. -/
theorem created_mem (h : (lifeLts Cb cfg).History xs l) :
    .create ∈ xs ↔ l.worker.worker ≠ .absent := by
  constructor
  · exact (controlTold_history h).create
  · refine h.induction (P := fun xs l => l.worker.worker ≠ .absent → .create ∈ xs) ?_ ?_
    · intro l hi hw
      rw [hi.worker] at hw
      exact absurd rfl hw
    · intro xs l e l' _ ih hs hw
      by_cases habsent : l.worker.worker = .absent
      · refine List.mem_append_right _ ?_
        cases hs with
        | worker hs hd =>
          cases hs with
          | on_init hpc _ _ => cases habsent.symm.trans hpc
          | on_exit hpc _ _ => cases habsent.symm.trans hpc
          | step hs _ => exact absurd habsent (move_present (worker_step_move hs)).1
        | run hs hd =>
          cases hs with
          | step hs =>
            cases hs with
            | create hr => simp [run_label, hr]
            | _ => exact absurd habsent hw
        | terminate n hs hd =>
          cases hs with
          | step hs => exact absurd ((terminate_step_same hs).2.trans habsent) hw
        | call c hs hd => exact absurd ((call_step_worker hs).trans habsent) hw
        | user hs hd => cases hs <;> exact absurd habsent hw
        | done hs => cases hs <;> exact absurd habsent hw
      · exact List.mem_append_left _ (ih habsent)

/-- When `TecDaemon_done` returns, the messages ahead of the first NULL are freed if the worker was
running, and no other ones. -/
theorem freed_done (h : (lifeLts Cb cfg).History xs l) (hdone : l.done = .returned) :
    (.create ∈ xs ∧ cfg.InitOk → freed (events xs) = sent_ahead (events xs)) ∧
      (¬ (.create ∈ xs ∧ cfg.InitOk) → freed (events xs) = []) := by
  have hbase := life_history h
  refine ⟨?_, ?_⟩
  · rintro ⟨hcreate, hinit⟩
    obtain ⟨l₀, hi, hr⟩ := h
    have hexited : l.worker.worker = .exited :=
      (done_exited (joinInv_run hi hr) (by rw [hdone]; trivial)).resolve_left
        ((created_mem ⟨l₀, hi, hr⟩).mp hcreate)
    rw [← freed_actions, actions_exited hbase hinit hexited, freed_scripts]
    rfl
  · intro hnot
    refine List.eq_nil_iff_forall_not_mem.mpr fun msg hm => hnot ?_
    obtain ⟨e, he, hmsg⟩ := List.mem_filterMap.mp hm
    have hfree : e = .free msg := by
      cases e with
      | free msg' => exact congrArg Event.free (Option.some.inj hmsg)
      | _ => cases hmsg
    rw [hfree] at he
    obtain ⟨hinit, hin⟩ := (freed_inited hbase).2.2 msg he
    refine ⟨(created_mem h).mpr ?_, hinit⟩
    intro habsent
    rw [habsent] at hin
    exact hin

/-- When `TecDaemon_done` returns, every message that was sent is freed exactly once, if and only if
all of them were sent ahead of the first NULL, to a worker that came to run. -/
theorem messages_freed (h : (lifeLts Cb cfg).History xs l) (hdone : l.done = .returned) :
    (freed (events xs)).Perm (sent (events xs)) ↔
      sent (events xs) = sent_ahead (events xs) ∧
        (sent (events xs) = [] ∨ .create ∈ xs ∧ cfg.InitOk) := by
  obtain ⟨hrun, hidle⟩ := freed_done h hdone
  have hsub := sent_ahead_sublist (events xs)
  by_cases hok : .create ∈ xs ∧ cfg.InitOk
  · rw [hrun hok]
    constructor
    · exact fun hperm => ⟨(hsub.eq_of_length hperm.length_eq).symm, .inr hok⟩
    · rintro ⟨hahead, _⟩
      rw [← hahead]
  · rw [hidle hok]
    constructor
    · intro hperm
      have hnone : sent (events xs) = [] := hperm.symm.eq_nil
      rw [hnone] at hsub
      exact ⟨hnone.trans (List.eq_nil_of_sublist_nil hsub).symm, .inl hnone⟩
    · rintro ⟨_, hnone | hrun⟩
      · rw [hnone]
      · exact absurd hrun hok

theorem mem_sent {address : Nat} {tag : String}
    (h : .event (.push (some (.normal address tag))) ∈ xs) :
    TecMsg.normal address tag ∈ sent (events xs) := by
  refine List.mem_filter.mpr ⟨List.reduceOption_mem_iff.mpr ?_, rfl⟩
  exact List.mem_filterMap.mpr ⟨_, List.mem_filterMap.mpr ⟨_, h, rfl⟩, rfl⟩

/-- A message that was sent before the run and freed in it. -/
theorem messages_freed_run :
    ∃ (xs : List (LifeEvent Nat)) (l : Life Nat), (lifeLts Nat bareConfig).History xs l ∧
      l.done = .returned ∧ .normal 1 "text" ∈ sent (events xs) ∧
      ((freed (events xs)).Perm (sent (events xs)) ↔
        sent (events xs) = sent_ahead (events xs) ∧
          (sent (events xs) = [] ∨ .create ∈ xs ∧ bareConfig.InitOk)) := by
  let start : Life Nat := ⟨TecWorker_init bareConfig, ⟨0, none⟩, false, .idle⟩
  have h0 : (lifeLts Nat bareConfig).History [] start := .init ⟨rfl, rfl, rfl, rfl⟩
  have h1 := h0.snoc (LifeStep.user (@UserStep.send _ _ _ 1 "text" (by decide)) rfl)
  have h2 := h1.run (life_started rfl rfl rfl rfl rfl)
  have h3 := h2.snoc (LifeStep.terminate 0 (.step (.lock rfl rfl)) rfl)
  have h4 := h3.snoc (LifeStep.terminate 0 (.step (.push rfl)) rfl)
  have h5 := h4.snoc (LifeStep.worker (.step (.pop rfl rfl) rfl) (.inl rfl))
  have h6 := h5.snoc (LifeStep.worker (.step (.dispatch_msg rfl (by decide)) rfl) (.inl rfl))
  have h7 := h6.snoc (LifeStep.worker (.step (.on_msg_none rfl rfl) rfl) (.inl rfl))
  have h8 := h7.snoc (LifeStep.worker (.step (.free rfl) rfl) (.inl rfl))
  have h9 := h8.snoc (LifeStep.worker (.step (.pop_null rfl rfl) rfl) (.inl rfl))
  have h10 := h9.snoc (LifeStep.worker (.step (.on_exit rfl) rfl) (.inl rfl))
  have h11 := h10.snoc (LifeStep.worker (.step (.set_terminated rfl) rfl) (.inl rfl))
  have h12 := h11.snoc (LifeStep.terminate 0 (.step (.wait_terminated rfl rfl)) rfl)
  have h13 := h12.snoc (LifeStep.terminate 0 (.step (.join rfl rfl)) rfl)
  have h14 := h13.snoc (LifeStep.terminate 0 (.step (.read rfl)) rfl)
  have h15 := h14.snoc (LifeStep.terminate 0 (.step (.unlock rfl)) rfl)
  have h16 := h15.snoc (LifeStep.done (.call rfl (.inr ⟨0, rfl⟩) fun n => by
    by_cases hn : n = 0
    · subst hn
      exact .inr ⟨0, rfl⟩
    · exact .inl (by simp [State.setTerminate, hn, start, TecWorker_init])))
  have h17 := h16.snoc (LifeStep.done (.skip rfl rfl))
  have h18 := h17.snoc (LifeStep.done (.destroy rfl))
  refine ⟨_, _, h18, rfl, mem_sent ?_, messages_freed h18 rfl⟩
  iterate 17 apply List.mem_append_left
  exact List.mem_concat_self

theorem leaked_of_failed {address : Nat} {tag : String} (h : (lifeLts Cb cfg).History xs l)
    (hdone : l.done = .returned) (hinit : ¬ cfg.InitOk)
    (hsend : .event (.push (some (.normal address tag))) ∈ xs) :
    ¬ (freed (events xs)).Perm (sent (events xs)) := by
  intro hperm
  rw [(freed_done h hdone).2 fun hok => hinit hok.2] at hperm
  cases hperm.symm.subset (mem_sent hsend)

/-- A message is sent to a worker whose `on_init` returns 7, and nobody frees it. -/
theorem messages_leaked :
    ¬ ∀ (cfg : Config) (xs : List (LifeEvent Nat)) (l : Life Nat),
      (lifeLts Nat cfg).History xs l → l.done = .returned →
      (freed (events xs)).Perm (sent (events xs)) := by
  intro h
  let cfg : Config := { bareConfig with on_init := some 7 }
  let start : Life Nat := ⟨TecWorker_init cfg, ⟨0, none⟩, false, .idle⟩
  have h0 : (lifeLts Nat cfg).History [] start := .init ⟨rfl, rfl, rfl, rfl⟩
  have h1 := h0.snoc (LifeStep.run (.step (.lock rfl rfl)) rfl)
  have h2 := h1.snoc (LifeStep.run (.step (.create rfl)) rfl)
  have h3 := h2.snoc (LifeStep.worker (.on_init rfl rfl rfl) (.inl rfl))
  have h4 := h3.snoc (LifeStep.worker (.step (.on_init rfl) rfl) (.inl rfl))
  have h5 := h4.snoc (LifeStep.worker (.step (.set_running rfl) rfl) (.inl rfl))
  have h6 := h5.snoc (LifeStep.run (.step (.wait_running rfl rfl)) rfl)
  have h7 := h6.snoc (LifeStep.worker (.step (.test_error rfl) rfl) (.inl rfl))
  have h8 := h7.snoc (LifeStep.worker (.step (.on_exit rfl) rfl) (.inl rfl))
  have h9 := h8.snoc (LifeStep.worker (.step (.set_terminated rfl) rfl) (.inl rfl))
  have h10 := h9.snoc (LifeStep.run (.step (.join rfl rfl)) rfl)
  have h11 := h10.snoc (LifeStep.run (.step (.unlock rfl)) rfl)
  have h12 := h11.snoc (LifeStep.run (.step (.return rfl)) rfl)
  have h13 := h12.snoc (LifeStep.terminate 0 (.step (.lock rfl rfl)) rfl)
  have h14 := h13.snoc (LifeStep.terminate 0 (.step (.push rfl)) rfl)
  have h15 := h14.snoc (LifeStep.terminate 0 (.step (.wait_terminated rfl rfl)) rfl)
  have h16 := h15.snoc (LifeStep.terminate 0 (.step (.join rfl rfl)) rfl)
  have h17 := h16.snoc (LifeStep.terminate 0 (.step (.read rfl)) rfl)
  have h18 := h17.snoc (LifeStep.terminate 0 (.step (.unlock rfl)) rfl)
  have h19 := h18.snoc (LifeStep.user (@UserStep.send _ _ _ 1 "text" (by decide)) rfl)
  have h20 := h19.snoc (LifeStep.done (.call rfl (.inr ⟨7, rfl⟩) fun n => by
    by_cases hn : n = 0
    · subst hn
      exact .inr ⟨7, rfl⟩
    · exact .inl (by simp [State.setTerminate, hn, start, TecWorker_init])))
  have h21 := h20.snoc (LifeStep.done (.skip rfl rfl))
  have h22 := h21.snoc (LifeStep.done (.destroy rfl))
  exact leaked_of_failed h22 rfl (show (7 : Int) ≠ 0 by decide)
    (List.mem_append_left _ (List.mem_append_left _ (List.mem_append_left _ mem_snoc_self)))
    (h cfg _ _ h22 rfl)

end Tecc.Worker
