import Mathlib.Data.Nat.ModEq
import Tecc.Lib.RoundRobin
import Tecc.ThrPoolPayload

/-! The nodes that `TecThrPool_enqueue` selects, in the order of the increments of the counter. -/
namespace Tecc.ThrPool

open Machine Memory Arena Transition RoundRobin

variable {self : TecThrPool} {request : Nat → Request} {nelems : Nat} {s t : State} {e : Event}
  {xs : List Event} {took : List Nat} {c n N i : Nat}

/-- The counter before its increment number `i`, converted for the remainder. -/
def counter (i : Nat) : Nat := toSize (toInt i)

/-- What the first `N` increments select of `n` nodes. -/
def picks (n N : Nat) : List Nat := (List.range N).map fun i => counter i % n

/-- The counter goes on by one, but for the ends of the two ranges of an `int`. -/
theorem counter_succ (i : Nat) :
    counter (i + 1) =
      if i % 4294967296 = 2147483647 then 18446744071562067968
      else if i % 4294967296 = 4294967295 then 0
      else counter i + 1 := by
  unfold counter toSize toInt
  split
  · omega
  · split <;> omega

theorem counter_max (h : i % 4294967296 = 2147483647) : counter i = 2147483647 := by
  unfold counter toSize toInt
  omega

theorem counter_minus_one (h : i % 4294967296 = 4294967295) :
    counter i = 18446744073709551615 := by
  unfold counter toSize toInt
  omega

theorem picks_length (n N : Nat) : (picks n N).length = N := by simp [picks]

theorem picks_get (hi : i < N) : (picks n N)[i]? = some (counter i % n) := by
  simp [picks, hi]

theorem picks_succ (n N : Nat) : picks n (N + 1) = picks n N ++ [counter N % n] := by
  simp [picks, List.range_succ]

/-- Where the counter becomes negative, the remainder goes on if `n` divides 2^64 - 2^32. -/
theorem goes_round_negative :
    18446744071562067968 % n = (2147483647 % n + 1) % n ↔ n ∣ 18446744069414584320 := by
  rw [Nat.mod_add_mod]
  have hiff : 2147483648 + 18446744069414584320 ≡ 2147483648 [MOD n] ↔ _ :=
    Nat.add_modEq_left_iff
  exact hiff

/-- Where it comes back to zero, the remainder goes on if `n` divides 2^64. -/
theorem goes_round_zero :
    0 % n = (18446744073709551615 % n + 1) % n ↔ n ∣ 18446744073709551616 := by
  rw [Nat.mod_add_mod, Nat.zero_mod]
  exact ⟨fun h => Nat.dvd_of_mod_eq_zero h.symm, fun h => (Nat.mod_eq_zero_of_dvd h).symm⟩

theorem picks_goesRound_iff (n N : Nat) :
    GoesRound n (picks n N) ↔
      (N ≤ 2147483648 ∨ n ∣ 18446744069414584320) ∧
      (N ≤ 4294967296 ∨ n ∣ 18446744073709551616) := by
  constructor
  · intro h
    constructor
    · rcases Nat.lt_or_ge 2147483648 N with hN | hN
      · right
        have hnext := h 2147483647 _ _ (picks_get (by omega)) (picks_get (by omega))
        rw [counter_succ, if_pos rfl, counter_max rfl] at hnext
        exact goes_round_negative.mp hnext
      · exact .inl hN
    · rcases Nat.lt_or_ge 4294967296 N with hN | hN
      · right
        have hnext := h 4294967295 _ _ (picks_get (by omega)) (picks_get (by omega))
        rw [counter_succ, if_neg (by decide), if_pos rfl, counter_minus_one rfl] at hnext
        exact goes_round_zero.mp hnext
      · exact .inl hN
  · rintro ⟨hnegative, hzero⟩ i j k hj hk
    have hi : i + 1 < N := by
      have hlt := (List.getElem?_eq_some_iff.mp hk).1
      rwa [picks_length] at hlt
    rw [picks_get (by omega)] at hj
    rw [picks_get hi, counter_succ] at hk
    obtain rfl := Option.some.inj hj
    obtain rfl := Option.some.inj hk
    by_cases hmax : i % 4294967296 = 2147483647
    · rw [if_pos hmax, counter_max hmax]
      exact goes_round_negative.mpr (hnegative.resolve_left (by omega))
    · rw [if_neg hmax]
      by_cases hminus : i % 4294967296 = 4294967295
      · rw [if_pos hminus, counter_minus_one hminus]
        exact goes_round_zero.mpr (hzero.resolve_left (by omega))
      · rw [if_neg hminus]
        exact (Nat.mod_add_mod (counter i) n 1).symm

/-- A call that takes its number from the counter is noted. -/
inductive Takes : State → Event → State → List Nat → Prop
  | call {s t : State} {e : Event} (c : Nat) (hs : (s.calls c).pc = .idle)
      (ht : (t.calls c).pc ≠ .idle) : Takes s e t [c]
  | none {s t : State} {e : Event} (h : ∀ c, (s.calls c).pc = .idle → (t.calls c).pc = .idle) :
      Takes s e t []

/-- A step either takes a number, or leaves the counter and who has one. -/
theorem takes_step (hs : Step self request s e t) :
    (∃ c, (s.calls c).pc = .idle ∧ (t.calls c).pc ≠ .idle ∧
      (t.calls c).ndx = toSize s.next_thread_index % self.nthreads ∧
      t.next_thread_index = toInt (s.next_thread_index + 1) ∧
      ∀ d, d ≠ c → t.calls d = s.calls d) ∨
    t.next_thread_index = s.next_thread_index ∧
      ∀ c, (t.calls c).ndx = (s.calls c).ndx ∧
        ((t.calls c).pc = .idle ↔ (s.calls c).pc = .idle) := by
  cases hs with
  | thread n hs =>
    right
    rw [(thread_step_cases hs).calls]
    refine ⟨?_, fun c => ⟨rfl, Iff.rfl⟩⟩
    cases hs <;> rfl
  | run hs =>
    right
    cases hs <;> exact ⟨rfl, fun c => ⟨rfl, Iff.rfl⟩⟩
  | done hs =>
    right
    cases hs <;> exact ⟨rfl, fun c => ⟨rfl, Iff.rfl⟩⟩
  | enqueue c hs hopen =>
    have hkept : ∀ new : Call, (s.calls c).pc ≠ .idle → new.ndx = (s.calls c).ndx →
        new.pc ≠ .idle → ∀ d, (Function.update s.calls c new d).ndx = (s.calls d).ndx ∧
          ((Function.update s.calls c new d).pc = .idle ↔ (s.calls d).pc = .idle) := by
      intro new hs hndx hnew
      exact (Function.forall_update_iff s.calls (p := fun d (new : Call) =>
        new.ndx = (s.calls d).ndx ∧ (new.pc = .idle ↔ (s.calls d).pc = .idle))).mpr
          ⟨⟨hndx, iff_of_false hnew hs⟩, fun d _ => ⟨rfl, Iff.rfl⟩⟩
    have hother := (enqueue_step_cases hs).calls
    cases hs with
    | fetch_add hc => exact .inl ⟨c, hc, by simp, by simp, rfl, hother⟩
    | allocate hc | buffer_size hc | buffer hc | payload hc | copied hc | task_func hc | args hc
    | push hc => exact .inr ⟨rfl, hkept _ (by simp [hc]) rfl (by simp)⟩
    | copy hc => exact .inr ⟨rfl, hkept _ (by simp [hc]) rfl (by simp [hc])⟩
    | test_payload hc =>
      refine .inr ⟨rfl, hkept _ (by simp [hc]) rfl ?_⟩
      dsimp only
      split <;> simp

theorem takes_total (hs : Step self request s e t) : ∃ l, Takes s e t l := by
  rcases takes_step hs with ⟨c, hc, hc', _⟩ | ⟨_, hcalls⟩
  · exact ⟨[c], .call c hc hc'⟩
  · exact ⟨[], .none fun c hc => (hcalls c).2.mpr hc⟩

/-- The pool with the calls that have a number, in the order of the increments. -/
def countedLts (self : TecThrPool) (request : Nat → Request) (nelems : Nat) :
    Lts (State × List Nat) Event :=
  (poolLts self request nelems).record Takes

/-- The record adds nothing: every history of the pool has one. -/
theorem counted_of_history (h : (poolLts self request nelems).History xs s) :
    ∃ took, (countedLts self request nelems).History xs (s, took) :=
  h.record fun _ _ _ hs => takes_total hs

/-- The nodes of these calls. -/
def State.selected (s : State) (took : List Nat) : List Nat := took.map fun c => (s.calls c).ndx

structure Counted (pool : TecThrPool) (s : State) (took : List Nat) : Prop where
  counter : s.next_thread_index = toInt took.length
  started : ∀ c ∈ took, (s.calls c).pc ≠ .idle
  selected : s.selected took = picks pool.nthreads took.length

theorem Counted.take (h : Counted self s took) (hc : (s.calls c).pc = .idle)
    (hstarted : (t.calls c).pc ≠ .idle)
    (hndx : (t.calls c).ndx = toSize s.next_thread_index % self.nthreads)
    (hnext : t.next_thread_index = toInt (s.next_thread_index + 1))
    (hother : ∀ d, d ≠ c → t.calls d = s.calls d) : Counted self t (took ++ [c]) := by
  have hne : ∀ d ∈ took, d ≠ c := by
    rintro d hd rfl
    exact h.started d hd hc
  refine ⟨?_, ?_, ?_⟩
  · rw [hnext, h.counter, List.length_append, List.length_singleton]
    unfold toInt
    omega
  · intro d hd
    rcases List.mem_append.mp hd with hd | hd
    · rw [hother d (hne d hd)]
      exact h.started d hd
    · rw [List.mem_singleton.mp hd]
      exact hstarted
  · have hkept : t.selected took = s.selected took :=
      List.map_congr_left fun d hd => by rw [hother d (hne d hd)]
    rw [State.selected, List.map_append, ← State.selected, hkept, h.selected,
      List.length_append, List.length_singleton, picks_succ, List.map_singleton, hndx, h.counter]
    rfl

theorem Counted.keep (h : Counted self s took) (hnext : t.next_thread_index = s.next_thread_index)
    (hcalls : ∀ c, (t.calls c).ndx = (s.calls c).ndx ∧
      ((t.calls c).pc = .idle ↔ (s.calls c).pc = .idle)) : Counted self t took := by
  refine ⟨hnext.trans h.counter, ?_, ?_⟩
  · intro c hc hidle
    exact h.started c hc ((hcalls c).2.mp hidle)
  · rw [← h.selected]
    exact List.map_congr_left fun c _ => (hcalls c).1

theorem counted_step {l : List Nat} (hs : Step self request s e t) (hl : Takes s e t l)
    (h : Counted self s took) : Counted self t (took ++ l) := by
  rcases takes_step hs with ⟨c, hc, hc', hndx, hnext, hother⟩ | ⟨hnext, hcalls⟩
  · cases hl with
    | call d hd hd' =>
      have hdc : d = c := by
        by_contra hne
        rw [hother d hne] at hd'
        exact hd' hd
      subst hdc
      exact h.take hc hc' hndx hnext hother
    | none hnone => exact absurd (hnone c hc) hc'
  · cases hl with
    | call d hd hd' => exact absurd ((hcalls d).2.mpr hd) hd'
    | none _ =>
      rw [List.append_nil]
      exact h.keep hnext hcalls

theorem counted_reachable (h : (countedLts self request nelems).Reachable (s, took)) :
    Counted self s took := by
  refine h.invariant (P := fun p => Counted self p.1 p.2) ?_ ?_
  · rintro ⟨s, took⟩ ⟨hinit, rfl⟩
    obtain ⟨m, calloc, rfl⟩ := hinit.state
    refine ⟨(toInt_of_lt (n := 0) (by decide)).symm, fun c hc => absurd hc List.not_mem_nil, ?_⟩
    simp [State.selected, picks]
  · rintro ⟨s, took⟩ e ⟨t, took'⟩ hcounted ⟨hs, l, hl, rfl⟩
    exact counted_step hs hl hcounted

theorem nthreads_pos (h : (poolLts self request nelems).Reachable s) : 0 < self.nthreads := by
  obtain ⟨xs, s₀, hinit, _⟩ := h
  exact hinit.nthreads

/-- Any number of calls may take their numbers, one after the other. -/
theorem counted_run (request : Nat → Request) (hinit : Initial self nelems s) (N : Nat) :
    ∃ t, (countedLts self request nelems).Reachable (t, List.range N) ∧
      ∀ c, N ≤ c → (t.calls c).pc = .idle := by
  induction N with
  | zero =>
    refine ⟨s, ⟨[], .init ⟨hinit, rfl⟩⟩, ?_⟩
    obtain ⟨m, calloc, rfl⟩ := hinit.state
    exact fun _ _ => rfl
  | succ N ih =>
    obtain ⟨t, ⟨xs, hxs⟩, hidle⟩ := ih
    have hN := hidle N (Nat.le_refl N)
    have hsnoc := hxs.snoc_record (Step.enqueue N (.fetch_add hN) (fun h => absurd hN h))
      (.call N hN (by simp))
    rw [← List.range_succ] at hsnoc
    refine ⟨_, hsnoc.reachable, ?_⟩
    intro c hc
    change (Function.update t.calls N _ c).pc = .idle
    rw [Function.update_of_ne (by omega)]
    exact hidle c (by omega)

/-- A pool of `nthreads` threads without buffers and payloads. -/
theorem bare_threads_initial {nthreads : Nat} (hn : 0 < nthreads) :
    Initial (TecThrPool_init nthreads 0 0 0 0) 0 bareState :=
  initial_bare hn ⟨0, 0, rfl⟩ (fun h => absurd rfl h) (fun h => absurd rfl h)

/-- The calls go round the nodes, and no node gets two tasks more than another, exactly when there
are at most 2^31 calls or the number of nodes divides 2^64 - 2^32, and there are at most 2^32 calls
or it divides 2^64. -/
theorem round_robin_iff (self : TecThrPool) (nelems : Nat) (request : Nat → Request) (s : State)
    (took : List Nat) (h : (countedLts self request nelems).Reachable (s, took)) :
    (GoesRound self.nthreads (s.selected took) ∧ Balanced self.nthreads (s.selected took)) ↔
      (took.length ≤ 2147483648 ∨ self.nthreads ∣ 18446744069414584320) ∧
      (took.length ≤ 4294967296 ∨ self.nthreads ∣ 18446744073709551616) := by
  have hpos : 0 < self.nthreads := by
    obtain ⟨xs, hxs⟩ := h
    exact nthreads_pos hxs.of_record.reachable
  rw [(counted_reachable h).selected, ← picks_goesRound_iff]
  refine ⟨And.left, fun hround => ⟨hround, balanced_of_goesRound hpos hround ?_⟩⟩
  intro j hj
  have hlt := (List.getElem?_eq_some_iff.mp hj).1
  rw [picks_length] at hlt
  rw [picks_get hlt] at hj
  exact (Option.some.inj hj).symm.trans (Nat.zero_mod _)

/-- Eight billion calls and more go round four threads. -/
theorem round_robin_four :
    ∃ s, (countedLts (TecThrPool_init 4 0 0 0 0) (fun _ => bareRequest) 0).Reachable
        (s, List.range 8589934592) ∧
      GoesRound 4 (s.selected (List.range 8589934592)) ∧
      Balanced 4 (s.selected (List.range 8589934592)) := by
  obtain ⟨s, hs, _⟩ := counted_run (fun _ => bareRequest) (@bare_threads_initial 4 (by decide))
    8589934592
  have hiff := round_robin_iff _ _ _ s _ hs
  exact ⟨s, hs, hiff.mpr ⟨.inr (by decide), .inr (by decide)⟩⟩

/-- Seven threads: call 2^31 - 1 selects node 1, and call 2^31 node 0. -/
theorem round_robin_broken :
    ¬ ∀ (self : TecThrPool) (nelems : Nat) (request : Nat → Request) (s : State) (took : List Nat),
      (countedLts self request nelems).Reachable (s, took) →
        GoesRound self.nthreads (s.selected took) ∧
          Balanced self.nthreads (s.selected took) := by
  intro h
  obtain ⟨s, hs, _⟩ := counted_run (fun _ => bareRequest)
    (@bare_threads_initial 7 (by decide)) 2147483649
  obtain ⟨hround, _⟩ := h _ _ _ s _ hs
  rw [(counted_reachable hs).selected, List.length_range] at hround
  rcases ((picks_goesRound_iff 7 _).mp hround).1 with hle | hdvd
  · exact absurd hle (by decide)
  · exact absurd hdvd (by decide)

end Tecc.ThrPool
