import Tecc.Lib.Machine

/-! The conversions of tecc_time.c. C divides towards zero, before the epoch as well. -/
namespace Tecc.Time

open Machine

structure timespec where
  tv_sec : Int
  tv_nsec : Int
deriving DecidableEq, Repr

def tec_tp_to_ts (tp : Int) : timespec :=
  let tv_sec := toLong (tp.tdiv 1000000000)
  { tv_sec := tv_sec, tv_nsec := toLong (tp - toLong (tv_sec * 1000000000)) }

def tec_ts_to_tp (ts : timespec) : Int :=
  toLong (toLong (ts.tv_sec * 1000000000) + ts.tv_nsec)

/-- `gmtime` is the broken-down time of a number of seconds. -/
def tec_ts_to_tm {tm : Type*} (gmtime : Int → tm) (ts : timespec) : tm := gmtime ts.tv_sec

def tec_tp_to_tm {tm : Type*} (gmtime : Int → tm) (tp : Int) : tm :=
  tec_ts_to_tm gmtime (tec_tp_to_ts tp)

/-- `tp` is a `TecTimePoint`. -/
def TimePoint (tp : Int) : Prop := -9223372036854775808 ≤ tp ∧ tp < 9223372036854775808

/-- What POSIX takes as a time. -/
def timespec.Normalised (ts : timespec) : Prop := 0 ≤ ts.tv_nsec ∧ ts.tv_nsec < 1000000000

instance (tp : Int) : Decidable (TimePoint tp) :=
  inferInstanceAs (Decidable (_ ∧ _))

instance (ts : timespec) : Decidable ts.Normalised :=
  inferInstanceAs (Decidable (_ ∧ _))

/-- The nanoseconds that a time stands for. -/
def timespec.value (ts : timespec) : Int := ts.tv_sec * 1000000000 + ts.tv_nsec

/-- The lexicographic order. -/
def timespec.Le (ts ts' : timespec) : Prop :=
  ts.tv_sec < ts'.tv_sec ∨ ts.tv_sec = ts'.tv_sec ∧ ts.tv_nsec ≤ ts'.tv_nsec

/-- The time of a time point is valid, its second is the floor, which is also the second of its
broken-down time, and it converts back. -/
def Floors (tp : Int) : Prop :=
  (tec_tp_to_ts tp).tv_sec = tp / 1000000000 ∧ (tec_tp_to_ts tp).Normalised ∧
    tec_tp_to_tm id tp = tp / 1000000000 ∧ tec_ts_to_tp (tec_tp_to_ts tp) = tp

variable {tp tp' : Int} {ts : timespec}

theorem nonpos_tmod (h : tp ≤ 0) (b : Int) : tp.tmod b ≤ 0 := by
  have hneg := Int.tmod_nonneg b (show 0 ≤ -tp by omega)
  rw [Int.neg_tmod] at hneg
  omega

/-- The remainder has the sign of the time point, and nothing wraps. -/
theorem tec_tp_to_ts_eq (h : TimePoint tp) :
    tec_tp_to_ts tp = ⟨tp.tdiv 1000000000, tp.tmod 1000000000⟩ := by
  obtain ⟨hlo, hhi⟩ := h
  have hsum := Int.tdiv_mul_add_tmod tp 1000000000
  have hlow := Int.lt_tmod_of_pos tp (show 0 < (1000000000 : Int) by decide)
  have hhigh := Int.tmod_lt_of_pos tp (show 0 < (1000000000 : Int) by decide)
  have hquot : toLong (tp.tdiv 1000000000) = tp.tdiv 1000000000 :=
    toLong_of_bounds (by omega) (by omega)
  have hprod : toLong (tp.tdiv 1000000000 * 1000000000) = tp.tdiv 1000000000 * 1000000000 := by
    rcases Int.le_total 0 tp with hpos | hneg
    · have hrem := Int.tmod_nonneg 1000000000 hpos
      exact toLong_of_bounds (by omega) (by omega)
    · have hrem := nonpos_tmod hneg 1000000000
      exact toLong_of_bounds (by omega) (by omega)
  have hrest : toLong (tp - tp.tdiv 1000000000 * 1000000000) = tp.tmod 1000000000 := by
    rw [toLong_of_bounds (by omega) (by omega)]
    omega
  simp only [tec_tp_to_ts, hquot, hprod, hrest]

theorem tec_ts_to_tp_eq (h : TimePoint ts.value) : tec_ts_to_tp ts = ts.value := by
  obtain ⟨hlo, hhi⟩ := h
  unfold timespec.value at *
  unfold tec_ts_to_tp toLong
  omega

theorem value_tec_tp_to_ts (h : TimePoint tp) : (tec_tp_to_ts tp).value = tp := by
  rw [tec_tp_to_ts_eq h]
  exact Int.tdiv_mul_add_tmod tp 1000000000

theorem round_trip (h : TimePoint tp) : tec_ts_to_tp (tec_tp_to_ts tp) = tp := by
  have hvalue := value_tec_tp_to_ts h
  rw [tec_ts_to_tp_eq (by rwa [hvalue]), hvalue]

theorem normalised_of_nonneg (h : TimePoint tp) (hpos : 0 ≤ tp) :
    (tec_tp_to_ts tp).Normalised := by
  rw [tec_tp_to_ts_eq h]
  exact ⟨Int.tmod_nonneg _ hpos, Int.tmod_lt_of_pos _ (by decide)⟩

/-- Before the epoch the remainder is never positive. -/
theorem normalised_iff (h : TimePoint tp) :
    (tec_tp_to_ts tp).Normalised ↔ 0 ≤ tp ∨ 1000000000 ∣ tp := by
  constructor
  · intro hn
    rw [tec_tp_to_ts_eq h] at hn
    rcases Int.le_total 0 tp with hpos | hneg
    · exact .inl hpos
    · have hrem := nonpos_tmod hneg 1000000000
      exact .inr (Int.dvd_of_tmod_eq_zero (Int.le_antisymm hrem hn.1))
  · rintro (hpos | hdvd)
    · exact normalised_of_nonneg h hpos
    · rw [tec_tp_to_ts_eq h, Int.tmod_eq_zero_of_dvd hdvd]
      exact ⟨Int.le_refl 0, show (0 : Int) < 1000000000 by decide⟩

/-- A normalised time is determined by its value. -/
theorem normalised_sec (hn : ts.Normalised) : ts.tv_sec = ts.value / 1000000000 := by
  obtain ⟨hlo, hhi⟩ := hn
  unfold timespec.value
  omega

theorem floors_iff (h : TimePoint tp) : Floors tp ↔ 0 ≤ tp ∨ 1000000000 ∣ tp := by
  rw [← normalised_iff h]
  constructor
  · exact fun hf => hf.2.1
  · intro hn
    have hsec := normalised_sec hn
    rw [value_tec_tp_to_ts h] at hsec
    exact ⟨hsec, hn, hsec, round_trip h⟩

/-- Division towards zero is monotone, so the order survives before the epoch as well. -/
theorem le_iff (h : TimePoint tp) (h' : TimePoint tp') :
    tp ≤ tp' ↔ (tec_tp_to_ts tp).Le (tec_tp_to_ts tp') := by
  have hsum := Int.tdiv_mul_add_tmod tp 1000000000
  have hsum' := Int.tdiv_mul_add_tmod tp' 1000000000
  have hlow := Int.lt_tmod_of_pos tp (show 0 < (1000000000 : Int) by decide)
  have hlow' := Int.lt_tmod_of_pos tp' (show 0 < (1000000000 : Int) by decide)
  have hhigh := Int.tmod_lt_of_pos tp (show 0 < (1000000000 : Int) by decide)
  have hhigh' := Int.tmod_lt_of_pos tp' (show 0 < (1000000000 : Int) by decide)
  rw [tec_tp_to_ts_eq h, tec_tp_to_ts_eq h']
  unfold timespec.Le
  dsimp only
  rcases Int.le_total 0 tp with hpos | hneg <;> rcases Int.le_total 0 tp' with hpos' | hneg'
  · have hrem := Int.tmod_nonneg 1000000000 hpos
    have hrem' := Int.tmod_nonneg 1000000000 hpos'
    omega
  · have hrem := Int.tmod_nonneg 1000000000 hpos
    have hrem' := nonpos_tmod hneg' 1000000000
    omega
  · have hrem := nonpos_tmod hneg 1000000000
    have hrem' := Int.tmod_nonneg 1000000000 hpos'
    omega
  · have hrem := nonpos_tmod hneg 1000000000
    have hrem' := nonpos_tmod hneg' 1000000000
    omega

theorem restored_iff (hn : ts.Normalised) (h : TimePoint ts.value) :
    tec_tp_to_ts (tec_ts_to_tp ts) = ts ↔ 0 ≤ ts.value ∨ ts.tv_nsec = 0 := by
  rw [tec_ts_to_tp_eq h]
  have hdvd : 1000000000 ∣ ts.value ↔ ts.tv_nsec = 0 := by
    obtain ⟨hlo, hhi⟩ := hn
    unfold timespec.value
    omega
  rw [← hdvd, ← normalised_iff h]
  constructor
  · intro he
    rwa [he]
  · intro hn'
    have hsec := normalised_sec hn'
    have hvalue := value_tec_tp_to_ts h
    rw [hvalue, ← normalised_sec hn] at hsec
    have hnsec : (tec_tp_to_ts ts.value).tv_nsec = ts.tv_nsec := by
      unfold timespec.value at hvalue hsec ⊢
      omega
    cases hts : tec_tp_to_ts ts.value with
    | mk tv_sec tv_nsec =>
      rw [hts] at hsec hnsec
      cases hsec
      cases hnsec
      rfl

/-- Time points convert faithfully exactly from the epoch on and at whole seconds before it; the
way back and the order are exact everywhere. -/
theorem conversions_exact (tp tp' : Int) (ts : timespec) (h : TimePoint tp) (h' : TimePoint tp')
    (hn : ts.Normalised) (hvalue : TimePoint ts.value) :
    (Floors tp ↔ 0 ≤ tp ∨ 1000000000 ∣ tp) ∧ tec_ts_to_tp (tec_tp_to_ts tp) = tp ∧
      (tp ≤ tp' ↔ (tec_tp_to_ts tp).Le (tec_tp_to_ts tp')) ∧
      (tec_tp_to_ts (tec_ts_to_tp ts) = ts ↔ 0 ≤ ts.value ∨ ts.tv_nsec = 0) :=
  ⟨floors_iff h, round_trip h, le_iff h h', restored_iff hn hvalue⟩

/-- Half a second after the epoch and two seconds before it. -/
theorem conversions_exact_around :
    Floors 500000000 ∧ (tec_tp_to_ts (-2000000000)).Le (tec_tp_to_ts 500000000) ∧
      tec_tp_to_ts (tec_ts_to_tp ⟨-2, 0⟩) = ⟨-2, 0⟩ := by
  have h := conversions_exact 500000000 (-2000000000) ⟨-2, 0⟩ (by decide) (by decide) (by decide)
    (by decide)
  have h' := conversions_exact (-2000000000) 500000000 ⟨-2, 0⟩ (by decide) (by decide) (by decide)
    (by decide)
  exact ⟨h.1.mpr (.inl (by decide)), h'.2.2.1.mp (by decide), h.2.2.2.mpr (.inr rfl)⟩

/-- One nanosecond before the epoch has the second 0 and the nanoseconds -1. -/
theorem floors_fails : ¬ ∀ tp, TimePoint tp → Floors tp := by
  intro h
  exact absurd (h (-1) (by decide)).2.1.1 (by decide)

end Tecc.Time
