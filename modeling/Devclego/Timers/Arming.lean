import Devclego.Timers.Model
import Mathlib.Tactic.NormNum

/-!
# When a timer is armed at the requested instant

The nanoseconds of the clock and of the request are added without a carry into the
seconds, so the sum has to stay below a second; and a request has to fit its fields.
-/
namespace Devclego.Timers

def Timespec.total (t : Timespec) : Int := t.tvSec.toInt * 10 ^ 9 + t.tvNsec.toInt

/-- What `timerfd_settime` accepts. -/
def Timespec.Normal (t : Timespec) : Prop := 0 ≤ t.tvNsec.toInt ∧ t.tvNsec.toInt < 10 ^ 9

instance (t : Timespec) : Decidable t.Normal := inferInstanceAs (Decidable (_ ∧ _))

/-- What the clock may show. -/
structure Clock extends Timespec where
  sec_nonneg : 0 ≤ tvSec.toInt
  normal : toTimespec.Normal

/-- Arguments of `set_timeinterval` that are not negative. -/
structure Request where
  s : BitVec 32
  ms : BitVec 32
  us : BitVec 32
  ns : BitVec 32
  s_nonneg : 0 ≤ s.toInt
  ms_nonneg : 0 ≤ ms.toInt
  us_nonneg : 0 ≤ us.toInt
  ns_nonneg : 0 ≤ ns.toInt

namespace Request

def set (r : Request) : Timeinterval := setTimeinterval r.s r.ms r.us r.ns

/-- The part of a request below its seconds, in nanoseconds. -/
def small (r : Request) : Int := r.ms.toInt * 10 ^ 6 + r.us.toInt * 10 ^ 3 + r.ns.toInt

def total (r : Request) : Int := r.s.toInt * 10 ^ 9 + r.small

/-- Every argument fits its field of ten bits. -/
def Fits (r : Request) : Prop := r.ms.toInt < 2 ^ 10 ∧ r.us.toInt < 2 ^ 10 ∧ r.ns.toInt < 2 ^ 10

end Request

/-- The timer fires at the requested time from now, and again after each period. -/
structure Armed (value : Itimerspec) (now : Clock) (initial period : Request) : Prop where
  value_normal : value.itValue.Normal
  value_total : value.itValue.total = now.total + initial.total
  interval_normal : value.itInterval.Normal
  interval_total : value.itInterval.total = period.total

/-! ## The fields -/

theorem toInt_eq_toNat {w : Nat} {x : BitVec w} (h : 0 ≤ x.toInt) : x.toInt = x.toNat ∧ 2 * x.toNat < 2 ^ w := by
  have hsign : 2 * x.toNat < 2 ^ w := by
    by_contra hge
    have hneg := BitVec.toInt_neg_iff.mpr (Nat.le_of_not_lt hge)
    omega
  exact ⟨BitVec.toInt_eq_toNat_of_lt hsign, hsign⟩

/-- Of ten bits the `int` sum does not overflow. -/
theorem toNat_subseconds (t : Timeinterval) :
    (subseconds t).toNat = t.ms.toNat * 10 ^ 6 + t.us.toNat * 10 ^ 3 + t.ns.toNat := by
  have hms := t.ms.isLt
  have hus := t.us.isLt
  have hns := t.ns.isLt
  rw [subseconds]
  simp only [BitVec.toNat_add, BitVec.toNat_mul, BitVec.toNat_setWidth, BitVec.reduceToNat, Nat.reducePow]
  omega

theorem toInt_subseconds (t : Timeinterval) :
    ((subseconds t).signExtend 64).toInt = t.ms.toNat * 10 ^ 6 + t.us.toNat * 10 ^ 3 + t.ns.toNat := by
  have hms := t.ms.isLt
  have hus := t.us.isLt
  have hns := t.ns.isLt
  have hsum := toNat_subseconds t
  rw [BitVec.toInt_signExtend_of_le (by decide), BitVec.toInt_eq_toNat_of_lt (by omega), hsum]
  push_cast
  rfl

/-- The seconds always fit. -/
theorem Request.toNat_s (r : Request) : (r.set.s.toNat : Int) = r.s.toInt := by
  obtain ⟨hs, hsign⟩ := toInt_eq_toNat r.s_nonneg
  have hmsb : r.s.msb = false := BitVec.msb_eq_false_iff_two_mul_lt.mpr hsign
  show ((r.s.signExtend 34).toNat : Int) = r.s.toInt
  rw [BitVec.signExtend_eq_setWidth_of_msb_false hmsb, BitVec.toNat_setWidth, hs]
  omega

/-- What is left of the small part of a request in its fields. -/
theorem Request.toInt_kept (r : Request) :
    ((subseconds r.set).signExtend 64).toInt =
      r.ms.toInt % 2 ^ 10 * 10 ^ 6 + r.us.toInt % 2 ^ 10 * 10 ^ 3 + r.ns.toInt % 2 ^ 10 := by
  obtain ⟨hms, -⟩ := toInt_eq_toNat r.ms_nonneg
  obtain ⟨hus, -⟩ := toInt_eq_toNat r.us_nonneg
  obtain ⟨hns, -⟩ := toInt_eq_toNat r.ns_nonneg
  have hfields : r.set.ms.toNat = r.ms.toNat % 2 ^ 10 ∧ r.set.us.toNat = r.us.toNat % 2 ^ 10 ∧
      r.set.ns.toNat = r.ns.toNat % 2 ^ 10 :=
    ⟨BitVec.toNat_setWidth .., BitVec.toNat_setWidth .., BitVec.toNat_setWidth ..⟩
  rw [toInt_subseconds, hfields.1, hfields.2.1, hfields.2.2, hms, hus, hns]
  push_cast
  rfl

theorem Request.kept_bounds (r : Request) :
    0 ≤ ((subseconds r.set).signExtend 64).toInt ∧ ((subseconds r.set).signExtend 64).toInt < 2 ^ 31 ∧
      ((subseconds r.set).signExtend 64).toInt ≤ r.small := by
  have hms := r.ms_nonneg
  have hus := r.us_nonneg
  have hns := r.ns_nonneg
  rw [r.toInt_kept, Request.small]
  omega

/-- Nothing is cut off just when every argument fits. -/
theorem Request.kept_eq_iff (r : Request) : ((subseconds r.set).signExtend 64).toInt = r.small ↔ r.Fits := by
  have hms := r.ms_nonneg
  have hus := r.us_nonneg
  have hns := r.ns_nonneg
  rw [r.toInt_kept, Request.small, Request.Fits]
  omega

/-! ## The two times -/

/-- The seconds of a field of 34 bits in a word. -/
theorem toInt_interval_sec (r : Request) : (r.set.s.setWidth 64).toInt = r.s.toInt := by
  have hlt := r.set.s.isLt
  have hsame : (r.set.s.setWidth 64).toNat = r.set.s.toNat := by
    rw [BitVec.toNat_setWidth, Nat.mod_eq_of_lt (by omega)]
  rw [BitVec.toInt_eq_toNat_of_lt (by omega), hsame, r.toNat_s]

/-- The seconds of the value, which wrap around where `time_t` ends. -/
theorem toInt_value_sec (now : Clock) (r : Request) :
    (now.tvSec + r.set.s.setWidth 64).toInt ≤ now.tvSec.toInt + r.s.toInt ∧
      ((now.tvSec + r.set.s.setWidth 64).toInt = now.tvSec.toInt + r.s.toInt ↔
        now.tvSec.toInt + r.s.toInt < 2 ^ 63) := by
  have hsec := now.sec_nonneg
  have hs := r.s_nonneg
  rw [BitVec.toInt_add, toInt_interval_sec]
  by_cases hlt : now.tvSec.toInt + r.s.toInt < 2 ^ 63
  · have hsum : (now.tvSec.toInt + r.s.toInt).bmod (2 ^ 64) = now.tvSec.toInt + r.s.toInt :=
      Int.bmod_eq_of_le (by omega) (by omega)
    rw [hsum]
    exact ⟨Int.le_refl _, iff_of_true rfl hlt⟩
  · have hsum := @Int.bmod_lt (now.tvSec.toInt + r.s.toInt) (2 ^ 64) (by decide)
    refine ⟨by omega, iff_of_false (fun he => ?_) hlt⟩
    omega

theorem toInt_value_nsec (now : Clock) (r : Request) :
    (now.tvNsec + (subseconds r.set).signExtend 64).toInt =
      now.tvNsec.toInt + ((subseconds r.set).signExtend 64).toInt := by
  obtain ⟨hnonneg, hlt⟩ := now.normal
  obtain ⟨hkept, hkeptLt, -⟩ := r.kept_bounds
  rw [BitVec.toInt_add]
  exact Int.bmod_eq_of_le (by omega) (by omega)

/-- Both requests fit their fields, neither nanoseconds sum to a second, and the seconds stay in
the range of `time_t`. -/
structure Representable (now : Clock) (initial period : Request) : Prop where
  initial_fits : initial.Fits
  initial_small : now.tvNsec.toInt + initial.small < 10 ^ 9
  initial_sec : now.tvSec.toInt + initial.s.toInt < 2 ^ 63
  period_fits : period.Fits
  period_small : period.small < 10 ^ 9

/-- For every clock and every two requests, the timer is armed as requested just when they are
representable. -/
theorem timer_armed_iff (timer : Timerfd) (now : Clock) (initial period : Request) :
    Armed (timerArm { timer with initial := initial.set, period := period.set } now.toTimespec).newValue
        now initial period ↔
      Representable now initial period := by
  obtain ⟨hnonneg, hlt⟩ := now.normal
  obtain ⟨hinitial, -, hinitialLe⟩ := initial.kept_bounds
  obtain ⟨hperiod, -, -⟩ := period.kept_bounds
  obtain ⟨hsecLe, hsec⟩ := toInt_value_sec now initial
  have hnsec := toInt_value_nsec now initial
  have hintervalSec := toInt_interval_sec period
  have hinitialFits := initial.kept_eq_iff
  have hperiodFits := period.kept_eq_iff
  constructor
  · rintro ⟨⟨-, hvalueLt⟩, hvalue, ⟨-, hintervalLt⟩, hinterval⟩
    simp only [timerArm, Timespec.total, Request.total] at hvalueLt hvalue hintervalLt hinterval
    have hkept : ((subseconds initial.set).signExtend 64).toInt = initial.small := by omega
    have hkept' : ((subseconds period.set).signExtend 64).toInt = period.small := by omega
    exact ⟨hinitialFits.mp hkept, by omega, hsec.mp (by omega), hperiodFits.mp hkept', by omega⟩
  · intro h
    have hkept := hinitialFits.mpr h.initial_fits
    have hkept' := hperiodFits.mpr h.period_fits
    have hsum := hsec.mpr h.initial_sec
    have hsmall := h.initial_small
    have hsmall' := h.period_small
    refine ⟨⟨?_, ?_⟩, ?_, ⟨?_, ?_⟩, ?_⟩
    all_goals simp only [timerArm, Timespec.total, Request.total]
    all_goals omega

/-- A nanosecond before a full second, a timer of one nanosecond is given a full second of
nanoseconds. -/
theorem carry_not_made :
    ∃ (now : Clock) (r : Request), now.total = 10 ^ 9 - 1 ∧ r.total = 1 ∧ r.Fits ∧
      (timerArm ⟨r.set, r.set, ⟨⟨0, 0⟩, ⟨0, 0⟩⟩⟩ now.toTimespec).newValue.itValue = ⟨0, 1000000000⟩ ∧
      ¬ Armed (timerArm ⟨r.set, r.set, ⟨⟨0, 0⟩, ⟨0, 0⟩⟩⟩ now.toTimespec).newValue now r r := by
  refine ⟨⟨⟨0, 999999999⟩, by decide, by decide⟩, ⟨0, 0, 0, 1, by decide, by decide, by decide, by decide⟩,
    by decide, by decide, ⟨by decide, by decide, by decide⟩, by decide, fun h => ?_⟩
  exact absurd h.value_normal (by decide)

end Devclego.Timers
