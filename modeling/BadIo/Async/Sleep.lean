import BadIo.Chrono

namespace BadIo.Async.Sleep

open IntegerType Chrono

structure Timespec where
  tvSec : int64.Value
  tvNsec : int64.Value
  deriving DecidableEq

structure Timeout where
  spec : Timespec
  flags : BitVec 32
  deriving DecidableEq

def ioringTimeoutAbs : BitVec 32 := 1#32

def ioringTimeoutRealtime : BitVec 32 := 8#32

def one : Ratio := ⟨1, by decide, by decide, by decide⟩

def nano : Ratio := ⟨1 / 10 ^ 9, by decide +kernel, by decide +kernel, by decide +kernel⟩

inductive Clock where
  | steadyClock
  | systemClock

structure TimePoint (clock : Clock) (Rep : IntegerType) (Period : Ratio) where
  timeSinceEpoch : Duration Rep Period

variable {Rep : IntegerType} {P : Ratio}

/-- The seconds are truncated, and the rest in nanoseconds is. -/
def timespec (duration : Duration Rep P) : Option Timespec := do
  let secs ← durationCast int64 one duration
  let rest ← duration.minus secs
  let nsecs ← durationCast int64 nano rest.2
  return ⟨secs.count, nsecs.count⟩

def timeout (duration : Duration Rep P) (flags : BitVec 32) : Option Timeout :=
  (timespec duration).map fun spec => ⟨spec, flags⟩

def asyncSleepFor (duration : Duration Rep P) : Option Timeout := timeout duration 0

def asyncSleepUntilSteady (time : TimePoint .steadyClock Rep P) : Option Timeout :=
  timeout time.timeSinceEpoch ioringTimeoutAbs

def asyncSleepUntilSystem (time : TimePoint .systemClock Rep P) : Option Timeout :=
  timeout time.timeSinceEpoch (ioringTimeoutAbs ||| ioringTimeoutRealtime)

inductive Call (Rep : IntegerType) (P : Ratio) where
  | sleepFor (duration : Duration Rep P)
  | untilSteady (time : TimePoint .steadyClock Rep P)
  | untilSystem (time : TimePoint .systemClock Rep P)

namespace Call

def duration : Call Rep P → Duration Rep P
  | sleepFor duration => duration
  | untilSteady time => time.timeSinceEpoch
  | untilSystem time => time.timeSinceEpoch

def issue : Call Rep P → Option Timeout
  | sleepFor duration => asyncSleepFor duration
  | untilSteady time => asyncSleepUntilSteady time
  | untilSystem time => asyncSleepUntilSystem time

end Call

/-- A time the kernel accepts: the nanoseconds rounded down, or one that has expired. -/
structure TimespecRight (d : Duration Rep P) (spec : Timespec) : Prop where
  sec_nonneg : 0 ≤ spec.tvSec.val
  nsec_nonneg : 0 ≤ spec.tvNsec.val
  nsec_lt : spec.tvNsec.val < 10 ^ 9
  rounded : 0 ≤ d.seconds → spec.tvSec.val * 10 ^ 9 + spec.tvNsec.val = ⌊d.seconds * 10 ^ 9⌋
  expired : d.seconds < 0 → spec.tvSec.val = 0 ∧ spec.tvNsec.val = 0

theorem timespec_spec {d : Duration Rep P} {spec : Timespec} (h : timespec d = some spec) :
    spec.tvSec.val = truncate d.seconds ∧
      spec.tvNsec.val = truncate ((d.seconds - truncate d.seconds) * 10 ^ 9) := by
  unfold timespec at h
  obtain ⟨secs, hsecs, h⟩ := Option.bind_eq_some_iff.mp h
  obtain ⟨rest, hrest, h⟩ := Option.bind_eq_some_iff.mp h
  obtain ⟨nsecs, hnsecs, h⟩ := Option.bind_eq_some_iff.mp h
  cases h
  have hsec : secs.count.val = truncate d.seconds := by
    rw [count_durationCast hsecs]
    exact congrArg truncate (div_one d.seconds)
  refine ⟨hsec, ?_⟩
  have hseconds : secs.seconds = truncate d.seconds := by
    rw [Duration.seconds, hsec]
    exact mul_one _
  show nsecs.count.val = _
  rw [count_durationCast hnsecs, seconds_minus hrest, hseconds]
  apply congrArg truncate
  show _ / (1 / 10 ^ 9 : ℚ) = _
  rw [one_div, div_inv_eq_mul]

theorem timeout_spec {d : Duration Rep P} {flags : BitVec 32} {t : Timeout}
    (h : timeout d flags = some t) : timespec d = some t.spec := by
  obtain ⟨spec, hspec, rfl⟩ := Option.map_eq_some_iff.mp h
  exact hspec

/-- All three calls build the same timespec. -/
theorem issue_spec {r : Call Rep P} {t : Timeout} (h : r.issue = some t) :
    timespec r.duration = some t.spec := by
  cases r with
  | sleepFor duration => exact timeout_spec h
  | untilSteady time => exact timeout_spec h
  | untilSystem time => exact timeout_spec h

theorem floor_seconds_add (v : ℚ) : ⌊v⌋ * 10 ^ 9 + ⌊(v - ⌊v⌋) * 10 ^ 9⌋ = ⌊v * 10 ^ 9⌋ := by
  have hsplit : v * 10 ^ 9 = ((⌊v⌋ * 10 ^ 9 : ℤ) : ℚ) + (v - ⌊v⌋) * 10 ^ 9 := by
    push_cast
    ring
  rw [hsplit, Int.floor_intCast_add]

theorem timespec_of_nonneg {d : Duration Rep P} {spec : Timespec} (h : timespec d = some spec)
    (hd : 0 ≤ d.seconds) : TimespecRight d spec := by
  obtain ⟨hsec, hnsec⟩ := timespec_spec h
  rw [truncate_of_nonneg hd] at hsec hnsec
  have hfract : 0 ≤ d.seconds - ⌊d.seconds⌋ := sub_nonneg.mpr (Int.floor_le _)
  have hrest : 0 ≤ (d.seconds - ⌊d.seconds⌋) * 10 ^ 9 := mul_nonneg hfract (by positivity)
  rw [truncate_of_nonneg hrest] at hnsec
  refine ⟨?_, ?_, ?_, ?_, fun hneg => absurd hd (not_le.mpr hneg)⟩
  · rw [hsec]
    exact Int.floor_nonneg.mpr hd
  · rw [hnsec]
    exact Int.floor_nonneg.mpr hrest
  · rw [hnsec, Int.floor_lt]
    push_cast
    have hlt := Int.lt_floor_add_one d.seconds
    linarith
  · intro _
    rw [hsec, hnsec]
    exact floor_seconds_add d.seconds

theorem timespec_of_neg {d : Duration Rep P} {spec : Timespec} (h : timespec d = some spec)
    (hd : d.seconds < 0) : spec.tvSec.val = ⌈d.seconds⌉ ∧
      spec.tvNsec.val = ⌈(d.seconds - ⌈d.seconds⌉) * 10 ^ 9⌉ := by
  -- before zero both fields are rounded up
  obtain ⟨hsec, hnsec⟩ := timespec_spec h
  rw [truncate_of_nonpos hd.le] at hsec hnsec
  have hceil : d.seconds - ⌈d.seconds⌉ ≤ 0 := sub_nonpos.mpr (Int.le_ceil _)
  have hrest : (d.seconds - ⌈d.seconds⌉) * 10 ^ 9 ≤ 0 :=
    mul_nonpos_of_nonpos_of_nonneg hceil (by positivity)
  rw [truncate_of_nonpos hrest] at hnsec
  exact ⟨hsec, hnsec⟩

theorem expired_iff {d : Duration Rep P} {spec : Timespec} (h : timespec d = some spec)
    (hd : d.seconds < 0) :
    spec.tvSec.val = 0 ∧ spec.tvNsec.val = 0 ↔ -1 < d.seconds * 10 ^ 9 := by
  obtain ⟨hsec, hnsec⟩ := timespec_of_neg h hd
  rw [hsec, hnsec]
  constructor
  · rintro ⟨hzero, hzero'⟩
    rw [hzero, Int.cast_zero, sub_zero] at hzero'
    have hlt := (Int.ceil_eq_iff.mp hzero').1
    push_cast at hlt
    linarith
  · intro hlt
    have hzero : ⌈d.seconds⌉ = 0 := by
      rw [Int.ceil_eq_zero_iff]
      constructor
      · linarith
      · exact hd.le
    refine ⟨hzero, ?_⟩
    rw [hzero, Int.cast_zero, sub_zero, Int.ceil_eq_zero_iff]
    constructor
    · exact hlt
    · linarith

/-- For all representations, periods and counts, where nothing overflows: the timespec is
right exactly above minus one nanosecond. -/
theorem timespec_right_iff (r : Call Rep P) (t : Timeout) (h : r.issue = some t) :
    TimespecRight r.duration t.spec ↔ -1 < r.duration.seconds * 10 ^ 9 := by
  have hspec := issue_spec h
  rcases lt_or_ge r.duration.seconds 0 with hd | hd
  · rw [← expired_iff hspec hd]
    constructor
    · intro hright
      exact hright.expired hd
    · rintro ⟨hsec, hnsec⟩
      refine ⟨hsec.ge, hnsec.ge, ?_, fun hle => absurd hd (not_lt.mpr hle), fun _ => ⟨hsec, hnsec⟩⟩
      rw [hnsec]
      decide
  · have hlt : -1 < r.duration.seconds * 10 ^ 9 := by linarith
    exact iff_of_true (timespec_of_nonneg hspec hd) hlt

def milli : Ratio := ⟨1 / 1000, by decide +kernel, by decide +kernel, by decide +kernel⟩

/-- A second and a half. -/
theorem timespec_right_positive :
    TimespecRight (⟨⟨1500, by decide⟩⟩ : Duration int64 milli)
      ⟨⟨1, by decide⟩, ⟨500000000, by decide⟩⟩ := by
  let r : Call int64 milli := .sleepFor ⟨⟨1500, by decide⟩⟩
  let t : Timeout := ⟨⟨⟨1, by decide⟩, ⟨500000000, by decide⟩⟩, 0⟩
  exact (timespec_right_iff r t (by decide +kernel)).mpr (by decide +kernel)

/-- A deadline that has passed by a millisecond. -/
theorem timespec_wrong_negative :
    asyncSleepFor (⟨⟨-1, by decide⟩⟩ : Duration int64 milli) =
        some ⟨⟨⟨0, by decide⟩, ⟨-1000000, by decide⟩⟩, 0⟩ ∧
      ¬ TimespecRight (⟨⟨-1, by decide⟩⟩ : Duration int64 milli)
        ⟨⟨0, by decide⟩, ⟨-1000000, by decide⟩⟩ := by
  refine ⟨by decide +kernel, fun h => ?_⟩
  exact absurd h.nsec_nonneg (by decide)

def giga : Ratio := ⟨10 ^ 9, by decide +kernel, by decide +kernel, by decide +kernel⟩

theorem cast_nano_one {d : Duration int64 nano} {v : ℤ} (hv : d.count.val.tdiv (10 ^ 9) = v) :
    ∃ h, durationCast int64 one d = some ⟨⟨v, h⟩⟩ := by
  have hcf : nano.divide one = some nano := Ratio.ofRat_of_eq (by decide +kernel)
  have hv' : (d.count.val * 1).tdiv (10 ^ 9 : ℕ) = v := by
    rw [mul_one]
    exact hv
  subst hv'
  have hd : int64.Fits (d.count.val * 1) := by
    rw [mul_one]
    exact d.count.fits
  exact ⟨hd.tdiv _, durationCast_of_fits (T := int64) rfl hcf (by decide +kernel) (by decide +kernel)
    d.count.fits (by decide) (by decide) hd _⟩

theorem cast_one_nano {d : Duration int64 one} {v : ℤ} (hv : d.count.val * 10 ^ 9 = v)
    (h : int64.Fits v) : durationCast int64 nano d = some ⟨⟨v, h⟩⟩ := by
  have hcf : one.divide nano = some giga := Ratio.ofRat_of_eq (by decide +kernel)
  have hv' : (d.count.val * 10 ^ 9).tdiv (1 : ℕ) = v := by
    rw [Nat.cast_one, Int.tdiv_one]
    exact hv
  have hd : int64.Fits (d.count.val * 10 ^ 9) := hv ▸ h
  subst hv'
  exact durationCast_of_fits (T := int64) rfl hcf (by decide +kernel) (by decide +kernel) d.count.fits
    (by decide) (by decide) hd h

theorem cast_nano_nano {d : Duration Rep P} (hP : P = nano)
    (hRep : commonType (commonType int64 Rep) int64 = int64) (h : int64.Fits d.count.val) :
    durationCast int64 nano d = some ⟨⟨_, h⟩⟩ := by
  subst hP
  have hcf : nano.divide nano = some one := Ratio.ofRat_of_eq (by decide +kernel)
  have hd : d.count.val * 1 = d.count.val := mul_one _
  have hfits : int64.Fits ((d.count.val * 1).tdiv (1 : ℕ)) := by
    rw [hd]
    exact h.tdiv 1
  rw [durationCast_of_fits hRep hcf (by decide +kernel) (by decide +kernel) h (by decide)
    (by decide) (by rwa [hd]) hfits]
  congr
  rw [hd, Nat.cast_one, Int.tdiv_one]

theorem timespec_nanoseconds (d : Duration int64 nano) : ∃ spec, timespec d = some spec := by
  have hcommon : nano.common one = some nano := Ratio.ofRat_of_eq (by decide +kernel)
  obtain ⟨hfits, hsecs⟩ := cast_nano_one (d := d) rfl
  have hwhole : int64.Fits (d.count.val.tdiv (10 ^ 9) * 10 ^ 9) := d.count.fits.tdiv_mul (10 ^ 9)
  have hrest : int64.Fits (d.count.val - d.count.val.tdiv (10 ^ 9) * 10 ^ 9) :=
    d.count.fits.sub_tdiv_mul (10 ^ 9)
  obtain ⟨rest, hminus, hperiod, hcount⟩ := minus_of_fits (T := int64) rfl hcommon
    (cast_nano_nano rfl rfl d.count.fits) (cast_one_nano (d := ⟨⟨_, hfits⟩⟩) rfl hwhole) hrest
  have hrest' : int64.Fits rest.2.count.val := hcount ▸ hrest
  refine ⟨⟨⟨_, hfits⟩, ⟨_, hrest'⟩⟩, ?_⟩
  unfold timespec
  simp only [hsecs, hminus, cast_nano_nano hperiod rfl hrest', Option.bind_eq_bind,
    Option.bind_some]
  rfl

end BadIo.Async.Sleep
