import Osf1.Callout.Timely

/-!
# The ticks to a time

`hzto` scales the time to a target to ticks in the arithmetic of `int`.
-/

set_option autoImplicit false

namespace Osf1.Callout.Hzto

/-- SRC: sys/time.h:99-102 -/
structure Timeval where
  tv_sec : ℤ
  tv_usec : ℤ

/-- What a `struct timeval` holds. -/
def Timeval.Valid (tv : Timeval) : Prop :=
  -2 ^ 31 ≤ tv.tv_sec ∧ tv.tv_sec < 2 ^ 31 ∧ 0 ≤ tv.tv_usec ∧ tv.tv_usec < 1000000

instance (tv : Timeval) : Decidable tv.Valid := inferInstanceAs (Decidable (_ ∧ _))

/-- The time in microseconds. -/
def Timeval.usecs (tv : Timeval) : ℤ := tv.tv_sec * 1000000 + tv.tv_usec

def INT_MAX : ℤ := 2147483647

/-- SRC: arch/alpha/alpha_init.c:344 -/
def tick (hz : ℤ) : ℤ := 1000000 / hz

/-- SRC: arch/alpha/alpha_init.c:346 -/
def fixtick (hz : ℤ) : ℤ := 1000000 % hz

/-- A time in ticks, in the arithmetic of `int`.  SRC: bsd/kern_clock.c:934-935 -/
def scaled (hz sec usec : ℤ) : ℤ :=
  int (int (sec * hz) + (int (int (int (usec + tick hz) - 1) * hz)).tdiv (1000 * 1000))

/-- SRC: bsd/kern_clock.c:909-939 -/
def hzto (hz : ℤ) (time tv : Timeval) : ℤ :=
  let sec := int (tv.tv_sec - time.tv_sec)
  let usec := int (tv.tv_usec - time.tv_usec)
  if int (sec + 1) ≤ INT_MAX.tdiv hz then
    let ticks := scaled hz sec usec
    if ticks ≤ 0 then 1 else ticks
  else INT_MAX

/-- SRC: bsd/kern_clock.c:221-231 -/
def bumptime (tp : Timeval) (usec : ℤ) : Timeval :=
  if 1000000 ≤ tp.tv_usec + usec then ⟨tp.tv_sec + 1, tp.tv_usec + usec - 1000000⟩
  else ⟨tp.tv_sec, tp.tv_usec + usec⟩

/-- The time of day, and the ticks since it was last corrected. -/
structure Clock where
  time : Timeval
  fixcnt : ℤ

/-- What `hardclock` does to the time of day, when `adjtime` has nothing left to do.
SRC: bsd/kern_clock.c:473-482 -/
def Clock.hardclock (hz : ℤ) (c : Clock) : Clock :=
  let c :=
    if fixtick hz ≠ 0 then
      if hz ≤ c.fixcnt + 1 then ⟨bumptime c.time (fixtick hz), 0⟩ else { c with fixcnt := c.fixcnt + 1 }
    else c
  { c with time := bumptime c.time (tick hz) }

/-- After `n` ticks the clock shows the target or more. -/
def Reached (hz : ℤ) (now tv : Timeval) (n : ℕ) : Prop :=
  ∀ fixcnt, tv.usecs ≤ ((Clock.hardclock hz)^[n] ⟨now, fixcnt⟩).time.usecs

/-- The same without overflow. -/
def ticks (hz sec usec : ℤ) : ℤ := sec * hz + ((usec + tick hz - 1) * hz).tdiv 1000000

/-- No step of the computation leaves the range of `int`. -/
structure Scales (hz sec usec : ℤ) : Prop where
  seconds : -2 ^ 31 ≤ sec * hz
  sum : -2 ^ 31 ≤ ticks hz sec usec
  room : sec < INT_MAX
  part : (usec + tick hz - 1) * hz ≤ INT_MAX

def Fits (hz : ℤ) (now tv : Timeval) : Prop := Scales hz (tv.tv_sec - now.tv_sec) (tv.tv_usec - now.tv_usec)

section Arithmetic

variable {hz sec usec : ℤ} {now tv tv' : Timeval}

theorem tdiv_cases (x : ℤ) :
    0 ≤ x ∧ x.tdiv 1000000 = x / 1000000 ∨ x < 0 ∧ x.tdiv 1000000 = -(-x / 1000000) := by
  rcases le_or_gt 0 x with h | h
  · exact .inl ⟨h, Int.tdiv_eq_ediv_of_nonneg h⟩
  · refine .inr ⟨h, ?_⟩
    rw [← Int.tdiv_eq_ediv_of_nonneg (by omega : 0 ≤ -x), Int.neg_tdiv, neg_neg]

variable (hlo : 1 ≤ hz)
include hlo

theorem tick_bounds : tick hz * hz ≤ 1000000 ∧ 1000000 < (tick hz + 1) * hz := by
  have h := Int.mul_ediv_add_emod 1000000 hz
  have hpos := Int.emod_nonneg 1000000 (by omega : hz ≠ 0)
  have hlt := Int.emod_lt_of_pos 1000000 (by omega : 0 < hz)
  unfold tick
  constructor <;> linarith [mul_comm hz (1000000 / hz)]

theorem sec_bound (h : -2 ^ 31 ≤ sec * hz) : -2 ^ 31 ≤ sec := by
  by_contra hlt
  have := mul_le_mul_of_nonneg_right (by omega : sec ≤ -2 ^ 31 - 1) (by omega : 0 ≤ hz)
  omega

theorem room_iff (h : Scales hz sec usec) : int (sec + 1) ≤ INT_MAX.tdiv hz ↔ (sec + 1) * hz ≤ INT_MAX := by
  have hsec := sec_bound hlo h.seconds
  have hroom : sec < 2147483647 := h.room
  rw [Int.tdiv_eq_ediv_of_nonneg (by decide), Int.le_ediv_iff_mul_le (by omega), int_eq (by omega) (by omega)]

variable (hhi : hz ≤ 2147)

section Small

include hhi

theorem tick_pos : 1 ≤ tick hz := (Int.le_ediv_iff_mul_le (by omega)).mpr (by omega)

variable (husec : -1000000 < usec) (husec' : usec < 1000000)
include husec husec'

theorem part_bounds : -999999 * hz ≤ (usec + tick hz - 1) * hz ∧ (usec + tick hz - 1) * hz ≤ 999998 * hz + 1000000 := by
  have htick := (tick_bounds hlo).1
  have hpos := tick_pos hlo hhi
  have hup := mul_le_mul_of_nonneg_right (by omega : usec - 1 ≤ 999998) (by omega : 0 ≤ hz)
  exact ⟨mul_le_mul_of_nonneg_right (by omega) (by omega), by linarith⟩

/-- The part of a second is at most a second. -/
theorem ticks_bounds (sec : ℤ) : sec * hz - hz ≤ ticks hz sec usec ∧ ticks hz sec usec ≤ sec * hz + hz := by
  obtain ⟨hdown, hup⟩ := part_bounds hlo hhi husec husec'
  unfold ticks
  rcases tdiv_cases ((usec + tick hz - 1) * hz) with ⟨hx, heq⟩ | ⟨hx, heq⟩ <;> rw [heq] <;> constructor <;> omega

theorem scaled_eq (h : Scales hz sec usec) (hif : (sec + 1) * hz ≤ INT_MAX) : scaled hz sec usec = ticks hz sec usec := by
  have hticks := ticks_bounds hlo hhi husec husec' sec
  have hdown := (part_bounds hlo hhi husec husec').1
  have htick := tick_pos hlo hhi
  have hle : tick hz ≤ 1000000 := Int.ediv_le_self _ (by decide)
  have hint : INT_MAX = 2147483647 := rfl
  obtain ⟨hprod, hsum, -, hover⟩ := h
  rw [add_mul, one_mul] at hif
  unfold scaled
  rw [int_eq hprod (by omega), int_eq (by omega : _ ≤ usec + tick hz) (by omega),
    int_eq (by omega : _ ≤ usec + tick hz - 1) (by omega),
    int_eq (by omega : _ ≤ (usec + tick hz - 1) * hz) (by omega)]
  change int (ticks hz sec usec) = _
  exact int_eq hsum (by omega)

end Small

omit hlo in
theorem usec_bounds (hnow : now.Valid) (htv : tv.Valid) :
    -1000000 < tv.tv_usec - now.tv_usec ∧ tv.tv_usec - now.tv_usec < 1000000 := by
  obtain ⟨-, -, hn, hn'⟩ := hnow
  obtain ⟨-, -, ht, ht'⟩ := htv
  constructor <;> omega

theorem hzto_eq (hhi : hz ≤ 2147) (hnow : now.Valid) (htv : tv.Valid) (h : Fits hz now tv) : hzto hz now tv =
    if (tv.tv_sec - now.tv_sec + 1) * hz ≤ INT_MAX then
      max 1 (ticks hz (tv.tv_sec - now.tv_sec) (tv.tv_usec - now.tv_usec))
    else INT_MAX := by
  obtain ⟨hlow, hhigh⟩ := usec_bounds hnow htv
  have hsec := sec_bound hlo h.seconds
  have hroom : tv.tv_sec - now.tv_sec < 2147483647 := h.room
  simp only [hzto]
  rw [int_eq hsec (by omega), int_eq (by omega : _ ≤ tv.tv_usec - now.tv_usec) (by omega)]
  by_cases hif : (tv.tv_sec - now.tv_sec + 1) * hz ≤ INT_MAX
  · rw [if_pos ((room_iff hlo h).mpr hif), if_pos hif, scaled_eq hlo hhi hlow hhigh h hif]
    split_ifs <;> omega
  · rw [if_neg (mt (room_iff hlo h).mp hif), if_neg hif]

/-- A later target has no fewer ticks. -/
theorem ticks_mono (hnow : now.Valid) (htv : tv.Valid) (htv' : tv'.Valid) (hle : tv.usecs ≤ tv'.usecs) :
    ticks hz (tv.tv_sec - now.tv_sec) (tv.tv_usec - now.tv_usec) ≤
      ticks hz (tv'.tv_sec - now.tv_sec) (tv'.tv_usec - now.tv_usec) := by
  obtain ⟨-, -, hn, hn'⟩ := hnow
  obtain ⟨-, -, ht, ht'⟩ := htv
  obtain ⟨-, -, hs, hs'⟩ := htv'
  unfold Timeval.usecs at hle
  have hscale := mul_le_mul_of_nonneg_right hle (by omega : 0 ≤ hz)
  have hsec := mul_le_mul_of_nonneg_right (by omega : tv.tv_sec ≤ tv'.tv_sec) (by omega : 0 ≤ hz)
  have hexpand : (tv.tv_usec - now.tv_usec + tick hz - 1) * hz + (tv.tv_sec - tv'.tv_sec) * hz * 1000000 ≤
      (tv'.tv_usec - now.tv_usec + tick hz - 1) * hz := by linarith
  have hdiff : (tv'.tv_sec - now.tv_sec) * hz = (tv.tv_sec - now.tv_sec) * hz - (tv.tv_sec - tv'.tv_sec) * hz := by ring
  have hnonpos : (tv.tv_sec - tv'.tv_sec) * hz ≤ 0 := by linarith
  unfold ticks
  rw [hdiff]
  rcases tdiv_cases ((tv.tv_usec - now.tv_usec + tick hz - 1) * hz) with ⟨hx, heq⟩ | ⟨hx, heq⟩ <;>
    rcases tdiv_cases ((tv'.tv_usec - now.tv_usec + tick hz - 1) * hz) with ⟨hy, heq'⟩ | ⟨hy, heq'⟩ <;>
    rw [heq, heq'] <;> omega

/-- The ticks to a target in the past. -/
theorem ticks_past (hhi : hz ≤ 2147) (hnow : now.Valid) (htv : tv.Valid) (hpast : tv.usecs ≤ now.usecs) :
    ticks hz (tv.tv_sec - now.tv_sec) (tv.tv_usec - now.tv_usec) ≤ 0 ∧
      (tv.tv_sec - now.tv_sec + 1) * hz ≤ INT_MAX := by
  have hmono := ticks_mono hlo hnow htv hnow hpast
  have htick := (tick_bounds hlo).1
  have hpos := tick_pos hlo hhi
  have hzero : ticks hz 0 0 = 0 := by
    unfold ticks
    rw [zero_mul, zero_add, zero_add, sub_mul, one_mul, Int.tdiv_eq_ediv_of_nonneg (by nlinarith)]
    exact Int.ediv_eq_zero_of_lt (by nlinarith) (by omega)
  obtain ⟨-, -, hn, hn'⟩ := hnow
  obtain ⟨-, -, ht, ht'⟩ := htv
  unfold Timeval.usecs at hpast
  rw [sub_self, sub_self, hzero] at hmono
  have := mul_le_mul_of_nonneg_right (by omega : tv.tv_sec - now.tv_sec + 1 ≤ 1) (by omega : 0 ≤ hz)
  exact ⟨hmono, by unfold INT_MAX; omega⟩

/-- Where `hz` divides a second, the ticks last until the target. -/
theorem ticks_reach (hdvd : hz ∣ 1000000) :
    sec * 1000000 + usec ≤ ticks hz sec usec * tick hz := by
  have hsecond : tick hz * hz = 1000000 := Int.ediv_mul_cancel hdvd
  have hpart : (usec + tick hz - 1) * hz - 1000000 < ((usec + tick hz - 1) * hz).tdiv 1000000 * 1000000 := by
    rcases tdiv_cases ((usec + tick hz - 1) * hz) with ⟨hx, heq⟩ | ⟨hx, heq⟩ <;> rw [heq] <;> omega
  unfold ticks
  generalize ((usec + tick hz - 1) * hz).tdiv 1000000 = part at hpart ⊢
  rw [← hsecond] at hpart
  have hlt : usec - 1 < part * tick hz := by
    refine lt_of_mul_lt_mul_right (a := hz) ?_ (by omega)
    linarith
  have hsplit : (sec * hz + part) * tick hz = sec * (tick hz * hz) + part * tick hz := by ring
  rw [hsplit, hsecond]
  omega

end Arithmetic

section Waiting

variable {hz : ℤ} {now tv : Timeval}

theorem usecs_bumptime (tp : Timeval) (usec : ℤ) : (bumptime tp usec).usecs = tp.usecs + usec := by
  unfold bumptime Timeval.usecs
  split_ifs <;> simp only <;> omega

theorem usecs_hardclock (hdvd : hz ∣ 1000000) (c : Clock) (n : ℕ) :
    ((Clock.hardclock hz)^[n] c).time.usecs = c.time.usecs + n * tick hz := by
  have hfix : fixtick hz = 0 := Int.emod_eq_zero_of_dvd hdvd
  induction n generalizing c with
  | zero => simp
  | succ n ih =>
    rw [Function.iterate_succ_apply, ih]
    simp only [Clock.hardclock, hfix, ne_eq, not_true_eq_false, if_false, usecs_bumptime]
    push_cast
    ring

/-- A wait of `tick` and a microsecond comes to one tick, unless `hz` divides a second. -/
theorem late_tick (hlo : 1 ≤ hz) (hhi : hz ≤ 2147) (hdvd : ¬hz ∣ 1000000) : (⟨0, tick hz + 1⟩ : Timeval).Valid ∧
    Fits hz ⟨0, 0⟩ ⟨0, tick hz + 1⟩ ∧ hzto hz ⟨0, 0⟩ ⟨0, tick hz + 1⟩ = 1 ∧ ¬Reached hz ⟨0, 0⟩ ⟨0, tick hz + 1⟩ 1 := by
  obtain ⟨hle, hgt⟩ := tick_bounds hlo
  have hpos := tick_pos hlo hhi
  have hne : tick hz * hz ≠ 1000000 := fun h => hdvd ⟨tick hz, by rw [← h, mul_comm]⟩
  have hthree : 3 ≤ hz := by
    by_contra hlt
    obtain rfl | rfl : hz = 1 ∨ hz = 2 := by omega
    · exact hdvd (by decide)
    · exact hdvd (by decide)
  have htick : tick hz * 3 ≤ 1000000 := (mul_le_mul_of_nonneg_left hthree (by omega)).trans hle
  have hsame : hz ≤ tick hz * hz := le_mul_of_one_le_left (by omega) hpos
  have hprod : (tick hz + 1 - 0 + tick hz - 1) * hz = 2 * (tick hz * hz) := by ring
  have hpart : ticks hz (0 - 0) (tick hz + 1 - 0) = 1 := by
    simp only [ticks, hprod, sub_self, zero_mul, zero_add]
    rw [Int.tdiv_eq_ediv_of_nonneg (by omega)]
    linarith [hgt, add_mul (tick hz) 1 hz, (by omega : 1000000 ≤ 2 * (tick hz * hz) → 2 * (tick hz * hz) / 1000000 = 1)
      (by linarith [add_mul (tick hz) 1 hz])]
  have hvalid : (⟨0, tick hz + 1⟩ : Timeval).Valid := ⟨by simp, by simp, by simp only; omega, by simp only; omega⟩
  have hfits : Fits hz ⟨0, 0⟩ ⟨0, tick hz + 1⟩ := by
    refine ⟨by simp, by rw [hpart]; decide, by rw [sub_self]; decide, ?_⟩
    simp only [hprod, INT_MAX]
    omega
  refine ⟨hvalid, hfits, ?_, fun hreach => ?_⟩
  · rw [hzto_eq hlo hhi ⟨by decide, by decide, le_rfl, by decide⟩ hvalid hfits, hpart,
      if_pos (by simp only [INT_MAX]; omega)]
    simp
  · have hfix : fixtick hz ≠ 0 := fun h => hdvd (Int.dvd_of_emod_eq_zero h)
    have h := hreach 0
    simp only [Function.iterate_one, Clock.hardclock, if_pos hfix, if_neg (by omega : ¬hz ≤ 0 + 1), usecs_bumptime] at h
    simp only [Timeval.usecs] at h
    omega

end Waiting

/-- What is promised of the ticks to a target. -/
structure Sure (hz : ℤ) (ok : Timeval → Timeval → Prop) : Prop where
  range : ∀ now tv, now.Valid → tv.Valid → ok now tv → 1 ≤ hzto hz now tv ∧ hzto hz now tv ≤ INT_MAX
  past : ∀ now tv, now.Valid → tv.Valid → ok now tv → tv.usecs ≤ now.usecs → hzto hz now tv = 1
  mono : ∀ now tv tv', now.Valid → tv.Valid → tv'.Valid → ok now tv → ok now tv' → tv.usecs ≤ tv'.usecs →
    hzto hz now tv ≤ hzto hz now tv'
  reach : ∀ now tv, now.Valid → tv.Valid → ok now tv → hzto hz now tv < INT_MAX →
    Reached hz now tv (hzto hz now tv).toNat

end Osf1.Callout.Hzto
