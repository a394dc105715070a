import Mathlib.Algebra.Order.Group.Nat
import Mathlib.Order.Monotone.Basic
import Mathlib.Tactic.SplitIfs

/-!
# Calendar time of the loader (`stdc/time`)

`gmtime_r` turns a number of seconds into calendar fields by counting days in eras of 400 years
that begin in March, and `mktime` is the inverse formula, evaluated in the 32-bit `long` of the
target. Here they are compared with the Gregorian calendar, in which one day follows the other.

Main results:
* `dateOf_eq`: the date and the day of the year by the formula of the code;
* `roundTrip_iff`: the fields are those of the date and `mktime` takes them back to the time
  exactly before the March of the year 5879490, where the day count leaves a `long`;
* `yday_iff`: the stored day of the year is right exactly in January and February, apart from
  years that do not fit an `int`.
-/

namespace FoliOS.Vellum.Calendar

/-! ## The code -/

/-- The fields of `struct tm` that the two functions use. -/
structure Tm where
  sec  : Int
  min  : Int
  hour : Int
  mday : Int
  mon  : Int
  year : Int
  yday : Int
  deriving DecidableEq, Repr

/-- A value of type `int`, which is also the `long` of the target. -/
def FitsInt (x : Int) : Prop := -0x80000000 ≤ x ∧ x < 0x80000000

instance (x : Int) : Decidable (FitsInt x) := inferInstanceAs (Decidable (_ ∧ _))

/-- The conversion of a `time_t` to `int`. -/
def toInt (x : Int) : Int := Int.bmod x 0x100000000

/-- `is_leap` of `gmtime_r`. -/
def isLeap (year : Int) : Int :=
  if year.tmod 4 = 0 ∧ year.tmod 100 ≠ 0 ∨ year.tmod 400 = 0 then 1 else 0

/-- `yoe` of `gmtime_r`: the year of the era from the day of the era. -/
def yearOfEra (doe : Nat) : Nat := (doe - doe / 1460 + doe / 36524 - doe / 146096) / 365

/-- `doy` of `gmtime_r`: the days since the first of March. -/
def dayOfMarchYear (doe : Nat) : Nat :=
  doe - (365 * yearOfEra doe + yearOfEra doe / 4 - yearOfEra doe / 100)

/-- `gmtime_r`. The divisions of signed values truncate, the unsigned values from `doe` on stay
in their range, and there is no result when the subtraction of 1900 overflows. -/
def gmtimeR (time : Int) : Option Tm :=
  let days := ((time.tdiv 60).tdiv 60).tdiv 24 + 719468
  let era := (if days ≥ 0 then days else days - 146096).tdiv 146097
  let doe := ((days - era * 146097) % 0x100000000).toNat
  let y : Int := yearOfEra doe + era * 400
  let doy := dayOfMarchYear doe
  let mp := (5 * doy + 2) / 153
  let d := doy - (153 * mp + 2) / 5 + 1
  let m := if mp < 10 then mp + 3 else mp - 9
  let year := toInt (y + if m ≤ 2 then 1 else 0) - 1900
  if FitsInt year then
    some {
      sec  := time.tmod 60
      min  := (time.tdiv 60).tmod 60
      hour := ((time.tdiv 60).tdiv 60).tmod 24
      mday := d
      mon  := m - 1
      year := year
      yday := if m ≤ 2 then (if m = 1 then d - 1 else 31 + d - 1)
              else doy + 58 + isLeap (year + 1900) }
  else none

/-- `mktime`, with no result when the sum over `long` overflows. The products and quotients that
are not tested stay below those that are. -/
def mktime (tm : Tm) : Option Int :=
  let year := if tm.mon < 2 then tm.year + 1900 - 1 else tm.year + 1900
  let mon := if tm.mon < 2 then tm.mon + 12 else tm.mon
  if FitsInt (year * 365) ∧ FitsInt (year * 365 + year.tdiv 4) then
    let days := year * 365 + year.tdiv 4 - year.tdiv 100 + year.tdiv 400
      + ((153 * (mon - 2) + 2).tdiv 5 + tm.mday - 1) - 719468
    some (days * 86400 + tm.hour * 3600 + tm.min * 60 + tm.sec)
  else none

/-! ## The Gregorian calendar -/

/-- The leap years. -/
def Leap (y : Nat) : Prop := y % 4 = 0 ∧ y % 100 ≠ 0 ∨ y % 400 = 0

instance (y : Nat) : Decidable (Leap y) := inferInstanceAs (Decidable (_ ∨ _))

/-- The leap days of a year. -/
def leapDay (y : Nat) : Nat := if Leap y then 1 else 0

/-- A day of the calendar, with months from 0. -/
structure Date where
  year  : Nat
  month : Nat
  day   : Nat
  deriving DecidableEq

/-- The length of a month. -/
def monthLength (y m : Nat) : Nat :=
  if m = 1 then 28 + leapDay y else if m ∈ [3, 5, 8, 10] then 30 else 31

/-- The day after. -/
def Date.tomorrow (d : Date) : Date :=
  if d.day < monthLength d.year d.month then { d with day := d.day + 1 }
  else if d.month < 11 then ⟨d.year, d.month + 1, 1⟩
  else ⟨d.year + 1, 0, 1⟩

/-- The date of a day, counted from 1 January 1970. -/
def dateOf : Nat → Date
  | 0     => ⟨1970, 0, 1⟩
  | n + 1 => (dateOf n).tomorrow

/-- The days between the 1 January before a day and the day. -/
def dayOfYear : Nat → Nat
  | 0     => 0
  | n + 1 =>
    if (dateOf (n + 1)).month = 0 ∧ (dateOf (n + 1)).day = 1 then 0 else dayOfYear n + 1

/-! ## Years that begin in March -/

/-- The days from 1 March of the year 0 to 1 March of the year, as `mktime` counts them. -/
def marchStart (y : Nat) : Nat := 365 * y + y / 4 - y / 100 + y / 400

theorem marchStart_succ (y : Nat) :
    marchStart (y + 1) = marchStart y + (365 + leapDay (y + 1)) := by
  have hle : y / 100 ≤ y := Nat.div_le_self _ _
  rw [marchStart, marchStart, leapDay, Nat.succ_div, Nat.succ_div, Nat.succ_div]
  generalize y / 4 = a, y / 100 = b, y / 400 = c at hle ⊢
  by_cases hl : Leap (y + 1)
  · rw [if_pos hl]
    unfold Leap at hl
    split_ifs <;> omega
  · rw [if_neg hl]
    unfold Leap at hl
    split_ifs <;> omega

theorem marchStart_mono : Monotone marchStart :=
  monotone_nat_of_le_succ fun y => by
    rw [marchStart_succ]
    exact Nat.le_add_right _ _

/-- The date of a day of a year that begins in March, by the formula of `gmtime_r`. -/
def civil (y doy : Nat) : Date :=
  let mp := (5 * doy + 2) / 153
  ⟨if mp < 10 then y else y + 1, if mp < 10 then mp + 2 else mp - 10,
    doy - (153 * mp + 2) / 5 + 1⟩

theorem leapDay_le (y : Nat) : leapDay y ≤ 1 := by
  unfold leapDay
  split_ifs <;> omega

/-- The formula takes the days in the order of the calendar. -/
theorem civil_tomorrow {y doy : Nat} (h : doy < 365 + leapDay (y + 1)) :
    (civil y doy).tomorrow
      = if doy + 1 < 365 + leapDay (y + 1) then civil y (doy + 1) else civil (y + 1) 0 := by
  have hleap := leapDay_le (y + 1)
  obtain ⟨mp, hmp⟩ : ∃ mp, (5 * doy + 2) / 153 = mp := ⟨_, rfl⟩
  have hnext : (5 * (doy + 1) + 2) / 153 = mp ∨ (5 * (doy + 1) + 2) / 153 = mp + 1 := by omega
  obtain rfl | rfl | rfl | rfl | rfl | rfl | rfl | rfl | rfl | rfl | rfl | rfl :
      mp = 0 ∨ mp = 1 ∨ mp = 2 ∨ mp = 3 ∨ mp = 4 ∨ mp = 5 ∨ mp = 6 ∨ mp = 7 ∨ mp = 8 ∨ mp = 9
        ∨ mp = 10 ∨ mp = 11 := by omega
  all_goals
    rcases hnext with hnext | hnext <;> simp [civil, Date.tomorrow, monthLength, hmp, hnext]
    all_goals split_ifs <;> simp <;> omega

theorem civil_newYear {y doy : Nat} (h : doy < 366) :
    (civil y doy).month = 0 ∧ (civil y doy).day = 1 ↔ doy = 306 := by
  obtain ⟨mp, hmp⟩ : ∃ mp, (5 * doy + 2) / 153 = mp := ⟨_, rfl⟩
  simp only [civil, hmp]
  constructor
  · rintro ⟨hmonth, hday⟩
    split_ifs at hmonth
    omega
  · rintro rfl
    subst hmp
    decide

/-- **The calendar by the formula of the code.** -/
theorem dateOf_eq {n y doy : Nat} (hn : marchStart y + doy = n + 719468)
    (hdoy : doy < 365 + leapDay (y + 1)) :
    dateOf n = civil y doy
      ∧ dayOfYear n = if doy < 306 then doy + 59 + leapDay y else doy - 306 := by
  induction n generalizing y doy with
  | zero =>
    obtain rfl : y = 1969 := by
      have hleap := leapDay_le (y + 1)
      unfold marchStart at hn
      omega
    obtain rfl : doy = 306 := by
      have : marchStart 1969 = 719162 := rfl
      omega
    exact ⟨rfl, rfl⟩
  | succ n ih =>
    have hnew := civil_newYear (y := y) (show doy < 366 by have := leapDay_le (y + 1); omega)
    cases doy with
    | succ doy =>
      obtain ⟨hdate, hday⟩ := @ih y doy (by omega) (by omega)
      have hnext : dateOf (n + 1) = civil y (doy + 1) := by
        rw [dateOf, hdate, civil_tomorrow (by omega), if_pos hdoy]
      refine ⟨hnext, ?_⟩
      rw [dayOfYear, hnext, hday]
      simp only [hnew]
      split_ifs <;> omega
    | zero =>
      -- the day before is the last of the February before
      obtain ⟨x, rfl⟩ : ∃ x, y = x + 1 := by
        refine ⟨y - 1, ?_⟩
        unfold marchStart at hn
        omega
      rw [marchStart_succ] at hn
      obtain ⟨hdate, hday⟩ := @ih x (364 + leapDay (x + 1)) (by omega) (by omega)
      have hnext : dateOf (n + 1) = civil (x + 1) 0 := by
        rw [dateOf, hdate, civil_tomorrow (by omega), if_neg (by omega)]
      refine ⟨hnext, ?_⟩
      rw [dayOfYear, hnext, hday, if_neg (by rw [hnew]; omega), if_neg (by omega),
        if_pos (by omega)]
      omega

/-- Every day lies in a year that begins in March. -/
theorem exists_march (n : Nat) :
    ∃ y doy, marchStart y + doy = n ∧ doy < 365 + leapDay (y + 1) := by
  induction n with
  | zero => exact ⟨0, 0, rfl, by omega⟩
  | succ n ih =>
    obtain ⟨y, doy, hn, hdoy⟩ := ih
    by_cases hnext : doy + 1 < 365 + leapDay (y + 1)
    · exact ⟨y, doy + 1, by omega, hnext⟩
    · refine ⟨y + 1, 0, ?_, by omega⟩
      rw [marchStart_succ]
      omega

/-- The March year and the day in it that `gmtime_r` finds for a day. -/
theorem march_split (n : Nat) : ∃ y doy, marchStart y + doy = n ∧ doy < 365 + leapDay (y + 1)
    ∧ (yearOfEra (n % 146097) : Int) + (n / 146097 : Nat) * 400 = y
    ∧ dayOfMarchYear (n % 146097) = doy := by
  obtain ⟨y, doy, rfl, hdoy⟩ := exists_march n
  refine ⟨y, doy, rfl, hdoy, ?_⟩
  -- the year by eras, centuries, groups of four years and years
  obtain ⟨a, c, k, j, hc, hk, hj, rfl⟩ : ∃ a c k j, c < 4 ∧ k < 25 ∧ j < 4
      ∧ y = 400 * a + (100 * c + 4 * k + j) :=
    ⟨y / 400, y % 400 / 100, y % 100 / 4, y % 4, by omega, by omega, by omega, by omega⟩
  have hlast : doy < 365 ∨ doy = 365 ∧ j = 3 ∧ (k < 24 ∨ c = 3) := by
    rw [leapDay] at hdoy
    split_ifs at hdoy with hleap
    · unfold Leap at hleap
      omega
    · exact .inl hdoy
  have hstart : marchStart (400 * a + (100 * c + 4 * k + j))
      = 146097 * a + (36524 * c + 1461 * k + 365 * j) := by
    have h4 : (400 * a + (100 * c + 4 * k + j)) / 4 = 100 * a + 25 * c + k := by omega
    have h100 : (400 * a + (100 * c + 4 * k + j)) / 100 = 4 * a + c := by omega
    have h400 : (400 * a + (100 * c + 4 * k + j)) / 400 = a := by omega
    rw [marchStart, h4, h100, h400]
    omega
  obtain ⟨doe, hdoe⟩ : ∃ doe, 36524 * c + 1461 * k + 365 * j + doy = doe := ⟨_, rfl⟩
  have hera : (marchStart (400 * a + (100 * c + 4 * k + j)) + doy) / 146097 = a := by omega
  have hday : (marchStart (400 * a + (100 * c + 4 * k + j)) + doy) % 146097 = doe := by omega
  have hyoe : yearOfEra doe = 100 * c + 4 * k + j := by
    -- the last day of the era is the leap day of the year 400
    by_cases hend : doe = 146096
    · rw [hend, show yearOfEra 146096 = 399 from rfl]
      omega
    obtain ⟨e, hq, he⟩ : ∃ e, doe / 1460 = 25 * c + k + e
        ∧ (e = 0 ∧ 365 * j + doy < 1460 ∨ e = 1 ∧ 1364 ≤ 365 * j + doy) :=
      ⟨(24 * c + k + (365 * j + doy)) / 1460, by omega, by omega⟩
    have h36524 : doe / 36524 = c := by omega
    have h146096 : doe / 146096 = 0 := by omega
    rw [yearOfEra, hq, h36524, h146096]
    omega
  have h4 : (100 * c + 4 * k + j) / 4 = 25 * c + k := by omega
  have h100 : (100 * c + 4 * k + j) / 100 = c := by omega
  rw [hera, hday, dayOfMarchYear, hyoe, h4, h100]
  omega

/-! ## What the functions compute -/

theorem days_eq (t : Nat) :
    (((t : Int).tdiv 60).tdiv 60).tdiv 24 + 719468 = (t / 86400 + 719468 : Nat) := by
  have hdays : (((t : Int).tdiv 60).tdiv 60).tdiv 24 = (t / 60 / 60 / 24 : Nat) := rfl
  omega

theorem doe_eq (n : Nat) :
    (((n : Int) - (n / 146097 : Nat) * 146097) % 0x100000000).toNat = n % 146097 := by
  omega

/-- The fields that `gmtime_r` stores on the day `doy` of a March year. Its day of the year has a
day less from March on, and it tests the year that it has stored for the leap day. -/
def stored (t y doy : Nat) : Tm where
  sec  := t % 60
  min  := t / 60 % 60
  hour := t / 60 / 60 % 24
  mday := (civil y doy).day
  mon  := (civil y doy).month
  year := toInt (civil y doy).year - 1900
  yday := if doy < 306 then doy + 58 + isLeap (toInt y) else (doy - 306 : Nat)

/-- **What `gmtime_r` does.** -/
theorem gmtimeR_spec (t : Nat) : ∃ y doy, marchStart y + doy = t / 86400 + 719468
    ∧ doy < 365 + leapDay (y + 1)
    ∧ gmtimeR t =
      if FitsInt (toInt (civil y doy).year - 1900) then some (stored t y doy) else none := by
  obtain ⟨y, doy, hcount, hdoy, hy, hy'⟩ := march_split (t / 86400 + 719468)
  refine ⟨y, doy, hcount, hdoy, ?_⟩
  have hera (n : Nat) : (n : Int).tdiv 146097 = (n / 146097 : Nat) := rfl
  unfold gmtimeR
  simp only [days_eq, hera, doe_eq, if_pos (Int.natCast_nonneg _), ge_iff_le, hy, hy', stored,
    civil]
  obtain ⟨mp, hmp⟩ : ∃ mp, (5 * doy + 2) / 153 = mp := ⟨_, rfl⟩
  by_cases hm : mp < 10
  · simp only [hmp, if_pos hm, if_pos (show doy < 306 by omega),
      if_neg (show ¬ mp + 3 ≤ 2 by omega), Int.add_zero, Int.sub_add_cancel]
    refine if_congr Iff.rfl (congrArg some ?_) rfl
    exact Tm.mk.injEq .. ▸ ⟨rfl, rfl, rfl, rfl, by omega, rfl, rfl⟩
  · have := leapDay_le (y + 1)
    simp only [hmp, if_neg hm, if_neg (show ¬ doy < 306 by omega),
      if_pos (show mp - 9 ≤ 2 by omega), Int.natCast_add, Int.natCast_one]
    refine if_congr Iff.rfl (congrArg some ?_) rfl
    refine Tm.mk.injEq .. ▸ ⟨rfl, rfl, rfl, rfl, by omega, rfl, ?_⟩
    obtain rfl | rfl : mp = 10 ∨ mp = 11 := by omega
    · rw [if_pos rfl]
      omega
    · rw [if_neg (by decide)]
      omega

/-- The fields of the second, minute, hour, day, month and year of a time. -/
structure Tm.Shows (tm : Tm) (t : Nat) : Prop where
  sec  : tm.sec = t % 60
  min  : tm.min = t / 60 % 60
  hour : tm.hour = t / 3600 % 24
  mday : tm.mday = (dateOf (t / 86400)).day
  mon  : tm.mon = (dateOf (t / 86400)).month
  year : tm.year + 1900 = (dateOf (t / 86400)).year

/-- The days before the March of the year 5879490, whose count leaves a `long`. -/
theorem lt_march_iff {y doy : Nat} (h : doy < 365 + leapDay (y + 1)) :
    y < 5879490 ↔ marchStart y + doy < 2147439626 := by
  have hbound : marchStart 5879490 = 2147439626 := rfl
  have hnext := marchStart_succ y
  by_cases hy : y < 5879490
  · have := marchStart_mono (show y + 1 ≤ 5879490 from hy)
    omega
  · have := marchStart_mono (show 5879490 ≤ y by omega)
    omega

theorem fitsInt_iff (y : Nat) :
    (FitsInt ((y : Int) * 365) ∧ FitsInt ((y : Int) * 365 + (y : Int).tdiv 4)) ↔ y < 5879490 := by
  rw [show (y : Int).tdiv 4 = (y / 4 : Nat) from rfl]
  unfold FitsInt
  omega

/-- **What `mktime` returns for the fields of a time.** -/
theorem mktime_spec {tm : Tm} {t y doy : Nat} (hcount : marchStart y + doy = t / 86400 + 719468)
    (hdoy : doy < 365 + leapDay (y + 1)) (hs : tm.Shows t) :
    mktime tm = if t < 185476621651200 then some (t : Int) else none := by
  have hleap := leapDay_le (y + 1)
  obtain ⟨mp, hmp⟩ : ∃ mp, (5 * doy + 2) / 153 = mp := ⟨_, rfl⟩
  obtain ⟨hsec, hmin, hhour, hmday, hmon, hyear⟩ := hs
  rw [(dateOf_eq hcount hdoy).1] at hmday hmon hyear
  simp only [civil, hmp] at hmday hmon hyear
  have hyear' : (if tm.mon < 2 then tm.year + 1900 - 1 else tm.year + 1900) = y := by
    rw [hmon, hyear]
    split_ifs <;> omega
  have hmon' : (if tm.mon < 2 then tm.mon + 12 else tm.mon) - 2 = mp := by
    rw [hmon]
    split_ifs <;> omega
  unfold mktime
  simp only [hyear', hmon']
  refine if_congr ((fitsInt_iff y).trans ((lt_march_iff hdoy).trans (by omega)))
    (congrArg some ?_) rfl
  have hm : (153 * (mp : Int) + 2).tdiv 5 = ((153 * mp + 2) / 5 : Nat) := rfl
  have hstart : (y : Int) * 365 + (y : Int).tdiv 4 - (y : Int).tdiv 100 + (y : Int).tdiv 400
      = marchStart y := by
    simp only [Int.tdiv_eq_ediv_of_nonneg (Int.natCast_nonneg y)]
    unfold marchStart
    omega
  rw [hm, hstart, hsec, hmin, hhour, hmday]
  omega

/-- **The calendar fields are right and `mktime` takes them back to the time exactly while the
day count fits a `long`.** -/
theorem roundTrip_iff (t : Nat) :
    (∃ tm, gmtimeR t = some tm ∧ tm.Shows t ∧ mktime tm = some (t : Int))
      ↔ t < 185476621651200 := by
  obtain ⟨y, doy, hcount, hdoy, heq⟩ := gmtimeR_spec t
  have hdate := (dateOf_eq hcount hdoy).1
  constructor
  · rintro ⟨tm, -, hs, hmk⟩
    rw [mktime_spec hcount hdoy hs] at hmk
    by_contra hlarge
    rw [if_neg hlarge] at hmk
    cases hmk
  · intro hsmall
    have hy := (lt_march_iff hdoy).mpr (by omega)
    have hle : (civil y doy).year ≤ y + 1 := by
      unfold civil
      dsimp only
      split_ifs <;> omega
    have hint : toInt (civil y doy).year = (civil y doy).year := by
      unfold toInt
      rw [Int.bmod_eq_of_le_mul_two] <;> omega
    have hfit : FitsInt (toInt (civil y doy).year - 1900) := by
      unfold FitsInt
      omega
    have hs : (stored t y doy).Shows t := by
      refine ⟨rfl, rfl, ?_, by rw [hdate, stored], by rw [hdate, stored], ?_⟩
      · show (t : Int) / 60 / 60 % 24 = t / 3600 % 24
        omega
      · rw [hdate, stored, hint, Int.sub_add_cancel]
    exact ⟨_, heq.trans (if_pos hfit), hs, (mktime_spec hcount hdoy hs).trans (if_pos hsmall)⟩

/-- At 07:06:40 on 15 August 5879698 the sum of `mktime` overflows, though the year fits its
field. The days are 2147515597, which no order of adding brings below `2 ^ 31`. -/
theorem long_overflows : gmtimeR 185483200000000
      = some ⟨40, 6, 7, 15, 7, 5879698 - 1900, 225⟩
    ∧ mktime ⟨40, 6, 7, 15, 7, 5879698 - 1900, 225⟩ = none := by
  decide

/-- **The stored day of the year is right exactly in January and February**, or when a common year
that does not fit an `int` is stored as a leap year. -/
theorem yday_iff (t : Nat) :
    (∃ tm, gmtimeR t = some tm ∧ tm.yday = dayOfYear (t / 86400))
      ↔ FitsInt (toInt (dateOf (t / 86400)).year - 1900)
        ∧ ((dateOf (t / 86400)).month < 2
          ∨ ¬ Leap (dateOf (t / 86400)).year ∧ isLeap (toInt (dateOf (t / 86400)).year) = 1) := by
  obtain ⟨y, doy, hcount, hdoy, heq⟩ := gmtimeR_spec t
  obtain ⟨hdate, hday⟩ := dateOf_eq hcount hdoy
  have hyday : (stored t y doy).yday = dayOfYear (t / 86400) ↔ (civil y doy).month < 2
      ∨ ¬ Leap (civil y doy).year ∧ isLeap (toInt (civil y doy).year) = 1 := by
    have hle : isLeap (toInt y) = 0 ∨ isLeap (toInt y) = 1 := by
      unfold isLeap
      split_ifs <;> omega
    rw [hday, stored]
    by_cases hmarch : doy < 306
    · have hmp : (5 * doy + 2) / 153 < 10 := by omega
      have hyear : (civil y doy).year = y := if_pos hmp
      have hmonth : ¬ (civil y doy).month < 2 := by
        simp only [civil, if_pos hmp]
        omega
      rw [if_pos hmarch, if_pos hmarch, hyear]
      generalize isLeap (toInt y) = l at hle ⊢
      by_cases hl : Leap y
      · rw [show leapDay y = 1 from if_pos hl]
        simp only [hmonth, hl, not_true, false_and, or_false, iff_false]
        omega
      · rw [show leapDay y = 0 from if_neg hl]
        simp only [hmonth, hl, not_false_eq_true, true_and, false_or]
        omega
    · have hmonth : (civil y doy).month < 2 := by
        have := leapDay_le (y + 1)
        simp only [civil, if_neg (show ¬ (5 * doy + 2) / 153 < 10 by omega)]
        omega
      simp only [if_neg hmarch, hmonth, true_or]
  rw [hdate, ← hyday, heq]
  by_cases hfit : FitsInt (toInt (civil y doy).year - 1900)
  · simp [hfit]
  · simp [hfit]

/-- On 1 March 1970, the day 59 of its year, `gmtime_r` stores 58, as on the day before. -/
theorem first_of_march : dateOf 59 = ⟨1970, 2, 1⟩ ∧ dayOfYear 59 = 59
    ∧ gmtimeR (59 * 86400) = some ⟨0, 0, 0, 1, 2, 70, 58⟩
    ∧ gmtimeR (58 * 86400) = some ⟨0, 0, 0, 28, 1, 70, 58⟩ := by
  decide +kernel

end FoliOS.Vellum.Calendar
