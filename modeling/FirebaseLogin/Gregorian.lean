import FirebaseLogin.SwiftText
import Mathlib.Algebra.Order.Ring.Int
import Mathlib.Tactic.IntervalCases
import Mathlib.Tactic.Linarith

/-!
# The Gregorian Calendar

The part of Foundation's calendar arithmetic that counts ages: civil dates, their day
numbers, the whole years between two instants, and the numeric fields of a date pattern.
An instant is a number of nanoseconds from midnight UTC of day `0`.

A `TimeZone` gives the wall-clock reading of an instant and resolves a reading to an
instant. Its two fields of proof are what a zone without a skipped or repeated midnight
guarantees: resolving a reading stays on the day of the reading, and later instants do
not fall on earlier days. Every fixed offset from UTC is such a zone.

`yearsBetween` is the count of `dateComponents([.year], from:to:)`: adding years keeps
the month, the time of day and the day, the last one pinned to the length of the month,
and the years are counted as long as the sum does not pass the second instant.

## Main results

* `dayNumber_civilOf`, `dayNumber_injective`: civil dates and day numbers correspond.
* `TimeZone.yearsBetween_spec`, `TimeZone.yearsBetween_spec_of_lt`: the years counted are
  complete, and no more are.
* `TimeZone.yearsBetween_eq_ite`: the count over instants is the count over calendar days,
  except on an anniversary at the wrong time of day.
* `formatCivil_injective`: the pattern `dd/MM/yyyy` determines the day.
-/

namespace FirebaseLogin

/-! ### Civil dates and day numbers -/

/-- The leap years of the proleptic Gregorian calendar. -/
def isLeap (y : Int) : Prop := y % 4 = 0 ∧ (y % 100 ≠ 0 ∨ y % 400 = 0)

/-- Leap years are decided by three divisions. -/
instance (y : Int) : Decidable (isLeap y) :=
  inferInstanceAs (Decidable (y % 4 = 0 ∧ (y % 100 ≠ 0 ∨ y % 400 = 0)))

/-- The length of a month, numbered from `1`. -/
def daysInMonth (y : Int) (m : Nat) : Nat :=
  if m = 2 then (if isLeap y then 29 else 28)
  else if m = 4 ∨ m = 6 ∨ m = 9 ∨ m = 11 then 30
  else 31

/-- A month has at least 28 days. -/
theorem daysInMonth_pos (y : Int) (m : Nat) : 28 ≤ daysInMonth y m := by
  rw [daysInMonth]
  split_ifs <;> omega

/-- A month has at most 31 days. -/
theorem daysInMonth_le (y : Int) (m : Nat) : daysInMonth y m ≤ 31 := by
  rw [daysInMonth]
  split_ifs <;> omega

/-- A day of the calendar. -/
structure CivilDate where
  year : Int
  month : Nat
  day : Nat
  month_pos : 1 ≤ month
  month_le : month ≤ 12
  day_pos : 1 ≤ day
  day_le : day ≤ daysInMonth year month
deriving DecidableEq

/-- The days before the first of January of a year, from year `1`. -/
def daysBeforeYear (y : Int) : Int :=
  365 * (y - 1) + (y - 1) / 4 - (y - 1) / 100 + (y - 1) / 400

/-- The days of a year before the first of a month. -/
def daysBeforeMonth (y : Int) : Nat → Nat
  | 0 => 0
  | 1 => 0
  | m + 2 => daysBeforeMonth y (m + 1) + daysInMonth y (m + 1)

/-- The number of a day, `0` for the first of January of year `1`. -/
def CivilDate.dayNumber (c : CivilDate) : Int :=
  daysBeforeYear c.year + (daysBeforeMonth c.year c.month + c.day - 1 : Nat)

/-- A year has 365 days, and a leap year one more. -/
theorem daysBeforeYear_succ (y : Int) :
    daysBeforeYear (y + 1) = daysBeforeYear y + 365 + if isLeap y then 1 else 0 := by
  simp only [daysBeforeYear, isLeap]
  split_ifs <;> omega

/-- Later years begin later. -/
theorem daysBeforeYear_mono {y y' : Int} (h : y ≤ y') :
    daysBeforeYear y ≤ daysBeforeYear y' := by
  simp only [daysBeforeYear]
  omega

/-- A month begins after the days of the one before. -/
theorem daysBeforeMonth_succ {y : Int} {m : Nat} (h : 1 ≤ m) :
    daysBeforeMonth y (m + 1) = daysBeforeMonth y m + daysInMonth y m := by
  obtain ⟨m, rfl⟩ : ∃ k, m = k + 1 := ⟨m - 1, by omega⟩
  rfl

/-- Later months begin later. -/
theorem daysBeforeMonth_mono (y : Int) {m m' : Nat} (h : m ≤ m') :
    daysBeforeMonth y m ≤ daysBeforeMonth y m' := by
  induction m' with
  | zero => simp [Nat.le_zero.mp h]
  | succ k ih =>
      rcases Nat.lt_or_ge m (k + 1) with hlt | hge
      · have hk := ih (by omega)
        rcases Nat.eq_zero_or_pos k with rfl | hpos
        · simp [daysBeforeMonth] at hk ⊢
          omega
        · rw [daysBeforeMonth_succ hpos]
          omega
      · rw [Nat.le_antisymm h hge]

/-- The days of the twelve months make up the year. -/
theorem daysBeforeMonth_thirteen (y : Int) :
    daysBeforeMonth y 13 = 365 + if isLeap y then 1 else 0 := by
  by_cases h : isLeap y <;> simp [daysBeforeMonth, daysInMonth, h]

/-- A day lies within its year. -/
theorem CivilDate.dayNumber_bounds (c : CivilDate) :
    daysBeforeYear c.year ≤ c.dayNumber ∧ c.dayNumber < daysBeforeYear (c.year + 1) := by
  have hmonth := daysBeforeMonth_succ (y := c.year) c.month_pos
  have hyear : daysBeforeMonth c.year (c.month + 1) ≤ daysBeforeMonth c.year 13 :=
    daysBeforeMonth_mono c.year (Nat.succ_le_succ c.month_le)
  have hthirteen := daysBeforeMonth_thirteen c.year
  have hday := c.day_le
  have hpos := c.day_pos
  rw [daysBeforeYear_succ, CivilDate.dayNumber]
  refine ⟨by omega, ?_⟩
  split_ifs at hthirteen ⊢ <;> omega

/-- A day of an earlier year has a smaller number. -/
theorem CivilDate.dayNumber_lt_of_year_lt {a b : CivilDate} (h : a.year < b.year) :
    a.dayNumber < b.dayNumber := by
  have ha := a.dayNumber_bounds.2
  have hb := b.dayNumber_bounds.1
  have hab := daysBeforeYear_mono (show a.year + 1 ≤ b.year by omega)
  omega

/-- Within a year, a day of an earlier month has a smaller number. -/
theorem CivilDate.dayNumber_lt_of_month_lt {a b : CivilDate} (hy : a.year = b.year)
    (h : a.month < b.month) : a.dayNumber < b.dayNumber := by
  have hmonth := daysBeforeMonth_succ (y := a.year) a.month_pos
  have hmono := daysBeforeMonth_mono a.year (show a.month + 1 ≤ b.month by omega)
  have hda := a.day_le
  have hpa := a.day_pos
  have hpb := b.day_pos
  simp only [CivilDate.dayNumber, ← hy]
  omega

/-- Different days have different numbers. -/
theorem CivilDate.dayNumber_injective {a b : CivilDate} (h : a.dayNumber = b.dayNumber) :
    a = b := by
  have hyear : a.year = b.year := by
    rcases lt_trichotomy a.year b.year with hlt | heq | hgt
    · exact absurd h (CivilDate.dayNumber_lt_of_year_lt hlt).ne
    · exact heq
    · exact absurd h (CivilDate.dayNumber_lt_of_year_lt hgt).ne'
  have hmonth : a.month = b.month := by
    rcases lt_trichotomy a.month b.month with hlt | heq | hgt
    · exact absurd h (CivilDate.dayNumber_lt_of_month_lt hyear hlt).ne
    · exact heq
    · exact absurd h (CivilDate.dayNumber_lt_of_month_lt hyear.symm hgt).ne'
  have hpa := a.day_pos
  have hpb := b.day_pos
  have hday : a.day = b.day := by
    simp only [CivilDate.dayNumber, hyear, hmonth] at h
    omega
  cases a
  cases b
  simp_all

/-! ### From day numbers to civil dates -/

/-- The year of a day number: an estimate by the mean length of a year, corrected by one
year either way. -/
def yearOf (n : Int) : Int :=
  let y := 400 * n / 146097 + 1
  if n < daysBeforeYear y then y - 1
  else if daysBeforeYear (y + 1) ≤ n then y + 1
  else y

/-- A day lies within the year that `yearOf` finds. -/
theorem yearOf_spec (n : Int) :
    daysBeforeYear (yearOf n) ≤ n ∧ n < daysBeforeYear (yearOf n + 1) := by
  unfold yearOf daysBeforeYear
  dsimp only
  split_ifs <;> constructor <;> omega

/-- The last month up to `k` that starts at or before a day of the year. -/
def monthUpTo (y : Int) (r : Nat) : Nat → Nat
  | 0 => 0
  | k + 1 => if daysBeforeMonth y (k + 1) ≤ r then k + 1 else monthUpTo y r k

/-- The search for the month finds one that holds the day of the year. -/
theorem monthUpTo_spec (y : Int) (r : Nat) {k : Nat} (hk : 1 ≤ k)
    (hr : r < daysBeforeMonth y (k + 1)) :
    1 ≤ monthUpTo y r k ∧ monthUpTo y r k ≤ k ∧
      daysBeforeMonth y (monthUpTo y r k) ≤ r ∧
      r < daysBeforeMonth y (monthUpTo y r k + 1) := by
  induction k with
  | zero => omega
  | succ k ih =>
      simp only [monthUpTo]
      by_cases h : daysBeforeMonth y (k + 1) ≤ r
      · rw [if_pos h]
        exact ⟨by omega, le_refl _, h, hr⟩
      · rw [if_neg h]
        have hk' : 1 ≤ k := by
          rcases Nat.eq_zero_or_pos k with rfl | hpos
          · simp [daysBeforeMonth] at h
          · exact hpos
        obtain ⟨h₁, h₂, h₃, h₄⟩ := ih hk' (by omega)
        exact ⟨h₁, by omega, h₃, h₄⟩

/-- The position of a day number in its year. -/
def dayOfYear (n : Int) : Nat := (n - daysBeforeYear (yearOf n)).toNat

/-- The day of the year lies within its twelve months. -/
theorem dayOfYear_lt (n : Int) : dayOfYear n < daysBeforeMonth (yearOf n) (12 + 1) := by
  obtain ⟨h₁, h₂⟩ := yearOf_spec n
  rw [daysBeforeYear_succ] at h₂
  rw [show 12 + 1 = 13 from rfl, daysBeforeMonth_thirteen]
  rw [dayOfYear]
  split_ifs at h₂ ⊢ <;> omega

/-- The month of a day is one of twelve, and holds the day. -/
theorem monthOf_spec (n : Int) :
    1 ≤ monthUpTo (yearOf n) (dayOfYear n) 12 ∧
      monthUpTo (yearOf n) (dayOfYear n) 12 ≤ 12 ∧
      daysBeforeMonth (yearOf n) (monthUpTo (yearOf n) (dayOfYear n) 12) ≤ dayOfYear n ∧
      dayOfYear n < daysBeforeMonth (yearOf n)
        (monthUpTo (yearOf n) (dayOfYear n) 12 + 1) :=
  monthUpTo_spec (yearOf n) (dayOfYear n) (by omega) (dayOfYear_lt n)

/-- The civil date of a day number. -/
def civilOf (n : Int) : CivilDate where
  year := yearOf n
  month := monthUpTo (yearOf n) (dayOfYear n) 12
  day := dayOfYear n -
    daysBeforeMonth (yearOf n) (monthUpTo (yearOf n) (dayOfYear n) 12) + 1
  month_pos := (monthOf_spec n).1
  month_le := (monthOf_spec n).2.1
  day_pos := by omega
  day_le := by
    obtain ⟨h₁, h₂, h₃, h₄⟩ := monthOf_spec n
    rw [daysBeforeMonth_succ h₁] at h₄
    omega

/-- The civil date of a day number has that number. -/
theorem dayNumber_civilOf (n : Int) : (civilOf n).dayNumber = n := by
  obtain ⟨-, -, h₃, -⟩ := monthOf_spec n
  have hy := (yearOf_spec n).1
  have hr : (dayOfYear n : Int) = n - daysBeforeYear (yearOf n) := by
    rw [dayOfYear]
    omega
  simp only [CivilDate.dayNumber, civilOf]
  omega

/-! ### Whole years between calendar days -/

/-- The day a number of years later, pinned to the length of its month. -/
def CivilDate.addYears (c : CivilDate) (k : Int) : CivilDate where
  year := c.year + k
  month := c.month
  day := min c.day (daysInMonth (c.year + k) c.month)
  month_pos := c.month_pos
  month_le := c.month_le
  day_pos := by
    have hpos := c.day_pos
    have hmonth := daysInMonth_pos (c.year + k) c.month
    omega
  day_le := Nat.min_le_right _ _

/-- No years later is the same date. -/
theorem CivilDate.addYears_zero (c : CivilDate) : c.addYears 0 = c := by
  cases c with
  | mk year month day _ _ _ hday =>
      simp only [CivilDate.addYears, CivilDate.mk.injEq, Int.add_zero, true_and]
      exact Nat.min_eq_left hday

/-- The complete calendar years from one day to another, negative when the second comes
first. -/
def calendarYears (a b : CivilDate) : Int :=
  let k := b.year - a.year
  if a.dayNumber ≤ b.dayNumber then
    if (a.addYears k).dayNumber ≤ b.dayNumber then k else k - 1
  else
    if b.dayNumber ≤ (a.addYears k).dayNumber then k else k + 1

/-- The calendar years without the last one: what is counted on an anniversary at the wrong
time of day. This is one less when the years are counted forwards, and one more when they are
counted backwards, from a day to an earlier one. -/
def skewedYears (a b : CivilDate) : Int :=
  if a.dayNumber ≤ b.dayNumber then calendarYears a b - 1 else calendarYears a b + 1

/-- The skewed count is not the calendar years. -/
theorem skewedYears_ne (a b : CivilDate) : skewedYears a b ≠ calendarYears a b := by
  rw [skewedYears]
  split_ifs <;> omega

/-! ### Time zones and whole years between instants -/

/-- The nanoseconds of a day. -/
def dayLength : Int := 86400 * 10 ^ 9

/-- A time zone. The wall clock of an instant counts nanoseconds from the local midnight
of day `0`; `instant` resolves a reading of the wall clock. -/
structure TimeZone where
  wallClock : Int → Int
  instant : Int → Int
  day_instant : ∀ w, wallClock (instant w) / dayLength = w / dayLength
  day_mono : ∀ i j : Int, i ≤ j → wallClock i / dayLength ≤ wallClock j / dayLength

/-- The zone at a fixed offset from UTC. -/
def TimeZone.fixed (offset : Int) : TimeZone where
  wallClock i := i + offset
  instant w := w - offset
  day_instant w := by simp
  day_mono i j h := by
    unfold dayLength
    omega

namespace TimeZone

variable (z : TimeZone)

/-- The number of the local day of an instant. -/
def dayOf (d : Int) : Int := z.wallClock d / dayLength

/-- The local day of an instant. -/
def localDate (d : Int) : CivilDate := civilOf (z.dayOf d)

/-- The local time of day of an instant. -/
def timeOfDay (d : Int) : Int := z.wallClock d % dayLength

/-- The instant a number of years later: the same time of day on the day reached by
adding the years. -/
def anniversary (d : Int) (k : Int) : Int :=
  if k = 0 then d
  else z.instant (((z.localDate d).addYears k).dayNumber * dayLength + z.timeOfDay d)

/-- `dateComponents([.year], from: d, to: n).year`: the years that can be added to `d`
without passing `n`. -/
def yearsBetween (d n : Int) : Int :=
  let k := (z.localDate n).year - (z.localDate d).year
  if d ≤ n then
    if z.anniversary d k ≤ n then k else k - 1
  else
    if n ≤ z.anniversary d k then k else k + 1

/-- The local date of an instant is that of its local day. -/
theorem dayNumber_localDate (d : Int) : (z.localDate d).dayNumber = z.dayOf d :=
  dayNumber_civilOf _

/-- An anniversary falls on the day reached by adding the years. -/
theorem dayOf_anniversary (d : Int) (k : Int) :
    z.dayOf (z.anniversary d k) = ((z.localDate d).addYears k).dayNumber := by
  rw [anniversary]
  split_ifs with hk
  · rw [hk, CivilDate.addYears_zero, dayNumber_localDate]
  · have hday := z.day_instant
      (((z.localDate d).addYears k).dayNumber * dayLength + z.timeOfDay d)
    rw [dayOf, hday]
    have hlow : 0 ≤ z.timeOfDay d := Int.emod_nonneg _ (by decide)
    have hhigh : z.timeOfDay d < dayLength := Int.emod_lt_of_pos _ (by decide)
    generalize ((z.localDate d).addYears k).dayNumber = m
    unfold dayLength at *
    omega

/-- Local days do not go back. -/
theorem dayOf_mono {i j : Int} (h : i ≤ j) : z.dayOf i ≤ z.dayOf j := z.day_mono i j h

/-- An instant on an earlier day is earlier. -/
theorem lt_of_dayOf_lt {i j : Int} (h : z.dayOf i < z.dayOf j) : i < j := by
  by_contra hle
  have := z.dayOf_mono (not_lt.mp hle)
  omega

/-- An anniversary in an earlier year than `n` is before `n`. -/
theorem anniversary_lt {d n : Int} {k : Int}
    (h : (z.localDate d).year + k < (z.localDate n).year) : z.anniversary d k < n := by
  apply z.lt_of_dayOf_lt
  rw [dayOf_anniversary, ← z.dayNumber_localDate n]
  exact CivilDate.dayNumber_lt_of_year_lt h

/-- An anniversary in a later year than `n` is after `n`. -/
theorem lt_anniversary {d n : Int} {k : Int}
    (h : (z.localDate n).year < (z.localDate d).year + k) : n < z.anniversary d k := by
  apply z.lt_of_dayOf_lt
  rw [dayOf_anniversary, ← z.dayNumber_localDate n]
  exact CivilDate.dayNumber_lt_of_year_lt h

/-- **The years counted forward are complete**, and one more year would not be. -/
theorem yearsBetween_spec {d n : Int} (h : d ≤ n) :
    z.anniversary d (z.yearsBetween d n) ≤ n ∧
      n < z.anniversary d (z.yearsBetween d n + 1) := by
  simp only [yearsBetween, if_pos h]
  split_ifs with hle
  · exact ⟨hle, z.lt_anniversary (by omega)⟩
  · refine ⟨(z.anniversary_lt (by omega)).le, ?_⟩
    rw [Int.sub_add_cancel]
    omega

/-- **The years counted backward are complete**, and one more year would not be. -/
theorem yearsBetween_spec_of_lt {d n : Int} (h : n < d) :
    n ≤ z.anniversary d (z.yearsBetween d n) ∧
      z.anniversary d (z.yearsBetween d n - 1) < n := by
  simp only [yearsBetween, if_neg (not_le.mpr h)]
  split_ifs with hle
  · exact ⟨hle, z.anniversary_lt (by omega)⟩
  · refine ⟨(z.lt_anniversary (by omega)).le, ?_⟩
    rw [Int.add_sub_cancel]
    omega

/-! ### Instants against calendar days -/

/-- The instant `n` falls on an anniversary of the day of `d`, but the time of day leaves the
last year incomplete: the anniversary instant is still ahead of `n` when the years are counted
forwards, and already behind it when `n` comes before `d` and they are counted backwards. -/
def Skewed (d n : Int) : Prop :=
  let k := (z.localDate n).year - (z.localDate d).year
  (z.localDate d).addYears k = z.localDate n ∧
    if d ≤ n then n < z.anniversary d k else z.anniversary d k < n

/-- Whether a pair of instants is skewed is decided by its dates and the anniversary instant. -/
instance (d n : Int) : Decidable (z.Skewed d n) :=
  inferInstanceAs (Decidable (_ ∧ if d ≤ n then _ < _ else _ < _))

/-- **The count over instants is the count over calendar days**, except that a skewed pair
misses the last year: one less forwards, one more backwards. -/
theorem yearsBetween_eq (d n : Int) :
    z.yearsBetween d n = calendarYears (z.localDate d) (z.localDate n) -
      if z.Skewed d n then (if d ≤ n then 1 else -1) else 0 := by
  have hd := z.dayNumber_localDate d
  have hn := z.dayNumber_localDate n
  obtain ⟨k, hk⟩ : ∃ k, (z.localDate n).year - (z.localDate d).year = k := ⟨_, rfl⟩
  have hskew : z.Skewed d n ↔ (z.localDate d).addYears k = z.localDate n ∧
      if d ≤ n then n < z.anniversary d k else z.anniversary d k < n := hk ▸ Iff.rfl
  simp only [yearsBetween, calendarYears, hd, hn, hk, hskew]
  have hA := z.dayOf_anniversary d k
  have hinj : ((z.localDate d).addYears k).dayNumber = z.dayOf n →
      (z.localDate d).addYears k = z.localDate n :=
    fun heq => CivilDate.dayNumber_injective (heq.trans hn.symm)
  by_cases hle : d ≤ n
  · -- forward: the anniversary and `n` can only differ in the time of day
    have hday := z.dayOf_mono hle
    simp only [if_pos hle, if_pos hday]
    by_cases ha : z.anniversary d k ≤ n
    · have hAn : ((z.localDate d).addYears k).dayNumber ≤ z.dayOf n := hA ▸ z.dayOf_mono ha
      rw [if_pos ha, if_pos hAn, if_neg (fun h => absurd h.2 (not_lt.mpr ha))]
      omega
    · have hAn : z.dayOf n ≤ ((z.localDate d).addYears k).dayNumber :=
        hA ▸ z.dayOf_mono (not_le.mp ha).le
      by_cases heq : (z.localDate d).addYears k = z.localDate n
      · rw [if_neg ha, heq, hn, if_pos (le_refl _), if_pos ⟨rfl, not_le.mp ha⟩]
      · have hlt : ¬ ((z.localDate d).addYears k).dayNumber ≤ z.dayOf n :=
          fun h => heq (hinj (le_antisymm h hAn))
        rw [if_neg ha, if_neg hlt, if_neg (fun h => heq h.1)]
        omega
  · -- backward: the same with the two instants exchanged, unless they share a day
    have hday := z.dayOf_mono (not_le.mp hle).le
    simp only [if_neg hle]
    rcases hday.lt_or_eq with hlt | heqday
    · rw [if_neg (not_le.mpr hlt)]
      by_cases ha : n ≤ z.anniversary d k
      · have hAn : z.dayOf n ≤ ((z.localDate d).addYears k).dayNumber :=
          hA ▸ z.dayOf_mono ha
        rw [if_pos ha, if_pos hAn, if_neg (fun h => absurd h.2 (not_lt.mpr ha))]
        omega
      · have hAn : ((z.localDate d).addYears k).dayNumber ≤ z.dayOf n :=
          hA ▸ z.dayOf_mono (not_le.mp ha).le
        by_cases heq : (z.localDate d).addYears k = z.localDate n
        · rw [if_neg ha, heq, hn, if_pos (le_refl _), if_pos ⟨rfl, not_le.mp ha⟩]
          omega
        · have hlt' : ¬ z.dayOf n ≤ ((z.localDate d).addYears k).dayNumber :=
            fun h => heq (hinj (le_antisymm hAn h))
          rw [if_neg ha, if_neg hlt', if_neg (fun h => heq h.1)]
          omega
    · have hsame : z.localDate d = z.localDate n := by
        simp only [localDate, heqday]
      obtain rfl : k = 0 := by
        rw [← hk, hsame]
        omega
      have hself : z.anniversary d 0 = d := if_pos rfl
      rw [if_pos heqday.ge, CivilDate.addYears_zero, hd, if_pos heqday.ge, hself,
        if_pos (not_le.mp hle).le, if_neg (fun h => absurd h.2 (not_lt.mpr (not_le.mp hle).le))]
      omega

/-- A skewed pair is in the order of its days. -/
theorem Skewed.le_iff {d n : Int} (h : z.Skewed d n) :
    d ≤ n ↔ (z.localDate d).dayNumber ≤ (z.localDate n).dayNumber := by
  rw [dayNumber_localDate, dayNumber_localDate]
  constructor
  · exact z.dayOf_mono
  · intro hday
    by_contra hlt
    -- on one day the pair is not skewed: the anniversary is `d` itself
    have hsame : z.localDate d = z.localDate n := by
      have hback := z.dayOf_mono (not_le.mp hlt).le
      simp only [localDate, le_antisymm hday hback]
    obtain ⟨-, hskew⟩ := h
    rw [if_neg hlt, hsame, Int.sub_self] at hskew
    have hself : z.anniversary d 0 = d := if_pos rfl
    omega

/-- The count over instants, as a count over calendar days. -/
theorem yearsBetween_eq_ite (d n : Int) :
    z.yearsBetween d n =
      if z.Skewed d n then skewedYears (z.localDate d) (z.localDate n)
      else calendarYears (z.localDate d) (z.localDate n) := by
  rw [yearsBetween_eq]
  by_cases h : z.Skewed d n
  · rw [if_pos h, if_pos h, skewedYears]
    by_cases hle : d ≤ n
    · rw [if_pos hle, if_pos (h.le_iff.mp hle)]
    · rw [if_neg hle, if_neg (fun hday => hle (h.le_iff.mpr hday))]
      omega
  · rw [if_neg h, if_neg h]
    omega

end TimeZone

/-! ### Date patterns -/

/-- A number with leading zeros up to a width. -/
def padded (width n : Nat) : List Char :=
  List.replicate (width - (Nat.toDigits 10 n).length) '0' ++ Nat.toDigits 10 n

/-- The year of its era: the year `0` is 1 BC. -/
def yearOfEra (y : Int) : Nat := if 1 ≤ y then y.toNat else (1 - y).toNat

/-- A field of a date pattern: a run of one letter, or a literal text. -/
def formatField (c : CivilDate) : List Char → List Char
  | 'd' :: cs => padded (cs.length + 1) c.day
  | 'M' :: cs => padded (cs.length + 1) c.month
  | 'y' :: cs => padded (cs.length + 1) (yearOfEra c.year)
  | cs => cs

/-- Print a day under a pattern of numeric fields. -/
def formatCivil (pattern : String) (c : CivilDate) : String :=
  String.ofList ((pattern.toList.splitBy fun a b => a == b).flatMap (formatField c))

/-- What the pattern of the app prints: day, month and year of the era. -/
theorem formatCivil_ddMMyyyy (c : CivilDate) :
    (formatCivil "dd/MM/yyyy" c).toList =
      padded 2 c.day ++ '/' :: (padded 2 c.month ++ '/' :: padded 4 (yearOfEra c.year)) := by
  have hruns : ("dd/MM/yyyy".toList.splitBy fun a b => a == b) =
      [['d', 'd'], ['/'], ['M', 'M'], ['/'], ['y', 'y', 'y', 'y']] := by decide
  rw [formatCivil, hruns, String.toList_ofList]
  simp [formatField]

/-- Leading zeros do not change the number that is read. -/
theorem padded_injective {width a b : Nat} (h : padded width a = padded width b) : a = b := by
  have hread : ∀ n, Nat.ofDigitChars 10 (padded width n) 0 = n := by
    intro n
    rw [padded, Nat.ofDigitChars_append, Nat.ofDigitChars_replicate_zero, Nat.mul_zero,
      Nat.ofDigitChars_ten_toDigits]
  rw [← hread a, h, hread b]

/-- Two digits are enough below a hundred. -/
theorem length_padded_two {n : Nat} (h : n < 100) : (padded 2 n).length = 2 := by
  have hlen : (Nat.toDigits 10 n).length ≤ 2 :=
    (Nat.length_toDigits_le_iff (by omega) (by omega)).mpr h
  simp only [padded, List.length_append, List.length_replicate]
  omega

/-- **The text `dd/MM/yyyy` determines the day**, among the days of our era. -/
theorem formatCivil_injective {a b : CivilDate} (ha : 1 ≤ a.year) (hb : 1 ≤ b.year)
    (h : formatCivil "dd/MM/yyyy" a = formatCivil "dd/MM/yyyy" b) : a = b := by
  have hday : ∀ c : CivilDate, (padded 2 c.day).length = 2 := fun c =>
    length_padded_two (by have := c.day_le; have := daysInMonth_le c.year c.month; omega)
  have hmonth : ∀ c : CivilDate, (padded 2 c.month).length = 2 := fun c =>
    length_padded_two (by have := c.month_le; omega)
  have hlist := congrArg String.toList h
  rw [formatCivil_ddMMyyyy, formatCivil_ddMMyyyy] at hlist
  obtain ⟨hd, hrest⟩ := List.append_inj hlist (by rw [hday, hday])
  obtain ⟨hm, hrest⟩ := List.append_inj (List.cons.inj hrest).2 (by rw [hmonth, hmonth])
  have hy := padded_injective (List.cons.inj hrest).2
  simp only [yearOfEra, if_pos ha, if_pos hb] at hy
  have hyear : a.year = b.year := by omega
  have hd' := padded_injective hd
  have hm' := padded_injective hm
  cases a
  cases b
  simp_all

end FirebaseLogin
