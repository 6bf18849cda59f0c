import Mathlib.Algebra.Order.Ring.Int
import Mathlib.Algebra.BigOperators.Group.List.Basic

/-!
# The calendar

Days are numbered from the first of January of the year 1970, and dates are
those of the Gregorian calendar, before it was introduced too. Every day
has a date, and is the day of that date (`dayOf_dateOf`).
-/

namespace Calendar

def IsLeap (year : ℤ) : Prop := year % 4 = 0 ∧ (year % 100 ≠ 0 ∨ year % 400 = 0)

instance (year : ℤ) : Decidable (IsLeap year) := inferInstanceAs (Decidable (_ ∧ _))

/-- The lengths of the months of a year. -/
def monthLengths (year : ℤ) : List ℕ :=
  [31, if IsLeap year then 29 else 28, 31, 30, 31, 30, 31, 31, 30, 31, 30, 31]

/-- **A date**: a year, a month of it from 1 on, and a day of that month. -/
structure Date where
  year : ℤ
  month : ℕ
  day : ℕ
  month_pos : 1 ≤ month
  month_le : month ≤ 12
  day_pos : 1 ≤ day
  day_le : day ≤ (monthLengths year).getD (month - 1) 0

/-- The days from the first of January of the year 1 to that of another year. -/
def daysBefore (year : ℤ) : ℤ :=
  365 * (year - 1) + (year - 1) / 4 - (year - 1) / 100 + (year - 1) / 400

/-- The number of the day of a year, a month and a day of the month. -/
def dayOf (year : ℤ) (month day : ℕ) : ℤ :=
  daysBefore year - daysBefore 1970 + ((monthLengths year).take (month - 1)).sum + day - 1

example : dayOf 1970 1 1 = 0 ∧ dayOf 2000 3 1 = 11017 := by decide

theorem daysBefore_succ (year : ℤ) :
    daysBefore (year + 1) = daysBefore year + if IsLeap year then 366 else 365 := by
  by_cases hleap : IsLeap year
  · rw [if_pos hleap]
    unfold daysBefore
    unfold IsLeap at hleap
    omega
  · rw [if_neg hleap]
    unfold daysBefore
    unfold IsLeap at hleap
    omega

theorem sum_monthLengths (year : ℤ) :
    ((monthLengths year).sum : ℤ) = if IsLeap year then 366 else 365 := by
  unfold monthLengths
  split <;> rfl

/-! ## The date of a day -/

/-- The year of a day that is counted from the first of January of the year 1:
near the quotient by the mean length of a year. -/
def yearOf (days : ℤ) : ℤ :=
  let guess := 400 * days / 146097 + 1
  if days < daysBefore guess then guess - 1
  else if daysBefore (guess + 1) ≤ days then guess + 1
  else guess

theorem daysBefore_yearOf (days : ℤ) :
    daysBefore (yearOf days) ≤ days ∧ days < daysBefore (yearOf days + 1) := by
  have hbelow : daysBefore (400 * days / 146097 + 1 - 1) ≤ days := by
    unfold daysBefore
    omega
  have habove : days < daysBefore (400 * days / 146097 + 1 + 1 + 1) := by
    unfold daysBefore
    omega
  unfold yearOf
  simp only
  split
  · next hlt =>
    rw [Int.sub_add_cancel]
    exact ⟨hbelow, hlt⟩
  · split
    · next hle => exact ⟨hle, habove⟩
    · next hge hlt => exact ⟨by omega, by omega⟩

/-- Where a number falls in a row of lengths: in which of them, and how far. -/
def locate : List ℕ → ℕ → ℕ × ℕ
  | [], n => (0, n)
  | len :: lens, n => if n < len then (0, n) else ((locate lens (n - len)).1 + 1, (locate lens (n - len)).2)

theorem locate_spec {lens : List ℕ} {n : ℕ} (h : n < lens.sum) :
    (locate lens n).1 < lens.length ∧ (locate lens n).2 < lens.getD (locate lens n).1 0 ∧
      (lens.take (locate lens n).1).sum + (locate lens n).2 = n := by
  induction lens generalizing n with
  | nil => exact absurd h (Nat.not_lt_zero n)
  | cons len lens ih =>
    rw [List.sum_cons] at h
    rw [locate]
    split
    · next hlt => exact ⟨by simp, by simpa using hlt, by simp⟩
    · next hge =>
      obtain ⟨hlen, hlt, hsum⟩ := @ih (n - len) (by omega)
      refine ⟨by simpa using hlen, by simpa using hlt, ?_⟩
      rw [List.take_succ_cons, List.sum_cons]
      omega

/-- The day of the year of a day, from 0 on. -/
def dayOfYear (days : ℤ) : ℕ := (days - daysBefore (yearOf days)).toNat

theorem daysBefore_add_dayOfYear (days : ℤ) : daysBefore (yearOf days) + dayOfYear days = days := by
  have hle := (daysBefore_yearOf days).1
  unfold dayOfYear
  omega

theorem dayOfYear_lt (days : ℤ) : dayOfYear days < (monthLengths (yearOf days)).sum := by
  have hlt := (daysBefore_yearOf days).2
  have hsum := sum_monthLengths (yearOf days)
  have hday := daysBefore_add_dayOfYear days
  rw [daysBefore_succ, ← hsum] at hlt
  omega

/-- The date of a day. -/
def dateOf (day : ℤ) : Date :=
  let days := day + daysBefore 1970
  let place := locate (monthLengths (yearOf days)) (dayOfYear days)
  { year := yearOf days
    month := place.1 + 1
    day := place.2 + 1
    month_pos := Nat.le_add_left 1 _
    month_le := (locate_spec (dayOfYear_lt days)).1
    day_pos := Nat.le_add_left 1 _
    day_le := (locate_spec (dayOfYear_lt days)).2.1 }

/-- **Each day is the day of its date.** -/
theorem dayOf_dateOf (day : ℤ) :
    dayOf (dateOf day).year (dateOf day).month (dateOf day).day = day := by
  have hday := daysBefore_add_dayOfYear (day + daysBefore 1970)
  have hsum := (locate_spec (dayOfYear_lt (day + daysBefore 1970))).2.2
  unfold dayOf dateOf
  simp only [Nat.add_sub_cancel]
  omega

end Calendar
