import Mathlib.Algebra.BigOperators.Group.List.Basic
import Mathlib.Algebra.GroupWithZero.Nat
import Mathlib.Data.Nat.Basic

/-!
# The Gregorian calendar

The date of a day is found by counting the days off, year by year and then month by
month (`dateOf`); counting the lengths together gives the day back (`dayNumber_dateOf`).
Both counts are one search, in a list of lengths (`locate`).
-/

namespace Calendar

/-! ### Pieces of given lengths -/

/-- Which piece a position is in, and where in it. Pieces of given lengths lie one
behind the other; behind the last of them nothing is found. -/
def locate : List ℕ → ℕ → ℕ × ℕ
  | [], d => (0, d)
  | l :: ls, d => if d < l then (0, d) else ((locate ls (d - l)).1 + 1, (locate ls (d - l)).2)

variable {ls : List ℕ} {d : ℕ}

/-- The pieces in front of it and the place in it are the position. By induction on the
lengths. -/
theorem sum_take_locate (ls : List ℕ) (d : ℕ) :
    (ls.take (locate ls d).1).sum + (locate ls d).2 = d := by
  induction ls generalizing d with
  | nil => exact Nat.zero_add d
  | cons l ls ih =>
    rw [locate]
    split
    · exact Nat.zero_add d
    · next h =>
      have hrest := ih (d - l)
      rw [List.take_succ_cons, List.sum_cons, Nat.add_assoc, hrest]
      omega

/-- A position within the pieces is within one of them. -/
theorem locate_lt (h : d < ls.sum) : ∃ l, ls[(locate ls d).1]? = some l ∧ (locate ls d).2 < l := by
  induction ls generalizing d with
  | nil => cases h
  | cons l ls ih =>
    rw [locate]
    split
    · next hl => exact ⟨l, rfl, hl⟩
    · next hl =>
      rw [List.sum_cons] at h
      obtain ⟨l', hl', hlt⟩ := ih (d := d - l) (by omega)
      exact ⟨l', hl', hlt⟩

/-- In particular there is such a piece. -/
theorem locate_lt_length (h : d < ls.sum) : (locate ls d).1 < ls.length := by
  obtain ⟨l, hl, -⟩ := locate_lt h
  exact (List.getElem?_eq_some_iff.1 hl).1

/-- Some of the pieces are no longer than all. -/
theorem sum_take_le (ls : List ℕ) (k : ℕ) : (ls.take k).sum ≤ ls.sum := by
  have hsum := congrArg List.sum (List.take_append_drop k ls)
  rw [List.sum_append] at hsum
  omega

/-! ### Years and months -/

/-- Every fourth year, but of the full centuries only every fourth. -/
def isLeap (year : ℕ) : Bool := year % 4 = 0 && (year % 100 ≠ 0 || year % 400 = 0)

/-- The lengths of the months of a year. -/
def monthLengths (year : ℕ) : List ℕ :=
  [31, if isLeap year then 29 else 28, 31, 30, 31, 30, 31, 31, 30, 31, 30, 31]

/-- The length of a year. -/
def yearLength (year : ℕ) : ℕ := if isLeap year then 366 else 365

/-- The months of a year make up the year. -/
theorem sum_monthLengths (year : ℕ) : (monthLengths year).sum = yearLength year := by
  rw [monthLengths, yearLength]
  cases isLeap year <;> rfl

/-- The lengths of `k` years, from `epoch` on. -/
def yearLengths (epoch k : ℕ) : List ℕ := (List.range' epoch k).map yearLength

/-- A year has 365 days at least. -/
theorem le_sum_yearLengths (epoch k : ℕ) : 365 * k ≤ (yearLengths epoch k).sum := by
  induction k generalizing epoch with
  | zero => exact Nat.zero_le _
  | succ k ih =>
    have hrest := ih (epoch + 1)
    have hyear : 365 ≤ yearLength epoch := by
      rw [yearLength]
      split <;> omega
    rw [yearLengths, List.range'_succ, List.map_cons, List.sum_cons]
    rw [yearLengths] at hrest
    omega

/-- The first `k` of them. -/
theorem take_yearLengths (epoch : ℕ) {k m : ℕ} (h : k ≤ m) :
    (yearLengths epoch m).take k = yearLengths epoch k := by
  rw [yearLengths, ← List.map_take, List.take_range'_of_length_ge h, yearLengths]

/-- A date; months count from 0 and the days of a month from 1. -/
structure Date where
  year : ℕ
  month : ℕ
  day : ℕ

/-- The year of a day, and the day of this year; days count from the first of the year
`epoch`. The year is among the first `d / 365 + 1`, as none is shorter than 365 days. -/
def yearOf (epoch d : ℕ) : ℕ × ℕ :=
  (epoch + (locate (yearLengths epoch (d / 365 + 1)) d).1,
    (locate (yearLengths epoch (d / 365 + 1)) d).2)

/-- The date of a day: its year, and then its month and the day of the month. -/
def dateOf (epoch d : ℕ) : Date where
  year := (yearOf epoch d).1
  month := (locate (monthLengths (yearOf epoch d).1) (yearOf epoch d).2).1
  day := (locate (monthLengths (yearOf epoch d).1) (yearOf epoch d).2).2 + 1

/-- The day of a date: the years before it, the months before it and the days of its
month. -/
def dayNumber (epoch : ℕ) (date : Date) : ℕ :=
  (yearLengths epoch (date.year - epoch)).sum + ((monthLengths date.year).take date.month).sum +
    (date.day - 1)

section DateOf

variable {epoch k : ℕ}

/-- The years that are searched reach beyond the day. -/
theorem lt_sum_yearLengths (epoch d : ℕ) : d < (yearLengths epoch (d / 365 + 1)).sum := by
  have hle := le_sum_yearLengths epoch (d / 365 + 1)
  omega

/-- The years before it and the day of the year are the day, and the day of the year is
within the year. -/
theorem yearOf_spec (epoch d : ℕ) :
    (yearLengths epoch ((yearOf epoch d).1 - epoch)).sum + (yearOf epoch d).2 = d ∧
      (yearOf epoch d).2 < yearLength (yearOf epoch d).1 := by
  have hlt := lt_sum_yearLengths epoch d
  have hindex := locate_lt_length hlt
  rw [yearLengths, List.length_map, List.length_range'] at hindex
  constructor
  -- the years in front are those that `locate` has passed
  · have hsum := sum_take_locate (yearLengths epoch (d / 365 + 1)) d
    rw [take_yearLengths epoch (by rw [yearLengths]; omega)] at hsum
    rw [yearOf, Nat.add_sub_cancel_left]
    exact hsum
  -- and the piece it has stopped in is the year itself
  · obtain ⟨l, hl, hin⟩ := locate_lt hlt
    have hlength : l = yearLength (yearOf epoch d).1 := by
      simp only [yearLengths, List.getElem?_map, List.getElem?_range' hindex, Option.map_some,
        Option.some.injEq] at hl
      rw [← hl, yearOf, yearLengths, Nat.one_mul]
    exact hlength ▸ hin

/-- The month and the day of a date are in their ranges. -/
theorem dateOf_spec (epoch d : ℕ) : (dateOf epoch d).month < 12 ∧ (dateOf epoch d).day ≤ 31 ∧
    1 ≤ (dateOf epoch d).day := by
  have hlt := (yearOf_spec epoch d).2
  rw [← sum_monthLengths] at hlt
  have hmonth := locate_lt_length hlt
  obtain ⟨l, hl, hday⟩ := locate_lt hlt
  have hle : l ≤ 31 := by
    have hmem := List.mem_of_getElem? hl
    rw [monthLengths] at hmem
    simp only [List.mem_cons, List.not_mem_nil, or_false] at hmem
    split at hmem <;> omega
  exact ⟨hmonth, show _ + 1 ≤ 31 by omega, Nat.le_add_left _ _⟩

/-- **The days up to a date** are the day whose date it is. So no two days have one
date. -/
theorem dayNumber_dateOf (epoch d : ℕ) : dayNumber epoch (dateOf epoch d) = d := by
  have hyear := (yearOf_spec epoch d).1
  have hmonth := sum_take_locate (monthLengths (yearOf epoch d).1) (yearOf epoch d).2
  simp only [dayNumber, dateOf, Nat.add_sub_cancel]
  rw [Nat.add_assoc, hmonth, hyear]

/-- A day in front of the year `epoch + k`. -/
theorem year_lt (h : d < (yearLengths epoch k).sum) : (dateOf epoch d).year < epoch + k := by
  by_contra hle
  have hyear := (yearOf_spec epoch d).1
  have hk : k ≤ (yearOf epoch d).1 - epoch := by
    simp only [dateOf] at hle
    omega
  have hsum := sum_take_le (yearLengths epoch ((yearOf epoch d).1 - epoch)) k
  rw [take_yearLengths epoch hk] at hsum
  omega

/-- No day is before the year `epoch`. -/
theorem le_year (epoch d : ℕ) : epoch ≤ (dateOf epoch d).year := Nat.le_add_right _ _

end DateOf

end Calendar
