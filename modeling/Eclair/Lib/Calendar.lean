import Mathlib.Algebra.BigOperators.Group.Finset.Basic
import Mathlib.Algebra.Order.BigOperators.Group.Finset

/-!
# Eclair.Lib.Calendar

The proleptic Gregorian calendar: the days of its years and months, counted
from the start of 1970, and the seconds up to a moment.

`daysInYears_eq` is the closed form that code computes years with.
Moments are compared field by field (`seconds_inj`): the years first, since
a day of another year is at least as far away as the years are apart.
-/

namespace Calendar

def isLeap (y : Nat) : Bool := decide (y % 4 = 0 ∧ (y % 100 ≠ 0 ∨ y % 400 = 0))

def daysInYear (y : Nat) : Nat := if isLeap y then 366 else 365

/-- The days of month `m`, from 1 for January on. -/
def daysInMonth (y m : Nat) : Nat :=
  if m = 2 then (if isLeap y then 29 else 28)
  else if m = 4 ∨ m = 6 ∨ m = 9 ∨ m = 11 then 30
  else 31

/-- The days of `n` years from year `a` on. -/
@[irreducible] def daysInYears (a n : Nat) : Nat := ∑ k ∈ Finset.range n, daysInYear (a + k)

/-- The days from the start of 1970 to that of year `y`. -/
def daysBeforeYear (y : Nat) : Nat := daysInYears 1970 (y - 1970)

/-- The leap years before year `y`, counted by division. -/
def leapsBefore (y : Nat) : Nat := (y - 1) / 4 - (y - 1) / 100 + (y - 1) / 400

/-- The days from the start of year `y` to that of month `m`. -/
@[irreducible] def daysBeforeMonth (y m : Nat) : Nat := ∑ k ∈ Finset.range (m - 1), daysInMonth y (k + 1)

/-- The seconds from the start of 1970 to a time on day `d` of a month. -/
def seconds (y m d h mi s : Nat) : Nat :=
  86400 * (daysBeforeYear y + daysBeforeMonth y m + (d - 1)) + 3600 * h + 60 * mi + s

theorem isLeap_eq_true {y : Nat} : isLeap y = true ↔ y % 4 = 0 ∧ (y % 100 ≠ 0 ∨ y % 400 = 0) :=
  decide_eq_true_iff

theorem le_daysInYear (y : Nat) : 365 ≤ daysInYear y := by
  unfold daysInYear
  split <;> decide

theorem daysInMonth_le (y m : Nat) : daysInMonth y m ≤ 31 := by
  unfold daysInMonth
  split_ifs <;> decide

theorem daysInYears_succ (a n : Nat) :
    daysInYears a (n + 1) = daysInYears a n + daysInYear (a + n) := by
  simp only [daysInYears, Finset.sum_range_succ]

theorem leapsBefore_succ {y : Nat} (hy : 1 ≤ y) :
    leapsBefore (y + 1) = leapsBefore y + if isLeap y then 1 else 0 := by
  obtain ⟨k, rfl⟩ : ∃ k, y = k + 1 := ⟨y - 1, by omega⟩
  have h4 : (k + 1) / 4 = k / 4 + if (k + 1) % 4 = 0 then 1 else 0 := by split <;> omega
  have h100 : (k + 1) / 100 = k / 100 + if (k + 1) % 100 = 0 then 1 else 0 := by split <;> omega
  have h400 : (k + 1) / 400 = k / 400 + if (k + 1) % 400 = 0 then 1 else 0 := by split <;> omega
  have hle : k / 100 ≤ k / 4 := Nat.div_le_div_left (by decide) (by decide)
  have hdvd : (k + 1) % 100 = 0 → (k + 1) % 4 = 0 := by omega
  have hdvd' : (k + 1) % 400 = 0 → (k + 1) % 100 = 0 := by omega
  simp only [leapsBefore, Nat.add_sub_cancel, h4, h100, h400, isLeap, decide_eq_true_eq]
  split_ifs <;> omega

theorem daysInYear_eq (y : Nat) : daysInYear y = 365 + if isLeap y then 1 else 0 := by
  unfold daysInYear
  split <;> rfl

/-- Years are of 365 days, and their leap days are counted by division. -/
theorem daysInYears_eq {a : Nat} (ha : 1 ≤ a) (n : Nat) :
    daysInYears a n + leapsBefore a = 365 * n + leapsBefore (a + n) := by
  induction n with
  | zero => simp [daysInYears]
  | succ n ih =>
      rw [daysInYears_succ, daysInYear_eq, ← Nat.add_assoc a, leapsBefore_succ (by omega), Nat.mul_succ]
      omega

/-- Years are at least 365 days apart. -/
theorem daysInYears_add (a n k : Nat) : daysInYears a n + 365 * k ≤ daysInYears a (n + k) := by
  induction k with
  | zero => simp
  | succ k ih =>
      rw [← Nat.add_assoc n, daysInYears_succ, Nat.mul_succ, ← Nat.add_assoc]
      exact Nat.add_le_add ih (le_daysInYear _)

theorem daysBeforeYear_add {y y' : Nat} (hy : 1970 ≤ y) (hyy : y ≤ y') :
    daysBeforeYear y + 365 * (y' - y) ≤ daysBeforeYear y' := by
  have h := daysInYears_add 1970 (y - 1970) (y' - y)
  rwa [show y - 1970 + (y' - y) = y' - 1970 by omega] at h

/-- The months as a table, with the leap day apart. -/
theorem daysBeforeMonth_eq {y m : Nat} (hm : 1 ≤ m ∧ m ≤ 12) :
    daysBeforeMonth y m =
      [0, 31, 59, 90, 120, 151, 181, 212, 243, 273, 304, 334].getD (m - 1) 0 +
        if isLeap y ∧ 3 ≤ m then 1 else 0 := by
  have htable : ∀ leap : Bool, ∀ n < 12,
      (∑ k ∈ Finset.range n, if k + 1 = 2 then (if leap then 29 else 28)
        else if k + 1 = 4 ∨ k + 1 = 6 ∨ k + 1 = 9 ∨ k + 1 = 11 then 30 else 31) =
      [0, 31, 59, 90, 120, 151, 181, 212, 243, 273, 304, 334].getD n 0 +
        if leap ∧ 3 ≤ n + 1 then 1 else 0 := by
    decide
  obtain ⟨n, rfl⟩ : ∃ n, m = n + 1 := ⟨m - 1, by omega⟩
  simpa only [daysBeforeMonth, daysInMonth, Nat.add_sub_cancel] using htable (isLeap y) n (by omega)

theorem daysBeforeMonth_le {y m : Nat} (hm : 1 ≤ m ∧ m ≤ 12) : daysBeforeMonth y m ≤ 335 := by
  have htable : ∀ k < 12, [0, 31, 59, 90, 120, 151, 181, 212, 243, 273, 304, 334].getD k 0 ≤ 334 := by
    decide
  have h := htable (m - 1) (by omega)
  rw [daysBeforeMonth_eq hm]
  split <;> omega

/-- A time in an earlier year is earlier, if at least one year is between. -/
theorem seconds_lt {y y' m m' d d' h h' mi mi' s s' : Nat} (hy : 1970 ≤ y) (hyy : y + 2 ≤ y')
    (hm : 1 ≤ m ∧ m ≤ 12) (hd : d ≤ 31) (hh : h < 24) (hmi : mi < 60) (hs : s < 60) :
    seconds y m d h mi s < seconds y' m' d' h' mi' s' := by
  have hyears := daysBeforeYear_add hy (show y ≤ y' by omega)
  have hmonths := daysBeforeMonth_le (y := y) hm
  simp only [seconds]
  omega

/-- Times in one month that are ordered field by field are equal if they are
the same moment. -/
theorem seconds_inj {y y' m d d' h h' mi mi' s s' : Nat} (hy : 1970 ≤ y)
    (hyy : y = y' ∨ y + 2 ≤ y') (hm : 1 ≤ m ∧ m ≤ 12) (hd : 1 ≤ d ∧ d ≤ 31) (hh : h < 24)
    (hmi : mi < 60) (hs : s < 60) (hdd : d ≤ d') (hhh : h ≤ h') (hmm : mi ≤ mi') (hss : s ≤ s')
    (heq : seconds y m d h mi s = seconds y' m d' h' mi' s') :
    y = y' ∧ d = d' ∧ h = h' ∧ mi = mi' ∧ s = s' := by
  obtain rfl | hlt := hyy
  · simp only [seconds] at heq
    omega
  · exact absurd heq (Nat.ne_of_lt (seconds_lt hy hlt hm hd.2 hh hmi hs))

end Calendar
