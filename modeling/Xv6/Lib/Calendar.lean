import Mathlib.Algebra.BigOperators.Intervals
import Mathlib.Algebra.Order.BigOperators.Group.Finset

/-!
# The Gregorian calendar

Dates and times from 1970 on, and the number of seconds from the start of 1970 to each. `Split` is what a loop does that takes lengths of
consecutive periods off a number of days: years first, then the months of a year.
-/

namespace Calendar

open Finset

def Leap (year : Nat) : Prop := year % 4 = 0 ∧ (year % 100 = 0 → year % 400 = 0)

instance (year : Nat) : Decidable (Leap year) := inferInstanceAs (Decidable (_ ∧ _))

def yearLength (year : Nat) : Nat := if Leap year then 366 else 365

/-- January is month 1. -/
def monthLength (year month : Nat) : Nat :=
  if month = 2 then (if Leap year then 29 else 28) else if month ∈ [4, 6, 9, 11] then 30 else 31

structure DateTime where
  year : Nat
  month : Nat
  day : Nat
  hour : Nat
  minute : Nat
  second : Nat
  year_ge : 1970 ≤ year
  month_mem : 1 ≤ month ∧ month ≤ 12
  day_mem : 1 ≤ day ∧ day ≤ monthLength year month
  hour_lt : hour < 24
  minute_lt : minute < 60
  second_lt : second < 60

def DateTime.days (t : DateTime) : Nat :=
  ∑ y ∈ Finset.Ico 1970 t.year, yearLength y + ∑ m ∈ Finset.Ico 1 t.month, monthLength t.year m + (t.day - 1)

def DateTime.seconds (t : DateTime) : Nat := ((t.days * 24 + t.hour) * 60 + t.minute) * 60 + t.second

theorem yearLength_ge (year : Nat) : 365 ≤ yearLength year := by
  rw [yearLength]
  split <;> omega

theorem sum_monthLength (year : Nat) : ∑ m ∈ Finset.Ico 1 13, monthLength year m = yearLength year := by
  by_cases h : Leap year
  · simp [sum_Ico_succ_top, monthLength, yearLength, h]
  · simp [sum_Ico_succ_top, monthLength, yearLength, h]

structure Split (len : Nat → Nat) (a x i r : Nat) : Prop where
  le : a ≤ i
  sum : ∑ j ∈ Finset.Ico a i, len j + r = x

section
variable {len : Nat → Nat} {a x i r : Nat}

theorem Split.start (len : Nat → Nat) (a x : Nat) : Split len a x a x := ⟨Nat.le_refl a, by simp⟩

theorem Split.next (h : Split len a x i r) (hr : len i ≤ r) : Split len a x (i + 1) (r - len i) := by
  refine ⟨Nat.le_succ_of_le h.le, ?_⟩
  rw [sum_Ico_succ_top h.le, ← h.sum]
  omega

theorem Split.bound {b : Nat} (h : Split len a x i r) (hlen : ∀ j, b ≤ len j) : (i - a) * b ≤ x := by
  have hsum : ∑ _j ∈ Finset.Ico a i, b ≤ ∑ j ∈ Finset.Ico a i, len j := sum_le_sum fun j _ => hlen j
  rw [sum_const_nat fun _ _ => rfl, Nat.card_Ico] at hsum
  rw [← h.sum]
  omega

end

end Calendar
