import Mathlib.Tactic.IntervalCases
import Xv6.Lib.Calendar

/-!
# `get_datetime` (`kernel/datetime.c`)

The seconds since boot, which the timer gives, and the time of the build are turned into a date. `int` is `Int` here: `days` is cut to 32
bits where the source does it, and no other value leaves the range.
-/

namespace Xv6.Sys

open Calendar BitVec

/-- `datetime.c:9`. -/
def EGYPT_TZ_OFFSET : BitVec 64 := 2 * 3600

/-- `datetime.c:12`. -/
def TIMER_FREQ : BitVec 64 := 10000000

/-- `struct rtcdate` (`types.h:14`). -/
structure Rtcdate where
  year : Int
  month : Int
  day : Int
  hour : Int
  minute : Int
  second : Int
  deriving DecidableEq

def int (x : BitVec 64) : Int := (x.setWidth 32).toInt

/-- `datetime.c:14`, with the remainder of C. -/
def isLeap (year : Int) : Bool := year.tmod 4 = 0 ∧ (year.tmod 100 ≠ 0 ∨ year.tmod 400 = 0)

/-- `days_in_month` (`datetime.c:19`, `:47`). -/
def daysInMonth (leap : Bool) : List Int := [0, 31, if leap then 29 else 28, 31, 30, 31, 30, 31, 31, 30, 31, 30, 31]

/-- `days_in_year` (`datetime.c:34`). -/
def daysInYear (year : Int) : Int := if isLeap year then 366 else 365

theorem daysInYear_pos (year : Int) : 0 < daysInYear year := by
  rw [daysInYear]
  split <;> decide

/-- The loop `datetime.c:33`: the year, and the days that are left. -/
def yearFrom (year days : Int) : Int × Int :=
  if days < daysInYear year then (year, days) else yearFrom (year + 1) (days - daysInYear year)
termination_by days.toNat
decreasing_by
  have := daysInYear_pos year
  omega

/-- The loop `datetime.c:50`. An index outside 1..12 is an error. -/
def monthFrom (daysInMonth : List Int) (month days : Int) : Except String (Int × Int) :=
  if 1 ≤ month ∧ month ≤ 12 then
    if days ≥ daysInMonth.getD month.toNat 0 then monthFrom daysInMonth (month + 1) (days - daysInMonth.getD month.toNat 0)
    else .ok (month, days)
  else .error "days_in_month"
termination_by (13 - month).toNat
decreasing_by omega

/-- `datetime.c:18`, with the value of the timer and `BOOT_EPOCH`. -/
def getDatetime (mtime BOOT_EPOCH : BitVec 64) : Except String Rtcdate :=
  let secs := mtime / TIMER_FREQ + BOOT_EPOCH + EGYPT_TZ_OFFSET
  let second := int (secs % 60)
  let secs := secs / 60
  let minute := int (secs % 60)
  let secs := secs / 60
  let hour := int (secs % 24)
  let days := int (secs / 24)
  let (year, days) := yearFrom 1970 days
  match monthFrom (daysInMonth (isLeap year)) 1 days with
  | .error e => .error e
  | .ok (month, days) => .ok ⟨year, month, days + 1, hour, minute, second⟩

/-! ## The two loops -/

theorem isLeap_iff (year : Nat) : isLeap year ↔ Leap year := by
  have h (n : Nat) : (year : Int).tmod n = 0 ↔ year % n = 0 := by
    rw [Int.tmod_eq_emod_of_nonneg (Int.natCast_nonneg year)]
    omega
  rw [isLeap, decide_eq_true_iff, Leap, ← h 4, ← h 100, ← h 400, ne_eq, imp_iff_not_or]
  rfl

theorem daysInYear_eq (year : Nat) : daysInYear year = yearLength year := by
  simp only [daysInYear, isLeap_iff, yearLength]
  split <;> rfl

theorem yearFrom_split {x year days : Nat} (h : Split yearLength 1970 x year days) :
    ∃ year' days' : Nat, yearFrom year days = ((year' : Int), (days' : Int)) ∧ Split yearLength 1970 x year' days' ∧
      days' < yearLength year' := by
  induction days using Nat.strongRecOn generalizing year with
  | _ days ih =>
    have hpos := yearLength_ge year
    rw [yearFrom, daysInYear_eq]
    split
    case isTrue hlt => exact ⟨year, days, rfl, h, Int.ofNat_lt.1 hlt⟩
    case isFalse hge =>
      have hle : yearLength year ≤ days := by omega
      obtain ⟨year', days', heq, hsplit, hlt⟩ := ih (days - yearLength year) (by omega) (h.next hle)
      refine ⟨year', days', ?_, hsplit, hlt⟩
      rw [← heq]
      push_cast [hle]
      rfl

theorem getD_daysInMonth (year : Nat) {month : Nat} (h : 1 ≤ month ∧ month ≤ 12) :
    (daysInMonth (isLeap year)).getD month 0 = monthLength year month := by
  have hleap : isLeap year = decide (Leap year) := Bool.eq_iff_iff.2 ((isLeap_iff year).trans decide_eq_true_iff.symm)
  obtain ⟨h1, h2⟩ := h
  rw [hleap, daysInMonth, monthLength]
  by_cases hl : Leap year
  · simp only [hl]
    interval_cases month <;> rfl
  · simp only [hl]
    interval_cases month <;> rfl

theorem monthFrom_split {year x month days : Nat} (hx : x < yearLength year) (h : Split (monthLength year) 1 x month days)
    (hmonth : month ≤ 12) :
    ∃ month' days' : Nat, monthFrom (daysInMonth (isLeap year)) month days = .ok ((month' : Int), (days' : Int)) ∧
      Split (monthLength year) 1 x month' days' ∧ month' ≤ 12 ∧ days' < monthLength year month' := by
  have hin : 1 ≤ month ∧ month ≤ 12 := ⟨h.le, hmonth⟩
  rw [monthFrom, if_pos (by omega), Int.toNat_natCast, getD_daysInMonth year hin]
  by_cases hle : monthLength year month ≤ days
  · have h' := h.next hle
    have hmonth' : month + 1 ≤ 12 := by
      by_contra hlast
      -- All twelve months are taken off, which are more days than there are.
      have hsum := h'.sum
      rw [show month + 1 = 13 by omega, sum_monthLength] at hsum
      omega
    obtain ⟨month', days', heq, hres⟩ := monthFrom_split hx h' hmonth'
    refine ⟨month', days', ?_, hres⟩
    rw [if_pos (Int.ofNat_le.2 hle), ← heq]
    push_cast [hle]
    rfl
  · rw [if_neg (by omega)]
    exact ⟨month, days, rfl, h, hmonth, by omega⟩
termination_by 12 - month

/-! ## The result -/

def rtcdate (t : DateTime) : Rtcdate := ⟨t.year, t.month, t.day, t.hour, t.minute, t.second⟩

theorem int_eq {x : BitVec 64} (h : x.toNat < 2 ^ 31) : int x = x.toNat := by
  have hw : (x.setWidth 32).toNat = x.toNat := by
    rw [toNat_setWidth]
    exact Nat.mod_eq_of_lt (by omega)
  rw [int, toInt_eq_toNat_cond, hw, if_pos (by omega)]

theorem toNat_secs (mtime : BitVec 64) {BOOT_EPOCH : BitVec 64} (hepoch : BOOT_EPOCH.toNat ≤ 2 ^ 40) :
    (mtime / TIMER_FREQ + BOOT_EPOCH + EGYPT_TZ_OFFSET).toNat = mtime.toNat / 10000000 + BOOT_EPOCH.toNat + 7200 := by
  have := mtime.isLt
  simp only [toNat_add, toNat_udiv]
  change ((mtime.toNat / 10000000 + BOOT_EPOCH.toNat) % 2 ^ 64 + 7200) % 2 ^ 64 = _
  omega

theorem int_second (secs : BitVec 64) : int (secs % 60) = (secs.toNat % 60 : Nat) := by
  have h : (secs % 60).toNat = secs.toNat % 60 := toNat_umod
  rw [int_eq (by omega), h]

theorem int_minute (secs : BitVec 64) : int (secs / 60 % 60) = (secs.toNat / 60 % 60 : Nat) := by
  rw [int_second, toNat_udiv]
  rfl

theorem int_hour (secs : BitVec 64) : int (secs / 60 / 60 % 24) = (secs.toNat / 60 / 60 % 24 : Nat) := by
  have h : (secs / 60 / 60 % 24).toNat = secs.toNat / 60 / 60 % 24 := by
    rw [toNat_umod, toNat_udiv, toNat_udiv]
    rfl
  rw [int_eq (by omega), h]

theorem int_days {secs : BitVec 64} (hsecs : secs.toNat < 2 ^ 42) : int (secs / 60 / 60 / 24) = (secs.toNat / 60 / 60 / 24 : Nat) := by
  have h : (secs / 60 / 60 / 24).toNat = secs.toNat / 60 / 60 / 24 := by
    rw [toNat_udiv, toNat_udiv, toNat_udiv]
    rfl
  rw [int_eq (by omega), h]

theorem get_datetime_correct (mtime BOOT_EPOCH : BitVec 64) (hepoch : BOOT_EPOCH.toNat ≤ 2 ^ 40) :
    ∃ t : DateTime, getDatetime mtime BOOT_EPOCH = .ok (rtcdate t) ∧ t.year < 2 ^ 31 ∧
      t.seconds = mtime.toNat / 10000000 + BOOT_EPOCH.toNat + 7200 := by
  have hmtime := mtime.isLt
  have hsum := toNat_secs mtime hepoch
  have hsecs : (mtime / TIMER_FREQ + BOOT_EPOCH + EGYPT_TZ_OFFSET).toNat < 2 ^ 42 := by omega
  rw [← hsum, getDatetime]
  generalize mtime / TIMER_FREQ + BOOT_EPOCH + EGYPT_TZ_OFFSET = secs at hsecs ⊢
  obtain ⟨year, left, hyear, hsplit, hlt⟩ := yearFrom_split (Split.start yearLength 1970 (secs.toNat / 60 / 60 / 24))
  obtain ⟨month, days, hmonth, hsplit', hle, hlt'⟩ := monthFrom_split hlt (Split.start (monthLength year) 1 left) (by decide)
  refine ⟨⟨year, month, days + 1, secs.toNat / 60 / 60 % 24, secs.toNat / 60 % 60, secs.toNat % 60, hsplit.le, ⟨hsplit'.le, hle⟩,
    ⟨by omega, hlt'⟩, by omega, by omega, by omega⟩, ?_, ?_, ?_⟩
  · change yearFrom 1970 _ = _ at hyear
    change monthFrom _ 1 _ = _ at hmonth
    simp only [int_second, int_minute, int_hour, int_days hsecs, hyear, hmonth]
    rfl
  · have := hsplit.bound yearLength_ge
    change year < 2 ^ 31
    omega
  · have hyears := hsplit.sum
    have hmonths := hsplit'.sum
    simp only [DateTime.seconds, DateTime.days]
    omega

theorem get_datetime_correct_leap : ∃ t : DateTime, getDatetime 0 1709243999 = .ok (rtcdate t) ∧ t.year < 2 ^ 31 ∧
    t.seconds = (0 : BitVec 64).toNat / 10000000 + (1709243999 : BitVec 64).toNat + 7200 :=
  get_datetime_correct 0 1709243999 (by decide)

end Xv6.Sys
