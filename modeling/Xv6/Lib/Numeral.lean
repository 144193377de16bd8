import Mathlib.Data.Nat.Digits.Lemmas

/-!
# Numerals

The numeral of a number in a base: its digits without leading zeros, a single 0 for 0, and a sign before the numeral of the absolute value
of a negative number.
-/

namespace Numeral

open List Nat

/-- The digits, the last one first. -/
def digits (b n : Nat) : List Nat := if n = 0 then [0] else Nat.digits b n

section
variable {α : Type} (symbol : Nat → α)

def numeral (b n : Nat) : List α := ((digits b n).map symbol).reverse

def signed (minus : α) (b : Nat) (i : Int) : List α :=
  if i < 0 then minus :: numeral symbol b i.natAbs else numeral symbol b i.natAbs

end

section
variable {b : Nat} (hb : 1 < b)
include hb

theorem digits_eq (n : Nat) : digits b n = n % b :: if n / b = 0 then [] else digits b (n / b) := by
  by_cases hn : n = 0
  · subst hn
    simp [digits]
  · rw [digits, if_neg hn, digits_def' hb (by omega)]
    split
    case isTrue h => rw [h, digits_zero]
    case isFalse h => rw [digits, if_neg h]

theorem length_digits_le_iff (n : Nat) {k : Nat} (hk : 0 < k) : (digits b n).length ≤ k ↔ n < b ^ k := by
  rw [digits]
  split
  case isTrue hn =>
    subst hn
    exact iff_of_true hk (Nat.pow_pos (by omega))
  case isFalse hn => exact digits_length_le_iff hb n

theorem length_numeral_le_iff {α : Type} (symbol : Nat → α) (n : Nat) {k : Nat} (hk : 0 < k) :
    (numeral symbol b n).length ≤ k ↔ n < b ^ k := by
  rw [numeral, length_reverse, length_map]
  exact length_digits_le_iff hb n hk

theorem digits_lt {n d : Nat} (h : d ∈ digits b n) : d < b := by
  rw [digits] at h
  split at h
  · rw [mem_singleton.1 h]
    omega
  · exact digits_lt_base hb h

theorem ofDigits_digits (n : Nat) : ofDigits b (digits b n) = n := by
  rw [digits]
  split
  case isTrue hn => simp [hn]
  case isFalse => exact Nat.ofDigits_digits b n

section
variable {α : Type} {symbol : Nat → α} {value : α → Nat} (hvalue : ∀ d < b, value (symbol d) = d)
include hvalue

theorem read_numeral (n : Nat) : ofDigits b ((numeral symbol b n).reverse.map value) = n := by
  have hmap : ((digits b n).map symbol).map value = digits b n := by
    rw [map_map]
    exact (map_congr_left fun d hd => hvalue d (digits_lt hb hd)).trans (map_id _)
  rw [numeral, reverse_reverse, hmap]
  exact ofDigits_digits hb n

theorem numeral_inj {m n : Nat} : numeral symbol b m = numeral symbol b n ↔ m = n := by
  constructor
  · intro h
    rw [← read_numeral hb hvalue m, h, read_numeral hb hvalue n]
  · exact fun h => h ▸ rfl

theorem signed_inj {minus : α} (hminus : ∀ d < b, symbol d ≠ minus) {i j : Int} :
    signed symbol minus b i = signed symbol minus b j ↔ i = j := by
  have hnot (n : Nat) (l : List α) : numeral symbol b n ≠ minus :: l := by
    intro h
    have hmem : minus ∈ numeral symbol b n := h ▸ mem_cons_self
    rw [numeral, mem_reverse, mem_map] at hmem
    obtain ⟨d, hd, hsym⟩ := hmem
    exact hminus d (digits_lt hb hd) hsym
  constructor
  · intro h
    unfold signed at h
    split at h <;> split at h
    · rw [cons.injEq, and_iff_right rfl, numeral_inj hb hvalue] at h
      omega
    · exact absurd h.symm (hnot _ _)
    · exact absurd h (hnot _ _)
    · rw [numeral_inj hb hvalue] at h
      omega
  · exact fun h => h ▸ rfl

end

end

end Numeral
