import Mathlib.Data.List.Basic
import Mathlib.Logic.Function.Basic

/-!
# How many places of a table point somewhere

`count p f n` is the number of indices below `n` whose entry has `p`. Writing one entry changes it by that entry.
-/

namespace Count

open List

variable {α : Type*} {p : α → Bool} {f g : Nat → α} {n i : Nat} {v : α}

def count (p : α → Bool) (f : Nat → α) (n : Nat) : Nat := (List.range n).countP fun i => p (f i)

theorem count_succ (p : α → Bool) (f : Nat → α) (n : Nat) : count p f (n + 1) = count p f n + if p (f n) then 1 else 0 := by
  simp [count, range_succ, countP_append, countP_cons]

theorem count_congr (h : ∀ i < n, p (f i) = p (g i)) : count p f n = count p g n :=
  countP_congr fun i hi => by rw [h i (mem_range.1 hi)]

theorem count_update (hi : i < n) :
    count p (Function.update f i v) n + (if p (f i) then 1 else 0) = count p f n + if p v then 1 else 0 := by
  induction n with
  | zero => omega
  | succ n ih =>
    rw [count_succ, count_succ]
    rcases Nat.lt_succ_iff_lt_or_eq.1 hi with h | rfl
    · rw [Function.update_of_ne (by omega)]
      omega
    · have e : count p (Function.update f i v) i = count p f i :=
        count_congr fun j hj => by rw [Function.update_of_ne (by omega)]
      rw [e, Function.update_self]
      omega

theorem count_eq_zero : count p f n = 0 ↔ ∀ i < n, p (f i) = false := by
  simp [count, countP_eq_zero]

end Count
