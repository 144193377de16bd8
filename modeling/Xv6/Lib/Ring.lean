import Mathlib.Data.BitVec
import Mathlib.Data.List.Basic
import Mathlib.Logic.Function.Basic
import Mathlib.Tactic.Abel

/-!
# Ring buffers with wrapping counters

A ring of `N` cells is addressed by counters of `w` bits that go up without regard to the end of the ring: the cell of the counter
`i` is `i % N`. The producer's counter runs ahead of the consumer's by the number of cells in use. If `N` divides `2 ^ w`, counters
that follow each other address cells that follow each other, across the wrap of the counter as well.

`gap i j` is how far `j` is ahead of `i`, and `between N buf i j` lists the cells from `i` up to but not including `j`.
-/

namespace Ring

open BitVec Nat

variable {α : Type*} {w N : Nat} {i j k : BitVec w}

/-- The cell of a counter. -/
def slot (N : Nat) (i : BitVec w) : Nat := i.toNat % N

/-- How far `j` is ahead of `i`. -/
def gap (i j : BitVec w) : Nat := (j - i).toNat

/-- `n` cells from the counter `i` on. -/
def window (N : Nat) (buf : Nat → α) : BitVec w → Nat → List α
  | _, 0 => []
  | i, n + 1 => buf (slot N i) :: window N buf (i + 1) n

/-- The cells from `i` up to `j`. -/
def between (N : Nat) (buf : Nat → α) (i j : BitVec w) : List α := window N buf i (gap i j)

/-! ## Counters -/

theorem gap_lt (i j : BitVec w) : gap i j < 2 ^ w := (j - i).isLt

@[simp] theorem gap_self (i : BitVec w) : gap i i = 0 := by simp [gap]

theorem gap_eq_zero : gap i j = 0 ↔ i = j := by
  constructor
  · intro h
    have hz : j - i = 0 := eq_of_toNat_eq (by simpa [gap] using h)
    exact (sub_eq_zero.1 hz).symm
  · rintro rfl
    exact gap_self i

theorem gap_pos : 0 < gap i j ↔ i ≠ j := by
  rw [Nat.pos_iff_ne_zero, Ne, gap_eq_zero]

theorem add_gap (i j : BitVec w) : i + BitVec.ofNat w (gap i j) = j := by
  rw [gap, BitVec.ofNat_toNat, BitVec.setWidth_eq]
  abel

theorem gap_add_ofNat {n : Nat} (h : n < 2 ^ w) : gap i (i + BitVec.ofNat w n) = n := by
  unfold gap
  rw [add_sub_cancel_left, toNat_ofNat, mod_eq_of_lt h]

theorem gap_add_left {n : Nat} (h : n ≤ gap i j) : gap (i + BitVec.ofNat w n) j = gap i j - n := by
  have e : i + BitVec.ofNat w n + BitVec.ofNat w (gap i j - n) = j := by
    rw [add_assoc, ← ofNat_add, Nat.add_sub_cancel' h, add_gap]
  have hlt := gap_lt i j
  calc gap (i + BitVec.ofNat w n) j
      = gap (i + BitVec.ofNat w n) (i + BitVec.ofNat w n + BitVec.ofNat w (gap i j - n)) := by rw [e]
    _ = gap i j - n := gap_add_ofNat (by omega)

theorem gap_trans (h : gap i j + gap j k < 2 ^ w) : gap i k = gap i j + gap j k := by
  unfold gap at *
  have e : k - i = j - i + (k - j) := by abel
  rw [e, toNat_add, mod_eq_of_lt h]

theorem gap_succ (h : gap i j + 1 < 2 ^ w) : gap i (j + 1) = gap i j + 1 := by
  have h1 : gap j (j + 1) = 1 := by
    unfold gap
    have : 1 < 2 ^ w := by omega
    simp [mod_eq_of_lt this]
  rw [gap_trans (by rwa [h1]), h1]

theorem gap_succ_left (h : i ≠ j) : gap (i + 1) j + 1 = gap i j := by
  have hpos := gap_pos.2 h
  have hlt := gap_lt i j
  have hone : (1 : BitVec w).toNat = 1 := by
    simp [mod_eq_of_lt (show 1 < 2 ^ w by omega)]
  unfold gap at *
  have e : j - (i + 1) = j - i - 1 := by abel
  rw [e, toNat_sub_of_le (by rw [le_def, hone]; omega), hone]
  omega

theorem gap_pred (h : i ≠ j) : gap i (j - 1) + 1 = gap i j := by
  have e : gap i (j - 1) = gap (i + 1) j := by
    unfold gap
    congr 1
    abel
  rw [e, gap_succ_left h]

/-! ## Cells -/

theorem slot_add (hN : N ∣ 2 ^ w) (i : BitVec w) (n : Nat) : slot N (i + BitVec.ofNat w n) = (i.toNat + n) % N := by
  unfold slot
  rw [toNat_add, toNat_ofNat, add_mod_mod, mod_mod_of_dvd _ hN]

theorem slot_ne (hN : N ∣ 2 ^ w) (h : gap i j < N) (hne : i ≠ j) : slot N i ≠ slot N j := by
  have hpos := gap_pos.2 hne
  rw [← add_gap i j, slot_add hN]
  intro he
  have hd : N ∣ gap i j := by
    have := (modEq_iff_dvd' (by omega)).1 he
    rwa [Nat.add_sub_cancel_left] at this
  exact absurd (le_of_dvd hpos hd) (by omega)

section
variable {buf : Nat → α} {c : α} {n m : Nat}

@[simp] theorem length_window (N : Nat) (buf : Nat → α) (i : BitVec w) (n : Nat) : (window N buf i n).length = n := by
  induction n generalizing i with
  | zero => rfl
  | succ n ih => simp [window, ih]

@[simp] theorem length_between (N : Nat) (buf : Nat → α) (i j : BitVec w) : (between N buf i j).length = gap i j :=
  length_window N buf i _

@[simp] theorem between_self : between N buf i i = [] := by simp [between, window]

theorem window_add (N : Nat) (buf : Nat → α) (i : BitVec w) (n m : Nat) :
    window N buf i (n + m) = window N buf i n ++ window N buf (i + BitVec.ofNat w n) m := by
  induction n generalizing i with
  | zero => simp [window]
  | succ n ih =>
    have e : i + BitVec.ofNat w (n + 1) = i + 1 + BitVec.ofNat w n := by
      rw [ofNat_add]
      abel
    rw [succ_add, window, window, ih, e, List.cons_append]

theorem between_append (h : gap i j + gap j k = gap i k) : between N buf i k = between N buf i j ++ between N buf j k := by
  unfold between
  rw [← h, window_add, add_gap]

theorem between_drop (h : n ≤ gap i j) : between N buf (i + BitVec.ofNat w n) j = (between N buf i j).drop n := by
  unfold between
  rw [gap_add_left h]
  conv_rhs => rw [← Nat.add_sub_cancel' h, window_add]
  rw [List.drop_left' (length_window ..)]

theorem between_cons (h : i ≠ j) : between N buf i j = buf (slot N i) :: between N buf (i + 1) j := by
  unfold between
  rw [← gap_succ_left h, window]

theorem between_concat (h : i ≠ j) : between N buf i j = between N buf i (j - 1) ++ [buf (slot N (j - 1))] := by
  unfold between
  rw [← gap_pred h, window_add, add_gap]
  rfl

theorem window_update (hN : N ∣ 2 ^ w) (hn : n ≤ gap i k) (hk : gap i k < N) :
    window N (Function.update buf (slot N k) c) i n = window N buf i n := by
  induction n generalizing i with
  | zero => rfl
  | succ n ih =>
    have hne : i ≠ k := gap_pos.1 (by omega)
    have hgap := gap_succ_left hne
    rw [window, window, Function.update_of_ne (slot_ne hN hk hne), ih (by omega) (by omega)]

theorem between_update (hN : N ∣ 2 ^ w) (hj : gap i j ≤ gap i k) (hk : gap i k < N) :
    between N (Function.update buf (slot N k) c) i j = between N buf i j :=
  window_update hN hj hk

theorem between_push (hN : N ∣ 2 ^ w) (hw : N < 2 ^ w) (hj : gap i j < N) :
    between N (Function.update buf (slot N j) c) i (j + 1) = between N buf i j ++ [c] := by
  have hs : gap i (j + 1) = gap i j + 1 := gap_succ (by omega)
  have hne : i ≠ j + 1 := gap_pos.1 (by omega)
  rw [between_concat hne, add_sub_cancel_right, Function.update_self, between_update hN (le_refl _) hj]

end

end Ring
