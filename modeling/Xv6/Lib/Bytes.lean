import Mathlib.Algebra.Group.Nat.Defs
import Mathlib.Data.List.Basic

/-!
# Little-endian fields in a fixed-size byte image

`get16`/`get32` read and `put` overwrites a part of an image `Fin n → UInt8`. Numbers are natural numbers;
a stored number is taken modulo the width of its field. What is proved is what a reader of one field needs:
a field reads back what was put there, and putting bytes elsewhere leaves it alone.
-/

namespace Bytes

open List

variable {n : Nat}

def byteAt (b : Fin n → UInt8) (i : Nat) : UInt8 := if h : i < n then b ⟨i, h⟩ else 0

def get16 (b : Fin n → UInt8) (off : Nat) : Nat :=
  (byteAt b off).toNat + 256 * (byteAt b (off + 1)).toNat

def get32 (b : Fin n → UInt8) (off : Nat) : Nat :=
  (byteAt b off).toNat + 256 * (byteAt b (off + 1)).toNat + 65536 * (byteAt b (off + 2)).toNat +
    16777216 * (byteAt b (off + 3)).toNat

def put (b : Fin n → UInt8) (off : Nat) (bs : List UInt8) : Fin n → UInt8 :=
  fun i => if off ≤ i.val then bs.getD (i.val - off) (b i) else b i

def le16 (v : Nat) : List UInt8 := [UInt8.ofNat v, UInt8.ofNat (v / 256)]

def le32 (v : Nat) : List UInt8 :=
  [UInt8.ofNat v, UInt8.ofNat (v / 256), UInt8.ofNat (v / 65536), UInt8.ofNat (v / 16777216)]

def putWords (b : Fin n → UInt8) : Nat → List Nat → Fin n → UInt8
  | _, [] => b
  | off, w :: ws => putWords (put b off (le32 w)) (off + 4) ws

@[simp] theorem length_le16 (v : Nat) : (le16 v).length = 2 := rfl
@[simp] theorem length_le32 (v : Nat) : (le32 v).length = 4 := rfl

theorem put_nil (b : Fin n → UInt8) (off : Nat) : put b off [] = b := by
  funext i
  simp [put]

variable {off i : Nat} {bs : List UInt8} {ws : List (Nat × List UInt8)}

section
variable (b : Fin n → UInt8)
include b

theorem byteAt_put_in (hi : i < n) (h1 : off ≤ i)
    (h2 : i < off + bs.length) : byteAt (put b off bs) i = bs.getD (i - off) 0 := by
  have h3 : i - off < bs.length := by omega
  simp [byteAt, put, hi, h1, getElem?_eq_getElem h3]

theorem byteAt_put_out
    (h : i < off ∨ off + bs.length ≤ i) : byteAt (put b off bs) i = byteAt b i := by
  unfold byteAt put
  by_cases hi : i < n
  · by_cases h1 : off ≤ i
    · have h3 : bs.length ≤ i - off := by omega
      simp [h1, getElem?_eq_none h3]
    · simp [h1]
  · simp [hi]

theorem get32_put_out
    (h : i + 4 ≤ off ∨ off + bs.length ≤ i) : get32 (put b off bs) i = get32 b i := by
  unfold get32
  rw [byteAt_put_out b (by omega), byteAt_put_out b (by omega), byteAt_put_out b (by omega),
    byteAt_put_out b (by omega)]

theorem get16_put_out
    (h : i + 2 ≤ off ∨ off + bs.length ≤ i) : get16 (put b off bs) i = get16 b i := by
  unfold get16
  rw [byteAt_put_out b (by omega), byteAt_put_out b (by omega)]

theorem get32_put_self (v : Nat) (h : off + 4 ≤ n) :
    get32 (put b off (le32 v)) off = v % 2 ^ 32 := by
  have e : ∀ k, k < 4 → byteAt (put b off (le32 v)) (off + k) = (le32 v).getD k 0 := by
    intro k hk
    rw [byteAt_put_in b (by omega) (by omega) (by simp; omega)]
    congr 1; omega
  have e0 := e 0 (by omega)
  rw [Nat.add_zero] at e0
  unfold get32
  rw [e0, e 1 (by omega), e 2 (by omega), e 3 (by omega)]
  simp [le32]
  omega

theorem get16_put_self (v : Nat) (h : off + 2 ≤ n) :
    get16 (put b off (le16 v)) off = v % 2 ^ 16 := by
  have e : ∀ k, k < 2 → byteAt (put b off (le16 v)) (off + k) = (le16 v).getD k 0 := by
    intro k hk
    rw [byteAt_put_in b (by omega) (by omega) (by simp; omega)]
    congr 1; omega
  have e0 := e 0 (by omega)
  rw [Nat.add_zero] at e0
  unfold get16
  rw [e0, e 1 (by omega)]
  simp [le16]
  omega

end

theorem get16_putWords_out : ∀ {ws : List Nat} {b : Fin n → UInt8} {off : Nat},
    i + 2 ≤ off ∨ off + 4 * ws.length ≤ i → get16 (putWords b off ws) i = get16 b i
  | [], _, _, _ => rfl
  | w :: ws, b, off, h => by
    simp only [length_cons] at h
    rw [putWords, get16_putWords_out (by omega), get16_put_out _ (by simp; omega)]

theorem get32_putWords_out : ∀ {ws : List Nat} {b : Fin n → UInt8} {off : Nat},
    i + 4 ≤ off ∨ off + 4 * ws.length ≤ i → get32 (putWords b off ws) i = get32 b i
  | [], _, _, _ => rfl
  | w :: ws, b, off, h => by
    simp only [length_cons] at h
    rw [putWords, get32_putWords_out (by omega), get32_put_out _ (by simp; omega)]

theorem get32_putWords : ∀ {ws : List Nat} {b : Fin n → UInt8} {off j : Nat} (hj : j < ws.length),
    off + 4 * ws.length ≤ n → get32 (putWords b off ws) (off + 4 * j) = ws[j] % 2 ^ 32
  | [], _, _, _, hj, _ => by simp at hj
  | w :: ws, b, off, 0, _, hn => by
    have e : off + 4 * 0 = off := by omega
    rw [putWords, e, get32_putWords_out (by omega), get32_put_self _ _ (by omega)]
    rfl
  | w :: ws, b, off, j + 1, hj, hn => by
    simp only [length_cons] at hj hn
    have e : off + 4 * (j + 1) = off + 4 + 4 * j := by omega
    rw [putWords, e, get32_putWords (by omega) (by omega)]
    rfl

/-! ## Images that are filled in piece by piece -/

/-- Store each piece at its offset, the first one first. -/
def fill (b : Fin n → UInt8) : List (Nat × List UInt8) → Fin n → UInt8
  | [] => b
  | w :: ws => fill (put b w.1 w.2) ws

/-- Some piece covers byte `i`. -/
def Assigned (ws : List (Nat × List UInt8)) (i : Nat) : Prop := ∃ w ∈ ws, w.1 ≤ i ∧ i < w.1 + w.2.length

theorem put_of_mem {b : Fin n → UInt8} {i : Fin n} (h : off ≤ i ∧ i < off + bs.length)
    (b' : Fin n → UInt8) : put b off bs i = put b' off bs i := by
  have hlt : i.val - off < bs.length := by omega
  simp [put, h.1, hlt]

theorem put_of_not_mem {b : Fin n → UInt8} {i : Fin n} (h : ¬(off ≤ i ∧ i < off + bs.length)) :
    put b off bs i = b i := by
  unfold put
  split
  · rw [getD_eq_getElem?_getD, getElem?_eq_none (by omega), Option.getD_none]
  · rfl

theorem fill_of_not_assigned {i : Fin n} (h : ¬Assigned ws i) (b : Fin n → UInt8) :
    fill b ws i = b i := by
  induction ws generalizing b with
  | nil => rfl
  | cons w ws ih =>
    have hw : ¬(w.1 ≤ i ∧ i < w.1 + w.2.length) := fun hw => h ⟨w, mem_cons_self, hw⟩
    have hws : ¬Assigned ws i := fun ⟨v, hv, hi⟩ => h ⟨v, mem_cons_of_mem w hv, hi⟩
    exact (ih hws _).trans (put_of_not_mem hw)

theorem fill_congr {i : Fin n} {b b' : Fin n → UInt8} (h : b i = b' i) :
    fill b ws i = fill b' ws i := by
  induction ws generalizing b b' with
  | nil => exact h
  | cons w ws ih =>
    by_cases hw : w.1 ≤ i ∧ i < w.1 + w.2.length
    · exact ih (put_of_mem hw b')
    · exact ih ((put_of_not_mem hw).trans (h.trans (put_of_not_mem hw).symm))

theorem fill_of_assigned {i : Fin n} (h : Assigned ws i) (b b' : Fin n → UInt8) :
    fill b ws i = fill b' ws i := by
  induction ws generalizing b b' with
  | nil => obtain ⟨w, hw, -⟩ := h; cases hw
  | cons w ws ih =>
    by_cases hw : w.1 ≤ i ∧ i < w.1 + w.2.length
    · rw [fill, fill]
      exact fill_congr (put_of_mem hw b')
    · obtain ⟨v, hv, hi⟩ := h
      rcases mem_cons.1 hv with rfl | hv
      · exact absurd hi hw
      · exact ih ⟨v, hv, hi⟩ _ _

end Bytes
