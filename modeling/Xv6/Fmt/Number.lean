import Xv6.Lib.Numeral

/-!
# Number directives (`kernel/printf.c`, `user/printf.c`)

What the two `printf`s have in common: the nine number directives, the text each of them stands for, and `printint`, which fills a buffer
of 16 bytes from the last digit on and prints it backwards. The kernel's takes a `long long` and the user library's an `int`.
-/

namespace Xv6.Fmt

open Numeral List

def NUL : Char := '\x00'

structure Arg where
  word : BitVec 64
  str : List Char := []

def vaArg : List Arg → Except String (Arg × List Arg)
  | [] => .error "va_arg"
  | a :: args => .ok (a, args)

/-! ## Directives -/

inductive Conv where
  | d | u | x
  deriving DecidableEq

inductive Size where
  | int | l | ll
  deriving DecidableEq

structure Directive where
  size : Size
  conv : Conv
  deriving DecidableEq

def Conv.char : Conv → Char
  | .d => 'd'
  | .u => 'u'
  | .x => 'x'

def Conv.base : Conv → Nat
  | .d | .u => 10
  | .x => 16

def Directive.format (dir : Directive) : List Char :=
  match dir.size with
  | .int => ['%', dir.conv.char]
  | .l => ['%', 'l', dir.conv.char]
  | .ll => ['%', 'l', 'l', dir.conv.char]

/-- The bits of the argument. -/
def Size.width : Size → Nat
  | .int => 32
  | .l | .ll => 64

def Directive.text (symbol : Nat → Char) (dir : Directive) (word : BitVec 64) : List Char :=
  match dir.conv with
  | .d => signed symbol '-' 10 (word.setWidth dir.size.width).toInt
  | .u => numeral symbol 10 (word.setWidth dir.size.width).toNat
  | .x => numeral symbol 16 (word.setWidth dir.size.width).toNat

def number (c0 c1 c2 : Char) : Option (Directive × Nat) :=
  if c0 = 'd' then some (⟨.int, .d⟩, 0)
  else if c0 = 'l' ∧ c1 = 'd' then some (⟨.l, .d⟩, 1)
  else if c0 = 'l' ∧ c1 = 'l' ∧ c2 = 'd' then some (⟨.ll, .d⟩, 2)
  else if c0 = 'u' then some (⟨.int, .u⟩, 0)
  else if c0 = 'l' ∧ c1 = 'u' then some (⟨.l, .u⟩, 1)
  else if c0 = 'l' ∧ c1 = 'l' ∧ c2 = 'u' then some (⟨.ll, .u⟩, 2)
  else if c0 = 'x' then some (⟨.int, .x⟩, 0)
  else if c0 = 'l' ∧ c1 = 'x' then some (⟨.l, .x⟩, 1)
  else if c0 = 'l' ∧ c1 = 'l' ∧ c2 = 'x' then some (⟨.ll, .x⟩, 2)
  else none

/-! ## `printint` -/

def push (buf : List Char) (c : Char) : Except String (List Char) := if buf.length < 16 then .ok (buf ++ [c]) else .error "buf"

def digitLoop (symbol : Nat → Char) (base : Nat) : Nat → Nat → List Char → Except String (List Char)
  | 0, _, _ => .error "more rounds"
  | fuel + 1, x, buf => do
    let buf ← push buf (symbol (x % base))
    if x / base ≠ 0 then digitLoop symbol base fuel (x / base) buf else return buf

def pushSign (neg : Bool) (buf : List Char) : Except String (List Char) := if neg then push buf '-' else .ok buf

/-- `printint` for a number of `w` bits: what it prints. -/
def printintOf {w : Nat} (symbol : Nat → Char) (xx : BitVec w) (base : Nat) (sign : Bool) : Except String (List Char) := do
  let neg := sign && xx.toInt < 0
  let x := if neg then -xx else xx
  let buf ← digitLoop symbol base w x.toNat []
  let buf ← pushSign neg buf
  return buf.reverse

/-- The text `printint` prints if the buffer is large enough. -/
def fullText {w : Nat} (symbol : Nat → Char) (xx : BitVec w) (base : Nat) (sign : Bool) : List Char :=
  if sign then signed symbol '-' base xx.toInt else numeral symbol base xx.toNat

section
variable {symbol : Nat → Char} {base : Nat}

theorem push_of_lt {buf : List Char} {c : Char} (h : buf.length < 16) : push buf c = .ok (buf ++ [c]) := if_pos h

theorem push_of_ge {buf : List Char} {c : Char} (h : 16 ≤ buf.length) : push buf c = .error "buf" := if_neg (by omega)

theorem digitLoop_eq (hb : 1 < base) {fuel x : Nat} (hfuel : x < 2 ^ fuel) (hpos : 0 < fuel) (buf : List Char) (hbuf : buf.length ≤ 16) :
    digitLoop symbol base fuel x buf =
      if buf.length + (digits base x).length ≤ 16 then .ok (buf ++ (digits base x).map symbol) else .error "buf" := by
  induction fuel generalizing x buf with
  | zero => omega
  | succ fuel ih =>
    rw [digitLoop, digits_eq hb]
    rcases Nat.lt_or_ge buf.length 16 with hlt | hge
    · rw [push_of_lt hlt]
      change (if x / base ≠ 0 then _ else _) = _
      by_cases hx : x / base = 0
      · rw [if_neg (not_not.2 hx), if_pos hx, if_pos (by simpa using hlt)]
        rfl
      have hdiv : x / base < 2 ^ fuel := by
        have : x / base ≤ x / 2 := Nat.div_le_div_left hb (by decide)
        omega
      have hpos' : 0 < fuel := by
        rcases Nat.eq_zero_or_pos fuel with rfl | h
        · exact absurd (Nat.lt_one_iff.1 hdiv) hx
        · exact h
      rw [if_pos hx, if_neg hx, ih hdiv hpos' _ (by simpa using hlt)]
      simp only [length_append, length_cons, length_nil, map_cons, append_assoc, singleton_append]
      congr 1
      exact propext ⟨fun h => by omega, fun h => by omega⟩
    · rw [push_of_ge hge, if_neg (by simp; omega)]
      rfl

theorem printed_eq (hb : 1 < base) {w n : Nat} (hw : 0 < w) (hn : n < 2 ^ w) (neg : Bool) :
    (do
      let buf ← digitLoop symbol base w n []
      let buf ← pushSign neg buf
      return buf.reverse) =
      if ((if neg then ['-'] else []) ++ numeral symbol base n).length ≤ 16 then
        .ok ((if neg then ['-'] else []) ++ numeral symbol base n) else .error "buf" := by
  have hlen : (numeral symbol base n).length = (digits base n).length := by rw [numeral, length_reverse, length_map]
  rw [digitLoop_eq hb hn hw [] (by simp)]
  cases neg with
  | false =>
    simp only [length_nil, Nat.zero_add, nil_append, Bool.false_eq_true, if_false, hlen]
    split <;> rfl
  | true =>
    simp only [length_nil, Nat.zero_add, nil_append, if_true, singleton_append, length_cons, hlen]
    by_cases h : (digits base n).length < 16
    · rw [if_pos (Nat.le_of_lt h), if_pos (show (digits base n).length + 1 ≤ 16 from h)]
      change (do let buf ← push ((digits base n).map symbol) '-'; pure buf.reverse) = _
      rw [push_of_lt (by simpa using h)]
      simp [numeral]
    · rw [if_neg (show ¬(digits base n).length + 1 ≤ 16 from h)]
      split
      · change (do let buf ← push ((digits base n).map symbol) '-'; pure buf.reverse) = _
        rw [push_of_ge (by simpa using h)]
        rfl
      · rfl

theorem toNat_neg_of_neg {w : Nat} {xx : BitVec w} (h : xx.toInt < 0) : (-xx).toNat = xx.toInt.natAbs := by
  rw [BitVec.toInt_eq_toNat_cond] at h ⊢
  rw [BitVec.toNat_neg]
  split at h
  · omega
  · rw [if_neg ‹_›, Nat.mod_eq_of_lt (by omega)]
    omega

theorem natAbs_of_nonneg {w : Nat} {xx : BitVec w} (h : ¬xx.toInt < 0) : xx.toInt.natAbs = xx.toNat := by
  rw [BitVec.toInt_eq_toNat_cond] at h ⊢
  split at h
  · rw [if_pos ‹_›]
    rfl
  · omega

theorem printintOf_eq (hb : 1 < base) {w : Nat} (hw : 0 < w) (xx : BitVec w) (sign : Bool) :
    printintOf symbol xx base sign =
      if (fullText symbol xx base sign).length ≤ 16 then .ok (fullText symbol xx base sign) else .error "buf" := by
  rw [printintOf, printed_eq hb hw (BitVec.isLt _), fullText]
  cases sign with
  | false => simp
  | true =>
    by_cases hneg : xx.toInt < 0
    · simp only [hneg, signed, decide_true, Bool.and_self, if_true, toNat_neg_of_neg hneg, singleton_append]
    · simp [hneg, signed, natAbs_of_nonneg hneg]

theorem printintOf_eq_ok (hb : 1 < base) {w : Nat} (hw : 0 < w) {xx : BitVec w} {sign : Bool} {text : List Char} :
    printintOf symbol xx base sign = .ok text ↔
      (fullText symbol xx base sign).length ≤ 16 ∧ fullText symbol xx base sign = text := by
  rw [printintOf_eq hb hw]
  split
  case isTrue h => simp [h]
  case isFalse h => simp [h]

theorem length_signed_le (i : Int) :
    (signed symbol '-' 10 i).length ≤ 16 ↔ -1000000000000000 < i ∧ i < 10000000000000000 := by
  have h15 := length_numeral_le_iff (b := 10) (by decide) symbol i.natAbs (k := 15) (by decide)
  have h16 := length_numeral_le_iff (b := 10) (by decide) symbol i.natAbs (k := 16) (by decide)
  rw [signed]
  split
  · rw [length_cons]
    omega
  · omega

end

end Xv6.Fmt
