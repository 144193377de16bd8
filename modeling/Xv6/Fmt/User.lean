import Xv6.Fmt.Number

/-!
# The user library's `printf` (`user/printf.c`)

`vprintf` takes the arguments of `%ld`, `%lu` and `%lx` with 64 bits and gives them to a `printint` for an `int`. Where this cuts a
number off, another one is printed. The buffer is large enough for an `int`. What the writes to `fd` return is not looked at.
-/

namespace Xv6.Fmt.User

open Numeral BitVec

/-- `digits` (`printf.c:7`). -/
def symbol (i : Nat) : Char := "0123456789ABCDEF".toList.getD i NUL

/-- `printf.c:16`. -/
def printint (xx : BitVec 32) (base : Nat) (sgn : Bool) : Except String (List Char) := printintOf symbol xx base sgn

def printNumber (dir : Directive) (word : BitVec 64) : Except String (List Char) :=
  printint (word.setWidth 32) dir.conv.base (dir.conv = .d)

/-- `printf.c:42`. -/
def printptr (x : BitVec 64) : List Char := '0' :: 'x' :: (List.range 16).map fun i => symbol ((x <<< (4 * i)) >>> 60).toNat

def vprintfFrom : Bool → Nat → List Char → List Arg → Except String (List Char × List Arg)
  | _, _, [], args => .ok ([], args)
  | percent, skip + 1, _ :: fmt, args => vprintfFrom percent skip fmt args
  | false, 0, c0 :: fmt, args =>
    if c0 = NUL then .ok ([], args)
    else if c0 = '%' then vprintfFrom true 0 fmt args
    else do
      let (out, rest) ← vprintfFrom false 0 fmt args
      return (c0 :: out, rest)
  | true, 0, c0 :: fmt, args =>
    if c0 = NUL then .ok ([], args)
    else
      let c1 := fmt.getD 0 NUL
      let c2 := if c1 ≠ NUL then fmt.getD 1 NUL else NUL
      match number c0 c1 c2 with
      | some (dir, more) => do
        let (a, args) ← vaArg args
        let text ← printNumber dir a.word
        let (out, rest) ← vprintfFrom false more fmt args
        return (text ++ out, rest)
      | none =>
        if c0 = 'p' then do
          let (a, args) ← vaArg args
          let (out, rest) ← vprintfFrom false 0 fmt args
          return (printptr a.word ++ out, rest)
        else if c0 = 's' then do
          let (a, args) ← vaArg args
          let (out, rest) ← vprintfFrom false 0 fmt args
          return ((if a.word = 0 then "(null)".toList else a.str) ++ out, rest)
        else if c0 = '%' then do
          let (out, rest) ← vprintfFrom false 0 fmt args
          return ('%' :: out, rest)
        else do
          let (out, rest) ← vprintfFrom false 0 fmt args
          return ('%' :: c0 :: out, rest)

/-- `printf.c:52`. -/
def vprintf (fmt : List Char) (args : List Arg) : Except String (List Char × List Arg) := vprintfFrom false 0 fmt args

theorem vprintf_directive (dir : Directive) (a : Arg) (fmt : List Char) (args : List Arg) :
    vprintf (dir.format ++ fmt) (a :: args) = (do
      let text ← printNumber dir a.word
      let (out, rest) ← vprintf fmt args
      return (text ++ out, rest)) := by
  obtain ⟨size, conv⟩ := dir
  cases size <;> cases conv <;> rfl

theorem printint_eq (xx : BitVec 32) (conv : Conv) : printint xx conv.base (conv = .d) = .ok (fullText symbol xx conv.base (conv = .d)) := by
  rw [printint, printintOf_eq_ok (by cases conv <;> decide) (by decide), and_iff_left rfl]
  cases conv with
  | d =>
    have hlo := xx.le_toInt
    have hhi := xx.toInt_lt
    change (signed symbol '-' 10 xx.toInt).length ≤ 16
    rw [length_signed_le]
    omega
  | u => exact (length_numeral_le_iff (b := 10) (by decide) symbol xx.toNat (by decide)).2 (by omega)
  | x => exact (length_numeral_le_iff (b := 16) (by decide) symbol xx.toNat (by decide)).2 (by omega)

/-- The arguments that are not cut off. -/
def Fits (dir : Directive) (word : BitVec 64) : Prop :=
  match dir.size, dir.conv with
  | .int, _ => True
  | .l, .d | .ll, .d => -2147483648 ≤ word.toInt ∧ word.toInt < 2147483648
  | .l, .u | .ll, .u | .l, .x | .ll, .x => word.toNat < 4294967296

def value (c : Char) : Nat := "0123456789ABCDEF".toList.idxOf c

theorem value_symbol : ∀ d < 16, value (symbol d) = d := by decide

theorem symbol_ne_minus : ∀ d < 10, symbol d ≠ '-' := by decide

theorem cut_toInt_iff (word : BitVec 64) :
    (word.setWidth 32).toInt = word.toInt ↔ -2147483648 ≤ word.toInt ∧ word.toInt < 2147483648 := by
  have hcut : (word.setWidth 32).toNat = word.toNat % 4294967296 := toNat_setWidth ..
  rw [toInt_eq_toNat_cond, toInt_eq_toNat_cond, hcut]
  omega

theorem cut_toNat_iff (word : BitVec 64) : (word.setWidth 32).toNat = word.toNat ↔ word.toNat < 4294967296 := by
  have hcut : (word.setWidth 32).toNat = word.toNat % 4294967296 := toNat_setWidth ..
  omega

theorem text_iff (dir : Directive) (word : BitVec 64) :
    fullText symbol (word.setWidth 32) dir.conv.base (dir.conv = .d) = dir.text symbol word ↔ Fits dir word := by
  have h10 : ∀ d < 10, value (symbol d) = d := fun d hd => value_symbol d (by omega)
  have hword : word.setWidth 64 = word := setWidth_eq word
  obtain ⟨size, conv⟩ := dir
  cases conv with
  | d =>
    change signed symbol '-' 10 (word.setWidth 32).toInt = signed symbol '-' 10 (word.setWidth size.width).toInt ↔ _
    rw [signed_inj (by decide) h10 symbol_ne_minus]
    cases size with
    | int => exact iff_of_true rfl trivial
    | l | ll => exact hword.symm ▸ cut_toInt_iff word
  | u =>
    change numeral symbol 10 (word.setWidth 32).toNat = numeral symbol 10 (word.setWidth size.width).toNat ↔ _
    rw [numeral_inj (by decide) h10]
    cases size with
    | int => exact iff_of_true rfl trivial
    | l | ll => exact hword.symm ▸ cut_toNat_iff word
  | x =>
    change numeral symbol 16 (word.setWidth 32).toNat = numeral symbol 16 (word.setWidth size.width).toNat ↔ _
    rw [numeral_inj (by decide) value_symbol]
    cases size with
    | int => exact iff_of_true rfl trivial
    | l | ll => exact hword.symm ▸ cut_toNat_iff word

theorem vprintf_number_iff (dir : Directive) (a : Arg) {fmt out : List Char} {args rest : List Arg}
    (hrest : vprintf fmt args = .ok (out, rest)) :
    (∃ text, vprintf (dir.format ++ fmt) (a :: args) = .ok (text ++ out, rest)) ∧
      (vprintf (dir.format ++ fmt) (a :: args) = .ok (dir.text symbol a.word ++ out, rest) ↔ Fits dir a.word) := by
  have hrun : vprintf (dir.format ++ fmt) (a :: args) =
      .ok (fullText symbol (a.word.setWidth 32) dir.conv.base (dir.conv = .d) ++ out, rest) := by
    rw [vprintf_directive, printNumber, printint_eq, hrest]
    rfl
  refine ⟨⟨_, hrun⟩, ?_⟩
  rw [hrun, Except.ok.injEq, Prod.mk.injEq, List.append_left_inj, and_iff_left rfl]
  exact text_iff dir a.word

theorem vprintf_number_iff_min :
    (∃ text, vprintf "%ld".toList [⟨-2147483648, []⟩] = .ok (text ++ [], [])) ∧
      (vprintf "%ld".toList [⟨-2147483648, []⟩] = .ok (Directive.text symbol ⟨.l, .d⟩ (-2147483648) ++ [], []) ↔
        Fits ⟨.l, .d⟩ (-2147483648)) :=
  vprintf_number_iff ⟨.l, .d⟩ ⟨-2147483648, []⟩ rfl

theorem vprintf_number_wrong :
    vprintf "%lu".toList [⟨4294967296, []⟩] = .ok (['0'], []) ∧
      Directive.text symbol ⟨.l, .u⟩ 4294967296 = "4294967296".toList := by
  refine ⟨rfl, ?_⟩
  simp [Directive.text, numeral, digits, symbol, Size.width]

end Xv6.Fmt.User
