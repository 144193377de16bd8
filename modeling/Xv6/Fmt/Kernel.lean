import Xv6.Fmt.Number

/-!
# The kernel's `printf` (`kernel/printf.c`)

`printf` widens every argument to a `long long` before `printint` sees it, which is wrong for an unsigned `int` of 2^31 and more, and
`printint` has room for 16 characters, where a `long long` has up to 20. The output goes to `consputc`; the lock around it is left out.
-/

namespace Xv6.Fmt.Kernel

open Numeral

/-- `digits` (`printf.c:26`). -/
def symbol (i : Nat) : Char := "0123456789abcdef".toList.getD i NUL

/-- `printf.c:28`. -/
def printint (xx : BitVec 64) (base : Nat) (sign : Bool) : Except String (List Char) := printintOf symbol xx base sign

def printNumber (dir : Directive) (word : BitVec 64) : Except String (List Char) :=
  match dir.size with
  | .int => printint ((word.setWidth 32).signExtend 64) dir.conv.base (dir.conv = .d)
  | .l | .ll => printint word dir.conv.base (dir.conv = .d)

/-- `printf.c:53`: the sixteen hexadecimal digits of `x`. -/
def printptr (x : BitVec 64) : List Char := '0' :: 'x' :: (List.range 16).map fun i => symbol ((x <<< (4 * i)) >>> 60).toNat

def printfFrom : Nat → List Char → List Arg → Except String (List Char × List Arg)
  | _, [], args => .ok ([], args)
  | skip + 1, _ :: fmt, args => printfFrom skip fmt args
  | 0, cx :: fmt, args =>
    if cx = NUL then .ok ([], args)
    else if cx ≠ '%' then do
      let (out, rest) ← printfFrom 0 fmt args
      return (cx :: out, rest)
    else
      let c0 := fmt.getD 0 NUL
      let c1 := if c0 ≠ NUL then fmt.getD 1 NUL else NUL
      let c2 := if c1 ≠ NUL then fmt.getD 2 NUL else NUL
      match number c0 c1 c2 with
      | some (dir, more) => do
        let (a, args) ← vaArg args
        let text ← printNumber dir a.word
        let (out, rest) ← printfFrom (more + 1) fmt args
        return (text ++ out, rest)
      | none =>
        if c0 = 'p' then do
          let (a, args) ← vaArg args
          let (out, rest) ← printfFrom 1 fmt args
          return (printptr a.word ++ out, rest)
        else if c0 = 's' then do
          let (a, args) ← vaArg args
          let (out, rest) ← printfFrom 1 fmt args
          return ((if a.word = 0 then "(null)".toList else a.str) ++ out, rest)
        else if c0 = '%' then do
          let (out, rest) ← printfFrom 1 fmt args
          return ('%' :: out, rest)
        else if c0 = NUL then .ok ([], args)
        else do
          let (out, rest) ← printfFrom 1 fmt args
          return ('%' :: c0 :: out, rest)

/-- `printf.c:64`. -/
def printf (fmt : List Char) (args : List Arg) : Except String (List Char × List Arg) := printfFrom 0 fmt args

theorem printf_directive (dir : Directive) (a : Arg) (fmt : List Char) (args : List Arg) :
    printf (dir.format ++ fmt) (a :: args) = (do
      let text ← printNumber dir a.word
      let (out, rest) ← printf fmt args
      return (text ++ out, rest)) := by
  obtain ⟨size, conv⟩ := dir
  cases size <;> cases conv <;> rfl

/-- The arguments that are printed as they should be. -/
def Fits (dir : Directive) (word : BitVec 64) : Prop :=
  match dir.size, dir.conv with
  | .int, .d => True
  | .int, .u | .int, .x => (word.setWidth 32).toNat < 2147483648
  | .l, .d | .ll, .d => -1000000000000000 < word.toInt ∧ word.toInt < 10000000000000000
  | .l, .u | .ll, .u => word.toNat < 10000000000000000
  | .l, .x | .ll, .x => True

theorem printint_eq_ok {xx : BitVec 64} {conv : Conv} {sign : Bool} {text : List Char} :
    printint xx conv.base sign = .ok text ↔
      (fullText symbol xx conv.base sign).length ≤ 16 ∧ fullText symbol xx conv.base sign = text :=
  printintOf_eq_ok (by cases conv <;> decide) (by decide)

theorem long_iff (conv : Conv) (word : BitVec 64) :
    printint word conv.base (conv = .d) = .ok (Directive.text symbol ⟨.l, conv⟩ word) ↔ Fits ⟨.l, conv⟩ word := by
  have hfull : fullText symbol word conv.base (conv = .d) = Directive.text symbol ⟨.l, conv⟩ word := by
    cases conv <;> simp [fullText, Directive.text, Conv.base, Size.width]
  rw [printint_eq_ok, and_iff_left hfull]
  cases conv with
  | d => exact length_signed_le word.toInt
  | u => exact length_numeral_le_iff (by decide) symbol word.toNat (by decide)
  | x => exact iff_of_true ((length_numeral_le_iff (by decide) symbol word.toNat (by decide)).2 word.isLt) trivial

theorem toNat_widened (x : BitVec 32) :
    (x.signExtend 64).toNat = if x.toNat < 2147483648 then x.toNat else x.toNat + 18446744069414584320 := by
  rw [BitVec.toNat_signExtend, BitVec.toNat_setWidth, Nat.mod_eq_of_lt (by omega), BitVec.msb_eq_decide]
  by_cases h : x.toNat < 2147483648
  · rw [if_pos h, if_neg (by simpa using h)]
    rfl
  · rw [if_neg h, if_pos (by simpa using h)]

theorem int_iff (conv : Conv) (word : BitVec 64) :
    printint ((word.setWidth 32).signExtend 64) conv.base (conv = .d) = .ok (Directive.text symbol ⟨.int, conv⟩ word) ↔
      Fits ⟨.int, conv⟩ word := by
  rw [printint_eq_ok]
  have hlt := (word.setWidth 32).isLt
  cases conv with
  | d =>
    have hint : ((word.setWidth 32).signExtend 64).toInt = (word.setWidth 32).toInt := BitVec.toInt_signExtend_of_le (by decide)
    have hlo := (word.setWidth 32).le_toInt
    have hhi := (word.setWidth 32).toInt_lt
    refine iff_of_true ⟨?_, ?_⟩ trivial
    · change (signed symbol '-' 10 ((word.setWidth 32).signExtend 64).toInt).length ≤ 16
      rw [hint, length_signed_le]
      omega
    · change signed symbol '-' 10 ((word.setWidth 32).signExtend 64).toInt = signed symbol '-' 10 (word.setWidth 32).toInt
      rw [hint]
  | u =>
    change (numeral symbol 10 _).length ≤ 16 ∧ numeral symbol 10 _ = numeral symbol 10 (word.setWidth 32).toNat ↔
      (word.setWidth 32).toNat < 2147483648
    rw [toNat_widened, length_numeral_le_iff (by decide) symbol _ (by decide)]
    split
    case isTrue h => exact iff_of_true ⟨by omega, rfl⟩ h
    case isFalse h => exact iff_of_false (fun hp => absurd hp.1 (by omega)) h
  | x =>
    change (numeral symbol 16 _).length ≤ 16 ∧ numeral symbol 16 _ = numeral symbol 16 (word.setWidth 32).toNat ↔
      (word.setWidth 32).toNat < 2147483648
    rw [toNat_widened, length_numeral_le_iff (by decide) symbol _ (by decide)]
    split
    case isTrue h => exact iff_of_true ⟨by omega, rfl⟩ h
    case isFalse h =>
      -- Both texts fit, and the one printed has sixteen digits.
      refine iff_of_false (fun hp => ?_) h
      have hshort := (length_numeral_le_iff (b := 16) (k := 8) (by decide) symbol (word.setWidth 32).toNat (by decide)).2 hlt
      rw [← hp.2, length_numeral_le_iff (by decide) symbol _ (by decide)] at hshort
      omega

theorem printNumber_iff (dir : Directive) (word : BitVec 64) :
    printNumber dir word = .ok (dir.text symbol word) ↔ Fits dir word := by
  obtain ⟨size, conv⟩ := dir
  cases size with
  | int => exact int_iff conv word
  | l => exact long_iff conv word
  | ll => cases conv <;> exact long_iff _ word

theorem printf_number_iff (dir : Directive) (a : Arg) {fmt out : List Char} {args rest : List Arg}
    (hrest : printf fmt args = .ok (out, rest)) :
    printf (dir.format ++ fmt) (a :: args) = .ok (dir.text symbol a.word ++ out, rest) ↔ Fits dir a.word := by
  rw [printf_directive, ← printNumber_iff, hrest]
  cases hp : printNumber dir a.word with
  | error e => exact iff_of_false (fun h => by cases h) (fun h => by cases h)
  | ok text =>
    change Except.ok (text ++ out, rest) = _ ↔ _
    rw [Except.ok.injEq, Except.ok.injEq, Prod.mk.injEq, List.append_left_inj, and_iff_left rfl]

theorem printf_number_iff_max :
    printf "%ld".toList [⟨9223372036854775807, []⟩] =
      .ok (Directive.text symbol ⟨.l, .d⟩ 9223372036854775807 ++ [], []) ↔ Fits ⟨.l, .d⟩ 9223372036854775807 :=
  printf_number_iff ⟨.l, .d⟩ ⟨9223372036854775807, []⟩ rfl

theorem printf_number_wrong :
    printf "%lu".toList [⟨10000000000000000, []⟩] = .error "buf" ∧
      printf "%x".toList [⟨2147483648, []⟩] = .ok ("ffffffff80000000".toList, []) ∧
      Directive.text symbol ⟨.int, .x⟩ 2147483648 = "80000000".toList := by
  refine ⟨rfl, rfl, ?_⟩
  simp [Directive.text, numeral, digits, symbol, Size.width]

end Xv6.Fmt.Kernel
