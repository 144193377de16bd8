import Xv6.Malloc.Heap

/-!
# Large requests

The size of a request crosses three widths: it is rounded up in 64 bits, kept in a `uint`, and `morecore` passes sixteen times that number
to `sbrk` as an `int`. From 2^31 - 31 bytes on that `int` is no longer the number: it is negative or 0, and for the last fifteen
values of a `uint` it is 16, for a block whose header says 2^28 + 1 units.
-/

namespace Xv6.Malloc

open Function (update)
open Links Pieces List Nat

def Honest (nbytes : Nat) (s : State) : Except State (Nat × State) → Prop
  | .ok r => OnlyGrows s r.2 ∧ (r.1 ≠ 0 → ∀ x, r.1 ≤ x → x < r.1 + nbytes → x ∈ obtained r.2.log)
  | .error s' => OnlyGrows s s'

section
variable {env : Env} {base nbytes nunits limit : Nat} {s : State} {live : List (Nat × Nat)} {fl : List Block}

/-! ## The calls that have been made -/

end

/-! ## All requests -/

theorem Honest.congr {nbytes : Nat} {s s' : State} {r : Except State (Nat × State)} (hlog : s'.log = s.log) (h : Honest nbytes s' r) :
    Honest nbytes s r := by
  have hgrows : ∀ t, OnlyGrows s' t → OnlyGrows s t := fun t ⟨new, hnew, hpos⟩ => ⟨new, hlog ▸ hnew, hpos⟩
  cases r with
  | ok r => exact ⟨hgrows _ h.1, h.2⟩
  | error t => exact hgrows t h

end Xv6.Malloc
