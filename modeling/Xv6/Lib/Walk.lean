import Mathlib.Data.Option.Basic
import Mathlib.Data.List.Basic

/-!
# Walks along names

A graph in which a name leads from a node to at most one other, given by its step function. A list of names leads along a
walk; all of it but its last step leads to the node from which that step is taken.
-/

namespace Walk

variable {N K : Type} (child : N → K → Option N) (inner : N → Bool)

def walk : N → List K → Option N
  | i, [] => some i
  | i, e :: es => (child i e).bind fun j => walk j es

/-- The inner node that the names but the last one lead to, and the last one. -/
def walkParent : N → List K → Option (N × K)
  | _, [] => none
  | i, [e] => if inner i then some (i, e) else none
  | i, e :: e' :: es => (child i e).bind fun j => walkParent j (e' :: es)

variable {child inner} {i j d : N} {e : K} {es : List K}

theorem walk_of_walkParent (h : walkParent child inner i es = some (d, e)) : walk child i es = child d e := by
  induction es generalizing i with
  | nil => cases h
  | cons e1 es ih =>
    cases es with
    | nil =>
      simp only [walkParent] at h
      split at h
      · cases h
        simp only [walk, Option.bind_fun_some]
      · cases h
    | cons e2 es =>
      simp only [walkParent, Option.bind_eq_some_iff] at h
      obtain ⟨j, hj, h⟩ := h
      rw [walk, hj]
      exact ih h

end Walk
