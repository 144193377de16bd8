import Mathlib.Data.List.Nodup
import Mathlib.Data.Nat.Find
import Mathlib.Logic.Function.Iterate

/-!
# Circular singly linked lists

`Chain next a l z` says that following `next` from `a` leads through the nodes of `l` to `z`. A node `a` with the nodes of `l` is a
circular list if `Chain next a l a`; whoever follows `next` from any node of it comes to every other.
-/

namespace Links

open List

variable {ν : Type*} {next : ν → ν} {a x y z : ν} {l l1 l2 : List ν}

def Chain (next : ν → ν) : ν → List ν → ν → Prop
  | a, [], z => next a = z
  | a, x :: l, z => next a = x ∧ Chain next x l z

theorem chain_append : Chain next a (l1 ++ x :: l2) z ↔ Chain next a l1 x ∧ Chain next x l2 z := by
  induction l1 generalizing a with
  | nil => exact Iff.rfl
  | cons y l1 ih => simp [Chain, ih, and_assoc]

section
variable (h : Chain next a l z)
include h

theorem Chain.congr {next' : ν → ν} (hn : ∀ y ∈ a :: l, next' y = next y) : Chain next' a l z := by
  induction l generalizing a with
  | nil => exact (hn a mem_cons_self).trans h
  | cons x l ih => exact ⟨(hn a mem_cons_self).trans h.1, ih h.2 fun y hy => hn y (mem_cons_of_mem a hy)⟩

theorem Chain.next_mem (hy : y ∈ a :: l) : next y ∈ l ++ [z] := by
  induction l generalizing a with
  | nil =>
    rw [mem_singleton.1 hy, h]
    exact mem_singleton_self z
  | cons x l ih =>
    rcases mem_cons.1 hy with rfl | hy
    · rw [h.1]
      exact mem_cons_self
    · exact mem_cons_of_mem x (ih h.2 hy)

theorem Chain.next_last : next (l.getLastD a) = z := by
  induction l generalizing a with
  | nil => exact h
  | cons x l ih =>
    rw [getLastD_cons]
    exact ih h.2

theorem Chain.iterate_to (hy : y ∈ a :: l) : ∃ n, next^[n] a = y := by
  induction l generalizing a with
  | nil => exact ⟨0, (mem_singleton.1 hy).symm⟩
  | cons x l ih =>
    rcases mem_cons.1 hy with rfl | hy
    · exact ⟨0, rfl⟩
    · obtain ⟨n, hn⟩ := ih h.2 hy
      exact ⟨n + 1, by rw [Function.iterate_succ_apply, h.1, hn]⟩

theorem Chain.iterate_from (hx : x ∈ a :: l) : ∃ n, next^[n] x = z := by
  induction l generalizing a x with
  | nil =>
    rw [mem_singleton.1 hx]
    exact ⟨1, h⟩
  | cons w l ih =>
    rcases mem_cons.1 hx with rfl | hx
    · obtain ⟨n, hn⟩ := ih h.2 mem_cons_self
      exact ⟨n + 1, by rw [Function.iterate_succ_apply, h.1, hn]⟩
    · exact ih h.2 hx

end

/-! ## Circular lists -/

theorem Chain.ring_next (h : Chain next a l a) (hx : x ∈ a :: l) : next x ∈ a :: l := by
  have := h.next_mem hx
  rw [mem_append, mem_singleton] at this
  exact mem_cons.2 this.symm

theorem Chain.ring_iterate (h : Chain next a l a) (hx : x ∈ a :: l) (n : Nat) : next^[n] x ∈ a :: l := by
  induction n generalizing x with
  | zero => exact hx
  | succ n ih =>
    exact ih (h.ring_next hx)

theorem Chain.ring_reaches (h : Chain next a l a) (hx : x ∈ a :: l) (hy : y ∈ a :: l) : ∃ n, next^[n] x = y := by
  obtain ⟨n, hn⟩ := h.iterate_from hx
  obtain ⟨m, hm⟩ := h.iterate_to hy
  exact ⟨m + n, by rw [Function.iterate_add_apply, hn, hm]⟩

theorem Chain.ring_first (h : Chain next a l a) (hx : x ∈ a :: l) {P : ν → Prop} (hP : ∃ y ∈ a :: l, P y) :
    ∃ n, next^[n] x ∈ a :: l ∧ P (next^[n] x) ∧ ∀ m < n, ¬P (next^[m] x) := by
  classical
  obtain ⟨y, hy, hPy⟩ := hP
  have hex : ∃ n, P (next^[n] x) := by
    obtain ⟨n, hn⟩ := h.ring_reaches hx hy
    exact ⟨n, hn ▸ hPy⟩
  exact ⟨Nat.find hex, h.ring_iterate hx _, Nat.find_spec hex, fun m hm => Nat.find_min hex hm⟩

/-! ## Changing pointers -/

variable [DecidableEq ν]

theorem Chain.update_of_notMem {v : ν} (h : Chain next a l z) (hx : x ∉ a :: l) : Chain (Function.update next x v) a l z :=
  h.congr fun _ hy => Function.update_of_ne (ne_of_mem_of_not_mem hy hx) _ _

theorem Chain.remove (h : Chain next a (l1 ++ x :: l2) z) (hn : (a :: (l1 ++ x :: l2)).Nodup) (hz : z ≠ x) (hy : y ∈ a :: (l1 ++ x :: l2))
    (hyx : next y = x) : Chain (Function.update next y (next x)) a (l1 ++ l2) z := by
  induction l1 generalizing a with
  | nil =>
    -- a later node points behind `x`
    have hya : y = a := by
      refine (mem_cons.1 hy).resolve_right fun hy => ?_
      have := h.2.next_mem hy
      rw [hyx, mem_append, mem_singleton] at this
      exact this.elim (nodup_cons.1 (nodup_cons.1 hn).2).1 (Ne.symm hz)
    subst hya
    cases l2 with
    | nil => exact (Function.update_self ..).trans h.2
    | cons w l2 =>
      refine ⟨(Function.update_self ..).trans h.2.1, h.2.2.update_of_notMem fun hm => (nodup_cons.1 hn).1 ?_⟩
      exact mem_cons_of_mem x hm
  | cons w l1 ih =>
    have hn' := nodup_cons.1 hn
    have hwx : w ≠ x := by
      rintro rfl
      exact (nodup_cons.1 hn'.2).1 (by simp)
    have hya : y ≠ a := by
      rintro rfl
      exact hwx (h.1.symm.trans hyx)
    exact ⟨(Function.update_of_ne hya.symm ..).trans h.1, ih h.2 hn'.2 ((mem_cons.1 hy).resolve_left hya)⟩

end Links
