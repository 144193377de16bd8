import Mathlib.Data.List.Nodup
import Mathlib.Logic.Function.Basic

/-!
# Circular doubly linked lists

Nodes with `next` and `prev` pointers, as two functions, and a node `head` that stands for the list. `Linked next prev a l b` says that
following `next` from `a` leads through the nodes of `l` to `b`, and following `prev` from `b` leads back. The list of `head` is `l` if
`Linked next prev head l head`.
-/

namespace Links

open Function (update update_self update_of_ne)
open List

variable {ν : Type*} {next prev : ν → ν} {a b c x : ν} {l l1 l2 : List ν}

def Linked (next prev : ν → ν) : ν → List ν → ν → Prop
  | a, [], b => next a = b ∧ prev b = a
  | a, x :: l, b => next a = x ∧ prev x = a ∧ Linked next prev x l b

theorem linked_append : Linked next prev a (l1 ++ x :: l2) b ↔ Linked next prev a l1 x ∧ Linked next prev x l2 b := by
  induction l1 generalizing a with
  | nil => simp [Linked, and_assoc]
  | cons y l1 ih => simp [Linked, ih, and_assoc]

section
variable (h : Linked next prev a l b)
include h

theorem Linked.reverse : Linked prev next b l.reverse a := by
  induction l generalizing a with
  | nil => exact ⟨h.2, h.1⟩
  | cons x l ih =>
    rw [reverse_cons, linked_append]
    exact ⟨ih h.2.2, h.2.1, h.1⟩

theorem Linked.congr {next' prev' : ν → ν} (hn : ∀ y ∈ a :: l, next' y = next y)
    (hp : ∀ y ∈ l ++ [b], prev' y = prev y) : Linked next' prev' a l b := by
  induction l generalizing a with
  | nil => exact ⟨by rw [hn a (by simp), h.1], by rw [hp b (by simp), h.2]⟩
  | cons x l ih =>
    refine ⟨by rw [hn a (by simp), h.1], by rw [hp x (by simp), h.2.1], ih h.2.2 (fun y hy => hn y ?_) fun y hy => hp y ?_⟩
    · exact mem_cons_of_mem a hy
    · exact mem_cons_of_mem x hy

theorem Linked.next_mem : next a ∈ l ++ [b] := by
  cases l with
  | nil | cons x l => simp [h.1]

theorem Linked.prev_mem : prev b ∈ a :: l := by
  have := h.reverse.next_mem
  rw [mem_append, mem_reverse, mem_singleton] at this
  exact mem_cons.2 this.symm

end

variable [DecidableEq ν]

theorem Linked.update_next {v : ν} (h : Linked next prev a l b) (hx : x ∉ a :: l) :
    Linked (update next x v) prev a l b :=
  h.congr (fun _ hy => update_of_ne (ne_of_mem_of_not_mem hy hx) _ _) fun _ _ => rfl

theorem Linked.update_prev {v : ν} (h : Linked next prev a l b) (hx : x ∉ l ++ [b]) :
    Linked next (update prev x v) a l b :=
  h.congr (fun _ _ => rfl) fun _ hy => update_of_ne (ne_of_mem_of_not_mem hy hx) _ _

theorem Linked.unlink (h1 : Linked next prev a l1 x) (h2 : Linked next prev x l2 b) (hn : (a :: l1 ++ x :: l2).Nodup)
    (hp : (l1 ++ x :: l2 ++ [b]).Nodup) :
    Linked (update next (prev x) (next x)) (update prev (next x) (prev x)) a (l1 ++ l2) b := by
  induction l1 generalizing a with
  | nil =>
    rw [h1.2, nil_append]
    cases l2 with
    | nil =>
      rw [h2.1]
      exact ⟨update_self .., update_self ..⟩
    | cons y l2 =>
      rw [h2.1]
      simp only [cons_append, nil_append, nodup_cons, mem_cons, not_or] at hn hp
      refine ⟨update_self .., update_self .., (h2.2.2.update_next ?_).update_prev ?_⟩
      · rw [mem_cons, not_or]
        exact hn.1.2
      · exact hp.2.1
  | cons y l1 ih =>
    simp only [cons_append] at hn hp ⊢
    have hn' := nodup_cons.1 hn
    have hp' := nodup_cons.1 hp
    have hprev : a ≠ prev x := by
      rintro rfl
      exact hn'.1 (mem_append_left (x :: l2) h1.2.2.prev_mem)
    have hnext : y ≠ next x := by
      rintro rfl
      refine hp'.1 ?_
      rw [append_assoc]
      exact mem_append_right _ (mem_cons_of_mem _ h2.next_mem)
    refine ⟨?_, ?_, ih h1.2.2 hn'.2 hp'.2⟩
    · rw [update_of_ne hprev, h1.1]
    · rw [update_of_ne hnext, h1.2.1]

theorem Linked.push (h : Linked next prev a l b) (hx : x ∉ a :: l ++ [b]) (hn : (a :: l).Nodup) (hp : (l ++ [b]).Nodup) :
    Linked (update (update next x (next a)) a x) (update (update prev x a) (next a) x) a (x :: l) b := by
  have hxa : a ≠ x := fun e => hx (by simp [e])
  have hxn : x ≠ next a := fun e => hx (by rw [cons_append]; exact mem_cons_of_mem _ (e ▸ h.next_mem))
  refine ⟨update_self .., ?_, ?_⟩
  · rw [update_of_ne hxn, update_self]
  cases l with
  | nil =>
    refine ⟨?_, ?_⟩
    · rw [update_of_ne hxa.symm, update_self, h.1]
    · rw [← h.1, update_self]
  | cons y l =>
    have hy : next a = y := h.1
    rw [hy]
    refine ⟨?_, update_self .., ?_⟩
    · rw [update_of_ne hxa.symm, update_self]
    simp only [cons_append, mem_cons, not_or] at hx
    have hxl : x ∉ y :: l := by
      rw [mem_cons, not_or]
      exact ⟨hx.2.1, fun hm => hx.2.2 (mem_append_left _ hm)⟩
    exact (((h.2.2.update_next hxl).update_next (nodup_cons.1 hn).1).update_prev hx.2.2).update_prev
      (nodup_cons.1 hp).1

/-! ## Walking the list -/

/-- The nodes from `b` on up to `head`, as long as the fuel lasts. -/
def walk (next : ν → ν) (head : ν) : Nat → ν → List ν
  | 0, _ => []
  | fuel + 1, b => if b = head then [] else b :: walk next head fuel (next b)

theorem Linked.walk (h : Linked next prev a l b) (hb : b ∉ l) {fuel : Nat} (hf : l.length < fuel) :
    walk next b fuel (next a) = l := by
  induction l generalizing a fuel with
  | nil =>
    obtain ⟨fuel, rfl⟩ : ∃ k, fuel = k + 1 := ⟨fuel - 1, by omega⟩
    rw [Links.walk, if_pos h.1]
  | cons x l ih =>
    obtain ⟨fuel, rfl⟩ : ∃ k, fuel = k + 1 := ⟨fuel - 1, by omega⟩
    simp only [mem_cons, not_or, length_cons] at hb hf
    rw [Links.walk, h.1, if_neg (Ne.symm hb.1), ih h.2.2 hb.2 (by omega)]

end Links
