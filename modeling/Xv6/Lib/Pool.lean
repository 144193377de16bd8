import Mathlib.Data.Set.Insert
import Mathlib.Data.List.Dedup
import Mathlib.Logic.Function.Basic

/-!
# A pool and its owners

Items lie in a pool or belong to one of several owners. An owner takes items from the pool and gives items back; `Move` says that
on the way none is lost and none is in two places. `Split` says so of all owners at once.
-/

namespace Pool

open Function (update update_self update_of_ne)
open List

variable {P ι : Type*}

structure Move (F F' : Set P) (free free' : List P) : Prop where
  nodup : free'.Nodup
  fresh : ∀ p ∈ F', p ∉ free'
  same : ∀ p, p ∈ F' ∨ p ∈ free' ↔ p ∈ F ∨ p ∈ free

/-- No item is in two places. -/
structure Split (free : List P) (foot : ι → Set P) : Prop where
  nodup : free.Nodup
  fresh : ∀ i, ∀ p ∈ foot i, p ∉ free
  disjoint : ∀ i j, i ≠ j → ∀ p ∈ foot i, p ∉ foot j

section
variable {F F' F'' G : Set P} {free free' free'' : List P} {p : P}

theorem Move.refl (hnodup : free.Nodup) (hfresh : ∀ p ∈ F, p ∉ free) : Move F F free free := ⟨hnodup, hfresh, fun _ => Iff.rfl⟩

theorem Move.trans (h : Move F F' free free') (h' : Move F' F'' free' free'') : Move F F'' free free'' :=
  ⟨h'.nodup, h'.fresh, fun p => (h'.same p).trans (h.same p)⟩

theorem Move.elsewhere (h : Move F F' free free') (hF : p ∉ F) (hfree : p ∉ free) : p ∉ F' ∧ p ∉ free' := by
  have hno : ¬(p ∈ F' ∨ p ∈ free') := fun hp => ((h.same p).1 hp).elim hF hfree
  exact ⟨fun hp => hno (.inl hp), fun hp => hno (.inr hp)⟩

theorem Move.union (h : Move F F' free free') (hG : ∀ p ∈ G, p ∉ F ∧ p ∉ free) : Move (F ∪ G) (F' ∪ G) free free' := by
  refine ⟨h.nodup, ?_, fun p => ?_⟩
  · rintro p (hp | hp)
    · exact h.fresh p hp
    · exact (h.elsewhere (hG p hp).1 (hG p hp).2).2
  · have hs := h.same p
    simp only [Set.mem_union]
    tauto

theorem Move.take {rest : List P} (hfree : free = p :: rest) (hnodup : free.Nodup) (hfresh : ∀ q ∈ F, q ∉ free) :
    Move F (insert p F) free rest := by
  subst hfree
  refine ⟨(nodup_cons.1 hnodup).2, ?_, fun q => ?_⟩
  · rintro q (rfl | hq)
    · exact (nodup_cons.1 hnodup).1
    · exact fun h => hfresh q hq (mem_cons_of_mem p h)
  · simp only [Set.mem_insert_iff, mem_cons]
    tauto

theorem Move.give (hnodup : free.Nodup) (hfresh : ∀ q ∈ insert p F, q ∉ free) (hp : p ∉ F) : Move (insert p F) F free (p :: free) := by
  refine ⟨nodup_cons.2 ⟨hfresh p (.inl rfl), hnodup⟩, fun q hq => ?_, fun q => ?_⟩
  · rw [mem_cons, not_or]
    exact ⟨fun e => hp (e ▸ hq), hfresh q (.inr hq)⟩
  · simp only [Set.mem_insert_iff, mem_cons]
    tauto

end

section
variable {free free' : List P} {foot : ι → Set P} {F' : Set P} {i : ι}

theorem Split.move [DecidableEq ι] (h : Split free foot) (hm : Move (foot i) F' free free') :
    Split free' (update foot i F') := by
  have hother : ∀ j, j ≠ i → ∀ p ∈ foot j, p ∉ F' ∧ p ∉ free' := fun j hj p hp =>
    hm.elsewhere (h.disjoint j i hj p hp) (h.fresh j p hp)
  refine ⟨hm.nodup, fun j p hp => ?_, fun j k hjk p hp => ?_⟩
  · by_cases hj : j = i
    · subst hj
      rw [update_self] at hp
      exact hm.fresh p hp
    · rw [update_of_ne hj] at hp
      exact (hother j hj p hp).2
  · by_cases hj : j = i
    · subst hj
      rw [update_self] at hp
      rw [update_of_ne hjk.symm]
      exact fun hk => (hother k hjk.symm p hk).1 hp
    · rw [update_of_ne hj] at hp
      by_cases hk : k = i
      · subst hk
        rw [update_self]
        exact (hother j hj p hp).1
      · rw [update_of_ne hk]
        exact h.disjoint j k hjk p hp

theorem Split.move_total [DecidableEq ι] (hm : Move (foot i) F' free free') {p : P} :
    (p ∈ free' ∨ ∃ j, p ∈ update foot i F' j) ↔ (p ∈ free ∨ ∃ j, p ∈ foot j) := by
  have hs := hm.same p
  have hsplit : ∀ f : ι → Set P, (∃ j, p ∈ f j) ↔ p ∈ f i ∨ ∃ j, j ≠ i ∧ p ∈ f j := fun f => by
    constructor
    · rintro ⟨j, hj⟩
      by_cases e : j = i
      · exact .inl (e ▸ hj)
      · exact .inr ⟨j, e, hj⟩
    · rintro (h | ⟨j, -, h⟩)
      · exact ⟨i, h⟩
      · exact ⟨j, h⟩
  have hrest : (∃ j, j ≠ i ∧ p ∈ update foot i F' j) ↔ ∃ j, j ≠ i ∧ p ∈ foot j := by
    refine exists_congr fun j => and_congr_right fun hj => ?_
    rw [update_of_ne hj]
  rw [hsplit, hsplit, hrest, update_self]
  tauto

end

end Pool
