import Mathlib

/-!
# Sets cut into pieces

A set is tiled by a list of pieces if the pieces are disjoint and together are the set. Pieces may be put in another order, two may be
joined and one may be cut, and a new piece may be added with what it covers.
-/

namespace Pieces

open List

variable {α β : Type*}

/-- The pieces of `bs`, which cover `f b` each, are disjoint and cover `S`. -/
structure Tiles (f : β → Set α) (bs : List β) (S : Set α) : Prop where
  disjoint : bs.Pairwise fun a b => Disjoint (f a) (f b)
  cover : ∀ x, x ∈ S ↔ ∃ b ∈ bs, x ∈ f b

variable {f : β → Set α} {bs bs' : List β} {S : Set α} {a b c : β}

theorem tiles_nil : Tiles f [] ∅ := ⟨.nil, fun x => ⟨fun h => h.elim, fun ⟨_, h, _⟩ => by cases h⟩⟩

theorem Tiles.perm (h : Tiles f bs S) (hp : bs.Perm bs') : Tiles f bs' S where
  disjoint := (hp.pairwise_iff fun h => Disjoint.symm h).1 h.disjoint
  cover x := by
    rw [h.cover]
    exact ⟨fun ⟨b, hb, hx⟩ => ⟨b, hp.subset hb, hx⟩, fun ⟨b, hb, hx⟩ => ⟨b, hp.symm.subset hb, hx⟩⟩

theorem Tiles.add (h : Tiles f bs S) (hb : Disjoint (f b) S) : Tiles f (b :: bs) (f b ∪ S) where
  disjoint := pairwise_cons.2
    ⟨fun c hc => hb.mono_right fun x hx => (h.cover x).2 ⟨c, hc, hx⟩, h.disjoint⟩
  cover x := by
    rw [Set.mem_union, h.cover, exists_mem_cons_iff]

theorem tiles_join (hc : f c = f a ∪ f b) (hab : Disjoint (f a) (f b)) : Tiles f (c :: bs) S ↔ Tiles f (a :: b :: bs) S := by
  have hcover : (∀ x, x ∈ S ↔ ∃ d ∈ c :: bs, x ∈ f d) ↔ ∀ x, x ∈ S ↔ ∃ d ∈ a :: b :: bs, x ∈ f d := by
    refine forall_congr' fun x => ?_
    rw [exists_mem_cons_iff, exists_mem_cons_iff, exists_mem_cons_iff, hc, Set.mem_union, or_assoc]
  constructor
  · intro h
    obtain ⟨hcs, hbs⟩ := pairwise_cons.1 h.disjoint
    refine ⟨pairwise_cons.2 ⟨?_, pairwise_cons.2 ⟨fun d hd => ?_, hbs⟩⟩, hcover.1 h.cover⟩
    · intro d hd
      rcases mem_cons.1 hd with rfl | hd
      · exact hab
      · exact (hcs d hd).mono_left (hc ▸ Set.subset_union_left)
    · exact (hcs d hd).mono_left (hc ▸ Set.subset_union_right)
  · intro h
    obtain ⟨ha, h'⟩ := pairwise_cons.1 h.disjoint
    obtain ⟨hb, hbs⟩ := pairwise_cons.1 h'
    refine ⟨pairwise_cons.2 ⟨fun d hd => ?_, hbs⟩, hcover.2 h.cover⟩
    rw [hc]
    exact Set.disjoint_union_left.2 ⟨ha d (mem_cons_of_mem b hd), hb d hd⟩

theorem Tiles.subset (h : Tiles f bs S) (hb : b ∈ bs) : f b ⊆ S := fun x hx => (h.cover x).2 ⟨b, hb, hx⟩

end Pieces
