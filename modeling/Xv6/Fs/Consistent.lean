import Xv6.Fs.View

/-!
# Block allocation consistency

Every block number an inode holds, in `addrs[]` or in its indirect block, has a slot. Consistency says how the slots
of the allocated inodes relate to the free map. The lemmas are about what the functions of `fs.c` do to a `View`:
fill an empty slot with a free block, drop all slots of an inode, allocate or free an inode, change a size.
-/

namespace Xv6.Fs

open Bytes View
open Function (update update_self update_of_ne)

/-! ## Slots -/

/-- Slots of an inode: `addrs[]`, then the entries of its indirect block. -/
def NSLOT : Nat := NDIRECT + 1 + NINDIRECT

/-- The block number in slot `k` of an inode `d`, where the data blocks are `data`. -/
def slotOf (data : Nat → Block) (d : Dinode) (k : Nat) : Nat :=
  if h : k < NDIRECT + 1 then (d.addrs ⟨k, h⟩).toNat
  else if (d.addrs indirect).toNat = 0 then 0
  else getEnt (data (d.addrs indirect).toNat) (k - (NDIRECT + 1))

def View.slot (v : View) (i k : Nat) : Nat := slotOf v.data (v.ino i) k

/-- The slot of the `n`-th block of a file. -/
def fileSlot (n : Nat) : Nat := if n < NDIRECT then n else n + 1

def View.Alloc (v : View) (i : Nat) : Prop := (v.ino i).type ≠ 0

/-- How many blocks a file of `size` bytes has. -/
def nblocksOf (size : Nat) : Nat := (size + BSIZE - 1) / BSIZE

/-- The blocks below the size of the file are mapped. -/
def Filled (data : Nat → Block) (d : Dinode) : Prop :=
  ∀ n < nblocksOf d.size.toNat, n < MAXFILE ∧ slotOf data d (fileSlot n) ≠ 0

/-- The relation between the inodes and the free map, for the data area. -/
structure DataConsistent (sb : Super) (v : View) : Prop where
  /-- A block number held by an inode is that of a data block in use. -/
  mapped : ∀ i k, v.Alloc i → k < NSLOT → v.slot i k ≠ 0 → sb.Data (v.slot i k) ∧ v.bit (v.slot i k) = true
  /-- No block number occurs twice. -/
  once : ∀ i k i' k', v.Alloc i → v.Alloc i' → k < NSLOT → k' < NSLOT → v.slot i k ≠ 0 →
    v.slot i k = v.slot i' k' → i = i' ∧ k = k'
  /-- A data block in use is held by an inode. -/
  used : ∀ b, sb.Data b → v.bit b = true → ∃ i k, v.Alloc i ∧ k < NSLOT ∧ v.slot i k = b
  filled : ∀ i, v.Alloc i → Filled v.data (v.ino i)

/-- Consistency: the blocks below the data area are in use as well. -/
structure Consistent (sb : Super) (v : View) : Prop extends DataConsistent sb v where
  below : ∀ b < sb.dataStart, v.bit b = true

section
variable {sb : Super} {v : View} {data : Nat → Block} {d : Dinode} {i k a b : Nat}

theorem indirect_lt_NSLOT : NDIRECT < NSLOT := by decide

theorem slotOf_indirect : slotOf data d NDIRECT = (d.addrs indirect).toNat := by
  simp [slotOf, indirect]

theorem slotOf_congr {data' : Nat → Block}
    (h : (d.addrs indirect).toNat ≠ 0 → data' (d.addrs indirect).toNat = data (d.addrs indirect).toNat) :
    slotOf data' d k = slotOf data d k := by
  unfold slotOf
  split
  · rfl
  · split
    · rfl
    · rename_i h0
      rw [h h0]

theorem DataConsistent.slot_ne (h : DataConsistent sb v) (hb : v.bit b = false) (hb0 : b ≠ 0) (hi : v.Alloc i)
    (hk : k < NSLOT) : v.slot i k ≠ b := by
  intro e
  have := (h.mapped i k hi hk (by omega)).2
  rw [e, hb] at this
  cases this

theorem fileSlot_lt {n : Nat} (h : n < MAXFILE) : fileSlot n < NSLOT := by
  unfold fileSlot NSLOT MAXFILE at *
  split <;> omega

theorem fileSlot_inj {m n : Nat} (e : fileSlot m = fileSlot n) : m = n := by
  unfold fileSlot at e
  split at e <;> split at e <;> omega

/-! ## Changes that keep consistency -/

variable {v' : View} {i0 k0 : Nat}

theorem Consistent.fill (h : Consistent sb v) (hD : sb.Data b) (hb : v.bit b = false)
    (hbit : v'.bit = update v.bit b true) (ha : ∀ i, v'.Alloc i ↔ v.Alloc i) (hi0 : v.Alloc i0)
    (hk0 : k0 < NSLOT) (h0 : v.slot i0 k0 = 0) (hnew : v'.slot i0 k0 = b)
    (hold : ∀ i k, v.Alloc i → k < NSLOT → ¬(i = i0 ∧ k = k0) → v'.slot i k = v.slot i k)
    (hsize : ∀ i, (v'.ino i).size = (v.ino i).size) : Consistent sb v' := by
  have hb0 : b ≠ 0 := Nat.ne_of_gt hD.pos
  have hne : ∀ i k, v.Alloc i → k < NSLOT → v.slot i k ≠ b := fun i k hi hk => h.slot_ne hb hb0 hi hk
  constructor
  · constructor
    · intro i k hi hk hs
      rw [ha] at hi
      by_cases e : i = i0 ∧ k = k0
      · obtain ⟨rfl, rfl⟩ := e
        rw [hnew, hbit]
        exact ⟨hD, by simp⟩
      · rw [hold i k hi hk e] at hs ⊢
        obtain ⟨h1, h2⟩ := h.mapped i k hi hk hs
        exact ⟨h1, by rw [hbit, update_of_ne (hne i k hi hk)]; exact h2⟩
    · intro i k i' k' hi hi' hk hk' hs e
      rw [ha] at hi hi'
      by_cases e1 : i = i0 ∧ k = k0 <;> by_cases e2 : i' = i0 ∧ k' = k0
      · exact ⟨e1.1.trans e2.1.symm, e1.2.trans e2.2.symm⟩
      · obtain ⟨rfl, rfl⟩ := e1
        rw [hnew, hold i' k' hi' hk' e2] at e
        exact absurd e.symm (hne i' k' hi' hk')
      · obtain ⟨rfl, rfl⟩ := e2
        rw [hnew, hold i k hi hk e1] at e
        exact absurd e (hne i k hi hk)
      · rw [hold i k hi hk e1] at e hs
        rw [hold i' k' hi' hk' e2] at e
        exact h.once i k i' k' hi hi' hk hk' hs e
    · intro c hc hbc
      rw [hbit] at hbc
      by_cases e : c = b
      · exact ⟨i0, k0, (ha i0).2 hi0, hk0, by rw [hnew, e]⟩
      rw [update_of_ne e] at hbc
      obtain ⟨i, k, hi, hk, hs⟩ := h.used c hc hbc
      refine ⟨i, k, (ha i).2 hi, hk, ?_⟩
      rw [hold i k hi hk ?_, hs]
      rintro ⟨rfl, rfl⟩
      have := hc.pos
      omega
    · intro i hi n hn
      rw [ha] at hi
      rw [hsize] at hn
      obtain ⟨h1, h2⟩ := h.filled i hi n hn
      refine ⟨h1, ?_⟩
      change v'.slot i _ ≠ 0
      by_cases e : i = i0 ∧ fileSlot n = k0
      · rw [e.1, e.2, hnew]; exact hb0
      · rw [hold i _ hi (fileSlot_lt h1) e]; exact h2
  · intro c hc
    rw [hbit]
    by_cases e : c = b
    · rw [e, update_self]
    · rw [update_of_ne e]; exact h.below c hc

theorem Consistent.drop (h : Consistent sb v) (hi0 : v.Alloc i0)
    (hbit : ∀ b, v'.bit b = true ↔ v.bit b = true ∧ ∀ k < NSLOT, v.slot i0 k ≠ 0 → v.slot i0 k ≠ b)
    (ha : ∀ i, i ≠ i0 → (v'.Alloc i ↔ v.Alloc i)) (hnil : ∀ k < NSLOT, v'.slot i0 k = 0)
    (hold : ∀ i k, i ≠ i0 → v.Alloc i → k < NSLOT → v'.slot i k = v.slot i k)
    (hsize : ∀ i, i ≠ i0 → (v'.ino i).size = (v.ino i).size) (hsize0 : (v'.ino i0).size = 0) : Consistent sb v' := by
  constructor
  · constructor
    · intro i k hi hk hs
      by_cases e : i = i0
      · subst e
        exact absurd (hnil k hk) hs
      · rw [ha i e] at hi
        rw [hold i k e hi hk] at hs ⊢
        obtain ⟨h1, h2⟩ := h.mapped i k hi hk hs
        refine ⟨h1, (hbit _).2 ⟨h2, fun k' hk' hne he => ?_⟩⟩
        exact e (h.once i0 k' i k hi0 hi hk' hk hne he).1.symm
    · intro i k i' k' hi hi' hk hk' hs he
      by_cases e : i = i0
      · subst e
        exact absurd (hnil k hk) hs
      by_cases e' : i' = i0
      · subst e'
        rw [hnil k' hk'] at he
        exact absurd he hs
      · rw [ha i e] at hi
        rw [ha i' e'] at hi'
        rw [hold i k e hi hk] at hs he
        rw [hold i' k' e' hi' hk'] at he
        exact h.once i k i' k' hi hi' hk hk' hs he
    · intro c hc hbc
      obtain ⟨h1, h2⟩ := (hbit c).1 hbc
      obtain ⟨i, k, hi, hk, hs⟩ := h.used c hc h1
      have e : i ≠ i0 := by
        rintro rfl
        have := hc.pos
        exact h2 k hk (by omega) hs
      exact ⟨i, k, (ha i e).2 hi, hk, by rw [hold i k e hi hk, hs]⟩
    · intro i hi n hn
      by_cases e : i = i0
      · subst e
        rw [hsize0] at hn
        simp [nblocksOf, BSIZE] at hn
      · rw [ha i e] at hi
        rw [hsize i e] at hn
        obtain ⟨h1, h2⟩ := h.filled i hi n hn
        refine ⟨h1, ?_⟩
        change v'.slot i _ ≠ 0
        rw [hold i _ e hi (fileSlot_lt h1)]; exact h2
  · intro c hc
    refine (hbit c).2 ⟨h.below c hc, fun k hk hne he => ?_⟩
    have := (h.mapped i0 k hi0 hk hne).1.1
    omega

theorem Consistent.fresh (h : Consistent sb v) (hi0 : ¬ v.Alloc i0) (hbit : v'.bit = v.bit) (hdata : v'.data = v.data)
    (hino : v'.ino = update v.ino i0 { type := d.type }) : Consistent sb v' := by
  have hnil : ∀ k < NSLOT, v'.slot i0 k = 0 := by
    intro k _
    unfold slot slotOf
    rw [hino, update_self]
    simp
  have hold : ∀ i, i ≠ i0 → v'.ino i = v.ino i := by
    intro i e
    rw [hino, update_of_ne e]
  have hslot : ∀ i k, i ≠ i0 → v'.slot i k = v.slot i k := by
    intro i k e
    unfold slot
    rw [hold i e, hdata]
  have ha : ∀ i, i ≠ i0 → (v'.Alloc i ↔ v.Alloc i) := by
    intro i e
    unfold View.Alloc
    rw [hold i e]
  constructor
  · constructor
    · intro i k hi hk hs
      by_cases e : i = i0
      · subst e
        exact absurd (hnil k hk) hs
      · rw [ha i e] at hi
        rw [hslot i k e] at hs ⊢
        rw [hbit]
        exact h.mapped i k hi hk hs
    · intro i k i' k' hi hi' hk hk' hs he
      by_cases e : i = i0
      · subst e
        exact absurd (hnil k hk) hs
      by_cases e' : i' = i0
      · subst e'
        rw [hnil k' hk'] at he
        exact absurd he hs
      · rw [ha i e] at hi
        rw [ha i' e'] at hi'
        rw [hslot i k e] at hs he
        rw [hslot i' k' e'] at he
        exact h.once i k i' k' hi hi' hk hk' hs he
    · intro c hc hbc
      rw [hbit] at hbc
      obtain ⟨i, k, hi, hk, hs⟩ := h.used c hc hbc
      have e : i ≠ i0 := fun e => hi0 (e ▸ hi)
      exact ⟨i, k, (ha i e).2 hi, hk, by rw [hslot i k e, hs]⟩
    · intro i hi n hn
      by_cases e : i = i0
      · subst e
        rw [hino, update_self] at hn
        simp [nblocksOf, BSIZE] at hn
      · rw [ha i e] at hi
        rw [hold i e] at hn ⊢
        rw [hdata]
        exact h.filled i hi n hn
  · intro c hc
    rw [hbit]
    exact h.below c hc

theorem Consistent.change (h : Consistent sb v) (hbit : v'.bit = v.bit) (hdata : v'.data = v.data)
    (hino : v'.ino = update v.ino i0 d) (haddr : d.addrs = (v.ino i0).addrs)
    (ha₀ : d.type ≠ 0 ↔ v.Alloc i0) (hfill : v.Alloc i0 → Filled v.data d) : Consistent sb v' := by
  have hslot : ∀ i k, v'.slot i k = v.slot i k := by
    intro i k
    unfold slot
    rw [hino, hdata]
    by_cases e : i = i0
    · subst e
      rw [update_self]
      unfold slotOf
      rw [haddr]
    · rw [update_of_ne e]
  have ha : ∀ i, v'.Alloc i ↔ v.Alloc i := by
    intro i
    unfold View.Alloc
    rw [hino]
    by_cases e : i = i0
    · subst e
      rw [update_self]
      exact ha₀
    · rw [update_of_ne e]
  refine ⟨⟨?_, ?_, ?_, ?_⟩, ?_⟩
  · intro i k hi hk hs
    rw [hslot] at hs ⊢
    rw [hbit]
    exact h.mapped i k ((ha i).1 hi) hk hs
  · intro i k i' k' hi hi' hk hk' hs he
    rw [hslot] at hs he
    rw [hslot] at he
    exact h.once i k i' k' ((ha i).1 hi) ((ha i').1 hi') hk hk' hs he
  · intro c hc hbc
    rw [hbit] at hbc
    obtain ⟨i, k, hi, hk, hs⟩ := h.used c hc hbc
    exact ⟨i, k, (ha i).2 hi, hk, by rw [hslot, hs]⟩
  · intro i hi
    rw [hdata, hino]
    by_cases e : i = i0
    · subst e
      rw [update_self]
      exact hfill ((ha i).1 hi)
    · rw [update_of_ne e]
      exact h.filled i ((ha i).1 hi)
  · intro c hc
    rw [hbit]
    exact h.below c hc

/-! ## The contents of files -/

def View.Same (v v' : View) (i : Nat) : Prop :=
  ∀ n < MAXFILE, v.slot i (fileSlot n) ≠ 0 →
    v'.slot i (fileSlot n) = v.slot i (fileSlot n) ∧ v'.data (v.slot i (fileSlot n)) = v.data (v.slot i (fileSlot n))

theorem View.Same.refl (v : View) (i : Nat) : v.Same v i := fun _ _ _ => ⟨rfl, rfl⟩

theorem View.Same.trans {v'' : View} (h : v.Same v' i) (h' : v'.Same v'' i) : v.Same v'' i := by
  intro n hn hs
  obtain ⟨h1, h2⟩ := h n hn hs
  obtain ⟨h3, h4⟩ := h' n hn (by rw [h1]; exact hs)
  rw [h1] at h3 h4
  exact ⟨h3, h4.trans h2⟩

theorem fileSlot_ne_indirect (n : Nat) : fileSlot n ≠ NDIRECT := by
  unfold fileSlot
  split <;> omega

/-! ## Filling a slot of `addrs[]` or of the indirect block -/

theorem toNat_ofNat_data (hD : sb.Data b) : (UInt32.ofNat b).toNat = b := by
  have := hD.2
  have := sb.size_lt
  rw [UInt32.toNat_ofNat', Nat.mod_eq_of_lt (by omega)]

/-- The view after `balloc` has returned `b`. -/
def View.take (v : View) (b : Nat) : View :=
  { v with bit := update v.bit b true, data := update v.data b fun _ => 0 }

def View.setIno (v : View) (i : Nat) (d : Dinode) : View := { v with ino := update v.ino i d }

theorem getEnt_zero (j : Nat) : getEnt (fun _ => 0) j = 0 := by
  simp [getEnt, get32, byteAt]

theorem Consistent.indirect_ne (h : Consistent sb v) (hD : sb.Data b) (hb : v.bit b = false) (hi : v.Alloc i) :
    ((v.ino i).addrs indirect).toNat ≠ b := by
  have hne := h.slot_ne hb (Nat.ne_of_gt hD.pos) hi indirect_lt_NSLOT
  rwa [slot, slotOf_indirect] at hne

theorem Consistent.take_slot (h : Consistent sb v) (hD : sb.Data b) (hb : v.bit b = false) (hi : v.Alloc i) :
    slotOf (v.take b).data (v.ino i) k = v.slot i k := by
  refine slotOf_congr fun _ => ?_
  exact update_of_ne (h.indirect_ne hD hb hi) _ _

@[simp] theorem setIno_ino_self (v : View) (i : Nat) (d : Dinode) : (v.setIno i d).ino i = d := by simp [setIno]

theorem setIno_ino_ne (v : View) (d : Dinode) {i j : Nat} (h : j ≠ i) : (v.setIno i d).ino j = v.ino j := by
  simp [setIno, h]

theorem slotOf_addr (data : Nat → Block) (d : Dinode) (k : Fin (NDIRECT + 1)) : slotOf data d k = (d.addrs k).toNat := by
  rw [slotOf, dif_pos k.isLt]

theorem slotOf_setAddr {k : Fin (NDIRECT + 1)} {k' : Nat} (hD : sb.Data b) (h0 : d.addrs k = 0)
    (hdata : (d.addrs indirect).toNat ≠ 0 → (d.addrs indirect).toNat ≠ b) :
    slotOf (update data b fun _ => 0) (d.setAddr k b) k' = if k' = k then b else slotOf data d k' := by
  unfold slotOf
  by_cases hk' : k' < NDIRECT + 1
  · simp only [hk', dite_true, Dinode.setAddr]
    by_cases e : k' = k
    · have : (⟨k', hk'⟩ : Fin (NDIRECT + 1)) = k := Fin.ext e
      simp [this, e, toNat_ofNat_data hD]
    · have : (⟨k', hk'⟩ : Fin (NDIRECT + 1)) ≠ k := fun h => e (by rw [← h])
      simp [this, e]
  · have e : k' ≠ k := by have := k.isLt; omega
    simp only [hk', dite_false, e, if_false, Dinode.setAddr]
    by_cases hk : k = indirect
    · -- the new indirect block is zeroed
      subst hk
      have hb0 := Nat.ne_of_gt hD.pos
      simp [h0, toNat_ofNat_data hD, hb0, getEnt_zero]
    · simp only [update_of_ne (Ne.symm hk)]
      split
      · rfl
      · rename_i hne
        rw [update_of_ne (hdata hne)]

theorem Consistent.slot_setAddr (h : Consistent sb v) {k : Fin (NDIRECT + 1)} {k' : Nat} (hi : v.Alloc i) (hD : sb.Data b)
    (hb : v.bit b = false) (h0 : (v.ino i).addrs k = 0) :
    ((v.take b).setIno i ((v.ino i).setAddr k b)).slot i k' = if k' = k then b else v.slot i k' := by
  unfold slot
  rw [setIno_ino_self]
  exact slotOf_setAddr hD h0 fun _ => h.indirect_ne hD hb hi

theorem Consistent.slot_setAddr_ne (h : Consistent sb v) {k : Nat} {j : Nat} (hj : v.Alloc j) (hD : sb.Data b)
    (hb : v.bit b = false) (hne : j ≠ i) : ((v.take b).setIno i d).slot j k = v.slot j k := by
  unfold slot
  rw [setIno_ino_ne _ _ hne]
  exact h.take_slot hD hb hj

theorem Consistent.fill_addr (h : Consistent sb v) {k : Fin (NDIRECT + 1)} (hi : v.Alloc i) (hD : sb.Data b)
    (hb : v.bit b = false) (h0 : (v.ino i).addrs k = 0) :
    Consistent sb ((v.take b).setIno i ((v.ino i).setAddr k b)) := by
  have hk : k.val < NSLOT := by have := k.isLt; unfold NSLOT; omega
  refine h.fill hD hb rfl (fun j => ?_) hi hk ?_ ?_ (fun j k' hj hk' hne => ?_) fun j => ?_
  · unfold View.Alloc
    by_cases e : j = i
    · subst e; rw [setIno_ino_self]; rfl
    · rw [setIno_ino_ne _ _ e]; rfl
  · rw [slot, slotOf_addr, h0]
    rfl
  · rw [h.slot_setAddr hi hD hb h0, if_pos rfl]
  · by_cases e : j = i
    · subst e
      rw [h.slot_setAddr hi hD hb h0, if_neg fun e => hne ⟨rfl, e⟩]
    · exact h.slot_setAddr_ne hj hD hb e
  · by_cases e : j = i
    · subst e; rw [setIno_ino_self]; rfl
    · rw [setIno_ino_ne _ _ e]; rfl

theorem Consistent.same_addr (h : Consistent sb v) {k : Fin (NDIRECT + 1)} {j : Nat} (hi : v.Alloc i) (hj : v.Alloc j)
    (hD : sb.Data b) (hb : v.bit b = false) (h0 : (v.ino i).addrs k = 0) :
    v.Same ((v.take b).setIno i ((v.ino i).setAddr k b)) j := by
  intro n hn hs
  constructor
  · by_cases e : j = i
    · subst e
      rw [h.slot_setAddr hi hD hb h0, if_neg]
      -- the slot that is filled was empty
      intro e
      rw [e, slot, slotOf_addr, h0] at hs
      exact hs rfl
    · exact h.slot_setAddr_ne hj hD hb e
  · exact update_of_ne (h.slot_ne hb (Nat.ne_of_gt hD.pos) hj (fileSlot_lt hn)) _ _

/-- The view with entry `j` of the indirect block `a` set to `b`. -/
def View.setEnt (v : View) (a j b : Nat) : View :=
  { v with data := update v.data a (putEnt (v.data a) j b) }

theorem Consistent.indirect_ne_of_ne (h : Consistent sb v) {j : Nat} (hi : v.Alloc i) (hj : v.Alloc j) (hne : j ≠ i)
    (hj0 : ((v.ino j).addrs indirect).toNat ≠ 0) :
    ((v.ino j).addrs indirect).toNat ≠ ((v.ino i).addrs indirect).toNat := by
  intro e
  refine hne (h.once j NDIRECT i NDIRECT hj hi indirect_lt_NSLOT indirect_lt_NSLOT ?_ ?_).1
  · rw [slot, slotOf_indirect]; exact hj0
  · rw [slot, slot, slotOf_indirect, slotOf_indirect, e]

section
variable {j : Nat} (h : Consistent sb v) (hi : v.Alloc i) (hD : sb.Data b) (hb : v.bit b = false)
  (ha : ((v.ino i).addrs indirect).toNat = a) (ha0 : a ≠ 0) (hj : j < NINDIRECT)

include h hi hD hb ha ha0 hj

theorem Consistent.slot_setEnt {k : Nat} :
    ((v.take b).setEnt a j b).slot i k = if k = NDIRECT + 1 + j then b else v.slot i k := by
  have hab : a ≠ b := ha ▸ h.indirect_ne hD hb hi
  have hb32 : b < 2 ^ 32 := by have := hD.2; have := sb.size_lt; omega
  unfold slot slotOf
  by_cases hk : k < NDIRECT + 1
  · have e : k ≠ NDIRECT + 1 + j := by omega
    simp only [hk, dite_true, e, if_false]
    rfl
  · have hd : ((v.take b).setEnt a j b).data a = putEnt (v.data a) j b := by
      simp only [setEnt, take, update_self]
      rw [update_of_ne hab]
    simp only [hk, dite_false]
    change (if ((v.ino i).addrs indirect).toNat = 0 then 0
      else getEnt (((v.take b).setEnt a j b).data ((v.ino i).addrs indirect).toNat) _) = _
    rw [ha, if_neg ha0, if_neg ha0, hd, getEnt_putEnt hj hb32]
    congr 1
    simp only [eq_iff_iff]
    omega

omit ha0 hj in
theorem Consistent.slot_setEnt_ne {i' k : Nat} (hi' : v.Alloc i') (hne : i' ≠ i) :
    ((v.take b).setEnt a j b).slot i' k = v.slot i' k := by
  refine (slotOf_congr fun h0 => ?_).trans (h.take_slot hD hb hi')
  exact update_of_ne (ha ▸ h.indirect_ne_of_ne hi hi' hne h0) _ _

theorem Consistent.fill_ent (h0 : getEnt (v.data a) j = 0) : Consistent sb ((v.take b).setEnt a j b) := by
  have hk : NDIRECT + 1 + j < NSLOT := by unfold NSLOT; omega
  refine h.fill hD hb rfl (fun _ => Iff.rfl) hi hk ?_ ?_ (fun i' k' hi' hk' hne => ?_) fun _ => rfl
  · unfold slot slotOf
    rw [dif_neg (by omega), ha, if_neg ha0]
    simpa using h0
  · rw [h.slot_setEnt hi hD hb ha ha0 hj, if_pos rfl]
  · by_cases e : i' = i
    · subst e
      rw [h.slot_setEnt hi hD hb ha ha0 hj, if_neg fun e => hne ⟨rfl, e⟩]
    · exact h.slot_setEnt_ne hi hD hb ha hi' e

theorem Consistent.same_ent {i' : Nat} (hi' : v.Alloc i') (h0 : getEnt (v.data a) j = 0) :
    v.Same ((v.take b).setEnt a j b) i' := by
  intro n hn hs
  constructor
  · by_cases e : i' = i
    · subst e
      rw [h.slot_setEnt hi hD hb ha ha0 hj, if_neg]
      intro e
      rw [e] at hs
      unfold slot slotOf at hs
      rw [dif_neg (by omega), ha, if_neg ha0] at hs
      exact hs (by simpa using h0)
    · exact h.slot_setEnt_ne hi hD hb ha hi' e
  · -- the indirect block holds no file contents
    have hne : v.slot i' (fileSlot n) ≠ a := by
      intro e
      have he : v.slot i' (fileSlot n) = v.slot i NDIRECT := by
        rw [e, slot, slotOf_indirect, ha]
      exact fileSlot_ne_indirect n (h.once _ _ _ _ hi' hi (fileSlot_lt hn) indirect_lt_NSLOT hs he).2
    refine (update_of_ne hne _ _).trans ?_
    exact update_of_ne (h.slot_ne hb (Nat.ne_of_gt hD.pos) hi' (fileSlot_lt hn)) _ _

end

end

end Xv6.Fs
