import Xv6.Fs.Code

/-!
# One file-system call after another

`FsState` is what the functions of `fs.c` see when nothing interferes: the contents of the blocks as `bread` shows
them, the inode table, and the answers of `balloc` about a full disk. `view` reads the blocks as what they mean:
the bits of the free map, the inodes, the data blocks; each kind of block write changes one of them.
-/

namespace Xv6.Fs

open Bytes Prog
open Function (update update_self update_of_ne)

structure FsState where
  blocks : Nat → Block
  itable : Itable
  /-- Answers to come: is the disk reported full? -/
  full : List Bool

/-- The operations without interference. -/
def seq : Handler Op FsState
  | _, .bread b, s => .ok (s.blocks b, s)
  | _, .store b x, s => .ok ((), { s with blocks := update s.blocks b x })
  | _, .logWrite _, s => .ok ((), s)
  | _, .brelse _, s => .ok ((), s)
  | _, .itable f, s => .ok (s.itable, { s with itable := f s.itable })
  | _, .full, s => .ok (s.full.headD false, { s with full := s.full.tail })

section
variable {s : FsState} {b : Nat} {x : Block} {ip : Nat} {X : String → Prop}

@[simp] theorem sat_bread {Q : Block → FsState → Prop} : Sat seq (bread b) s Q X ↔ Q (s.blocks b) s := Iff.rfl

variable {Q : Unit → FsState → Prop}

@[simp] theorem sat_store :
    Sat seq (store b x) s Q X ↔ Q () { s with blocks := update s.blocks b x } := Iff.rfl

@[simp] theorem sat_logWrite : Sat seq (logWrite b) s Q X ↔ Q () s := Iff.rfl

@[simp] theorem sat_brelse : Sat seq (brelse b) s Q X ↔ Q () s := Iff.rfl

@[simp] theorem sat_commitBuf :
    Sat seq (commitBuf b x) s Q X ↔ Q () { s with blocks := update s.blocks b x } := Iff.rfl

@[simp] theorem sat_iat {Q : Inode → FsState → Prop} : Sat seq (iat ip) s Q X ↔ Q (s.itable ip) s := Iff.rfl

def FsState.setI (s : FsState) (ip : Nat) (f : Inode → Inode) : FsState :=
  { s with itable := update s.itable ip (f (s.itable ip)) }

@[simp] theorem sat_iset {f : Inode → Inode} :
    Sat seq (iset ip f) s Q X ↔ Q () (s.setI ip f) := Iff.rfl

@[simp] theorem setI_blocks (f : Inode → Inode) : (s.setI ip f).blocks = s.blocks := rfl

@[simp] theorem setI_self (f : Inode → Inode) : (s.setI ip f).itable ip = f (s.itable ip) := by simp [FsState.setI]

theorem setI_ne {k : Nat} (f : Inode → Inode) (h : k ≠ ip) : (s.setI ip f).itable k = s.itable k := by
  simp [FsState.setI, h]

end

/-! ## What the blocks mean -/

/-- The free map, the inodes and the data blocks. -/
@[ext] structure View where
  bit : Nat → Bool
  ino : Nat → Dinode
  data : Nat → Block

def view (sb : Super) (blocks : Nat → Block) : View where
  bit b := decide (b < sb.size) && bitAt (blocks (sb.bblock b)) (b % BPB)
  ino i := if i < sb.ninodes then getDinode (blocks (sb.iblock i)) i else {}
  data a := if sb.Data a then blocks a else fun _ => 0

section
variable {sb : Super} {blocks : Nat → Block} {a b i : Nat} {x : Block} {d : Dinode}

theorem mod_BPB_lt (b : Nat) : b % BPB < BPB := Nat.mod_lt _ (by decide)

theorem same_bit {b c : Nat} : sb.bblock b = sb.bblock c ∧ b % BPB = c % BPB ↔ b = c := by
  constructor
  · rintro ⟨h1, h2⟩
    have h3 : b / BPB = c / BPB := by unfold Super.bblock at h1; omega
    rw [← Nat.div_add_mod b BPB, ← Nat.div_add_mod c BPB, h2, h3]
  · rintro rfl
    exact ⟨rfl, rfl⟩

theorem same_inode {i j : Nat} : sb.iblock i = sb.iblock j ∧ i % IPB = j % IPB ↔ i = j := by
  constructor
  · rintro ⟨h1, h2⟩
    have h3 : i / IPB = j / IPB := by unfold Super.iblock at h1; omega
    rw [← Nat.div_add_mod i IPB, ← Nat.div_add_mod j IPB, h2, h3]
  · rintro rfl
    exact ⟨rfl, rfl⟩

theorem view_bit (hb : b < sb.size) (v : Bool)
    (hx : ∀ j < BPB, bitAt x j = if b % BPB = j then v else bitAt (blocks (sb.bblock b)) j) :
    view sb (update blocks (sb.bblock b) x) =
      { view sb blocks with bit := update (view sb blocks).bit b v } := by
  apply View.ext
  · funext c
    simp only [view]
    by_cases hblk : sb.bblock c = sb.bblock b
    · rw [hblk, update_self, hx _ (mod_BPB_lt c)]
      by_cases hc : c = b
      · subst hc; simp [hb]
      · have hne : b % BPB ≠ c % BPB := fun h => hc (same_bit.1 ⟨hblk, h.symm⟩)
        simp [hne, hc, hblk]
    · have hc : c ≠ b := fun h => hblk (by rw [h])
      simp [hblk, hc]
  · funext i
    simp only [view]
    split
    · rename_i hi
      rw [update_of_ne (sb.iblock_ne_bblock hi)]
    · rfl
  · funext a
    simp only [view]
    split
    · rename_i ha
      rw [update_of_ne (ha.ne_bblock hb)]
    · rfl

theorem view_setBit (hb : b < sb.size) :
    view sb (update blocks (sb.bblock b) (setBit (blocks (sb.bblock b)) (b % BPB))) =
      { view sb blocks with bit := update (view sb blocks).bit b true } := by
  refine view_bit hb true fun j hj => ?_
  rw [bitAt_setBit (mod_BPB_lt b)]
  split <;> simp [*]

theorem view_clearBit (hb : b < sb.size) :
    view sb (update blocks (sb.bblock b) (clearBit (blocks (sb.bblock b)) (b % BPB))) =
      { view sb blocks with bit := update (view sb blocks).bit b false } := by
  refine view_bit hb false fun j hj => ?_
  rw [bitAt_clearBit (mod_BPB_lt b)]
  split <;> simp [*]

theorem view_putDinode (hi : i < sb.ninodes) :
    view sb (update blocks (sb.iblock i) (putDinode (blocks (sb.iblock i)) i d)) =
      { view sb blocks with ino := update (view sb blocks).ino i d } := by
  apply View.ext
  · funext c
    simp only [view]
    rw [update_of_ne (sb.iblock_ne_bblock hi).symm]
  · funext j
    simp only [view]
    by_cases hj : j < sb.ninodes
    · by_cases hblk : sb.iblock j = sb.iblock i
      · by_cases hc : j = i
        · subst hc; simp [hj, getDinode_putDinode]
        · have hne : i % IPB ≠ j % IPB := fun h => hc (same_inode.1 ⟨hblk, h.symm⟩)
          simp [hj, hc, getDinode_putDinode_ne hne, hblk]
      · have hc : j ≠ i := fun h => hblk (by rw [h])
        simp [hblk, hc]
    · have hc : j ≠ i := fun h => hj (h ▸ hi)
      simp [hj, hc]
  · funext a
    simp only [view]
    split
    · rename_i ha
      rw [update_of_ne (ha.ne_iblock hi)]
    · rfl

theorem view_data (ha : sb.Data a) :
    view sb (update blocks a x) = { view sb blocks with data := update (view sb blocks).data a x } := by
  apply View.ext
  · funext c
    simp only [view]
    by_cases hc : c < sb.size
    · rw [update_of_ne (ha.ne_bblock hc).symm]
    · simp [hc]
  · funext i
    simp only [view]
    split
    · rename_i hi
      rw [update_of_ne (ha.ne_iblock hi).symm]
    · rfl
  · funext c
    simp only [view]
    by_cases hc : c = a
    · subst hc; simp [ha]
    · simp [hc]

theorem view_data_eq (ha : sb.Data a) : (view sb blocks).data a = blocks a := by
  simp [view, ha]

theorem view_ino_eq (hi : i < sb.ninodes) : (view sb blocks).ino i = getDinode (blocks (sb.iblock i)) i := by
  simp [view, hi]

theorem view_bit_eq (hb : b < sb.size) : (view sb blocks).bit b = bitAt (blocks (sb.bblock b)) (b % BPB) := by
  simp [view, hb]

theorem lt_of_type_ne_zero (h : ((view sb blocks).ino i).type ≠ 0) : i < sb.ninodes := by
  by_contra hi
  simp [view, hi] at h

end

end Xv6.Fs
