import Mathlib.Logic.Function.Basic
import Xv6.Lib.Bytes
import Xv6.Param

/-!
# The on-disk format (`kernel/fs.h`)

The superblock with the order of the areas that `mkfs` lays out, and the fields inside a block: a bit of the free
map, an on-disk inode, an entry of an indirect block.
-/

namespace Xv6.Fs

open Bytes BitVec Nat

def NDIRECT : Nat := 12

def NINDIRECT : Nat := BSIZE / 4

def MAXFILE : Nat := NDIRECT + NINDIRECT

/-- Inodes per block: a `struct dinode` has 64 bytes. -/
def IPB : Nat := BSIZE / 64

def BPB : Nat := BSIZE * 8

/-! ## The superblock -/

structure Super where
  size : Nat
  nblocks : Nat
  ninodes : Nat
  nlog : Nat
  logstart : Nat
  inodestart : Nat
  bmapstart : Nat
  log_le : logstart + nlog ≤ inodestart
  super_lt : 1 < logstart
  inode_le : inodestart + ninodes / IPB + 1 ≤ bmapstart
  bmap_le : bmapstart + size / BPB + 1 + nblocks ≤ size
  size_lt : size < 2 ^ 31
  ninodes_le : ninodes ≤ 2 ^ 16

def Super.iblock (sb : Super) (i : Nat) : Nat := i / IPB + sb.inodestart

/-- Block of the free map containing the bit for block `b`. -/
def Super.bblock (sb : Super) (b : Nat) : Nat := b / BPB + sb.bmapstart

def Super.dataStart (sb : Super) : Nat := sb.size - sb.nblocks

def Super.Data (sb : Super) (b : Nat) : Prop := sb.dataStart ≤ b ∧ b < sb.size

instance (sb : Super) (b : Nat) : Decidable (sb.Data b) := inferInstanceAs (Decidable (_ ∧ _))

section
variable {sb : Super} {b c i : Nat}

theorem Super.bblock_lt (hb : b < sb.size) : sb.bblock b < sb.dataStart := by
  have h := sb.bmap_le
  have : b / BPB ≤ sb.size / BPB := Nat.div_le_div_right (by omega)
  unfold Super.bblock Super.dataStart
  omega

theorem Super.iblock_lt (hi : i < sb.ninodes) : sb.iblock i < sb.bmapstart := by
  have h := sb.inode_le
  have : i / IPB ≤ sb.ninodes / IPB := Nat.div_le_div_right (by omega)
  unfold Super.iblock
  omega

theorem Super.iblock_ne_bblock (hi : i < sb.ninodes) : sb.iblock i ≠ sb.bblock b := by
  have := sb.iblock_lt hi
  have := zero_le (b / BPB)
  unfold Super.bblock
  omega

theorem Super.Data.ne_bblock (hb : sb.Data b) (hc : c < sb.size) : b ≠ sb.bblock c := by
  have := sb.bblock_lt hc
  have := hb.1
  omega

theorem Super.Data.ne_iblock (hb : sb.Data b) (hi : i < sb.ninodes) : b ≠ sb.iblock i := by
  have := sb.iblock_lt hi
  have := sb.bmap_le
  have := zero_le (sb.size / BPB)
  have := hb.1
  unfold Super.dataStart at *
  omega

theorem Super.Data.pos (hb : sb.Data b) : 0 < b := by
  have := sb.bmap_le
  have := zero_le (sb.size / BPB)
  have := hb.1
  unfold Super.dataStart at *
  omega

end

/-! ## The free map -/

def bmask (bi : Nat) : UInt8 := ⟨1#8 <<< (bi % 8)⟩

def bitAt (x : Block) (bi : Nat) : Bool := byteAt x (bi / 8) &&& bmask bi != 0

def setBit (x : Block) (bi : Nat) : Block := put x (bi / 8) [byteAt x (bi / 8) ||| bmask bi]

def clearBit (x : Block) (bi : Nat) : Block := put x (bi / 8) [byteAt x (bi / 8) &&& ~~~bmask bi]

theorem and_bmask (x : UInt8) (i : Nat) : (x &&& bmask i != 0) = x.toBitVec.getLsbD (i % 8) := by
  have h : i % 8 < 8 := mod_lt _ (by decide)
  have e : (x &&& bmask i = 0) ↔ x.toBitVec &&& twoPow 8 (i % 8) = 0#8 := by
    rw [← UInt8.toBitVec_inj]; rfl
  rw [and_twoPow] at e
  cases hx : x.toBitVec.getLsbD (i % 8)
  · simpa [hx] using e
  · have hne : twoPow 8 (i % 8) ≠ 0#8 := by
      intro h0
      have := congrArg (fun v => v.getLsbD (i % 8)) h0
      simp [h] at this
    simpa [hx, hne] using e

theorem or_bmask (x : UInt8) (i j : Nat) :
    ((x ||| bmask i) &&& bmask j != 0) = ((x &&& bmask j != 0) || decide (i % 8 = j % 8)) := by
  have hi : i % 8 < 8 := mod_lt _ (by decide)
  have e : (x ||| bmask i).toBitVec = x.toBitVec ||| twoPow 8 (i % 8) := rfl
  rw [and_bmask, and_bmask, e, getLsbD_or, getLsbD_twoPow]
  simp [hi]

theorem andNot_bmask (x : UInt8) (i j : Nat) :
    ((x &&& ~~~bmask i) &&& bmask j != 0) = ((x &&& bmask j != 0) && !decide (i % 8 = j % 8)) := by
  have hi : i % 8 < 8 := mod_lt _ (by decide)
  have hj : j % 8 < 8 := mod_lt _ (by decide)
  have e : (x &&& ~~~bmask i).toBitVec = x.toBitVec &&& ~~~twoPow 8 (i % 8) := rfl
  rw [and_bmask, and_bmask, e, getLsbD_and, getLsbD_not, getLsbD_twoPow]
  simp [hi, hj]

section
variable {x : Block} {i j : Nat}

theorem bitAt_setBit (hi : i < BPB) : bitAt (setBit x i) j = (bitAt x j || decide (i = j)) := by
  have hlt : i / 8 < BSIZE := by unfold BPB at hi; omega
  unfold bitAt setBit
  by_cases e : i / 8 = j / 8
  · rw [← e, byteAt_put_in _ hlt (Nat.le_refl _) (by simp)]
    have hiff : i % 8 = j % 8 ↔ i = j := by omega
    simp only [Nat.sub_self, List.getD_cons_zero, or_bmask, hiff]
  · have hne : i ≠ j := fun h => e (by rw [h])
    rw [byteAt_put_out _ (by simp; omega)]
    simp [hne]

theorem bitAt_clearBit (hi : i < BPB) : bitAt (clearBit x i) j = (bitAt x j && !decide (i = j)) := by
  have hlt : i / 8 < BSIZE := by unfold BPB at hi; omega
  unfold bitAt clearBit
  by_cases e : i / 8 = j / 8
  · rw [← e, byteAt_put_in _ hlt (Nat.le_refl _) (by simp)]
    have hiff : i % 8 = j % 8 ↔ i = j := by omega
    simp only [Nat.sub_self, List.getD_cons_zero, andNot_bmask, hiff]
  · have hne : i ≠ j := fun h => e (by rw [h])
    rw [byteAt_put_out _ (by simp; omega)]
    simp [hne]

end

/-! ## On-disk inodes -/

/-- `struct dinode` (`fs.h:35`). -/
@[ext] structure Dinode where
  type : UInt16 := 0
  major : UInt16 := 0
  minor : UInt16 := 0
  nlink : UInt16 := 0
  size : UInt32 := 0
  addrs : Fin (NDIRECT + 1) → UInt32 := fun _ => 0

def dinodeOff (i : Nat) : Nat := i % IPB * 64

def getDinode (x : Block) (i : Nat) : Dinode where
  type := UInt16.ofNat (get16 x (dinodeOff i))
  major := UInt16.ofNat (get16 x (dinodeOff i + 2))
  minor := UInt16.ofNat (get16 x (dinodeOff i + 4))
  nlink := UInt16.ofNat (get16 x (dinodeOff i + 6))
  size := UInt32.ofNat (get32 x (dinodeOff i + 8))
  addrs k := UInt32.ofNat (get32 x (dinodeOff i + 12 + 4 * k))

def putDinode (x : Block) (i : Nat) (d : Dinode) : Block :=
  let x := put x (dinodeOff i) (le16 d.type.toNat)
  let x := put x (dinodeOff i + 2) (le16 d.major.toNat)
  let x := put x (dinodeOff i + 4) (le16 d.minor.toNat)
  let x := put x (dinodeOff i + 6) (le16 d.nlink.toNat)
  let x := put x (dinodeOff i + 8) (le32 d.size.toNat)
  putWords x (dinodeOff i + 12) (List.ofFn fun k => (d.addrs k).toNat)

section
variable {x : Block} {i j : Nat} {d : Dinode}

theorem dinodeOff_le (i : Nat) : dinodeOff i + 64 ≤ BSIZE := by
  simp only [IPB, BSIZE, dinodeOff] at *
  omega

theorem get16_putDinode_out {k : Nat} (h : k + 2 ≤ dinodeOff i ∨ dinodeOff i + 64 ≤ k) :
    get16 (putDinode x i d) k = get16 x k := by
  unfold putDinode
  rw [get16_putWords_out (by simp [NDIRECT]; omega), get16_put_out _ (by simp; omega),
    get16_put_out _ (by simp; omega), get16_put_out _ (by simp; omega), get16_put_out _ (by simp; omega),
    get16_put_out _ (by simp; omega)]

theorem get32_putDinode_out {k : Nat} (h : k + 4 ≤ dinodeOff i ∨ dinodeOff i + 64 ≤ k) :
    get32 (putDinode x i d) k = get32 x k := by
  unfold putDinode
  rw [get32_putWords_out (by simp [NDIRECT]; omega), get32_put_out _ (by simp; omega),
    get32_put_out _ (by simp; omega), get32_put_out _ (by simp; omega), get32_put_out _ (by simp; omega),
    get32_put_out _ (by simp; omega)]

theorem ofNat16_mod (v : UInt16) : UInt16.ofNat (v.toNat % 2 ^ 16) = v := by
  rw [mod_eq_of_lt v.toNat_lt, UInt16.ofNat_toNat]

theorem ofNat32_mod (v : UInt32) : UInt32.ofNat (v.toNat % 2 ^ 32) = v := by
  rw [mod_eq_of_lt v.toNat_lt, UInt32.ofNat_toNat]

theorem getDinode_putDinode : getDinode (putDinode x i d) i = d := by
  have h := dinodeOff_le i
  apply Dinode.ext
  · change UInt16.ofNat (get16 (putDinode x i d) _) = _
    unfold putDinode
    rw [get16_putWords_out (by simp), get16_put_out _ (by simp), get16_put_out _ (by simp),
      get16_put_out _ (by simp), get16_put_out _ (by simp), get16_put_self _ _ (by omega), ofNat16_mod]
  · change UInt16.ofNat (get16 (putDinode x i d) _) = _
    unfold putDinode
    rw [get16_putWords_out (by simp), get16_put_out _ (by simp), get16_put_out _ (by simp),
      get16_put_out _ (by simp), get16_put_self _ _ (by omega), ofNat16_mod]
  · change UInt16.ofNat (get16 (putDinode x i d) _) = _
    unfold putDinode
    rw [get16_putWords_out (by simp), get16_put_out _ (by simp), get16_put_out _ (by simp),
      get16_put_self _ _ (by omega), ofNat16_mod]
  · change UInt16.ofNat (get16 (putDinode x i d) _) = _
    unfold putDinode
    rw [get16_putWords_out (by simp), get16_put_out _ (by simp), get16_put_self _ _ (by omega), ofNat16_mod]
  · change UInt32.ofNat (get32 (putDinode x i d) _) = _
    unfold putDinode
    rw [get32_putWords_out (by simp), get32_put_self _ _ (by omega), ofNat32_mod]
  · funext k
    have hk := k.isLt
    change UInt32.ofNat (get32 (putDinode x i d) (dinodeOff i + 12 + 4 * k)) = _
    unfold putDinode
    rw [get32_putWords (by rw [List.length_ofFn]; exact hk) (by simp only [List.length_ofFn, NDIRECT]; omega),
      List.getElem_ofFn, ofNat32_mod]

theorem getDinode_putDinode_ne (h : i % IPB ≠ j % IPB) : getDinode (putDinode x i d) j = getDinode x j := by
  have hd : dinodeOff j + 64 ≤ dinodeOff i ∨ dinodeOff i + 64 ≤ dinodeOff j := by
    unfold dinodeOff; omega
  apply Dinode.ext <;> simp only [getDinode]
  · rw [get16_putDinode_out (by omega)]
  · rw [get16_putDinode_out (by omega)]
  · rw [get16_putDinode_out (by omega)]
  · rw [get16_putDinode_out (by omega)]
  · rw [get32_putDinode_out (by omega)]
  · funext k
    have hk := k.isLt
    simp only [NDIRECT] at hk
    rw [get32_putDinode_out (by omega)]

end

/-! ## Indirect blocks -/

def getEnt (x : Block) (j : Nat) : Nat := get32 x (4 * j)

def putEnt (x : Block) (j v : Nat) : Block := put x (4 * j) (le32 v)

theorem getEnt_putEnt {x : Block} {j k v : Nat} (hj : j < NINDIRECT) (hv : v < 2 ^ 32) :
    getEnt (putEnt x j v) k = if k = j then v else getEnt x k := by
  unfold getEnt putEnt
  split
  · rename_i e
    rw [e, get32_put_self _ _ (by simp only [NINDIRECT, BSIZE] at *; omega), mod_eq_of_lt hv]
  · rw [get32_put_out _ (by simp; omega)]

end Xv6.Fs
