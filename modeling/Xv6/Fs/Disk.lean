import Xv6.Fs.Content

/-!
# Disks with given contents

Every view that fits the layout is the view of a disk. Disks of directories with direct blocks only are consistent when
each data block in use has one owner.
-/

namespace Xv6.Fs

open Bytes List Nat

/-! ## A disk for a view -/

def bitsBlock (f : Nat → Bool) : Block :=
  fun j => (range 8).foldl (fun x t => if f (8 * j + t) then x ||| bmask t else x) 0

def inodeBlock (f : Nat → Dinode) : Block := (range IPB).foldl (fun x j => putDinode x j (f j)) fun _ => 0

def diskOf (sb : Super) (v : View) (b : Nat) : Block :=
  if sb.Data b then v.data b
  else if sb.bmapstart ≤ b then bitsBlock fun j => v.bit ((b - sb.bmapstart) * BPB + j)
  else if sb.inodestart ≤ b then inodeBlock fun j => v.ino ((b - sb.inodestart) * IPB + j)
  else fun _ => 0

/-- The view says nothing of blocks and inodes that do not exist. -/
structure View.Fits (sb : Super) (v : View) : Prop where
  bit : ∀ b, sb.size ≤ b → v.bit b = false
  ino : ∀ i, sb.ninodes ≤ i → v.ino i = {}
  data : ∀ a, ¬sb.Data a → v.data a = fun _ => 0

theorem foldl_bits {g : Nat → Bool} {ts : List Nat} {x : UInt8} {i : Nat} :
    ((ts.foldl (fun x t => if g t then x ||| bmask t else x) x) &&& bmask i != 0) =
      ((x &&& bmask i != 0) || ts.any fun t => g t && decide (t % 8 = i % 8)) := by
  induction ts generalizing x with
  | nil => simp
  | cons t ts ih =>
    rw [foldl_cons, ih, any_cons]
    by_cases ht : g t = true
    · simp [ht, or_bmask, Bool.or_assoc]
    · simp [ht]

theorem bitAt_bitsBlock {f : Nat → Bool} {i : Nat} (h : i < BPB) : bitAt (bitsBlock f) i = f i := by
  have hlt : i / 8 < BSIZE := by unfold BPB at h; omega
  have hany : ((range 8).any fun t => f (8 * (i / 8) + t) && decide (t % 8 = i % 8)) = f i := by
    rw [Bool.eq_iff_iff]
    simp only [any_eq_true, mem_range, Bool.and_eq_true, decide_eq_true_eq]
    constructor
    · rintro ⟨t, ht, hf, e⟩
      rwa [show 8 * (i / 8) + t = i by omega] at hf
    · intro hf
      exact ⟨i % 8, by omega, by rwa [div_add_mod], by omega⟩
  unfold bitAt byteAt bitsBlock
  rw [dif_pos hlt, foldl_bits, hany]
  simp

theorem getDinode_foldl {f : Nat → Dinode} {js : List Nat} {x : Block} {i : Nat} (hjs : ∀ j ∈ js, j < IPB) :
    getDinode (js.foldl (fun x j => putDinode x j (f j)) x) i = if i % IPB ∈ js then f (i % IPB) else getDinode x i := by
  induction js generalizing x with
  | nil => simp
  | cons j js ih =>
    have hj : j % IPB = j := mod_eq_of_lt (hjs j mem_cons_self)
    rw [foldl_cons, ih fun j' hj' => hjs j' (mem_cons_of_mem _ hj')]
    by_cases hm : i % IPB ∈ js
    · simp [hm]
    by_cases e : i % IPB = j
    · have hself : getDinode (putDinode x j (f j)) i = f j := by
        have hget : ∀ y : Block, getDinode y i = getDinode y j := by
          intro y
          simp only [getDinode, dinodeOff, hj, e]
        rw [hget, getDinode_putDinode]
      simp [e, hself]
    · rw [if_neg hm, getDinode_putDinode_ne (by rw [hj]; exact Ne.symm e), if_neg (by simp [e, hm])]

theorem getDinode_inodeBlock (f : Nat → Dinode) (i : Nat) : getDinode (inodeBlock f) i = f (i % IPB) := by
  unfold inodeBlock
  rw [getDinode_foldl fun j hj => mem_range.1 hj, if_pos (mem_range.2 (mod_lt _ (by decide)))]

theorem view_diskOf {sb : Super} {v : View} (h : v.Fits sb) : view sb (diskOf sb v) = v := by
  have hstart : sb.bmapstart ≤ sb.dataStart := by
    have := sb.bmap_le
    have := zero_le (sb.size / BPB)
    unfold Super.dataStart
    omega
  apply View.ext
  · funext b
    simp only [view]
    by_cases hb : b < sb.size
    · have h1 : ¬sb.Data (sb.bblock b) := fun hD => absurd (sb.bblock_lt hb) (not_lt.2 hD.1)
      have h2 : sb.bmapstart ≤ sb.bblock b := le_add_left _ _
      have h3 : (sb.bblock b - sb.bmapstart) * BPB + b % BPB = b := by
        unfold Super.bblock
        rw [Nat.add_sub_cancel, Nat.mul_comm, Nat.div_add_mod]
      rw [diskOf, if_neg h1, if_pos h2, bitAt_bitsBlock (mod_BPB_lt b), h3]
      simp [hb]
    · simp [hb, h.bit b (not_lt.1 hb)]
  · funext i
    simp only [view]
    split
    · rename_i hi
      have hlt := sb.iblock_lt hi
      have h1 : ¬sb.Data (sb.iblock i) := fun hD => absurd hD.1 (by omega)
      have h2 : sb.inodestart ≤ sb.iblock i := le_add_left _ _
      have h3 : (sb.iblock i - sb.inodestart) * IPB + i % IPB = i := by
        unfold Super.iblock
        rw [Nat.add_sub_cancel, Nat.mul_comm, Nat.div_add_mod]
      rw [diskOf, if_neg h1, if_neg (by omega), if_pos h2, getDinode_inodeBlock, h3]
    · rename_i hi
      rw [h.ino i (not_lt.1 hi)]
  · funext a
    simp only [view]
    split
    · rename_i ha
      rw [diskOf, if_pos ha]
    · rename_i ha
      rw [h.data a ha]

/-! ## Files with direct blocks only -/

section
variable {sb : Super} {v : View}

theorem Consistent.of_owner (owner : Nat → Nat × Nat)
    (hown : ∀ i k, v.Alloc i → v.slot i k ≠ 0 → sb.Data (v.slot i k) ∧ v.bit (v.slot i k) = true ∧ owner (v.slot i k) = (i, k))
    (hused : ∀ b, sb.Data b → v.bit b = true → v.Alloc (owner b).1 ∧ (owner b).2 < NDIRECT ∧ v.slot (owner b).1 (owner b).2 = b)
    (hfill : ∀ i, v.Alloc i → ∀ n < nblocksOf (v.ino i).size.toNat, n < NDIRECT ∧ v.slot i n ≠ 0)
    (hbelow : ∀ b < sb.dataStart, v.bit b = true) : Consistent sb v := by
  refine ⟨⟨fun i k hi _ hs => ?_, fun i k i' k' hi hi' _ _ hs e => ?_, fun b hb hbit => ?_, fun i hi n hn => ?_⟩, hbelow⟩
  · exact ⟨(hown i k hi hs).1, (hown i k hi hs).2.1⟩
  · have h1 := (hown i k hi hs).2.2
    have h2 := (hown i' k' hi' (e ▸ hs)).2.2
    rw [e, h2] at h1
    exact ⟨(congrArg Prod.fst h1).symm, (congrArg Prod.snd h1).symm⟩
  · obtain ⟨h1, h2, h3⟩ := hused b hb hbit
    exact ⟨_, _, h1, by unfold NSLOT; omega, h3⟩
  · obtain ⟨h1, h2⟩ := hfill i hi n hn
    refine ⟨by unfold MAXFILE; omega, ?_⟩
    rw [fileSlot, if_pos h1]
    exact h2

end

/-! ## A root directory of one block -/

def rootInode (ents : List (Nat × List UInt8)) : Dinode where
  type := T_DIR
  nlink := 1
  size := UInt32.ofNat (DIRENT * ents.length)
  addrs k := if k.val = 0 then 47 else 0

def treeView (ents : List (Nat × List UInt8)) (file : Dinode) (n : Nat) : View where
  bit b := decide (b < 48)
  ino i := if i = 1 then rootInode ents else if 2 ≤ i ∧ i < n then file else {}
  data a := if a = 47 then put (fun _ => 0) 0 (ents.flatMap fun e => dirent e.1 e.2) else fun _ => 0

section
variable {ents : List (Nat × List UInt8)} {file : Dinode} {n : Nat}

theorem fits_treeView (hn : n ≤ 200) : (treeView ents file n).Fits mkfsSuper := by
  refine ⟨fun b hb => ?_, fun i hi => ?_, fun a ha => ?_⟩
  · have : 10000 ≤ b := hb
    exact decide_eq_false (by omega)
  · have : 200 ≤ i := hi
    simp only [treeView, if_neg (show i ≠ 1 by omega), if_neg (show ¬(2 ≤ i ∧ i < n) by omega)]
  · have h47 : a ≠ 47 := by
      rintro rfl
      exact ha (by decide)
    simp [treeView, h47]

theorem slot_root (k : Nat) : (treeView ents file n).slot 1 k = if k = 0 then 47 else 0 := by
  have hind : ((rootInode ents).addrs indirect).toNat = 0 := rfl
  simp only [View.slot, treeView, if_true, slotOf, hind]
  split
  · simp only [rootInode]
    split <;> rfl
  · rename_i h
    rw [if_neg (by omega)]

theorem ino_file {i : Nat} (h : 2 ≤ i ∧ i < n) : (treeView ents file n).ino i = file := by
  simp only [treeView, if_neg (show i ≠ 1 by omega), if_pos h]

theorem slot_file {i : Nat} (h : 2 ≤ i ∧ i < n) (hf : file.addrs = fun _ => 0) (k : Nat) : (treeView ents file n).slot i k = 0 := by
  rw [View.slot, ino_file h]
  simp [slotOf, hf]

theorem alloc_treeView {i : Nat} (h : (treeView ents file n).Alloc i) : i = 1 ∨ 2 ≤ i ∧ i < n := by
  by_contra hne
  obtain ⟨h1, h2⟩ := not_or.1 hne
  simp [View.Alloc, treeView, h1, h2] at h

theorem consistent_treeView (h1 : 0 < ents.length) (h2 : ents.length ≤ 64) (hf : file.addrs = fun _ => 0)
    (hs : file.size = 0) : Consistent mkfsSuper (treeView ents file n) := by
  refine Consistent.of_owner (fun _ => (1, 0)) (fun i k hi hk => ?_) (fun b hb hbit => ?_) (fun i hi m hm => ?_) fun b hb => ?_
  · rcases alloc_treeView hi with rfl | hi'
    · rw [slot_root] at hk ⊢
      split at hk
      · rename_i hk0
        subst hk0
        exact ⟨by decide, by simp [treeView], rfl⟩
      · exact absurd rfl hk
    · exact absurd (slot_file hi' hf k) hk
  · have hb' : b < 48 := of_decide_eq_true hbit
    have hb'' : 47 ≤ b := hb.1
    obtain rfl : b = 47 := by omega
    exact ⟨by simp [View.Alloc, treeView, rootInode, T_DIR], by decide, slot_root 0⟩
  · rcases alloc_treeView hi with rfl | hi'
    · have hsize : ((treeView ents file n).ino 1).size.toNat = DIRENT * ents.length := by
        simp only [treeView, if_true, rootInode]
        rw [UInt32.toNat_ofNat', mod_eq_of_lt]
        unfold DIRENT
        omega
      rw [hsize] at hm
      obtain rfl : m = 0 := by unfold nblocksOf DIRENT BSIZE at hm; omega
      exact ⟨by decide, by rw [slot_root]; decide⟩
    · rw [ino_file hi', hs] at hm
      exact absurd hm (not_lt_zero m)
  · have hb' : b < 47 := hb
    exact decide_eq_true (by omega)

/-- The state of that disk with the inode table `t`. -/
def treeState (ents : List (Nat × List UInt8)) (file : Dinode) (n : Nat) (t : Itable) (full : List Bool) : FsState :=
  ⟨diskOf mkfsSuper (treeView ents file n), t, full⟩

theorem view_treeState {t : Itable} {full : List Bool} (hn : n ≤ 200) :
    view mkfsSuper (treeState ents file n t full).blocks = treeView ents file n := view_diskOf (fits_treeView hn)

theorem good_treeState {t : Itable} {full : List Bool} (hn : n ≤ 200) (h1 : 0 < ents.length) (h2 : ents.length ≤ 64)
    (hf : file.addrs = fun _ => 0) (hs : file.size = 0) (ht : TableOk t)
    (hl : ∀ k, 0 < (t k).ref → (t k).valid = true →
      (t k).d = (treeView ents file n).ino (t k).inum ∧ (t k).d.type ≠ 0) : Good mkfsSuper (treeState ents file n t full) := by
  refine ⟨?_, ht, fun k hk => ?_, fun k hk => (hl k hk.1 hk.2).2⟩
  · rw [view_treeState hn]
    exact consistent_treeView h1 h2 hf hs
  · rw [view_treeState hn]
    exact (hl k hk.1 hk.2).1

end

end Xv6.Fs
