import Xv6.Fs.Consistent

/-!
# `balloc`, `bfree` and `bmap`

Specifications of the functions that take and free blocks, for a state whose free map has the blocks below the data
area in use. The inode a function works on is ahead of its copy on the disk, so consistency is that of the view with
the in-memory copy in its place (`cur`).
-/

namespace Xv6.Fs

open Bytes Prog View Nat

def NotFreeing (m : String) : Prop := m ≠ "freeing free block"

section
variable {sb : Super} {s s' : FsState} {b i ip : Nat} {X : String → Prop}

/-! ## `balloc` -/

theorem bblock_add {q bi : Nat} (h : bi < BPB) : sb.bblock (q * BPB + bi) = sb.bblock (q * BPB) := by
  unfold Super.bblock
  rw [Nat.add_comm (q * BPB), Nat.add_mul_div_right _ _ (by decide), Nat.div_eq_of_lt h, Nat.mul_div_cancel _ (by decide),
    zero_add]

theorem add_mod_BPB {q bi : Nat} (h : bi < BPB) : (q * BPB + bi) % BPB = bi := by
  rw [add_comm, add_mul_mod_self_right, mod_eq_of_lt h]

/-- The blocks after `balloc` has taken `b`. -/
def takeBlocks (sb : Super) (blocks : Nat → Block) (b : Nat) : Nat → Block :=
  Function.update (Function.update blocks (sb.bblock b) (setBit (blocks (sb.bblock b)) (b % BPB))) b fun _ => 0

def BallocPost (sb : Super) (s : FsState) (r : Nat) (s' : FsState) : Prop :=
  s'.itable = s.itable ∧
    (r = 0 ∧ s'.blocks = s.blocks ∨
      r < sb.size ∧ (view sb s.blocks).bit r = false ∧ s'.blocks = takeBlocks sb s.blocks r)

theorem ballocFrom_spec {qs : List Nat} : Sat seq (ballocFrom sb (qs.map (· * BPB))) s (BallocPost sb s) X := by
  induction qs with
  | nil =>
    exact ⟨rfl, .inl ⟨rfl, rfl⟩⟩
  | cons q qs ih =>
    simp only [List.map_cons, ballocFrom, sat_bind, sat_bread]
    cases hf : freeBit sb (q * BPB) (s.blocks (sb.bblock (q * BPB))) with
    | none =>
      exact ih
    | some bi =>
      unfold freeBit at hf
      have hsome := List.find?_some hf
      have hbi : bi < BPB := List.mem_range.1 (List.mem_of_find?_eq_some hf)
      simp only [Bool.and_eq_true, decide_eq_true_eq, Bool.not_eq_true'] at hsome
      refine ⟨rfl, .inr ⟨hsome.1, ?_, ?_⟩⟩
      · rw [view_bit_eq hsome.1, bblock_add hbi, add_mod_BPB hbi]
        exact hsome.2
      · simp only [takeBlocks, bblock_add hbi, add_mod_BPB hbi]

theorem balloc_spec : Sat seq (balloc sb) s (BallocPost sb s) X := by
  unfold balloc
  rw [sat_bind, sat_perform]
  simp only [seq]
  split
  · exact ⟨rfl, .inl ⟨rfl, rfl⟩⟩
  · exact ballocFrom_spec

theorem view_takeBlocks {blocks : Nat → Block} (hb : sb.Data b) :
    view sb (takeBlocks sb blocks b) = (view sb blocks).take b := by
  unfold takeBlocks
  rw [view_data hb, view_setBit hb.2]
  rfl

theorem Consistent.data_of_free {v : View} (h : Consistent sb v) (hb : b < sb.size) (hf : v.bit b = false) :
    sb.Data b := by
  refine ⟨?_, hb⟩
  by_contra hlt
  have := h.below b (by omega)
  rw [hf] at this
  cases this

/-! ## `bfree` -/

theorem bfree_spec {Q : Unit → FsState → Prop} (hb : b < sb.size) (hbit : (view sb s.blocks).bit b = true)
    (hQ : ∀ blocks, view sb blocks = { view sb s.blocks with bit := Function.update (view sb s.blocks).bit b false } →
      Q () { s with blocks := blocks }) : Sat seq (bfree sb b) s Q X := by
  rw [view_bit_eq hb] at hbit
  simp only [bfree, sat_bind, sat_bread, hbit, Bool.not_true, Bool.false_eq_true, if_false, sat_commitBuf]
  exact hQ _ (view_clearBit hb)

/-! ## `bmap` -/

/-- The view with the in-memory copy of an inode in place of its copy on the disk. -/
def cur (sb : Super) (s : FsState) (ip : Nat) : View := (view sb s.blocks).setIno (s.itable ip).inum (s.itable ip).d

@[simp] theorem cur_ino_self : (cur sb s ip).ino (s.itable ip).inum = (s.itable ip).d := setIno_ino_self _ _ _

structure Grows (sb : Super) (ip : Nat) (s s' : FsState) : Prop where
  cons : Consistent sb (cur sb s' ip)
  ino : (view sb s'.blocks).ino = (view sb s.blocks).ino
  other : ∀ k, k ≠ ip → s'.itable k = s.itable k
  self : s'.itable ip = { s.itable ip with d := { (s.itable ip).d with addrs := (s'.itable ip).d.addrs } }
  same : ∀ j, (cur sb s ip).Alloc j → (cur sb s ip).Same (cur sb s' ip) j

theorem Grows.refl (h : Consistent sb (cur sb s ip)) : Grows sb ip s s :=
  ⟨h, rfl, fun _ _ => rfl, rfl, fun j _ => View.Same.refl _ j⟩

theorem Grows.of_eq (h : Consistent sb (cur sb s ip)) (hb : s'.blocks = s.blocks) (ht : s'.itable = s.itable) :
    Grows sb ip s s' := by
  have e : cur sb s' ip = cur sb s ip := by unfold cur; rw [hb, ht]
  exact ⟨e ▸ h, by rw [hb], fun _ _ => by rw [ht], by rw [ht], fun j _ => e ▸ View.Same.refl _ j⟩

theorem Grows.alloc (h : Grows sb ip s s') {j : Nat} : (cur sb s' ip).Alloc j ↔ (cur sb s ip).Alloc j := by
  have hi : (s'.itable ip).inum = (s.itable ip).inum := by rw [h.self]
  have ht : (s'.itable ip).d.type = (s.itable ip).d.type := by rw [h.self]
  unfold View.Alloc cur setIno
  rw [hi, h.ino]
  by_cases e : j = (s.itable ip).inum
  · subst e; simp [ht]
  · simp [e]

theorem Grows.trans {s'' : FsState} (h : Grows sb ip s s') (h' : Grows sb ip s' s'') : Grows sb ip s s'' where
  cons := h'.cons
  ino := h'.ino.trans h.ino
  other k hk := (h'.other k hk).trans (h.other k hk)
  self := by rw [h'.self, h.self]
  same j hj := (h.same j hj).trans (h'.same j (h.alloc.2 hj))

theorem cur_setAddr {k : Fin (NDIRECT + 1)} {f : List Bool} (hD : sb.Data b) :
    cur sb (FsState.setI ⟨takeBlocks sb s.blocks b, s.itable, f⟩ ip fun t => { t with d := t.d.setAddr k b }) ip
      = ((cur sb s ip).take b).setIno (s.itable ip).inum (((cur sb s ip).ino (s.itable ip).inum).setAddr k b) := by
  unfold cur
  simp only [setI_self, setI_blocks, view_takeBlocks hD, setIno_ino_self]
  simp [setIno, take]

structure MapPost (sb : Super) (ip : Nat) (k : Fin (NDIRECT + 1)) (s : FsState) (r : Nat) (s' : FsState) : Prop where
  grows : Grows sb ip s s'
  /-- A block that was there is found without any change. -/
  found : (s.itable ip).d.addrs k ≠ 0 → s' = s
  addr : r ≠ 0 → ((s'.itable ip).d.addrs k).toNat = r
  none : r = 0 → (s'.itable ip).d.addrs k = 0

theorem mapAddr_spec {k : Fin (NDIRECT + 1)} (h : Consistent sb (cur sb s ip)) (ht : (s.itable ip).d.type ≠ 0) :
    Sat seq (mapAddr sb ip k) s (MapPost sb ip k s) X := by
  have hi : (cur sb s ip).Alloc (s.itable ip).inum := by unfold View.Alloc; rw [cur_ino_self]; exact ht
  simp only [mapAddr, sat_bind, sat_iat]
  by_cases h0 : (s.itable ip).d.addrs k = 0
  · simp only [h0, UInt32.toNat_zero, if_true, sat_bind]
    refine balloc_spec.mono ?_
    rintro r s1 ⟨htab, ⟨rfl, hblk⟩ | ⟨hr, hbit, hblk⟩⟩
    · refine ⟨Grows.of_eq h hblk htab, fun hne => absurd h0 hne, fun hne => absurd rfl hne, fun _ => by rw [htab]; exact h0⟩
    have hD := h.data_of_free hr hbit
    have hr0 : r ≠ 0 := ne_of_gt hD.pos
    have hs1 : s1 = ⟨takeBlocks sb s.blocks r, s.itable, s1.full⟩ := by rw [← htab, ← hblk]
    have h0' : ((cur sb s ip).ino (s.itable ip).inum).addrs k = 0 := by rw [cur_ino_self]; exact h0
    simp only [hr0, if_false, sat_bind, sat_iset, sat_pure]
    rw [hs1]
    refine ⟨⟨?_, ?_, fun j hj => ?_, ?_, fun j hj => ?_⟩, fun hne => absurd h0 hne, fun _ => ?_, fun e => absurd e hr0⟩
    · rw [cur_setAddr hD]
      exact h.fill_addr hi hD hbit h0'
    · rw [setI_blocks, view_takeBlocks hD]; rfl
    · rw [setI_ne _ hj]
    · rw [setI_self]; rfl
    · rw [cur_setAddr hD]
      exact h.same_addr hi hj hD hbit h0'
    · simp [Dinode.setAddr, toNat_ofNat_data hD]
  · have hn : ((s.itable ip).d.addrs k).toNat ≠ 0 := fun e => h0 (UInt32.toNat_inj.1 (by simpa using e))
    simp only [hn, if_false, sat_pure]
    exact ⟨Grows.refl h, fun _ => rfl, fun _ => rfl, fun e => absurd e hn⟩

/-- The number of the block in slot `k` of the in-memory inode `ip`. -/
def FsState.slot (sb : Super) (s : FsState) (ip k : Nat) : Nat := (cur sb s ip).slot (s.itable ip).inum k

theorem slot_eq {k : Nat} : s.slot sb ip k = slotOf (view sb s.blocks).data (s.itable ip).d k := by
  unfold FsState.slot slot
  rw [cur_ino_self]
  rfl

structure BmapPost (sb : Super) (ip bn : Nat) (s : FsState) (r : Nat) (s' : FsState) : Prop where
  grows : Grows sb ip s s'
  /-- A block that is mapped is found without any change. -/
  found : s.slot sb ip (fileSlot bn) ≠ 0 → s' = s
  addr : s'.slot sb ip (fileSlot bn) = r

theorem slot_direct {bn : Nat} (h : bn < NDIRECT) :
    s.slot sb ip (fileSlot bn) = ((s.itable ip).d.addrs ⟨bn, lt_succ_of_lt h⟩).toNat := by
  rw [slot_eq, fileSlot, if_pos h, slotOf, dif_pos (by omega)]

theorem slot_entry {bn : Nat} (h : ¬ bn < NDIRECT) : s.slot sb ip (fileSlot bn) =
    if ((s.itable ip).d.addrs indirect).toNat = 0 then 0
    else getEnt ((view sb s.blocks).data ((s.itable ip).d.addrs indirect).toNat) (bn - NDIRECT) := by
  rw [slot_eq, fileSlot, if_neg h, slotOf, dif_neg (by omega), Nat.add_sub_add_right]

theorem data_of_slot {k : Nat} (h : Consistent sb (cur sb s ip)) (ht : (s.itable ip).d.type ≠ 0) (hk : k < NSLOT)
    (hs : s.slot sb ip k ≠ 0) : sb.Data (s.slot sb ip k) := by
  refine (h.mapped _ k ?_ hk hs).1
  unfold View.Alloc
  rw [cur_ino_self]
  exact ht

theorem cur_setEnt {a j : Nat} {f : List Bool} (hD : sb.Data b) (ha : sb.Data a) (hab : a ≠ b) :
    cur sb ⟨Function.update (takeBlocks sb s.blocks b) a (putEnt (s.blocks a) j b), s.itable, f⟩ ip
      = ((cur sb s ip).take b).setEnt a j b := by
  unfold cur
  rw [view_data ha, view_takeBlocks hD]
  unfold setEnt take setIno
  simp only [Function.update_of_ne hab, view_data_eq ha]

structure EntryPost (sb : Super) (ip a j : Nat) (s : FsState) (r : Nat) (s' : FsState) : Prop where
  grows : Grows sb ip s s'
  itable : s'.itable = s.itable
  found : getEnt (s.blocks a) j ≠ 0 → s' = s
  entry : getEnt (s'.blocks a) j = r

theorem mapEntry_spec {a j : Nat} (h : Consistent sb (cur sb s ip)) (hi : (cur sb s ip).Alloc (s.itable ip).inum)
    (ha : ((s.itable ip).d.addrs indirect).toNat = a) (ha0 : a ≠ 0) (hj : j < NINDIRECT) :
    Sat seq (mapEntry sb a j) s (EntryPost sb ip a j s) X := by
  have ha' : (((cur sb s ip).ino (s.itable ip).inum).addrs indirect).toNat = a := by rw [cur_ino_self]; exact ha
  have haD : sb.Data a := by
    have e : (cur sb s ip).slot (s.itable ip).inum NDIRECT = a := by rw [slot, slotOf_indirect, ha']
    exact e ▸ (h.mapped _ NDIRECT hi indirect_lt_NSLOT (e ▸ ha0)).1
  simp only [mapEntry, sat_bind, sat_bread]
  by_cases h0 : getEnt (s.blocks a) j = 0
  · simp only [h0, if_true, sat_bind]
    refine balloc_spec.mono ?_
    rintro r s1 ⟨htab, ⟨rfl, hblk⟩ | ⟨hr, hbit, hblk⟩⟩
    · exact ⟨Grows.of_eq h hblk htab, htab, fun hne => absurd h0 hne, by rw [hblk]; exact h0⟩
    have hD := h.data_of_free hr hbit
    have hr0 : r ≠ 0 := ne_of_gt hD.pos
    have hr32 : r < 2 ^ 32 := by have := sb.size_lt; omega
    have hab : a ≠ r := ha' ▸ h.indirect_ne hD hbit hi
    have hs1 : s1 = ⟨takeBlocks sb s.blocks r, s.itable, s1.full⟩ := by rw [← htab, ← hblk]
    have h0' : getEnt ((cur sb s ip).data a) j = 0 := by
      change getEnt ((view sb s.blocks).data a) j = 0
      rw [view_data_eq haD]; exact h0
    simp only [ne_eq, hr0, not_false_eq_true, if_true, sat_bind, sat_store, sat_logWrite, sat_brelse, sat_pure]
    rw [hs1]
    refine ⟨⟨?_, ?_, fun _ _ => rfl, rfl, fun k hk => ?_⟩, rfl, fun hne => absurd h0 hne, ?_⟩
    · rw [cur_setEnt hD haD hab]
      exact h.fill_ent hi hD hbit ha' ha0 hj h0'
    · dsimp only
      rw [view_data haD, view_takeBlocks hD]; rfl
    · rw [cur_setEnt hD haD hab]
      exact h.same_ent hi hD hbit ha' ha0 hj hk h0'
    · dsimp only
      rw [Function.update_self, getEnt_putEnt hj hr32, if_pos rfl]
  · simp only [h0, if_false, sat_bind, sat_brelse, sat_pure]
    exact ⟨Grows.refl h, rfl, fun _ => rfl, rfl⟩

theorem bmap_spec {bn : Nat} (h : Consistent sb (cur sb s ip)) (ht : (s.itable ip).d.type ≠ 0)
    (hX : MAXFILE ≤ bn → X "bmap: out of range") : Sat seq (bmap sb ip bn) s (BmapPost sb ip bn s) X := by
  unfold bmap
  by_cases hbn : bn < NDIRECT
  · simp only [hbn, dite_true]
    refine (mapAddr_spec h ht).mono ?_
    intro r s' m
    refine ⟨m.grows, fun hs => m.found fun e => ?_, ?_⟩
    · rw [slot_direct hbn, e] at hs
      exact hs rfl
    · rw [slot_direct hbn]
      by_cases hr : r = 0
      · rw [m.none hr, hr]; rfl
      · exact m.addr hr
  · simp only [hbn, dite_false]
    by_cases hin : bn - NDIRECT < NINDIRECT
    · simp only [hin, if_true, sat_bind]
      refine (mapAddr_spec h ht).mono ?_
      intro a s1 m
      -- a mapped entry needs an indirect block
      have hfound : s.slot sb ip (fileSlot bn) ≠ 0 → s1 = s := by
        intro hs
        refine m.found fun e => ?_
        rw [slot_entry hbn, e] at hs
        exact hs rfl
      by_cases ha0 : a = 0
      · simp only [ha0, if_true, sat_pure]
        refine ⟨m.grows, hfound, ?_⟩
        rw [slot_entry hbn, m.none ha0]; rfl
      · have ha := m.addr ha0
        have hi1 : (cur sb s1 ip).Alloc (s1.itable ip).inum := by
          unfold View.Alloc
          rw [cur_ino_self, m.grows.self]
          exact ht
        simp only [ha0, if_false]
        refine (mapEntry_spec m.grows.cons hi1 ha ha0 hin).mono ?_
        intro r s' e
        have haD : sb.Data a := by
          have e : s1.slot sb ip NDIRECT = a := by rw [slot_eq, slotOf_indirect, ha]
          exact e ▸ (m.grows.cons.mapped _ NDIRECT hi1 indirect_lt_NSLOT (by rw [← FsState.slot, e]; exact ha0)).1
        have hslot : ∀ t : FsState, t.itable = s1.itable → t.slot sb ip (fileSlot bn) = getEnt (t.blocks a) (bn - NDIRECT) := by
          intro t ht
          rw [slot_entry hbn, ht, ha, if_neg ha0, view_data_eq haD]
        refine ⟨m.grows.trans e.grows, fun hs => ?_, ?_⟩
        · have e1 := hfound hs
          subst e1
          exact e.found (by rw [← hslot s1 rfl]; exact hs)
        · rw [hslot s' e.itable, e.entry]
    · simp only [hin, if_false, sat_panic]
      exact hX (by unfold MAXFILE; omega)

end

end Xv6.Fs
