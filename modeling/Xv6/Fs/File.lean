import Xv6.Fs.Inode

/-!
# `readi` and `writei`

A file is read and written through its slots. `readi` finds every block it needs and changes nothing; `writei` may map
new blocks, stores into the blocks of its own file only, and leaves the blocks below the new size mapped.
-/

namespace Xv6.Fs

open Bytes Prog List UInt32 View FsState Nat
open Function (update update_self update_of_ne update_eq_self)

/-- Byte `o` of the contents of inode `i`. -/
def View.byte (v : View) (i o : Nat) : UInt8 := byteAt (v.data (v.slot i (fileSlot (o / BSIZE)))) (o % BSIZE)

def View.Mapped (v : View) (i o : Nat) : Prop := o / BSIZE < MAXFILE ∧ v.slot i (fileSlot (o / BSIZE)) ≠ 0

/-- The view after the data block `a` has been written. -/
def View.setData (v : View) (a : Nat) (x : Block) : View := { v with data := update v.data a x }

section
variable {sb : Super} {v v' : View} {i j o a : Nat} {x : Block}

theorem setData_data_self : (v.setData a x).data a = x := update_self _ _ _

theorem setData_data_ne {b : Nat} (h : b ≠ a) : (v.setData a x).data b = v.data b := update_of_ne h _ _

theorem lt_nblocksOf {size : Nat} (h : o < size) : o / BSIZE < nblocksOf size := by
  unfold nblocksOf BSIZE
  omega

theorem Consistent.mapped_of_lt (h : Consistent sb v) (hi : v.Alloc i) (ho : o < (v.ino i).size.toNat) : v.Mapped i o :=
  h.filled i hi _ (lt_nblocksOf ho)

theorem View.Same.byte (h : v.Same v' i) (ho : v.Mapped i o) : v'.byte i o = v.byte i o := by
  obtain ⟨h1, h2⟩ := h _ ho.1 ho.2
  unfold View.byte
  rw [h1, h2]

theorem View.Same.mapped (h : v.Same v' i) (ho : v.Mapped i o) : v'.Mapped i o := by
  obtain ⟨h1, -⟩ := h _ ho.1 ho.2
  exact ⟨ho.1, by rw [h1]; exact ho.2⟩

section
variable {n : Nat} (h : Consistent sb v) (hi : v.Alloc i) (hn : n < MAXFILE) (ha : v.slot i (fileSlot n) = a) (ha0 : a ≠ 0)

include h hi hn ha ha0

theorem Consistent.slot_setData {k : Nat} (hj : v.Alloc j) : (v.setData a x).slot j k = v.slot j k := by
  refine slotOf_congr fun h0 => ?_
  refine update_of_ne (fun e => fileSlot_ne_indirect n ?_) _ _
  refine (h.once i (fileSlot n) j NDIRECT hi hj (fileSlot_lt hn) indirect_lt_NSLOT (ha ▸ ha0) ?_).2
  rw [ha, View.slot, slotOf_indirect]
  exact e.symm

theorem Consistent.setData : Consistent sb (v.setData a x) := by
  have hslot : ∀ j k, v.Alloc j → (v.setData a x).slot j k = v.slot j k :=
    fun j k hj => h.slot_setData hi hn ha ha0 hj
  refine ⟨⟨fun j k hj hk hs => ?_, fun j k j' k' hj hj' hk hk' hs he => ?_, fun b hb hbit => ?_, fun j hj m hm => ?_⟩,
    h.below⟩
  · rw [hslot j k hj] at hs ⊢
    exact h.mapped j k hj hk hs
  · rw [hslot j k hj] at hs he
    rw [hslot j' k' hj'] at he
    exact h.once j k j' k' hj hj' hk hk' hs he
  · obtain ⟨j, k, hj, hk, e⟩ := h.used b hb hbit
    exact ⟨j, k, hj, hk, by rw [hslot j k hj]; exact e⟩
  · obtain ⟨h1, h2⟩ := h.filled j hj m hm
    refine ⟨h1, ?_⟩
    change (v.setData a x).slot j _ ≠ 0
    rw [hslot j _ hj]
    exact h2

theorem Consistent.same_setData (hj : v.Alloc j) (hne : j ≠ i) : v.Same (v.setData a x) j := by
  intro m hm hs
  refine ⟨h.slot_setData hi hn ha ha0 hj, update_of_ne (fun e => hne ?_) _ _⟩
  exact (h.once j (fileSlot m) i (fileSlot n) hj hi (fileSlot_lt hm) (fileSlot_lt hn) hs (e.trans ha.symm)).1

theorem Consistent.byte_setData (ho : v.Mapped i o) :
    (v.setData a x).byte i o = if o / BSIZE = n then byteAt x (o % BSIZE) else v.byte i o := by
  unfold byte
  rw [h.slot_setData hi hn ha ha0 hi]
  split
  · rename_i e
    rw [e, ha, setData_data_self]
  · rename_i e
    rw [setData_data_ne]
    intro e'
    refine e (fileSlot_inj ?_)
    exact (h.once i _ i _ hi hi (fileSlot_lt ho.1) (fileSlot_lt hn) ho.2 (e'.trans ha.symm)).2

end

end

section
variable {sb : Super} {s s' : FsState} {ip : Nat} {X : String → Prop}

def FsState.byte (sb : Super) (s : FsState) (ip o : Nat) : UInt8 := (cur sb s ip).byte (s.itable ip).inum o

theorem cur_alloc (ht : (s.itable ip).d.type ≠ 0) : (cur sb s ip).Alloc (s.itable ip).inum := by
  unfold View.Alloc
  rw [cur_ino_self]
  exact ht

/-! ## `readi` -/

theorem bytesAt_slot {off m : Nat} (hD : sb.Data (s.slot sb ip (fileSlot (off / BSIZE)))) (hm : off % BSIZE + m ≤ BSIZE) :
    bytesAt (s.blocks (s.slot sb ip (fileSlot (off / BSIZE)))) (off % BSIZE) m
      = (range m).map fun k => s.byte sb ip (off + k) := by
  unfold bytesAt
  refine map_congr_left fun k hk => ?_
  have hk : k < m := mem_range.1 hk
  have h1 : (off + k) / BSIZE = off / BSIZE := by unfold BSIZE at *; omega
  have h2 : (off + k) % BSIZE = off % BSIZE + k := by unfold BSIZE at *; omega
  have hx : (view sb s.blocks).data _ = s.blocks _ := view_data_eq hD
  rw [FsState.byte, View.byte, h1, h2, ← hx]
  rfl

theorem readLoop_spec {co : Nat → List UInt8 → Bool} {n fuel tot off : Nat} {acc : List UInt8}
    (h : Consistent sb (cur sb s ip)) (ht : (s.itable ip).d.type ≠ 0)
    (hsize : off + (n - tot) ≤ (s.itable ip).d.size.toNat) (htot : tot ≤ n) (hfuel : n - tot ≤ fuel) :
    Sat seq (readLoop sb ip co n fuel tot off acc) s
      (fun r s' => s' = s ∧ ((∀ t bs, co t bs = true) → r.1 = some n) ∧
        ∀ t, r.1 = some t → t = n ∧ r.2 = acc ++ (range (n - tot)).map fun k => s.byte sb ip (off + k)) X := by
  induction fuel generalizing tot off acc with
  | zero =>
    obtain rfl : n = tot := by omega
    simp [readLoop]
  | succ fuel ih =>
    unfold readLoop
    by_cases hlt : tot < n
    · simp only [hlt, if_true, sat_bind]
      have hmap := h.mapped_of_lt (cur_alloc ht) (o := off) (by rw [cur_ino_self]; omega)
      refine (bmap_spec h ht fun hge => absurd hmap.1 (by omega)).mono ?_
      intro r s1 b
      obtain rfl := b.found hmap.2
      obtain rfl := b.addr
      have hD := data_of_slot h ht (fileSlot_lt hmap.1) hmap.2
      have hne : s1.slot sb ip (fileSlot (off / BSIZE)) ≠ 0 := hmap.2
      simp only [hne, if_false, sat_bind, sat_bread, sat_brelse]
      generalize hm : min (n - tot) (BSIZE - off % BSIZE) = m
      have hm1 : off % BSIZE + m ≤ BSIZE := by
        have : off % BSIZE < BSIZE := mod_lt _ (by decide)
        omega
      have hm2 : 0 < m := by
        have : off % BSIZE < BSIZE := mod_lt _ (by decide)
        omega
      rw [bytesAt_slot hD hm1]
      by_cases hc : co tot ((range m).map fun k => s1.byte sb ip (off + k)) = true
      · simp only [hc, if_true]
        refine (ih (by omega) (by omega) (by omega)).mono ?_
        rintro r s' ⟨rfl, hok, hr⟩
        refine ⟨rfl, hok, fun t e => ⟨(hr t e).1, ?_⟩⟩
        have hsplit : n - tot = m + (n - (tot + m)) := by omega
        rw [(hr t e).2, hsplit, range_add, map_append, map_map, append_assoc]
        simp only [Function.comp_def, add_assoc]
      · simp only [hc, Bool.false_eq_true, if_false, sat_pure]
        exact ⟨trivial, fun hall => absurd (hall _ _) hc, fun t e => by cases e⟩
    · simp only [hlt, if_false, sat_pure]
      obtain rfl : n = tot := by omega
      simp

theorem toNat_add_of_not_lt {off n : UInt32} (h : ¬off + n < off) : (off + n).toNat = off.toNat + n.toNat := by
  rw [UInt32.lt_iff_toNat_lt, UInt32.toNat_add] at h
  rw [UInt32.toNat_add]
  have := off.toNat_lt
  have := n.toNat_lt
  omega

/-- How many bytes `readi` delivers. -/
def readLen (size off n : UInt32) : Nat :=
  if off > size ∨ off + n < off then 0 else min n.toNat (size.toNat - off.toNat)

section
variable {size off n : UInt32} (h : ¬(off > size ∨ off + n < off))
include h

theorem readLen_le : off.toNat + readLen size off n ≤ size.toNat := by
  have hle := UInt32.le_iff_toNat_le.1 (UInt32.not_lt.1 (not_or.1 h).1)
  rw [readLen, if_neg h]
  omega

theorem toNat_clamped : (if off + n > size then size - off else n).toNat = readLen size off n := by
  obtain ⟨hle, hov⟩ := not_or.1 h
  have hadd := toNat_add_of_not_lt hov
  have hle' := UInt32.le_iff_toNat_le.1 (UInt32.not_lt.1 hle)
  rw [readLen, if_neg h]
  split
  case isTrue hgt =>
    rw [UInt32.toNat_sub_of_le _ _ (UInt32.le_iff_toNat_le.2 hle')]
    have := lt_iff_toNat_lt.1 hgt
    omega
  case isFalse hgt =>
    have := UInt32.le_iff_toNat_le.1 (UInt32.not_lt.1 hgt)
    omega

end

structure ReadPost (sb : Super) (ip : Nat) (co : Nat → List UInt8 → Bool) (off n : UInt32) (s : FsState)
    (r : Option Nat × List UInt8) (s' : FsState) : Prop where
  state : s' = s
  ok : (∀ t bs, co t bs = true) → r.1 = some (readLen (s.itable ip).d.size off n)
  some : ∀ t, r.1 = some t → t = readLen (s.itable ip).d.size off n ∧
    r.2 = (range t).map fun k => s.byte sb ip (off.toNat + k)

theorem readi_spec {co : Nat → List UInt8 → Bool} {off n : UInt32} (h : Consistent sb (cur sb s ip))
    (ht : (s.itable ip).d.type ≠ 0) : Sat seq (readi sb ip co off n) s (ReadPost sb ip co off n s) X := by
  simp only [readi, sat_bind, sat_iat]
  generalize hsz : (s.itable ip).d.size = size
  by_cases hbad : off > size ∨ off + n < off
  · simp only [hbad, if_true, sat_pure]
    have h0 : readLen (s.itable ip).d.size off n = 0 := by rw [hsz, readLen, if_pos hbad]
    refine ⟨rfl, fun _ => by rw [h0], fun t e => ?_⟩
    obtain rfl : 0 = t := by simpa using e
    exact ⟨h0.symm, rfl⟩
  · simp only [hbad, if_false]
    have hle := readLen_le hbad
    rw [toNat_clamped hbad]
    refine (readLoop_spec h ht (by rw [hsz]; omega) (zero_le _) (by omega)).mono ?_
    rintro r s' ⟨rfl, hok, hr⟩
    rw [← hsz] at hok hr
    refine ⟨rfl, hok, fun t e => ?_⟩
    obtain ⟨h1, h2⟩ := hr t e
    exact ⟨h1, by rw [h2, h1]; rfl⟩

/-! ## `writei` -/

structure Wrote (sb : Super) (ip : Nat) (s s' : FsState) (lo hi : Nat) : Prop where
  held : Held sb s' ip
  ino : (view sb s'.blocks).ino = (view sb s.blocks).ino
  other : ∀ k, k ≠ ip → s'.itable k = s.itable k
  self : s'.itable ip = { s.itable ip with d := { (s.itable ip).d with addrs := (s'.itable ip).d.addrs } }
  same : ∀ j, j ≠ (s.itable ip).inum → (cur sb s ip).Alloc j → (cur sb s ip).Same (cur sb s' ip) j
  mapped : ∀ o, (cur sb s ip).Mapped (s.itable ip).inum o → (cur sb s' ip).Mapped (s.itable ip).inum o
  keep : ∀ o, (cur sb s ip).Mapped (s.itable ip).inum o → o < lo ∨ hi ≤ o → s'.byte sb ip o = s.byte sb ip o

section
variable {lo hi lo' hi' : Nat}

theorem Wrote.inum (h : Wrote sb ip s s' lo hi) : (s'.itable ip).inum = (s.itable ip).inum := by rw [h.self]

theorem Wrote.mono (h : Wrote sb ip s s' lo hi) (hlo : lo' ≤ lo) (hhi : hi ≤ hi') : Wrote sb ip s s' lo' hi' :=
  { h with keep := fun o ho hr => h.keep o ho (by omega) }

theorem Held.wrote (h : Held sb s ip) : Wrote sb ip s s lo hi :=
  ⟨h, rfl, fun _ _ => rfl, rfl, fun j _ _ => View.Same.refl _ j, fun _ ho => ho, fun _ _ _ => rfl⟩

theorem Grows.wrote (h : Grows sb ip s s') (hh : Held sb s ip) : Wrote sb ip s s' lo hi where
  held := hh.grows h
  ino := h.ino
  other := h.other
  self := h.self
  same j _ hj := h.same j hj
  mapped _ ho := (h.same _ (cur_alloc (hh.alloc ip hh.live))).mapped ho
  keep o ho _ := by
    have hi : (s'.itable ip).inum = (s.itable ip).inum := by rw [h.self]
    rw [FsState.byte, hi]
    exact (h.same _ (cur_alloc (hh.alloc ip hh.live))).byte ho

theorem Wrote.alloc (h : Wrote sb ip s s' lo hi) {j : Nat} : (cur sb s' ip).Alloc j ↔ (cur sb s ip).Alloc j := by
  unfold View.Alloc
  by_cases e : j = (s.itable ip).inum
  · subst e
    rw [cur_ino_self, ← h.inum, cur_ino_self, h.self]
  · unfold cur
    rw [setIno_ino_ne _ _ e, setIno_ino_ne _ _ (by rw [h.inum]; exact e), h.ino]

theorem Wrote.trans {s'' : FsState} (h : Wrote sb ip s s' lo hi) (h' : Wrote sb ip s' s'' lo hi) : Wrote sb ip s s'' lo hi where
  held := h'.held
  ino := h'.ino.trans h.ino
  other k hk := (h'.other k hk).trans (h.other k hk)
  self := by rw [h'.self, h.self]
  same j hj ha := (h.same j hj ha).trans (h'.same j (by rw [h.inum]; exact hj) (h.alloc.2 ha))
  mapped o ho := h.inum ▸ h'.mapped o (h.inum.symm ▸ h.mapped o ho)
  keep o ho hr := (h'.keep o (h.inum.symm ▸ h.mapped o ho) hr).trans (h.keep o ho hr)

end

/-- The state after a store into the data block `a`. -/
def FsState.setBlock (s : FsState) (a : Nat) (x : Block) : FsState := { s with blocks := update s.blocks a x }

theorem cur_setBlock {a : Nat} {x : Block} (hD : sb.Data a) : cur sb (s.setBlock a x) ip = (cur sb s ip).setData a x := by
  unfold cur setBlock
  rw [view_data hD]
  rfl

section
variable {off m a : Nat} {bs : List UInt8} (h : Held sb s ip) (hn : off / BSIZE < MAXFILE)
  (ha : s.slot sb ip (fileSlot (off / BSIZE)) = a) (ha0 : a ≠ 0)

include h hn ha ha0

theorem Held.byte_store {o : Nat} (ho : (cur sb s ip).Mapped (s.itable ip).inum o) :
    (s.setBlock a (put (s.blocks a) (off % BSIZE) bs)).byte sb ip o =
      if o / BSIZE = off / BSIZE then byteAt (put (s.blocks a) (off % BSIZE) bs) (o % BSIZE) else s.byte sb ip o := by
  have hi : (cur sb s ip).Alloc (s.itable ip).inum := cur_alloc (h.alloc ip h.live)
  have hD : sb.Data a := ha ▸ data_of_slot h.cons (h.alloc ip h.live) (fileSlot_lt hn) (ha ▸ ha0)
  unfold FsState.byte
  rw [cur_setBlock hD]
  exact h.cons.byte_setData hi hn ha ha0 ho

theorem Held.store (hbs : bs.length ≤ m) (hm : off % BSIZE + m ≤ BSIZE) :
    Wrote sb ip s (s.setBlock a (put (s.blocks a) (off % BSIZE) bs)) off (off + m) := by
  have hi : (cur sb s ip).Alloc (s.itable ip).inum := cur_alloc (h.alloc ip h.live)
  have hD : sb.Data a := ha ▸ data_of_slot h.cons (h.alloc ip h.live) (fileSlot_lt hn) (ha ▸ ha0)
  have hcur : cur sb (s.setBlock a (put (s.blocks a) (off % BSIZE) bs)) ip = _ := cur_setBlock hD
  have hino : (view sb (s.setBlock a (put (s.blocks a) (off % BSIZE) bs)).blocks).ino = (view sb s.blocks).ino := by
    rw [setBlock, view_data hD]
  refine ⟨h.change ?_ hino ?_ (h.alloc ip h.live), hino, fun _ _ => rfl, rfl, fun j hj hja => ?_,
    fun o ho => ?_, fun o ho hr => ?_⟩
  · rw [hcur]
    exact h.cons.setData hi hn ha ha0
  · simp [setBlock]
  · rw [hcur]
    exact h.cons.same_setData hi hn ha ha0 hja hj
  · rw [hcur]
    exact ⟨ho.1, by rw [h.cons.slot_setData hi hn ha ha0 hi]; exact ho.2⟩
  rw [h.byte_store hn ha ha0 ho]
  split
  · rename_i e
    rw [byteAt_put_out _ (by unfold BSIZE at *; omega), FsState.byte, View.byte, e]
    change _ = byteAt ((view sb s.blocks).data (s.slot sb ip (fileSlot (off / BSIZE)))) _
    rw [ha, view_data_eq hD]
  · rfl

end

structure LoopPost (sb : Super) (ip : Nat) (cp : Src) (n tot off : Nat) (s : FsState) (r : Nat × Nat) (s' : FsState) :
    Prop where
  le : tot ≤ r.1 ∧ r.1 ≤ n
  off_eq : r.2 = off + (r.1 - tot)
  wrote : Wrote sb ip s s' off (off + (n - tot))
  exact : ∀ off0, off = off0 + tot → (tot < n → tot = 0 ∨ off % BSIZE = 0) → Whole cp off0 n → Wrote sb ip s s' off r.2
  filled : ∀ o, off ≤ o → o < r.2 → (cur sb s' ip).Mapped (s.itable ip).inum o
  bytes : ∀ src, cp = kernelSrc src → ∀ o, off ≤ o → o < r.2 → s'.byte sb ip o = src (tot + (o - off))
  /-- The loop stops early only at the end of a block. -/
  stop : r.1 = n ∨ r.1 = tot ∨ r.2 % BSIZE = 0

theorem Held.loopEnd {cp : Src} {n tot off : Nat} (h : Held sb s ip) (htot : tot ≤ n) :
    LoopPost sb ip cp n tot off s (tot, off) s :=
  ⟨⟨le_refl _, htot⟩, by simp, h.wrote, fun _ _ _ _ => h.wrote, fun o h1 h2 => by simp only at h2; omega,
    fun _ _ o h1 h2 => by simp only at h2; omega, .inr (.inl rfl)⟩

section
variable {cp : Src} {n tot off m : Nat} {r : Nat × Nat} {s1 : FsState}

theorem LoopPost.map (p : LoopPost sb ip cp n tot off s1 r s') (w : ∀ hi, Wrote sb ip s s1 off hi) :
    LoopPost sb ip cp n tot off s r s' :=
  ⟨p.le, p.off_eq, (w _).trans p.wrote, fun o e hs hc => (w _).trans (p.exact o e hs hc), (w 0).inum ▸ p.filled, p.bytes,
    p.stop⟩

theorem LoopPost.chunk (p : LoopPost sb ip cp n (tot + m) (off + m) s1 r s') (w : Wrote sb ip s s1 off (off + m))
    (hm : tot + m ≤ n) (hstop : tot + m = n ∨ (off + m) % BSIZE = 0) (hf : ∀ o, off ≤ o → o < off + m → (cur sb s1 ip).Mapped (s.itable ip).inum o)
    (hb : ∀ src, cp = kernelSrc src → ∀ o, off ≤ o → o < off + m → s1.byte sb ip o = src (tot + (o - off))) :
    LoopPost sb ip cp n tot off s r s' := by
  obtain ⟨hle, hoff, hw, hx, hfill, hbytes, hend⟩ := p
  refine ⟨by omega, by omega, (w.mono (le_refl _) (by omega)).trans (hw.mono (by omega) (by omega)),
    fun o0 e _ hc => ?_, fun o h1 h2 => ?_, fun src hsrc o h1 h2 => ?_, ?_⟩
  · exact (w.mono (le_refl _) (by omega)).trans ((hx o0 (by omega) (by omega) hc).mono (by omega)
      (le_refl _))
  · by_cases e : o < off + m
    · have := hw.mapped o (w.inum.symm ▸ hf o h1 e)
      rwa [w.inum] at this
    · have := hfill o (by omega) h2
      rwa [w.inum] at this
  · by_cases e : o < off + m
    · rw [hw.keep o (w.inum.symm ▸ hf o h1 e) (.inl e)]
      exact hb src hsrc o h1 e
    · rw [hbytes src hsrc o (by omega) h2]
      congr 1
      omega
  · rcases hend with h1 | h1 | h1
    · exact .inl h1
    · rcases hstop with h2 | h2
      · exact .inl (by omega)
      · have h3 : r.2 = off + m := by omega
        exact .inr (.inr (by rw [h3]; exact h2))
    · exact .inr (.inr h1)

end

theorem byteAt_kernelSrc {src : Nat → UInt8} {x : Block} {tot m i j k : Nat} (hk : k < m) (hm : j + m ≤ BSIZE)
    (hi : i = j + k) : byteAt (put x j ((kernelSrc src).copy tot m).1) i = src (tot + k) := by
  have hlen : ((kernelSrc src).copy tot m).1.length = m := by simp [kernelSrc]
  rw [byteAt_put_in x (by omega) (by omega) (by rw [hlen]; omega), hi, Nat.add_sub_cancel_left]
  simp [kernelSrc, getD_eq_getElem?_getD, hk]

theorem writeLoop_spec {cp : Src} {n fuel tot off : Nat} (h : Held sb s ip) (htot : tot ≤ n) (hfuel : n - tot ≤ fuel)
    (hmax : off + (n - tot) ≤ MAXFILE * BSIZE) :
    Sat seq (writeLoop sb ip cp n fuel tot off) s (LoopPost sb ip cp n tot off s) X := by
  induction fuel generalizing s tot off with
  | zero =>
    simp only [writeLoop, sat_pure]
    exact h.loopEnd htot
  | succ fuel ih =>
    unfold writeLoop
    by_cases hlt : tot < n
    · simp only [hlt, if_true, sat_bind]
      have hbn : off / BSIZE < MAXFILE := by
        unfold BSIZE at *
        omega
      refine (bmap_spec h.cons (h.alloc ip h.live) fun hge => absurd hbn (by omega)).mono ?_
      intro a s1 b
      have hg : ∀ hi, Wrote sb ip s s1 off hi := fun _ => b.grows.wrote h
      have h₁ := (hg 0).held
      by_cases ha0 : a = 0
      · simp only [ha0, if_true, sat_pure]
        exact (h₁.loopEnd htot).map hg
      simp only [ha0, if_false, sat_bind, sat_bread, sat_store]
      generalize hm : min (n - tot) (BSIZE - off % BSIZE) = m
      have hmod : off % BSIZE < BSIZE := mod_lt _ (by decide)
      have hm1 : off % BSIZE + m ≤ BSIZE := by omega
      have hw := h₁.store hbn b.addr ha0 (cp.length_le tot m) hm1
      have hmap : ∀ o, off ≤ o → o < off + m → (cur sb s1 ip).Mapped (s1.itable ip).inum o := by
        intro o h1 h2
        have e : o / BSIZE = off / BSIZE := by unfold BSIZE at *; omega
        refine ⟨e ▸ hbn, ?_⟩
        rw [e]
        change s1.slot sb ip _ ≠ 0
        rw [b.addr]
        exact ha0
      by_cases hok : (cp.copy tot m).2 = true
      · simp only [hok, if_true, sat_bind, sat_logWrite, sat_brelse]
        refine (ih hw.held (by omega) (by omega) (by omega)).mono ?_
        intro r s' p
        have hstop : tot + m = n ∨ (off + m) % BSIZE = 0 := by unfold BSIZE at *; omega
        refine (p.chunk hw (by omega) hstop (fun o h1 h2 => hw.mapped o (hmap o h1 h2)) fun src hsrc o h1 h2 => ?_).map hg
        have hdiv : o / BSIZE = off / BSIZE := by unfold BSIZE at *; omega
        have hsub : o % BSIZE = off % BSIZE + (o - off) := by unfold BSIZE at *; omega
        rw [h₁.byte_store hbn b.addr ha0 (hmap o h1 h2), if_pos hdiv, hsrc]
        exact byteAt_kernelSrc (by omega) hm1 hsub
      · simp only [hok, Bool.false_eq_true, if_false, sat_bind, sat_brelse, sat_pure]
        refine LoopPost.map ⟨⟨le_refl _, htot⟩, by simp, ?_, fun o0 e hs hc => ?_, fun o h1 h2 => ?_,
          fun src hsrc o h1 h2 => ?_, .inr (.inl rfl)⟩ hg
        · exact hw.mono (le_refl _) (by omega)
        · -- the store has left the block as it was
          have hnil : (cp.copy tot m).1 = [] := by
            subst e
            have := hc tot hlt (hs hlt)
            rw [hm] at this
            exact this.resolve_left hok
          have hsame : s1.setBlock a (put (s1.blocks a) (off % BSIZE) (cp.copy tot m).1) = s1 := by
            rw [hnil, put_nil, setBlock, update_eq_self]
          change Wrote sb ip s1 (s1.setBlock a _) off off
          rw [hsame]
          exact h₁.wrote
        · simp only at h2; omega
        · simp only at h2; omega
    · simp only [hlt, if_false, sat_pure]
      exact h.loopEnd htot

/-- The arguments for which `writei` returns `-1`. -/
def BadWrite (size off n : UInt32) : Prop := off > size ∨ off + n < off ∨ (off + n).toNat > MAXFILE * BSIZE

instance (size off n : UInt32) : Decidable (BadWrite size off n) := inferInstanceAs (Decidable (_ ∨ _ ∨ _))

/-- What `writei` does when it returns `tot`. -/
structure Written (sb : Super) (ip : Nat) (cp : Src) (off n : Nat) (s : FsState) (tot : Nat) (s' : FsState) : Prop where
  le : tot ≤ n
  good : Good sb s'
  ino : (view sb s'.blocks).ino = update (view sb s.blocks).ino (s.itable ip).inum (s'.itable ip).d
  other : ∀ k, k ≠ ip → s'.itable k = s.itable k
  self : s'.itable ip = { s.itable ip with d := { (s.itable ip).d with
    size := (s'.itable ip).d.size, addrs := (s'.itable ip).d.addrs } }
  size : (s'.itable ip).d.size.toNat = max (s.itable ip).d.size.toNat (off + tot)
  same : ∀ j, j ≠ (s.itable ip).inum → (cur sb s ip).Alloc j → (cur sb s ip).Same (view sb s'.blocks) j
  keep : ∀ o < (s.itable ip).d.size.toNat, o < off ∨ off + n ≤ o → s'.byte sb ip o = s.byte sb ip o
  exact : Whole cp off n →
    ∀ o < (s.itable ip).d.size.toNat, o < off ∨ off + tot ≤ o → s'.byte sb ip o = s.byte sb ip o
  bytes : ∀ src, cp = kernelSrc src → ∀ k < tot, s'.byte sb ip (off + k) = src k
  stop : tot = n ∨ tot = 0 ∨ (off + tot) % BSIZE = 0

section
variable {cp : Src} {n tot off : Nat} {s1 s2 : FsState} {z : UInt32}

/-- The state of the loop with the size of the in-memory inode set to `z`. -/
structure Sized (ip : Nat) (z : UInt32) (s1 s2 : FsState) : Prop where
  blocks : s2.blocks = s1.blocks
  itable : s2.itable = update s1.itable ip { s1.itable ip with d := { (s1.itable ip).d with size := z } }

section
variable (e : Sized ip z s1 s2)
include e

theorem Sized.self : s2.itable ip = { s1.itable ip with d := { (s1.itable ip).d with size := z } } := by
  rw [e.itable, update_self]

theorem Sized.cur_eq :
    cur sb s2 ip = (cur sb s1 ip).setIno (s1.itable ip).inum { (s1.itable ip).d with size := z } := by
  unfold cur
  rw [e.self, e.blocks]
  simp [setIno]

theorem Sized.slot (j k : Nat) : (cur sb s2 ip).slot j k = (cur sb s1 ip).slot j k := by
  rw [e.cur_eq]
  by_cases h : j = (s1.itable ip).inum
  · subst h
    unfold View.slot
    rw [setIno_ino_self, cur_ino_self]
    rfl
  · exact setIno_slot_ne _ _ h

theorem Sized.byte (o : Nat) : s2.byte sb ip o = s1.byte sb ip o := by
  have hi : (s2.itable ip).inum = (s1.itable ip).inum := by rw [e.self]
  have hd : (cur sb s2 ip).data = (cur sb s1 ip).data := by rw [e.cur_eq]; rfl
  unfold FsState.byte View.byte
  rw [hi, e.slot, hd]

theorem Sized.held (h : Held sb s1 ip)
    (hz : ∀ o < z.toNat, (cur sb s1 ip).Mapped (s1.itable ip).inum o) : Held sb s2 ip := by
  refine h.change ?_ (by rw [e.blocks]) e.itable (h.alloc ip h.live)
  rw [e.cur_eq]
  refine h.cons.change rfl rfl rfl ?_ ?_ fun _ m hm => ?_
  · rw [cur_ino_self]
  · unfold View.Alloc
    rw [cur_ino_self]
  -- block `m` begins below the size
  have hlt : m * BSIZE < z.toNat := by unfold nblocksOf BSIZE at *; dsimp only at hm; omega
  have hdiv : m * BSIZE / BSIZE = m := Nat.mul_div_cancel _ (by decide)
  obtain ⟨h1, h2⟩ := hz _ hlt
  rw [hdiv, View.slot, cur_ino_self] at h2
  exact ⟨hdiv ▸ h1, h2⟩

end

theorem Held.mapped_of_lt {o : Nat} (h : Held sb s ip) (ho : o < (s.itable ip).d.size.toNat) :
    (cur sb s ip).Mapped (s.itable ip).inum o :=
  h.cons.mapped_of_lt (cur_alloc (h.alloc ip h.live)) (by rw [cur_ino_self]; exact ho)

theorem LoopPost.iupdate {off' : Nat} (p : LoopPost sb ip cp n 0 off s (tot, off') s1) (h : Held sb s ip)
    (e : Sized ip z s1 s2) (hz : z.toNat = max (s.itable ip).d.size.toNat (off + tot))
    (hoff : off ≤ (s.itable ip).d.size.toNat) :
    Sat seq (iupdate sb ip) s2 (fun _ s' => Written sb ip cp off n s tot s') X := by
  have hoff' : off' = off + tot := p.off_eq
  have hinum : (s2.itable ip).inum = (s.itable ip).inum := by rw [e.self]; exact p.wrote.inum
  have hheld := e.held p.wrote.held fun o ho => by
    rw [p.wrote.inum]
    by_cases hlt : o < (s.itable ip).d.size.toNat
    · exact p.wrote.mapped o (h.mapped_of_lt hlt)
    · exact p.filled o (by omega) (by dsimp only; omega)
  refine (iupdate_spec hheld).mono ?_
  rintro _ s' ⟨hgood, hv, ht⟩
  have hcur : cur sb s' ip = cur sb s2 ip := by
    unfold cur at *
    rw [hv, ht]
    simp [setIno]
  have hbyte : ∀ o, s'.byte sb ip o = s1.byte sb ip o := by
    intro o
    rw [← e.byte o]
    unfold FsState.byte
    rw [hcur, ht]
  constructor
  · exact p.le.2
  · exact hgood
  · rw [hv, ht, ← hinum, ← p.wrote.ino, ← e.blocks]
    rfl
  · intro k hk
    rw [ht, e.itable, update_of_ne hk]
    exact p.wrote.other k hk
  · rw [ht, e.self, p.wrote.self]
  · rw [ht, e.self]
    exact hz
  · intro j hj hja m hm hs
    obtain ⟨h1, h2⟩ := p.wrote.same j hj hja m hm hs
    rw [hv, e.slot]
    exact ⟨h1, by rw [e.cur_eq]; exact h2⟩
  · intro o ho hr
    rw [hbyte]
    exact p.wrote.keep o (h.mapped_of_lt ho) (by omega)
  · intro hc o ho hr
    rw [hbyte]
    exact (p.exact off rfl (fun _ => .inl rfl) hc).keep o (h.mapped_of_lt ho) (by dsimp only; omega)
  · intro src hsrc k hk
    rw [hbyte, p.bytes src hsrc _ (by omega) (by dsimp only; omega)]
    congr 1
    omega
  · exact hoff' ▸ p.stop

end

def WritePost (sb : Super) (ip : Nat) (cp : Src) (off n : UInt32) (s : FsState) (r : Option Nat) (s' : FsState) : Prop :=
  if BadWrite (s.itable ip).d.size off n then r = none ∧ s' = s
  else ∃ tot, r = some tot ∧ Written sb ip cp off.toNat n.toNat s tot s'

theorem writei_spec {cp : Src} {off n : UInt32} (h : Held sb s ip) :
    Sat seq (writei sb ip cp off n) s (WritePost sb ip cp off n s) X := by
  simp only [writei, sat_bind, sat_iat]
  by_cases h1 : off > (s.itable ip).d.size ∨ off + n < off
  · have hbad : BadWrite (s.itable ip).d.size off n := by unfold BadWrite; tauto
    simp only [h1, if_true, sat_pure, WritePost, hbad, and_self]
  by_cases h2 : (off + n).toNat > MAXFILE * BSIZE
  · have hbad : BadWrite (s.itable ip).d.size off n := .inr (.inr h2)
    simp only [h1, h2, if_true, if_false, sat_pure, WritePost, hbad, and_self]
  have hbad : ¬BadWrite (s.itable ip).d.size off n := by unfold BadWrite; tauto
  obtain ⟨hle, hov⟩ := not_or.1 h1
  have hadd := toNat_add_of_not_lt hov
  have hle' : off.toNat ≤ (s.itable ip).d.size.toNat := UInt32.le_iff_toNat_le.1 (UInt32.not_lt.1 hle)
  simp only [h1, h2, if_false, sat_bind]
  refine (writeLoop_spec h (zero_le _) (by omega) (by omega)).mono ?_
  rintro ⟨tot, off'⟩ s1 p
  have hoff' : off' = off.toNat + tot := p.off_eq
  have htot : tot ≤ n.toNat := p.le.2
  have hsize : (s1.itable ip).d.size = (s.itable ip).d.size := by rw [p.wrote.self]
  have hfin : ∀ z s2, Sized ip z s1 s2 → z.toNat = max (s.itable ip).d.size.toNat (off.toNat + tot) →
      Sat seq (iupdate sb ip) s2 (fun _ s' => WritePost sb ip cp off n s (some tot) s') X := by
    intro z s2 e hz
    refine (p.iupdate h e hz hle').mono fun _ s' w => ?_
    unfold WritePost
    rw [if_neg hbad]
    exact ⟨tot, rfl, w⟩
  dsimp only
  by_cases hgt : off' > (s.itable ip).d.size.toNat
  · simp only [hgt, if_true, sat_bind, sat_iset, sat_pure]
    refine hfin (ofNat off') (s1.setI ip _) ⟨rfl, rfl⟩ ?_
    have : off' < 2 ^ 32 := by unfold MAXFILE NDIRECT NINDIRECT BSIZE at *; omega
    rw [toNat_ofNat', mod_eq_of_lt this]
    omega
  · simp only [hgt, if_false, sat_bind, sat_pure]
    refine hfin (s.itable ip).d.size s1 ⟨rfl, ?_⟩ (by omega)
    rw [← hsize, update_eq_self]

end

end Xv6.Fs
