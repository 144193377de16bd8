import Xv6.Fs.AllocSafe

/-!
# Files as arrays of bytes

The contents of an inode are the `size` bytes that its direct and indirect blocks hold. `writei` replaces a range of
them, or extends them at the end, and `readi` delivers a range. A write is cut short only by a call of `balloc` that finds
no block.
-/

namespace Xv6.Fs

open Bytes Prog List

/-- The bytes of the file of inode `d`, found in its direct and indirect blocks. -/
def contentOf (blocks : Nat → Block) (d : Dinode) : List UInt8 :=
  (List.range d.size.toNat).map fun o => byteAt (blocks (slotOf blocks d (fileSlot (o / BSIZE)))) (o % BSIZE)

def View.content (v : View) (i : Nat) : List UInt8 := contentOf v.data (v.ino i)

@[simp] theorem length_content (v : View) (i : Nat) : (v.content i).length = (v.ino i).size.toNat := by
  simp [View.content, contentOf]

theorem getElem_content (v : View) (i o : Nat) (h : o < (v.content i).length) : (v.content i)[o] = v.byte i o := by
  simp [View.content, contentOf, View.byte, View.slot]

/-! ## Buffers that the user may access -/

/-- The first `n` bytes of the source can be read, and are those of `src`. -/
def Src.Reads (cp : Src) (src : Nat → UInt8) (n : Nat) : Prop :=
  ∀ tot m, tot + m ≤ n → cp.copy tot m = ((List.range m).map fun i => src (tot + i), true)

/-- The first `n` bytes of the destination can be written. -/
def Accepts (co : Nat → List UInt8 → Bool) (n : Nat) : Prop := ∀ tot bs, tot + bs.length ≤ n → co tot bs = true

section
variable {sb : Super} {s s' : FsState} {ip : Nat}

theorem writeLoop_eq {cp : Src} {src : Nat → UInt8} {n fuel tot off : Nat} (h : cp.Reads src n) :
    writeLoop sb ip cp n fuel tot off = writeLoop sb ip (kernelSrc src) n fuel tot off := by
  induction fuel generalizing tot off with
  | zero => rfl
  | succ fuel ih =>
    unfold writeLoop
    by_cases hlt : tot < n
    · have hcopy : cp.copy tot (min (n - tot) (BSIZE - off % BSIZE)) =
          (kernelSrc src).copy tot (min (n - tot) (BSIZE - off % BSIZE)) := h _ _ (by omega)
      simp only [hlt, if_true, hcopy, ih]
    · simp only [hlt, if_false]

theorem writei_eq {cp : Src} {src : Nat → UInt8} {off n : UInt32} (h : cp.Reads src n.toNat) :
    writei sb ip cp off n = writei sb ip (kernelSrc src) off n := by
  unfold writei
  simp only [writeLoop_eq h]

theorem readLoop_eq {co : Nat → List UInt8 → Bool} {n fuel tot off : Nat} {acc : List UInt8} (h : Accepts co n) :
    readLoop sb ip co n fuel tot off acc = readLoop sb ip (fun _ _ => true) n fuel tot off acc := by
  induction fuel generalizing tot off acc with
  | zero => rfl
  | succ fuel ih =>
    unfold readLoop
    by_cases hlt : tot < n
    · have hco : ∀ x, co tot (bytesAt x (off % BSIZE) (min (n - tot) (BSIZE - off % BSIZE))) = true := by
        intro x
        refine h _ _ ?_
        simp only [bytesAt, length_map, length_range]
        omega
      simp only [hlt, if_true, hco, ih]
    · simp only [hlt, if_false]

theorem readi_eq {co : Nat → List UInt8 → Bool} {off n : UInt32} (h : Accepts co n.toNat) :
    readi sb ip co off n = readi sb ip (fun _ _ => true) off n := by
  unfold readi
  congr 1
  funext t
  by_cases hbad : off > t.d.size ∨ off + n < off
  · simp only [hbad, if_true]
  simp only [hbad, if_false]
  refine readLoop_eq fun tot bs hle => h tot bs ?_
  obtain ⟨hle', hov⟩ := not_or.1 hbad
  have hadd := toNat_add_of_not_lt hov
  have hoff : off.toNat ≤ t.d.size.toNat := UInt32.le_iff_toNat_le.1 (UInt32.not_lt.1 hle')
  -- the count is only ever cut down
  split at hle
  · rename_i hgt
    have := UInt32.lt_iff_toNat_lt.1 hgt
    rw [UInt32.toNat_sub_of_le _ _ (UInt32.le_iff_toNat_le.2 hoff)] at hle
    omega
  · exact hle

/-! ## A full disk -/

/-- In the run of `p` from `s` a call of `balloc` reports a full disk. -/
def FullReported {α : Type} (sb : Super) (p : M α) (s : FsState) : Prop :=
  ∃ t t', Calls seq p s (balloc sb) t ∧ (balloc sb).run seq t = .ok (0, t')

section
variable {α β : Type} {p : M α} {f : α → M β}

theorem FullReported.first (h : FullReported sb p s) : FullReported sb (p >>= f) s := by
  obtain ⟨t, t', hc, hr⟩ := h
  exact ⟨t, t', hc.first, hr⟩

theorem FullReported.after {a : α} (hp : p.run seq s = .ok (a, s')) (h : FullReported sb (f a) s') :
    FullReported sb (p >>= f) s := by
  obtain ⟨t, t', hc, hr⟩ := h
  exact ⟨t, t', hc.after hp, hr⟩

end

theorem mapAddr_zero {k : Fin (NDIRECT + 1)} (h : (mapAddr sb ip k).run seq s = .ok (0, s')) :
    FullReported sb (mapAddr sb ip k) s := by
  obtain ⟨t, s1, ht, h⟩ := run_bind_ok.1 h
  refine .after ht ?_
  by_cases h0 : (t.d.addrs k).toNat = 0
  · simp only [h0, if_true] at h ⊢
    obtain ⟨a, s2, ha, h⟩ := run_bind_ok.1 h
    by_cases ha0 : a = 0
    · subst ha0
      exact ⟨s1, s2, .here, ha⟩
    · simp only [ha0, if_false] at h
      obtain ⟨_, s3, -, h⟩ := run_bind_ok.1 h
      cases h
      exact absurd rfl ha0
  · simp only [h0, if_false] at h
    obtain ⟨e, -⟩ := Prod.mk.inj (Except.ok.inj h)
    exact absurd e h0

theorem mapEntry_zero {a j : Nat} (h : (mapEntry sb a j).run seq s = .ok (0, s')) :
    FullReported sb (mapEntry sb a j) s := by
  obtain ⟨x, s1, hx, h⟩ := run_bind_ok.1 h
  refine .after hx ?_
  by_cases h0 : getEnt x j = 0
  · simp only [h0, if_true] at h ⊢
    obtain ⟨b, s2, hb, h⟩ := run_bind_ok.1 h
    by_cases hb0 : b = 0
    · subst hb0
      exact ⟨s1, s2, .here, hb⟩
    simp only [ne_eq, hb0, not_false_eq_true, if_true] at h
    obtain ⟨_, _, -, h⟩ := run_bind_ok.1 h
    obtain ⟨_, _, -, h⟩ := run_bind_ok.1 h
    obtain ⟨_, _, -, h⟩ := run_bind_ok.1 h
    cases h
    exact absurd rfl hb0
  · simp only [h0, if_false] at h
    obtain ⟨_, _, -, h⟩ := run_bind_ok.1 h
    obtain ⟨e, -⟩ := Prod.mk.inj (Except.ok.inj h)
    exact absurd e h0

theorem bmap_zero {bn : Nat} (h : (bmap sb ip bn).run seq s = .ok (0, s')) : FullReported sb (bmap sb ip bn) s := by
  unfold bmap at h ⊢
  by_cases hbn : bn < NDIRECT
  · simp only [hbn, dite_true] at h ⊢
    exact mapAddr_zero h
  simp only [hbn, dite_false] at h ⊢
  by_cases hin : bn - NDIRECT < NINDIRECT
  · simp only [hin, if_true] at h ⊢
    obtain ⟨a, s1, ha, h⟩ := run_bind_ok.1 h
    by_cases ha0 : a = 0
    · subst ha0
      exact (mapAddr_zero ha).first
    · simp only [ha0, if_false] at h
      refine .after ha ?_
      simp only [ha0, if_false]
      exact mapEntry_zero h
  · simp only [hin, if_false] at h
    cases h

theorem writeLoop_short {src : Nat → UInt8} {n fuel tot off : Nat} {r : Nat × Nat} (hfuel : n - tot ≤ fuel)
    (h : (writeLoop sb ip (kernelSrc src) n fuel tot off).run seq s = .ok (r, s')) (hr : r.1 < n) :
    FullReported sb (writeLoop sb ip (kernelSrc src) n fuel tot off) s := by
  induction fuel generalizing s tot off with
  | zero =>
    cases h
    exact absurd hr (by dsimp only; omega)
  | succ fuel ih =>
    unfold writeLoop at h ⊢
    by_cases hlt : tot < n
    · simp only [hlt, if_true] at h ⊢
      obtain ⟨a, s1, ha, h⟩ := run_bind_ok.1 h
      by_cases ha0 : a = 0
      · subst ha0
        exact (bmap_zero ha).first
      refine .after ha ?_
      simp only [ha0, if_false] at h ⊢
      obtain ⟨x, s2, hx, h⟩ := run_bind_ok.1 h
      refine .after hx ?_
      obtain ⟨_, s3, hs, h⟩ := run_bind_ok.1 h
      refine .after hs ?_
      obtain ⟨_, s4, hl, h⟩ := run_bind_ok.1 h
      refine .after hl ?_
      obtain ⟨_, s5, hb, h⟩ := run_bind_ok.1 h
      refine .after hb ?_
      have hpos : off % BSIZE < BSIZE := Nat.mod_lt _ (by decide)
      exact ih (by omega) h
    · simp only [hlt, if_false] at h
      cases h
      exact absurd hr hlt

theorem writei_short {src : Nat → UInt8} {off n : UInt32} {r : Nat}
    (h : (writei sb ip (kernelSrc src) off n).run seq s = .ok (some r, s')) (hr : r < n.toNat) :
    FullReported sb (writei sb ip (kernelSrc src) off n) s := by
  obtain ⟨t, s1, ht, h⟩ := run_bind_ok.1 h
  refine .after ht ?_
  by_cases h1 : off > t.d.size ∨ off + n < off
  · simp only [h1, if_true] at h
    cases h
  by_cases h2 : (off + n).toNat > MAXFILE * BSIZE
  · simp only [h1, h2, if_true, if_false] at h
    cases h
  simp only [h1, h2, if_false] at h ⊢
  obtain ⟨⟨tot, off'⟩, s2, hloop, h⟩ := run_bind_ok.1 h
  refine FullReported.first (writeLoop_short (by omega) hloop ?_)
  -- what follows the loop returns its count
  dsimp only at h ⊢
  have htot : tot = r := by
    split at h
    · obtain ⟨_, _, -, h⟩ := run_bind_ok.1 h
      obtain ⟨_, _, -, h⟩ := run_bind_ok.1 h
      cases h
      rfl
    · obtain ⟨_, _, -, h⟩ := run_bind_ok.1 h
      cases h
      rfl
  omega

theorem writeLoop_within {src : Nat → UInt8} {n fuel tot off : Nat} {X : String → Prop} (h : Held sb s ip) (htot : tot ≤ n)
    (hfuel : n - tot ≤ fuel) (hsize : off + (n - tot) ≤ (s.itable ip).d.size.toNat) :
    Sat seq (writeLoop sb ip (kernelSrc src) n fuel tot off) s (fun r _ => r.1 = n) X := by
  induction fuel generalizing s tot off with
  | zero =>
    simp only [writeLoop, sat_pure]
    omega
  | succ fuel ih =>
    unfold writeLoop
    by_cases hlt : tot < n
    · simp only [hlt, if_true, sat_bind]
      obtain ⟨hbn, hslot⟩ := h.mapped_of_lt (o := off) (by omega)
      refine (bmap_spec h.cons (h.alloc ip h.live) fun hge => absurd hbn (by omega)).mono ?_
      intro a s1 b
      obtain rfl := b.found hslot
      have ha0 : a ≠ 0 := by
        rw [← b.addr]
        exact hslot
      simp only [ha0, if_false, sat_bind, sat_bread, sat_store, kernelSrc, if_true, sat_logWrite, sat_brelse]
      generalize hm : min (n - tot) (BSIZE - off % BSIZE) = m
      have hmod : off % BSIZE < BSIZE := Nat.mod_lt _ (by decide)
      have hw := h.store hbn b.addr ha0 ((kernelSrc src).length_le tot m) (by omega)
      refine ih hw.held (by omega) (by omega) ?_
      change off + m + (n - (tot + m)) ≤ (s1.itable ip).d.size.toNat
      omega
    · simp only [hlt, if_false, sat_pure]
      omega

theorem writei_within {src : Nat → UInt8} {off n : UInt32} {X : String → Prop} (h : Held sb s ip)
    (hbad : ¬BadWrite (s.itable ip).d.size off n) (hsize : off.toNat + n.toNat ≤ (s.itable ip).d.size.toNat) :
    Sat seq (writei sb ip (kernelSrc src) off n) s (fun r _ => r = some n.toNat) X := by
  simp only [writei, sat_bind, sat_iat]
  have h1 : ¬(off > (s.itable ip).d.size ∨ off + n < off) := fun e => hbad (by unfold BadWrite; tauto)
  have h2 : ¬(off + n).toNat > MAXFILE * BSIZE := fun e => hbad (.inr (.inr e))
  simp only [h1, h2, if_false, sat_bind]
  refine (writeLoop_within h (Nat.zero_le _) (by omega) (by omega)).mono ?_
  rintro ⟨tot, off'⟩ s1 htot
  subst htot
  split
  · simp [iupdate, sat_bind]
  · simp [iupdate, sat_bind]

/-! ## What the calls do to the contents -/

theorem View.Same.content {v v' : View} {i : Nat} (hc : Consistent sb v) (ha : v.Alloc i) (h : v.Same v' i)
    (hsize : (v'.ino i).size = (v.ino i).size) : v'.content i = v.content i := by
  unfold View.content contentOf
  rw [hsize]
  refine map_congr_left fun o ho => ?_
  exact h.byte (hc.mapped_of_lt ha (mem_range.1 ho))

section
variable {cp : Src} {off n tot : Nat}

theorem Written.live (w : Written sb ip cp off n s tot s') (hl : Live s ip) : Live s' ip := by
  unfold Live
  rw [w.self]
  exact hl

theorem Written.inum (w : Written sb ip cp off n s tot s') : (s'.itable ip).inum = (s.itable ip).inum := by rw [w.self]

theorem Good.byte_eq (h : Good sb s) (hl : Live s ip) (o : Nat) :
    s.byte sb ip o = (view sb s.blocks).byte (s.itable ip).inum o := by
  unfold FsState.byte
  rw [h.cur_eq hl]

theorem Written.content_other (w : Written sb ip cp off n s tot s') (h : Good sb s) (hl : Live s ip) {j : Nat}
    (hj : j ≠ (s.itable ip).inum) (ha : (view sb s.blocks).Alloc j) :
    (view sb s'.blocks).content j = (view sb s.blocks).content j := by
  have hsame := w.same j hj (by rw [h.cur_eq hl]; exact ha)
  rw [h.cur_eq hl] at hsame
  refine hsame.content h.cons ha ?_
  rw [w.ino, Function.update_of_ne hj]

theorem Written.content_self {src : Nat → UInt8} (w : Written sb ip (kernelSrc src) off n s tot s') (h : Good sb s)
    (hl : Live s ip) (hoff : off ≤ (s.itable ip).d.size.toNat) :
    (view sb s'.blocks).content (s.itable ip).inum =
      ((view sb s.blocks).content (s.itable ip).inum).take off ++ (range tot).map src ++
        ((view sb s.blocks).content (s.itable ip).inum).drop (off + tot) := by
  have hl' := w.live hl
  have hino : (view sb s.blocks).ino (s.itable ip).inum = (s.itable ip).d := (h.copy ip hl).symm
  have hino' : (view sb s'.blocks).ino (s.itable ip).inum = (s'.itable ip).d := by rw [w.ino, Function.update_self]
  have hbyte : ∀ o, (view sb s.blocks).byte (s.itable ip).inum o = s.byte sb ip o := fun o => (h.byte_eq hl o).symm
  have hbyte' : ∀ o, (view sb s'.blocks).byte (s.itable ip).inum o = s'.byte sb ip o := by
    intro o
    rw [w.good.byte_eq hl', w.inum]
  have hsize := w.size
  refine ext_getElem ?_ fun o ho ho' => ?_
  · simp only [length_content, length_append, length_take, length_drop, length_map, length_range,
      hino, hino']
    omega
  · rw [length_content, hino'] at ho
    rw [getElem_content, hbyte']
    by_cases h1 : o < off
    · rw [getElem_append_left (by simp [hino]; omega), getElem_append_left (by simp [hino]; omega), getElem_take,
        getElem_content, hbyte]
      exact w.exact (whole_kernelSrc src off n) o (by omega) (.inl h1)
    · have hlen : (((view sb s.blocks).content (s.itable ip).inum).take off).length = off := by simp [hino]; omega
      by_cases h2 : o < off + tot
      · rw [getElem_append_left (by simp [hino]; omega), getElem_append_right (by omega)]
        simp only [hlen, getElem_map, getElem_range]
        have := w.bytes src rfl (o - off) (by omega)
        rwa [Nat.add_sub_cancel' (by omega)] at this
      · rw [getElem_append_right (by simp [hino]; omega), getElem_drop, getElem_content, hbyte]
        simp only [length_append, hlen, length_map, length_range]
        rw [Nat.add_sub_cancel' (by omega)]
        exact w.exact (whole_kernelSrc src off n) o (by omega) (.inr (by omega))

end

theorem files_are_byte_arrays {sb : Super} {s : FsState} {ip i : Nat} (h : Good sb s) (hl : Live s ip)
    (hi : (s.itable ip).inum = i) :
    (∀ cp src off n, Src.Reads cp src n.toNat →
      (BadWrite (s.itable ip).d.size off n → (writei sb ip cp off n).run seq s = .ok (none, s)) ∧
      (¬BadWrite (s.itable ip).d.size off n → ∃ r s', (writei sb ip cp off n).run seq s = .ok (some r, s') ∧
        r ≤ n.toNat ∧ Good sb s' ∧
        (view sb s'.blocks).content i = ((view sb s.blocks).content i).take off.toNat ++ (range r).map src ++
          ((view sb s.blocks).content i).drop (off.toNat + r) ∧
        (r < n.toNat → FullReported sb (writei sb ip cp off n) s) ∧
        ∀ j, j ≠ i → (view sb s.blocks).Alloc j → (view sb s'.blocks).content j = (view sb s.blocks).content j)) ∧
    ∀ co off n, Accepts co n.toNat → ∃ bs, (readi sb ip co off n).run seq s = .ok ((some bs.length, bs), s) ∧
      bs = if off > (s.itable ip).d.size ∨ off + n < off then []
        else (((view sb s.blocks).content i).take (off.toNat + n.toNat)).drop off.toNat := by
  subst hi
  refine ⟨fun cp src off n hcp => ?_, fun co off n hco => ?_⟩
  · rw [writei_eq hcp]
    have hspec : Sat seq (writei sb ip (kernelSrc src) off n) s (WritePost sb ip (kernelSrc src) off n s) fun _ => False :=
      writei_spec (h.held hl)
    obtain ⟨r, s', hrun, w⟩ := hspec.exists_ok
    unfold WritePost at w
    constructor
    · intro hbad
      rw [if_pos hbad] at w
      rw [hrun, w.1, w.2]
    · intro hbad
      rw [if_neg hbad] at w
      obtain ⟨tot, rfl, w⟩ := w
      have hoff : off.toNat ≤ (s.itable ip).d.size.toNat := by
        unfold BadWrite at hbad
        exact UInt32.le_iff_toNat_le.1 (UInt32.not_lt.1 fun hgt => hbad (.inl hgt))
      exact ⟨tot, s', hrun, w.le, w.good, w.content_self h hl hoff, fun hlt => writei_short hrun hlt,
        fun j hj ha => w.content_other h hl hj ha⟩
  · rw [readi_eq hco]
    have hspec : Sat seq (readi sb ip (fun _ _ => true) off n) s (ReadPost sb ip (fun _ _ => true) off n s) fun _ => False :=
      readi_spec (h.held hl).cons (h.alloc ip hl)
    obtain ⟨⟨r, bs⟩, s', hrun, hs', hok, hsome⟩ := hspec.exists_ok
    dsimp only at hok hsome
    obtain ⟨-, hbs⟩ := hsome _ (hok fun _ _ => rfl)
    have hlen : bs.length = readLen (s.itable ip).d.size off n := by rw [hbs]; simp
    refine ⟨bs, by rw [hrun, hok fun _ _ => rfl, hlen, hs'], ?_⟩
    have hino : (view sb s.blocks).ino (s.itable ip).inum = (s.itable ip).d := (h.copy ip hl).symm
    unfold readLen at hbs
    split
    · rename_i hbad
      rw [if_pos hbad] at hbs
      exact hbs
    · rename_i hbad
      rw [if_neg hbad] at hbs
      rw [hbs]
      refine ext_getElem ?_ fun k hk hk' => ?_
      · simp only [length_map, length_range, length_drop, length_take, length_content, hino]
        omega
      · simp only [getElem_map, getElem_range, getElem_drop, getElem_take, getElem_content]
        exact h.byte_eq hl _

theorem files_are_byte_arrays_oneFile : Good mkfsSuper (oneFileState (range 47)) ∧
    (∃ bs, (readi mkfsSuper 0 (fun _ _ => true) 0 5).run seq (oneFileState (range 47)) =
      .ok ((some bs.length, bs), oneFileState (range 47))) ∧
    ∃ r s', (writei mkfsSuper 0 (kernelSrc fun _ => 7) 0 5).run seq (oneFileState (range 47)) = .ok (some r, s') ∧
      r ≤ 5 ∧ Good mkfsSuper s' := by
  have hl : Live (oneFileState (range 47)) 0 := ⟨by decide, by decide⟩
  obtain ⟨bs, hread, -⟩ := (files_are_byte_arrays good_oneFile hl rfl).2 (fun _ _ => true) 0 5 fun _ _ _ => rfl
  obtain ⟨-, hwrite⟩ := (files_are_byte_arrays good_oneFile hl rfl).1 (kernelSrc fun _ => 7) (fun _ => 7) 0 5 fun _ _ _ => rfl
  obtain ⟨r, s', hrun, hle, hgood, -⟩ := hwrite (by decide)
  exact ⟨good_oneFile, ⟨bs, hread⟩, r, s', hrun, hle, hgood⟩

theorem writei_over_inode :
    DataConsistent mkfsSuper (view mkfsSuper (oneFileState (range 32)).blocks) ∧
    TableOk (oneFileState (range 32)).itable ∧ Live (oneFileState (range 32)) 0 ∧
    (∀ k, Live (oneFileState (range 32)) k → ((oneFileState (range 32)).itable k).d =
      (view mkfsSuper (oneFileState (range 32)).blocks).ino ((oneFileState (range 32)).itable k).inum) ∧
    ∃ s', (writei mkfsSuper 0 (kernelSrc fun _ => 7) 0 72).run seq (oneFileState (range 32)) = .ok (some 72, s') ∧
      contentOf s'.blocks (s'.itable 0).d ≠ (range 72).map fun _ => 7 := by
  have hlt : ∀ b ∈ range 32, b < BPB := fun b hb => Nat.lt_trans (mem_range.1 hb) (by decide)
  refine ⟨?_, tableOk_oneFile _, ⟨by decide, by decide⟩, fun k hk => copy_oneFile hlt hk, ?_⟩
  · rw [oneFileState, view_oneFile hlt]
    exact dataConsistent_oneFile fun b hb => Nat.lt_trans (mem_range.1 hb) (by decide)
  have hrun : (((writei mkfsSuper 0 (kernelSrc fun _ => 7) 0 72).run seq (oneFileState (range 32))).toOption.map fun r =>
      (r.1, (contentOf r.2.blocks (r.2.itable 0).d)[64]?)) = some (some 72, some 2) := by decide +kernel
  cases hr : (writei mkfsSuper 0 (kernelSrc fun _ => 7) 0 72).run seq (oneFileState (range 32)) with
  | error m =>
    rw [hr] at hrun
    cases hrun
  | ok r =>
    rw [hr] at hrun
    simp only [Except.toOption, Option.map_some, Option.some.injEq, Prod.mk.injEq] at hrun
    refine ⟨r.2, by rw [← hrun.1], fun e => ?_⟩
    rw [e] at hrun
    exact absurd hrun.2 (by decide)

end

end Xv6.Fs
