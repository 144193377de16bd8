import Xv6.Fs.Alloc

/-!
# The inode table, `itrunc`, `iput` and `ialloc`

Between the calls of `fs.c` the disk is consistent and every valid entry of the inode table agrees with its inode on the
disk (`Good`). The holder of an inode may be ahead of the disk (`Held`) until it calls `iupdate`.
-/

namespace Xv6.Fs

open Bytes Prog List View FsState
open Function (update update_self update_of_ne update_idem)

/-- Entry `k` of the table is in use and has been read from the disk. -/
def Live (s : FsState) (k : Nat) : Prop := 0 < (s.itable k).ref ∧ (s.itable k).valid = true

/-- The entries in use are entries of the table, at most one for each inode. -/
structure TableOk (t : Itable) : Prop where
  lt : ∀ k, 0 < (t k).ref → k < NINODE
  unique : ∀ k k', 0 < (t k).ref → 0 < (t k').ref → (t k).inum = (t k').inum → k = k'

/-- The state between calls. -/
structure Good (sb : Super) (s : FsState) : Prop where
  cons : Consistent sb (view sb s.blocks)
  table : TableOk s.itable
  copy : ∀ k, Live s k → (s.itable k).d = (view sb s.blocks).ino (s.itable k).inum
  alloc : ∀ k, Live s k → (s.itable k).d.type ≠ 0

structure Held (sb : Super) (s : FsState) (ip : Nat) : Prop where
  cons : Consistent sb (cur sb s ip)
  table : TableOk s.itable
  copy : ∀ k, k ≠ ip → Live s k → (s.itable k).d = (view sb s.blocks).ino (s.itable k).inum
  alloc : ∀ k, Live s k → (s.itable k).d.type ≠ 0
  live : Live s ip
  lt : (s.itable ip).inum < sb.ninodes

section
variable {sb : Super} {s s' : FsState} {ip : Nat} {X : String → Prop}

variable {v : View} {i : Nat} {d : Dinode} {ι : Type}

theorem setIno_eq_self (h : d = v.ino i) : v.setIno i d = v := by
  subst h
  simp [setIno]

theorem Good.cur_eq (h : Good sb s) (hl : Live s ip) : cur sb s ip = view sb s.blocks :=
  setIno_eq_self (h.copy ip hl)

theorem Good.lt_ninodes (h : Good sb s) (hl : Live s ip) : (s.itable ip).inum < sb.ninodes := by
  have := h.alloc ip hl
  rw [h.copy ip hl] at this
  exact lt_of_type_ne_zero this

theorem Good.held (h : Good sb s) (hl : Live s ip) : Held sb s ip where
  cons := by rw [h.cur_eq hl]; exact h.cons
  table := h.table
  copy k _ hk := h.copy k hk
  alloc := h.alloc
  live := hl
  lt := h.lt_ninodes hl

theorem Held.inum_ne (h : Held sb s ip) {k : Nat} (hk : k ≠ ip) (hl : 0 < (s.itable k).ref) :
    (s.itable k).inum ≠ (s.itable ip).inum :=
  fun e => hk (h.table.unique k ip hl h.live.1 e)

theorem Held.change (h : Held sb s ip) (hc : Consistent sb (cur sb s' ip))
    (hino : (view sb s'.blocks).ino = (view sb s.blocks).ino)
    (ht : s'.itable = update s.itable ip { s.itable ip with d := d }) (hd : d.type ≠ 0) : Held sb s' ip := by
  have hself : s'.itable ip = { s.itable ip with d := d } := by rw [ht, update_self]
  have hother : ∀ k, k ≠ ip → s'.itable k = s.itable k := fun k hk => by rw [ht, update_of_ne hk]
  have hfix : ∀ k, (s'.itable k).ref = (s.itable k).ref ∧ (s'.itable k).inum = (s.itable k).inum ∧
      (s'.itable k).valid = (s.itable k).valid := by
    intro k
    by_cases e : k = ip
    · subst e; rw [hself]; exact ⟨rfl, rfl, rfl⟩
    · rw [hother k e]; exact ⟨rfl, rfl, rfl⟩
  have hlive : ∀ k, Live s' k → Live s k := by
    intro k hk
    obtain ⟨h1, -, h3⟩ := hfix k
    unfold Live at *
    rwa [h1, h3] at hk
  refine ⟨hc, ⟨fun k hk => ?_, fun k k' hk hk' e => ?_⟩, fun k hne hk => ?_, fun k hk => ?_, ?_, ?_⟩
  · exact h.table.lt k ((hfix k).1 ▸ hk)
  · rw [(hfix k).2.1, (hfix k').2.1] at e
    exact h.table.unique k k' ((hfix k).1 ▸ hk) ((hfix k').1 ▸ hk') e
  · rw [hino, hother k hne]
    exact h.copy k hne (hlive k hk)
  · by_cases e : k = ip
    · subst e; rw [hself]; exact hd
    · rw [hother k e]; exact h.alloc k (hlive k hk)
  · have := h.live
    unfold Live at *
    rw [hself]
    exact this
  · rw [hself]; exact h.lt

theorem Grows.itable (hg : Grows sb ip s s') :
    s'.itable = update s.itable ip { s.itable ip with d := (s'.itable ip).d } := by
  funext k
  by_cases e : k = ip
  · subst e
    rw [update_self, hg.self]
  · rw [update_of_ne e, hg.other k e]

theorem Held.grows (h : Held sb s ip) (hg : Grows sb ip s s') : Held sb s' ip := by
  refine h.change hg.cons hg.ino hg.itable ?_
  rw [hg.self]
  exact h.alloc ip h.live

/-! ## `iupdate` -/

theorem sat_iupdate {Q : Unit → FsState → Prop} (hi : (s.itable ip).inum < sb.ninodes)
    (hQ : ∀ blocks, view sb blocks = cur sb s ip → Q () { s with blocks := blocks }) :
    Sat seq (iupdate sb ip) s Q X := by
  exact hQ _ (view_putDinode hi)

theorem Held.good (h : Held sb s ip) (hv : view sb s'.blocks = cur sb s ip) (ht : s'.itable = s.itable) : Good sb s' := by
  refine ⟨by rw [hv]; exact h.cons, by rw [ht]; exact h.table, fun k hk => ?_, fun k hk => ?_⟩
  · have hk' : Live s k := by unfold Live at *; rwa [ht] at hk
    rw [ht, hv]
    by_cases e : k = ip
    · subst e; rw [cur_ino_self]
    · rw [cur, setIno_ino_ne _ _ (h.inum_ne e hk'.1)]
      exact h.copy k e hk'
  · rw [ht]
    exact h.alloc k (by unfold Live at *; rwa [ht] at hk)

theorem iupdate_spec (h : Held sb s ip) :
    Sat seq (iupdate sb ip) s (fun _ s' => Good sb s' ∧ view sb s'.blocks = cur sb s ip ∧ s'.itable = s.itable) X :=
  sat_iupdate h.lt fun _ hv => ⟨h.good hv rfl, hv, rfl⟩

/-! ## `itrunc` -/

/-- The block numbers other than 0 that `f` has at the places of a list. -/
def held {ι : Type} (f : ι → Nat) (ks : List ι) : List Nat := (ks.filter fun k => decide (f k ≠ 0)).map f

theorem mem_held {f : ι → Nat} {ks : List ι} {b : Nat} : b ∈ held f ks ↔ ∃ k ∈ ks, f k ≠ 0 ∧ f k = b := by
  simp [held, and_assoc]

theorem held_cons_zero {f : ι → Nat} {k : ι} {ks : List ι} (h : f k = 0) : held f (k :: ks) = held f ks := by
  simp [held, h]

theorem held_cons {f : ι → Nat} {k : ι} {ks : List ι} (h : f k ≠ 0) :
    held f (k :: ks) = f k :: held f ks := by
  simp [held, h]

theorem held_congr {f g : ι → Nat} {ks : List ι} (h : ∀ k ∈ ks, f k = g k) : held f ks = held g ks := by
  unfold held
  rw [filter_congr fun k hk => by rw [h k hk]]
  exact map_congr_left fun k hk => h k (mem_of_mem_filter hk)

theorem nodup_held {f : ι → Nat} {ks : List ι} (hks : ks.Nodup)
    (h : ∀ k ∈ ks, ∀ k' ∈ ks, f k ≠ 0 → f k = f k' → k = k') : (held f ks).Nodup := by
  refine List.Nodup.map_on (fun k hk k' hk' e => ?_) (hks.filter _)
  simp only [mem_filter, decide_eq_true_eq] at hk hk'
  exact h k hk.1 k' hk'.1 hk.2 e

/-- The view after the blocks of a list have been freed. -/
def View.clear (v : View) (bs : List Nat) : View := { v with bit := fun b => v.bit b && decide (b ∉ bs) }

theorem clear_cons (v : View) (b : Nat) (bs : List Nat) :
    clear { v with bit := update v.bit b false } bs = v.clear (b :: bs) := by
  unfold clear
  congr 1
  funext c
  by_cases e : c = b
  · subst e; simp
  · simp [e]

@[simp] theorem clear_nil (v : View) : v.clear [] = v := by
  simp [clear]

/-- The blocks of a list can be freed one after the other. -/
def CanFree (sb : Super) (v : View) (bs : List Nat) : Prop := bs.Nodup ∧ ∀ b ∈ bs, b < sb.size ∧ v.bit b = true

theorem CanFree.tail {b : Nat} {bs : List Nat} (h : CanFree sb v (b :: bs)) :
    CanFree sb { v with bit := update v.bit b false } bs := by
  obtain ⟨hnd, hall⟩ := h
  rw [nodup_cons] at hnd
  refine ⟨hnd.2, fun c hc => ?_⟩
  have hne : c ≠ b := fun e => hnd.1 (e ▸ hc)
  obtain ⟨h1, h2⟩ := hall c (mem_cons_of_mem _ hc)
  exact ⟨h1, by dsimp only; rw [update_of_ne hne]; exact h2⟩

theorem truncEntries_spec {x : Block} {js : List Nat} {s : FsState} (h : CanFree sb (view sb s.blocks) (held (getEnt x) js)) :
    Sat seq (truncEntries sb x js) s
      (fun _ s' => view sb s'.blocks = (view sb s.blocks).clear (held (getEnt x) js) ∧ s'.itable = s.itable) X := by
  induction js generalizing s with
  | nil => simp [truncEntries, held]
  | cons j js ih =>
    unfold truncEntries
    by_cases h0 : getEnt x j = 0
    · rw [held_cons_zero h0] at h ⊢
      simp only [h0, ne_eq, not_true, if_false]
      exact ih h
    · rw [held_cons h0] at h ⊢
      simp only [h0, ne_eq, not_false_eq_true, if_true, sat_bind]
      obtain ⟨hlt, hbit⟩ := h.2 _ mem_cons_self
      refine bfree_spec hlt hbit fun blocks hv => ?_
      refine (ih (by dsimp only; rw [hv]; exact h.tail)).mono ?_
      rintro _ s' ⟨h1, h2⟩
      exact ⟨by rw [h1, hv, clear_cons], h2⟩

/-- The inode without the blocks at the places of a list. -/
def Dinode.zeroAddrs (d : Dinode) (ks : List (Fin (NDIRECT + 1))) : Dinode :=
  { d with addrs := fun k => if k ∈ ks then 0 else d.addrs k }

theorem zeroAddrs_cons (d : Dinode) (k : Fin (NDIRECT + 1)) (ks : List (Fin (NDIRECT + 1))) :
    (d.setAddr k 0).zeroAddrs ks = d.zeroAddrs (k :: ks) := by
  unfold Dinode.zeroAddrs Dinode.setAddr
  congr 1
  funext k'
  by_cases e : k' = k
  · subst e; simp
  · simp [e]

theorem zeroAddrs_cons_zero {k : Fin (NDIRECT + 1)} (h : d.addrs k = 0) (ks : List (Fin (NDIRECT + 1))) :
    d.zeroAddrs ks = d.zeroAddrs (k :: ks) := by
  unfold Dinode.zeroAddrs
  congr 1
  funext k'
  by_cases e : k' = k
  · subst e; simp [h]
  · simp [e]

theorem truncDirect_spec {ks : List (Fin (NDIRECT + 1))} {s : FsState} (hks : ks.Nodup)
    (h : CanFree sb (view sb s.blocks) (held (fun k => ((s.itable ip).d.addrs k).toNat) ks)) :
    Sat seq (truncDirect sb ip ks) s
      (fun _ s' =>
        view sb s'.blocks = (view sb s.blocks).clear (held (fun k => ((s.itable ip).d.addrs k).toNat) ks) ∧
        s'.itable = update s.itable ip { s.itable ip with d := (s.itable ip).d.zeroAddrs ks }) X := by
  induction ks generalizing s with
  | nil =>
    exact ⟨by simp [held], by simp [Dinode.zeroAddrs]⟩
  | cons k ks ih =>
    rw [nodup_cons] at hks
    simp only [truncDirect, sat_bind, sat_iat]
    by_cases h0 : (s.itable ip).d.addrs k = 0
    · rw [held_cons_zero (by rw [h0]; rfl)] at h ⊢
      simp only [h0, UInt32.toNat_zero, ne_eq, not_true, if_false, ← zeroAddrs_cons_zero h0]
      exact ih hks.2 h
    · have hn : ((s.itable ip).d.addrs k).toNat ≠ 0 := fun e => h0 (UInt32.toNat_inj.1 (by simpa using e))
      rw [held_cons (f := fun k => ((s.itable ip).d.addrs k).toNat) hn] at h ⊢
      simp only [hn, ne_eq, not_false_eq_true, if_true, sat_bind]
      obtain ⟨hlt, hbit⟩ := h.2 _ mem_cons_self
      refine bfree_spec hlt hbit fun blocks hv => ?_
      rw [sat_iset]
      -- the places still to come keep their numbers
      have hcongr : held (fun k' => (((s.itable ip).d.setAddr k 0).addrs k').toNat) ks
          = held (fun k' => ((s.itable ip).d.addrs k').toNat) ks := by
        refine held_congr fun k' hk' => ?_
        have hne : k' ≠ k := fun e => hks.1 (e ▸ hk')
        simp [Dinode.setAddr, hne]
      refine (ih hks.2 ?_).mono ?_
      · rw [setI_self, setI_blocks, hcongr, hv]
        exact h.tail
      rintro _ s' ⟨h1, h2⟩
      rw [setI_self, setI_blocks] at h1
      dsimp only at h1
      rw [hcongr, hv, clear_cons] at h1
      refine ⟨h1, ?_⟩
      rw [h2, setI_self]
      simp [setI, zeroAddrs_cons]

theorem held_append {f : ι → Nat} {ks ks' : List ι} : held f (ks ++ ks') = held f ks ++ held f ks' := by
  simp [held]

theorem held_map {κ : Type} {f : κ → Nat} {g : ι → κ} {ks : List ι} : held f (ks.map g) = held (fun k => f (g k)) ks := by
  unfold held
  rw [filter_map, map_map]
  rfl

theorem CanFree.left {l l' : List Nat} (h : CanFree sb v (l ++ l')) : CanFree sb v l :=
  ⟨(nodup_append.1 h.1).1, fun b hb => h.2 b (mem_append_left _ hb)⟩

theorem CanFree.right {l l' : List Nat} (h : CanFree sb v (l ++ l')) : CanFree sb (v.clear l) l' := by
  obtain ⟨-, h2, h3⟩ := nodup_append.1 h.1
  refine ⟨h2, fun b hb => ?_⟩
  obtain ⟨h4, h5⟩ := h.2 b (mem_append_right _ hb)
  have hne : b ∉ l := fun hl => h3 b hl b hb rfl
  exact ⟨h4, by simp [clear, h5, hne]⟩

theorem clear_append (v : View) (l l' : List Nat) : (v.clear l).clear l' = v.clear (l ++ l') := by
  unfold clear
  congr 1
  funext b
  simp [Bool.and_assoc]

theorem clear_data (v : View) (l : List Nat) : (v.clear l).data = v.data := rfl

/-- The slots in the order in which `itrunc` frees their blocks. -/
def truncOrder : List Nat := List.range NDIRECT ++ ((List.range NINDIRECT).map (NDIRECT + 1 + ·) ++ [NDIRECT])

theorem mem_truncOrder {k : Nat} : k ∈ truncOrder ↔ k < NSLOT := by
  simp only [truncOrder, mem_append, mem_range, mem_map, mem_singleton, NSLOT]
  constructor
  · rintro (h | ⟨j, hj, rfl⟩ | rfl) <;> omega
  intro h
  by_cases h1 : k < NDIRECT
  · exact .inl h1
  · by_cases h2 : k = NDIRECT
    · exact .inr (.inr h2)
    · exact .inr (.inl ⟨k - (NDIRECT + 1), by omega, by omega⟩)

theorem nodup_truncOrder : truncOrder.Nodup := by
  refine nodup_append.2 ⟨nodup_range, nodup_append.2 ⟨?_, by simp, ?_⟩, ?_⟩
  · exact List.Nodup.map (fun a b h => by omega) nodup_range
  · simp only [mem_map, mem_singleton]
    rintro _ ⟨j, -, rfl⟩ _ rfl
    omega
  · simp only [mem_append, mem_range, mem_map, mem_singleton]
    rintro k hk _ (⟨j, -, rfl⟩ | rfl) <;> omega

theorem Consistent.canFree (h : Consistent sb v) (hi : v.Alloc i) :
    CanFree sb v (held (v.slot i) truncOrder) := by
  refine ⟨nodup_held nodup_truncOrder fun k hk k' hk' hne e => ?_, fun b hb => ?_⟩
  · exact (h.once i k i k' hi hi (mem_truncOrder.1 hk) (mem_truncOrder.1 hk') hne e).2
  · obtain ⟨k, hk, hne, rfl⟩ := mem_held.1 hb
    obtain ⟨h1, h2⟩ := h.mapped i k hi (mem_truncOrder.1 hk) hne
    exact ⟨h1.2, h2⟩

theorem truncIndirect_spec {a : Nat} (ha : ((s.itable ip).d.addrs indirect).toNat = a) (hD : a ≠ 0 → sb.Data a)
    (h : a ≠ 0 → CanFree sb (view sb s.blocks) (held (getEnt ((view sb s.blocks).data a)) (range NINDIRECT) ++ [a])) :
    Sat seq (truncIndirect sb ip) s
      (fun _ s' =>
        view sb s'.blocks = (view sb s.blocks).clear
          (if a = 0 then [] else held (getEnt ((view sb s.blocks).data a)) (range NINDIRECT) ++ [a]) ∧
        s'.itable = update s.itable ip { s.itable ip with d := (s.itable ip).d.setAddr indirect 0 }) X := by
  simp only [truncIndirect, sat_bind, sat_iat, ha]
  by_cases h0 : a = 0
  · have h0' : (s.itable ip).d.addrs indirect = 0 := UInt32.toNat_inj.1 (by simpa [h0] using ha)
    have hd : (s.itable ip).d.setAddr indirect 0 = (s.itable ip).d := by
      unfold Dinode.setAddr
      congr 1
      funext k
      by_cases e : k = indirect
      · subst e; simp [h0']
      · simp [e]
    simp only [h0, ne_eq, not_true, if_false, if_true, sat_pure, hd]
    exact ⟨by simp, by simp⟩
  · have hf := h h0
    have hx : (view sb s.blocks).data a = s.blocks a := view_data_eq (hD h0)
    simp only [h0, ne_eq, not_false_eq_true, if_true, if_false, sat_bind, sat_bread]
    rw [hx] at hf ⊢
    refine (truncEntries_spec hf.left).mono ?_
    rintro _ s1 ⟨h1, h2⟩
    obtain ⟨hlt, hbit⟩ := hf.right.2 a mem_cons_self
    refine bfree_spec hlt (by rw [h1]; exact hbit) fun blocks hv => ?_
    refine ⟨?_, by simp [setI, h2]⟩
    rw [hv, ← clear_nil { view sb s1.blocks with bit := _ }, clear_cons, h1, clear_append]

def Dinode.trunc (d : Dinode) : Dinode := { d with addrs := fun _ => 0, size := 0 }

theorem zeroAddrs_all (d : Dinode) :
    { (d.zeroAddrs ((finRange NDIRECT).map Fin.castSucc)).setAddr indirect 0 with size := 0 } = d.trunc := by
  refine Dinode.ext rfl rfl rfl rfl rfl (funext fun k => ?_)
  by_cases e : k = indirect
  · subst e; simp [Dinode.setAddr, Dinode.trunc]
  have hk : k.val < NDIRECT := by
    have hne : k.val ≠ NDIRECT := fun h => e (Fin.ext h)
    omega
  have hmem : k ∈ (finRange NDIRECT).map Fin.castSucc :=
    mem_map.2 ⟨⟨k.val, hk⟩, mem_finRange _, Fin.ext rfl⟩
  simp only [Dinode.setAddr, Dinode.zeroAddrs, Dinode.trunc, update_of_ne e, hmem, if_true]

theorem held_truncOrder {data : Nat → Block} {a : Nat} (ha : (d.addrs indirect).toNat = a) :
    held (slotOf data d) truncOrder = held (fun k => (d.addrs k).toNat) ((finRange NDIRECT).map Fin.castSucc) ++
      if a = 0 then [] else held (getEnt (data a)) (range NINDIRECT) ++ [a] := by
  have h12 : slotOf data d NDIRECT = a := slotOf_indirect.trans ha
  rw [truncOrder, held_append, held_append, held_map, held_map]
  congr 1
  · rw [← map_coe_finRange_eq_range, held_map]
    refine held_congr fun k _ => ?_
    have hk : k.val < NDIRECT + 1 := by omega
    rw [slotOf, dif_pos hk]
    rfl
  · have hent : ∀ j, slotOf data d (NDIRECT + 1 + j) = if a = 0 then 0 else getEnt (data a) j := by
      intro j
      rw [slotOf, dif_neg (by omega), ha, Nat.add_sub_cancel_left]
    by_cases h0 : a = 0
    · simp [held, hent, h0, h12]
    · have h1 : held (slotOf data d) [NDIRECT] = [a] := by
        rw [held_cons (by rw [h12]; exact h0), h12]; rfl
      rw [if_neg h0, h1]
      congr 1
      exact held_congr fun j _ => by rw [hent, if_neg h0]

structure TruncPost (sb : Super) (ip : Nat) (s s' : FsState) : Prop where
  good : Good sb s'
  ino : (view sb s'.blocks).ino = update (view sb s.blocks).ino (s.itable ip).inum (s.itable ip).d.trunc
  data : (view sb s'.blocks).data = (view sb s.blocks).data
  itable : s'.itable = update s.itable ip { s.itable ip with d := (s.itable ip).d.trunc }

theorem setIno_slot_ne (v : View) (d : Dinode) {j k : Nat} (h : j ≠ i) : (v.setIno i d).slot j k = v.slot j k := by
  unfold View.slot
  rw [setIno_ino_ne _ _ h]
  rfl

theorem Consistent.trunc (h : Consistent sb v) (hi : v.Alloc i) :
    Consistent sb ((v.clear (held (v.slot i) truncOrder)).setIno i (v.ino i).trunc) := by
  have hne : ∀ j, j ≠ i → ((v.clear (held (v.slot i) truncOrder)).setIno i (v.ino i).trunc).ino j = v.ino j :=
    fun j hj => setIno_ino_ne _ _ hj
  refine h.drop hi (fun b => ?_) (fun j hj => ?_) (fun k hk => ?_) (fun j k hj _ _ => ?_) (fun j hj => ?_) ?_
  · simp only [setIno, clear, Bool.and_eq_true, decide_eq_true_eq, mem_held, mem_truncOrder]
    constructor
    · rintro ⟨h1, h2⟩
      exact ⟨h1, fun k hk h0 e => h2 ⟨k, hk, h0, e⟩⟩
    · rintro ⟨h1, h2⟩
      refine ⟨h1, ?_⟩
      rintro ⟨k, hk, h0, e⟩
      exact h2 k hk h0 e
  · unfold View.Alloc
    rw [hne j hj]
  · unfold View.slot
    simp [slotOf, Dinode.trunc]
  · rw [setIno_slot_ne _ _ hj]
    rfl
  · rw [hne j hj]
  · rw [setIno_ino_self]
    rfl

theorem itrunc_spec (h : Held sb s ip) : Sat seq (itrunc sb ip) s (fun _ s' => TruncPost sb ip s s') X := by
  have hi : (cur sb s ip).Alloc (s.itable ip).inum := by
    unfold View.Alloc
    rw [cur_ino_self]
    exact h.alloc ip h.live
  have hfree := h.cons.canFree hi
  have hcons := h.cons.trunc hi
  have hslots : (cur sb s ip).slot (s.itable ip).inum = slotOf (view sb s.blocks).data (s.itable ip).d := by
    funext k
    exact slot_eq
  rw [hslots] at hcons
  rw [hslots, held_truncOrder rfl] at hfree
  simp only [itrunc, sat_bind]
  refine (truncDirect_spec ?_ hfree.left).mono ?_
  · exact List.Nodup.map (Fin.castSucc_injective _) (nodup_finRange _)
  rintro _ s1 ⟨hv1, ht1⟩
  have ha1 : ((s1.itable ip).d.addrs indirect).toNat = ((s.itable ip).d.addrs indirect).toNat := by
    have hn : indirect ∉ (finRange NDIRECT).map Fin.castSucc := by decide
    simp only [ht1, update_self, Dinode.zeroAddrs, hn, if_false]
  refine (truncIndirect_spec ha1 (fun h0 => ?_) (fun h0 => ?_)).mono ?_
  · have := data_of_slot h.cons (h.alloc ip h.live) indirect_lt_NSLOT
    rw [slot_eq, slotOf_indirect] at this
    exact this h0
  · have := hfree.right
    rw [if_neg h0] at this
    rw [hv1]
    exact this
  rintro _ s2 ⟨hv2, ht2⟩
  rw [hv1, clear_data, clear_append, ← held_truncOrder rfl] at hv2
  rw [sat_iset]
  have ht : (s2.setI ip fun t => { t with d := { t.d with size := 0 } }).itable
      = update s.itable ip { s.itable ip with d := (s.itable ip).d.trunc } := by
    simp only [setI, ht2, ht1, update_self, update_idem, zeroAddrs_all]
  have hcur : cur sb (s2.setI ip fun t => { t with d := { t.d with size := 0 } }) ip
      = ((view sb s.blocks).clear (held (slotOf (view sb s.blocks).data (s.itable ip).d) truncOrder)).setIno
          (s.itable ip).inum (s.itable ip).d.trunc := by
    rw [cur, ht, setI_blocks, hv2, update_self]
  have hheld : Held sb (s2.setI ip fun t => { t with d := { t.d with size := 0 } }) ip := by
    refine h.change ?_ (by rw [setI_blocks, hv2]; rfl) ht (h.alloc ip h.live)
    rw [hcur]
    simpa [setIno, clear, cur] using hcons
  refine (iupdate_spec hheld).mono ?_
  rintro _ s' ⟨hgood, hv, ht'⟩
  rw [hcur] at hv
  exact ⟨hgood, by rw [hv]; rfl, by rw [hv]; rfl, ht'.trans ht⟩

/-! ## `iput` -/

theorem Consistent.free (h : Consistent sb v) (hi : v.Alloc i)
    (hnil : ∀ k < NSLOT, v.slot i k = 0) (hd : d.addrs = fun _ => 0) (hsize : d.size = 0) :
    Consistent sb (v.setIno i d) := by
  refine h.drop hi (fun b => ?_) (fun j hj => ?_) (fun k _ => ?_) (fun j k hj _ _ => ?_) (fun j hj => ?_) ?_
  · exact ⟨fun hb => ⟨hb, fun k hk h0 => absurd (hnil k hk) h0⟩, And.left⟩
  · unfold View.Alloc
    rw [setIno_ino_ne _ _ hj]
  · unfold View.slot
    simp [slotOf, hd]
  · exact setIno_slot_ne _ _ hj
  · rw [setIno_ino_ne _ _ hj]
  · rw [setIno_ino_self]
    exact hsize

theorem Good.release (h : Good sb s) (hc : Consistent sb (view sb s'.blocks))
    (hk : ∀ k, 0 < (s'.itable k).ref → 0 < (s.itable k).ref ∧ (s'.itable k).inum = (s.itable k).inum)
    (hl : ∀ k, Live s' k → Live s k ∧ (s'.itable k).d = (s.itable k).d ∧
      (view sb s'.blocks).ino (s.itable k).inum = (view sb s.blocks).ino (s.itable k).inum) : Good sb s' := by
  refine ⟨hc, ⟨fun k hr => h.table.lt k (hk k hr).1, fun k k' hr hr' e => ?_⟩, fun k hkl => ?_, fun k hkl => ?_⟩
  · rw [(hk k hr).2, (hk k' hr').2] at e
    exact h.table.unique k k' (hk k hr).1 (hk k' hr').1 e
  · obtain ⟨h1, h2, h3⟩ := hl k hkl
    rw [h2, (hk k hkl.1).2, h3]
    exact h.copy k h1
  · obtain ⟨h1, h2, -⟩ := hl k hkl
    rw [h2]
    exact h.alloc k h1

def Dinode.freed (d : Dinode) : Dinode := { d.trunc with type := 0 }

structure IputPost (sb : Super) (ip : Nat) (s s' : FsState) : Prop where
  good : Good sb s'
  kept : ¬(s.itable ip).Frees → s'.blocks = s.blocks ∧
    s'.itable = update s.itable ip { s.itable ip with ref := (s.itable ip).ref - 1 }
  freed : (s.itable ip).Frees →
    (view sb s'.blocks).ino = update (view sb s.blocks).ino (s.itable ip).inum (s.itable ip).d.freed ∧
    (view sb s'.blocks).data = (view sb s.blocks).data ∧
    s'.itable = update s.itable ip ⟨(s.itable ip).inum, 0, false, (s.itable ip).d.freed⟩

theorem iput_freed (h : Good sb s) (hf : (s.itable ip).Frees) (hc : Consistent sb (view sb s'.blocks))
    (hino : (view sb s'.blocks).ino = update (view sb s.blocks).ino (s.itable ip).inum (s.itable ip).d.freed)
    (hdata : (view sb s'.blocks).data = (view sb s.blocks).data)
    (ht : s'.itable = update s.itable ip ⟨(s.itable ip).inum, 0, false, (s.itable ip).d.freed⟩) :
    IputPost sb ip s s' := by
  have hne : ∀ k, 0 < (s'.itable k).ref → k ≠ ip := by
    rintro k hk rfl
    rw [ht, update_self] at hk
    exact absurd hk (Nat.lt_irrefl 0)
  have hother : ∀ k, k ≠ ip → s'.itable k = s.itable k := fun k hk => by rw [ht, update_of_ne hk]
  refine ⟨h.release hc (fun k hk => ?_) (fun k hk => ?_), fun hf' => absurd hf hf', fun _ => ⟨hino, hdata, ht⟩⟩
  · have e := hother k (hne k hk)
    rw [e] at hk ⊢
    exact ⟨hk, rfl⟩
  · have hk' := hne k hk.1
    have e := hother k hk'
    rw [Live, e] at hk
    refine ⟨hk, by rw [e], ?_⟩
    rw [hino, update_of_ne]
    intro e'
    exact hk' (h.table.unique k ip hk.1 (by rw [hf.1]; exact Nat.one_pos) e')

theorem iput_spec (h : Good sb s) (hr : 0 < (s.itable ip).ref) :
    Sat seq (iput sb ip) s (fun _ s' => IputPost sb ip s s') X := by
  simp only [iput, sat_bind, sat_iat]
  by_cases hf : (s.itable ip).Frees
  · have hl : Live s ip := ⟨hr, hf.2.1⟩
    rw [if_pos hf]
    simp only [sat_bind]
    refine (itrunc_spec (h.held hl)).mono ?_
    intro _ s1 t
    have hs1 : s1.itable ip = { s.itable ip with d := (s.itable ip).d.trunc } := by rw [t.itable, update_self]
    rw [sat_iset]
    refine sat_iupdate (by rw [setI_self, hs1]; exact h.lt_ninodes hl) fun blocks hv => ?_
    have hv' : view sb blocks = (view sb s1.blocks).setIno (s.itable ip).inum (s.itable ip).d.freed := by
      rw [hv, cur, setI_self, setI_blocks, hs1]
      rfl
    have hi1 : (view sb s1.blocks).ino (s.itable ip).inum = (s.itable ip).d.trunc := by rw [t.ino, update_self]
    have hc : Consistent sb (view sb blocks) := by
      rw [hv']
      refine t.good.cons.free ?_ (fun k _ => ?_) rfl rfl
      · unfold View.Alloc
        rw [hi1]
        exact h.alloc ip hl
      · unfold View.slot
        rw [hi1]
        simp [slotOf, Dinode.trunc]
    have hino : (view sb blocks).ino = update (view sb s.blocks).ino (s.itable ip).inum (s.itable ip).d.freed := by
      rw [hv', setIno, t.ino, update_idem]
    refine iput_freed h hf hc hino ?_ ?_
    · exact (congrArg data hv').trans t.data
    · funext k
      by_cases e : k = ip
      · subst e
        simp [setI, hs1, hf.1, Dinode.freed]
      · simp [setI, e, t.itable]
  · rw [if_neg hf]
    simp only [sat_pure, sat_iset]
    have hother : ∀ k, k ≠ ip → (s.setI ip fun t => { t with ref := t.ref - 1 }).itable k = s.itable k :=
      fun k hk => setI_ne _ hk
    refine ⟨h.release h.cons (fun k hk => ?_) (fun k hk => ?_), fun _ => ⟨rfl, rfl⟩, fun hf' => absurd hf' hf⟩
    · by_cases e : k = ip
      · subst e; exact ⟨hr, by rw [setI_self]⟩
      · rw [hother k e] at hk ⊢
        exact ⟨hk, rfl⟩
    · by_cases e : k = ip
      · subst e
        rw [Live, setI_self] at hk
        exact ⟨⟨hr, hk.2⟩, by rw [setI_self], rfl⟩
      · rw [Live, hother k e] at hk
        exact ⟨hk, by rw [hother k e], rfl⟩

/-! ## `iget` and `ialloc` -/

structure IgetPost (inum : Nat) (s : FsState) (k : Nat) (s' : FsState) : Prop where
  blocks : s'.blocks = s.blocks
  lt : k < NINODE
  other : ∀ j, j ≠ k → s'.itable j = s.itable j
  entry : (0 < (s.itable k).ref ∧ (s.itable k).inum = inum ∧
      s'.itable k = { s.itable k with ref := (s.itable k).ref + 1 }) ∨
    ((s.itable k).ref = 0 ∧ (∀ j, 0 < (s.itable j).ref → (s.itable j).inum ≠ inum) ∧
      s'.itable k = { s.itable k with inum := inum, ref := 1, valid := false })

theorem iget_spec {inum : Nat} (h : TableOk s.itable) (hX : igetSlot s.itable inum = none → X "iget: no inodes") :
    Sat seq (iget inum) s (IgetPost inum s) X := by
  simp only [iget, sat_bind, sat_perform, seq]
  cases hf : igetFind s.itable inum with
  | some k =>
    have hp := find?_some hf
    have hlt := mem_range.1 (mem_of_find?_eq_some hf)
    simp only [Bool.and_eq_true, decide_eq_true_eq] at hp
    simp only [igetSlot, hf, sat_pure]
    refine ⟨rfl, hlt, fun j hj => ?_, .inl ⟨hp.1, hp.2, ?_⟩⟩
    · simp only [igetTable, hf, update_of_ne hj]
    · simp only [igetTable, hf, update_self]
  | none =>
    have hnone : ∀ j, 0 < (s.itable j).ref → (s.itable j).inum ≠ inum := by
      intro j hj e
      have := find?_eq_none.1 hf j (mem_range.2 (h.lt j hj))
      simp [hj, e] at this
    cases he : igetEmpty s.itable with
    | none => simpa only [igetSlot, hf, he, sat_panic, forall_const] using hX
    | some k =>
      have hp := find?_some he
      have hlt := mem_range.1 (mem_of_find?_eq_some he)
      simp only [decide_eq_true_eq] at hp
      simp only [igetSlot, hf, he, sat_pure]
      refine ⟨rfl, hlt, fun j hj => ?_, .inr ⟨hp, hnone, ?_⟩⟩
      · simp only [igetTable, hf, he, update_of_ne hj]
      · simp only [igetTable, hf, he, update_self]

section
variable {inum k : Nat}

section
variable (h : IgetPost inum s k s')
include h

theorem IgetPost.ref_pos : 0 < (s'.itable k).ref := by
  rcases h.entry with ⟨-, -, e⟩ | ⟨-, -, e⟩ <;> simp [e]

theorem IgetPost.inum_eq : (s'.itable k).inum = inum := by
  rcases h.entry with ⟨-, e', e⟩ | ⟨-, -, e⟩ <;> simp [e]
  exact e'

theorem IgetPost.old {j : Nat} (hj : 0 < (s'.itable j).ref) :
    (j = k ∧ (s.itable j).ref = 0 ∧ (s'.itable j).valid = false) ∨
      0 < (s.itable j).ref ∧ (s'.itable j).inum = (s.itable j).inum ∧ (s'.itable j).valid = (s.itable j).valid ∧
        (s'.itable j).d = (s.itable j).d := by
  by_cases e : j = k
  · subst e
    rcases h.entry with ⟨h1, -, e⟩ | ⟨h1, -, e⟩
    · exact .inr ⟨h1, by rw [e], by rw [e], by rw [e]⟩
    · exact .inl ⟨rfl, h1, by rw [e]⟩
  · rw [h.other j e] at hj ⊢
    exact .inr ⟨hj, rfl, rfl, rfl⟩

theorem IgetPost.table (ht : TableOk s.itable) : TableOk s'.itable := by
  -- an entry newly in use holds an inode that no other entry holds
  have hnew : ∀ j, (s.itable k).ref = 0 → 0 < (s.itable j).ref → (s'.itable k).inum ≠ (s.itable j).inum := by
    intro j h0 hj e
    rcases h.entry with ⟨h1, -, -⟩ | ⟨-, hn, -⟩
    · omega
    · exact hn j hj (e.symm.trans h.inum_eq)
  constructor
  · intro j hj
    rcases h.old hj with ⟨rfl, -, -⟩ | ⟨h1, -⟩
    · exact h.lt
    · exact ht.lt j h1
  · intro j j' hj hj' e
    rcases h.old hj with ⟨rfl, h0, -⟩ | ⟨h1, e1, -⟩ <;> rcases h.old hj' with ⟨rfl, h0', -⟩ | ⟨h1', e1', -⟩
    · rfl
    · rw [e1'] at e; exact absurd e (hnew j' h0 h1')
    · rw [e1] at e; exact absurd e.symm (hnew j h0' h1)
    · rw [e1, e1'] at e; exact ht.unique j j' h1 h1' e

theorem IgetPost.live {j : Nat} (hj : Live s' j) :
    Live s j ∧ (s'.itable j).inum = (s.itable j).inum ∧ (s'.itable j).d = (s.itable j).d := by
  rcases h.old hj.1 with ⟨-, -, hv⟩ | ⟨h1, h2, h3, h4⟩
  · rw [hj.2] at hv
    cases hv
  · exact ⟨⟨h1, h3 ▸ hj.2⟩, h2, h4⟩

theorem IgetPost.good (hg : Good sb s) : Good sb s' := by
  refine ⟨by rw [h.blocks]; exact hg.cons, h.table hg.table, fun j hj => ?_, fun j hj => ?_⟩
  · obtain ⟨h1, h2, h3⟩ := h.live hj
    rw [h2, h3, h.blocks]
    exact hg.copy j h1
  · obtain ⟨h1, -, h3⟩ := h.live hj
    rw [h3]
    exact hg.alloc j h1

end

end

theorem Good.fresh {inum : Nat} {type : UInt16} {blocks : Nat → Block} (h : Good sb s)
    (hfree : ¬(view sb s.blocks).Alloc inum)
    (hv : view sb blocks = (view sb s.blocks).setIno inum { type := type }) : Good sb { s with blocks := blocks } := by
  refine ⟨?_, h.table, fun k hk => ?_, fun k hk => h.alloc k hk⟩
  · rw [hv]
    exact h.cons.fresh hfree rfl rfl (d := { type := type }) rfl
  have hcopy := h.copy k hk
  have hne : (s.itable k).inum ≠ inum := by
    rintro rfl
    exact hfree (by unfold View.Alloc; rw [← hcopy]; exact h.alloc k hk)
  rw [hv, setIno_ino_ne _ _ hne]
  exact hcopy

/-- `ialloc` finds no free inode, or it returns an entry for one that was free. -/
def IallocPost (sb : Super) (type : UInt16) (s : FsState) : Option Nat → FsState → Prop
  | none, s' => s' = s
  | some k, s' => ∃ inum blocks, 0 < inum ∧ inum < sb.ninodes ∧ ¬(view sb s.blocks).Alloc inum ∧
      view sb blocks = (view sb s.blocks).setIno inum { type := type } ∧
      Good sb { s with blocks := blocks } ∧ IgetPost inum { s with blocks := blocks } k s'

theorem iallocFrom_spec {type : UInt16} {is : List Nat} (h : Good sb s) (his : ∀ i ∈ is, 0 < i ∧ i < sb.ninodes)
    (hX : X "iget: no inodes") : Sat seq (iallocFrom sb type is) s (IallocPost sb type s) X := by
  induction is with
  | nil => simp [iallocFrom, IallocPost]
  | cons inum is ih =>
    obtain ⟨h0, hlt⟩ := his inum mem_cons_self
    simp only [iallocFrom, sat_bind, sat_bread]
    by_cases ht : (getDinode (s.blocks (sb.iblock inum)) inum).type = 0
    · simp only [ht, if_true, sat_bind, sat_commitBuf]
      have hfree : ¬(view sb s.blocks).Alloc inum := by
        unfold View.Alloc
        rw [view_ino_eq hlt, ht]
        simp
      have hgood := h.fresh hfree (view_putDinode (d := { type := type }) hlt)
      refine (iget_spec hgood.table fun _ => hX).mono ?_
      intro k s' hget
      exact ⟨inum, _, h0, hlt, hfree, view_putDinode hlt, hgood, hget⟩
    · simp only [ht, if_false, sat_bind, sat_brelse]
      exact ih fun i hi => his i (mem_cons_of_mem _ hi)

theorem ialloc_spec {type : UInt16} (h : Good sb s) (hX : X "iget: no inodes") :
    Sat seq (ialloc sb type) s (IallocPost sb type s) X := by
  refine iallocFrom_spec h (fun i hi => ?_) hX
  obtain ⟨j, hj, rfl⟩ := mem_iff_getElem.1 hi
  simp only [length_drop, length_range] at hj
  simp only [getElem_drop, getElem_range]
  omega

end

end Xv6.Fs
