import Xv6.Lib.Chain
import Xv6.Lib.Tiles
import Xv6.Malloc.Umalloc

/-!
# The free list

The list is a ring through the static header `base`, with the blocks in the order of their addresses and none next to another. `free` finds
the place of a block from wherever `freep` points to, and `malloc` finds a block that fits, or comes back to `freep`. What either does to
the blocks is to cut the same units in another way.
-/

namespace Xv6.Malloc

open Function (update update_self update_of_ne)
open Links Pieces List Nat

/-! ## Blocks -/

/-- A block with its header, which counts as one of the units. -/
structure Block where
  addr : Nat
  units : Nat

def Block.stop (b : Block) : Nat := b.addr + HEADER * b.units

def Block.bytes (b : Block) : Set Nat := Set.Ico b.addr b.stop

/-- The two are disjoint and not adjacent. -/
def Before (a b : Block) : Prop := a.stop < b.addr

def total (bs : List Block) : Nat := (bs.map Block.units).sum

/-- The same units, differently cut. -/
structure Recut (bs bs' : List Block) : Prop where
  tiles : ∀ rest S, Tiles Block.bytes (bs ++ rest) S ↔ Tiles Block.bytes (bs' ++ rest) S
  total : total bs = total bs'

section
variable {a b : Block} {bs bs' bs'' cs : List Block}

theorem Block.addr_le_stop (b : Block) : b.addr ≤ b.stop := Nat.le_add_right ..

theorem Block.addr_lt_stop (h : 0 < b.units) : b.addr < b.stop :=
  Nat.lt_add_of_pos_right (Nat.mul_pos (by decide) h)

theorem Block.addr_mem (h : 0 < b.units) : b.addr ∈ b.bytes := ⟨le_refl _, b.addr_lt_stop h⟩

theorem Block.below_or_above (ha : 0 < a.units) (hb : 0 < b.units) (h : Disjoint a.bytes b.bytes) : a.stop ≤ b.addr ∨ b.stop ≤ a.addr := by
  have ha := a.addr_lt_stop ha
  have hb := b.addr_lt_stop hb
  have := Set.Ico_disjoint_Ico.1 h
  omega

theorem Before.addr_lt (h : Before a b) : a.addr < b.addr := lt_of_le_of_lt a.addr_le_stop h

theorem total_append : total (bs ++ cs) = total bs + total cs := by
  rw [total, map_append, sum_append]
  rfl

theorem total_cons : total (b :: bs) = b.units + total bs := by
  rfl

theorem Recut.refl (bs : List Block) : Recut bs bs := ⟨fun _ _ => Iff.rfl, rfl⟩

theorem Recut.symm (h : Recut bs bs') : Recut bs' bs := ⟨fun rest S => (h.tiles rest S).symm, h.total.symm⟩

theorem Recut.trans (h : Recut bs bs') (h' : Recut bs' bs'') : Recut bs bs'' :=
  ⟨fun rest S => (h.tiles rest S).trans (h'.tiles rest S), h.total.trans h'.total⟩

theorem Recut.of_perm (h : bs.Perm bs') : Recut bs bs' where
  tiles rest _ := ⟨fun ht => ht.perm (h.append_right rest), fun ht => ht.perm (h.symm.append_right rest)⟩
  total := (h.map Block.units).sum_nat

theorem Recut.append_right (h : Recut bs bs') (cs : List Block) : Recut (bs ++ cs) (bs' ++ cs) where
  tiles rest S := by
    rw [append_assoc, append_assoc]
    exact h.tiles (cs ++ rest) S
  total := by rw [total_append, total_append, h.total]

theorem Recut.append_left (h : Recut bs bs') (cs : List Block) : Recut (cs ++ bs) (cs ++ bs') :=
  ((Recut.of_perm perm_append_comm).trans (h.append_right cs)).trans (.of_perm perm_append_comm)

theorem recut_join (h : a.stop = b.addr) : Recut [⟨a.addr, a.units + b.units⟩] [a, b] where
  tiles rest S := by
    have hstop : (⟨a.addr, a.units + b.units⟩ : Block).stop = b.stop := by
      rw [Block.stop, Block.stop, ← h, Block.stop, mul_add, add_assoc]
    refine tiles_join ?_ ?_
    · rw [Block.bytes, Block.bytes, Block.bytes, hstop, h]
      exact (Set.Ico_union_Ico_eq_Ico (h ▸ a.addr_le_stop) b.addr_le_stop).symm
    · rw [Block.bytes, Block.bytes, ← h]
      exact Set.Ico_disjoint_Ico_same
  total := by
    exact add_assoc ..

end

/-! ## Rings -/

/-- The free list of `base` is `free`. -/
structure Ring (base : Nat) (s : State) (free : List Block) : Prop where
  chain : Chain s.ptr base (free.map Block.addr) base
  sizes : ∀ b ∈ ⟨base, 0⟩ :: free, s.size b.addr = b.units
  order : (⟨base, 0⟩ :: free).Pairwise Before
  pos : ∀ b ∈ free, 0 < b.units
  aligned : ∀ b ∈ free, HEADER ∣ b.addr
  freep : s.freep ∈ base :: free.map Block.addr

section
variable {base : Nat} {s : State} {fl l1 l2 : List Block}

theorem Ring.sorted (R : Ring base s fl) : (base :: fl.map Block.addr).Pairwise (· < ·) :=
  (pairwise_map).2 (R.order.imp Before.addr_lt)

theorem Ring.nodup (R : Ring base s fl) : (base :: fl.map Block.addr).Nodup := R.sorted.imp ne_of_lt

/-! ## The loop of `free` -/

/-- `free` stops at `p`. -/
def Stops (ptr : Nat → Nat) (bp p : Nat) : Prop := bp > p ∧ bp < ptr p ∨ p ≥ ptr p ∧ (bp > p ∨ bp < ptr p)

variable {ptr : Nat → Nat} {bp p limit : Nat} {s' : State} {c : Block} {ds : List Block}

theorem freeLoop_eq {rounds : Nat} (n : Nat) (hstop : Stops ptr bp (ptr^[n] p))
    (hmin : ∀ m < n, ¬Stops ptr bp (ptr^[m] p)) (hrounds : n < rounds) : freeLoop ptr bp rounds p = some (ptr^[n] p) := by
  induction n generalizing p rounds with
  | zero =>
    obtain ⟨rounds, rfl⟩ := exists_eq_succ_of_ne_zero (by omega : rounds ≠ 0)
    rw [freeLoop]
    rcases (show Stops ptr bp p from hstop) with h | h
    · exact if_pos h
    · rw [if_pos h, ite_self]
      rfl
  | succ n ih =>
    obtain ⟨rounds, rfl⟩ := exists_eq_succ_of_ne_zero (by omega : rounds ≠ 0)
    have hne : ¬Stops ptr bp p := hmin 0 (succ_pos n)
    rw [freeLoop, if_neg fun h => hne (.inl h), if_neg fun h => hne (.inr h)]
    exact ih hstop (fun m hm => hmin (m + 1) (by omega)) (by omega)

theorem chain_sorted {a z v : Nat} {l : List Nat} (h : Chain ptr a l z) (hs : (a :: l).Pairwise (· < ·)) (hv : v ∈ a :: l) :
    v = l.getLastD a ∨ v < ptr v ∧ ptr v ∈ l := by
  induction l generalizing a with
  | nil => exact .inl (mem_singleton.1 hv)
  | cons x l ih =>
    have hs' := pairwise_cons.1 hs
    rcases mem_cons.1 hv with rfl | hv
    · rw [h.1]
      exact .inr ⟨hs'.1 x mem_cons_self, mem_cons_self⟩
    · rw [getLastD_cons]
      exact (ih h.2 hs'.2 hv).imp_right fun ⟨hlt, hm⟩ => ⟨hlt, mem_cons_of_mem x hm⟩

theorem stops_iff {v : Nat} {A1 A2 : List Nat} (h : Chain ptr base (A1 ++ A2) base)
    (hs : (base :: (A1 ++ A2)).Pairwise (· < ·)) (hbase : base < bp) (hA1 : ∀ a ∈ A1, a < bp) (hA2 : ∀ a ∈ A2, bp < a)
    (hv : v ∈ base :: (A1 ++ A2)) : Stops ptr bp v ↔ v = A1.getLastD base := by
  have hs1 : (base :: A1).Pairwise (· < ·) := hs.sublist ((sublist_append_left A1 A2).cons_cons base)
  have hlow : ∀ a ∈ base :: A1, a < bp := fun a ha => (mem_cons.1 ha).elim (fun h => h ▸ hbase) (hA1 a)
  have hlast : A1.getLastD base ∈ base :: A1 := getLastD_mem_cons ..
  have hge : base ≤ A1.getLastD base := (mem_cons.1 hlast).elim (fun h => le_of_eq h.symm) fun h => le_of_lt ((pairwise_cons.1 hs1).1 _ h)
  cases A2 with
  | nil =>
    rw [append_nil] at h hv
    have hnext := h.next_last
    constructor
    · intro hstop
      refine (chain_sorted h hs1 hv).resolve_right fun ⟨hlt, hm⟩ => ?_
      have := hA1 _ hm
      rcases hstop with hstop | hstop <;> omega
    · rintro rfl
      have := hlow _ hlast
      exact .inr ⟨by omega, .inl (by omega)⟩
  | cons w A2 =>
    obtain ⟨h1, h2⟩ := chain_append.1 h
    have hnext := h1.next_last
    have hw : ∀ a ∈ w :: A2, bp < a := hA2
    rw [← cons_append, mem_append] at hv
    constructor
    · intro hstop
      rcases hv with hv | hv
      · refine (chain_sorted h1 hs1 hv).resolve_right fun ⟨hlt, hm⟩ => ?_
        have := hA1 _ hm
        rcases hstop with hstop | hstop <;> omega
      · have hs2 : (w :: A2).Pairwise (· < ·) := (pairwise_cons.1 hs).2.sublist (sublist_append_right A1 _)
        have hv' := hw v hv
        rcases chain_sorted h2 hs2 hv with hv | ⟨hlt, -⟩
        · have hend := h2.next_last
          rw [← hv] at hend
          rcases hstop with hstop | hstop <;> omega
        · rcases hstop with hstop | hstop <;> omega
    · rintro rfl
      have := hlow _ hlast
      have := hw w mem_cons_self
      exact .inl ⟨by omega, by omega⟩

theorem exists_split (bp : Nat) (hs : fl.Pairwise Before) (hne : ∀ b ∈ fl, b.addr ≠ bp) :
    ∃ l1 l2, fl = l1 ++ l2 ∧ (∀ b ∈ l1, b.addr < bp) ∧ ∀ b ∈ l2, bp < b.addr := by
  induction fl with
  | nil => exact ⟨[], [], rfl, forall_mem_nil _, forall_mem_nil _⟩
  | cons c fl ih =>
    obtain ⟨hc, hs⟩ := pairwise_cons.1 hs
    have hne' := forall_mem_cons.1 hne
    rcases lt_or_gt_of_ne hne'.1 with hlt | hgt
    · obtain ⟨l1, l2, rfl, h1, h2⟩ := ih hs hne'.2
      exact ⟨c :: l1, l2, rfl, forall_mem_cons.2 ⟨hlt, h1⟩, h2⟩
    · refine ⟨[], c :: fl, rfl, forall_mem_nil _, forall_mem_cons.2 ⟨hgt, fun b hb => ?_⟩⟩
      exact lt_trans hgt (hc b hb).addr_lt

theorem Ring.freeLoop (R : Ring base s (l1 ++ l2)) (hbase : base < bp) (h1 : ∀ b ∈ l1, b.addr < bp) (h2 : ∀ b ∈ l2, bp < b.addr) :
    ∃ n, ∀ rounds ≥ n, freeLoop s.ptr bp rounds s.freep = some ((l1.map Block.addr).getLastD base) := by
  have hchain := R.chain
  have hsorted := R.sorted
  rw [map_append] at hchain hsorted
  have hfreep := R.freep
  rw [map_append] at hfreep
  have hstops := fun v => stops_iff (v := v) hchain hsorted hbase (forall_mem_map.2 h1) (forall_mem_map.2 h2)
  have hlast : (l1.map Block.addr).getLastD base ∈ base :: (l1.map Block.addr ++ l2.map Block.addr) := by
    exact mem_append_left _ (getLastD_mem_cons ..)
  obtain ⟨n, hmem, hstop, hmin⟩ := hchain.ring_first hfreep ⟨_, hlast, (hstops _ hlast).2 rfl⟩
  refine ⟨n + 1, fun rounds hr => ?_⟩
  rw [freeLoop_eq n hstop hmin (by omega), (hstops _ hmem).1 hstop]

/-! ## Joining blocks -/

/-- Nothing but the headers at the addresses in `A` has changed. -/
structure Kept (A : List Nat) (s s' : State) : Prop where
  ptr : ∀ a ∉ A, s'.ptr a = s.ptr a
  size : ∀ a ∉ A, s'.size a = s.size a
  log : s'.log = s.log

theorem Kept.mono {A B : List Nat} (h : Kept A s s') (hAB : A ⊆ B) : Kept B s s' :=
  ⟨fun a ha => h.ptr a fun hm => ha (hAB hm), fun a ha => h.size a fun hm => ha (hAB hm), h.log⟩

theorem Kept.trans {A : List Nat} {s'' : State} (h : Kept A s s') (h' : Kept A s' s'') : Kept A s s'' :=
  ⟨fun a ha => (h'.ptr a ha).trans (h.ptr a ha), fun a ha => (h'.size a ha).trans (h.size a ha), h'.log.trans h.log⟩

theorem joinNext_kept (bp p : Nat) (s : State) : Kept [bp] s (joinNext bp p s) := by
  have hne : ∀ a ∉ [bp], a ≠ bp := fun a ha h => ha (h ▸ mem_singleton_self bp)
  rw [joinNext]
  split
  · exact ⟨fun a ha => update_of_ne (hne a ha) .., fun a ha => update_of_ne (hne a ha) .., rfl⟩
  · exact ⟨fun a ha => update_of_ne (hne a ha) .., fun _ _ => rfl, rfl⟩

theorem joinPrev_kept (bp p : Nat) (s : State) : Kept [p] s (joinPrev bp p s) := by
  have hne : ∀ a ∉ [p], a ≠ p := fun a ha h => ha (h ▸ mem_singleton_self p)
  rw [joinPrev]
  split
  · exact ⟨fun a ha => update_of_ne (hne a ha) .., fun a ha => update_of_ne (hne a ha) .., rfl⟩
  · exact ⟨fun a ha => update_of_ne (hne a ha) .., fun _ _ => rfl, rfl⟩

theorem join_kept (bp p : Nat) (s : State) : Kept [bp, p] s { joinPrev bp p (joinNext bp p s) with freep := p } := by
  have hnext := (joinNext_kept bp p s).mono (cons_subset.2 ⟨mem_cons_self, nil_subset [bp, p]⟩)
  have hprev := (joinPrev_kept bp p (joinNext bp p s)).mono (subset_cons_self bp [p])
  exact hnext.trans ⟨hprev.ptr, hprev.size, hprev.log⟩

theorem chain_from {ptr' : Nat → Nat} {a a' z : Nat} {l : List Nat} (h : Chain ptr a l z) (ha : ptr' a' = ptr a)
    (hl : ∀ x ∈ l, ptr' x = ptr x) : Chain ptr' a' l z := by
  cases l with
  | nil => exact ha.trans h
  | cons x l => exact ⟨ha.trans h.1, h.2.congr hl⟩

variable {b : Block}

theorem joinNext_spec {y : Nat} (hchain : Chain s.ptr y (l2.map Block.addr) base) (hsizes : ∀ c ∈ l2, s.size c.addr = c.units)
    (horder : l2.Pairwise Before) (hbase : base < b.addr) (hpos : 0 < b.units) (hsize : s.size b.addr = b.units)
    (habove : ∀ c ∈ l2, b.stop ≤ c.addr) (hcap : ∀ c ∈ l2, b.units + c.units < UINT) :
    ∃ k l, (k = b.units ∨ ∃ c ∈ l2, k = b.units + c.units ∧ b.stop = c.addr) ∧ (joinNext b.addr y s).size b.addr = k ∧ Chain (joinNext b.addr y s).ptr b.addr (l.map Block.addr) base ∧
      l <:+ l2 ∧ (⟨b.addr, k⟩ :: l).Pairwise Before ∧ Recut (b :: l2) (⟨b.addr, k⟩ :: l) := by
  have hnotMem : b.addr ∉ l2.map Block.addr := by
    intro hm
    obtain ⟨c, hc, he⟩ := mem_map.1 hm
    have := habove c hc
    have := b.addr_lt_stop hpos
    omega
  cases l2 with
  | nil =>
    have hcond : ¬b.addr + HEADER * s.size b.addr = s.ptr y := by
      rw [show s.ptr y = base from hchain]
      omega
    rw [joinNext, if_neg hcond]
    exact ⟨b.units, [], .inl rfl, hsize, (update_self ..).trans hchain, suffix_refl _, pairwise_singleton ..,
      .refl [b]⟩
  | cons c l2 =>
    obtain ⟨hc, hchain⟩ := hchain
    obtain ⟨hbefore, horder'⟩ := pairwise_cons.1 horder
    have hcsize := hsizes c mem_cons_self
    have habove' := habove c mem_cons_self
    by_cases hcond : b.stop = c.addr
    · have hcond' : b.addr + HEADER * s.size b.addr = s.ptr y := by
        rw [hc, hsize]
        exact hcond
      have hsum : (s.size b.addr + s.size (s.ptr y)) % UINT = b.units + c.units := by
        rw [hc, hsize, hcsize, mod_eq_of_lt (hcap c mem_cons_self)]
      rw [joinNext, if_pos hcond']
      refine ⟨b.units + c.units, l2, .inr ⟨c, mem_cons_self, rfl, hcond⟩, (update_self ..).trans hsum, ?_, suffix_cons c l2, ?_, ?_⟩
      · refine chain_from hchain ((update_self ..).trans (by rw [hc])) fun x hx => update_of_ne ?_ ..
        rintro rfl
        exact hnotMem (mem_cons_of_mem _ hx)
      · refine pairwise_cons.2 ⟨fun d hd => ?_, horder'⟩
        have hd : c.stop < d.addr := hbefore d hd
        rw [Before, Block.stop, mul_add, ← add_assoc]
        change b.stop + _ < _
        rwa [hcond]
      · exact (recut_join hcond).symm.append_right l2
    · have hcond' : ¬b.addr + HEADER * s.size b.addr = s.ptr y := by
        rw [hc, hsize]
        exact hcond
      rw [joinNext, if_neg hcond']
      refine ⟨b.units, c :: l2, .inl rfl, hsize, ⟨(update_self ..).trans hc, ?_⟩, suffix_refl _, ?_, .refl _⟩
      · exact hchain.update_of_notMem hnotMem
      · refine pairwise_cons.2 ⟨fun d hd => ?_, horder⟩
        have hlt : b.stop < c.addr := by omega
        rcases mem_cons.1 hd with rfl | hd
        · exact hlt
        · exact lt_trans hlt (hbefore d hd).addr_lt

/-- What `joinPrev` makes of the blocks `c` and `b`: two that are apart, or one. -/
def Joins (c b : Block) (ds : List Block) : Prop := ds = [c, b] ∧ Before c b ∨ ds = [⟨c.addr, c.units + b.units⟩] ∧ c.stop = b.addr

theorem Joins.recut (h : Joins c b ds) : Recut [c, b] ds := by
  rcases h with ⟨rfl, -⟩ | ⟨rfl, h⟩
  · exact .refl _
  · exact (recut_join h).symm

theorem joinPrev_spec {l : List Block} (hchain : Chain s.ptr b.addr (l.map Block.addr) base) (hc : s.size c.addr = c.units)
    (hb : s.size b.addr = b.units) (hcb : c.stop ≤ b.addr) (hnotMem : c.addr ∉ b.addr :: l.map Block.addr)
    (hcap : c.units + b.units < UINT) :
    ∃ ds, Joins c b ds ∧ (∀ e ∈ ds, (joinPrev b.addr c.addr s).size e.addr = e.units) ∧
      Chain (joinPrev b.addr c.addr s).ptr c.addr ((ds.tail ++ l).map Block.addr) base := by
  by_cases hcond : c.stop = b.addr
  · have hcond' : c.addr + HEADER * s.size c.addr = b.addr := by rwa [hc]
    rw [joinPrev, if_pos hcond']
    refine ⟨_, .inr ⟨rfl, hcond⟩, fun e he => ?_, ?_⟩
    · rw [mem_singleton.1 he]
      refine (update_self ..).trans ?_
      rw [hc, hb, mod_eq_of_lt hcap]
    · refine chain_from hchain (update_self ..) fun x hx => update_of_ne ?_ ..
      rintro rfl
      exact hnotMem (mem_cons_of_mem _ hx)
  · have hcond' : ¬c.addr + HEADER * s.size c.addr = b.addr := by rwa [hc]
    rw [joinPrev, if_neg hcond']
    refine ⟨_, .inl ⟨rfl, lt_of_le_of_ne hcb hcond⟩, fun e he => ?_, update_self .., hchain.update_of_notMem hnotMem⟩
    rcases mem_cons.1 he with rfl | he
    · exact hc
    · rw [mem_singleton.1 he]
      exact hb

theorem Joins.order {L l : List Block} (hj : Joins c b ds) (hL : (L ++ [c]).Pairwise Before) (hl : ∀ a ∈ L ++ [c], ∀ e ∈ l, Before a e)
    (hb : (b :: l).Pairwise Before) : (L ++ (ds ++ l)).Pairwise Before := by
  obtain ⟨hL, -, hLc⟩ := pairwise_append.1 hL
  obtain ⟨hbl, hl'⟩ := pairwise_cons.1 hb
  have hLc' : ∀ a ∈ L, Before a c := fun a ha => hLc a ha c (mem_singleton_self c)
  have hLl : ∀ a ∈ L, ∀ e ∈ l, Before a e := fun a ha => hl a (mem_append_left _ ha)
  have hcl : ∀ e ∈ l, Before c e := hl c (mem_append_right _ (mem_singleton_self c))
  rcases hj with ⟨rfl, hcb⟩ | ⟨rfl, hcb⟩
  · refine pairwise_append.2 ⟨hL, pairwise_cons.2 ⟨?_, hb⟩, fun a ha e he => ?_⟩
    · intro e he
      rcases mem_cons.1 he with rfl | he
      · exact hcb
      · exact hcl e he
    · rcases mem_cons.1 he with rfl | he
      · exact hLc' a ha
      · rcases mem_cons.1 he with rfl | he
        · exact lt_trans (hLc' a ha) hcb.addr_lt
        · exact hLl a ha e he
  · refine pairwise_append.2 ⟨hL, pairwise_cons.2 ⟨fun e he => ?_, hl'⟩, fun a ha e he => ?_⟩
    · have hbe : b.addr + HEADER * b.units < e.addr := hbl e he
      rw [Before, Block.stop, mul_add, ← add_assoc]
      change c.stop + _ < _
      rwa [hcb]
    · rcases mem_cons.1 he with rfl | he
      · exact hLc' a ha
      · exact hLl a ha e he

theorem Joins.mem_addr (h : Joins c b ds) : ∃ d, ds = d :: ds.tail ∧ d.addr = c.addr := by
  rcases h with ⟨rfl, -⟩ | ⟨rfl, -⟩ <;> exact ⟨_, rfl, rfl⟩

theorem Joins.forall {P : Block → Prop} (h : Joins c b ds) (hc : P c) (hb : P b)
    (hcb : P ⟨c.addr, c.units + b.units⟩) : ∀ d ∈ ds, P d := by
  rcases h with ⟨rfl, -⟩ | ⟨rfl, -⟩
  · exact forall_mem_cons.2 ⟨hc, forall_mem_singleton.2 hb⟩
  · exact forall_mem_singleton.2 hcb

theorem Joins.exists_le (h : Joins c b ds) : ∃ d ∈ ds, b.units ≤ d.units := by
  rcases h with ⟨rfl, -⟩ | ⟨rfl, -⟩
  · exact ⟨b, mem_cons_of_mem _ mem_cons_self, le_refl _⟩
  · exact ⟨_, mem_cons_self, Nat.le_add_left ..⟩

def Counted (b : Block) (l1 l2 : List Block) : Prop := ∀ c ∈ ⟨0, 0⟩ :: l1, ∀ e ∈ ⟨0, 0⟩ :: l2, c.units + (b.units + e.units) < UINT

theorem counted_of_total (h : b.units + total (l1 ++ l2) < UINT) : Counted b l1 l2 := by
  have hle : ∀ (l : List Block), ∀ c ∈ ⟨0, 0⟩ :: l, c.units ≤ total l := by
    intro l c hc
    rcases mem_cons.1 hc with rfl | hc
    · exact zero_le _
    · obtain ⟨xs, ys, rfl⟩ := append_of_mem hc
      rw [total_append, total_cons]
      omega
  intro c hc e he
  have := hle l1 c hc
  have := hle l2 e he
  rw [total_append] at h
  omega

def StopsAs (b : Block) (fl : List Block) (x : Nat) : Prop := x = b.stop ∨ ∃ d ∈ fl, b.stop = d.addr ∧ x = d.stop

theorem StopsAs.mono {x : Nat} (h : StopsAs b fl x) (hfl : fl ⊆ l1) : StopsAs b l1 x :=
  Or.imp_right (fun ⟨d, hd, h⟩ => ⟨d, hfl hd, h⟩) h

theorem stop_add (k : Nat) (h : c.stop = b.addr) : (⟨c.addr, c.units + k⟩ : Block).stop = (⟨b.addr, k⟩ : Block).stop := by
  rw [Block.stop, Block.stop, mul_add, ← add_assoc, ← h]
  rfl

theorem join_spec (b : Block) (l2 : List Block) (hchain : Chain s.ptr c.addr (l2.map Block.addr) base) (hsizes : ∀ e ∈ c :: b :: l2, s.size e.addr = e.units)
    (horder : (c :: l2).Pairwise Before) (hbase : base < b.addr) (hpos : 0 < b.units) (hlt : c.addr < b.addr) (hcb : c.stop ≤ b.addr)
    (habove : ∀ e ∈ l2, b.stop ≤ e.addr) (hcap : Counted b [c] l2) :
    ∃ k l ds, b.units ≤ k ∧ StopsAs b l2 (⟨b.addr, k⟩ : Block).stop ∧ l <:+ l2 ∧ Joins c ⟨b.addr, k⟩ ds ∧ (⟨b.addr, k⟩ :: l).Pairwise Before ∧ Recut (b :: l2) (⟨b.addr, k⟩ :: l) ∧
      (∀ e ∈ ds ++ l, (joinPrev b.addr c.addr (joinNext b.addr c.addr s)).size e.addr = e.units) ∧
      Chain (joinPrev b.addr c.addr (joinNext b.addr c.addr s)).ptr c.addr ((ds.tail ++ l).map Block.addr) base := by
  obtain ⟨hc, hb, hl2⟩ := forall_mem_cons.1 hsizes |>.imp_right forall_mem_cons.1
  obtain ⟨hcl, horder⟩ := pairwise_cons.1 horder
  obtain ⟨k, l, hk, hsize, hchain', hsuffix, horder', hrecut⟩ := joinNext_spec hchain hl2 horder hbase hpos hb habove
    fun e he => lt_of_le_of_lt (by omega) (hcap c (by simp) e (mem_cons_of_mem _ he))
  have hkept := joinNext_kept b.addr c.addr s
  have hkept' := joinPrev_kept b.addr c.addr (joinNext b.addr c.addr s)
  have hne : c.addr ∉ [b.addr] := fun h => Nat.ne_of_lt hlt (mem_singleton.1 h)
  have hnotMem : c.addr ∉ b.addr :: l.map Block.addr := by
    intro hm
    rcases mem_cons.1 hm with h | h
    · omega
    · obtain ⟨e, he, h⟩ := mem_map.1 h
      have := (hcl e (hsuffix.subset he)).addr_lt
      omega
  have hk' : b.units ≤ k ∧ c.units + k < UINT ∧ StopsAs b l2 (⟨b.addr, k⟩ : Block).stop := by
    have hcap := hcap c (by simp)
    rcases hk with rfl | ⟨e, he, rfl, hstop⟩
    · exact ⟨le_refl _, hcap ⟨0, 0⟩ mem_cons_self, .inl rfl⟩
    · refine ⟨Nat.le_add_right .., hcap e (mem_cons_of_mem _ he), .inr ⟨e, he, hstop, stop_add e.units hstop⟩⟩
  obtain ⟨ds, hj, hds, hchain⟩ := joinPrev_spec (b := ⟨b.addr, k⟩) hchain' ((hkept.size _ hne).trans hc) hsize hcb hnotMem hk'.2.1
  refine ⟨k, l, ds, hk'.1, hk'.2.2, hsuffix, hj, horder', hrecut, fun e he => ?_, hchain⟩
  rcases mem_append.1 he with he | he
  · exact hds e he
  have hbe : b.addr < e.addr := lt_of_lt_of_le (b.addr_lt_stop hpos) (habove e (hsuffix.subset he))
  rw [hkept'.size, hkept.size, hl2 e (hsuffix.subset he)]
  · rw [mem_singleton]
    omega
  · rw [mem_singleton]
    omega

theorem Ring.insert (R : Ring base s (l1 ++ l2)) (hbase : base < b.addr) (hpos : 0 < b.units) (haligned : HEADER ∣ b.addr)
    (hsize : s.size b.addr = b.units) (h1 : ∀ c ∈ l1, c.stop ≤ b.addr) (h2 : ∀ c ∈ l2, b.stop ≤ c.addr)
    (hcap : Counted b l1 l2) {y : Nat} (hy : y = (l1.map Block.addr).getLastD base) :
    ∃ fl, Ring base { joinPrev b.addr y (joinNext b.addr y s) with freep := y } fl ∧ Recut (b :: (l1 ++ l2)) fl ∧
      (∃ c ∈ fl, b.units ≤ c.units) ∧ ∀ e ∈ fl, e ∈ l1 ++ l2 ∨ StopsAs b (l1 ++ l2) e.stop := by
  rcases eq_nil_or_concat' l1 with rfl | ⟨L, c, rfl⟩
  · -- below `b` there is only the static header, to which nothing is joined
    obtain ⟨k, l, ds, hk, hends, hsuffix, hj, horder, hrecut, hsizes, hchain⟩ := join_spec b l2 R.chain
      (forall_mem_cons.2 ⟨R.sizes _ mem_cons_self, forall_mem_cons.2 ⟨hsize, fun e he => R.sizes e (mem_cons_of_mem _ he)⟩⟩)
      R.order hbase hpos hbase (le_of_lt hbase) h2
      (fun c hc => by
        have hc : c.units = (⟨0, 0⟩ : Block).units := by
          rcases mem_cons.1 hc with rfl | hc
          · rfl
          · rw [mem_singleton.1 hc]
        rw [hc]
        exact hcap ⟨0, 0⟩ mem_cons_self)
    have hb : ∀ e ∈ l, HEADER ∣ e.addr ∧ 0 < e.units := fun e he => ⟨R.aligned e (hsuffix.subset he), R.pos e (hsuffix.subset he)⟩
    rw [show y = base from hy]
    obtain ⟨rfl, hlt⟩ := hj.resolve_right fun h => Nat.ne_of_lt hbase h.2
    refine ⟨⟨b.addr, k⟩ :: l, ⟨hchain, hsizes, ?_, ?_, ?_, mem_cons_self⟩, hrecut, ⟨_, mem_cons_self, hk⟩, ?_⟩
    · refine Joins.order (L := []) (.inl ⟨rfl, hlt⟩) (pairwise_singleton ..) (fun a ha e he => ?_) horder
      rw [mem_singleton.1 ha]
      exact (pairwise_cons.1 R.order).1 e (hsuffix.subset he)
    · exact forall_mem_cons.2 ⟨by dsimp only; omega, fun e he => (hb e he).2⟩
    · exact forall_mem_cons.2 ⟨haligned, fun e he => (hb e he).1⟩
    · exact forall_mem_cons.2 ⟨.inr hends, fun e he => .inl (hsuffix.subset he)⟩
  · have hcap : Counted b [c] l2 := fun e he => hcap e (by
      rcases mem_cons.1 he with rfl | he
      · exact mem_cons_self
      · exact mem_cons_of_mem _ (mem_append_right _ he))
    rw [append_assoc, singleton_append] at R ⊢
    have hchain := R.chain
    rw [map_append, map_cons] at hchain
    obtain ⟨hL, hc⟩ := chain_append.1 hchain
    have hsplit : ((⟨base, 0⟩ :: L) ++ c :: l2).Pairwise Before := R.order
    obtain ⟨hoL, hoc, hoLc⟩ := pairwise_append.1 hsplit
    have hcb : c.stop ≤ b.addr := h1 c (mem_append_right _ (mem_singleton_self c))
    have hcpos : 0 < c.units := R.pos c (by simp)
    have hcaligned : HEADER ∣ c.addr := R.aligned c (by simp)
    have hlt : c.addr < b.addr := lt_of_lt_of_le (c.addr_lt_stop hcpos) hcb
    have hl2 : ∀ e ∈ l2, e ∈ ⟨base, 0⟩ :: (L ++ c :: l2) := fun e he =>
      mem_cons_of_mem _ (mem_append_right _ (mem_cons_of_mem c he))
    obtain ⟨k, l, ds, hk, hends, hsuffix, hj, horder, hrecut, hsizes, hchain⟩ := join_spec b l2 hc
      (forall_mem_cons.2 ⟨R.sizes c (by simp),
        forall_mem_cons.2 ⟨hsize, fun e he => R.sizes e (hl2 e he)⟩⟩)
      hoc hbase hpos hlt hcb h2 hcap
    have hyc : y = c.addr := by rw [hy, map_append, map_singleton, getLastD_concat]
    obtain ⟨d, hd, hdc⟩ := hj.mem_addr
    -- the headers below `c` are as before
    have hbelow : ∀ a ∈ ⟨base, 0⟩ :: L, a.addr ∉ [b.addr] ∧ a.addr ∉ [c.addr] := by
      intro a ha
      have := (hoLc a ha c mem_cons_self).addr_lt
      rw [mem_singleton, mem_singleton]
      omega
    have hkept := joinNext_kept b.addr c.addr s
    have hkept' := joinPrev_kept b.addr c.addr (joinNext b.addr c.addr s)
    rw [hyc]
    refine ⟨L ++ (ds ++ l), ⟨?_, ?_, ?_, ?_, ?_, ?_⟩, ?_, ?_, ?_⟩
    · rw [hd, map_append, cons_append, map_cons, hdc]
      refine chain_append.2 ⟨hL.congr fun x hx => ?_, hchain⟩
      obtain ⟨a, ha, rfl⟩ : ∃ a ∈ (⟨base, 0⟩ : Block) :: L, a.addr = x := mem_map.1 hx
      exact (hkept'.ptr _ (hbelow a ha).2).trans (hkept.ptr _ (hbelow a ha).1)
    · intro a ha
      rcases mem_append.1 (show a ∈ (⟨base, 0⟩ :: L) ++ (ds ++ l) from ha) with ha | ha
      · refine ((hkept'.size _ (hbelow a ha).2).trans (hkept.size _ (hbelow a ha).1)).trans (R.sizes a ?_)
        exact mem_append_left (c :: l2) ha
      · exact hsizes a ha
    · refine Joins.order (L := ⟨base, 0⟩ :: L) hj ?_ (fun a ha e he => ?_) horder
      · exact pairwise_append.2 ⟨hoL, pairwise_singleton .., fun a ha e he => by
          rw [mem_singleton.1 he]
          exact hoLc a ha c mem_cons_self⟩
      · rcases mem_append.1 ha with ha | ha
        · exact hoLc a ha e (mem_cons_of_mem c (hsuffix.subset he))
        · rw [mem_singleton.1 ha]
          exact (pairwise_cons.1 hoc).1 e (hsuffix.subset he)
    · intro e he
      rcases mem_append.1 he with he | he
      · exact R.pos e (mem_append_left _ he)
      rcases mem_append.1 he with he | he
      · exact hj.forall (P := fun e => 0 < e.units) hcpos (by dsimp only; omega) (by dsimp only; omega) e he
      · exact R.pos e (mem_append_right _ (mem_cons_of_mem c (hsuffix.subset he)))
    · intro e he
      rcases mem_append.1 he with he | he
      · exact R.aligned e (mem_append_left _ he)
      rcases mem_append.1 he with he | he
      · exact hj.forall (P := fun e => HEADER ∣ e.addr) hcaligned haligned hcaligned e he
      · exact R.aligned e (mem_append_right _ (mem_cons_of_mem c (hsuffix.subset he)))
    · refine mem_cons_of_mem _ (mem_map.2 ⟨d, mem_append_right _ (mem_append_left _ ?_), hdc⟩)
      rw [hd]
      exact mem_cons_self
    · have hperm : (b :: (L ++ c :: l2)).Perm (L ++ ([c] ++ b :: l2)) := by
        have hmiddle : ((L ++ [c]) ++ b :: l2).Perm (b :: ((L ++ [c]) ++ l2)) := perm_middle
        simpa using hmiddle.symm
      have hnext : Recut (L ++ ([c] ++ b :: l2)) (L ++ ([c, ⟨b.addr, k⟩] ++ l)) := (hrecut.append_left [c]).append_left L
      exact ((Recut.of_perm hperm).trans hnext).trans ((hj.recut.append_right l).append_left L)
    · obtain ⟨e, he, hle⟩ := hj.exists_le
      exact ⟨e, mem_append_right _ (mem_append_left _ he), le_trans hk hle⟩
    · intro e he
      have hsub : l2 ⊆ L ++ c :: l2 := fun e he => mem_append_right _ (mem_cons_of_mem c he)
      rcases mem_append.1 he with he | he
      · exact .inl (mem_append_left _ he)
      rcases mem_append.1 he with he | he
      · rcases hj with ⟨rfl, -⟩ | ⟨rfl, hjoin⟩
        · rcases mem_cons.1 he with rfl | he
          · exact .inl (by simp)
          · rw [mem_singleton.1 he]
            exact .inr (hends.mono hsub)
        · rw [mem_singleton.1 he, stop_add k hjoin]
          exact .inr (hends.mono hsub)
      · exact .inl (hsub (hsuffix.subset he))

theorem Ring.free (R : Ring base s fl) (hbase : base < b.addr) (hpos : 0 < b.units) (haligned : HEADER ∣ b.addr)
    (hsize : s.size b.addr = b.units) (hdisjoint : ∀ c ∈ fl, Disjoint c.bytes b.bytes)
    (hcap : ∀ l1 l2, fl = l1 ++ l2 → Counted b l1 l2) :
    ∃ n s' fl', (∀ rounds ≥ n, Malloc.free rounds (b.addr + HEADER) s = some s') ∧ Ring base s' fl' ∧ Recut (b :: fl) fl' ∧
      Kept (b.addr :: base :: fl.map Block.addr) s s' ∧ (∃ c ∈ fl', b.units ≤ c.units) ∧
      ∀ e ∈ fl', e ∈ fl ∨ StopsAs b fl e.stop := by
  have hside : ∀ c ∈ fl, c.stop ≤ b.addr ∨ b.stop ≤ c.addr := fun c hc => Block.below_or_above (R.pos c hc) hpos (hdisjoint c hc)
  have hlt : ∀ c ∈ fl, c.addr < c.stop := fun c hc => c.addr_lt_stop (R.pos c hc)
  have hblt := b.addr_lt_stop hpos
  obtain ⟨l1, l2, rfl, h1, h2⟩ := exists_split b.addr (pairwise_cons.1 R.order).2 fun c hc he => by
    have := hside c hc
    have := hlt c hc
    omega
  obtain ⟨n, hn⟩ := R.freeLoop hbase h1 h2
  obtain ⟨fl', hring, hrecut, hfit⟩ := R.insert hbase hpos haligned hsize
    (fun c hc => by
      have := hside c (mem_append_left _ hc)
      have := h1 c hc
      omega)
    (fun c hc => by
      have := hside c (mem_append_right _ hc)
      have := h2 c hc
      have := hlt c (mem_append_right _ hc)
      omega)
    (hcap l1 l2 rfl) rfl
  refine ⟨n, _, fl', fun rounds hr => ?_, hring, hrecut, ?_, hfit⟩
  · rw [Malloc.free, Nat.add_sub_cancel, hn rounds hr]
    rfl
  · have hy : (l1.map Block.addr).getLastD base ∈ b.addr :: base :: (l1 ++ l2).map Block.addr := by
      rw [map_append]
      exact mem_cons_of_mem _ (mem_append_left (l2.map Block.addr) (getLastD_mem_cons ..))
    exact (join_kept ..).mono (cons_subset.2 ⟨mem_cons_self, cons_subset.2 ⟨hy, nil_subset _⟩⟩)

/-! ## Taking blocks -/

theorem take_all {nunits prevp : Nat} (h : s.size p = nunits) :
    take nunits prevp p s = (p + HEADER, { s with ptr := update s.ptr prevp (s.ptr p), freep := prevp }) :=
  if_pos h

theorem take_end {nunits prevp rest : Nat} (h : s.size p = rest + nunits) (hrest : 0 < rest) :
    take nunits prevp p s =
      (p + HEADER * rest + HEADER, { s with size := update (update s.size p rest) (p + HEADER * rest) nunits, freep := prevp }) := by
  rw [take, if_neg (by omega)]
  rw [h, Nat.add_sub_cancel]

theorem Ring.take (R : Ring base s fl) {nunits prevp : Nat} (hb : b ∈ fl) (hunits : 0 < nunits) (hfit : nunits ≤ b.units)
    (hprevp : prevp ∈ base :: fl.map Block.addr) (hptr : s.ptr prevp = b.addr) :
    ∃ q s' fl', Malloc.take nunits prevp b.addr s = (q + HEADER, s') ∧ Ring base s' fl' ∧ Recut fl (⟨q, nunits⟩ :: fl') ∧
      s'.size q = nunits ∧ HEADER ∣ q ∧ Kept (q :: base :: fl.map Block.addr) s s' ∧ (⟨q, nunits⟩ : Block).stop = b.stop := by
  obtain ⟨l1, l2, rfl⟩ := append_of_mem hb
  have hsize := R.sizes b (mem_cons_of_mem _ hb)
  have haligned := R.aligned b hb
  have hnodup := R.nodup
  have hchain := R.chain
  rw [map_append, map_cons] at hchain hnodup hprevp
  have hsub : (l1 ++ l2).Sublist (l1 ++ b :: l2) := (sublist_cons_self b l2).append_left l1
  by_cases hexact : b.units = nunits
  · rw [take_all (hsize.trans hexact)]
    have hbase : base ≠ b.addr := by
      intro h
      exact (nodup_cons.1 hnodup).1 (h ▸ mem_append_right _ mem_cons_self)
    have hself : prevp ≠ b.addr := by
      rintro rfl
      have := (chain_append.1 hchain).2.next_mem mem_cons_self
      rw [hptr, mem_append, mem_singleton] at this
      have hn := (nodup_append.1 (nodup_cons.1 hnodup).2).2.1
      exact this.elim (nodup_cons.1 hn).1 (Ne.symm hbase)
    refine ⟨b.addr, _, l1 ++ l2, rfl, ⟨?_, ?_, ?_, ?_, ?_, ?_⟩, ?_, hsize.trans hexact, haligned, ⟨?_, fun _ _ => rfl, rfl⟩, ?_⟩
    · rw [map_append]
      exact hchain.remove hnodup hbase hprevp hptr
    · exact fun c hc => R.sizes c ((hsub.cons_cons _).subset hc)
    · exact R.order.sublist (hsub.cons_cons _)
    · exact fun c hc => R.pos c (hsub.subset hc)
    · exact fun c hc => R.aligned c (hsub.subset hc)
    · rw [map_append]
      rw [mem_cons, mem_append, mem_cons] at hprevp
      rw [mem_cons, mem_append]
      tauto
    · rw [← hexact]
      exact .of_perm perm_middle
    · intro a ha
      refine update_of_ne ?_ ..
      rintro rfl
      rw [map_append, map_cons] at ha
      exact ha (mem_cons_of_mem _ hprevp)
    · rw [← hexact]
  · obtain ⟨rest, hrest⟩ : ∃ rest, b.units = rest + nunits := ⟨b.units - nunits, by omega⟩
    rw [take_end (hsize.trans hrest) (by omega)]
    have hsplit : ((⟨base, 0⟩ :: l1) ++ b :: l2).Pairwise Before := R.order
    obtain ⟨hol1, hol2, hoa⟩ := pairwise_append.1 hsplit
    obtain ⟨hob, hol2⟩ := pairwise_cons.1 hol2
    -- the end of the block is at `q`
    obtain ⟨q, hq⟩ : ∃ q, q = b.addr + HEADER * rest := ⟨_, rfl⟩
    have hqlt : b.addr < q ∧ q < b.stop := by
      rw [hq, Block.stop, hrest, HEADER]
      omega
    have hstop : (⟨b.addr, rest⟩ : Block).stop = q := hq.symm
    have hother : ∀ c ∈ ⟨base, 0⟩ :: (l1 ++ l2), c.addr ≠ b.addr ∧ c.addr ≠ q := by
      intro c hc
      rcases mem_append.1 (show c ∈ (⟨base, 0⟩ :: l1) ++ l2 from hc) with hc | hc
      · have := (hoa c hc b mem_cons_self).addr_lt
        omega
      · have : b.stop < c.addr := hob c hc
        omega
    rw [← hq]
    refine ⟨q, _, l1 ++ ⟨b.addr, rest⟩ :: l2, rfl, ⟨?_, ?_, ?_, ?_, ?_, ?_⟩, ?_, update_self .., ?_,
      ⟨fun _ _ => rfl, ?_, rfl⟩, ?_⟩
    · rw [map_append, map_cons]
      exact hchain
    · intro c hc
      have hc' : c ∈ (⟨base, 0⟩ :: l1) ++ ⟨b.addr, rest⟩ :: l2 := hc
      rcases perm_middle.mem_iff.1 hc' |> mem_cons.1 with rfl | hc
      · exact (update_of_ne (by dsimp only; omega) ..).trans (update_self ..)
      · refine (update_of_ne (hother c hc).2 ..).trans ((update_of_ne (hother c hc).1 ..).trans ?_)
        exact R.sizes c ((hsub.cons_cons _).subset hc)
    · refine pairwise_append.2 ⟨hol1, pairwise_cons.2 ⟨fun e he => ?_, hol2⟩, fun a ha e he => ?_⟩
      · have : b.stop < e.addr := hob e he
        rw [Before, hstop]
        omega
      · rcases mem_cons.1 he with rfl | he
        · exact hoa a ha b mem_cons_self
        · exact hoa a ha e (mem_cons_of_mem b he)
    · intro c hc
      rcases perm_middle.mem_iff.1 hc |> mem_cons.1 with rfl | hc
      · dsimp only
        omega
      · exact R.pos c (hsub.subset hc)
    · intro c hc
      rcases perm_middle.mem_iff.1 hc |> mem_cons.1 with rfl | hc
      · exact haligned
      · exact R.aligned c (hsub.subset hc)
    · rw [map_append, map_cons]
      exact hprevp
    · have hcut : Recut [b] [⟨b.addr, rest⟩, ⟨q, nunits⟩] := by
        have := recut_join (a := ⟨b.addr, rest⟩) (b := ⟨q, nunits⟩) hstop
        rwa [← hrest] at this
      refine ((hcut.append_right l2).append_left l1).trans (.of_perm ?_)
      have : ((l1 ++ [Block.mk b.addr rest]) ++ Block.mk q nunits :: l2).Perm
          (Block.mk q nunits :: ((l1 ++ [Block.mk b.addr rest]) ++ l2)) := perm_middle
      rwa [append_assoc, append_assoc] at this
    · rw [hq]
      exact dvd_add haligned (dvd_mul_right ..)
    · intro a ha
      have haq : a ≠ q := fun h => ha (h ▸ mem_cons_self)
      have hab : a ≠ b.addr := by
        rintro rfl
        exact ha (mem_cons_of_mem _ (mem_cons_of_mem _ (mem_map.2 ⟨b, hb, rfl⟩)))
      exact (update_of_ne haq ..).trans (update_of_ne hab ..)
    · rw [Block.stop, hq, Block.stop, hrest, mul_add, add_assoc]

/-! ## Searching -/

variable {env : Env} {nunits prevp : Nat}

theorem morecore_none {nu : Nat} (h : env s.log (toInt (coreUnits nu * HEADER)) = none) :
    morecore env limit nu s = .ok (0, s.asked env (toInt (coreUnits nu * HEADER))) := by
  rw [morecore]
  rw [h]

theorem morecore_some {nu hp : Nat} (h : env s.log (toInt (coreUnits nu * HEADER)) = some hp)
    (hfree : Malloc.free limit (hp + HEADER)
      { s.asked env (toInt (coreUnits nu * HEADER)) with size := update s.size hp (coreUnits nu) } = some s') :
    morecore env limit nu s = .ok (s'.freep, s') := by
  rw [morecore]
  rw [h]
  dsimp only
  rw [hfree]

theorem search_skip (n rounds : Nat) (h : ∀ m < n, s.size (s.ptr^[m] (s.ptr prevp)) < nunits ∧ s.ptr^[m] (s.ptr prevp) ≠ s.freep) :
    search env limit nunits (n + rounds) prevp (s.ptr prevp) s =
      search env limit nunits rounds (s.ptr^[n] prevp) (s.ptr (s.ptr^[n] prevp)) s := by
  induction n generalizing prevp with
  | zero => rw [zero_add, Function.iterate_zero_apply]
  | succ n ih =>
    obtain ⟨hsize, hne⟩ := h 0 (succ_pos n)
    rw [Function.iterate_zero_apply] at hsize hne
    rw [succ_add, search, if_neg (by omega), if_neg hne, Function.iterate_succ_apply]
    exact ih fun m hm => h (m + 1) (by omega)

theorem Ring.search_fit (env : Env) (R : Ring base s fl) (hunits : 0 < nunits) (hfit : ∃ b ∈ fl, nunits ≤ b.units) :
    ∃ n b prevp, b ∈ fl ∧ nunits ≤ b.units ∧ prevp ∈ base :: fl.map Block.addr ∧ s.ptr prevp = b.addr ∧
      ∀ limit, ∀ rounds ≥ n, search env limit nunits rounds s.freep (s.ptr s.freep) s = .ok (Malloc.take nunits prevp b.addr s) := by
  obtain ⟨c, hc, hcfit⟩ := hfit
  have hex : ∃ y ∈ base :: fl.map Block.addr, nunits ≤ s.size y :=
    ⟨c.addr, mem_cons_of_mem _ (mem_map.2 ⟨c, hc, rfl⟩), by rwa [R.sizes c (mem_cons_of_mem _ hc)]⟩
  obtain ⟨n, hmem, hn, hmin⟩ := R.chain.ring_first (R.chain.ring_next R.freep) hex
  -- before that the loop does not come back to `freep`, or it would have come to the block earlier
  have hfreep : ∀ m < n, s.ptr^[m] (s.ptr s.freep) ≠ s.freep := by
    intro m hm he
    obtain ⟨k, rfl⟩ := Nat.exists_eq_add_of_lt hm
    refine hmin k (by omega) ?_
    rwa [show m + k + 1 = k + 1 + m by omega, Function.iterate_add_apply, he, Function.iterate_succ_apply] at hn
  obtain ⟨b, hb, hbn⟩ : ∃ b ∈ fl, b.addr = s.ptr^[n] (s.ptr s.freep) := by
    rcases mem_cons.1 hmem with h | h
    · rw [h, show s.size base = 0 from R.sizes ⟨base, 0⟩ mem_cons_self] at hn
      omega
    · exact mem_map.1 h
  have hbsize := R.sizes b (mem_cons_of_mem _ hb)
  have hptr : s.ptr (s.ptr^[n] s.freep) = b.addr := by rw [hbn, ← Function.iterate_succ_apply, Function.iterate_succ_apply']
  rw [← hbn, hbsize] at hn
  refine ⟨n + 1, b, s.ptr^[n] s.freep, hb, hn, R.chain.ring_iterate R.freep n, hptr, fun limit rounds hr => ?_⟩
  obtain ⟨k, rfl⟩ := Nat.exists_eq_add_of_le hr
  rw [Nat.add_assoc, Nat.add_comm 1 k, search_skip n (k + 1) fun m hm => ⟨Nat.lt_of_not_le (hmin m hm), hfreep m hm⟩, search, hptr, hbsize,
    if_pos hn]

theorem Ring.search_none (env : Env) (R : Ring base s fl) (hunits : 0 < nunits) (hnone : ∀ b ∈ fl, b.units < nunits) :
    ∃ n, ∀ limit rounds, search env limit nunits (n + (rounds + 1)) s.freep (s.ptr s.freep) s =
      morecore env limit nunits s >>= fun r =>
        if r.1 = 0 then .ok (0, r.2) else search env limit nunits rounds r.1 (r.2.ptr r.1) r.2 := by
  have hsmall : ∀ y ∈ base :: fl.map Block.addr, s.size y < nunits := by
    intro y hy
    rcases mem_cons.1 hy with rfl | hy
    · rw [show s.size y = 0 from R.sizes ⟨y, 0⟩ mem_cons_self]
      exact hunits
    · obtain ⟨b, hb, rfl⟩ := mem_map.1 hy
      rw [R.sizes b (mem_cons_of_mem _ hb)]
      exact hnone b hb
  have hstart := R.chain.ring_next R.freep
  obtain ⟨n, -, hn, hmin⟩ := R.chain.ring_first hstart (P := fun y => y = s.freep) ⟨_, R.freep, rfl⟩
  refine ⟨n, fun limit rounds => ?_⟩
  have hptr : s.ptr (s.ptr^[n] s.freep) = s.freep := by
    rw [← Function.iterate_succ_apply' s.ptr, Function.iterate_succ_apply, hn]
  rw [search_skip n (rounds + 1) fun m hm => ⟨hsmall _ (R.chain.ring_iterate hstart m), hmin m hm⟩, search, hptr,
    if_neg (by have := hsmall _ R.freep; omega), if_pos rfl]

end

end Xv6.Malloc
