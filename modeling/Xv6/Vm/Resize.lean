import Xv6.Vm.Own

/-!
# Address spaces grow, shrink, are copied and freed

A space of size `sz` has `pg sz` pages. Whatever `kalloc` answers, `uvmalloc`, `uvmdealloc`, `uvmcopy`, `proc_pagetable` and
`proc_freepagetable` do not panic, and leave a space of the size they return.
-/

namespace Xv6.Vm

open Prog List Option BitVec AMap Radix Nat
open Function (update update_self update_of_ne)

/-- The number of pages of a size. -/
def pg (sz : Word) : Nat := (sz.toNat + 4095) / 4096

/-- The number of the page of the trapframe. -/
def topPage : Nat := 2 ^ 26 - 2

theorem and_not_mask (w : Word) : (w &&& ~~~(PGSIZE - 1)).toNat = w.toNat / 4096 * 4096 := by
  have h : w &&& ~~~(PGSIZE - 1) = (w >>> 12) <<< 12 := by
    apply eq_of_getLsbD_eq
    intro i hi
    have hmask : (PGSIZE - 1).getLsbD i = decide (i < 12) := by
      have h : PGSIZE - 1 = BitVec.ofNat 64 (2 ^ 12 - 1) := rfl
      rw [h, getLsbD_ofNat, testBit_two_pow_sub_one]
      simp [hi]
    simp only [getLsbD_and, getLsbD_not, getLsbD_shiftLeft, getLsbD_ushiftRight, hmask]
    by_cases h : i < 12
    · simp [h]
    · simp [h, hi, show 12 + (i - 12) = i by omega]
  rw [h, toNat_shiftLeft, toNat_ushiftRight, Nat.shiftRight_eq_div_pow, Nat.shiftLeft_eq]
  have := w.isLt
  omega

theorem toNat_PGROUNDUP {sz : Word} (h : sz.toNat + 4095 < 2 ^ 64) : (PGROUNDUP sz).toNat = pg sz * 4096 := by
  rw [PGROUNDUP, and_not_mask, pg]
  have he : (sz + PGSIZE - 1).toNat = sz.toNat + 4095 := by
    rw [toNat_sub, toNat_add]
    change (2 ^ 64 - 1 + (sz.toNat + 4096) % 2 ^ 64) % 2 ^ 64 = _
    omega
  rw [he]

theorem toInt_of_lt {w : Word} (h : w.toNat < 2 ^ 31) : toInt w = w := by
  apply eq_of_toNat_eq
  have hset : (w.setWidth 32).toNat = w.toNat := by
    rw [toNat_setWidth]
    omega
  have hmsb : (w.setWidth 32).msb = false := by
    rw [msb_eq_decide]
    simp only [decide_eq_false_iff_not, hset]
    omega
  rw [toInt, toNat_signExtend, hmsb, toNat_setWidth, hset]
  simp
  omega

theorem pg_mono {a b : Word} (h : a ≤ b) : pg a ≤ pg b := by
  have : a.toNat ≤ b.toNat := h
  unfold pg
  omega

section
variable {m : Mem} {root : Word} {K : Nat} {top : AMap} {X : String → Prop}

theorem toNat_size {sz : Word} (hK : pg sz ≤ 557056) : (PGROUNDUP sz).toNat = pg sz * 4096 ∧ sz.toNat + 4096 ≤ 2 ^ 38 := by
  unfold pg at hK
  refine ⟨toNat_PGROUNDUP (by omega), by omega⟩

/-! ## `uvmdealloc` -/

variable {oldsz newsz a xperm : Word}

theorem uvmdealloc_own (S : Space m.page root (pg oldsz) top) (H : Heap (own m.page root (pg oldsz)) m)
    (htop : ∀ x < topPage, top x = none) :
    Sat machine (uvmdealloc root oldsz newsz) m
      (fun r m' => Space m'.page root (pg r) top ∧ Moves (own m.page root (pg oldsz)) (own m'.page root (pg r)) m m' ∧
        Keeps root (pg r) m m' ∧ r = if newsz ≥ oldsz then oldsz else newsz) X := by
  have hK := S.size_le H
  rw [uvmdealloc]
  by_cases hge : newsz ≥ oldsz
  · rw [if_pos hge, if_pos hge, sat_pure]
    exact ⟨S, .refl H, .refl _ _ _, rfl⟩
  have hle : newsz ≤ oldsz := BitVec.le_of_lt (BitVec.not_le.1 hge)
  have hpg := pg_mono hle
  have hold := (toNat_size hK).1
  have hnew := (toNat_size (le_trans hpg hK)).1
  rw [if_neg hge]
  by_cases hlt : PGROUNDUP newsz < PGROUNDUP oldsz
  · rw [if_pos hlt, sat_bind]
    have hdiv : ((PGROUNDUP oldsz - PGROUNDUP newsz) / PGSIZE).toNat = pg oldsz - pg newsz := by
      rw [toNat_udiv, toNat_sub, hold, hnew]
      change (2 ^ 64 - pg newsz * 4096 + pg oldsz * 4096) % 2 ^ 64 / 4096 = _
      omega
    have hnp : (toInt ((PGROUNDUP oldsz - PGROUNDUP newsz) / PGSIZE)).toNat = pg oldsz - pg newsz := by
      rw [toInt_of_lt, hdiv]
      rw [hdiv]
      omega
    refine (S.unmap H hpg (fun x hx => htop x (by unfold topPage; omega)) hnew hnp).mono ?_
    rintro _ m' ⟨S', hmv, hkeep⟩
    rw [sat_pure, if_neg hge]
    exact ⟨S', hmv, hkeep, rfl⟩
  · have heq : pg newsz = pg oldsz := by
      have : ¬(PGROUNDUP newsz).toNat < (PGROUNDUP oldsz).toNat := hlt
      omega
    rw [if_neg hlt, sat_pure, if_neg hge, heq]
    exact ⟨S, .refl H, .refl _ _ _, rfl⟩

/-! ## One more page -/

theorem sat_addPage {α : Type} {fill : Word → V Unit} {perm : Word} {A C : V α} {Q : α → Mem → Prop}
    (ws : Nat → Word) (S : Space m.page root K top) (H : Heap (own m.page root K) m) (htop : ∀ x < topPage, top x = none)
    (ha : a.toNat = K * 4096) (hperm : perm.toNat < 1024) (hflags : perm ||| PTE_V ≠ PTE_V)
    (hfill : ∀ mem m1 R, mem ∈ m.free → (∀ q, q ≠ mem → m1.page q = m.page q) → R () (m1.set mem ws) → Sat machine (fill mem) m1 R X)
    (hA : ∀ m', Space m'.page root K top → Moves (own m.page root K) (own m'.page root K) m m' → Keeps root K m m' → Sat machine A m' Q X)
    (hC : ∀ m' mem, Space m'.page root (K + 1) top → Moves (own m.page root K) (own m'.page root (K + 1)) m m' → Keeps root K m m' →
      view m'.page root K = some (mem, perm ||| PTE_V) → m'.page mem = ws → Sat machine C m' Q X) :
    Sat machine (do
      match ← kalloc with
      | none => A
      | some mem =>
        fill mem
        if (← mappages root a PGSIZE mem perm) ≠ 0 then
          kfree mem
          A
        else C) m Q X := by
  have hK := S.size_le H
  rw [sat_bind]
  refine (kalloc_own H).mono ?_
  rintro (_ | mem) m1 hr
  · obtain rfl : m1 = m := hr
    exact hA m1 S (.refl H) (.refl _ _ _)
  obtain ⟨hmem, hfree, hmv1, hsame1⟩ := hr
  dsimp only
  rw [sat_bind]
  refine hfill mem m1 _ hfree hsame1 ?_
  have hmv2 := hmv1.trans ((hmv1.heap H).set (.inl rfl) ws)
  have hsame2 : ∀ q, q ≠ mem → (m1.set mem ws).page q = m.page q := fun q hq => (update_of_ne hq ..).trans (hsame1 q hq)
  have hws : (m1.set mem ws).page mem = ws := update_self ..
  generalize m1.set mem ws = m2 at hmv2 hsame2 hws ⊢
  obtain ⟨S2, ho2, hkeep2⟩ := S.other hmem hsame2
  have H2 := hmv2.heap H
  rw [← ho2] at hmem H2
  have hmv2' : Moves (own m.page root K) (insert mem (own m2.page root K)) m m2 := ho2.symm ▸ hmv2
  rw [sat_bind]
  refine (S2.map_page H2 hmem (htop K (by unfold topPage; omega)) ha hperm hflags).mono ?_
  rintro r m3 ⟨hkeep3, ⟨rfl, S3, hmv3, hmem3, hv3⟩ | ⟨rfl, S3, hmem3, hmv3⟩⟩
  · rw [if_neg (by decide)]
    exact hC m3 mem S3 (hmv2'.trans hmv3) (hkeep2.trans hkeep3) hv3 (hmem3.trans hws)
  rw [if_pos (by decide), sat_bind]
  refine (kfree_own (hmv3.heap H2) hmem3).mono ?_
  rintro _ m4 ⟨hmv4, hsame4⟩
  obtain ⟨S4, ho4, hkeep4⟩ := S3.other hmem3 hsame4
  have hmv := (hmv2'.trans hmv3).trans hmv4
  rw [← ho4] at hmv
  exact hA m4 S4 hmv ((hkeep2.trans hkeep3).trans hkeep4)

/-! ## `uvmalloc` -/

/-- The flags of a page that `uvmalloc` maps. -/
def userFlags (xperm : Word) : Word := PTE_R ||| PTE_U ||| xperm ||| PTE_V

theorem userFlags_ne (xperm : Word) : userFlags xperm ≠ PTE_V := by
  intro h
  have hbit := congrArg (·.getLsbD 1) h
  simp [userFlags, PTE_R, PTE_U, PTE_V] at hbit

theorem userFlags_lt (h : xperm.toNat < 1024) : (PTE_R ||| PTE_U ||| xperm).toNat < 1024 := by
  rw [toNat_or]
  exact or_lt_two_pow (n := 10) (by decide) h

theorem pg_of_mul {k : Nat} (ha : a.toNat = k * 4096) : pg a = k := by
  unfold pg
  omega

theorem dealloc_back {J : Nat} (S : Space m.page root K top) (H : Heap (own m.page root K) m)
    (htop : ∀ x < topPage, top x = none) (ha : a.toNat = K * 4096) (hold : oldsz.toNat = J * 4096) (hJ : J ≤ K) :
    Sat machine (uvmdealloc root a oldsz) m
      (fun _ m' => Space m'.page root J top ∧ Moves (own m.page root K) (own m'.page root J) m m' ∧ Keeps root J m m') X := by
  have hpa := pg_of_mul ha
  have hpo := pg_of_mul hold
  subst hpa
  refine (uvmdealloc_own S H htop).mono ?_
  rintro r m' ⟨S', hmv, hkeep, hr⟩
  have hpr : pg r = J := by
    rw [hr]
    split
    case isTrue h =>
      have : a.toNat ≤ oldsz.toNat := h
      omega
    case isFalse => exact hpo
  rw [hpr] at S' hmv hkeep
  exact ⟨S', hmv, hkeep⟩

structure Alloced (root : Word) (top : AMap) (J K : Nat) (newsz xperm : Word) (m : Mem) (r : Word) (m' : Mem) (K' : Nat) : Prop where
  space : Space m'.page root K' top
  moves : Moves (own m.page root K) (own m'.page root K') m m'
  keeps : Keeps root J m m'
  res : r = 0 ∧ K' = J ∨ r = newsz ∧ K' = pg newsz ∧ Keeps root K m m' ∧
    ∀ x, K ≤ x → x < K' → ∃ pa, view m'.page root x = some (pa, userFlags xperm)

theorem allocFrom_own {J : Nat} (hold : oldsz.toNat = J * 4096) (hperm : xperm.toNat < 1024)
    (htop : ∀ x < topPage, top x = none) (fuel : Nat) (S : Space m.page root K top) (H : Heap (own m.page root K) m)
    (ha : a.toNat = K * 4096) (hJ : J ≤ K) (hK : K ≤ pg newsz) (hfuel : newsz.toNat ≤ a.toNat + fuel * 4096) :
    Sat machine (allocFrom root oldsz newsz xperm fuel a) m (fun r m' => ∃ K', Alloced root top J K newsz xperm m r m' K') X := by
  induction fuel generalizing m a K with
  | zero =>
    have h : ¬a < newsz := by
      rw [lt_def]
      omega
    rw [allocFrom, if_neg h]
    exact ⟨K, S, .refl H, .refl _ _ _, .inr ⟨rfl, by unfold pg at hK ⊢; omega, .refl _ _ _, fun x _ _ => by omega⟩⟩
  | succ fuel ih =>
    rw [allocFrom]
    by_cases h : a < newsz
    · have hlt : a.toNat < newsz.toNat := h
      have hmax := S.size_le H
      rw [if_pos h]
      refine sat_addPage (fun _ => filled 0) S H htop ha (userFlags_lt hperm) (userFlags_ne xperm) (fun _ _ _ _ _ h => h) ?_ ?_
      · intro m1 S1 hmv hkeep
        rw [sat_bind]
        refine (dealloc_back S1 (hmv.heap H) htop ha hold hJ).mono ?_
        rintro _ m' ⟨S', hmv', hkeep'⟩
        exact ⟨J, S', hmv.trans hmv', (hkeep.le hJ).trans hkeep', .inl ⟨rfl, rfl⟩⟩
      · intro m1 mem S1 hmv hkeep hv _
        have ha' := toNat_add_PGSIZE ha (by omega)
        refine (ih S1 (hmv.heap H) ha' (by omega) (by unfold pg; omega) (by omega)).mono ?_
        rintro r m' ⟨K', A⟩
        refine ⟨K', A.space, hmv.trans A.moves, (hkeep.le hJ).trans A.keeps, A.res.imp_right ?_⟩
        rintro ⟨hr, hK', hkeep', hnew⟩
        refine ⟨hr, hK', hkeep.trans (hkeep'.le (by omega)), fun x h1 h2 => ?_⟩
        rcases eq_or_lt_of_le h1 with rfl | hx
        · exact ⟨mem, (hkeep' K (by omega)).1.trans hv⟩
        · exact hnew x hx h2
    · have hge : ¬a.toNat < newsz.toNat := h
      rw [if_neg h]
      exact ⟨K, S, .refl H, .refl _ _ _, .inr ⟨rfl, by unfold pg at hK ⊢; omega, .refl _ _ _, fun x _ _ => by omega⟩⟩

theorem uvmalloc_own (S : Space m.page root (pg oldsz) top) (H : Heap (own m.page root (pg oldsz)) m)
    (htop : ∀ x < topPage, top x = none) (hperm : xperm.toNat < 1024) :
    Sat machine (uvmalloc root oldsz newsz xperm) m
      (fun r m' => newsz < oldsz ∧ r = oldsz ∧ m' = m ∨
        oldsz ≤ newsz ∧ ∃ K', Alloced root top (pg oldsz) (pg oldsz) newsz xperm m r m' K') X := by
  obtain ⟨hup, hmax⟩ := toNat_size (S.size_le H)
  rw [uvmalloc]
  by_cases h : newsz < oldsz
  · rw [if_pos h]
    exact .inl ⟨h, rfl, rfl⟩
  have hle : oldsz ≤ newsz := BitVec.not_lt.1 h
  have hle' : oldsz.toNat ≤ newsz.toNat := hle
  have hrounds : newsz.toNat ≤ (PGROUNDUP oldsz).toNat + (((newsz - PGROUNDUP oldsz) / PGSIZE).toNat + 1) * 4096 := by
    rw [toNat_udiv, toNat_sub, hup]
    change _ ≤ _ + ((2 ^ 64 - pg oldsz * 4096 + newsz.toNat) % 2 ^ 64 / 4096 + 1) * 4096
    have := newsz.isLt
    omega
  rw [if_neg h]
  refine (allocFrom_own hup hperm htop _ S H hup (le_refl _) (pg_mono hle) hrounds).mono ?_
  exact fun r m' hA => .inr ⟨hle, hA⟩

end

/-! ## `freewalk` and `uvmfree` -/

section
variable {page : Word → Nat → Word} {root : Word} {X : String → Prop}

/-- The nodes at and below node `k` of depth `d`. -/
abbrev below (page : Word → Nat → Word) (root : Word) (d k : Nat) : Set Word := Radix.below next 512 2 page root d k

/-- What is left of a node's subtree when the children at `is` are still there. -/
def remains (page : Word → Nat → Word) (root : Word) (d k : Nat) (a : Word) (is : List Nat) : Set Word :=
  insert a {p | ∃ i ∈ is, p ∈ below page root (d + 1) (512 * k + i)}

section
variable (hdist : Radix.Distinct next 512 2 page root)
include hdist

theorem freeEntries_own {d k : Nat} {a : Word} {free : Word → V Unit} (hd : d ≤ 2)
    (hk : node page root d k = some a)
    (hvalid : ∀ i < 512, page a i &&& PTE_V ≠ 0 → page a i &&& (PTE_R ||| PTE_W ||| PTE_X) = 0)
    (hfree : ∀ i < 512, ∀ m, page a i &&& PTE_V ≠ 0 → Heap (below page root (d + 1) (512 * k + i)) m →
      (∀ p ∈ below page root (d + 1) (512 * k + i), m.page p = page p) →
      Sat machine (free (PTE2PA (page a i))) m (fun _ m' => Moves (below page root (d + 1) (512 * k + i)) ∅ m m') X)
    (is : List Nat) {m : Mem} (his : ∀ i ∈ is, i < 512) (hnodup : is.Nodup) (H : Heap (remains page root d k a is) m)
    (hsame : ∀ i ∈ is, ∀ p ∈ below page root (d + 1) (512 * k + i), m.page p = page p) (hentry : ∀ i ∈ is, m.page a i = page a i) :
    Sat machine (freeEntries free a is) m (fun _ m' => Moves (remains page root d k a is) {a} m m') X := by
  induction is generalizing m with
  | nil =>
    have hnil : remains page root d k a [] = {a} := by
      ext p
      simp [remains]
    rw [hnil] at H ⊢
    exact .refl H
  | cons i is ih =>
    obtain ⟨hi, his⟩ := forall_mem_cons.1 his
    obtain ⟨hsame0, hsame⟩ := forall_mem_cons.1 hsame
    obtain ⟨hentry0, hentry⟩ := forall_mem_cons.1 hentry
    obtain ⟨hnot, hnodup⟩ := nodup_cons.1 hnodup
    have hcons : remains page root d k a (i :: is) = below page root (d + 1) (512 * k + i) ∪ remains page root d k a is := by
      ext p
      simp only [remains, exists_mem_cons_iff, Set.mem_insert_iff, Set.mem_setOf_eq, Set.mem_union]
      tauto
    have hdisj : ∀ p ∈ remains page root d k a is, p ∉ below page root (d + 1) (512 * k + i) := by
      rintro p (rfl | ⟨j, hj, hp⟩)
      · exact hdist.not_mem_below hd hk
      · exact hdist.below_disjoint (fun e => hnot (by rwa [← e])) hp
    rw [hcons] at H ⊢
    rw [freeEntries, sat_bind, sat_load, hentry0]
    by_cases hv : page a i &&& PTE_V ≠ 0
    · rw [if_pos ⟨hv, hvalid i hi hv⟩, sat_bind]
      refine (hfree i hi m hv (H.subset Set.subset_union_left) hsame0).mono ?_
      rintro _ m1 hmv
      have hrest : ∀ p ∈ remains page root d k a is, m1.page p = m.page p := fun p hp => hmv.frame p (hdisj p hp) (H.fresh p (.inr hp))
      have hmv1 := hmv.union fun p hp => ⟨hdisj p hp, H.fresh p (.inr hp)⟩
      rw [Set.empty_union] at hmv1
      have H1 := hmv1.heap H
      have hmv2 := hmv1.trans (H1.set (.inl rfl : a ∈ remains page root d k a is) (update (m1.page a) i 0))
      rw [sat_bind, sat_store]
      refine (ih his hnodup (hmv2.heap H) (fun j hj p hp => ?_) fun j hj => ?_).mono fun _ m' h => hmv2.trans h
      · have hpa : p ≠ a := fun e => hdist.not_mem_below hd hk (e ▸ hp)
        rw [← hsame j hj p hp, ← hrest p (.inr ⟨j, hj, hp⟩)]
        exact update_of_ne hpa ..
      · have hji : j ≠ i := fun e => hnot (e ▸ hj)
        rw [← hentry j hj, ← hrest a (.inl rfl)]
        simp [Mem.set, hji]
    · -- There is no such child.
      have hnone : node page root (d + 1) (512 * k + i) = none := (node_child hi hk).trans (if_neg hv)
      rw [if_neg fun h => hv h.1, if_neg hv]
      rw [below, below_eq_empty hnone, Set.empty_union] at H ⊢
      exact ih his hnodup H hsame hentry

theorem freeNode_own {d k : Nat} {a : Word} {free : Word → V Unit} {m : Mem} (hd : d ≤ 2)
    (hk : node page root d k = some a)
    (hvalid : ∀ i < 512, page a i &&& PTE_V ≠ 0 → page a i &&& (PTE_R ||| PTE_W ||| PTE_X) = 0)
    (hfree : ∀ i < 512, ∀ m, page a i &&& PTE_V ≠ 0 → Heap (below page root (d + 1) (512 * k + i)) m →
      (∀ p ∈ below page root (d + 1) (512 * k + i), m.page p = page p) →
      Sat machine (free (PTE2PA (page a i))) m (fun _ m' => Moves (below page root (d + 1) (512 * k + i)) ∅ m m') X)
    (H : Heap (below page root d k) m) (hsame : ∀ p ∈ below page root d k, m.page p = page p) :
    Sat machine (do
      freeEntries free a entries
      kfree a) m (fun _ m' => Moves (below page root d k) ∅ m m') X := by
  have hlt : ∀ i, i ∈ entries ↔ i < 512 := by
    unfold entries
    exact fun _ => mem_range
  have hnodup : entries.Nodup := by
    unfold entries
    exact nodup_range
  have hbelow : below page root d k = remains page root d k a entries := by
    ext p
    rw [below, mem_below (by decide) (by omega) hk]
    simp only [remains, hlt, Set.mem_insert_iff, Set.mem_setOf_eq]
  rw [sat_bind, hbelow]
  rw [hbelow] at H hsame
  refine (freeEntries_own hdist hd hk hvalid hfree entries (fun i hi => (hlt i).1 hi) hnodup H
    (fun i hi p hp => hsame p (.inr ⟨i, hi, hp⟩)) fun i _ => by rw [hsame a (.inl rfl)]).mono ?_
  rintro _ m1 hmv
  have H1 := hmv.heap H
  rw [← insert_empty_eq a] at H1 hmv
  refine (kfree_own H1 (Set.notMem_empty a)).mono ?_
  rintro _ m' ⟨hmv', -⟩
  exact hmv.trans hmv'

theorem freewalk_own (hplain : Plain page root) (hempty : ∀ n, view page root n = none)
    (levels : Nat) {d k : Nat} {a : Word} {m : Mem} (hd : d + levels = 2) (hk : node page root d k = some a) (H : Heap (below page root d k) m)
    (hsame : ∀ p ∈ below page root d k, m.page p = page p) :
    Sat machine (freewalk (levels + 1) a) m (fun _ m' => Moves (below page root d k) ∅ m m') X := by
  rw [freewalk]
  induction levels generalizing d k a m with
  | zero =>
    obtain rfl : d = 2 := hd
    -- At the lowest level nothing is valid.
    have hinvalid : ∀ i < 512, ¬page a i &&& PTE_V ≠ 0 := by
      intro i hi hv
      have hview := hempty (512 * k + i)
      unfold node at hk
      rw [view, word, mul_add_div (by decide), div_eq_of_lt hi, add_zero, hk, map_some, mul_add_mod,
        mod_eq_of_lt hi, bind_some, decode, if_neg hv] at hview
      cases hview
    exact freeNode_own hdist (le_refl 2) hk (fun i hi hv => absurd hv (hinvalid i hi)) (fun i hi _ hv => absurd hv (hinvalid i hi)) H hsame
  | succ levels ih =>
    refine freeNode_own hdist (by omega) hk (fun i hi hv => hplain d (by omega) k a hk i hi hv) (fun i hi m1 hv H1 hsame1 => ?_) H hsame
    have hchild : node page root (d + 1) (512 * k + i) = some (PTE2PA (page a i)) := (node_child hi hk).trans (if_pos hv)
    rw [freewalk]
    exact ih (by omega) hchild H1 hsame1

end

end

section
variable {m : Mem} {root : Word} {X : String → Prop}

theorem own_zero {page : Word → Nat → Word} : own page root 0 = pages page root := by
  ext p
  simp [own, targets]

theorem uvmfree_own {sz : Word} (S : Space m.page root (pg sz) fun _ => none) (H : Heap (own m.page root (pg sz)) m) :
    Sat machine (uvmfree root sz) m (fun _ m' => Moves (own m.page root (pg sz)) ∅ m m') X := by
  have hwalk : ∀ m1 : Mem, Space m1.page root 0 (fun _ => none) → Heap (own m1.page root 0) m1 →
      Sat machine (freewalk 3 root) m1 (fun _ m' => Moves (own m1.page root 0) ∅ m1 m') X := fun m1 S1 H1 => by
    have hroot : below m1.page root 0 0 = own m1.page root 0 := (below_root (by decide)).trans own_zero.symm
    rw [← hroot] at H1 ⊢
    exact freewalk_own S1.distinct S1.plain (fun n => S1.rest n (zero_le n)) 2 rfl rfl H1 fun _ _ => rfl
  rw [uvmfree]
  by_cases hsz : sz > 0
  · obtain ⟨hup, -⟩ := toNat_size (S.size_le H)
    have hnp : (PGROUNDUP sz / PGSIZE).toNat = pg sz - 0 := by
      rw [toNat_udiv, hup]
      exact Nat.mul_div_cancel _ (by decide)
    rw [if_pos hsz, sat_bind]
    refine (S.unmap H (zero_le _) (fun _ _ => rfl) (by decide) hnp).mono ?_
    rintro _ m1 ⟨S1, hmv, -⟩
    exact (hwalk m1 S1 (hmv.heap H)).mono fun _ m' h => hmv.trans h
  · have hz : pg sz = 0 := by
      have : ¬0 < sz.toNat := hsz
      unfold pg
      omega
    rw [if_neg hsz]
    rw [hz] at S H ⊢
    exact hwalk m S H

/-! ## `proc_pagetable` and `proc_freepagetable` -/

/-- The trampoline and the trapframe at the top of a process's table. -/
def procTop (trampoline trapframe : Word) : AMap :=
  update (update (fun _ => none) (topPage + 1) (some (entry trampoline (PTE_R ||| PTE_X)))) topPage
    (some (entry trapframe (PTE_R ||| PTE_W)))

section
variable {trampoline trapframe : Word}

theorem procTop_low {x : Nat} (hx : x < topPage) : procTop trampoline trapframe x = none := by
  rw [procTop, update_of_ne (by omega), update_of_ne (by omega)]

theorem toNat_TRAMPOLINE : TRAMPOLINE.toNat = (topPage + 1) * 4096 := by decide

theorem toNat_TRAPFRAME : TRAPFRAME.toNat = topPage * 4096 := by decide

theorem entry_flags {pa perm : Word} (h : (perm ||| PTE_V) &&& 0x3FF ≠ PTE_V) : (entry pa perm).2 ≠ PTE_V := by
  unfold entry PTE_FLAGS
  exact h

theorem update_none (top : AMap) (n : Nat) (h : ∀ x, x ≠ n → top x = none) : update top n none = fun _ => none := by
  funext x
  by_cases hx : x = n
  · rw [hx, update_self]
  · rw [update_of_ne hx, h x hx]

theorem uvmfree_empty (S : Space m.page root 0 fun _ => none) (H : Heap (own m.page root 0) m) :
    Sat machine (uvmfree root 0) m (fun _ m' => Moves (own m.page root 0) ∅ m m') X := by
  have hz : pg 0 = 0 := by decide
  rw [← hz] at S H ⊢
  exact uvmfree_own S H

theorem uvmcreate_own (H : Heap ∅ m) :
    Sat machine uvmcreate m
      (fun r m' => match r with
        | none => m' = m
        | some root => Space m'.page root 0 (fun _ => none) ∧ Moves ∅ (own m'.page root 0) m m') X := by
  refine (uvmcreate_spec H.nodup fun p hp => (H.frames p (.inr hp)).1).mono ?_
  rintro (_ | root) m' ⟨hkend, h⟩
  · exact h.1
  obtain ⟨hfree, T, hpages, hv, hsame⟩ := h
  have hown : own m'.page root 0 = insert root ∅ := by rw [own_zero, hpages, insert_empty_eq]
  refine ⟨⟨T.distinct, T.plain, fun x hx => by omega, fun x _ => by rw [hv], nodup_nil, fun p hp => by cases hp⟩, ?_⟩
  rw [hown]
  refine ⟨.take hfree H.nodup H.fresh, fun p _ hp => hsame p fun e => hp ?_, hkend⟩
  rw [hfree, e]
  exact mem_cons_self

theorem procPagetable_own (H : Heap ∅ m) :
    Sat machine (procPagetable trampoline trapframe) m
      (fun r m' => match r with
        | none => Moves ∅ ∅ m m'
        | some root => Space m'.page root 0 (procTop trampoline trapframe) ∧ Moves ∅ (own m'.page root 0) m m') X := by
  rw [procPagetable, sat_bind]
  refine (uvmcreate_own H).mono ?_
  rintro (_ | root) m1 hr
  · obtain rfl : m1 = m := hr
    exact .refl H
  obtain ⟨S1, hmv1⟩ := hr
  have H1 := hmv1.heap H
  dsimp only
  rw [sat_bind]
  refine (S1.map_top H1 (zero_le _) rfl toNat_TRAMPOLINE (by decide)).mono ?_
  rintro r m2 ⟨hmv2, ⟨rfl, S2⟩ | ⟨rfl, S2⟩⟩
  · have H2 := hmv2.heap H1
    have hfree : ∀ x, x ≠ topPage + 1 →
        update (fun _ => none : AMap) (topPage + 1) (some (entry trampoline (PTE_R ||| PTE_X))) x = none := fun x hx => by
      rw [update_of_ne hx]
    rw [if_neg (by decide), sat_bind]
    refine (S2.map_top H2 (zero_le _) (hfree _ (by omega)) toNat_TRAPFRAME (by decide)).mono ?_
    rintro r m3 ⟨hmv3, ⟨rfl, S3⟩ | ⟨rfl, S3⟩⟩
    · rw [if_neg (by decide)]
      exact ⟨S3, (hmv1.trans hmv2).trans hmv3⟩
    have H3 := hmv3.heap H2
    rw [if_pos (by decide), sat_bind]
    refine (S3.unmap_top H3 (zero_le _) (update_self ..) (entry_flags (by decide)) toNat_TRAMPOLINE (by decide)).mono ?_
    rintro _ m4 ⟨S4, hmv4⟩
    rw [update_none _ _ hfree] at S4
    rw [sat_bind]
    refine (uvmfree_empty S4 (hmv4.heap H3)).mono ?_
    exact fun _ m' hmv => (((hmv1.trans hmv2).trans hmv3).trans hmv4).trans hmv
  · rw [if_pos (by decide), sat_bind]
    refine (uvmfree_empty S2 (hmv2.heap H1)).mono ?_
    exact fun _ m' hmv => (hmv1.trans hmv2).trans hmv

theorem procFreepagetable_own {sz : Word} (S : Space m.page root (pg sz) (procTop trampoline trapframe)) (H : Heap (own m.page root (pg sz)) m) :
    Sat machine (procFreepagetable root sz) m (fun _ m' => Moves (own m.page root (pg sz)) ∅ m m') X := by
  have hK := S.size_le H
  have htop : pg sz ≤ topPage := by
    unfold topPage
    omega
  have htramp : procTop trampoline trapframe (topPage + 1) = some (entry trampoline (PTE_R ||| PTE_X)) := by
    rw [procTop, update_of_ne (by omega), update_self]
  rw [procFreepagetable, sat_bind]
  refine (S.unmap_top H (by omega) htramp (entry_flags (by decide)) toNat_TRAMPOLINE (by decide)).mono ?_
  rintro _ m1 ⟨S1, hmv1⟩
  have H1 := hmv1.heap H
  have htrap : update (procTop trampoline trapframe) (topPage + 1) none topPage =
      some (entry trapframe (PTE_R ||| PTE_W)) := by
    rw [update_of_ne (by omega), procTop, update_self]
  rw [sat_bind]
  refine (S1.unmap_top H1 htop htrap (entry_flags (by decide)) toNat_TRAPFRAME (by decide)).mono ?_
  rintro _ m2 ⟨S2, hmv2⟩
  rw [update_none _ topPage] at S2
  · exact (uvmfree_own S2 (hmv2.heap H1)).mono fun _ m' hmv => (hmv1.trans hmv2).trans hmv
  · intro x hx
    by_cases hx' : x = topPage + 1
    · rw [hx', update_self]
    · rw [update_of_ne hx', procTop, update_of_ne hx, update_of_ne hx']

end

/-! ## `uvmcopy` -/

section
variable {old new : Word} {top : AMap}

/-- The pages from `lo` to `hi` have the flags and the contents of the old ones. -/
def Copied (old new : Word) (lo hi : Nat) (m m' : Mem) : Prop :=
  ∀ x, lo ≤ x → x < hi → ∃ e e', view m.page old x = some e ∧ view m'.page new x = some e' ∧ e'.2 = e.2 ∧ m'.page e'.1 = m.page e.1

theorem view_some {page : Word → Nat → Word} {n : Nat} {e : Word × Word} (h : view page root n = some e) :
    ∃ pt, node page root 2 (n / 512) = some pt ∧ page pt (n % 512) &&& PTE_V ≠ 0 ∧ PTE2PA (page pt (n % 512)) = e.1 ∧
      PTE_FLAGS (page pt (n % 512)) = e.2 := by
  cases hn : node page root 2 (n / 512) with
  | none =>
    unfold node at hn
    rw [view, word, hn] at h
    cases h
  | some pt =>
    have hn' := hn
    unfold node at hn'
    rw [view, word, hn', map_some, bind_some, decode] at h
    split at h
    case isTrue => cases h
    case isFalse hv =>
      cases h
      exact ⟨pt, rfl, hv, rfl, rfl⟩

theorem PTE_FLAGS_lt (w : Word) : (PTE_FLAGS w).toNat < 1024 := by
  rw [PTE_FLAGS, toNat_and]
  exact lt_of_le_of_lt and_le_right (by decide)

theorem getLsbD_PTE_V {i : Nat} : PTE_V.getLsbD i = decide (i = 0) := by
  have hv : PTE_V = BitVec.ofNat 64 (2 ^ 0) := rfl
  rw [hv, getLsbD_ofNat, testBit_two_pow]
  by_cases hi : i = 0
  · simp [hi]
  · simp [hi, Ne.symm hi]

theorem PTE_FLAGS_valid {w : Word} (h : w &&& PTE_V ≠ 0) : PTE_FLAGS w ||| PTE_V = PTE_FLAGS w := by
  have h0 : w.getLsbD 0 = true := by
    by_contra hf
    refine h (eq_of_getLsbD_eq fun i hi => ?_)
    refine Eq.trans ?_ getLsbD_zero.symm
    rw [getLsbD_and, getLsbD_PTE_V]
    by_cases hi0 : i = 0
    · rw [hi0, Bool.eq_false_of_not_eq_true hf, Bool.false_and]
    · rw [decide_eq_false hi0, Bool.and_false]
  apply eq_of_getLsbD_eq
  intro i hi
  rw [getLsbD_or, getLsbD_PTE_V]
  by_cases hi0 : i = 0
  · rw [hi0, PTE_FLAGS, getLsbD_and, h0]
    rfl
  · rw [decide_eq_false hi0, Bool.or_false]

/-- The pages from 0 to `K` are mapped by leaves. -/
def Mapped (page : Word → Nat → Word) (root : Word) (K : Nat) : Prop := ∀ x < K, ∃ e, view page root x = some e ∧ e.2 ≠ PTE_V

theorem copyFrom_own {sz i : Word} {k : Nat} (htop : ∀ x < topPage, top x = none) (fuel : Nat)
    (ho : Mapped m.page old (pg sz)) (Sn : Space m.page new k top) (H : Heap (own m.page new k) m)
    (hdisj : ∀ p ∈ own m.page old (pg sz), p ∉ own m.page new k ∧ p ∉ m.free) (hi : i.toNat = k * 4096) (hk : k ≤ pg sz)
    (hfuel : sz.toNat ≤ i.toNat + fuel * 4096) :
    Sat machine (copyFrom old new sz fuel i) m
      (fun r m' => ∃ K', Space m'.page new K' top ∧ Moves (own m.page new k) (own m'.page new K') m m' ∧
        (r = 0 ∧ K' = pg sz ∧ Keeps new k m m' ∧ Copied old new k (pg sz) m m' ∨ r = -1 ∧ K' = 0)) X := by
  induction fuel generalizing m i k with
  | zero =>
    have h : ¬i < sz := by
      rw [lt_def]
      omega
    rw [copyFrom, if_neg h]
    exact ⟨k, Sn, .refl H, .inl ⟨rfl, by unfold pg at hk ⊢; omega, .refl _ _ _, fun x h1 h2 => by unfold pg at h2; omega⟩⟩
  | succ fuel ih =>
    rw [copyFrom]
    by_cases h : i < sz
    · have hlt : i.toNat < sz.toNat := h
      have hkm := Sn.size_le H
      have hkp : k < pg sz := by
        unfold pg
        omega
      have hki : i.toNat / 4096 = k := by omega
      obtain ⟨e, he, hne⟩ := ho k hkp
      obtain ⟨pt, hpt, hv, hpa, hfl⟩ := view_some he
      rw [if_pos h, sat_bind, sat_walk (lt_MAXVA hi (by omega)), hki, hpt, map_some, sat_bind, sat_load, if_neg hv, hfl, hpa]
      have hvalid : e.2 ||| PTE_V = e.2 := by rw [← hfl, PTE_FLAGS_valid hv]
      have hsrc : e.1 ∈ own m.page old (pg sz) := mem_own_of_view hkp he
      refine sat_addPage (m.page e.1) Sn H htop hi (hfl ▸ PTE_FLAGS_lt _) (hvalid.symm ▸ hne) (fun mem m1 R hmem hsame hR => ?_)
        (fun m1 S1 hmv _ => ?_) fun m1 mem S1 hmv hkeep hview hpage => ?_
      · rw [sat_memmove, hsame e.1 fun h => (hdisj e.1 hsrc).2 (h ▸ hmem)]
        exact hR
      · have hnp : (i / PGSIZE).toNat = k - 0 := by
          rw [toNat_udiv]
          exact hki
        rw [sat_bind]
        refine (S1.unmap (hmv.heap H) (zero_le _) (fun x hx => htop x (by unfold topPage; omega)) (by decide) hnp).mono ?_
        rintro _ m' ⟨S', hmv', -⟩
        exact ⟨0, S', hmv.trans hmv', .inr ⟨rfl, rfl⟩⟩
      · have hpo : ∀ p ∈ own m.page old (pg sz), m1.page p = m.page p := fun p hp => hmv.frame p (hdisj p hp).1 (hdisj p hp).2
        obtain ⟨hvo, hpages⟩ := view_congr fun p hp => hpo p (.inl hp)
        have hdisj1 : ∀ p ∈ own m1.page old (pg sz), p ∉ own m1.page new (k + 1) ∧ p ∉ m1.free := fun p hp => by
          rw [own, hvo, hpages] at hp
          exact hmv.elsewhere (hdisj p hp).1 (hdisj p hp).2
        have ho1 : Mapped m1.page old (pg sz) := by
          rw [Mapped, hvo]
          exact ho
        refine (ih ho1 S1 (hmv.heap H) hdisj1 (toNat_add_PGSIZE hi (by omega)) (by omega) ?_).mono ?_
        · rw [toNat_add_PGSIZE hi (by omega)]
          omega
        rintro r m' ⟨K', S', hmv', hres⟩
        refine ⟨K', S', hmv.trans hmv', hres.imp_left ?_⟩
        rintro ⟨hr, hK', hkeep', hcopy⟩
        refine ⟨hr, hK', hkeep.trans (hkeep'.le (by omega)), fun x h1 h2 => ?_⟩
        rcases eq_or_lt_of_le h1 with rfl | hx
        · refine ⟨e, (mem, e.2 ||| PTE_V), he, (hkeep' k (by omega)).1.trans hview, hvalid, ?_⟩
          exact ((hkeep' k (by omega)).2 _ hview).trans hpage
        · obtain ⟨e1, e', he1, he', hf', hp'⟩ := hcopy x hx h2
          rw [hvo] at he1
          exact ⟨e1, e', he1, he', hf', hp'.trans (hpo e1.1 (mem_own_of_view h2 he1))⟩
    · have hge : ¬i.toNat < sz.toNat := h
      rw [if_neg h]
      exact ⟨k, Sn, .refl H, .inl ⟨rfl, by unfold pg at hk ⊢; omega, .refl _ _ _, fun x h1 h2 => by unfold pg at h2; omega⟩⟩

theorem uvmcopy_own {sz : Word} (htop : ∀ x < topPage, top x = none) (ho : Mapped m.page old (pg sz))
    (Sn : Space m.page new 0 top) (H : Heap (own m.page new 0) m)
    (hdisj : ∀ p ∈ own m.page old (pg sz), p ∉ own m.page new 0 ∧ p ∉ m.free) :
    Sat machine (uvmcopy old new sz) m
      (fun r m' => ∃ K', Space m'.page new K' top ∧ Moves (own m.page new 0) (own m'.page new K') m m' ∧
        (r = 0 ∧ K' = pg sz ∧ Copied old new 0 (pg sz) m m' ∨ r = -1 ∧ K' = 0)) X := by
  refine (copyFrom_own htop _ ho Sn H hdisj (by decide) (zero_le _) ?_).mono ?_
  · rw [toNat_udiv]
    change sz.toNat ≤ 0 + (sz.toNat / 4096 + 1) * 4096
    omega
  · rintro r m' ⟨K', S', hmv, hres⟩
    exact ⟨K', S', hmv, hres.imp_left fun ⟨hr, hK, _, hcopy⟩ => ⟨hr, hK, hcopy⟩⟩

end

end

end Xv6.Vm
