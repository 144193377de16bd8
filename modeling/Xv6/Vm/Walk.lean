import Xv6.Lib.Radix
import Xv6.Vm.Table

/-!
# A page table as a radix tree

The pages of a table are the nodes of a tree of depth 2, and the key of a virtual address is the number of its page. `walk` follows
the tree and, with `alloc`, adds the nodes it misses.
-/

namespace Xv6.Vm

open Prog List Radix Nat
open Function (update update_of_ne)

/-! ## Bits -/

theorem PX_eq (level : Nat) (va : Word) : PX level va = va.toNat / 4096 / 512 ^ level % 512 := by
  unfold PX
  rw [BitVec.toNat_and, BitVec.toNat_ushiftRight, Nat.shiftRight_eq_div_pow, Nat.pow_add, Nat.pow_mul, ← Nat.div_div_eq_div_mul]
  exact and_two_pow_sub_one_eq_mod _ 9

theorem PTE2PA_or (pa w : Word) : PTE2PA (PA2PTE pa ||| w) = (pa >>> 12) <<< 12 ||| PTE2PA w := by
  apply BitVec.eq_of_getLsbD_eq
  intro i hi
  simp only [PTE2PA, PA2PTE, BitVec.getLsbD_or, BitVec.getLsbD_shiftLeft, BitVec.getLsbD_ushiftRight]
  by_cases h : i < 12
  · simp [h]
  · simp [h, hi, show 10 + (i - 12) < 64 by omega, show ¬10 + (i - 12) < 10 by omega]

theorem getLsbD_of_lt {w : Word} (hw : w.toNat < 1024) {i : Nat} (hi : 10 ≤ i) : w.getLsbD i = false := by
  have hlt : w.toNat < 2 ^ i := Nat.lt_of_lt_of_le hw (Nat.pow_le_pow_right (by decide) hi : 2 ^ 10 ≤ 2 ^ i)
  exact testBit_lt_two_pow hlt

theorem PTE_FLAGS_or (pa w : Word) : PTE_FLAGS (PA2PTE pa ||| w) = PTE_FLAGS w := by
  apply BitVec.eq_of_getLsbD_eq
  intro i hi
  simp only [PTE_FLAGS, PA2PTE, BitVec.getLsbD_or, BitVec.getLsbD_and, BitVec.getLsbD_shiftLeft, BitVec.getLsbD_ushiftRight]
  by_cases h : i < 10
  · simp [h]
  · rw [getLsbD_of_lt (w := 0x3FF) (by decide) (by omega), Bool.and_false, Bool.and_false]

theorem PTE2PA_of_lt {w : Word} (hw : w.toNat < 1024) : PTE2PA w = 0 := by
  apply BitVec.eq_of_toNat_eq
  simp [PTE2PA, shiftRight_eq_div_pow, div_eq_of_lt hw]

theorem shift_of_aligned {pa : Word} (hpa : pa.toNat % 4096 = 0) : (pa >>> 12) <<< 12 = pa := by
  apply BitVec.eq_of_toNat_eq
  simp
  omega

theorem PTE2PA_PA2PTE {pa : Word} (hpa : pa.toNat % 4096 = 0) {w : Word} (hw : w.toNat < 1024) : PTE2PA (PA2PTE pa ||| w) = pa := by
  rw [PTE2PA_or, shift_of_aligned hpa, PTE2PA_of_lt hw]
  exact BitVec.or_zero

theorem valid_or (w : Word) : (w ||| PTE_V) &&& PTE_V ≠ 0 := by
  have h : (w ||| PTE_V) &&& PTE_V = PTE_V := by
    apply BitVec.eq_of_getLsbD_eq
    intro i hi
    simp only [BitVec.getLsbD_or, BitVec.getLsbD_and]
    cases PTE_V.getLsbD i <;> simp
  rw [h]
  decide

theorem clear_valid (w : Word) : w &&& ~~~PTE_U &&& PTE_V = w &&& PTE_V := by
  rw [BitVec.and_assoc]
  rfl

theorem clear_flags (w : Word) : PTE_FLAGS (w &&& ~~~PTE_U) = PTE_FLAGS w &&& ~~~PTE_U := by
  unfold PTE_FLAGS
  rw [BitVec.and_assoc, BitVec.and_assoc, BitVec.and_comm (~~~PTE_U)]

theorem clear_pa (w : Word) : PTE2PA (w &&& ~~~PTE_U) = PTE2PA w := by
  apply BitVec.eq_of_getLsbD_eq
  intro i hi
  simp only [PTE2PA, BitVec.getLsbD_and, BitVec.getLsbD_not, BitVec.getLsbD_shiftLeft, BitVec.getLsbD_ushiftRight]
  by_cases h : i < 12
  · simp [h]
  · rw [getLsbD_of_lt (w := PTE_U) (by decide) (le_add_right 10 (i - 12))]
    simp [show 10 + (i - 12) < 64 by omega]

theorem PA2PTE_plain (pa : Word) : (PA2PTE pa ||| PTE_V) &&& (PTE_R ||| PTE_W ||| PTE_X) = 0 := by
  have h : PTE_FLAGS (PA2PTE pa ||| PTE_V) = PTE_V := by
    rw [PTE_FLAGS_or]
    unfold PTE_FLAGS
    rfl
  have hmask : PTE_R ||| PTE_W ||| PTE_X = 0x3FF &&& (PTE_R ||| PTE_W ||| PTE_X) := rfl
  unfold PTE_FLAGS at h
  rw [hmask, ← BitVec.and_assoc, h]
  rfl

/-! ## The tree -/

/-- The page that a PTE above level 0 points to. -/
def next (pte : Word) : Option Word := if pte &&& PTE_V ≠ 0 then some (PTE2PA pte) else none

theorem next_new {pa : Word} (hpa : pa.toNat % 4096 = 0) : next (PA2PTE pa ||| PTE_V) = some pa := by
  rw [next, if_pos (valid_or _), PTE2PA_PA2PTE hpa (by decide)]

abbrev node (page : Word → Nat → Word) (root : Word) (d k : Nat) : Option Word := Radix.node next 512 page root d k

abbrev pages (page : Word → Nat → Word) (root : Word) : Set Word := nodes next 512 2 page root

/-- The page and the flags of a PTE at level 0. -/
def decode (pte : Word) : Option (Word × Word) := if pte &&& PTE_V = 0 then none else some (PTE2PA pte, PTE_FLAGS pte)

/-- What the table maps the page `n` to. -/
def view (page : Word → Nat → Word) (root : Word) (n : Nat) : Option (Word × Word) := (word next 512 2 page root n).bind decode

/-- The valid PTEs above level 0 have no other flag. -/
def Plain (page : Word → Nat → Word) (root : Word) : Prop :=
  ∀ d < 2, ∀ k pt, node page root d k = some pt → ∀ i < 512, page pt i &&& PTE_V ≠ 0 → page pt i &&& (PTE_R ||| PTE_W ||| PTE_X) = 0

structure Table (m : Mem) (root : Word) : Prop where
  distinct : Radix.Distinct next 512 2 m.page root
  plain : Plain m.page root
  fresh : ∀ p ∈ m.free, p ∉ pages m.page root
  nodup : m.free.Nodup
  aligned : ∀ p ∈ m.free, p.toNat % 4096 = 0

def Grows (root : Word) (m m' : Mem) : Prop :=
  ∃ taken, m.free = taken ++ m'.free ∧ pages m'.page root = pages m.page root ∪ {p | p ∈ taken} ∧
    (∀ p, p ∉ pages m'.page root → m'.page p = m.page p) ∧ m'.kend = m.kend

theorem Grows.refl (root : Word) (m : Mem) : Grows root m m := ⟨[], rfl, by simp, fun _ _ => rfl, rfl⟩

theorem Grows.trans {root : Word} {m1 m2 m3 : Mem} (h : Grows root m1 m2) (h' : Grows root m2 m3) : Grows root m1 m3 := by
  obtain ⟨t, ht, hp, hf, hk⟩ := h
  obtain ⟨t', ht', hp', hf', hk'⟩ := h'
  refine ⟨t ++ t', by rw [ht, ht', append_assoc], ?_, fun p hnp => ?_, hk'.trans hk⟩
  · ext p
    rw [hp', hp]
    simp [or_assoc]
  · rw [hf' p hnp, hf p fun h => hnp (hp' ▸ .inl h)]

section
variable {m : Mem} {root pt va : Word} {level : Nat} {X : String → Prop}

/-- The page at `level` on the way to `va`, counted from the root. -/
def At (m : Mem) (root va : Word) (level : Nat) (pt : Word) : Prop :=
  level ≤ 2 ∧ node m.page root (2 - level) (va.toNat / 4096 / 512 ^ (level + 1)) = some pt

theorem At.node_next (h : At m root va (level + 1) pt) :
    node m.page root (2 - level) (va.toNat / 4096 / 512 ^ (level + 1)) = next (m.page pt (PX (level + 1) va)) := by
  obtain ⟨hl, hn⟩ := h
  have hd : 2 - level = 2 - (level + 1) + 1 := by omega
  unfold node at hn ⊢
  rw [hd, PX_eq, node_succ, Nat.div_div_eq_div_mul, ← Nat.pow_succ, hn]
  rfl

theorem at_root (hva : va < MAXVA) : At m root va 2 root := by
  refine ⟨le_refl 2, ?_⟩
  have hlt : va.toNat < 2 ^ 38 := hva
  have hz : va.toNat / 4096 / 512 ^ (2 + 1) = 0 := by omega
  rw [hz]
  rfl

theorem walkFrom_read (h : At m root va level pt) :
    Sat machine (walkFrom va false level pt) m
      (fun r m' => m' = m ∧ r = (node m.page root 2 (va.toNat / 4096 / 512)).map fun a => (a, va.toNat / 4096 % 512)) X := by
  induction level generalizing pt with
  | zero =>
    have hn := h.2
    rw [zero_add, pow_one] at hn
    rw [walkFrom, sat_pure, hn, PX_eq]
    exact ⟨rfl, by simp⟩
  | succ level ih =>
    have hnext := h.node_next
    rw [walkFrom, sat_bind, sat_load]
    by_cases hv : m.page pt (PX (level + 1) va) &&& PTE_V ≠ 0
    · rw [if_pos hv]
      refine ih ⟨by have := h.1; omega, ?_⟩
      rw [hnext, next, if_pos hv]
    · rw [if_neg hv, if_neg (by simp), sat_pure]
      refine ⟨rfl, ?_⟩
      rw [next, if_neg hv] at hnext
      have hnone : node m.page root (2 - level + level) (va.toNat / 4096 / 512) = none := by
        refine node_eq_none level ?_
        rwa [Nat.div_div_eq_div_mul, ← pow_succ']
      have hl := h.1
      rw [show 2 = 2 - level + level by omega, hnone]
      rfl

theorem sat_walk (hva : va < MAXVA) {Q : Option Slot → Mem → Prop} :
    Sat machine (walk root va false) m Q X ↔
      Q ((node m.page root 2 (va.toNat / 4096 / 512)).map fun a => (a, va.toNat / 4096 % 512)) m := by
  have h : Sat machine (walkFrom va false 2 root) m _ fun _ => False := walkFrom_read (at_root hva)
  rw [walk, if_neg (by simpa using hva)]
  unfold Sat at *
  cases hr : (walkFrom va false 2 root).run machine m with
  | ok r =>
    rw [hr] at h
    obtain ⟨he, hr⟩ := h
    simp only [he, hr]
  | error e =>
    rw [hr] at h
    exact h.elim

theorem next_zero : next 0 = none := rfl

theorem PX_lt (level : Nat) (va : Word) : PX level va < 512 := by
  rw [PX_eq]
  exact mod_lt _ (by decide)

/-- The memory after `walk` has taken `c` for the missing page below `pt`. -/
def Mem.grow (m : Mem) (pt : Word) (i : Nat) (c : Word) (rest : List Word) : Mem :=
  { m with page := Radix.write (update m.page c fun _ => 0) pt i (PA2PTE c ||| PTE_V), free := rest }

theorem Mem.grow_page {i : Nat} {c : Word} {rest : List Word} :
    (m.grow pt i c rest).page = Radix.write (update m.page c fun _ => 0) pt i (PA2PTE c ||| PTE_V) := rfl

section
variable {c : Word} {rest : List Word} (T : Table m root) (h : At m root va (level + 1) pt)
  (hnone : next (m.page pt (PX (level + 1) va)) = none) (hfree : m.free = c :: rest)
include T h hnone hfree

theorem Table.grow_node {d k : Nat} (hd : d ≤ 2) :
    node (m.grow pt (PX (level + 1) va) c rest).page root d k =
      if d = 2 - level ∧ k = va.toNat / 4096 / 512 ^ (level + 1) then some c else node m.page root d k := by
  have hl := h.1
  have hk : 512 * (va.toNat / 4096 / 512 ^ (level + 1 + 1)) + PX (level + 1) va = va.toNat / 4096 / 512 ^ (level + 1) := by
    rw [PX_eq, Nat.pow_succ 512 (level + 1), ← Nat.div_div_eq_div_mul, Nat.div_add_mod]
  refine (node_extend T.distinct (T.fresh c (hfree ▸ mem_cons_self)) (by omega) (PX_lt (level + 1) va) h.2 hnone
    (fun _ => next_zero) (next_new (T.aligned c (hfree ▸ mem_cons_self))) hd).trans ?_
  rw [hk, show 2 - (level + 1) + 1 = 2 - level by omega]

theorem Table.grow_pages : pages (m.grow pt (PX (level + 1) va) c rest).page root = insert c (pages m.page root) := by
  have hl := h.1
  exact nodes_extend T.distinct (T.fresh c (hfree ▸ mem_cons_self)) (by omega) (PX_lt (level + 1) va) h.2 hnone
    (fun _ => next_zero) (next_new (T.aligned c (hfree ▸ mem_cons_self)))

theorem Table.grow : Table (m.grow pt (PX (level + 1) va) c rest) root := by
  have hl := h.1
  have hc : c ∈ m.free := hfree ▸ mem_cons_self
  have hnd := T.nodup
  rw [hfree] at hnd
  have hptc : pt ≠ c := fun e => T.fresh c hc (e ▸ mem_nodes (by omega) h.2)
  refine ⟨?_, fun d hd k q hq i hi hv => ?_, fun p hp hmem => ?_, (nodup_cons.1 hnd).2,
    fun p hp => T.aligned p (hfree ▸ mem_cons_of_mem c hp)⟩
  · exact Radix.Distinct.extend T.distinct (T.fresh c hc) (by omega) (PX_lt (level + 1) va) h.2 hnone (fun _ => next_zero)
      (next_new (T.aligned c hc))
  · rw [T.grow_node h hnone hfree (by omega)] at hq
    split at hq
    case isTrue =>
      cases hq
      have hz : (m.grow pt (PX (level + 1) va) c rest).page c i = 0 := by
        rw [Mem.grow_page, write_of_ne hptc.symm, Function.update_self]
      rw [hz] at hv
      exact absurd rfl hv
    case isFalse =>
      have hqc : q ≠ c := fun e => T.fresh c hc (e ▸ mem_nodes (by omega) hq)
      have hold : update m.page c (fun _ => 0) q = m.page q := update_of_ne hqc ..
      by_cases hqp : q = pt
      · subst hqp
        by_cases hi' : i = PX (level + 1) va
        · rw [hi', Mem.grow_page, Radix.write_same]
          exact PA2PTE_plain c
        · rw [Mem.grow_page, write_of_ne_index hi', hold] at hv ⊢
          exact T.plain d hd k q hq i hi hv
      · rw [Mem.grow_page, write_of_ne hqp, hold] at hv ⊢
        exact T.plain d hd k q hq i hi hv
  · rw [T.grow_pages h hnone hfree] at hmem
    rcases hmem with rfl | hmem
    · exact (nodup_cons.1 hnd).1 hp
    · exact T.fresh p (hfree ▸ mem_cons_of_mem c hp) hmem

theorem Table.grow_grows : Grows root m (m.grow pt (PX (level + 1) va) c rest) := by
  have hpages := T.grow_pages h hnone hfree
  refine ⟨[c], hfree, ?_, fun p hp => ?_, rfl⟩
  · rw [hpages]
    ext p
    simp only [mem_singleton]
    exact or_comm
  · have hpt : p ≠ pt := by
      rintro rfl
      rw [hpages] at hp
      exact hp (.inr (mem_nodes (by omega) h.2))
    have hpc : p ≠ c := by
      rintro rfl
      rw [hpages] at hp
      exact hp (.inl rfl)
    exact (write_of_ne hpt).trans (update_of_ne hpc ..)

theorem Table.grow_view : view (m.grow pt (PX (level + 1) va) c rest).page root = view m.page root := by
  funext n
  have hl := h.1
  have hword := word_extend T.distinct (T.fresh c (hfree ▸ mem_cons_self)) (by omega) (PX_lt (level + 1) va) h.2 hnone
    (z := fun _ => 0) (fun _ => next_zero) (next_new (T.aligned c (hfree ▸ mem_cons_self))) (n := n)
  unfold view
  refine (congrArg (Option.bind · decode) hword).trans ?_
  split
  case isFalse => rfl
  case isTrue hn =>
    have hold : word next 512 2 m.page root n = none := by
      rw [word, hn.2, ← hn.1, node_child (PX_lt (level + 1) va) h.2, hnone]
      rfl
    rw [hold]
    rfl

end

theorem walkFrom_alloc (T : Table m root) (h : At m root va level pt) :
    Sat machine (walkFrom va true level pt) m
      (fun r m' => Table m' root ∧ Grows root m m' ∧ view m'.page root = view m.page root ∧
        match r with
        | none => m'.free = []
        | some s => node m'.page root 2 (va.toNat / 4096 / 512) = some s.1 ∧ s.2 = va.toNat / 4096 % 512) X := by
  induction level generalizing pt m with
  | zero =>
    have hn := h.2
    rw [zero_add, pow_one] at hn
    rw [walkFrom, sat_pure, PX_eq]
    exact ⟨T, .refl root m, rfl, hn, by simp⟩
  | succ level ih =>
    have hnext := h.node_next
    have hl := h.1
    rw [walkFrom, sat_bind, sat_load]
    by_cases hv : m.page pt (PX (level + 1) va) &&& PTE_V ≠ 0
    · rw [if_pos hv]
      refine ih T ⟨by omega, ?_⟩
      rw [hnext, next, if_pos hv]
    have hnone : next (m.page pt (PX (level + 1) va)) = none := by rw [next, if_neg hv]
    rw [if_neg hv, if_pos rfl, sat_bind, sat_kalloc]
    cases hfree : m.free with
    | nil => exact ⟨T, .refl root m, rfl, hfree⟩
    | cons c rest =>
      have hpt : pt ≠ c := by
        rintro rfl
        exact T.fresh pt (hfree ▸ mem_cons_self) (mem_nodes (by omega) h.2)
      have hmem : ((({ m with free := rest }.set c fun _ => filled 5).set c fun _ => filled 0).set pt
          (update (((({ m with free := rest }.set c fun _ => filled 5).set c fun _ => filled 0)).page pt) (PX (level + 1) va)
            (PA2PTE c ||| PTE_V))) = m.grow pt (PX (level + 1) va) c rest := by
        simp only [Mem.set, Mem.grow, write, Function.update_idem]
        rfl
      change Sat machine (walkFrom va true level c) _ _ X
      rw [hmem]
      have hat : At (m.grow pt (PX (level + 1) va) c rest) root va level c := by
        refine ⟨by omega, ?_⟩
        rw [T.grow_node h hnone hfree (by omega), if_pos ⟨rfl, rfl⟩]
      refine (ih (T.grow h hnone hfree) hat).mono ?_
      rintro r m' ⟨T', hg, hview, hr⟩
      exact ⟨T', (T.grow_grows h hnone hfree).trans hg, hview.trans (T.grow_view h hnone hfree), hr⟩

theorem walk_alloc (T : Table m root) (hva : va < MAXVA) :
    Sat machine (walk root va true) m
      (fun r m' => Table m' root ∧ Grows root m m' ∧ view m'.page root = view m.page root ∧
        match r with
        | none => m'.free = []
        | some s => node m'.page root 2 (va.toNat / 4096 / 512) = some s.1 ∧ s.2 = va.toNat / 4096 % 512) X := by
  rw [walk, if_neg (by simpa using hva)]
  exact walkFrom_alloc T (at_root hva)

/-! ## PTEs at level 0 -/

/-- The PTE of page `n` becomes `w`. -/
def Mem.setPte (m : Mem) (pt : Word) (n : Nat) (w : Word) : Mem := m.set pt (update (m.page pt) (n % 512) w)

section
variable {n : Nat} {w : Word} (hn : node m.page root 2 (n / 512) = some pt)
include hn

theorem Table.setPte_node (T : Table m root) {d k : Nat} (hd : d ≤ 2) : node (m.setPte pt n w).page root d k = node m.page root d k :=
  node_write T.distinct hn hd

theorem Table.setPte_pages (T : Table m root) : pages (m.setPte pt n w).page root = pages m.page root :=
  nodes_congr fun _ hd _ => T.setPte_node hn hd

theorem Table.setPte (T : Table m root) : Table (m.setPte pt n w) root where
  distinct := T.distinct.congr fun _ hd _ => T.setPte_node hn hd
  plain d hd k q hq i hi hv := by
    rw [T.setPte_node hn (by omega)] at hq
    have hqp : q ≠ pt := by
      rintro rfl
      have := (T.distinct d 2 k _ q (by omega) (le_refl 2) hq hn).1
      omega
    have hsame : (m.setPte pt n w).page q = m.page q := update_of_ne hqp ..
    rw [hsame] at hv ⊢
    exact T.plain d hd k q hq i hi hv
  fresh p hp := by
    rw [T.setPte_pages hn]
    exact T.fresh p hp
  nodup := T.nodup
  aligned := T.aligned

theorem Table.setPte_view (T : Table m root) :
    view (m.setPte pt n w).page root = update (view m.page root) n (decode w) := by
  funext x
  unfold view
  refine (congrArg (Option.bind · decode) (word_write T.distinct (by decide) hn)).trans ?_
  rw [Function.update_apply]
  split <;> rfl

theorem view_eq : view m.page root n = decode (m.page pt (n % 512)) := by
  unfold node at hn
  rw [view, word, hn]
  rfl

end

theorem setPte_of_ne {n : Nat} {w p : Word} (hp : p ≠ pt) : (m.setPte pt n w).page p = m.page p := update_of_ne hp ..

theorem Table.frame (T : Table m root) {m' : Mem} (hpage : ∀ p ∈ pages m.page root, m'.page p = m.page p)
    (hfresh : ∀ p ∈ m'.free, p ∉ pages m.page root) (hnodup : m'.free.Nodup) (haligned : ∀ p ∈ m'.free, p.toNat % 4096 = 0) :
    Table m' root ∧ (∀ d ≤ 2, ∀ k, node m'.page root d k = node m.page root d k) ∧ pages m'.page root = pages m.page root ∧
      view m'.page root = view m.page root := by
  have hnode : ∀ d ≤ 2, ∀ k, node m'.page root d k = node m.page root d k := fun d hd k => node_frame hpage hd
  have hpages : pages m'.page root = pages m.page root := nodes_congr hnode
  refine ⟨⟨T.distinct.congr hnode, fun d hd k q hq i hi hv => ?_, ?_, hnodup, haligned⟩, hnode, hpages, ?_⟩
  · rw [hnode d (by omega)] at hq
    rw [hpage q (mem_nodes (by omega) hq)] at hv ⊢
    exact T.plain d hd k q hq i hi hv
  · rwa [hpages]
  · funext n
    rw [view, word_frame hpage, view]

end

end Xv6.Vm
