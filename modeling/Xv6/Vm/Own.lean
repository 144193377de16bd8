import Mathlib.Data.List.Perm.Subperm
import Mathlib.Data.List.Range
import Xv6.Lib.Pool
import Xv6.Vm.Map
import Xv6.Vm.User

/-!
# Who owns which page

Every page of physical memory that `kalloc` hands out is on the free list or has one owner. An address space owns the pages of its
table and the pages it maps from 0 on; what it maps at the top it does not own. The calls of `vm.c` move pages between the free list and
an address space, and touch no other page.
-/

namespace Xv6.Vm

open Prog List AMap Nat
open Function (update update_self update_of_ne)

/-- `kfree` accepts the page. -/
def Frame (m : Mem) (p : Word) : Prop := p.toNat % 4096 = 0 ∧ Kpage m p

/-- The pages `F` are in use and the free list holds other ones. -/
structure Heap (F : Set Word) (m : Mem) : Prop where
  nodup : m.free.Nodup
  fresh : ∀ p ∈ F, p ∉ m.free
  frames : ∀ p, p ∈ F ∨ p ∈ m.free → Frame m p
  kend : 0 < m.kend.toNat

/-- An owner of `F` becomes one of `F'`, and what others own is as it was. -/
structure Moves (F F' : Set Word) (m m' : Mem) : Prop extends Pool.Move F F' m.free m'.free where
  frame : ∀ p, p ∉ F → p ∉ m.free → m'.page p = m.page p
  kend : m'.kend = m.kend

section
variable {F F' F'' G : Set Word} {m m' m'' : Mem} {p : Word} {X : String → Prop}

theorem Moves.heap (h : Moves F F' m m') (H : Heap F m) : Heap F' m' := by
  refine ⟨h.nodup, h.fresh, fun p hp => ?_, h.kend.symm ▸ H.kend⟩
  obtain ⟨ha, hk⟩ := H.frames p ((h.same p).1 hp)
  refine ⟨ha, ?_⟩
  rwa [Kpage, h.kend]

theorem Moves.refl (H : Heap F m) : Moves F F m m := ⟨.refl H.nodup H.fresh, fun _ _ _ => rfl, rfl⟩

theorem Moves.trans (h : Moves F F' m m') (h' : Moves F' F'' m' m'') : Moves F F'' m m'' := by
  refine ⟨h.toMove.trans h'.toMove, fun p hF hfree => ?_, h'.kend.trans h.kend⟩
  obtain ⟨hF', hfree'⟩ := h.elsewhere hF hfree
  rw [h'.frame p hF' hfree', h.frame p hF hfree]

theorem Moves.union (h : Moves F F' m m') (hG : ∀ p ∈ G, p ∉ F ∧ p ∉ m.free) : Moves (F ∪ G) (F' ∪ G) m m' :=
  ⟨h.toMove.union hG, fun p hp hfree => h.frame p (fun hF => hp (.inl hF)) hfree, h.kend⟩

theorem Moves.insert (h : Moves F F' m m') (hF : p ∉ F) (hfree : p ∉ m.free) : Moves (insert p F) (insert p F') m m' := by
  have hu := h.union (G := {p}) (by rintro q rfl; exact ⟨hF, hfree⟩)
  rwa [Set.union_singleton, Set.union_singleton] at hu

theorem Heap.subset (H : Heap F m) (hG : G ⊆ F) : Heap G m :=
  ⟨H.nodup, fun p hp => H.fresh p (hG hp), fun p hp => H.frames p (hp.imp_left fun h => hG h), H.kend⟩

theorem Heap.set (H : Heap F m) (hp : p ∈ F) (ws : Nat → Word) : Moves F F m (m.set p ws) := by
  refine ⟨.refl H.nodup H.fresh, fun q hq _ => ?_, rfl⟩
  exact update_of_ne (ne_of_mem_of_not_mem hp hq).symm ..

theorem kalloc_own (H : Heap F m) :
    Sat machine kalloc m
      (fun r m' => match r with
        | none => m' = m
        | some p => p ∉ F ∧ p ∈ m.free ∧ Moves F (insert p F) m m' ∧ ∀ q, q ≠ p → m'.page q = m.page q) X := by
  rw [sat_kalloc]
  cases hfree : m.free with
  | nil => rfl
  | cons p rest =>
    have hp : p ∈ m.free := hfree ▸ mem_cons_self
    have hpF : p ∉ F := fun h => H.fresh p h hp
    refine ⟨hpF, hfree ▸ hp, ⟨.take hfree H.nodup H.fresh, fun q hq hq' => ?_, rfl⟩, fun q hq => update_of_ne hq ..⟩
    exact update_of_ne (ne_of_mem_of_not_mem hp hq').symm ..

theorem kfree_own (H : Heap (insert p F) m) (hp : p ∉ F) :
    Sat machine (kfree p) m (fun _ m' => Moves (insert p F) F m m' ∧ ∀ q, q ≠ p → m'.page q = m.page q) X := by
  obtain ⟨ha, hk⟩ := H.frames p (.inl (.inl rfl))
  rw [sat_kfree, if_neg]
  · have hsame : ∀ q, q ≠ p → update m.page p (fun _ => filled 1) q = m.page q := fun q hq => update_of_ne hq ..
    exact ⟨⟨.give H.nodup H.fresh hp, fun q hq _ => hsame q fun e => hq (.inl e), rfl⟩, hsame⟩
  · rw [mod_PGSIZE ha]
    rintro (h | h | h)
    · exact h rfl
    · exact absurd hk.1 (by simpa using h)
    · exact absurd hk.2 (by simpa using h)

end

/-! ## Address spaces -/

/-- What an address space owns. -/
def own (page : Word → Nat → Word) (root : Word) (K : Nat) : Set Word := pages page root ∪ {p | p ∈ AMap.targets (view page root) 0 K}

structure Space (page : Word → Nat → Word) (root : Word) (K : Nat) (top : AMap) : Prop where
  distinct : Radix.Distinct next 512 2 page root
  plain : Plain page root
  user : ∀ x < K, ∃ e, view page root x = some e ∧ e.2 ≠ PTE_V
  rest : ∀ x, K ≤ x → view page root x = top x
  nodup : (AMap.targets (view page root) 0 K).Nodup
  apart : ∀ p ∈ AMap.targets (view page root) 0 K, p ∉ pages page root

/-- The pages below `J` and what is in them are the same. -/
def Keeps (root : Word) (J : Nat) (m m' : Mem) : Prop :=
  ∀ x < J, view m'.page root x = view m.page root x ∧ ∀ e, view m.page root x = some e → m'.page e.1 = m.page e.1

section
variable {m m' m'' : Mem} {root : Word} {J K : Nat} {top : AMap} {X : String → Prop}

theorem Keeps.refl (root : Word) (J : Nat) (m : Mem) : Keeps root J m m := fun _ _ => ⟨rfl, fun _ _ => rfl⟩

theorem Keeps.trans (h : Keeps root J m m') (h' : Keeps root J m' m'') : Keeps root J m m'' := by
  intro x hx
  obtain ⟨hv, hp⟩ := h x hx
  obtain ⟨hv', hp'⟩ := h' x hx
  exact ⟨hv'.trans hv, fun e he => (hp' e (hv.trans he)).trans (hp e he)⟩

theorem Keeps.le (h : Keeps root K m m') (hJ : J ≤ K) : Keeps root J m m' := fun x hx => h x (by omega)

theorem mem_own_of_view {page : Word → Nat → Word} {x : Nat} {e : Word × Word} (hx : x < K) (he : view page root x = some e) :
    e.1 ∈ own page root K := .inr (mem_targets.2 ⟨x, e, zero_le x, by omega, he, rfl⟩)

theorem Space.table (S : Space m.page root K top) (H : Heap (own m.page root K) m) : Table m root where
  distinct := S.distinct
  plain := S.plain
  fresh p hp h := H.fresh p (.inl h) hp
  nodup := H.nodup
  aligned p hp := (H.frames p (.inr hp)).1

theorem view_congr {page page' : Word → Nat → Word} (h : ∀ p ∈ pages page root, page' p = page p) :
    view page' root = view page root ∧ pages page' root = pages page root := by
  constructor
  · funext n
    rw [view, Radix.word_frame h, view]
  · exact Radix.nodes_congr fun d hd k => Radix.node_frame h hd

theorem Space.congr {page page' : Word → Nat → Word} (S : Space page root K top) (h : ∀ p ∈ pages page root, page' p = page p) :
    Space page' root K top ∧ view page' root = view page root ∧ pages page' root = pages page root ∧
      own page' root K = own page root K := by
  have hnode : ∀ d ≤ 2, ∀ k, node page' root d k = node page root d k := fun d hd k => Radix.node_frame h hd
  obtain ⟨hview, hpages⟩ := view_congr h
  refine ⟨⟨S.distinct.congr hnode, fun d hd k q hq i hi hv => ?_, ?_, ?_, ?_, ?_⟩, hview, hpages, ?_⟩
  · rw [hnode d (by omega)] at hq
    rw [h q (Radix.mem_nodes (by omega) hq)] at hv ⊢
    exact S.plain d hd k q hq i hi hv
  · rw [hview]
    exact S.user
  · rw [hview]
    exact S.rest
  · rw [hview]
    exact S.nodup
  · rw [hview, hpages]
    exact S.apart
  · rw [own, hview, hpages, own]

theorem Space.frame {F F' : Set Word} (S : Space m.page root K top) (h : Moves F F' m m')
    (hF : ∀ p ∈ own m.page root K, p ∉ F ∧ p ∉ m.free) :
    Space m'.page root K top ∧ view m'.page root = view m.page root ∧ own m'.page root K = own m.page root K ∧
      ∀ p ∈ own m.page root K, m'.page p = m.page p := by
  have hpage : ∀ p ∈ own m.page root K, m'.page p = m.page p := fun p hp => h.frame p (hF p hp).1 (hF p hp).2
  obtain ⟨S', hv, -, ho⟩ := S.congr fun p hp => hpage p (.inl hp)
  exact ⟨S', hv, ho, hpage⟩

theorem Space.other {p : Word} (S : Space m.page root K top) (hp : p ∉ own m.page root K) (hpage : ∀ q, q ≠ p → m'.page q = m.page q) :
    Space m'.page root K top ∧ own m'.page root K = own m.page root K ∧ Keeps root K m m' := by
  obtain ⟨S', hv, -, ho⟩ := S.congr fun q hq => hpage q fun e => hp (e ▸ .inl hq)
  exact ⟨S', ho, fun x hx => ⟨by rw [hv], fun e he => hpage e.1 (ne_of_mem_of_not_mem (mem_own_of_view hx he) hp)⟩⟩

theorem Space.write {p : Word} (S : Space m.page root K top) (H : Heap (own m.page root K) m) (hp : p ∈ targets (view m.page root) 0 K)
    (ws : Nat → Word) :
    Space (m.set p ws).page root K top ∧ Moves (own m.page root K) (own (m.set p ws).page root K) m (m.set p ws) ∧
      view (m.set p ws).page root = view m.page root := by
  have hpage : ∀ q ∈ pages m.page root, (m.set p ws).page q = m.page q := fun q hq =>
    update_of_ne (ne_of_mem_of_not_mem hq (S.apart p hp)) ..
  obtain ⟨S', hv, -, ho⟩ := S.congr hpage
  rw [ho]
  exact ⟨S', H.set (.inr hp) ws, hv⟩

theorem Space.length_targets {page : Word → Nat → Word} (S : Space page root K top) : (targets (view page root) 0 K).length = K := by
  have huser : ∀ x ∈ range' 0 K, ((view page root x).map Prod.fst).isSome = true := fun x hx => by
    obtain ⟨e, he, -⟩ := S.user x (by have := mem_range'_1.1 hx; omega)
    rw [he]
    rfl
  rw [targets, length_filterMap_eq_countP, countP_eq_length.2 huser, length_range']

theorem Space.size_le (S : Space m.page root K top) (H : Heap (own m.page root K) m) : K ≤ 557056 := by
  have hframe : ∀ p ∈ targets (view m.page root) 0 K, p.toNat % 4096 = 0 ∧ p.toNat < 557056 * 4096 := fun p hp => by
    obtain ⟨ha, -, hp⟩ := H.frames p (.inl (.inr hp))
    exact ⟨ha, hp⟩
  have hinj : ((targets (view m.page root) 0 K).map fun p => p.toNat / 4096).Nodup := by
    refine List.Nodup.map_on (fun p hp q hq he => BitVec.eq_of_toNat_eq ?_) S.nodup
    have h1 := (hframe p hp).1
    have h2 := (hframe q hq).1
    omega
  have hsub : ((targets (view m.page root) 0 K).map fun p => p.toNat / 4096) ⊆ range 557056 := fun n hn => by
    obtain ⟨p, hp, rfl⟩ := mem_map.1 hn
    have := (hframe p hp).2
    exact mem_range.2 (by omega)
  have hlen := (subperm_of_subset hinj hsub).length_le
  rwa [length_map, S.length_targets, length_range] at hlen

/-! ## One page more -/

theorem AMap.targets_concat {a : AMap} {n k : Nat} {e : Word × Word} (he : a (n + k) = some e) :
    a.targets n (k + 1) = a.targets n k ++ [e.1] := by
  simp [targets, range'_concat, he]

theorem mappages_page {va pa perm : Word} {n : Nat} (T : Table m root) (hva : va.toNat = n * 4096) (hn : n < 2 ^ 26)
    (hnone : view m.page root n = none) :
    Sat machine (mappages root va PGSIZE pa perm) m
      (fun r m' => Table m' root ∧ Grows root m m' ∧
        (r = 0 ∧ view m'.page root = update (view m.page root) n (some (entry pa perm)) ∨
          r = -1 ∧ view m'.page root = view m.page root)) X := by
  have hpg : va.toNat / 4096 = n := by omega
  have hmax : va.toNat + PGSIZE.toNat ≤ 2 ^ 38 := by
    change va.toNat + 4096 ≤ 2 ^ 38
    omega
  have h : Sat machine (mappages root va PGSIZE pa perm) m _ _ := mappages_spec T (by omega) rfl (by decide) hmax
  rw [hpg] at h
  refine sat_of_run (fun r m' hr => ?_) fun e hr => ?_
  · obtain ⟨T', hg, k, hv, -, hres⟩ := h.ok hr
    refine ⟨T', hg, hres.imp ?_ ?_⟩
    · rintro ⟨rfl, rfl⟩
      refine ⟨rfl, hv.trans ?_⟩
      exact (insert_succ _ n 0 pa perm).symm.trans (insert_zero _ _ _ _)
    · rintro ⟨rfl, hk, -⟩
      obtain rfl : k = 0 := lt_one_iff.1 hk
      exact ⟨rfl, hv.trans (insert_zero _ _ _ _)⟩
  · obtain ⟨-, x, h1, h2, hx⟩ := h.error hr
    obtain rfl : x = n := Nat.le_antisymm (Nat.lt_succ_iff.1 h2) h1
    exact absurd hnone hx

section
variable {F : Set Word} {t : AMap}

theorem Grows.moves (hg : Grows root m m') (H : Heap F m) (hF : pages m.page root ⊆ F) :
    Moves F (F ∪ pages m'.page root) m m' ∧ ∀ p ∈ pages m'.page root, p ∈ pages m.page root ∨ p ∈ m.free := by
  obtain ⟨taken, ht, hp, hf, hk⟩ := hg
  have hnd := H.nodup
  rw [ht] at hnd
  have hmem : ∀ p ∈ pages m'.page root, p ∈ pages m.page root ∨ p ∈ taken := fun p h => by
    rwa [hp] at h
  have htaken : ∀ p ∈ taken, p ∈ m.free := fun p h => ht ▸ mem_append_left _ h
  refine ⟨⟨⟨(nodup_append'.1 hnd).2.1, ?_, fun p => ?_⟩, fun p hpF hpfree => hf p fun h => ?_, hk⟩, fun p h => (hmem p h).imp_right (htaken p)⟩
  · rintro p (h | h) hfree
    · exact H.fresh p h (ht ▸ mem_append_right _ hfree)
    · rcases hmem p h with h | h
      · exact H.fresh p (hF h) (ht ▸ mem_append_right _ hfree)
      · exact (nodup_append'.1 hnd).2.2 h hfree
  · rw [ht, mem_append, hp]
    constructor
    · rintro ((h | h | h) | h)
      · exact .inl h
      · exact .inl (hF h)
      · exact .inr (.inl h)
      · exact .inr (.inr h)
    · rintro (h | h | h)
      · exact .inl (.inl h)
      · exact .inl (.inr (.inr h))
      · exact .inr h
  · rcases hmem p h with h | h
    · exact hpF (hF h)
    · exact hpfree (htaken p h)

theorem Space.grow (S : Space m.page root K top) (H : Heap F m) (hF : own m.page root K ⊆ F) (T : Table m' root) (hg : Grows root m m')
    (hlow : ∀ x < K, view m'.page root x = view m.page root x) (htop : ∀ x, K ≤ x → view m'.page root x = t x) :
    Space m'.page root K t ∧ own m'.page root K = own m.page root K ∪ pages m'.page root ∧ Keeps root K m m' ∧
      Moves F (F ∪ pages m'.page root) m m' := by
  obtain ⟨hmv, hmem⟩ := hg.moves H fun p hp => hF (.inl hp)
  have htar : targets (view m'.page root) 0 K = targets (view m.page root) 0 K :=
    targets_congr fun x _ hx => hlow x (by omega)
  have hapart : ∀ p ∈ targets (view m.page root) 0 K, p ∉ pages m'.page root := fun p hp h => by
    rcases hmem p h with h | h
    · exact S.apart p hp h
    · exact H.fresh p (hF (.inr hp)) h
  obtain ⟨taken, -, hpages, hframe, -⟩ := hg
  refine ⟨⟨T.distinct, T.plain, fun x hx => hlow x hx ▸ S.user x hx, htop, htar.symm ▸ S.nodup, htar.symm ▸ hapart⟩, ?_,
    fun x hx => ⟨hlow x hx, fun e he => ?_⟩, hmv⟩
  · ext p
    rw [own, own, htar, hpages]
    simp only [Set.mem_union]
    tauto
  · exact hframe e.1 (hapart e.1 (mem_targets.2 ⟨x, e, zero_le x, by omega, he, rfl⟩))

theorem Space.succ {page : Word → Nat → Word} {e : Word × Word} (S : Space page root K (update top K (some e))) (he : e.2 ≠ PTE_V)
    (hown : e.1 ∉ own page root K) : Space page root (K + 1) top ∧ own page root (K + 1) = insert e.1 (own page root K) := by
  have hK : view page root K = some e := by rw [S.rest K (le_refl K), update_self]
  have htar : targets (view page root) 0 (K + 1) = targets (view page root) 0 K ++ [e.1] :=
    targets_concat (by rwa [zero_add])
  refine ⟨⟨S.distinct, S.plain, fun x hx => ?_, fun x hx => ?_, ?_, fun p hp => ?_⟩, ?_⟩
  · rcases Nat.lt_succ_iff_lt_or_eq.1 hx with h | rfl
    · exact S.user x h
    · exact ⟨e, hK, he⟩
  · rw [S.rest x (by omega), update_of_ne (by omega)]
  · rw [htar]
    refine List.Nodup.append S.nodup (nodup_singleton _) fun p hp hp' => ?_
    rw [mem_singleton] at hp'
    exact hown (hp' ▸ .inr hp)
  · rw [htar, mem_append, mem_singleton] at hp
    rcases hp with hp | rfl
    · exact S.apart p hp
    · exact fun h => hown (.inl h)
  · ext p
    rw [own, htar, own]
    simp only [Set.mem_union, Set.mem_setOf_eq, mem_append, mem_singleton, Set.mem_insert_iff]
    tauto

theorem Space.map_page {va mem perm : Word} (S : Space m.page root K top) (H : Heap (insert mem (own m.page root K)) m)
    (hmem : mem ∉ own m.page root K) (htop : top K = none) (hva : va.toNat = K * 4096) (hperm : perm.toNat < 1024)
    (hflags : perm ||| PTE_V ≠ PTE_V) :
    Sat machine (mappages root va PGSIZE mem perm) m
      (fun r m' => Keeps root K m m' ∧
        (r = 0 ∧ Space m'.page root (K + 1) top ∧ Moves (insert mem (own m.page root K)) (own m'.page root (K + 1)) m m' ∧
            m'.page mem = m.page mem ∧ view m'.page root K = some (mem, perm ||| PTE_V) ∨
          r = -1 ∧ Space m'.page root K top ∧ mem ∉ own m'.page root K ∧
            Moves (insert mem (own m.page root K)) (insert mem (own m'.page root K)) m m')) X := by
  have H0 := H.subset (Set.subset_insert mem (own m.page root K))
  have hK := S.size_le H0
  have hentry := entry_eq (H.frames mem (.inl (.inl rfl))).1 hperm
  have hnew : mem ∉ m.free := H.fresh mem (.inl rfl)
  refine (mappages_page (S.table H0) hva (by omega) ((S.rest K (le_refl K)).trans htop)).mono ?_
  rintro r m' ⟨T, hg, hr⟩
  obtain ⟨-, hpages⟩ := hg.moves H0 fun p hp => .inl hp
  have hmem' : mem ∉ pages m'.page root := fun h => by
    rcases hpages mem h with h | h
    · exact hmem (.inl h)
    · exact hnew h
  rcases hr with ⟨rfl, hv⟩ | ⟨rfl, hv⟩
  · have hlow : ∀ x < K, view m'.page root x = view m.page root x := fun x hx => by rw [hv, update_of_ne (by omega)]
    obtain ⟨S', ho, hkeep, hmv⟩ := S.grow (t := update top K (some (mem, perm ||| PTE_V))) H (Set.subset_insert _ _) T hg hlow
      fun x hx => by
        rw [hv, hentry]
        by_cases hxK : x = K
        · rw [hxK, update_self, update_self]
        · rw [update_of_ne hxK, update_of_ne hxK, S.rest x hx]
    have hmem'' : mem ∉ own m'.page root K := by
      rw [ho]
      exact fun h => h.elim hmem hmem'
    obtain ⟨S'', ho'⟩ := S'.succ hflags hmem''
    refine ⟨hkeep, .inl ⟨rfl, S'', ?_, ?_, ?_⟩⟩
    · rw [ho', ho]
      rwa [Set.insert_union] at hmv
    · obtain ⟨taken, -, -, hframe, -⟩ := hg
      exact hframe mem hmem'
    · rw [hv, update_self, hentry]
  · obtain ⟨S', ho, hkeep, hmv⟩ := S.grow H (Set.subset_insert _ _) T hg (fun x _ => by rw [hv]) fun x hx => by
      rw [hv, S.rest x hx]
    refine ⟨hkeep, .inr ⟨rfl, S', ?_, ?_⟩⟩
    · rw [ho]
      exact fun h => h.elim hmem hmem'
    · rw [ho]
      rwa [Set.insert_union] at hmv

theorem Space.map_top {va pa perm : Word} {n : Nat} (S : Space m.page root K top) (H : Heap (own m.page root K) m) (hn : K ≤ n)
    (htop : top n = none) (hva : va.toNat = n * 4096) (hmax : n < 2 ^ 26) :
    Sat machine (mappages root va PGSIZE pa perm) m
      (fun r m' => Moves (own m.page root K) (own m'.page root K) m m' ∧
        (r = 0 ∧ Space m'.page root K (update top n (some (entry pa perm))) ∨ r = -1 ∧ Space m'.page root K top)) X := by
  refine (mappages_page (S.table H) hva hmax ((S.rest n hn).trans htop)).mono ?_
  rintro r m' ⟨T, hg, ⟨rfl, hv⟩ | ⟨rfl, hv⟩⟩
  · obtain ⟨S', ho, -, hmv⟩ := S.grow (t := update top n (some (entry pa perm))) H (Set.Subset.refl _) T hg
      (fun x hx => by rw [hv, update_of_ne (by omega)]) fun x hx => by
        rw [hv]
        by_cases hxn : x = n
        · rw [hxn, update_self, update_self]
        · rw [update_of_ne hxn, update_of_ne hxn, S.rest x hx]
    exact ⟨ho ▸ hmv, .inl ⟨rfl, S'⟩⟩
  · obtain ⟨S', ho, -, hmv⟩ := S.grow H (Set.Subset.refl _) T hg (fun x _ => by rw [hv]) fun x hx => by
      rw [hv, S.rest x hx]
    exact ⟨ho ▸ hmv, .inr ⟨rfl, S'⟩⟩

end

/-! ## Pages less -/

theorem AMap.targets_append (a : AMap) (n j k : Nat) : a.targets n (j + k) = a.targets n j ++ a.targets (n + j) k := by
  rw [targets, ← range'_append_1, filterMap_append, targets, targets]

theorem Space.unmap {va npages : Word} (S : Space m.page root K top) (H : Heap (own m.page root K) m) (hJ : J ≤ K)
    (htop : ∀ x < K, top x = none) (hva : va.toNat = J * 4096) (hnp : npages.toNat = K - J) :
    Sat machine (uvmunmap root va npages true) m
      (fun _ m' => Space m'.page root J top ∧ Moves (own m.page root K) (own m'.page root J) m m' ∧ Keeps root J m m') X := by
  have hK := S.size_le H
  have hpg : va.toNat / 4096 = J := by omega
  have hsplit : targets (view m.page root) 0 K = targets (view m.page root) 0 J ++ targets (view m.page root) J (K - J) := by
    have h := targets_append (view m.page root) 0 J (K - J)
    rwa [show J + (K - J) = K by omega, zero_add] at h
  have hnd := S.nodup
  rw [hsplit] at hnd
  obtain ⟨hnd1, hnd2, hdisj⟩ := nodup_append'.1 hnd
  have hsub : ∀ p ∈ targets (view m.page root) J (K - J), p ∈ targets (view m.page root) 0 K := fun p hp =>
    hsplit ▸ mem_append_right _ hp
  have hO : Owned m root J (K - J) :=
    ⟨hnd2, fun p hp => S.apart p (hsub p hp), fun p hp => H.fresh p (.inr (hsub p hp))⟩
  have hrem : Removable m root true J (K - J) := fun x h1 h2 => by
    obtain ⟨e, he, hne⟩ := S.user x (by omega)
    exact ⟨e, he, hne, fun _ => (H.frames e.1 (.inl (mem_own_of_view (by omega) he))).2⟩
  have h : Sat machine (uvmunmap root va npages true) m _ _ := uvmunmap_spec (S.table H) (by omega) (by omega) fun _ => by
    rw [hpg, hnp]
    exact hO
  rw [hpg, hnp] at h
  refine sat_of_run (fun u m' hr => ?_) fun e hr => absurd hrem (h.error hr)
  obtain ⟨-, U⟩ := h.ok hr
  have hlow : ∀ x < J, view m'.page root x = view m.page root x := fun x hx => by rw [U.view, erase, if_neg (by omega)]
  have htar : targets (view m'.page root) 0 J = targets (view m.page root) 0 J :=
    targets_congr fun x _ hx => hlow x (by omega)
  have hin : ∀ p ∈ targets (view m.page root) 0 J, p ∈ targets (view m.page root) 0 K := fun p hp =>
    hsplit ▸ mem_append_left _ hp
  have hfree : ∀ p, p ∈ m'.free ↔ p ∈ targets (view m.page root) J (K - J) ∨ p ∈ m.free := fun p => by
    rw [U.free, if_pos rfl, mem_append, mem_reverse]
  refine ⟨⟨U.table.distinct, U.table.plain, fun x hx => ?_, fun x hx => ?_, htar.symm ▸ hnd1, fun p hp => ?_⟩,
    ⟨⟨U.table.nodup, fun p hp hf => ?_, fun p => ?_⟩, fun p hp _ => ?_, U.kend⟩, fun x hx => ⟨hlow x hx, fun e he => ?_⟩⟩
  · rw [hlow x hx]
    exact S.user x (by omega)
  · rw [U.view, erase]
    split
    · exact (htop x (by omega)).symm
    · exact S.rest x (by omega)
  · rw [htar] at hp
    rw [U.pages]
    exact S.apart p (hin p hp)
  · rw [own, U.pages, htar] at hp
    rcases (hfree p).1 hf with hf | hf
    · rcases hp with hp | hp
      · exact S.apart p (hsub p hf) hp
      · exact hdisj hp hf
    · exact H.fresh p (hp.imp_right (hin p)) hf
  · rw [own, U.pages, htar, own, hsplit, hfree]
    simp only [Set.mem_union, Set.mem_setOf_eq, mem_append]
    tauto
  · exact U.frame p (fun h => hp (.inl h)) fun _ h => hp (.inr (hsub p h))
  · have ht : e.1 ∈ targets (view m.page root) 0 J := mem_targets.2 ⟨x, e, zero_le x, by omega, he, rfl⟩
    exact U.frame e.1 (S.apart e.1 (hin _ ht)) fun _ h => hdisj ht h

theorem Space.unmap_top {va : Word} {n : Nat} {e : Word × Word} (S : Space m.page root K top) (H : Heap (own m.page root K) m) (hn : K ≤ n)
    (he : top n = some e) (hflags : e.2 ≠ PTE_V) (hva : va.toNat = n * 4096) (hmax : n < 2 ^ 26) :
    Sat machine (uvmunmap root va 1 false) m
      (fun _ m' => Space m'.page root K (update top n none) ∧ Moves (own m.page root K) (own m'.page root K) m m') X := by
  have hpg : va.toNat / 4096 = n := by omega
  have hrem : Removable m root false n 1 := fun x h1 h2 => by
    obtain rfl : x = n := by omega
    exact ⟨e, (S.rest x hn).trans he, hflags, fun h => by cases h⟩
  have hone : va.toNat + (1 : Word).toNat * 4096 ≤ 2 ^ 38 := by
    change va.toNat + 1 * 4096 ≤ 2 ^ 38
    omega
  have h : Sat machine (uvmunmap root va 1 false) m _ _ := uvmunmap_spec (S.table H) (by omega) hone fun h => by cases h
  rw [hpg] at h
  refine sat_of_run (fun u m' hr => ?_) fun e hr => absurd hrem (h.error hr)
  obtain ⟨-, U⟩ := h.ok hr
  have hview : view m'.page root = update (view m.page root) n none :=
    U.view.trans ((erase_succ _ n 0).symm.trans (erase_zero _ _))
  have hlow : ∀ x < K, view m'.page root x = view m.page root x := fun x hx => by rw [hview, update_of_ne (by omega)]
  have htar : targets (view m'.page root) 0 K = targets (view m.page root) 0 K :=
    targets_congr fun x _ hx => hlow x (by omega)
  have hown : own m'.page root K = own m.page root K := by rw [own, U.pages, htar, own]
  have hfree : m'.free = m.free := U.free
  refine ⟨⟨U.table.distinct, U.table.plain, fun x hx => hlow x hx ▸ S.user x hx, fun x hx => ?_, htar.symm ▸ S.nodup, fun p hp => ?_⟩,
    ⟨?_, fun p hp _ => ?_, U.kend⟩⟩
  · rw [hview]
    by_cases hxn : x = n
    · rw [hxn, update_self, update_self]
    · rw [update_of_ne hxn, update_of_ne hxn, S.rest x hx]
  · rw [htar] at hp
    rw [U.pages]
    exact S.apart p hp
  · rw [hown, hfree]
    exact .refl H.nodup H.fresh
  · exact U.frame p (fun h => hp (.inl h)) fun h => by cases h

end

end Xv6.Vm
