import Mathlib.Data.List.Basic
import Xv6.Vm.Walk

/-!
# What the calls do to the map of a table

The map of a table takes the number of a virtual page to a physical page and flags.
-/

open Function (update update_self update_of_ne)

namespace Xv6.Vm

open Prog List Option BitVec Radix Nat

/-- Page numbers to physical pages and flags. -/
abbrev AMap := Nat → Option (Word × Word)

namespace AMap

def entry (pa perm : Word) : Word × Word := (PTE2PA (PA2PTE pa ||| (perm ||| PTE_V)), PTE_FLAGS (perm ||| PTE_V))

/-- Pages `n`, …, `n + k - 1` go to the pages from `pa` on. -/
def insert (a : AMap) (n k : Nat) (pa perm : Word) : AMap := fun x =>
  if n ≤ x ∧ x < n + k then some (entry (pa + BitVec.ofNat 64 (x - n) * PGSIZE) perm) else a x

def erase (a : AMap) (n k : Nat) : AMap := fun x => if n ≤ x ∧ x < n + k then none else a x

/-- Page `n` is no longer for the user. -/
def clear (a : AMap) (n : Nat) : AMap := fun x => if x = n then (a x).map fun e => (e.1, e.2 &&& ~~~PTE_U) else a x

theorem entry_eq {pa perm : Word} (hpa : pa.toNat % 4096 = 0) (hperm : perm.toNat < 1024) : entry pa perm = (pa, perm ||| PTE_V) := by
  have hor : (perm ||| PTE_V).toNat < 1024 := by
    rw [toNat_or]
    exact or_lt_two_pow (n := 10) hperm (by decide)
  rw [entry, PTE2PA_PA2PTE hpa hor]
  congr 1
  apply eq_of_toNat_eq
  rw [PTE_FLAGS, toNat_and]
  exact (and_two_pow_sub_one_eq_mod _ 10).trans (mod_eq_of_lt hor)

theorem insert_succ (a : AMap) (n k : Nat) (pa perm : Word) :
    AMap.insert (update a n (some (entry pa perm))) (n + 1) k (pa + PGSIZE) perm = a.insert n (k + 1) pa perm := by
  funext x
  unfold insert
  by_cases hx : n + 1 ≤ x ∧ x < n + 1 + k
  · have hpa : pa + PGSIZE + BitVec.ofNat 64 (x - (n + 1)) * PGSIZE = pa + BitVec.ofNat 64 (x - n) * PGSIZE := by
      rw [show x - n = x - (n + 1) + 1 by omega, ofNat_add, add_mul]
      rw [BitVec.add_assoc, BitVec.add_comm PGSIZE]
      rfl
    rw [if_pos hx, if_pos (by omega), hpa]
  · rw [if_neg hx]
    by_cases hn : x = n
    · rw [hn, update_self, if_pos (by omega), Nat.sub_self]
      simp
    · rw [update_of_ne hn, if_neg (by omega)]

theorem erase_succ (a : AMap) (n k : Nat) : AMap.erase (update a n none) (n + 1) k = a.erase n (k + 1) := by
  funext x
  unfold erase
  by_cases hx : n + 1 ≤ x ∧ x < n + 1 + k
  · rw [if_pos hx, if_pos (by omega)]
  · rw [if_neg hx]
    by_cases hn : x = n
    · rw [hn, update_self, if_pos (by omega)]
    · rw [update_of_ne hn, if_neg (by omega)]

theorem erase_zero (a : AMap) (n : Nat) : a.erase n 0 = a := by
  funext x
  rw [erase, if_neg (by omega)]

/-- The physical pages of the pages `n`, …, `n + k - 1`. -/
def targets (a : AMap) (n k : Nat) : List Word := (range' n k).filterMap fun x => (a x).map Prod.fst

theorem mem_targets {a : AMap} {n k : Nat} {p : Word} : p ∈ a.targets n k ↔ ∃ x e, n ≤ x ∧ x < n + k ∧ a x = some e ∧ e.1 = p := by
  simp only [targets, mem_filterMap, mem_range'_1, map_eq_some_iff]
  constructor
  · rintro ⟨x, ⟨h1, h2⟩, e, he, rfl⟩
    exact ⟨x, e, h1, h2, he, rfl⟩
  · rintro ⟨x, e, h1, h2, he, rfl⟩
    exact ⟨x, ⟨h1, h2⟩, e, he, rfl⟩

theorem targets_succ {a : AMap} {n k : Nat} {e : Word × Word} (he : a n = some e) : a.targets n (k + 1) = e.1 :: a.targets (n + 1) k := by
  simp [targets, range'_succ, he]

theorem targets_congr {a b : AMap} {n k : Nat} (h : ∀ x, n ≤ x → x < n + k → a x = b x) : a.targets n k = b.targets n k := by
  refine filterMap_congr fun x hx => ?_
  rw [mem_range'_1] at hx
  rw [h x hx.1 hx.2]

theorem insert_zero (a : AMap) (n : Nat) (pa perm : Word) : a.insert n 0 pa perm = a := by
  funext x
  rw [insert, if_neg (by omega)]

end AMap

section
variable {m : Mem} {root va : Word} {X : String → Prop}

theorem decode_new (pa perm : Word) : decode (PA2PTE pa ||| perm ||| PTE_V) = some (AMap.entry pa perm) := by
  rw [decode, if_neg (valid_or _), AMap.entry, BitVec.or_assoc, PTE_FLAGS_or]

theorem decode_clear (w : Word) : decode (w &&& ~~~PTE_U) = (decode w).map fun e => (e.1, e.2 &&& ~~~PTE_U) := by
  simp only [decode, clear_valid, clear_pa, clear_flags]
  split <;> rfl

theorem view_none {n : Nat} (hn : node m.page root 2 (n / 512) = none) : view m.page root n = none := by
  unfold node at hn
  rw [view, word, hn]
  rfl

theorem sat_lookup (hva : va < MAXVA) {Q : Option (Word × Word) → Mem → Prop} :
    Sat machine (lookup root va) m Q X ↔ Q (view m.page root (va.toNat / 4096)) m := by
  rw [lookup, sat_bind, sat_walk hva]
  cases hn : node m.page root 2 (va.toNat / 4096 / 512) with
  | none =>
    rw [view_none hn]
    exact Iff.rfl
  | some pt =>
    rw [map_some, sat_bind, sat_load, view_eq hn, decode]
    split <;> exact Iff.rfl

theorem run_lookup (hva : va < MAXVA) : (lookup root va).run machine m = .ok (view m.page root (va.toNat / 4096), m) :=
  Sat.run_eq ((sat_lookup hva).2 ⟨rfl, rfl⟩)

/-! ## `mappages` -/

theorem toNat_add_PGSIZE {a : Word} {n : Nat} (ha : a.toNat = n * 4096) (hn : n + 1 ≤ 2 ^ 26) : (a + PGSIZE).toNat = (n + 1) * 4096 := by
  rw [toNat_add, ha]
  change (n * 4096 + 4096) % 2 ^ 64 = _
  omega

theorem lt_MAXVA {a : Word} {n : Nat} (ha : a.toNat = n * 4096) (hn : n < 2 ^ 26) : a < MAXVA := by
  change a.toNat < 2 ^ 38
  omega

theorem sat_mapRound {perm a pa : Word} {n : Nat} {K : V Int} {Q : Int → Mem → Prop} (T : Table m root) (ha : a.toNat = n * 4096)
    (hn : n < 2 ^ 26) (hfail : ∀ m', Table m' root → Grows root m m' → view m'.page root = view m.page root → m'.free = [] → Q (-1) m')
    (hremap : view m.page root n ≠ none → X "mappages: remap")
    (hK : ∀ m', Table m' root → Grows root m m' → view m.page root n = none →
      view m'.page root = update (view m.page root) n (some (AMap.entry pa perm)) → Sat machine K m' Q X) :
    Sat machine (do
      match ← walk root a true with
      | none => return -1
      | some (pt, i) =>
        let pte ← load pt i
        if pte &&& PTE_V ≠ 0 then Prog.panic "mappages: remap"
        else
          store pt i (PA2PTE pa ||| perm ||| PTE_V)
          K) m Q X := by
  have hpage : a.toNat / 4096 = n := by omega
  rw [sat_bind]
  refine (walk_alloc T (lt_MAXVA ha hn)).mono ?_
  rintro (_ | ⟨pt, i⟩) m1 ⟨T1, hg, hview, hr⟩
  · exact hfail m1 T1 hg hview hr
  obtain ⟨hnode, rfl⟩ := hr
  rw [hpage] at hnode ⊢
  rw [sat_bind, sat_load]
  have hdec := view_eq hnode
  rw [hview] at hdec
  by_cases hv : m1.page pt (n % 512) &&& PTE_V ≠ 0
  · rw [if_pos hv]
    refine hremap ?_
    rw [hdec, decode, if_neg hv]
    exact some_ne_none _
  · rw [if_neg hv, sat_bind, sat_store]
    rw [decode, if_pos (not_not.1 hv)] at hdec
    have hset : m1.set pt (update (m1.page pt) (n % 512) (PA2PTE pa ||| perm ||| PTE_V)) =
        m1.setPte pt n (PA2PTE pa ||| perm ||| PTE_V) := rfl
    rw [hset]
    refine hK _ (T1.setPte hnode) ?_ hdec ?_
    · obtain ⟨taken, ht, hp, hf, hk⟩ := hg
      refine ⟨taken, ht, by rw [T1.setPte_pages hnode, hp], fun p hnp => ?_, hk⟩
      rw [T1.setPte_pages hnode] at hnp
      have hne : p ≠ pt := fun e => hnp (e ▸ mem_nodes (le_refl 2) hnode)
      rw [setPte_of_ne hne, hf p hnp]
    · rw [T1.setPte_view hnode, hview, decode_new]

theorem mapFrom_spec {last : Word} (perm : Word) (r : Nat) {n : Nat} {a : Word} (pa : Word) (T : Table m root) (ha : a.toNat = n * 4096)
    (hn : n + (r + 1) ≤ 2 ^ 26) (hlast : last.toNat = (n + r) * 4096) :
    Sat machine (mapFrom root last perm (r + 1) a pa) m
      (fun res m' => Table m' root ∧ Grows root m m' ∧ ∃ k, view m'.page root = AMap.insert (view m.page root) n k pa perm ∧
        (∀ x, n ≤ x → x < n + k → view m.page root x = none) ∧ (res = 0 ∧ k = r + 1 ∨ res = -1 ∧ k ≤ r ∧ m'.free = []))
      (fun e => e = "mappages: remap" ∧ ∃ x, n ≤ x ∧ x < n + (r + 1) ∧ view m.page root x ≠ none) := by
  induction r generalizing m n a pa with
  | zero =>
    have he : a = last := eq_of_toNat_eq (ha.trans hlast.symm)
    refine sat_mapRound T ha (by omega) (fun m' T' hg hv hf => ?_) (fun h => ⟨rfl, n, by omega, by omega, h⟩) fun m' T' hg hnone hv => ?_
    · exact ⟨T', hg, 0, by rw [hv, AMap.insert_zero], by omega, .inr ⟨rfl, by omega, hf⟩⟩
    · rw [if_pos he]
      refine ⟨T', hg, 1, ?_, fun x h1 h2 => ?_, .inl ⟨rfl, rfl⟩⟩
      · rw [hv, ← AMap.insert_succ, AMap.insert_zero]
      · rwa [show x = n by omega]
  | succ r ih =>
    have he : a ≠ last := fun e => by
      rw [e, hlast] at ha
      omega
    refine sat_mapRound T ha (by omega) (fun m' T' hg hv hf => ?_) (fun h => ⟨rfl, n, by omega, by omega, h⟩) fun m1 T1 hg1 hnone hv1 => ?_
    · exact ⟨T', hg, 0, by rw [hv, AMap.insert_zero], by omega, .inr ⟨rfl, by omega, hf⟩⟩
    rw [if_neg he]
    have hlast' : last.toNat = (n + 1 + r) * 4096 := by rw [hlast, show n + (r + 1) = n + 1 + r by omega]
    have hrest := ih (pa + PGSIZE) T1 (toNat_add_PGSIZE ha (by omega)) (by omega) hlast'
    have hold : ∀ x, n + 1 ≤ x → view m1.page root x = view m.page root x := fun x hx => by
      rw [hv1, update_of_ne (by omega)]
    refine sat_of_run (fun res m' hr => ?_) fun e hr => ?_
    · obtain ⟨T', hg', k, hv', hfree, hres⟩ := hrest.ok hr
      refine ⟨T', hg1.trans hg', k + 1, ?_, fun x h1 h2 => ?_, hres.imp (And.imp_right (by omega)) (And.imp_right (And.imp_left (by omega)))⟩
      · rw [hv', hv1, AMap.insert_succ]
      · rcases eq_or_lt_of_le h1 with rfl | hlt
        · exact hnone
        · rw [← hold x hlt]
          exact hfree x hlt (by omega)
    · obtain ⟨he, x, h1, h2, hx⟩ := hrest.error hr
      exact ⟨he, x, by omega, by omega, hold x h1 ▸ hx⟩

theorem mappages_spec {va size pa perm : Word} (T : Table m root) (hva : va.toNat % 4096 = 0) (hsize : size.toNat % 4096 = 0)
    (hpos : size ≠ 0) (hmax : va.toNat + size.toNat ≤ 2 ^ 38) :
    Sat machine (mappages root va size pa perm) m
      (fun res m' => Table m' root ∧ Grows root m m' ∧ ∃ k,
        view m'.page root = AMap.insert (view m.page root) (va.toNat / 4096) k pa perm ∧
        (∀ x, va.toNat / 4096 ≤ x → x < va.toNat / 4096 + k → view m.page root x = none) ∧
        (res = 0 ∧ k = size.toNat / 4096 ∨ res = -1 ∧ k < size.toNat / 4096 ∧ m'.free = []))
      (fun e => e = "mappages: remap" ∧ ∃ x, va.toNat / 4096 ≤ x ∧ x < va.toNat / 4096 + size.toNat / 4096 ∧ view m.page root x ≠ none) := by
  have hz : size.toNat ≠ 0 := fun h => hpos (eq_of_toNat_eq h)
  obtain ⟨r, hr⟩ : ∃ r, size.toNat / 4096 = r + 1 := ⟨size.toNat / 4096 - 1, by omega⟩
  have hmod : ∀ w : Word, w.toNat % 4096 = 0 → ¬w % PGSIZE ≠ 0 := fun w hw h => h (eq_of_toNat_eq (by
    rw [toNat_umod]
    exact hw))
  have hrounds : (size / PGSIZE).toNat = r + 1 := by
    rw [toNat_udiv]
    exact hr
  have hlast : (va + size - PGSIZE).toNat = (va.toNat / 4096 + r) * 4096 := by
    rw [toNat_sub, toNat_add]
    change (2 ^ 64 - 4096 + (va.toNat + size.toNat) % 2 ^ 64) % 2 ^ 64 = _
    omega
  rw [mappages, if_neg (hmod va hva), if_neg (hmod size hsize), if_neg hpos, hrounds, hr]
  have ha : va.toNat = va.toNat / 4096 * 4096 := by omega
  have h := mapFrom_spec perm r pa T ha (by omega) hlast
  refine sat_of_run (fun res m' hrun => ?_) fun e hrun => h.error hrun
  obtain ⟨T', hg, k, hv, hnone, hres⟩ := h.ok hrun
  exact ⟨T', hg, k, hv, hnone, hres.imp_right (And.imp_right (And.imp_left (by omega)))⟩

/-! ## `uvmunmap` -/

theorem PTE2PA_aligned (w : Word) : (PTE2PA w).toNat % 4096 = 0 := by
  rw [PTE2PA, toNat_shiftLeft, Nat.shiftLeft_eq]
  omega

/-- `kfree` accepts the page. -/
def Kpage (m : Mem) (p : Word) : Prop := m.kend ≤ p ∧ p < PHYSTOP

def Removable (m : Mem) (root : Word) (doFree : Bool) (n r : Nat) : Prop :=
  ∀ x, n ≤ x → x < n + r → ∃ e, view m.page root x = some e ∧ e.2 ≠ PTE_V ∧ (doFree = true → Kpage m e.1)

structure Owned (m : Mem) (root : Word) (n r : Nat) : Prop where
  nodup : (AMap.targets (view m.page root) n r).Nodup
  table : ∀ p ∈ AMap.targets (view m.page root) n r, p ∉ pages m.page root
  free : ∀ p ∈ AMap.targets (view m.page root) n r, p ∉ m.free

structure Unmapped (root : Word) (doFree : Bool) (n r : Nat) (m m' : Mem) : Prop where
  table : Table m' root
  pages : pages m'.page root = pages m.page root
  view : view m'.page root = AMap.erase (view m.page root) n r
  free : m'.free = (if doFree then (AMap.targets (Vm.view m.page root) n r).reverse else []) ++ m.free
  frame : ∀ p, p ∉ Vm.pages m.page root → (doFree = true → p ∉ AMap.targets (Vm.view m.page root) n r) → m'.page p = m.page p
  kend : m'.kend = m.kend

/-- The memory after `kfree(p)`. -/
def Mem.kfree (m : Mem) (p : Word) : Mem := { m.set p fun _ => filled 1 with free := p :: m.free }

theorem Table.kfree {p : Word} (T : Table m root) (hp : p ∉ pages m.page root) (hfree : p ∉ m.free) (halign : p.toNat % 4096 = 0) :
    Table (m.kfree p) root ∧ (∀ d ≤ 2, ∀ k, node (m.kfree p).page root d k = node m.page root d k) ∧
      pages (m.kfree p).page root = pages m.page root ∧ view (m.kfree p).page root = view m.page root := by
  refine T.frame (fun q hq => ?_) (fun q hq => ?_) (nodup_cons.2 ⟨hfree, T.nodup⟩) fun q hq => ?_
  · exact update_of_ne (ne_of_mem_of_not_mem hq hp) ..
  · rcases mem_cons.1 hq with rfl | hq
    · exact hp
    · exact T.fresh q hq
  · rcases mem_cons.1 hq with rfl | hq
    · exact halign
    · exact T.aligned q hq

theorem mod_PGSIZE {p : Word} (hp : p.toNat % 4096 = 0) : p % PGSIZE = 0 := by
  apply eq_of_toNat_eq
  rw [toNat_umod]
  exact hp

theorem sat_unmapRound {a : Word} {doFree : Bool} {n : Nat} {K : V Unit} {Q : Unit → Mem → Prop} (T : Table m root) (ha : a.toNat = n * 4096)
    (hn : n < 2 ^ 26) (hO : doFree = true → Owned m root n 1) (hX : ∀ e, ¬Removable m root doFree n 1 → X e)
    (hK : ∀ m', Removable m root doFree n 1 → Unmapped root doFree n 1 m m' → Sat machine K m' Q X) :
    Sat machine (do
      match ← walk root a false with
      | none => panic "uvmunmap: walk"
      | some (pt, i) =>
        let pte ← load pt i
        if pte &&& PTE_V = 0 then panic "uvmunmap: not mapped"
        else if PTE_FLAGS pte = PTE_V then panic "uvmunmap: not a leaf"
        else
          if doFree then kfree (PTE2PA pte)
          store pt i 0
          K) m Q X := by
  have hpage : a.toNat / 4096 = n := by omega
  rw [sat_bind, sat_walk (lt_MAXVA ha hn), hpage]
  cases hnode : node m.page root 2 (n / 512) with
  | none =>
    refine hX _ fun h => ?_
    obtain ⟨e, he, -⟩ := h n (le_refl n) (by omega)
    rw [view_none hnode] at he
    cases he
  | some pt =>
    have hdec := view_eq hnode
    rw [map_some, sat_bind, sat_load]
    generalize m.page pt (n % 512) = pte at hdec ⊢
    by_cases hv : pte &&& PTE_V = 0
    · rw [if_pos hv]
      refine hX _ fun h => ?_
      obtain ⟨e, he, -⟩ := h n (le_refl n) (by omega)
      rw [hdec, decode, if_pos hv] at he
      cases he
    rw [if_neg hv]
    rw [decode, if_neg hv] at hdec
    by_cases hf : PTE_FLAGS pte = PTE_V
    · rw [if_pos hf]
      refine hX _ fun h => ?_
      obtain ⟨e, he, hne, -⟩ := h n (le_refl n) (by omega)
      cases hdec.symm.trans he
      exact hne hf
    rw [if_neg hf]
    dsimp only
    have htargets := AMap.targets_succ (k := 0) hdec
    have hmem : PTE2PA pte ∈ AMap.targets (view m.page root) n 1 := htargets ▸ mem_cons_self
    have hpt : pt ∈ pages m.page root := mem_nodes (le_refl 2) hnode
    have hremovable : (doFree = true → Kpage m (PTE2PA pte)) → Removable m root doFree n 1 := by
      intro hk x h1 h2
      obtain rfl : x = n := by omega
      exact ⟨_, hdec, hf, hk⟩
    cases doFree with
    | false =>
      rw [if_neg (by simp), sat_bind, sat_store]
      change Sat machine K (m.setPte pt n 0) Q X
      refine hK _ (hremovable fun h => by cases h) ⟨T.setPte hnode, T.setPte_pages hnode, ?_, rfl, fun p hp _ => ?_, rfl⟩
      · exact (T.setPte_view hnode).trans (by rw [← AMap.erase_succ, AMap.erase_zero]; rfl)
      · exact setPte_of_ne (ne_of_mem_of_not_mem hpt hp).symm
    | true =>
      have hown := hO rfl
      rw [if_pos rfl, sat_bind, sat_kfree]
      by_cases hk : Kpage m (PTE2PA pte)
      · obtain ⟨T1, hnode1, hpages1, hview1⟩ := T.kfree (hown.table _ hmem) (hown.free _ hmem) (PTE2PA_aligned _)
        have hn1 := (hnode1 2 (le_refl 2) _).trans hnode
        rw [if_neg, sat_bind, sat_store]
        · change Sat machine K ((m.kfree (PTE2PA pte)).setPte pt n 0) Q X
          refine hK _ (hremovable fun _ => hk) ⟨T1.setPte hn1, (T1.setPte_pages hn1).trans hpages1, ?_, ?_, fun p hp hnp => ?_, rfl⟩
          · refine (T1.setPte_view hn1).trans ?_
            rw [hview1, ← AMap.erase_succ, AMap.erase_zero]
            rfl
          · rw [htargets]
            rfl
          · have hne : p ≠ PTE2PA pte := fun e => hnp rfl (e ▸ hmem)
            exact (setPte_of_ne (ne_of_mem_of_not_mem hpt hp).symm).trans (update_of_ne hne ..)
        · rw [mod_PGSIZE (PTE2PA_aligned _)]
          rintro (h | h | h)
          · exact h rfl
          · exact absurd hk.1 (by simpa using h)
          · exact absurd hk.2 (by simpa using h)
      · rw [if_pos]
        · refine hX _ fun h => hk ?_
          obtain ⟨e, he, -, hke⟩ := h n (le_refl n) (by omega)
          cases hdec.symm.trans he
          exact hke rfl
        · rw [Kpage, not_and_or] at hk
          exact .inr (hk.imp (by simp) (by simp))

section
variable {m' : Mem} {doFree : Bool} {n r : Nat}

theorem Unmapped.view_above (U : Unmapped root doFree n 1 m m') {x : Nat} (hx : n + 1 ≤ x) : Vm.view m'.page root x = Vm.view m.page root x := by
  rw [U.view, AMap.erase, if_neg (by omega)]

theorem Unmapped.targets_above (U : Unmapped root doFree n 1 m m') :
    AMap.targets (Vm.view m'.page root) (n + 1) r = AMap.targets (Vm.view m.page root) (n + 1) r :=
  AMap.targets_congr fun _ hx _ => U.view_above hx

theorem Removable.succ_iff (U : Unmapped root doFree n 1 m m') :
    Removable m root doFree n (r + 1) ↔ Removable m root doFree n 1 ∧ Removable m' root doFree (n + 1) r := by
  have hk : ∀ p, Kpage m' p ↔ Kpage m p := fun p => by rw [Kpage, U.kend, Kpage]
  constructor
  · intro h
    refine ⟨fun x h1 h2 => h x h1 (by omega), fun x h1 h2 => ?_⟩
    obtain ⟨e, he, hne, hf⟩ := h x (by omega) (by omega)
    exact ⟨e, (U.view_above h1).trans he, hne, fun hd => (hk _).2 (hf hd)⟩
  · rintro ⟨h0, h⟩ x h1 h2
    rcases eq_or_lt_of_le h1 with rfl | hlt
    · exact h0 n h1 (by omega)
    · obtain ⟨e, he, hne, hf⟩ := h x hlt (by omega)
      exact ⟨e, (U.view_above hlt).symm.trans he, hne, fun hd => (hk _).1 (hf hd)⟩

theorem Owned.first (O : Owned m root n (r + 1)) : Owned m root n 1 := by
  have hsub : (AMap.targets (view m.page root) n 1).Sublist (AMap.targets (view m.page root) n (r + 1)) := by
    refine List.Sublist.filterMap _ ?_
    rw [range'_succ, range'_succ]
    exact (nil_sublist _).cons_cons n
  exact ⟨O.nodup.sublist hsub, fun p hp => O.table p (hsub.subset hp), fun p hp => O.free p (hsub.subset hp)⟩

theorem Owned.rest (O : Owned m root n (r + 1)) (hrem : Removable m root true n 1) (U : Unmapped root true n 1 m m') :
    Owned m' root (n + 1) r := by
  obtain ⟨e, he, -⟩ := hrem n (le_refl n) (by omega)
  have ht := AMap.targets_succ (k := r) he
  have hnd := O.nodup
  rw [ht] at hnd
  have hsub : ∀ p ∈ AMap.targets (view m'.page root) (n + 1) r, p ∈ AMap.targets (view m.page root) n (r + 1) := by
    intro p hp
    rw [U.targets_above] at hp
    exact ht ▸ mem_cons_of_mem _ hp
  refine ⟨?_, fun p hp => ?_, fun p hp hf => ?_⟩
  · rw [U.targets_above]
    exact (nodup_cons.1 hnd).2
  · rw [U.pages]
    exact O.table p (hsub p hp)
  rw [U.free, if_pos rfl, AMap.targets_succ he] at hf
  rw [U.targets_above] at hp
  rcases mem_append.1 hf with hf | hf
  · rw [mem_reverse] at hf
    rcases mem_cons.1 hf with rfl | hf
    · exact (nodup_cons.1 hnd).1 hp
    · cases hf
  · exact O.free p (ht ▸ mem_cons_of_mem _ hp) hf

theorem Unmapped.trans {m'' : Mem} (hrem : Removable m root doFree n 1) (U : Unmapped root doFree n 1 m m')
    (U' : Unmapped root doFree (n + 1) r m' m'') : Unmapped root doFree n (r + 1) m m'' := by
  obtain ⟨e, he, -⟩ := hrem n (le_refl n) (by omega)
  have ht := AMap.targets_succ (k := r) he
  refine ⟨U'.table, U'.pages.trans U.pages, ?_, ?_, fun p hp hnt => ?_, U'.kend.trans U.kend⟩
  · rw [U'.view, U.view, ← AMap.erase_succ, AMap.erase_zero, AMap.erase_succ]
  · rw [U'.free, U.free, U.targets_above, AMap.targets_succ he, ht]
    cases doFree with
    | false => rfl
    | true => simp [AMap.targets]
  · refine (U'.frame p (U.pages ▸ hp) fun hd hp' => ?_).trans (U.frame p hp fun hd hp' => ?_)
    · rw [U.targets_above] at hp'
      exact hnt hd (ht ▸ mem_cons_of_mem _ hp')
    · rw [AMap.targets_succ he] at hp'
      rcases mem_cons.1 hp' with rfl | hp'
      · exact hnt hd (ht ▸ mem_cons_self)
      · cases hp'

theorem unmapFrom_spec {till a : Word} (T : Table m root) (ha : a.toNat = n * 4096) (hn : n + r ≤ 2 ^ 26)
    (htill : till.toNat = (n + r) * 4096) (hO : doFree = true → Owned m root n r) :
    Sat machine (unmapFrom root till doFree r a) m
      (fun _ m' => Removable m root doFree n r ∧ Unmapped root doFree n r m m') (fun _ => ¬Removable m root doFree n r) := by
  induction r generalizing m n a with
  | zero =>
    have hlt : ¬a < till := by
      rw [lt_def]
      omega
    rw [unmapFrom, if_neg hlt, sat_pure]
    refine ⟨fun x h1 h2 => by omega, T, rfl, (AMap.erase_zero _ _).symm, ?_, fun _ _ _ => rfl, rfl⟩
    cases doFree <;> simp [AMap.targets]
  | succ r ih =>
    have hlt : a < till := by
      rw [lt_def]
      omega
    have hfirst : ¬Removable m root doFree n 1 → ¬Removable m root doFree n (r + 1) := fun h h' =>
      h fun x h1 h2 => h' x h1 (by omega)
    rw [unmapFrom, if_pos hlt]
    refine sat_unmapRound T ha (by omega) (fun hd => (hO hd).first) (fun _ h => hfirst h) fun m1 hrem U => ?_
    have htill' : till.toNat = (n + 1 + r) * 4096 := by rw [htill, show n + (r + 1) = n + 1 + r by omega]
    have hrest := ih U.table (toNat_add_PGSIZE ha (by omega)) (by omega) htill' fun hd => by
      subst hd
      exact (hO rfl).rest hrem U
    refine sat_of_run (fun u m' hr => ?_) fun e hr h => ?_
    · obtain ⟨hrem', U'⟩ := hrest.ok hr
      exact ⟨(Removable.succ_iff U).2 ⟨hrem, hrem'⟩, U.trans hrem U'⟩
    · exact hrest.error hr ((Removable.succ_iff U).1 h).2

theorem uvmunmap_spec {va npages : Word} (T : Table m root) (hva : va.toNat % 4096 = 0) (hmax : va.toNat + npages.toNat * 4096 ≤ 2 ^ 38)
    (hO : doFree = true → Owned m root (va.toNat / 4096) npages.toNat) :
    Sat machine (uvmunmap root va npages doFree) m
      (fun _ m' => Removable m root doFree (va.toNat / 4096) npages.toNat ∧ Unmapped root doFree (va.toNat / 4096) npages.toNat m m')
      (fun _ => ¬Removable m root doFree (va.toNat / 4096) npages.toNat) := by
  have hmod : ¬va % PGSIZE ≠ 0 := fun h => h (mod_PGSIZE hva)
  have ha : va.toNat = va.toNat / 4096 * 4096 := by omega
  have htill : (va + npages * PGSIZE).toNat = (va.toNat / 4096 + npages.toNat) * 4096 := by
    rw [toNat_add, toNat_mul]
    change (va.toNat + npages.toNat * 4096 % 2 ^ 64) % 2 ^ 64 = _
    omega
  rw [uvmunmap, if_neg hmod]
  exact unmapFrom_spec T ha (by omega) htill hO

/-! ## `uvmclear` -/

theorem uvmclear_spec {va : Word} (T : Table m root) (hva : va < MAXVA) :
    Sat machine (uvmclear root va) m
      (fun _ m' => Table m' root ∧ pages m'.page root = pages m.page root ∧
        view m'.page root = AMap.clear (view m.page root) (va.toNat / 4096) ∧ m'.free = m.free ∧ m'.kend = m.kend ∧
        ∀ p, p ∉ pages m.page root → m'.page p = m.page p)
      (fun _ => view m.page root (va.toNat / 4096) = none) := by
  rw [uvmclear, sat_bind, sat_walk hva]
  cases hnode : node m.page root 2 (va.toNat / 4096 / 512) with
  | none => exact view_none hnode
  | some pt =>
    rw [map_some, sat_bind, sat_load, sat_store]
    change Table (m.setPte pt (va.toNat / 4096) _) root ∧ _
    refine ⟨T.setPte hnode, T.setPte_pages hnode, ?_, rfl, rfl, fun p hp => ?_⟩
    · refine (T.setPte_view hnode).trans ?_
      rw [decode_clear, ← view_eq hnode]
      funext x
      rw [Function.update_apply, AMap.clear]
      split
      case isTrue hx => rw [hx]
      case isFalse => rfl
    · exact setPte_of_ne (ne_of_mem_of_not_mem (mem_nodes (le_refl 2) hnode) hp).symm

end

/-! ## `uvmcreate` -/

theorem node_of_zero (hzero : ∀ i, m.page root i = 0) {d k : Nat} : node m.page root d k = if d = 0 ∧ k = 0 then some root else none := by
  induction d generalizing k with
  | zero => simp [node, Radix.node]
  | succ d ih =>
    unfold node at ih ⊢
    rw [node_succ, ih, if_neg (show ¬(d + 1 = 0 ∧ k = 0) by omega)]
    split
    · rw [bind_some, hzero, next_zero]
    · rfl

theorem uvmcreate_spec (hnodup : m.free.Nodup) (haligned : ∀ p ∈ m.free, p.toNat % 4096 = 0) :
    Sat machine uvmcreate m
      (fun r m' => m'.kend = m.kend ∧
        match r with
        | none => m' = m ∧ m.free = []
        | some root => m.free = root :: m'.free ∧ Table m' root ∧ pages m'.page root = {root} ∧ (view m'.page root = fun _ => none) ∧
            ∀ p, p ≠ root → m'.page p = m.page p) X := by
  rw [uvmcreate, sat_bind, sat_kalloc]
  cases hfree : m.free with
  | nil => exact ⟨rfl, rfl, rfl⟩
  | cons root rest =>
    dsimp only
    rw [sat_bind, sat_memset, sat_pure]
    rw [hfree] at hnodup haligned
    obtain ⟨m', hm⟩ : ∃ m', m' = ({ m with free := rest }.set root fun _ => filled 5).set root fun _ => filled 0 := ⟨_, rfl⟩
    rw [← hm]
    have hpage : m'.page = update m.page root fun _ => 0 := by
      rw [hm]
      simp only [Mem.set, Function.update_idem]
      rfl
    have hzero : ∀ i, m'.page root i = 0 := fun i => by rw [hpage, update_self]
    have hpages : pages m'.page root = {root} := by
      ext p
      constructor
      · rintro ⟨d, -, k, hk⟩
        rw [← node, node_of_zero hzero] at hk
        split at hk
        · exact (some.inj hk).symm
        · cases hk
      · rintro rfl
        exact root_mem
    have hrest : m'.free = rest := by rw [hm]; rfl
    refine ⟨by rw [hm]; rfl, by rw [hrest], ⟨?_, fun d _ k q hq i _ hv => ?_, fun p hp => ?_, ?_, fun p hp => ?_⟩, hpages, ?_, fun p hp => ?_⟩
    · intro d d' k k' b _ _ hb hb'
      rw [← node, node_of_zero hzero] at hb hb'
      split at hb
      case isFalse => cases hb
      split at hb'
      case isFalse => cases hb'
      omega
    · rw [node_of_zero hzero] at hq
      split at hq
      case isFalse => cases hq
      cases hq
      rw [hzero] at hv
      exact absurd rfl hv
    · rw [hpages]
      rintro rfl
      exact (nodup_cons.1 hnodup).1 (hrest ▸ hp)
    · rw [hrest]
      exact (nodup_cons.1 hnodup).2
    · exact haligned p (mem_cons_of_mem _ (hrest ▸ hp))
    · funext x
      refine view_none ?_
      rw [node_of_zero hzero, if_neg (by omega)]
    · rw [hpage, update_of_ne hp]

end

end Xv6.Vm
