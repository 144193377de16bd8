import Mathlib.Data.List.TakeWhile
import Xv6.Vm.Resize

/-!
# Copies between kernel and user memory (`kernel/vm.c:336-426`)

A byte of user memory is a byte of the physical page that the table maps at its address. `copyout` stores a prefix of its source that ends
at the first page it may not write; `copyin` and `copyinstr` deliver the bytes from the address on, up to the first page they may not
read.
-/

namespace Xv6.Vm

open Prog List Option Nat

/-! ## Bytes of a page -/

theorem getLsbD_packed (f : Nat → BitVec 8) (k n : Nat) {i : Nat} (hi : i < 64) :
    ((range n).foldl (fun w j => w ||| ((f (8 * k + j)).setWidth 64 <<< (8 * j))) (0 : Word)).getLsbD i =
      (decide (i < 8 * n) && (f (8 * k + i / 8)).getLsbD (i % 8)) := by
  induction n with
  | zero => simp
  | succ n ih =>
    rw [range_succ, foldl_append, foldl_cons, foldl_nil, BitVec.getLsbD_or, ih, BitVec.getLsbD_shiftLeft,
      BitVec.getLsbD_setWidth]
    by_cases hlow : i < 8 * n
    · simp [hlow, show i < 8 * (n + 1) by omega]
    by_cases hhigh : i < 8 * (n + 1)
    · have hq : i / 8 = n := by omega
      have hr : i - 8 * n = i % 8 := by omega
      have hlt : i % 8 < 64 := by omega
      simp [hlow, hhigh, hi, hq, hr, hlt]
    · have hbig : 8 ≤ i - 8 * n := by omega
      simp [hlow, hhigh, BitVec.getLsbD_of_ge _ _ hbig]

theorem getByte_ofBytes (f : Nat → BitVec 8) (a : Nat) : getByte (ofBytes f) a = f a := by
  apply BitVec.eq_of_getLsbD_eq
  intro i hi
  have hlt : 8 * (a % 8) + i < 64 := by omega
  have hq : 8 * (a / 8) + (8 * (a % 8) + i) / 8 = a := by omega
  have hr : (8 * (a % 8) + i) % 8 = i := by omega
  rw [getByte, BitVec.getLsbD_setWidth, BitVec.getLsbD_ushiftRight, ofBytes, getLsbD_packed f _ _ hlt, hq, hr]
  simp [hi, hlt]

theorem getByte_poke (ws : Nat → Word) (off : Nat) (bytes : List Byte) (a : Nat) :
    getByte (poke ws off bytes) a = if off ≤ a then bytes.getD (a - off) (getByte ws a) else getByte ws a := getByte_ofBytes _ a

theorem page_ext {ws ws' : Nat → Word} (h : ∀ a, getByte ws a = getByte ws' a) : ws = ws' := by
  funext i
  apply BitVec.eq_of_getLsbD_eq
  intro j hj
  have hbit := congrArg (fun b : Byte => b.getLsbD (j % 8)) (h (8 * i + j / 8))
  have hi : (8 * i + j / 8) / 8 = i := by omega
  have hj' : 8 * ((8 * i + j / 8) % 8) + j % 8 = j := by omega
  have hlt : j % 8 < 8 := by omega
  simpa only [getByte, BitVec.getLsbD_setWidth, BitVec.getLsbD_ushiftRight, hi, hj', hlt, decide_true, Bool.true_and] using hbit

/-! ## User memory -/

/-- The entry of a page that user code may access. -/
def userPage (page : Word → Nat → Word) (root : Word) (x : Nat) : Option (Word × Word) :=
  if x < 2 ^ 26 then (view page root x).filter fun e => e.2 &&& PTE_U ≠ 0 else none

/-- Where the byte at a virtual address is. -/
def loc (page : Word → Nat → Word) (root : Word) (a : Nat) : Option (Word × Nat) :=
  (view page root (a / 4096)).map fun e => (e.1, a % 4096)

def userByte (page : Word → Nat → Word) (root : Word) (a : Nat) : Option Byte :=
  (loc page root a).map fun l => getByte (page l.1) l.2

/-- The bytes from the virtual address `a` on. -/
def Holds (page : Word → Nat → Word) (root : Word) (a : Nat) (bytes : List Byte) : Prop :=
  ∀ i < bytes.length, userByte page root (a + i) = bytes[i]?

/-- `copyin` and `copyinstr` may read the page. -/
def Readable (page : Word → Nat → Word) (root : Word) (x : Nat) : Prop := (userPage page root x).isSome

/-- `copyout` may write the page. -/
def Writable (page : Word → Nat → Word) (root : Word) (x : Nat) : Prop := ∃ e, userPage page root x = some e ∧ e.2 &&& PTE_W ≠ 0

instance (page : Word → Nat → Word) (root : Word) (x : Nat) : Decidable (Writable page root x) :=
  decidable_of_iff ((userPage page root x).any fun e => e.2 &&& PTE_W ≠ 0) (by simp [Writable, Option.any_eq_true])

structure Apart (page : Word → Nat → Word) (root : Word) : Prop where
  inj : ∀ x y e e', userPage page root x = some e → userPage page root y = some e' → e.1 = e'.1 → x = y
  table : ∀ x e, userPage page root x = some e → e.1 ∉ pages page root
  nonzero : ∀ x e, userPage page root x = some e → e.1 ≠ 0

structure Stored (root : Word) (a : Nat) (bytes : List Byte) (m m' : Mem) : Prop where
  holds : Holds m'.page root a bytes
  miss : ∀ p o, (∀ i < bytes.length, loc m.page root (a + i) ≠ some (p, o)) → getByte (m'.page p) o = getByte (m.page p) o
  view : view m'.page root = view m.page root
  pages : pages m'.page root = pages m.page root
  free : m'.free = m.free
  kend : m'.kend = m.kend

section
variable {m m' m'' : Mem} {page : Word → Nat → Word} {root : Word} {a x : Nat} {e : Word × Word} {X : String → Prop}

theorem toNat_PGROUNDDOWN (a : Word) : (PGROUNDDOWN a).toNat = a.toNat / 4096 * 4096 := and_not_mask a

theorem userPage_eq_some : userPage page root x = some e ↔ x < 2 ^ 26 ∧ view page root x = some e ∧ e.2 &&& PTE_U ≠ 0 := by
  unfold userPage
  split
  · simp_all [filter_eq_some_iff]
  · simp_all

theorem loc_of_view (h : view page root (a / 4096) = some e) : loc page root a = some (e.1, a % 4096) := by rw [loc, h, map_some]

theorem userByte_of_view (h : view page root (a / 4096) = some e) : userByte page root a = some (getByte (page e.1) (a % 4096)) := by
  rw [userByte, loc_of_view h, map_some]

section
variable (h : view m'.page root = view m.page root)
include h

theorem loc_congr (a : Nat) : loc m'.page root a = loc m.page root a := by
  rw [loc, h, loc]

theorem userPage_congr (x : Nat) : userPage m'.page root x = userPage m.page root x := by
  rw [userPage, h, userPage]

theorem writable_congr (x : Nat) : Writable m'.page root x ↔ Writable m.page root x := by
  rw [Writable, userPage_congr h, Writable]

end

theorem Apart.congr (A : Apart m.page root) (hview : view m'.page root = view m.page root) (hpages : pages m'.page root = pages m.page root) :
    Apart m'.page root := by
  constructor
  · intro x y e e' hx hy he
    rw [userPage_congr hview] at hx hy
    exact A.inj x y e e' hx hy he
  · intro x e hx
    rw [userPage_congr hview] at hx
    exact hpages ▸ A.table x e hx
  · intro x e hx
    rw [userPage_congr hview] at hx
    exact A.nonzero x e hx

theorem Stored.nil (m : Mem) : Stored root a [] m m where
  holds _ h := absurd h (not_lt_zero _)
  miss _ _ _ := rfl
  view := rfl
  pages := rfl
  free := rfl
  kend := rfl

theorem Stored.nil_at (h : Stored root a [] m m') (b : Nat) : Stored root b [] m m' :=
  { h with
    holds := fun _ h => absurd h (not_lt_zero _)
    miss := fun p o _ => h.miss p o fun _ h => absurd h (not_lt_zero _) }

theorem Stored.frame {bytes : List Byte} (h : Stored root a bytes m m') {p : Word}
    (hp : ∀ i < bytes.length, ∀ e, Vm.view m.page root ((a + i) / 4096) = some e → e.1 ≠ p) : m'.page p = m.page p := by
  refine page_ext fun o => h.miss p o fun i hi he => ?_
  obtain ⟨e, hv, heq⟩ := map_eq_some_iff.1 he
  exact hp i hi e hv (congrArg Prod.fst heq)

variable {b b' dst : List Byte} {va pa : Word} {o n : Nat}

theorem Stored.append (h : Stored root a b m m') (h' : Stored root (a + b.length) b' m' m'')
    (hne : ∀ i < b.length, ∀ j < b'.length, loc m.page root (a + i) ≠ loc m.page root (a + b.length + j)) :
    Stored root a (b ++ b') m m'' where
  holds i hi := by
    rw [length_append] at hi
    by_cases hb : i < b.length
    · rw [getElem?_append_left hb, ← h.holds i hb]
      have hsome : (userByte m'.page root (a + i)).isSome := by
        rw [h.holds i hb, getElem?_eq_getElem hb]
        rfl
      obtain ⟨c, hc⟩ := isSome_iff_exists.1 hsome
      obtain ⟨l, hl, -⟩ := map_eq_some_iff.1 hc
      -- The byte is not among those that are stored later.
      rw [userByte, userByte, loc_congr h'.view, hl, map_some, map_some]
      refine congrArg some (h'.miss _ _ fun j hj he => ?_)
      rw [loc_congr h.view] at hl he
      exact hne i hb j hj (hl.trans he.symm)
    · rw [getElem?_append_right (by omega), ← h'.holds (i - b.length) (by omega)]
      congr 1
      omega
  miss p o hp := by
    simp only [length_append] at hp
    rw [h'.miss p o, h.miss p o]
    · exact fun i hi => hp i (by omega)
    · intro j hj
      rw [loc_congr h.view, add_assoc]
      exact hp (b.length + j) (by omega)
  view := h'.view.trans h.view
  pages := h'.pages.trans h.pages
  free := h'.free.trans h.free
  kend := h'.kend.trans h.kend

theorem Apart.stored (A : Apart m.page root) (bytes : List Byte) (hx : userPage m.page root (a / 4096) = some e)
    (hfit : a % 4096 + bytes.length ≤ 4096) : Stored root a bytes m (m.set e.1 (poke (m.page e.1) (a % 4096) bytes)) := by
  obtain ⟨-, hv, -⟩ := userPage_eq_some.1 hx
  have hpage : ∀ p, p ≠ e.1 → (m.set e.1 (poke (m.page e.1) (a % 4096) bytes)).page p = m.page p := fun p hp => Function.update_of_ne hp ..
  have hself : (m.set e.1 (poke (m.page e.1) (a % 4096) bytes)).page e.1 = poke (m.page e.1) (a % 4096) bytes := Function.update_self ..
  obtain ⟨hview, hpages⟩ := view_congr fun p hp => hpage p (ne_of_mem_of_not_mem hp (A.table _ _ hx))
  have hat : ∀ i < bytes.length, Vm.view m.page root ((a + i) / 4096) = some e ∧ (a + i) % 4096 = a % 4096 + i := fun i hi => by
    have hq : (a + i) / 4096 = a / 4096 := by omega
    exact ⟨hq ▸ hv, by omega⟩
  refine ⟨fun i hi => ?_, fun p o hp => ?_, hview, hpages, rfl, rfl⟩
  · obtain ⟨hv', ho⟩ := hat i hi
    rw [userByte_of_view (hview.symm ▸ hv'), hself, getByte_poke, ho, if_pos (by omega), Nat.add_sub_cancel_left,
      getD_eq_getElem?_getD, getElem?_eq_getElem hi]
    rfl
  · by_cases he : p = e.1
    · subst he
      rw [hself, getByte_poke]
      split
      · rename_i hle
        rw [getD_eq_getElem?_getD, getElem?_eq_none, getD_none]
        by_contra hlt
        obtain ⟨hv', ho⟩ := hat (o - a % 4096) (by omega)
        refine hp (o - a % 4096) (by omega) ?_
        rw [loc_of_view hv', ho]
        congr 2
        omega
      · rfl
    · rw [hpage p he]

/-! ## `copyout` -/

theorem PTE_FLAGS_user (w : Word) : PTE_FLAGS w &&& PTE_U = w &&& PTE_U := by
  rw [PTE_FLAGS, BitVec.and_assoc]
  rfl

theorem PTE_FLAGS_write (w : Word) : PTE_FLAGS w &&& PTE_W = w &&& PTE_W := by
  rw [PTE_FLAGS, BitVec.and_assoc]
  rfl

theorem page_step (hva : va.toNat / 4096 < 2 ^ 26) :
    PGROUNDDOWN va < MAXVA ∧ (PGROUNDDOWN va).toNat / 4096 = va.toNat / 4096 ∧ (va - PGROUNDDOWN va).toNat = va.toNat % 4096 ∧
      (PGROUNDDOWN va + PGSIZE).toNat = (va.toNat / 4096 + 1) * 4096 := by
  have hdown := toNat_PGROUNDDOWN va
  refine ⟨lt_MAXVA hdown hva, by omega, ?_, toNat_add_PGSIZE hdown (by omega)⟩
  rw [BitVec.toNat_sub, hdown]
  have := va.isLt
  omega

theorem not_lt_MAXVA (hva : ¬va.toNat / 4096 < 2 ^ 26) : PGROUNDDOWN va ≥ MAXVA := by
  have hdown := toNat_PGROUNDDOWN va
  change MAXVA.toNat ≤ (PGROUNDDOWN va).toNat
  have hmax : MAXVA.toNat = 2 ^ 26 * 4096 := by decide
  omega

theorem sat_outRound {C : Word → V Int} {Q : Int → Mem → Prop} (hbad : ¬Writable m.page root (va.toNat / 4096) → Q (-1) m)
    (hgood : ∀ e, userPage m.page root (va.toNat / 4096) = some e → e.2 &&& PTE_W ≠ 0 → Sat machine (C e.1) m Q X) :
    Sat machine (if PGROUNDDOWN va ≥ MAXVA then return -1
      else do
        match ← walk root (PGROUNDDOWN va) false with
        | none => return -1
        | some (pt, i) =>
          let pte ← load pt i
          if pte &&& PTE_V = 0 ∨ pte &&& PTE_U = 0 ∨ pte &&& PTE_W = 0 then return -1 else C (PTE2PA pte)) m Q X := by
  by_cases hx : va.toNat / 4096 < 2 ^ 26
  · obtain ⟨hva, hdiv, -, -⟩ := page_step hx
    rw [if_neg (BitVec.not_le.2 hva), sat_bind, sat_walk hva, hdiv]
    generalize va.toNat / 4096 = x at *
    cases hnode : node m.page root 2 (x / 512) with
    | none =>
      refine hbad fun ⟨e, he, _⟩ => ?_
      rw [userPage_eq_some, view_none hnode] at he
      cases he.2.1
    | some pt =>
      have hdec := view_eq hnode
      rw [map_some, sat_bind, sat_load]
      generalize m.page pt (x % 512) = pte at hdec ⊢
      unfold decode at hdec
      by_cases hb : pte &&& PTE_V = 0 ∨ pte &&& PTE_U = 0 ∨ pte &&& PTE_W = 0
      · rw [if_pos hb]
        refine hbad fun ⟨e, he, hw⟩ => ?_
        obtain ⟨-, hv, hu⟩ := userPage_eq_some.1 he
        rw [hdec] at hv
        split at hv
        · cases hv
        · cases hv
          rw [PTE_FLAGS_user] at hu
          rw [PTE_FLAGS_write] at hw
          tauto
      · rw [if_neg hb]
        rw [not_or, not_or] at hb
        rw [if_neg hb.1] at hdec
        refine hgood (PTE2PA pte, PTE_FLAGS pte) (userPage_eq_some.2 ⟨hx, hdec, ?_⟩) ?_
        · exact PTE_FLAGS_user pte ▸ hb.2.1
        · exact PTE_FLAGS_write pte ▸ hb.2.2
  · rw [if_pos (not_lt_MAXVA hx)]
    refine hbad fun ⟨e, he, _⟩ => ?_
    exact hx (userPage_eq_some.1 he).1

structure CopiedOut (root : Word) (a : Nat) (src : List Byte) (m : Mem) (r : Int) (m' : Mem) (k : Nat) : Prop where
  le : k ≤ src.length
  stored : Stored root a (src.take k) m m'
  pages : ∀ i < k, Writable m.page root ((a + i) / 4096)
  result : r = 0 ∧ k = src.length ∨
    r = -1 ∧ k < src.length ∧ ¬Writable m.page root ((a + k) / 4096) ∧ (k = 0 ∨ (a + k) % 4096 = 0)

theorem CopiedOut.all (m : Mem) : CopiedOut root a [] m 0 m 0 :=
  ⟨le_refl _, .nil m, fun _ h => absurd h (not_lt_zero _), .inl ⟨rfl, rfl⟩⟩

theorem Apart.loc_ne (A : Apart m.page root) {a b : Nat} (ha : Writable m.page root (a / 4096)) (hb : Writable m.page root (b / 4096))
    (hne : a ≠ b) : loc m.page root a ≠ loc m.page root b := by
  obtain ⟨e, he, -⟩ := ha
  obtain ⟨e', he', -⟩ := hb
  rw [loc_of_view (userPage_eq_some.1 he).2.1, loc_of_view (userPage_eq_some.1 he').2.1]
  intro h
  obtain ⟨hp, ho⟩ := Prod.ext_iff.1 (some.inj h)
  have hx := A.inj _ _ e e' he he' hp
  dsimp only at ho
  omega

theorem copyoutFrom_spec (fuel : Nat) {dstva : Word} {src : List Byte} (A : Apart m.page root) (hlen : src.length ≤ fuel) :
    Sat machine (copyoutFrom root fuel dstva src) m (fun r m' => ∃ k, CopiedOut root dstva.toNat src m r m' k) X := by
  induction fuel generalizing m dstva src with
  | zero =>
    obtain rfl : src = [] := length_eq_zero_iff.1 (by omega)
    rw [copyoutFrom, if_pos rfl]
    exact ⟨0, .all m⟩
  | succ fuel ih =>
    rw [copyoutFrom]
    by_cases hnil : src = []
    · subst hnil
      rw [if_pos rfl]
      exact ⟨0, .all m⟩
    have hpos : 0 < src.length := length_pos_iff.2 hnil
    rw [if_neg hnil]
    refine sat_outRound (C := fun pa => do
      write pa (dstva - PGROUNDDOWN dstva).toNat (src.take (min (4096 - (dstva - PGROUNDDOWN dstva).toNat) src.length))
      copyoutFrom root fuel (PGROUNDDOWN dstva + PGSIZE) (src.drop (min (4096 - (dstva - PGROUNDDOWN dstva).toNat) src.length)))
      (fun hbad => ⟨0, zero_le _, .nil m, fun _ h => absurd h (not_lt_zero _), .inr ⟨rfl, hpos, hbad, .inl rfl⟩⟩)
      fun e he hw => ?_
    obtain ⟨-, -, hoff, hnext⟩ := page_step (userPage_eq_some.1 he).1
    have hW : Writable m.page root (dstva.toNat / 4096) := ⟨e, he, hw⟩
    rw [hoff, sat_bind, sat_write]
    generalize hn : min (4096 - dstva.toNat % 4096) src.length = n
    have hlen' : (src.take n).length = n := by rw [length_take]; omega
    have hst := A.stored (src.take n) he (by omega)
    generalize m.set e.1 _ = m1 at hst ⊢
    refine (ih (A.congr hst.view hst.pages) (by rw [length_drop]; omega)).mono ?_
    rintro r m' ⟨k, hk, hst', hp', hr'⟩
    rw [length_drop] at hk hr'
    rw [hnext] at hst' hp' hr'
    simp only [writable_congr hst.view] at hp' hr'
    -- Either this page is not the last one, or no bytes are left.
    have hadd : k = 0 ∧ src.length = n ∨ (dstva.toNat / 4096 + 1) * 4096 = dstva.toNat + n := by omega
    have htake : src.take (n + k) = src.take n ++ (src.drop n).take k := take_add ..
    have hfirst : ∀ i < n, Writable m.page root ((dstva.toNat + i) / 4096) := fun i hi => by
      rwa [show (dstva.toNat + i) / 4096 = dstva.toNat / 4096 by omega]
    refine ⟨n + k, by omega, ?_, fun i hi => ?_, ?_⟩
    · rw [htake]
      rcases hadd with ⟨rfl, -⟩ | h0
      · rw [take_zero] at hst' ⊢
        exact hst.append (hst'.nil_at _) fun _ _ j hj => absurd hj (not_lt_zero _)
      refine hst.append ?_ fun i hi j hj => ?_
      · rwa [hlen', ← h0]
      · rw [length_take, length_drop] at hj
        rw [hlen'] at hi ⊢
        refine A.loc_ne (hfirst i hi) ?_ (by omega)
        exact h0 ▸ hp' j (by omega)
    · by_cases hin : i < n
      · exact hfirst i hin
      · rcases hadd with ⟨rfl, -⟩ | h0
        · omega
        · have := hp' (i - n) (by omega)
          rwa [h0, Nat.add_assoc, Nat.add_sub_cancel' (by omega)] at this
    · rcases hr' with ⟨rfl, hk'⟩ | ⟨rfl, hlt, hbad, hedge⟩
      · exact .inl ⟨rfl, by omega⟩
      · rcases hadd with ⟨-, hl⟩ | h0
        · omega
        · rw [h0, add_assoc] at hbad hedge
          exact .inr ⟨rfl, by omega, hbad, .inr (by omega)⟩

theorem copyout_spec {dstva : Word} {src : List Byte} (A : Apart m.page root) :
    Sat machine (copyout root dstva src) m (fun r m' => ∃ k, CopiedOut root dstva.toNat src m r m' k) X :=
  copyoutFrom_spec src.length A (le_refl _)

/-! ## `copyin` and `copyinstr` -/

theorem sat_walkaddr {Q : Word → Mem → Prop} :
    Sat machine (walkaddr root (PGROUNDDOWN va)) m Q X ↔ Q (((userPage m.page root (va.toNat / 4096)).map Prod.fst).getD 0) m := by
  unfold walkaddr
  by_cases hx : va.toNat / 4096 < 2 ^ 26
  · obtain ⟨hva, hdiv, -, -⟩ := page_step hx
    rw [if_neg (BitVec.not_le.2 hva), sat_bind, sat_walk hva, hdiv]
    unfold userPage
    rw [if_pos hx]
    generalize va.toNat / 4096 = x
    cases hnode : node m.page root 2 (x / 512) with
    | none =>
      rw [view_none hnode]
      exact Iff.rfl
    | some pt =>
      rw [view_eq hnode, map_some, sat_bind, sat_load]
      generalize m.page pt (x % 512) = pte
      unfold decode
      by_cases hv : pte &&& PTE_V = 0
      · rw [if_pos hv, if_pos hv]
        exact Iff.rfl
      rw [if_neg hv, if_neg hv]
      by_cases hu : pte &&& PTE_U = 0
      · rw [if_pos hu, filter_some_neg (by simpa [PTE_FLAGS_user] using hu)]
        exact Iff.rfl
      · rw [if_neg hu, filter_some_pos (by simpa [PTE_FLAGS_user] using hu)]
        exact Iff.rfl
  · rw [if_pos (not_lt_MAXVA hx), userPage, if_neg hx]
    exact Iff.rfl

@[simp] theorem sat_loadByte {Q : Byte → Mem → Prop} :
    Sat machine (loadByte pa o) m Q X ↔ Q (getByte (m.page pa) o) m := Iff.rfl

theorem sat_readBytes {Q : List Byte → Mem → Prop} :
    Sat machine (readBytes pa o n) m Q X ↔ Q ((range' o n).map (getByte (m.page pa))) m := by
  induction n generalizing o Q with
  | zero => exact Iff.rfl
  | succ n ih =>
    rw [readBytes, sat_bind, sat_loadByte, sat_bind, ih]
    exact Iff.rfl

theorem sat_inRound {α : Type} {B : V α} {C : Word → V α} {Q : α → Mem → Prop} (A : Apart m.page root)
    (hbad : ¬Readable m.page root (va.toNat / 4096) → Sat machine B m Q X)
    (hgood : ∀ e, userPage m.page root (va.toNat / 4096) = some e → Sat machine (C e.1) m Q X) :
    Sat machine (do
      let pa0 ← walkaddr root (PGROUNDDOWN va)
      if pa0 = 0 then B else C pa0) m Q X := by
  rw [sat_bind, sat_walkaddr]
  cases hx : userPage m.page root (va.toNat / 4096) with
  | none =>
    rw [map_none, getD_none, if_pos rfl]
    refine hbad fun h => ?_
    rw [Readable, hx] at h
    cases h
  | some e =>
    rw [map_some, getD_some, if_neg (A.nonzero _ e hx)]
    exact hgood e hx

/-- The bytes from `a` on, all on pages that may be read. -/
structure Delivered (page : Word → Nat → Word) (root : Word) (a : Nat) (bytes : List Byte) : Prop where
  holds : Holds page root a bytes
  pages : ∀ i < bytes.length, Readable page root ((a + i) / 4096)

theorem Delivered.nil : Delivered page root a [] := ⟨fun _ h => absurd h (not_lt_zero _), fun _ h => absurd h (not_lt_zero _)⟩

theorem Delivered.append (h : Delivered page root a b) (h' : Delivered page root (a + b.length) b') :
    Delivered page root a (b ++ b') := by
  constructor
  · intro i hi
    rw [length_append] at hi
    by_cases hb : i < b.length
    · rw [getElem?_append_left hb, h.holds i hb]
    · rw [getElem?_append_right (by omega), ← h'.holds (i - b.length) (by omega)]
      congr 1
      omega
  · intro i hi
    rw [length_append] at hi
    by_cases hb : i < b.length
    · exact h.pages i hb
    · have := h'.pages (i - b.length) (by omega)
      rwa [Nat.add_assoc, Nat.add_sub_cancel' (by omega)] at this

theorem Delivered.start (h : Delivered page root a b') (hb : b <+: b') : Delivered page root a b := by
  obtain ⟨t, rfl⟩ := hb
  constructor
  · intro i hi
    rw [h.holds i (by rw [length_append]; omega), getElem?_append_left hi]
  · intro i hi
    exact h.pages i (by rw [length_append]; omega)

theorem delivered_page (he : userPage page root (a / 4096) = some e) (hfit : a % 4096 + n ≤ 4096) :
    Delivered page root a ((range' (a % 4096) n).map (getByte (page e.1))) := by
  have hq : ∀ i < n, (a + i) / 4096 = a / 4096 := fun i hi => by omega
  constructor
  · intro i hi
    rw [length_map, length_range'] at hi
    have ho : (a + i) % 4096 = a % 4096 + i := by omega
    have hv := (userPage_eq_some.1 he).2.1
    rw [← hq i hi] at hv
    rw [userByte_of_view hv, ho, getElem?_map, getElem?_range' hi, map_some, one_mul]
  · intro i hi
    rw [length_map, length_range'] at hi
    rw [hq i hi, Readable, he]
    rfl

structure CopiedIn (root : Word) (a len : Nat) (m : Mem) (r : Int) (bytes : List Byte) : Prop extends Delivered m.page root a bytes where
  result : r = 0 ∧ bytes.length = len ∨ r = -1 ∧ bytes.length < len ∧ ¬Readable m.page root ((a + bytes.length) / 4096)

theorem copyinFrom_spec (fuel : Nat) {srcva : Word} {len : Nat} (A : Apart m.page root) (hlen : len ≤ fuel) :
    Sat machine (copyinFrom root fuel srcva len dst) m
      (fun r m' => m' = m ∧ ∃ bytes, r.2 = dst ++ bytes ∧ CopiedIn root srcva.toNat len m r.1 bytes) X := by
  induction fuel generalizing srcva len dst with
  | zero =>
    obtain rfl : len = 0 := by omega
    rw [copyinFrom, if_pos rfl]
    exact ⟨rfl, [], (append_nil dst).symm, .nil, .inl ⟨rfl, rfl⟩⟩
  | succ fuel ih =>
    rw [copyinFrom]
    by_cases hnil : len = 0
    · subst hnil
      rw [if_pos rfl]
      exact ⟨rfl, [], (append_nil dst).symm, .nil, .inl ⟨rfl, rfl⟩⟩
    rw [if_neg hnil]
    refine sat_inRound (C := fun pa => do
      let bytes ← readBytes pa (srcva - PGROUNDDOWN srcva).toNat (min (4096 - (srcva - PGROUNDDOWN srcva).toNat) len)
      copyinFrom root fuel (PGROUNDDOWN srcva + PGSIZE) (len - min (4096 - (srcva - PGROUNDDOWN srcva).toNat) len) (dst ++ bytes)) A
      (fun hbad => ⟨rfl, [], (append_nil dst).symm, .nil, .inr ⟨rfl, Nat.pos_of_ne_zero hnil, hbad⟩⟩) fun e he => ?_
    obtain ⟨-, -, hoff, hnext⟩ := page_step (userPage_eq_some.1 he).1
    rw [hoff, sat_bind, sat_readBytes]
    generalize hn : min (4096 - srcva.toNat % 4096) len = n
    have hread := delivered_page (n := n) he (by omega)
    have hlen' : ((range' (srcva.toNat % 4096) n).map (getByte (m.page e.1))).length = n := by
      rw [length_map, length_range']
    generalize (range' (srcva.toNat % 4096) n).map (getByte (m.page e.1)) = bytes at hread hlen' ⊢
    refine (ih (by omega)).mono ?_
    rintro ⟨r, dst'⟩ m' ⟨hm, bytes', rfl, hdel, hr⟩
    refine ⟨hm, bytes ++ bytes', append_assoc .., ?_⟩
    dsimp only
    rw [hnext] at hdel hr
    -- Either the round read all that was left, or it ended at the end of the page.
    by_cases hlast : len = n
    · obtain ⟨rfl, hk⟩ : r = 0 ∧ bytes'.length = 0 := by omega
      rw [length_eq_zero_iff.1 hk, append_nil]
      exact ⟨hread, .inl ⟨rfl, by omega⟩⟩
    · have h0 : (srcva.toNat / 4096 + 1) * 4096 = srcva.toNat + bytes.length := by omega
      rw [h0] at hdel hr
      refine ⟨hread.append hdel, ?_⟩
      rw [length_append, ← add_assoc]
      exact hr.imp (fun h => ⟨h.1, by omega⟩) fun h => ⟨h.1, by omega, h.2.2⟩

theorem copyin_spec (srcva len : Word) (A : Apart m.page root) :
    Sat machine (copyin root srcva len) m (fun r m' => m' = m ∧ CopiedIn root srcva.toNat len.toNat m r.1 r.2) X := by
  refine (copyinFrom_spec len.toNat A (le_refl _)).mono ?_
  rintro ⟨r, dst⟩ m' ⟨hm, bytes, hdst, h⟩
  rw [nil_append] at hdst
  exact ⟨hm, hdst ▸ h⟩

/-- The string that `copyinstr` finds in bytes with a NUL. -/
def cstr (bytes : List Byte) : List Byte := bytes.takeWhile (· ≠ 0) ++ [0]

theorem cstr_start {bytes : List Byte} (h : 0 ∈ bytes) : cstr bytes <+: bytes := by
  induction bytes with
  | nil => cases h
  | cons c cs ih =>
    by_cases hc : c = 0
    · rw [cstr, takeWhile_cons_of_neg (by simpa using hc), hc]
      exact ⟨cs, rfl⟩
    · have hcs : 0 ∈ cs := (mem_cons.1 h).resolve_left (Ne.symm hc)
      rw [cstr, takeWhile_cons_of_pos (by simpa using hc), cons_append]
      exact cons_prefix_cons.2 ⟨rfl, ih hcs⟩

theorem sat_scanStr {Q : Bool × List Byte → Mem → Prop} :
    Sat machine (scanStr pa o n dst) m Q X ↔
      if 0 ∈ (range' o n).map (getByte (m.page pa)) then Q (true, dst ++ cstr ((range' o n).map (getByte (m.page pa)))) m
      else Q (false, dst ++ (range' o n).map (getByte (m.page pa))) m := by
  induction n generalizing o dst with
  | zero =>
    rw [if_neg (by simp), range'_zero, map_nil, append_nil]
    exact Iff.rfl
  | succ n ih =>
    rw [scanStr, sat_bind, sat_loadByte, range'_succ, map_cons]
    generalize getByte (m.page pa) o = c
    by_cases hc : c = 0
    · rw [if_pos hc, if_pos (by simp [hc]), cstr, takeWhile_cons_of_neg (by simpa using hc)]
      exact Iff.rfl
    · have htake : cstr (c :: (range' (o + 1) n).map (getByte (m.page pa))) =
          c :: cstr ((range' (o + 1) n).map (getByte (m.page pa))) := by
        rw [cstr, takeWhile_cons_of_pos (by simpa using hc), cons_append, cstr]
      rw [if_neg hc, ih, htake]
      simp only [mem_cons, Ne.symm hc, false_or, append_assoc, cons_append, nil_append]

structure CopiedStr (root : Word) (a max : Nat) (m : Mem) (r : Int) (bytes : List Byte) : Prop extends Delivered m.page root a bytes where
  le : bytes.length ≤ max
  result : (r = 0 ∧ ∃ s, bytes = s ++ [0] ∧ 0 ∉ s) ∨
    r = -1 ∧ 0 ∉ bytes ∧ (bytes.length = max ∨ ¬Readable m.page root ((a + bytes.length) / 4096))

theorem copyinstrFrom_spec (fuel : Nat) {srcva : Word} {max : Nat} (A : Apart m.page root) (hmax : max ≤ fuel) :
    Sat machine (copyinstrFrom root fuel srcva max dst) m
      (fun r m' => m' = m ∧ ∃ bytes, r.2 = dst ++ bytes ∧ CopiedStr root srcva.toNat max m r.1 bytes) X := by
  induction fuel generalizing srcva max dst with
  | zero =>
    obtain rfl : max = 0 := by omega
    rw [copyinstrFrom, if_pos rfl]
    exact ⟨rfl, [], (append_nil dst).symm, .nil, zero_le _, .inr ⟨rfl, not_mem_nil, .inl rfl⟩⟩
  | succ fuel ih =>
    rw [copyinstrFrom]
    by_cases hnil : max = 0
    · subst hnil
      rw [if_pos rfl]
      exact ⟨rfl, [], (append_nil dst).symm, .nil, zero_le _, .inr ⟨rfl, not_mem_nil, .inl rfl⟩⟩
    rw [if_neg hnil]
    refine sat_inRound (C := fun pa => do
      let r ← scanStr pa (srcva - PGROUNDDOWN srcva).toNat (min (4096 - (srcva - PGROUNDDOWN srcva).toNat) max) dst
      if r.1 then return (0, r.2)
      else copyinstrFrom root fuel (PGROUNDDOWN srcva + PGSIZE) (max - min (4096 - (srcva - PGROUNDDOWN srcva).toNat) max) r.2) A
      (fun hbad => ⟨rfl, [], (append_nil dst).symm, .nil, zero_le _, .inr ⟨rfl, not_mem_nil, .inr hbad⟩⟩) fun e he => ?_
    obtain ⟨-, -, hoff, hnext⟩ := page_step (userPage_eq_some.1 he).1
    rw [hoff, sat_bind, sat_scanStr]
    generalize hn : min (4096 - srcva.toNat % 4096) max = n
    have hread := delivered_page (n := n) he (by omega)
    have hlen' : ((range' (srcva.toNat % 4096) n).map (getByte (m.page e.1))).length = n := by
      rw [length_map, length_range']
    generalize (range' (srcva.toNat % 4096) n).map (getByte (m.page e.1)) = bytes at hread hlen' ⊢
    by_cases hnul : 0 ∈ bytes
    · have hle := (cstr_start hnul).length_le
      rw [if_pos hnul, if_pos rfl]
      refine ⟨rfl, cstr bytes, rfl, hread.start (cstr_start hnul), by omega, .inl ⟨rfl, _, rfl, fun h => ?_⟩⟩
      simpa using mem_takeWhile_imp h
    rw [if_neg hnul, if_neg Bool.false_ne_true]
    refine (ih (by omega)).mono ?_
    rintro ⟨r, dst'⟩ m' ⟨hm, bytes', rfl, hdel, hle, hr⟩
    refine ⟨hm, bytes ++ bytes', append_assoc .., ?_⟩
    dsimp only
    rw [hnext] at hdel hr
    by_cases hlast : max = n
    · obtain rfl : bytes' = [] := length_eq_zero_iff.1 (by omega)
      rw [append_nil]
      refine ⟨hread, by omega, .inr ⟨?_, hnul, .inl (by omega)⟩⟩
      rcases hr with ⟨-, s, hs, -⟩ | ⟨hr, -⟩
      · simp at hs
      · exact hr
    · have h0 : (srcva.toNat / 4096 + 1) * 4096 = srcva.toNat + bytes.length := by omega
      rw [h0] at hdel hr
      refine ⟨hread.append hdel, by rw [length_append]; omega, ?_⟩
      rcases hr with ⟨hr, s, rfl, hs⟩ | ⟨hr, hs, hstop⟩
      · exact .inl ⟨hr, bytes ++ s, (append_assoc ..).symm, fun h => (mem_append.1 h).elim hnul hs⟩
      · refine .inr ⟨hr, fun h => (mem_append.1 h).elim hnul hs, ?_⟩
        rw [length_append, ← add_assoc]
        exact hstop.imp_left fun h => by omega

theorem copyinstr_spec (srcva max : Word) (A : Apart m.page root) :
    Sat machine (copyinstr root srcva max) m (fun r m' => m' = m ∧ CopiedStr root srcva.toNat max.toNat m r.1 r.2) X := by
  refine (copyinstrFrom_spec max.toNat A (le_refl _)).mono ?_
  rintro ⟨r, dst⟩ m' ⟨hm, bytes, hdst, h⟩
  rw [nil_append] at hdst
  exact ⟨hm, hdst ▸ h⟩

/-! ## The user pages of a space -/

section
variable {K : Nat} {top : AMap}

/-- What the space maps at the top is not for the user. -/
def Guarded (top : AMap) : Prop := ∀ x e, top x = some e → e.2 &&& PTE_U = 0

theorem Space.user_lt {page : Word → Nat → Word} {x : Nat} {e : Word × Word} (S : Space page root K top) (hG : Guarded top)
    (hx : userPage page root x = some e) : x < K ∧ view page root x = some e := by
  obtain ⟨-, hv, hu⟩ := userPage_eq_some.1 hx
  refine ⟨?_, hv⟩
  by_contra hge
  exact hu (hG x e ((S.rest x (by omega)).symm.trans hv))

theorem Space.target_inj {page : Word → Nat → Word} {x y : Nat} {e e' : Word × Word} (S : Space page root K top) (hx : x < K) (hy : y < K)
    (hvx : view page root x = some e) (hvy : view page root y = some e') (he : e.1 = e'.1) : x = y := by
  have hne := pairwise_iff_getElem.1 (pairwise_filterMap.1 S.nodup)
  simp only [length_range', getElem_range', zero_add, one_mul] at hne
  rcases lt_trichotomy x y with hlt | rfl | hgt
  · exact absurd he (hne x y hx hy hlt e.1 (by rw [hvx]; rfl) e'.1 (by rw [hvy]; rfl))
  · rfl
  · exact absurd he.symm (hne y x hy hx hgt e'.1 (by rw [hvy]; rfl) e.1 (by rw [hvx]; rfl))

theorem Space.apart_user (S : Space m.page root K top) (hG : Guarded top) (H : Heap (own m.page root K) m) : Apart m.page root := by
  have hmem : ∀ x e, userPage m.page root x = some e → e.1 ∈ AMap.targets (view m.page root) 0 K := fun x e hx => by
    obtain ⟨hK, hv⟩ := S.user_lt hG hx
    exact AMap.mem_targets.2 ⟨x, e, zero_le x, by omega, hv, rfl⟩
  refine ⟨fun x y e e' hx hy he => ?_, fun x e hx => S.apart _ (hmem x e hx), fun x e hx h0 => ?_⟩
  · obtain ⟨hxK, hvx⟩ := S.user_lt hG hx
    obtain ⟨hyK, hvy⟩ := S.user_lt hG hy
    exact S.target_inj hxK hyK hvx hvy he
  · obtain ⟨-, hk, -⟩ := H.frames _ (.inl (.inr (hmem x e hx)))
    have hk' : m.kend.toNat ≤ e.1.toNat := hk
    have hpos := H.kend
    rw [h0] at hk'
    change m.kend.toNat ≤ 0 at hk'
    omega

end

/-! ## Every address and length -/

/-- The pages from that of `a` to that of the last of `len` bytes. -/
def Visits (a len x : Nat) : Prop := 0 < len ∧ a / 4096 ≤ x ∧ x ≤ (a + len - 1) / 4096

theorem visits_iff {len : Nat} : Visits a len x ↔ ∃ i < len, (a + i) / 4096 = x := by
  constructor
  · rintro ⟨hpos, hlo, hhi⟩
    by_cases h : a / 4096 = x
    · exact ⟨0, hpos, h⟩
    · exact ⟨x * 4096 - a, by omega, by omega⟩
  · rintro ⟨i, hi, rfl⟩
    exact ⟨by omega, by omega, by omega⟩

/-- Nothing outside of the bytes from `lo` to `hi` changes. -/
def Only (root : Word) (lo hi : Nat) (m m' : Mem) : Prop :=
  ∀ p o, (∀ a, lo ≤ a → a < hi → loc m.page root a ≠ some (p, o)) → getByte (m'.page p) o = getByte (m.page p) o

theorem CopiedOut.exact {src : List Byte} {r : Int} {k : Nat} (h : CopiedOut root a src m r m' k) :
    (r = 0 ∨ r = -1) ∧ (r = 0 ↔ ∀ x, Visits a src.length x → Writable m.page root x) ∧ (r = 0 → Stored root a src m m') ∧
      (r = -1 → ∃ x, Visits a src.length x ∧ ¬Writable m.page root x ∧ (∀ y < x, Visits a src.length y → Writable m.page root y) ∧
        Only root a (x * 4096) m m') := by
  obtain ⟨hk, hst, hp, ⟨rfl, rfl⟩ | ⟨rfl, hlt, hbad, hedge⟩⟩ := h
  · rw [take_length] at hst
    refine ⟨.inl rfl, ⟨fun _ x hx => ?_, fun _ => rfl⟩, fun _ => hst, fun h => by cases h⟩
    obtain ⟨i, hi, rfl⟩ := visits_iff.1 hx
    exact hp i hi
  · have hv : Visits a src.length ((a + k) / 4096) := visits_iff.2 ⟨k, hlt, rfl⟩
    refine ⟨.inr rfl, ⟨(fun h => by cases h), fun h => absurd (h _ hv) hbad⟩, (fun h => by cases h), fun _ => ⟨_, hv, hbad, fun y hy hvy => ?_, ?_⟩⟩
    · obtain ⟨i, hi, rfl⟩ := visits_iff.1 hvy
      exact hp i (by by_contra; have := Nat.div_le_div_right (c := 4096) (show a + k ≤ a + i by omega); omega)
    · intro p o hpo
      refine hst.miss p o fun i hi => ?_
      rw [length_take] at hi
      exact hpo (a + i) (by omega) (by omega)

theorem CopiedIn.exact {len : Nat} {r : Int} {bytes : List Byte} (h : CopiedIn root a len m r bytes) :
    (r = 0 ∨ r = -1) ∧ (r = 0 ↔ ∀ x, Visits a len x → Readable m.page root x) ∧
      (r = 0 → bytes.length = len ∧ Holds m.page root a bytes) := by
  obtain ⟨⟨hh, hp⟩, ⟨rfl, rfl⟩ | ⟨rfl, hlt, hbad⟩⟩ := h
  · refine ⟨.inl rfl, ⟨fun _ x hx => ?_, fun _ => rfl⟩, fun _ => ⟨rfl, hh⟩⟩
    obtain ⟨i, hi, rfl⟩ := visits_iff.1 hx
    exact hp i hi
  · have hv : Visits a len ((a + bytes.length) / 4096) := visits_iff.2 ⟨_, hlt, rfl⟩
    exact ⟨.inr rfl, ⟨(fun h => by cases h), fun h => absurd (h _ hv) hbad⟩, fun h => by cases h⟩

theorem CopiedStr.exact {max : Nat} {r : Int} {bytes : List Byte} (h : CopiedStr root a max m r bytes) :
    (r = 0 ∨ r = -1) ∧ (r = 0 ↔ ∃ k < max, userByte m.page root (a + k) = some 0 ∧ ∀ j ≤ k, Readable m.page root ((a + j) / 4096)) ∧
      (r = 0 → ∃ s, bytes = s ++ [0] ∧ 0 ∉ s ∧ Holds m.page root a bytes) ∧ bytes.length ≤ max := by
  obtain ⟨⟨hh, hp⟩, hle, ⟨rfl, s, rfl, hs⟩ | ⟨rfl, hnul, hstop⟩⟩ := h
  · rw [length_append, length_singleton] at hle hp
    refine ⟨.inl rfl, ⟨fun _ => ⟨s.length, by omega, ?_, fun j hj => hp j (by omega)⟩, fun _ => rfl⟩, fun _ => ⟨s, rfl, hs, hh⟩, ?_⟩
    · rw [hh s.length (by simp)]
      simp
    · rwa [length_append, length_singleton]
  · refine ⟨.inr rfl, ⟨(fun h => by cases h), ?_⟩, (fun h => by cases h), hle⟩
    rintro ⟨k, hk, hbyte, hread⟩
    -- The NUL would be among the bytes that were delivered, or after a page that may be read.
    exfalso
    by_cases hin : k < bytes.length
    · rw [hh k hin] at hbyte
      exact hnul (mem_of_getElem? hbyte)
    · rcases hstop with hstop | hstop
      · omega
      · exact hstop (hread _ (by omega))

theorem user_copies_exact (A : Apart m.page root) :
    (∀ dstva src, ∃ r m', (copyout root dstva src).run machine m = .ok (r, m') ∧ m'.free = m.free ∧ (r = 0 ∨ r = -1) ∧
      (r = 0 ↔ ∀ x, Visits dstva.toNat src.length x → Writable m.page root x) ∧ (r = 0 → Stored root dstva.toNat src m m') ∧
      (r = -1 → ∃ x, Visits dstva.toNat src.length x ∧ ¬Writable m.page root x ∧
        (∀ y < x, Visits dstva.toNat src.length y → Writable m.page root y) ∧ Only root dstva.toNat (x * 4096) m m')) ∧
    (∀ srcva len, ∃ r dst, (copyin root srcva len).run machine m = .ok ((r, dst), m) ∧ (r = 0 ∨ r = -1) ∧
      (r = 0 ↔ ∀ x, Visits srcva.toNat len.toNat x → Readable m.page root x) ∧
      (r = 0 → dst.length = len.toNat ∧ Holds m.page root srcva.toNat dst)) ∧
    ∀ srcva max, ∃ r dst, (copyinstr root srcva max).run machine m = .ok ((r, dst), m) ∧ (r = 0 ∨ r = -1) ∧
      (r = 0 ↔ ∃ k < max.toNat, userByte m.page root (srcva.toNat + k) = some 0 ∧
        ∀ j ≤ k, Readable m.page root ((srcva.toNat + j) / 4096)) ∧
      (r = 0 → ∃ s, dst = s ++ [0] ∧ 0 ∉ s ∧ Holds m.page root srcva.toNat dst) ∧ dst.length ≤ max.toNat := by
  refine ⟨fun dstva src => ?_, fun srcva len => ?_, fun srcva max => ?_⟩
  · obtain ⟨r, m', hrun, k, h⟩ := (copyout_spec A).exists_ok
    exact ⟨r, m', hrun, h.stored.free, h.exact⟩
  · obtain ⟨⟨r, dst⟩, m', hrun, rfl, h⟩ := (copyin_spec srcva len A).exists_ok
    exact ⟨r, dst, hrun, h.exact⟩
  · obtain ⟨⟨r, dst⟩, m', hrun, rfl, h⟩ := (copyinstr_spec srcva max A).exists_ok
    exact ⟨r, dst, hrun, h.exact⟩

end

/-- A table that maps two pages, at 0 and at 4096. -/
def twoPages (p q : Word) : Mem where
  page a i :=
    if a = 0x80100000 ∧ i = 0 then PA2PTE 0x80101000 ||| PTE_V
    else if a = 0x80101000 ∧ i = 0 then PA2PTE 0x80102000 ||| PTE_V
    else if a = 0x80102000 ∧ i = 0 then PA2PTE p ||| (PTE_R ||| PTE_W ||| PTE_U ||| PTE_V)
    else if a = 0x80102000 ∧ i = 1 then PA2PTE q ||| (PTE_R ||| PTE_W ||| PTE_U ||| PTE_V)
    else 0
  free := []
  kend := 0x80022000

theorem copyout_aliased : ∃ m', (copyout 0x80100000 0 [1]).run machine (twoPages 0x80103000 0x80103000) = .ok (0, m') ∧
    userByte (twoPages 0x80103000 0x80103000).page 0x80100000 4096 = some 0 ∧ userByte m'.page 0x80100000 4096 = some 1 := by
  have hrun : ((copyout 0x80100000 0 [1]).run machine (twoPages 0x80103000 0x80103000)).toOption.any
      (fun r => r.1 = 0 ∧ userByte r.2.page 0x80100000 4096 = some 1) = true := by decide +kernel
  cases h : (copyout 0x80100000 0 [1]).run machine (twoPages 0x80103000 0x80103000) with
  | error e =>
    rw [h] at hrun
    cases hrun
  | ok r =>
    rw [h] at hrun
    obtain ⟨h0, h1⟩ := of_decide_eq_true hrun
    exact ⟨r.2, by rw [← h0], by decide +kernel, h1⟩

/-- The table at 0x80100000 with the pages 0x80103000 and 0x80104000. -/
def apartPages : Mem := twoPages 0x80103000 0x80104000

theorem apartPages_node (k : Nat) : node apartPages.page 0x80100000 1 k = (if k = 0 then some 0x80101000 else none) ∧
    node apartPages.page 0x80100000 2 k = if k = 0 then some 0x80102000 else none := by
  have hnext : ∀ a i b, (a = 0x80100000 ∧ b = 0x80101000 ∨ a = 0x80101000 ∧ b = 0x80102000) →
      next (apartPages.page a i) = if i = 0 then some b else none := by
    rintro a i b (⟨rfl, rfl⟩ | ⟨rfl, rfl⟩)
    · by_cases hi : i = 0
      · subst hi
        decide +kernel
      · simp [apartPages, twoPages, hi, next]
    · by_cases hi : i = 0
      · subst hi
        decide +kernel
      · simp [apartPages, twoPages, hi, next]
  have h1 : ∀ k, node apartPages.page 0x80100000 1 k = if k = 0 then some 0x80101000 else none := fun k => by
    unfold node
    rw [Radix.node_succ, Radix.node]
    by_cases hk : k / 512 = 0
    · rw [if_pos hk, bind_some, hnext _ _ _ (.inl ⟨rfl, rfl⟩)]
      simp only [show k % 512 = 0 ↔ k = 0 by omega]
    · rw [if_neg hk, bind_none, if_neg (by omega)]
  refine ⟨h1 k, ?_⟩
  have h1k := h1 (k / 512)
  unfold node at h1k ⊢
  rw [Radix.node_succ, h1k]
  by_cases hk : k / 512 = 0
  · rw [if_pos hk, bind_some, hnext _ _ _ (.inr ⟨rfl, rfl⟩)]
    simp only [show k % 512 = 0 ↔ k = 0 by omega]
  · rw [if_neg hk, bind_none, if_neg (by omega)]

theorem apartPages_user {x : Nat} {e : Word × Word} (h : userPage apartPages.page 0x80100000 x = some e) :
    x = 0 ∧ e.1 = 0x80103000 ∨ x = 1 ∧ e.1 = 0x80104000 := by
  obtain ⟨-, hv, -⟩ := userPage_eq_some.1 h
  obtain ⟨pt, hn, hvalid, hpa, -⟩ := view_some hv
  rw [(apartPages_node _).2] at hn
  split at hn
  case isFalse => cases hn
  case isTrue hx =>
    cases hn
    by_cases h0 : x % 512 = 0
    · refine .inl ⟨by omega, ?_⟩
      rw [← hpa, h0]
      decide +kernel
    · by_cases h1 : x % 512 = 1
      · refine .inr ⟨by omega, ?_⟩
        rw [← hpa, h1]
        decide +kernel
      · simp [apartPages, twoPages, h0, h1] at hvalid

theorem apart_apartPages : Apart apartPages.page 0x80100000 where
  inj x y e e' hx hy he := by
    rcases apartPages_user hx with ⟨rfl, h⟩ | ⟨rfl, h⟩ <;> rcases apartPages_user hy with ⟨rfl, h'⟩ | ⟨rfl, h'⟩ <;>
      first | rfl | (rw [h, h'] at he; exact absurd he (by decide))
  table x e hx := by
    rintro ⟨d, hd, k, hk⟩
    have hne : e.1 ≠ 0x80100000 ∧ e.1 ≠ 0x80101000 ∧ e.1 ≠ 0x80102000 := by
      rcases apartPages_user hx with ⟨-, h⟩ | ⟨-, h⟩ <;> rw [h] <;> decide
    obtain ⟨h1, h2⟩ := apartPages_node k
    unfold node at h1 h2
    obtain rfl | rfl | rfl : d = 0 ∨ d = 1 ∨ d = 2 := by omega
    · rw [Radix.node] at hk
      split at hk <;> simp_all
    · rw [h1] at hk
      split at hk <;> simp_all
    · rw [h2] at hk
      split at hk <;> simp_all
  nonzero x e hx h0 := by
    rcases apartPages_user hx with ⟨-, h⟩ | ⟨-, h⟩ <;> rw [h] at h0 <;> exact absurd h0 (by decide)

theorem user_copies_exact_two : Apart apartPages.page 0x80100000 ∧
    ∃ m', (copyout 0x80100000 4094 [1, 2, 3]).run machine apartPages = .ok (0, m') ∧ Stored 0x80100000 4094 [1, 2, 3] apartPages m' := by
  have hw : ∀ x, Visits (4094 : Word).toNat [(1 : Byte), 2, 3].length x → Writable apartPages.page 0x80100000 x := fun x hx => by
    have hx' : x = 0 ∨ x = 1 := by
      obtain ⟨-, -, hhi⟩ := hx
      have h4094 : (4094 : Word).toNat = 4094 := rfl
      simp only [length_cons, length_nil] at hhi
      omega
    rcases hx' with rfl | rfl
    · decide +kernel
    · decide +kernel
  refine ⟨apart_apartPages, ?_⟩
  obtain ⟨r, m', hrun, -, -, hiff, hst, -⟩ := (user_copies_exact apart_apartPages).1 4094 [1, 2, 3]
  have h0 := hiff.2 hw
  subst h0
  exact ⟨m', hrun, hst rfl⟩

end Xv6.Vm
