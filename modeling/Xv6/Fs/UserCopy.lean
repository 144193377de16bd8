import Xv6.Fs.Code

/-!
# Copies from and to user memory (`kernel/vm.c`)

`copyin` and `copyout` copy page by page and fail at the first page that is not mapped for the user, with the bytes of the pages
before it already stored.
-/

namespace Xv6.Fs

open List Option Nat

def PGSIZE : Nat := 4096

/-- One beyond the highest virtual address (`riscv.h`). -/
def MAXVA : Nat := 2 ^ 38

abbrev UMem := Nat → Option (Nat → UInt8)

/-- `vm.c:109`. -/
def walkaddr (u : UMem) (va : Nat) : Option (Nat → UInt8) := if va ≥ MAXVA then none else u (va / PGSIZE)

def PGROUNDDOWN (va : Nat) : Nat := va / PGSIZE * PGSIZE

def copyinFrom (u : UMem) : Nat → Nat → Nat → List UInt8 × Bool
  | 0, _, len => ([], decide (len = 0))
  | fuel + 1, srcva, len =>
    if len = 0 then ([], true)
    else
      match walkaddr u (PGROUNDDOWN srcva) with
      | none => ([], false)
      | some pg =>
        let n := min (PGSIZE - (srcva - PGROUNDDOWN srcva)) len
        let r := copyinFrom u fuel (PGROUNDDOWN srcva + PGSIZE) (len - n)
        ((range n).map (fun i => pg (srcva - PGROUNDDOWN srcva + i)) ++ r.1, r.2)

def copyin (u : UMem) (srcva len : Nat) : List UInt8 × Bool := copyinFrom u len srcva len

theorem length_copyinFrom (u : UMem) (fuel srcva len : Nat) : (copyinFrom u fuel srcva len).1.length ≤ len := by
  induction fuel generalizing srcva len with
  | zero => simp [copyinFrom]
  | succ fuel ih =>
    unfold copyinFrom
    split
    · simp
    · split
      · simp
      · have := ih (PGROUNDDOWN srcva + PGSIZE) (len - min (PGSIZE - (srcva - PGROUNDDOWN srcva)) len)
        simp only [length_append, length_map, length_range]
        omega

def userSrc (u : UMem) (src : Nat) : Src where
  copy tot m := copyin u ((src + tot) % 2 ^ 64) m
  length_le _ _ := length_copyinFrom _ _ _ _

def Readable (u : UMem) (va : Nat) : Prop := (walkaddr u (PGROUNDDOWN va)).isSome

instance (u : UMem) (va : Nat) : Decidable (Readable u va) := inferInstanceAs (Decidable (_ = true))

theorem roundDown_le (va : Nat) : PGROUNDDOWN va ≤ va ∧ va < PGROUNDDOWN va + PGSIZE := by
  unfold PGROUNDDOWN PGSIZE
  omega

theorem roundDown_next (va : Nat) : PGROUNDDOWN (PGROUNDDOWN va + PGSIZE) = PGROUNDDOWN va + PGSIZE := by
  unfold PGROUNDDOWN
  rw [← Nat.succ_mul, Nat.mul_div_cancel _ (by decide)]

theorem copyin_unreadable {u : UMem} {va m : Nat} (h : ¬Readable u va) (hm : 0 < m) : copyin u va m = ([], false) := by
  obtain ⟨k, rfl⟩ : ∃ k, m = k + 1 := ⟨m - 1, by omega⟩
  have hn : walkaddr u (PGROUNDDOWN va) = none := by simpa [Readable] using h
  simp [copyin, copyinFrom, hn]

theorem copyinFrom_zero (u : UMem) (fuel va : Nat) : copyinFrom u fuel va 0 = ([], true) := by
  cases fuel <;> simp [copyinFrom]

theorem copyinFrom_page {u : UMem} {fuel va len : Nat} (h : Readable u va) (hf : 0 < fuel)
    (hlen : va + len ≤ PGROUNDDOWN va + PGSIZE) : (copyinFrom u fuel va len).2 = true := by
  obtain ⟨k, rfl⟩ : ∃ k, fuel = k + 1 := ⟨fuel - 1, by omega⟩
  obtain ⟨pg, hpg⟩ := isSome_iff_exists.1 h
  have hle := roundDown_le va
  have hmin : min (PGSIZE - (va - PGROUNDDOWN va)) len = len := by omega
  unfold copyinFrom
  split
  · rfl
  · simp [hpg, hmin, copyinFrom_zero]

theorem copyin_readable {u : UMem} {va m : Nat} (h : Readable u va) (h' : Readable u (va + m - 1)) (hm : 0 < m)
    (hle : m ≤ PGSIZE) : (copyin u va m).2 = true := by
  have hround := roundDown_le va
  by_cases hpage : va + m ≤ PGROUNDDOWN va + PGSIZE
  · exact copyinFrom_page h hm hpage
  obtain ⟨k, rfl⟩ : ∃ k, m = k + 1 := ⟨m - 1, by omega⟩
  obtain ⟨pg, hpg⟩ := isSome_iff_exists.1 h
  -- the last byte is in the next page
  have hnext : PGROUNDDOWN (va + (k + 1) - 1) = PGROUNDDOWN va + PGSIZE := by
    unfold PGROUNDDOWN PGSIZE at *
    omega
  have hself := roundDown_next va
  have hread : Readable u (PGROUNDDOWN va + PGSIZE) := by
    have e := hself.trans hnext.symm
    unfold Readable
    rw [e]
    exact h'
  have hmin : min (PGSIZE - (va - PGROUNDDOWN va)) (k + 1) = PGSIZE - (va - PGROUNDDOWN va) := by omega
  unfold copyin copyinFrom
  simp only [add_one_ne_zero, if_false, hpg, hmin]
  exact copyinFrom_page hread (by omega) (by rw [hself]; omega)

/-- The first byte of the range cannot be read, or the last one can. -/
def Untorn (u : UMem) (va m : Nat) : Prop := ¬Readable u va ∨ Readable u (va + m - 1)

instance (u : UMem) (va m : Nat) : Decidable (Untorn u va m) := inferInstanceAs (Decidable (_ ∨ _))

theorem wholeAt_userSrc {u : UMem} {src tot m : Nat} (h : Untorn u ((src + tot) % 2 ^ 64) m) (hm : 0 < m)
    (hle : m ≤ PGSIZE) : WholeAt (userSrc u src) tot m := by
  unfold WholeAt userSrc
  dsimp only
  by_cases hr : Readable u ((src + tot) % 2 ^ 64)
  · exact .inl (copyin_readable hr (h.resolve_left fun hn => hn hr) hm hle)
  · exact .inr (by rw [copyin_unreadable hr hm])

/-! ## Copies to user memory -/

def UMem.byte (u : UMem) (va : Nat) : Option UInt8 := (u (va / PGSIZE)).map fun pg => pg (va % PGSIZE)

/-- `memmove` of `bs` to `va`, inside its page `pg`. -/
def UMem.store (u : UMem) (va : Nat) (pg : Nat → UInt8) (bs : List UInt8) : UMem :=
  Function.update u (va / PGSIZE) (some fun i => if va % PGSIZE ≤ i then bs.getD (i - va % PGSIZE) (pg i) else pg i)

def copyoutFrom (w : Nat → Bool) : Nat → UMem → Nat → List UInt8 → UMem × Bool
  | 0, u, _, src => (u, src.isEmpty)
  | fuel + 1, u, dstva, src =>
    if src = [] then (u, true)
    else
      match walkaddr u (PGROUNDDOWN dstva) with
      | none => (u, false)
      | some pg =>
        if w (dstva / PGSIZE) then
          let n := min (PGSIZE - (dstva - PGROUNDDOWN dstva)) src.length
          copyoutFrom w fuel (u.store dstva pg (src.take n)) (PGROUNDDOWN dstva + PGSIZE) (src.drop n)
        else (u, false)

def copyout (w : Nat → Bool) (u : UMem) (dstva : Nat) (src : List UInt8) : UMem × Bool := copyoutFrom w src.length u dstva src

theorem byte_store {u : UMem} {va : Nat} {pg : Nat → UInt8} {bs : List UInt8} (hpg : u (va / PGSIZE) = some pg)
    (hbs : va % PGSIZE + bs.length ≤ PGSIZE) (b : Nat) :
    (u.store va pg bs).byte b = if va ≤ b ∧ b < va + bs.length then bs[b - va]? else u.byte b := by
  have hva := div_add_mod va PGSIZE
  have hb := div_add_mod b PGSIZE
  unfold UMem.byte UMem.store
  by_cases hd : b / PGSIZE = va / PGSIZE
  · rw [hd, Function.update_self, hpg, map_some, map_some]
    rw [hd] at hb
    dsimp only
    by_cases hle : va ≤ b
    · have e : b % PGSIZE - va % PGSIZE = b - va := by omega
      rw [if_pos (show va % PGSIZE ≤ b % PGSIZE by omega), e, getD_eq_getElem?_getD]
      by_cases hlt : b < va + bs.length
      · rw [if_pos ⟨hle, hlt⟩, getElem?_eq_getElem (by omega), getD_some]
      · rw [if_neg (fun h => hlt h.2), getElem?_eq_none (by omega), getD_none]
    · rw [if_neg (show ¬va % PGSIZE ≤ b % PGSIZE by omega), if_neg fun h => hle h.1]
  · rw [Function.update_of_ne hd, if_neg]
    rintro ⟨hle, hlt⟩
    -- the bytes stored are in one page
    have h1 : PGSIZE * (va / PGSIZE) ≤ b := by omega
    have h2 : b < PGSIZE * (va / PGSIZE) + PGSIZE := by omega
    refine hd (Nat.div_eq_of_lt_le ?_ ?_)
    · rwa [Nat.mul_comm]
    · rw [mul_comm, mul_succ]
      exact h2

/-- The page `v` can be written. -/
def PageOk (w : Nat → Bool) (u : UMem) (v : Nat) : Prop := v * PGSIZE < MAXVA ∧ (u v).isSome ∧ w v = true

/-- A copy to `va` gets as far as `b`: all pages up to there can be written. -/
def Reaches (w : Nat → Bool) (u : UMem) (va b : Nat) : Prop := ∀ v, va / PGSIZE ≤ v → v ≤ b / PGSIZE → PageOk w u v

instance (w : Nat → Bool) (u : UMem) (v : Nat) : Decidable (PageOk w u v) := inferInstanceAs (Decidable (_ ∧ _))

variable {w : Nat → Bool} {u : UMem} {va b : Nat}

theorem Reaches.mono {b' : Nat} (h : Reaches w u va b) (hb : b' ≤ b) : Reaches w u va b' :=
  fun v hv hvb => h v hv (hvb.trans (Nat.div_le_div_right hb))

theorem pageOk_store {pg : Nat → UInt8} {bs : List UInt8} (hpg : u (va / PGSIZE) = some pg) (v : Nat) :
    PageOk w (u.store va pg bs) v ↔ PageOk w u v := by
  have hsome : (u.store va pg bs v).isSome = (u v).isSome := by
    unfold UMem.store
    by_cases hv : v = va / PGSIZE
    · rw [hv, Function.update_self, hpg]
      rfl
    · rw [Function.update_of_ne hv]
  unfold PageOk
  rw [hsome]

theorem reaches_page (hok : PageOk w u (va / PGSIZE)) (hb : b < PGROUNDDOWN va + PGSIZE) : Reaches w u va b := by
  intro v hv hvb
  have : b / PGSIZE ≤ va / PGSIZE := by
    unfold PGROUNDDOWN at hb
    rw [← succ_mul] at hb
    exact Nat.le_of_lt_succ (Nat.div_lt_of_lt_mul (by rwa [Nat.mul_comm]))
  rwa [show v = va / PGSIZE by omega]

theorem reaches_next (hok : PageOk w u (va / PGSIZE)) :
    Reaches w u va b ↔ Reaches w u (PGROUNDDOWN va + PGSIZE) b := by
  have hdiv : (PGROUNDDOWN va + PGSIZE) / PGSIZE = va / PGSIZE + 1 := by
    unfold PGROUNDDOWN
    rw [← Nat.succ_mul, Nat.mul_div_cancel _ (by decide)]
  unfold Reaches
  rw [hdiv]
  constructor
  · exact fun h v hv hvb => h v (by omega) hvb
  · intro h v hv hvb
    rcases eq_or_lt_of_le hv with rfl | hlt
    · exact hok
    · exact h v hlt hvb

theorem copyoutFrom_step (w : Nat → Bool) (u : UMem) (va fuel : Nat) {src : List UInt8} (hs : src ≠ []) :
    (¬PageOk w u (va / PGSIZE) ∧ copyoutFrom w (fuel + 1) u va src = (u, false)) ∨
      ∃ pg, PageOk w u (va / PGSIZE) ∧ u (va / PGSIZE) = some pg ∧
        let m := min (PGROUNDDOWN va + PGSIZE - va) src.length
        copyoutFrom w (fuel + 1) u va src =
          copyoutFrom w fuel (u.store va pg (src.take m)) (PGROUNDDOWN va + PGSIZE) (src.drop m) := by
  have hround := roundDown_le va
  have hwalk : walkaddr u (PGROUNDDOWN va) = if va / PGSIZE * PGSIZE < MAXVA then u (va / PGSIZE) else none := by
    unfold walkaddr PGROUNDDOWN
    rw [Nat.mul_div_cancel _ (by decide)]
    split
    · rw [if_neg (by omega)]
    · rw [if_pos (by omega)]
  have hm : PGSIZE - (va - PGROUNDDOWN va) = PGROUNDDOWN va + PGSIZE - va := by omega
  rw [copyoutFrom, if_neg hs, hwalk, hm]
  by_cases hlt : va / PGSIZE * PGSIZE < MAXVA
  · rw [if_pos hlt]
    cases hpg : u (va / PGSIZE) with
    | none => exact .inl ⟨fun h => by simp [PageOk, hpg] at h, rfl⟩
    | some pg =>
      by_cases hw : w (va / PGSIZE) = true
      · exact .inr ⟨pg, ⟨hlt, by rw [hpg]; rfl, hw⟩, rfl, by simp [hw]⟩
      · exact .inl ⟨fun h => hw h.2.2, by simp [hw]⟩
  · rw [if_neg hlt]
    exact .inl ⟨fun h => hlt h.1, rfl⟩

theorem copyoutFrom_spec {fuel : Nat} {src : List UInt8} (hf : src.length ≤ fuel) :
    ((copyoutFrom w fuel u va src).2 = true ↔ ∀ b, va ≤ b → b < va + src.length → Reaches w u va b) ∧
      ∀ b, ((va ≤ b ∧ b < va + src.length) ∧ Reaches w u va b → (copyoutFrom w fuel u va src).1.byte b = src[b - va]?) ∧
        (¬((va ≤ b ∧ b < va + src.length) ∧ Reaches w u va b) → (copyoutFrom w fuel u va src).1.byte b = u.byte b) := by
  induction fuel generalizing u va src with
  | zero =>
    cases length_eq_zero_iff.1 (le_zero.1 hf)
    exact ⟨⟨fun _ b h h' => by simp at h'; omega, fun _ => rfl⟩, fun b => ⟨fun h => by simp at h; omega, fun _ => rfl⟩⟩
  | succ fuel ih =>
    by_cases hs : src = []
    · subst hs
      refine ⟨⟨fun _ b h h' => by simp at h'; omega, fun _ => rfl⟩, fun b => ⟨fun h => by simp at h; omega, fun _ => rfl⟩⟩
    have hround := roundDown_le va
    have hpos := length_pos_iff.2 hs
    rcases copyoutFrom_step w u va fuel hs with ⟨hno, e⟩ | ⟨pg, hok, hpg, e⟩
    · have hnot : ∀ b, va ≤ b → ¬Reaches w u va b := fun b hb h =>
        hno (h _ (Nat.le_refl _) (Nat.div_le_div_right hb))
      rw [e]
      exact ⟨⟨nofun, fun h => absurd (h va (le_refl _) (by omega)) (hnot va (le_refl _))⟩,
        fun b => ⟨fun h => absurd h.2 (hnot b h.1.1), fun _ => rfl⟩⟩
    · have hmod : va - PGROUNDDOWN va = va % PGSIZE := by
        unfold PGROUNDDOWN
        have := div_add_mod va PGSIZE
        rw [mul_comm]
        omega
      generalize hm : min (PGROUNDDOWN va + PGSIZE - va) src.length = m at e
      have hlen : (src.take m).length = m := by
        rw [length_take]
        omega
      have hdrop : (src.drop m).length = src.length - m := length_drop
      obtain ⟨ihok, ihb⟩ := @ih (u.store va pg (src.take m)) (PGROUNDDOWN va + PGSIZE) (src.drop m) (by omega)
      -- the pages that can be written are the same after the store
      have hreach : ∀ b, Reaches w (u.store va pg (src.take m)) (PGROUNDDOWN va + PGSIZE) b ↔ Reaches w u va b := fun b =>
        (forall₃_congr fun v _ _ => pageOk_store hpg v).trans (reaches_next hok).symm
      have hin : ∀ b, b < PGROUNDDOWN va + PGSIZE → Reaches w u va b := fun b hb => reaches_page hok hb
      rw [e]
      simp only [hreach, hdrop] at ihok ihb
      constructor
      · rw [ihok]
        constructor
        · intro h b hb hlt
          by_cases hpage : b < PGROUNDDOWN va + PGSIZE
          · exact hin b hpage
          · exact h b (by omega) (by omega)
        · exact fun h b hb hlt => h b (by omega) (by omega)
      · intro b
        have hst : (u.store va pg (src.take m)).byte b = _ := byte_store hpg (by rw [hlen]; omega) b
        rw [hlen] at hst
        by_cases hnext : PGROUNDDOWN va + PGSIZE ≤ b ∧ b < PGROUNDDOWN va + PGSIZE + (src.length - m)
        · constructor
          · rintro ⟨hb, hr⟩
            rw [(ihb b).1 ⟨hnext, hr⟩, getElem?_drop, show m + (b - (PGROUNDDOWN va + PGSIZE)) = b - va by omega]
          · intro h
            rw [(ihb b).2 fun h' => h ⟨by omega, h'.2⟩, hst, if_neg (by omega)]
        · rw [(ihb b).2 fun h' => hnext h'.1, hst]
          constructor
          · rintro ⟨hb, hr⟩
            rw [if_pos (by omega), getElem?_take, if_pos (by omega)]
          · intro h
            rw [if_neg fun h' => h ⟨by omega, hin b (by omega)⟩]

theorem copyout_spec (w : Nat → Bool) (u : UMem) (va : Nat) (src : List UInt8) :
    ((copyout w u va src).2 = true ↔ ∀ b, va ≤ b → b < va + src.length → Reaches w u va b) ∧
      ∀ b, ((va ≤ b ∧ b < va + src.length) ∧ Reaches w u va b → (copyout w u va src).1.byte b = src[b - va]?) ∧
        (¬((va ≤ b ∧ b < va + src.length) ∧ Reaches w u va b) → (copyout w u va src).1.byte b = u.byte b) :=
  copyoutFrom_spec (le_refl _)

theorem byte_copyout {u' : UMem} {src : List UInt8} (h : copyout w u va src = (u', true)) (b : Nat) :
    u'.byte b = if va ≤ b ∧ b < va + src.length then src[b - va]? else u.byte b := by
  obtain ⟨hok, hb⟩ := copyout_spec w u va src
  rw [h] at hok hb
  split
  · rename_i hin
    exact (hb b).1 ⟨hin, hok.1 rfl b hin.1 hin.2⟩
  · rename_i hout
    exact (hb b).2 fun h' => hout h'.1

end Xv6.Fs
