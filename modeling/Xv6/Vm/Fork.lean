import Xv6.Vm.Sizes

/-!
# The memory of a child (`uvmcopy`, `kernel/vm.c:291-323`)

After `uvmcopy` the child has the bytes and the flags of its parent, on pages of its own: what one of them writes the other does not see.
If `uvmcopy` fails, the child's table maps nothing, and the pages that were allocated for it are free again.
-/

namespace Xv6.Vm

open Prog

def Unseen (a b : Word) (K n : Nat) (m : Mem) : Prop :=
  ∀ x < K, ∀ e, view m.page a x = some e → ∀ ws, ∀ c < n, userByte (m.set e.1 ws).page b c = userByte m.page b c

structure Twins (old new : Word) (n : Nat) (m m' : Mem) : Prop where
  bytes : ∀ a < n, ∃ e e', view m.page old (a / 4096) = some e ∧ view m'.page new (a / 4096) = some e' ∧ e'.2 = e.2 ∧
    userByte m'.page new a = userByte m.page old a
  inj : ∀ x y e e', x * 4096 < n → y * 4096 < n → view m'.page new x = some e → view m'.page new y = some e' → e.1 = e'.1 → x = y
  apart : ∀ x y e e', x * 4096 < n → y * 4096 < n → view m'.page new x = some e → view m'.page old y = some e' → e.1 ≠ e'.1

section
variable {old new sz : Word} {top : AMap} {m m' : Mem} {a b : Word} {K n : Nat}

theorem unseen_of_apart (hn : n ≤ K * 4096) (h : ∀ x < K, ∀ e, view m.page a x = some e → e.1 ∉ own m.page b K) : Unseen a b K n m := by
  intro x hx e he ws c hc
  have hpage : ∀ p ∈ own m.page b K, (m.set e.1 ws).page p = m.page p := fun p hp =>
    Function.update_of_ne (ne_of_mem_of_not_mem hp (h x hx e he)) ..
  obtain ⟨hview, -⟩ := view_congr fun p hp => hpage p (.inl hp)
  unfold userByte loc
  rw [hview]
  cases hv : view m.page b (c / 4096) with
  | none => rfl
  | some e' =>
    simp only [Option.map_some]
    rw [hpage e'.1 (mem_own_of_view (by omega) hv)]

theorem pg_mul_lt {x : Nat} : x * 4096 < sz.toNat ↔ x < pg sz := by
  unfold pg
  omega

theorem le_pg_mul : sz.toNat ≤ pg sz * 4096 := by
  unfold pg
  omega

theorem uvmcopy_independent (ho : Mapped m.page old (pg sz)) (htop : ∀ x < topPage, top x = none) (Sn : Space m.page new 0 top)
    (H : Heap (own m.page new 0) m) (hdisj : ∀ p ∈ own m.page old (pg sz), p ∉ own m.page new 0 ∧ p ∉ m.free) :
    ∃ r m', (uvmcopy old new sz).run machine m = .ok (r, m') ∧ view m'.page old = view m.page old ∧
      (∀ p ∈ own m.page old (pg sz), m'.page p = m.page p) ∧
      (r = 0 ∧ Twins old new sz.toNat m m' ∧ Unseen new old (pg sz) sz.toNat m' ∧ Unseen old new (pg sz) sz.toNat m' ∨
        r = -1 ∧ (∀ x < topPage, view m'.page new x = none) ∧ ∀ p ∈ m.free, p ∈ m'.free ∨ p ∈ pages m'.page new) := by
  obtain ⟨r, m', hrun, K', S, hmv, hres⟩ := (uvmcopy_own htop ho Sn H hdisj).exists_ok
  have hpage : ∀ p ∈ own m.page old (pg sz), m'.page p = m.page p := fun p hp => hmv.frame p (hdisj p hp).1 (hdisj p hp).2
  obtain ⟨hview, hpages⟩ := view_congr fun p hp => hpage p (.inl hp)
  have hown : own m'.page old (pg sz) = own m.page old (pg sz) := by rw [own, hview, hpages, own]
  refine ⟨r, m', hrun, hview, hpage, hres.imp ?_ ?_⟩
  · rintro ⟨rfl, rfl, hcopy⟩
    -- No page of the child is the parent's.
    have hnew : ∀ p ∈ own m'.page old (pg sz), p ∉ own m'.page new (pg sz) := fun p hp => by
      rw [hown] at hp
      exact (hmv.elsewhere (hdisj p hp).1 (hdisj p hp).2).1
    refine ⟨rfl, ⟨fun c hc => ?_, fun x y e e' hx hy hvx hvy he => ?_, fun x y e e' hx hy hvx hvy he => ?_⟩, ?_, ?_⟩
    · obtain ⟨e, e', he, he', hflags, hsame⟩ := hcopy (c / 4096) (Nat.zero_le _) (pg_mul_lt.1 (by omega))
      refine ⟨e, e', he, he', hflags, ?_⟩
      rw [userByte_of_view he', userByte_of_view he, hsame]
    · exact S.target_inj (pg_mul_lt.1 hx) (pg_mul_lt.1 hy) hvx hvy he
    · exact hnew e'.1 (mem_own_of_view (pg_mul_lt.1 hy) hvy) (he ▸ mem_own_of_view (pg_mul_lt.1 hx) hvx)
    · exact unseen_of_apart le_pg_mul fun x hx e he hmem => hnew e.1 hmem (mem_own_of_view hx he)
    · exact unseen_of_apart le_pg_mul fun x hx e he => hnew e.1 (mem_own_of_view hx he)
  · rintro ⟨rfl, rfl⟩
    refine ⟨rfl, fun x hx => (S.rest x (Nat.zero_le x)).trans (htop x hx), fun p hp => ?_⟩
    rw [own_zero, own_zero] at hmv
    exact ((hmv.same p).2 (.inr hp)).symm

end

def made {α : Type} (r : Except String (Option α × Mem)) : Option (α × Mem) :=
  match r with
  | .ok (some a, m) => some (a, m)
  | _ => none

theorem made_eq_some {α : Type} {r : Except String (Option α × Mem)} {a : α} {m : Mem} (h : made r = some (a, m)) : r = .ok (some a, m) := by
  unfold made at h
  split at h
  · cases h
    rfl
  · cases h

/-- The first process and a table for its child, in a memory with 24 pages. -/
def born : Option (Proc × Word × Mem) := do
  let (p, m) ← made ((userinit 0x80007000 [0x17, 0x05]).run machine smallMem)
  let (new, m) ← made ((procPagetable 0x80007000 p.trapframe).run machine m)
  return (p, new, m)

theorem uvmcopy_independent_small : ∃ p new m m', born = some (p, new, m) ∧ p.sz = 4096 ∧
    (uvmcopy p.pagetable new p.sz).run machine m = .ok (0, m') ∧ Twins p.pagetable new p.sz.toNat m m' ∧
    Unseen new p.pagetable (pg p.sz) p.sz.toNat m' := by
  have hrun : born.any (fun b => b.1.sz = 4096 ∧
      ((uvmcopy b.1.pagetable b.2.1 b.1.sz).run machine b.2.2).toOption.any fun r => r.1 = 0) = true := by decide +kernel
  obtain ⟨⟨p, new, m⟩, hborn, hb⟩ := (Option.any_eq_true _ _).1 hrun
  obtain ⟨hsz, hok⟩ := of_decide_eq_true hb
  obtain ⟨⟨p', m1⟩, hinit, hborn'⟩ := Option.bind_eq_some_iff.1 hborn
  obtain ⟨⟨new', m2⟩, htable, heq⟩ := Option.bind_eq_some_iff.1 hborn'
  obtain ⟨rfl, rfl, rfl⟩ : p' = p ∧ new' = new ∧ m2 = m := by simpa using heq
  have H0 := smallMem_heap
  obtain ⟨R, hmv⟩ := (userinit_own (X := fun _ => True) H0).ok (made_eq_some hinit) p' rfl
  have H1 := hmv.heap H0
  obtain ⟨Sn, hmv'⟩ := (procPagetable_own (X := fun _ => True) (H1.subset (Set.empty_subset _))).ok (made_eq_some htable)
  have hfree : ∀ q ∈ foot m1.page p', q ∉ (∅ : Set Word) ∧ q ∉ m1.free := fun q hq => ⟨Set.notMem_empty q, H1.fresh q hq⟩
  obtain ⟨R', hfoot, -, -⟩ := R.frame hmv' hfree
  obtain ⟨r, m', hcopy, -, -, hres⟩ := uvmcopy_independent R'.space.user (fun x hx => procTop_low hx) Sn
    (hmv'.heap (H1.subset (Set.empty_subset _))) fun q hq => by
      have hq' : q ∈ foot m1.page p' := hfoot ▸ .inr hq
      exact hmv'.elsewhere (hfree q hq').1 (hfree q hq').2
  rw [hcopy] at hok
  have hr : r = 0 := of_decide_eq_true hok
  subst hr
  rcases hres with ⟨-, ht, hu, -⟩ | ⟨h, -⟩
  · exact ⟨p', new', m2, m', hborn, hsz, hcopy, ht, hu⟩
  · cases h

end Xv6.Vm
