import Xv6.Vm.Image

/-!
# `sbrk`

`sys_sbrk` adds a signed `int` to the unsigned size of the process. A request that would make the size negative wraps around, `uvmdealloc`
takes it for one that does not shrink, and the call answers as if it had been done.
-/

namespace Xv6.Vm

open Prog BitVec

/-- `sysproc.c:34`: what it returns, and the process after it. -/
def sysSbrk (p : Proc) (n : BitVec 32) : V (Word × Proc) := do
  let addr := p.sz
  let r ← growproc p n
  if r.1 < 0 then return (-1, r.2) else return (addr, r.2)

/-- The size `growproc` leaves when it succeeds. -/
def resized (sz : Word) (n : BitVec 32) : Word :=
  if n.toInt < 0 ∧ sz + n.signExtend 64 ≥ sz then sz else sz + n.signExtend 64

section
variable {m : Mem} {trampoline : Word} {p : Proc} {n : BitVec 32} {X : String → Prop}

theorem toNat_add_signExtend (sz : Word) (n : BitVec 32) :
    ((sz + n.signExtend 64).toNat : Int) = (sz.toNat + n.toInt) % 18446744073709551616 := by
  have h : ((n.signExtend 64).toNat : Int) = n.toInt % 18446744073709551616 := by
    rw [signExtend, toNat_ofInt]
    exact Int.toNat_of_nonneg (Int.emod_nonneg _ (by decide))
  calc ((sz + n.signExtend 64).toNat : Int)
      = (sz.toNat + (n.signExtend 64).toNat) % 18446744073709551616 := by
        rw [toNat_add, Int.natCast_emod, Int.natCast_add]
        rfl
    _ = (sz.toNat + n.toInt) % 18446744073709551616 := by rw [h, Int.add_emod_emod]

theorem resized_eq {sz : Word} (hsz : sz.toNat < 2 ^ 38) (n : BitVec 32) :
    ((resized sz n).toNat : Int) = if 0 ≤ sz.toNat + n.toInt then sz.toNat + n.toInt else (sz.toNat : Int) := by
  have hsum := toNat_add_signExtend sz n
  have hlo := n.le_toInt
  have hhi := n.toInt_lt
  rw [resized]
  by_cases hneg : 0 ≤ sz.toNat + n.toInt
  · rw [Int.emod_eq_of_lt hneg (by omega)] at hsum
    rw [if_pos hneg, if_neg, hsum]
    rintro ⟨h, hge⟩
    have : sz.toNat ≤ (sz + n.signExtend 64).toNat := hge
    omega
  · rw [← Int.add_emod_right, Int.emod_eq_of_lt (by omega) (by omega)] at hsum
    rw [if_neg hneg, if_pos]
    refine ⟨by omega, ?_⟩
    rw [ge_iff_le, le_def]
    omega

theorem growproc_resized (R : Runs trampoline m.page p) (H : Heap (foot m.page p) m) :
    Sat machine (growproc p n) m
      (fun r _ => 0 < n.toInt ∧ r = (-1, p) ∨ r = (0, { p with sz := resized p.sz n })) X := by
  have H0 := H.subset own_subset_foot
  obtain ⟨-, hsz⟩ := toNat_size (R.space.size_le H0)
  have hsum := toNat_add_signExtend p.sz n
  have hhi := n.toInt_lt
  rw [growproc]
  split
  case isTrue hpos =>
    have hnew : resized p.sz n = p.sz + n.signExtend 64 := if_neg fun h => absurd h.1 (by omega)
    rw [Int.emod_eq_of_lt (by omega) (by omega)] at hsum
    rw [sat_bind]
    refine (uvmalloc_own R.space H0 (fun x hx => procTop_low hx) (by decide)).mono ?_
    rintro r m' (⟨hlt, -⟩ | ⟨-, K', A⟩)
    · have : (p.sz + n.signExtend 64).toNat < p.sz.toNat := hlt
      omega
    rcases A.res with ⟨rfl, -⟩ | ⟨rfl, -⟩
    · exact .inl ⟨hpos, rfl⟩
    rw [if_neg, hnew]
    · exact .inr rfl
    · intro hz
      rw [hz] at hsum
      change (0 : Int) = _ at hsum
      omega
  case isFalse hpos =>
    split
    case isTrue hneg =>
      rw [sat_bind]
      refine (uvmdealloc_own R.space H0 fun x hx => procTop_low hx).mono ?_
      rintro r m' ⟨-, -, -, rfl⟩
      refine .inr (Prod.ext rfl (congrArg (fun sz => { p with sz := sz }) ?_))
      simp only [resized, hneg, true_and]
    case isFalse hneg =>
      have hz : n.toInt = 0 := by omega
      have hp : p.sz + n.signExtend 64 = p.sz := by
        apply eq_of_toNat_eq
        rw [hz, Int.emod_eq_of_lt (by omega) (by omega)] at hsum
        omega
      have hnew : resized p.sz n = p.sz := by rw [resized, hp, ite_self]
      rw [hnew]
      exact .inr rfl

theorem Grown.view_eq {m' : Mem} (R : Runs trampoline m.page p) (G : Grown trampoline p m p m') :
    view m'.page p.pagetable = view m.page p.pagetable := by
  funext x
  rcases Nat.lt_or_ge x (pg p.sz) with hx | hx
  · exact (G.keeps x (by omega)).1
  · exact (G.runs.space.rest x hx).trans (R.space.rest x hx).symm

def Reported (p : Proc) (n : BitVec 32) (m : Mem) (ret : Word) (p' : Proc) (m' : Mem) : Prop :=
  ret = p.sz ∧ (p'.sz.toNat : Int) = p.sz.toNat + n.toInt ∨
    ret = -1 ∧ p'.sz = p.sz ∧ view m'.page p'.pagetable = view m.page p.pagetable

theorem sbrk_reported_iff (R : Runs trampoline m.page p) (H : Heap (foot m.page p) m) :
    ∃ ret p' m', (sysSbrk p n).run machine m = .ok ((ret, p'), m') ∧
      (Reported p n m ret p' m' ↔ 0 ≤ (p.sz.toNat : Int) + n.toInt) := by
  obtain ⟨-, hsz⟩ := toNat_size (R.space.size_le (H.subset own_subset_foot))
  obtain ⟨r, m', hrun, hr⟩ := (growproc_resized R H).exists_ok
  have G := (growproc_own (n := n) (X := fun _ => False) R H).ok hrun
  have hne : p.sz ≠ -1 := by
    intro h
    rw [h] at hsz
    exact absurd hsz (by decide)
  have hnew := resized_eq (show p.sz.toNat < 2 ^ 38 by omega) n
  rcases hr with ⟨hpos, rfl⟩ | rfl
  · refine ⟨-1, p, m', run_bind_ok.2 ⟨_, _, hrun, rfl⟩, ?_⟩
    exact iff_of_true (.inr ⟨rfl, rfl, G.view_eq R⟩) (by omega)
  refine ⟨p.sz, _, m', run_bind_ok.2 ⟨_, _, hrun, rfl⟩, ?_⟩
  constructor
  · rintro (⟨-, h⟩ | ⟨h, -⟩)
    · by_contra hneg
      rw [if_neg hneg] at hnew
      change ((resized p.sz n).toNat : Int) = _ at h
      omega
    · exact absurd h hne
  · intro h
    rw [if_pos h] at hnew
    exact .inl ⟨rfl, hnew⟩

end

theorem sbrk_reported_iff_first : ∃ p m, firstProc = some (p, m) ∧ ∃ ret p' m', (sysSbrk p 5000).run machine m = .ok ((ret, p'), m') ∧
    (Reported p 5000 m ret p' m' ↔ 0 ≤ (p.sz.toNat : Int) + (5000 : BitVec 32).toInt) := by
  have hboot : firstProc.isSome = true := by decide +kernel
  obtain ⟨⟨p, m⟩, hp⟩ := Option.isSome_iff_exists.1 hboot
  obtain ⟨R, H⟩ := firstProc_runs hp
  exact ⟨p, m, hp, sbrk_reported_iff R H⟩

/-- The sizes before and after the call of the first process, and the answer. -/
def firstSbrk (n : BitVec 32) : Option (Word × Word × Word) := do
  let (p, m) ← firstProc
  let (r, _) ← ((sysSbrk p n).run machine m).toOption
  return (p.sz, r.1, r.2.sz)

theorem sbrk_below_zero : ∃ p m p' m', firstProc = some (p, m) ∧ p.sz = 4096 ∧
    (sysSbrk p (-8192)).run machine m = .ok ((4096, p'), m') ∧ p'.sz = 4096 ∧ ¬Reported p (-8192) m 4096 p' m' := by
  have h : firstSbrk (-8192) = some (4096, 4096, 4096) := by decide +kernel
  obtain ⟨⟨p, m⟩, hp, h⟩ := Option.bind_eq_some_iff.1 h
  obtain ⟨⟨⟨ret, p'⟩, m'⟩, hr, h⟩ := Option.bind_eq_some_iff.1 h
  obtain ⟨hsz, h⟩ := Prod.mk.inj (Option.some.inj h)
  obtain ⟨rfl, hsz'⟩ := Prod.mk.inj h
  refine ⟨p, m, p', m', hp, hsz, ?_, hsz', ?_⟩
  · cases hrun : (sysSbrk p (-8192)).run machine m with
    | error e =>
      rw [hrun] at hr
      cases hr
    | ok r =>
      rw [hrun] at hr
      cases hr
      rfl
  · rintro (⟨-, h⟩ | ⟨h, -⟩)
    · rw [hsz, hsz'] at h
      exact absurd h (by decide)
    · exact absurd h (by decide)

end Xv6.Vm
