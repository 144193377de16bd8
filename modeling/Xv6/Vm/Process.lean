import Xv6.Vm.Resize

/-!
# Processes and their pages

A process owns its trapframe and its address space. `growproc`, `fork` and `freeproc` keep it so, whatever `kalloc` answers, and do not
panic.
-/

namespace Xv6.Vm

open Prog Set
open Function (update update_of_ne)

/-- The pages of a process. -/
def foot (page : Word → Nat → Word) (p : Proc) : Set Word := insert p.trapframe (own page p.pagetable (pg p.sz))

structure Runs (trampoline : Word) (page : Word → Nat → Word) (p : Proc) : Prop where
  space : Space page p.pagetable (pg p.sz) (procTop trampoline p.trapframe)
  apart : p.trapframe ∉ own page p.pagetable (pg p.sz)

section
variable {m m' : Mem} {trampoline : Word} {p : Proc} {X : String → Prop}

theorem pg_zero : pg 0 = 0 := by decide

theorem own_subset_foot {page : Word → Nat → Word} : own page p.pagetable (pg p.sz) ⊆ foot page p := subset_insert _ _

theorem trapframe_mem_foot {page : Word → Nat → Word} : p.trapframe ∈ foot page p := .inl rfl

theorem Runs.frame {F F' : Set Word} (R : Runs trampoline m.page p) (h : Moves F F' m m')
    (hF : ∀ q ∈ foot m.page p, q ∉ F ∧ q ∉ m.free) :
    Runs trampoline m'.page p ∧ foot m'.page p = foot m.page p ∧ view m'.page p.pagetable = view m.page p.pagetable ∧
      ∀ q ∈ foot m.page p, m'.page q = m.page q := by
  obtain ⟨S, hv, ho, -⟩ := R.space.frame h fun q hq => hF q (.inr hq)
  refine ⟨⟨S, ho.symm ▸ R.apart⟩, by rw [foot, ho, foot], hv, fun q hq => h.frame q (hF q hq).1 (hF q hq).2⟩

theorem Runs.resize {sz : Word} (R : Runs trampoline m.page p) (H : Heap (foot m.page p) m)
    (S : Space m'.page p.pagetable (pg sz) (procTop trampoline p.trapframe))
    (hmv : Moves (own m.page p.pagetable (pg p.sz)) (own m'.page p.pagetable (pg sz)) m m') :
    Runs trampoline m'.page { p with sz := sz } ∧ Moves (foot m.page p) (foot m'.page { p with sz := sz }) m m' := by
  have hfree : p.trapframe ∉ m.free := H.fresh _ trapframe_mem_foot
  exact ⟨⟨S, (hmv.elsewhere R.apart hfree).1⟩, hmv.insert R.apart hfree⟩

theorem Runs.set_trapframe (R : Runs trampoline m.page p) (H : Heap (foot m.page p) m) (ws : Nat → Word) :
    Runs trampoline (m.set p.trapframe ws).page p ∧ Moves (foot m.page p) (foot (m.set p.trapframe ws).page p) m (m.set p.trapframe ws) := by
  have hsame : ∀ q, q ≠ p.trapframe → (m.set p.trapframe ws).page q = m.page q := fun q hq => update_of_ne hq ..
  obtain ⟨S, ho, -⟩ := R.space.other R.apart hsame
  refine ⟨⟨S, ho.symm ▸ R.apart⟩, ?_⟩
  have hfoot : foot (m.set p.trapframe ws).page p = foot m.page p := by rw [foot, ho, foot]
  rw [hfoot]
  exact H.set trapframe_mem_foot ws

/-! ## `growproc` -/

/-- The process may have another size now, and keeps what is below both sizes. -/
structure Grown (trampoline : Word) (p : Proc) (m : Mem) (p' : Proc) (m' : Mem) : Prop where
  trapframe : p'.trapframe = p.trapframe
  pagetable : p'.pagetable = p.pagetable
  runs : Runs trampoline m'.page p'
  moves : Moves (foot m.page p) (foot m'.page p') m m'
  keeps : Keeps p.pagetable (min (pg p.sz) (pg p'.sz)) m m'

theorem growproc_own {n : BitVec 32} (R : Runs trampoline m.page p) (H : Heap (foot m.page p) m) :
    Sat machine (growproc p n) m (fun r m' => Grown trampoline p m r.2 m') X := by
  have H0 := H.subset own_subset_foot
  have hsame : Grown trampoline p m p m := ⟨rfl, rfl, R, .refl H, .refl _ _ _⟩
  rw [growproc]
  split
  · rw [sat_bind]
    refine (uvmalloc_own R.space H0 (fun x hx => procTop_low hx) (by decide)).mono ?_
    rintro r m' (⟨hlt, rfl, rfl⟩ | ⟨hle, K', A⟩)
    · split
      · exact hsame
      · exact hsame
    · rcases A.res with ⟨rfl, rfl⟩ | ⟨rfl, rfl, hkeep, -⟩
      · rw [if_pos rfl]
        obtain ⟨R', hmv⟩ := R.resize H A.space A.moves
        exact ⟨rfl, rfl, R', hmv, A.keeps.le (Nat.min_le_left _ _)⟩
      · obtain ⟨R', hmv⟩ := R.resize H A.space A.moves
        split
        case isTrue hz =>
          -- The new size is 0, and so was the old one.
          have hsz : p.sz = p.sz + n.signExtend 64 := by
            rw [hz] at hle ⊢
            exact BitVec.le_zero_iff.1 hle
          rw [← hsz] at R' hmv
          exact ⟨rfl, rfl, R', hmv, hkeep.le (Nat.min_le_left _ _)⟩
        case isFalse => exact ⟨rfl, rfl, R', hmv, hkeep.le (Nat.min_le_left _ _)⟩
  · split
    · rw [sat_bind]
      refine (uvmdealloc_own R.space H0 fun x hx => procTop_low hx).mono ?_
      rintro r m' ⟨S, hmv, hkeep, -⟩
      obtain ⟨R', hmv'⟩ := R.resize H S hmv
      exact ⟨rfl, rfl, R', hmv', hkeep.le (Nat.min_le_right _ _)⟩
    · exact hsame

/-! ## `allocproc` and `freeproc` -/

theorem allocproc_own (H : Heap ∅ m) :
    Sat machine (allocproc trampoline) m
      (fun r m' => match r with
        | none => Moves ∅ ∅ m m'
        | some p => p.sz = 0 ∧ Runs trampoline m'.page p ∧ Moves ∅ (foot m'.page p) m m') X := by
  rw [allocproc, sat_bind]
  refine (kalloc_own H).mono ?_
  rintro (_ | trapframe) m1 hr
  · obtain rfl : m1 = m := hr
    exact .refl H
  obtain ⟨-, -, hmv1, -⟩ := hr
  have H1 := hmv1.heap H
  have htf : trapframe ∉ m1.free := H1.fresh _ (.inl rfl)
  dsimp only
  rw [sat_bind]
  refine (procPagetable_own (H1.subset (empty_subset _))).mono ?_
  rintro (_ | root) m2 hr
  · have hmv2 := hmv1.trans (hr.insert (notMem_empty _) htf)
    dsimp only
    rw [sat_bind, freeproc, sat_bind]
    refine (kfree_own (hmv2.heap H) (notMem_empty _)).mono ?_
    rintro _ m' ⟨hmv, -⟩
    exact hmv2.trans hmv
  · rw [← pg_zero] at hr
    obtain ⟨S, hmv2⟩ := hr
    exact ⟨rfl, ⟨S, (hmv2.elsewhere (notMem_empty _) htf).1⟩, hmv1.trans (hmv2.insert (notMem_empty _) htf)⟩

theorem freeproc_own (R : Runs trampoline m.page p) (H : Heap (foot m.page p) m) :
    Sat machine (freeproc p.trapframe (some p.pagetable) p.sz) m (fun _ m' => Moves (foot m.page p) ∅ m m') X := by
  rw [freeproc, sat_bind]
  refine (kfree_own H R.apart).mono ?_
  rintro _ m1 ⟨hmv, hsame⟩
  obtain ⟨S, ho, -⟩ := R.space.other R.apart hsame
  have H1 := hmv.heap H
  rw [← ho] at H1
  refine (procFreepagetable_own S H1).mono fun _ m' hmv' => ?_
  rw [ho] at hmv'
  exact hmv.trans hmv'

/-! ## `fork` -/

theorem copyTrapframe_own {F : Set Word} {dst src : Word} (is : List Nat) (H : Heap F m) (hdst : dst ∈ F) :
    Sat machine (copyTrapframe dst src is) m (fun _ m' => Moves F F m m' ∧ ∀ q, q ≠ dst → m'.page q = m.page q) X := by
  induction is generalizing m with
  | nil => exact ⟨.refl H, fun _ _ => rfl⟩
  | cons i is ih =>
    rw [copyTrapframe, sat_bind, sat_load, sat_bind, sat_store]
    have hmv := H.set hdst (update (m.page dst) i (m.page src i))
    refine (ih (hmv.heap H)).mono ?_
    rintro _ m' ⟨hmv', hsame⟩
    exact ⟨hmv.trans hmv', fun q hq => (hsame q hq).trans (update_of_ne hq ..)⟩

theorem fork_own (R : Runs trampoline m.page p) (H : Heap (foot m.page p) m) :
    Sat machine (fork trampoline p) m
      (fun r m' => match r with
        | none => Moves ∅ ∅ m m'
        | some np => np.sz = p.sz ∧ Runs trampoline m'.page np ∧ Moves ∅ (foot m'.page np) m m') X := by
  have H0 : Heap ∅ m := H.subset (empty_subset _)
  rw [fork, sat_bind]
  refine (allocproc_own H0).mono ?_
  rintro (_ | ⟨trapframe, pagetable, sz, name⟩) m1 hr
  · exact hr
  obtain ⟨rfl, R1, hmv1⟩ := hr
  have H1 := hmv1.heap H0
  -- The parent is not touched.
  have hdisj : ∀ q ∈ foot m.page p, q ∉ foot m1.page ⟨trapframe, pagetable, 0, name⟩ ∧ q ∉ m1.free := fun q hq =>
    hmv1.elsewhere (notMem_empty q) (H.fresh q hq)
  obtain ⟨Rp, hfoot, -, -⟩ := R.frame hmv1 fun q hq => ⟨notMem_empty q, H.fresh q hq⟩
  have htf : trapframe ∉ m1.free := H1.fresh _ trapframe_mem_foot
  have S1 : Space m1.page pagetable 0 (procTop trampoline trapframe) := pg_zero ▸ R1.space
  have hown : own m1.page pagetable 0 ⊆ foot m1.page ⟨trapframe, pagetable, 0, name⟩ := by
    rw [← pg_zero]
    exact subset_insert _ _
  dsimp only
  rw [sat_bind]
  refine (uvmcopy_own (fun x hx => procTop_low hx) Rp.space.user S1 (H1.subset hown) fun q hq => ?_).mono ?_
  · obtain ⟨h1, h2⟩ := hdisj q (hfoot ▸ .inr hq)
    exact ⟨fun h => h1 (hown h), h2⟩
  rintro r m2 ⟨K', S, hmv2, hres⟩
  rw [← pg_zero] at hmv2
  have hmv := hmv1.trans (hmv2.insert R1.apart htf)
  have H2 := hmv.heap H0
  rcases hres with ⟨rfl, rfl, -⟩ | ⟨rfl, hK'⟩
  · rw [if_neg (by decide), sat_bind]
    refine (copyTrapframe_own _ H2 (.inl rfl)).mono ?_
    rintro _ m3 ⟨hmv3, hsame⟩
    have hapart : trapframe ∉ own m2.page pagetable (pg p.sz) := (hmv2.elsewhere R1.apart htf).1
    have hmv4 := (hmv.trans hmv3).trans ((hmv3.heap H2).set (.inl rfl) (update (m3.page trapframe) 14 0))
    have hsame4 : ∀ q, q ≠ trapframe → (m3.set trapframe (update (m3.page trapframe) 14 0)).page q = m2.page q := fun q hq =>
      (update_of_ne hq ..).trans (hsame q hq)
    obtain ⟨S', ho, -⟩ := S.other hapart hsame4
    rw [sat_bind, sat_store, sat_pure]
    refine ⟨rfl, ⟨S', ho.symm ▸ hapart⟩, ?_⟩
    rw [foot]
    exact ho.symm ▸ hmv4
  · rw [if_pos (by decide), sat_bind]
    obtain rfl : K' = pg 0 := hK'.trans pg_zero.symm
    have Rn : Runs trampoline m2.page ⟨trapframe, pagetable, 0, name⟩ := ⟨S, (hmv2.elsewhere R1.apart htf).1⟩
    exact (freeproc_own Rn H2).mono fun _ m' hmv' => hmv.trans hmv'

/-! ## `userinit` -/

theorem userinit_own {initcode : List Byte} (H : Heap ∅ m) :
    Sat machine (userinit trampoline initcode) m
      (fun r m' => ∀ p, r = some p → Runs trampoline m'.page p ∧ Moves ∅ (foot m'.page p) m m') X := by
  have hnone : ∀ m' : Mem, ∀ p, (none : Option Proc) = some p → Runs trampoline m'.page p ∧ Moves ∅ (foot m'.page p) m m' := fun _ _ h => by
    cases h
  rw [userinit, sat_bind]
  refine (allocproc_own H).mono ?_
  rintro (_ | ⟨trapframe, root, sz, name⟩) m1 hr
  · exact hnone m1
  obtain ⟨rfl, R1, hmv1⟩ := hr
  have H1 := hmv1.heap H
  dsimp only
  rw [sat_bind]
  refine (kalloc_own H1).mono ?_
  rintro (_ | mem) m2 hr
  · exact hnone m2
  obtain ⟨hmem, hfree, hmv2, hsame2⟩ := hr
  have H2 := hmv2.heap H1
  dsimp only
  rw [sat_bind, sat_memset]
  have hmv3 := hmv2.trans (H2.set (.inl rfl) fun _ => filled 0)
  have hsame3 : ∀ q, q ≠ mem → (m2.set mem fun _ => filled 0).page q = m1.page q := fun q hq =>
    (update_of_ne hq ..).trans (hsame2 q hq)
  generalize m2.set mem (fun _ => filled 0) = m3 at hmv3 hsame3 ⊢
  have H3 := hmv3.heap H1
  have hroot : mem ∉ own m1.page root (pg 0) := fun h => hmem (.inr h)
  have S1 : Space m1.page root (pg 0) (procTop trampoline trapframe) := R1.space
  obtain ⟨S3, ho3, -⟩ := S1.other hroot hsame3
  have htf : trapframe ∉ insert mem (own m1.page root (pg 0)) := by
    rintro (h | h)
    · exact hmem (.inl h.symm)
    · exact R1.apart h
  have hsub : insert mem (own m3.page root (pg 0)) ⊆ insert mem (foot m1.page ⟨trapframe, root, 0, name⟩) := by
    rw [ho3]
    exact insert_subset_insert (subset_insert _ _)
  rw [← ho3] at hroot htf
  rw [sat_bind]
  refine (S3.map_page (H3.subset hsub) hroot (procTop_low (by decide)) (by decide) (by decide) (by decide)).mono ?_
  rintro r m4 ⟨-, ⟨rfl, S4, hmv4, -, hv4⟩ | ⟨rfl, -, -, -⟩⟩
  · have hone : pg 0 + 1 = pg PGSIZE := by decide
    rw [hone] at S4 hmv4
    have hfree4 : trapframe ∉ m3.free := H3.fresh _ (.inr (.inl rfl))
    have hapart := (hmv4.elsewhere htf hfree4).1
    have hset : insert trapframe (insert mem (own m3.page root (pg 0))) = insert mem (foot m1.page ⟨trapframe, root, 0, name⟩) := by
      rw [ho3]
      exact insert_comm _ _ _
    have hmv5 := (hmv1.trans hmv3).trans (hset ▸ hmv4.insert htf hfree4)
    have H5 := hmv5.heap H
    have hin : mem ∈ AMap.targets (view m4.page root) 0 (pg PGSIZE) :=
      AMap.mem_targets.2 ⟨pg 0, _, Nat.zero_le _, by decide, hv4, rfl⟩
    rw [if_neg (by decide), sat_bind, sat_write, sat_bind, sat_store, sat_bind, sat_store, sat_pure]
    rintro p hp
    cases hp
    have R4 : Runs trampoline m4.page ⟨trapframe, root, PGSIZE, name⟩ := ⟨S4, hapart⟩
    obtain ⟨S5, hmv6, -⟩ := S4.write (H5.subset (subset_insert _ _)) hin (poke (m4.page mem) 0 initcode)
    obtain ⟨R6, hmv6⟩ := R4.resize H5 S5 hmv6
    have H6 := hmv6.heap H5
    generalize m4.set mem (poke (m4.page mem) 0 initcode) = m6 at R6 hmv6 H6 ⊢
    obtain ⟨R7, hmv7⟩ := R6.set_trapframe H6 (update (m6.page trapframe) 3 0)
    have H7 := hmv7.heap H6
    generalize m6.set trapframe (update (m6.page trapframe) 3 0) = m7 at R7 hmv7 H7 ⊢
    obtain ⟨R8, hmv8⟩ := R7.set_trapframe H7 (update (m7.page trapframe) 6 PGSIZE)
    exact ⟨⟨R8.space, R8.apart⟩, ((hmv5.trans hmv6).trans hmv7).trans hmv8⟩
  · rw [if_pos (by decide)]
    exact hnone m4

end

end Xv6.Vm
