import Xv6.Lib.Run
import Xv6.Vm.Map

/-!
# A page table is a finite map

A run of calls of `mappages`, `uvmunmap` and `uvmclear` on a table made by `uvmcreate` does to what `walk` reads back what the same
calls do to a finite map.
-/

namespace Xv6.Vm

open Prog

inductive Call where
  | mappages (va size pa perm : Word)
  | uvmunmap (va npages : Word) (doFree : Bool)
  | uvmclear (va : Word)

def Call.prog (root : Word) : Call → V Int
  | .mappages va size pa perm => Vm.mappages root va size pa perm
  | .uvmunmap va npages doFree => do
    Vm.uvmunmap root va npages doFree
    return 0
  | .uvmclear va => do
    Vm.uvmclear root va
    return 0

inductive Ev where
  /-- A call that returns `r`. -/
  | call (c : Call) (r : Int)
  | others (m : Mem)

def step (root : Word) (m : Mem) : Ev → Option Mem
  | .call c r =>
    match (c.prog root).run machine m with
    | .ok (r', m') => if r' = r then some m' else none
    | .error _ => none
  | .others m' => some m'

def Ok (root : Word) (m : Mem) : Ev → Prop
  | .call (.mappages va size _ _) _ => va.toNat % 4096 = 0 ∧ size.toNat % 4096 = 0 ∧ va.toNat + size.toNat ≤ 2 ^ 38
  | .call (.uvmunmap va npages doFree) _ => va.toNat % 4096 = 0 ∧ va.toNat + npages.toNat * 4096 ≤ 2 ^ 38 ∧
      (doFree = true → Owned m root (va.toNat / 4096) npages.toNat)
  | .call (.uvmclear va) _ => va < MAXVA
  | .others m' => (∀ p ∈ pages m.page root, m'.page p = m.page p) ∧ (∀ p ∈ m'.free, p ∉ pages m.page root) ∧ m'.free.Nodup ∧
      ∀ p ∈ m'.free, p.toNat % 4096 = 0

/-- What an event does to the map. -/
def AStep (a : AMap) : Ev → AMap → Prop
  | .call (.mappages va size pa perm) r, b =>
    r = 0 ∧ b = a.insert (va.toNat / 4096) (size.toNat / 4096) pa perm ∨
      r = -1 ∧ ∃ k < size.toNat / 4096, b = a.insert (va.toNat / 4096) k pa perm
  | .call (.uvmunmap va npages _) _, b => b = a.erase (va.toNat / 4096) npages.toNat
  | .call (.uvmclear va) _, b => b = a.clear (va.toNat / 4096)
  | .others _, b => b = a

def ARun (a : AMap) : List Ev → AMap → Prop
  | [], b => b = a
  | e :: es, c => ∃ b, AStep a e b ∧ ARun b es c

/-- The map is as the call expects it: its pages are not mapped, or are. -/
def Call.Pre (m : Mem) (a : AMap) : Call → Prop
  | .mappages va size _ _ => size ≠ 0 ∧ ∀ x, va.toNat / 4096 ≤ x → x < va.toNat / 4096 + size.toNat / 4096 → a x = none
  | .uvmunmap va npages doFree => ∀ x, va.toNat / 4096 ≤ x → x < va.toNat / 4096 + npages.toNat →
      ∃ e, a x = some e ∧ e.2 ≠ PTE_V ∧ (doFree = true → Kpage m e.1)
  | .uvmclear va => a (va.toNat / 4096) ≠ none

section
variable {m m' : Mem} {root : Word} {a : AMap} {e : Ev} {c : Call} {r : Int}

theorem sat_call (T : Table m root) (hok : Ok root m (.call c r)) :
    Sat machine (c.prog root) m (fun r' m' => Table m' root ∧ AStep (view m.page root) (.call c r') (view m'.page root))
      (fun _ => ¬c.Pre m (view m.page root)) := by
  cases c with
  | mappages va size pa perm =>
    obtain ⟨hva, hsize, hmax⟩ := hok
    by_cases hpos : size = 0
    · -- The code panics.
      change Sat machine (mappages root va size pa perm) m _ _
      rw [mappages, if_neg (fun h => h (mod_PGSIZE hva)), if_neg (fun h => h (mod_PGSIZE hsize)), if_pos hpos]
      exact fun h => h.1 hpos
    · have h : Sat machine (mappages root va size pa perm) m _ _ := mappages_spec T hva hsize hpos hmax
      refine sat_of_run (fun r' m' hr => ?_) fun e hr hpre => ?_
      · obtain ⟨T', -, k, hv, -, hres⟩ := h.ok hr
        refine ⟨T', hres.imp ?_ ?_⟩
        · rintro ⟨rfl, rfl⟩
          exact ⟨rfl, hv⟩
        · rintro ⟨rfl, hk, -⟩
          exact ⟨rfl, k, hk, hv⟩
      · obtain ⟨-, x, h1, h2, hx⟩ := h.error hr
        exact hx (hpre.2 x h1 h2)
  | uvmunmap va npages doFree =>
    obtain ⟨hva, hmax, hO⟩ := hok
    have h : Sat machine (uvmunmap root va npages doFree) m _ _ := uvmunmap_spec T hva hmax hO
    rw [Call.prog, sat_bind]
    exact h.mono fun _ m' hU => ⟨hU.2.table, hU.2.view⟩
  | uvmclear va =>
    have h : Sat machine (uvmclear root va) m _ _ := uvmclear_spec T hok
    rw [Call.prog, sat_bind]
    refine sat_of_run (fun _ m' hr => ?_) fun e hr hpre => hpre (h.error hr)
    obtain ⟨T', -, hv, -⟩ := h.ok hr
    exact ⟨T', hv⟩

theorem step_refines (T : Table m root) (hok : Ok root m e) (hs : step root m e = some m') :
    Table m' root ∧ AStep (view m.page root) e (view m'.page root) := by
  cases e with
  | call c r =>
    simp only [step] at hs
    split at hs
    case h_2 => cases hs
    case h_1 r' m1 hrun =>
      split at hs
      case isFalse => cases hs
      case isTrue hr =>
        cases hs
        subst hr
        exact (sat_call T hok).ok hrun
  | others m1 =>
    cases hs
    obtain ⟨hpage, hfresh, hnodup, haligned⟩ := hok
    obtain ⟨T', -, -, hv⟩ := T.frame hpage hfresh hnodup haligned
    exact ⟨T', hv⟩

theorem run_refines {es : List Ev} (T : Table m root) (hok : Lts.Along (step root) (Ok root) m es)
    (hrun : Lts.run (step root) m es = some m') : Table m' root ∧ ARun (view m.page root) es (view m'.page root) := by
  induction es generalizing m with
  | nil =>
    cases hrun
    exact ⟨T, rfl⟩
  | cons e es ih =>
    obtain ⟨m1, hs, hrun⟩ := Lts.run_cons_inv hrun
    obtain ⟨hok0, hok⟩ := (Lts.along_cons hs).1 hok
    obtain ⟨T1, ha⟩ := step_refines T hok0 hs
    obtain ⟨T', hr⟩ := ih T1 hok hrun
    exact ⟨T', _, ha, hr⟩

theorem page_table_refines {m0 : Mem} {es : List Ev} (hnodup : m0.free.Nodup) (haligned : ∀ p ∈ m0.free, p.toNat % 4096 = 0)
    (hcreate : uvmcreate.run machine m0 = .ok (some root, m)) (hok : Lts.Along (step root) (Ok root) m es)
    (hrun : Lts.run (step root) m es = some m') :
    ∃ a, ARun (fun _ => none) es a ∧ (∀ va < MAXVA, (lookup root va).run machine m' = .ok (a (va.toNat / 4096), m')) ∧
      ∀ c, Ok root m' (.call c 0) → c.Pre m' a → ∃ r m'', (c.prog root).run machine m' = .ok (r, m'') := by
  have hnew := (uvmcreate_spec (X := fun _ => True) hnodup haligned).ok hcreate
  obtain ⟨-, -, T, -, hv, -⟩ := hnew
  obtain ⟨T', hr⟩ := run_refines T hok hrun
  rw [hv] at hr
  refine ⟨_, hr, fun va hva => ?_, fun c hc hpre => ?_⟩
  · exact run_lookup hva
  · have hcall := sat_call T' hc
    cases hrun' : (c.prog root).run machine m' with
    | ok res => exact ⟨res.1, res.2, rfl⟩
    | error msg => exact absurd hpre (hcall.error hrun')

end

/-- A memory with four free pages. -/
def fourPages : Mem := ⟨fun _ _ => 0, [0x80100000, 0x80101000, 0x80102000, 0x80103000], 0x80022000⟩

def fourCalls : List Ev :=
  [.call (.mappages 0x1000 0x2000 0x80200000 (PTE_R ||| PTE_W ||| PTE_U)) 0, .call (.uvmclear 0x2000) 0, .call (.uvmunmap 0x1000 1 false) 0,
    .call (.mappages 0x40000000 0x1000 0x80202000 PTE_R) (-1)]

theorem page_table_refines_four : ∃ m m' a, uvmcreate.run machine fourPages = .ok (some 0x80100000, m) ∧
    Lts.run (step 0x80100000) m fourCalls = some m' ∧ ARun (fun _ => none) fourCalls a ∧
    ∀ va < MAXVA, (lookup 0x80100000 va).run machine m' = .ok (a (va.toNat / 4096), m') := by
  have hsome : (Lts.run (step 0x80100000) (({ fourPages with free := [0x80101000, 0x80102000, 0x80103000] }.set 0x80100000
      fun _ => filled 5).set 0x80100000 fun _ => filled 0) fourCalls).isSome = true := by decide +kernel
  obtain ⟨m', hrun⟩ := Option.isSome_iff_exists.1 hsome
  have hok : Lts.Along (step 0x80100000) (Ok 0x80100000) (({ fourPages with free := [0x80101000, 0x80102000, 0x80103000] }.set 0x80100000
      fun _ => filled 5).set 0x80100000 fun _ => filled 0) fourCalls := by
    refine Lts.along_of_forall fun e he m => ?_
    simp only [fourCalls, List.mem_cons, List.not_mem_nil, or_false] at he
    rcases he with rfl | rfl | rfl | rfl
    · exact ⟨by decide, by decide, by decide⟩
    · exact (by decide : (0x2000 : Word) < MAXVA)
    · exact ⟨by decide, by decide, fun h => by cases h⟩
    · exact ⟨by decide, by decide, by decide⟩
  have hnodup : fourPages.free.Nodup := by decide
  have haligned : ∀ p ∈ fourPages.free, p.toNat % 4096 = 0 := by simp [fourPages]
  obtain ⟨a, ha, hread, -⟩ := page_table_refines hnodup haligned rfl hok hrun
  exact ⟨_, m', a, rfl, hrun, ha, hread⟩

end Xv6.Vm
