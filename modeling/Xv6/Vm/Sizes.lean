import Xv6.Lib.Run
import Xv6.Vm.Exec

/-!
# The size of a process and its mappings agree

Processes call `sbrk`, `fork` and `exec`, in any order and with any arguments; dead ones are freed by `wait`, and other parts of the
kernel take pages from the free list and give them back. In every state, a process maps the pages of its size and nothing else below
the trapframe, to physical pages that nobody else has.
-/

namespace Xv6.Vm

open Prog List Option
open Function (update update_self update_of_ne)

structure Sys where
  mem : Mem
  /-- The slots of the process table that are in use. -/
  proc : Nat → Option Proc
  /-- The pages that other parts of the kernel have. -/
  held : List Word

inductive SysEv where
  | sbrk (i : Nat) (n : BitVec 32)
  | fork (i j : Nat)
  | exec (i : Nat) (path : List Byte) (file : Option (List Byte)) (argv : List (List Byte))
  /-- `wait` frees the process. -/
  | reap (i : Nat)
  | hold
  | drop (pa : Word)

/-- The memory after a call and what is done with its result. -/
def finish {α : Type} (r : Except String (α × Mem)) (f : α → Mem → Sys) : Except String Sys :=
  match r with
  | .ok (a, m) => .ok (f a m)
  | .error e => .error e

section
variable (trampoline : Word)

/-- `none` if there is no such process or slot, and an error if the kernel panics. -/
def call (s : Sys) : SysEv → Option (Except String Sys)
  | .sbrk i n => (s.proc i).map fun p => finish ((growproc p n).run machine s.mem) fun r m => ⟨m, update s.proc i (some r.2), s.held⟩
  | .fork i j => (s.proc i).bind fun p =>
    if (s.proc j).isSome then none
    else some (finish ((fork trampoline p).run machine s.mem) fun r m => ⟨m, update s.proc j r, s.held⟩)
  | .exec i path file argv => (s.proc i).map fun p =>
    finish ((exec trampoline p path file argv).run machine s.mem) fun r m => ⟨m, update s.proc i (some r.2), s.held⟩
  | .reap i => (s.proc i).map fun p =>
    finish ((freeproc p.trapframe (some p.pagetable) p.sz).run machine s.mem) fun _ m => ⟨m, update s.proc i none, s.held⟩
  | .hold => some (finish (kalloc.run machine s.mem) fun r m => ⟨m, s.proc, r.toList ++ s.held⟩)
  | .drop pa => if pa ∈ s.held then some (finish ((kfree pa).run machine s.mem) fun _ m => ⟨m, s.proc, s.held.erase pa⟩) else none

def sysStep (s : Sys) (e : SysEv) : Option Sys :=
  match call trampoline s e with
  | some (.ok s') => some s'
  | _ => none

end

/-! ## Who owns which page -/

inductive Owner where
  | proc (i : Nat)
  | others
  deriving DecidableEq

/-- The pages of the process in a slot. -/
def slotFoot (page : Word → Nat → Word) : Option Proc → Set Word
  | none => ∅
  | some p => foot page p

def Sys.foot (s : Sys) : Owner → Set Word
  | .proc i => slotFoot s.mem.page (s.proc i)
  | .others => {p | p ∈ s.held}

structure SysInv (trampoline : Word) (s : Sys) : Prop where
  split : Pool.Split s.mem.free s.foot
  frames : ∀ p, (p ∈ s.mem.free ∨ ∃ o, p ∈ s.foot o) → Frame s.mem p
  kend : 0 < s.mem.kend.toNat
  runs : ∀ i p, s.proc i = some p → Runs trampoline s.mem.page p
  held : s.held.Nodup

section
variable {trampoline : Word} {s s' : Sys} {i : Nat} {p : Proc}

theorem Sys.foot_proc (h : s.proc i = some p) : s.foot (.proc i) = Vm.foot s.mem.page p := by
  rw [Sys.foot, h]
  rfl

section
variable (I : SysInv trampoline s)
include I

theorem SysInv.heap (o : Owner) : Heap (s.foot o) s.mem :=
  ⟨I.split.nodup, I.split.fresh o, fun p hp => I.frames p (hp.symm.imp_right fun h => ⟨o, h⟩), I.kend⟩

theorem SysInv.heap_proc (h : s.proc i = some p) : Heap (Vm.foot s.mem.page p) s.mem :=
  Sys.foot_proc h ▸ I.heap (.proc i)

theorem SysInv.move {o : Owner} {F' : Set Word} (hmv : Moves (s.foot o) F' s.mem s'.mem)
    (hproc : ∀ j, .proc j ≠ o → s'.proc j = s.proc j) (hheld : .others ≠ o → s'.held = s.held) (hF' : s'.foot o = F')
    (hruns : ∀ j p, o = .proc j → s'.proc j = some p → Runs trampoline s'.mem.page p) (hnodup : s'.held.Nodup) :
    SysInv trampoline s' := by
  have hframe : ∀ j p, .proc j ≠ o → s.proc j = some p →
      Runs trampoline s'.mem.page p ∧ Vm.foot s'.mem.page p = Vm.foot s.mem.page p := fun j p hj hp => by
    obtain ⟨R, hfoot, -, -⟩ := (I.runs j p hp).frame hmv fun q hq => by
      rw [← Sys.foot_proc hp] at hq
      exact ⟨I.split.disjoint _ _ hj q hq, I.split.fresh _ q hq⟩
    exact ⟨R, hfoot⟩
  have hfoot : s'.foot = update s.foot o F' := by
    funext o'
    by_cases ho : o' = o
    · rw [ho, update_self, hF']
    rw [update_of_ne ho]
    cases o' with
    | others => rw [Sys.foot, hheld ho, Sys.foot]
    | proc j =>
      rw [Sys.foot, hproc j ho, Sys.foot]
      cases hp : s.proc j with
      | none => rfl
      | some p => exact (hframe j p ho hp).2
  refine ⟨?_, fun p hp => ?_, hmv.kend.symm ▸ I.kend, fun j p hp => ?_, hnodup⟩
  · rw [hfoot]
    exact I.split.move hmv.toMove
  · rw [hfoot] at hp
    obtain ⟨ha, hk⟩ := I.frames p ((Pool.Split.move_total hmv.toMove).1 hp)
    refine ⟨ha, ?_⟩
    rwa [Kpage, hmv.kend]
  · by_cases hj : .proc j = o
    · exact hruns j p hj.symm hp
    · rw [hproc j hj] at hp
      exact (hframe j p hj hp).1

theorem SysInv.slot {m' : Mem} {op : Option Proc}
    (hmv : Moves (s.foot (.proc i)) (slotFoot m'.page op) s.mem m') (hruns : ∀ p, op = some p → Runs trampoline m'.page p) :
    SysInv trampoline ⟨m', update s.proc i op, s.held⟩ := by
  have hself : update s.proc i op i = op := update_self ..
  refine I.move hmv (fun j hj => ?_) (fun _ => rfl) (congrArg (slotFoot m'.page) hself) (fun j p hj hp => ?_) I.held
  · exact update_of_ne (fun e => hj (congrArg Owner.proc e)) ..
  · cases hj
    exact hruns p (hself.symm.trans hp)

end

/-! ## Calls -/

variable {m : Mem} {e : Word × Word} {root va : Word} {page : Word → Nat → Word}

theorem sat_finish {α : Type} {q : V α} {Q : α → Mem → Prop} {f : α → Mem → Sys} {e : Except String Sys}
    (h : Sat machine q m Q fun _ => False) (he : finish (q.run machine m) f = e) : ∃ a m', Q a m' ∧ e = .ok (f a m') := by
  unfold Sat at h
  cases hr : q.run machine m with
  | ok r =>
    rw [hr] at h he
    exact ⟨r.1, r.2, h, he.symm⟩
  | error msg =>
    rw [hr] at h
    exact h.elim

theorem SysInv.call (I : SysInv trampoline s) {e : SysEv} {r : Except String Sys} (h : call trampoline s e = some r) :
    ∃ s', r = .ok s' ∧ SysInv trampoline s' := by
  cases e with
  | sbrk i n =>
    obtain ⟨p, hp, hr⟩ := map_eq_some_iff.1 h
    obtain ⟨a, m', hQ, rfl⟩ := sat_finish (growproc_own (I.runs i p hp) (I.heap_proc hp)) hr
    refine ⟨_, rfl, I.slot ?_ fun q hq => ?_⟩
    · rw [Sys.foot_proc hp]
      exact hQ.moves
    · cases hq
      exact hQ.runs
  | fork i j =>
    obtain ⟨p, hp, hr⟩ := bind_eq_some_iff.1 h
    split at hr
    case isTrue => cases hr
    case isFalse hj =>
      have hnone : s.proc j = none := not_isSome_iff_eq_none.1 hj
      obtain ⟨a, m', hQ, rfl⟩ := sat_finish (fork_own (I.runs i p hp) (I.heap_proc hp)) (some.inj hr)
      have hfoot : s.foot (.proc j) = ∅ := by
        rw [Sys.foot, hnone]
        rfl
      cases a with
      | none =>
        refine ⟨_, rfl, I.slot ?_ fun q hq => by cases hq⟩
        rw [hfoot]
        exact hQ
      | some np =>
        refine ⟨_, rfl, I.slot ?_ fun q hq => ?_⟩
        · rw [hfoot]
          exact hQ.2.2
        · cases hq
          exact hQ.2.1
  | exec i path file argv =>
    obtain ⟨p, hp, hr⟩ := map_eq_some_iff.1 h
    obtain ⟨a, m', hQ, rfl⟩ := sat_finish (exec_own (I.runs i p hp) (I.heap_proc hp)) hr
    refine ⟨_, rfl, I.slot ?_ fun q hq => ?_⟩
    · rw [Sys.foot_proc hp]
      exact hQ.moves
    · cases hq
      exact hQ.runs
  | reap i =>
    obtain ⟨p, hp, hr⟩ := map_eq_some_iff.1 h
    obtain ⟨a, m', hQ, rfl⟩ := sat_finish (freeproc_own (I.runs i p hp) (I.heap_proc hp)) hr
    refine ⟨_, rfl, I.slot ?_ fun q hq => by cases hq⟩
    rw [Sys.foot_proc hp]
    exact hQ
  | hold =>
    obtain ⟨a, m', hQ, rfl⟩ := sat_finish (kalloc_own (I.heap .others)) (some.inj h)
    cases a with
    | none =>
      obtain rfl : m' = s.mem := hQ
      exact ⟨_, rfl, I⟩
    | some pa =>
      obtain ⟨hpa, -, hmv, -⟩ := hQ
      refine ⟨_, rfl, I.move hmv (fun j _ => rfl) (fun h => absurd rfl h) ?_ (fun j p hj => by cases hj) ?_⟩
      · ext q
        exact mem_cons
      · exact nodup_cons.2 ⟨hpa, I.held⟩
  | drop pa =>
    rw [Vm.call] at h
    split at h
    case isFalse => cases h
    case isTrue hpa =>
      have hfoot : s.foot .others = insert pa {p | p ∈ s.held.erase pa} := by
        ext q
        rw [Sys.foot, Set.mem_insert_iff, Set.mem_setOf_eq, Set.mem_setOf_eq, I.held.mem_erase_iff]
        constructor
        · intro hq
          by_cases e : q = pa
          · exact .inl e
          · exact .inr ⟨e, hq⟩
        · rintro (rfl | ⟨-, hq⟩)
          · exact hpa
          · exact hq
      have hnot : pa ∉ {p | p ∈ s.held.erase pa} := fun h => (I.held.mem_erase_iff.1 h).1 rfl
      have H := I.heap .others
      rw [hfoot] at H
      obtain ⟨a, m', ⟨hmv, -⟩, rfl⟩ := sat_finish (kfree_own H hnot) (some.inj h)
      rw [← hfoot] at hmv
      exact ⟨_, rfl, I.move hmv (fun j _ => rfl) (fun h => absurd rfl h) rfl (fun j p hj => by cases hj) (I.held.erase pa)⟩

theorem SysInv.step (I : SysInv trampoline s) {e : SysEv} (h : sysStep trampoline s e = some s') : SysInv trampoline s' := by
  unfold sysStep at h
  split at h
  case h_1 t hc =>
    obtain ⟨t', ht, I'⟩ := I.call hc
    cases ht
    cases h
    exact I'
  case h_2 => cases h

/-! ## What a process sees -/

/-- The byte at `va`, as the process reads it. -/
def peek (pagetable va : Word) : V (Option Byte) := do
  match ← lookup pagetable va with
  | none => return none
  | some (pa, _) =>
    let w ← load pa (va.toNat % 4096 / 8)
    return some ((w >>> (8 * (va.toNat % 8))).setWidth 8)

theorem run_peek (hva : va < MAXVA) :
    (peek root va).run machine m = .ok ((view m.page root (va.toNat / 4096)).map fun e =>
      (m.page e.1 (va.toNat % 4096 / 8) >>> (8 * (va.toNat % 8))).setWidth 8, m) := by
  refine Sat.run_eq ?_
  rw [peek, sat_bind, sat_lookup hva]
  cases view m.page root (va.toNat / 4096) with
  | none | some e => exact ⟨rfl, rfl⟩

/-- The mappings of the processes and their sizes agree. -/
structure Agrees (trampoline : Word) (s : Sys) : Prop where
  /-- Below the trapframe, a process maps the pages of its size. -/
  mapped : ∀ i p, s.proc i = some p → ∀ va < TRAPFRAME,
    ((∃ r, (lookup p.pagetable va).run machine s.mem = .ok (some r, s.mem)) ↔ va < PGROUNDUP p.sz)
  own : ∀ i j p q, s.proc i = some p → s.proc j = some q → ∀ va < TRAPFRAME, ∀ vb < TRAPFRAME, ∀ pa f f',
    (lookup p.pagetable va).run machine s.mem = .ok (some (pa, f), s.mem) →
    (lookup q.pagetable vb).run machine s.mem = .ok (some (pa, f'), s.mem) →
    i = j ∧ va.toNat / 4096 = vb.toNat / 4096 ∧ pa ∉ s.mem.free
  /-- No call panics. -/
  safe : ∀ e msg, call trampoline s e ≠ some (.error msg)
  /-- `sbrk` keeps the bytes below the old and the new size. -/
  kept : ∀ i n p s', s.proc i = some p → sysStep trampoline s (.sbrk i n) = some s' → ∃ p', s'.proc i = some p' ∧
    ∀ va, va < p.sz → va < p'.sz → ∃ b, (peek p.pagetable va).run machine s.mem = .ok (some b, s.mem) ∧
      (peek p'.pagetable va).run machine s'.mem = .ok (some b, s'.mem)

theorem lt_MAXVA_of_lt (h : va < TRAPFRAME) : va < MAXVA :=
  BitVec.lt_trans h (by decide)

theorem view_of_lookup {r : Word × Word} (hva : va < TRAPFRAME)
    (h : (lookup root va).run machine m = .ok (some r, m)) : view m.page root (va.toNat / 4096) = some r := by
  rw [run_lookup (lt_MAXVA_of_lt hva)] at h
  exact congrArg Prod.fst (Except.ok.inj h)

theorem page_lt_topPage (h : va < TRAPFRAME) : va.toNat / 4096 < topPage := by
  have hlt : va.toNat < topPage * 4096 := toNat_TRAPFRAME ▸ h
  omega

theorem Runs.lt_pg (R : Runs trampoline page p) {n : Nat} (hn : n < topPage)
    (h : view page p.pagetable n = some e) : n < pg p.sz := by
  by_contra hge
  rw [R.space.rest n (by omega), procTop_low hn] at h
  cases h

theorem Space.view_ne {K : Nat} {top : AMap} (S : Space page root K top) {x y : Nat}
    {e' : Word × Word} (hxy : x < y) (hy : y < K) (he : view page root x = some e) (he' : view page root y = some e') : e.1 ≠ e'.1 := by
  have hsplit := AMap.targets_append (view page root) 0 x (K - x - 1 + 1)
  have hnd := S.nodup
  rw [show x + (K - x - 1 + 1) = K by omega, Nat.zero_add, AMap.targets_succ he] at hsplit
  rw [hsplit] at hnd
  have hnot := (nodup_cons.1 (nodup_append'.1 hnd).2.1).1
  exact fun h => hnot (h ▸ AMap.mem_targets.2 ⟨y, e', hxy, by omega, he', rfl⟩)

theorem Space.view_inj {K : Nat} {top : AMap} (S : Space page root K top) {x y : Nat}
    {e' : Word × Word} (hx : x < K) (hy : y < K) (he : view page root x = some e) (he' : view page root y = some e') (heq : e.1 = e'.1) :
    x = y := by
  rcases Nat.lt_trichotomy x y with h | h | h
  · exact absurd heq (S.view_ne h hy he he')
  · exact h
  · exact absurd heq.symm (S.view_ne h hx he' he)

theorem Runs.lt_MAXVA (R : Runs trampoline m.page p) (H : Heap (Vm.foot m.page p) m) (hva : va < p.sz) :
    va < MAXVA ∧ va.toNat / 4096 < pg p.sz := by
  have hK := R.space.size_le (H.subset own_subset_foot)
  have hlt : va.toNat < p.sz.toNat := hva
  have hsz := (toNat_size hK).2
  refine ⟨?_, ?_⟩
  · change va.toNat < 2 ^ 38
    omega
  · unfold pg
    omega

theorem SysInv.agrees (I : SysInv trampoline s) : Agrees trampoline s where
  mapped i p hp va hva := by
    have R := I.runs i p hp
    have hK := R.space.size_le ((I.heap_proc hp).subset own_subset_foot)
    have hround : va < PGROUNDUP p.sz ↔ va.toNat / 4096 < pg p.sz := by
      rw [BitVec.lt_def, (toNat_size hK).1]
      omega
    rw [hround]
    constructor
    · rintro ⟨r, hr⟩
      exact R.lt_pg (page_lt_topPage hva) (view_of_lookup hva hr)
    · intro hlt
      obtain ⟨e, he, -⟩ := R.space.user _ hlt
      exact ⟨e, by rw [run_lookup (lt_MAXVA_of_lt hva), he]⟩
  own i j p q hp hq va hva vb hvb pa f f' ha hb := by
    have ha := view_of_lookup hva ha
    have hb := view_of_lookup hvb hb
    have hlt := (I.runs i p hp).lt_pg (page_lt_topPage hva) ha
    have hlt' := (I.runs j q hq).lt_pg (page_lt_topPage hvb) hb
    have hin : pa ∈ s.foot (.proc i) := Sys.foot_proc hp ▸ .inr (mem_own_of_view hlt ha)
    have hin' : pa ∈ s.foot (.proc j) := Sys.foot_proc hq ▸ .inr (mem_own_of_view hlt' hb)
    have hij : i = j := by
      by_contra hne
      exact I.split.disjoint (.proc i) (.proc j) (fun e => hne (Owner.proc.inj e)) pa hin hin'
    subst hij
    cases hp.symm.trans hq
    exact ⟨rfl, (I.runs i p hp).space.view_inj hlt hlt' ha hb rfl, I.split.fresh _ pa hin⟩
  safe e msg h := by
    obtain ⟨s', hs', -⟩ := I.call h
    cases hs'
  kept i n p s' hp hs := by
    unfold sysStep at hs
    split at hs
    case h_2 => cases hs
    case h_1 t hc =>
      cases hs
      have R := I.runs i p hp
      have H := I.heap_proc hp
      rw [Vm.call, hp] at hc
      obtain ⟨r, m', G, hr⟩ := sat_finish (growproc_own R H) (some.inj hc)
      cases hr
      refine ⟨r.2, update_self .., fun va hva hva' => ?_⟩
      obtain ⟨hmax, hpg⟩ := R.lt_MAXVA H hva
      obtain ⟨-, hpg'⟩ := G.runs.lt_MAXVA (G.moves.heap H) hva'
      obtain ⟨e, he, -⟩ := R.space.user _ hpg
      obtain ⟨hview, hpage⟩ := G.keeps _ (Nat.lt_min.2 ⟨hpg, hpg'⟩)
      refine ⟨_, by rw [run_peek hmax, he]; rfl, ?_⟩
      rw [run_peek hmax, G.pagetable, hview, he, map_some, hpage e he]

/-! ## Runs -/

/-- The system after `userinit`. -/
def started (p : Proc) (m : Mem) : Sys := ⟨m, update (fun _ => none) 0 (some p), []⟩

theorem SysInv.started {m0 : Mem} {initcode : List Byte} (hnodup : m0.free.Nodup) (hframes : ∀ p ∈ m0.free, Frame m0 p)
    (hkend : 0 < m0.kend.toNat) (hboot : (userinit trampoline initcode).run machine m0 = .ok (some p, m)) :
    SysInv trampoline (started p m) := by
  have H : Heap ∅ m0 := ⟨hnodup, fun p hp => hp.elim, fun p hp => hframes p (hp.resolve_left id), hkend⟩
  obtain ⟨R, hmv⟩ := (userinit_own (X := fun _ => True) H).ok hboot p rfl
  have I : SysInv trampoline ⟨m0, fun _ => none, []⟩ := by
    have hfoot : ∀ o, Sys.foot ⟨m0, fun _ => none, []⟩ o = ∅ := fun o => by
      cases o with
      | proc i => rfl
      | others =>
        ext q
        exact mem_nil_iff q
    refine ⟨⟨hnodup, fun o q hq => ?_, fun o o' _ q hq => ?_⟩, fun q hq => ?_, hkend, (fun i p hp => by cases hp), nodup_nil⟩
    · rw [hfoot] at hq
      exact hq.elim
    · rw [hfoot] at hq
      exact hq.elim
    · rcases hq with hq | ⟨o, hq⟩
      · exact hframes q hq
      · rw [hfoot] at hq
        exact hq.elim
  have hslot : Moves (Sys.foot ⟨m0, fun _ => none, []⟩ (.proc 0)) (slotFoot m.page (some p)) m0 m := hmv
  refine I.slot hslot fun q hq => ?_
  cases hq
  exact R

theorem sizes_agree {m0 m : Mem} {initcode : List Byte} {es : List SysEv} (hnodup : m0.free.Nodup) (hframes : ∀ p ∈ m0.free, Frame m0 p)
    (hkend : 0 < m0.kend.toNat) (hboot : (userinit trampoline initcode).run machine m0 = .ok (some p, m))
    (hrun : Lts.run (sysStep trampoline) (started p m) es = some s) : Agrees trampoline s :=
  (Lts.run_inv (fun _ _ _ I _ h => I.step h) (SysInv.started hnodup hframes hkend hboot)
    (Lts.along_of_forall fun _ _ _ => trivial) hrun).agrees

end

/-- A memory with 24 free pages. -/
def smallMem : Mem := ⟨fun _ _ => 0, (List.range 24).map fun i => 0x80100000 + BitVec.ofNat 64 i * PGSIZE, 0x80022000⟩

theorem smallMem_nodup : smallMem.free.Nodup := by decide +kernel

theorem smallMem_frames : ∀ p ∈ smallMem.free, Frame smallMem p := by
  intro p hp
  have hall : smallMem.free.all (fun p => p.toNat % 4096 = 0 ∧ smallMem.kend ≤ p ∧ p < PHYSTOP) = true := by decide +kernel
  have h := all_eq_true.1 hall p hp
  rw [decide_eq_true_iff] at h
  exact h

theorem smallMem_heap : Heap ∅ smallMem :=
  ⟨smallMem_nodup, fun _ h => h.elim, fun q hq => smallMem_frames q (hq.resolve_left id), by decide⟩

def smallCalls : List SysEv :=
  [.sbrk 0 5000, .sbrk 0 (-4000), .fork 0 1, .sbrk 1 (-9000), .exec 1 [] none [], .hold, .sbrk 0 100000, .sbrk 0 (-100000)]

/-- The first process and the memory after `userinit`. -/
def booted (r : Except String (Option Proc × Mem)) : Option (Proc × Mem) :=
  match r with
  | .ok (some p, m) => some (p, m)
  | _ => none

theorem booted_eq_some {r : Except String (Option Proc × Mem)} {p : Proc} {m : Mem} (h : booted r = some (p, m)) : r = .ok (some p, m) := by
  unfold booted at h
  split at h
  · cases h
    rfl
  · cases h

theorem sizes_agree_small : ∃ p m s, (userinit 0x80007000 [0x17, 0x05]).run machine smallMem = .ok (some p, m) ∧
    Lts.run (sysStep 0x80007000) (started p m) smallCalls = some s ∧ Agrees 0x80007000 s := by
  have hrun : ((booted ((userinit 0x80007000 [0x17, 0x05]).run machine smallMem)).bind fun b =>
      Lts.run (sysStep 0x80007000) (started b.1 b.2) smallCalls).isSome = true := by decide +kernel
  obtain ⟨s, hs⟩ := isSome_iff_exists.1 hrun
  obtain ⟨⟨p, m⟩, hboot, hs⟩ := bind_eq_some_iff.1 hs
  have hboot := booted_eq_some hboot
  exact ⟨p, m, s, hboot, hs, sizes_agree smallMem_nodup smallMem_frames (by decide) hboot hs⟩

/-! ## No page is lost -/

section
variable {trampoline : Word} {s s' : Sys} {i : Nat} {q : Word}

/-- The page is free or somebody has it. -/
def Sys.Has (s : Sys) (q : Word) : Prop := q ∈ s.mem.free ∨ ∃ o, q ∈ s.foot o

section
variable (I : SysInv trampoline s)
include I

theorem SysInv.has_move {o : Owner} (hmv : Moves (s.foot o) (s'.foot o) s.mem s'.mem)
    (hproc : ∀ j, .proc j ≠ o → s'.proc j = s.proc j) (hheld : .others ≠ o → s'.held = s.held) : s'.Has q ↔ s.Has q := by
  have hfoot : s'.foot = update s.foot o (s'.foot o) := by
    refine Function.eq_update_iff.2 ⟨rfl, fun o' ho => ?_⟩
    cases o' with
    | others => rw [Sys.foot, hheld ho, Sys.foot]
    | proc j =>
      rw [Sys.foot, hproc j ho, Sys.foot]
      cases hp : s.proc j with
      | none => rfl
      | some p =>
        -- the call leaves the table of another process alone
        refine ((I.runs j p hp).frame hmv fun q hq => ?_).2.1
        rw [← Sys.foot_proc hp] at hq
        exact ⟨I.split.disjoint _ _ ho q hq, I.split.fresh _ q hq⟩
  rw [Sys.Has, hfoot]
  exact Pool.Split.move_total hmv.toMove

theorem SysInv.has_call {α : Type} {f : V α} {g : α → Option Proc}
    (h : finish (f.run machine s.mem) (fun a m => ⟨m, update s.proc i (g a), s.held⟩) = .ok s')
    (hf : Sat machine f s.mem (fun a m => Moves (s.foot (.proc i)) (slotFoot m.page (g a)) s.mem m) fun _ => False) :
    s'.Has q ↔ s.Has q := by
  obtain ⟨a, m, hmv, ht⟩ := sat_finish hf h
  cases ht
  refine I.has_move (o := .proc i) ?_ (fun j hj => update_of_ne (fun e => hj (congrArg Owner.proc e)) ..) fun _ => rfl
  change Moves _ (slotFoot m.page (update s.proc i (g a) i)) _ _
  rwa [update_self]

theorem SysInv.has_step {e : SysEv} (h : sysStep trampoline s e = some s') : s'.Has q ↔ s.Has q := by
  unfold sysStep at h
  split at h
  case h_2 => cases h
  case h_1 t hc =>
    cases h
    cases e with
    | sbrk i n =>
      obtain ⟨p, hp, hr⟩ := map_eq_some_iff.1 hc
      exact I.has_call hr ((growproc_own (I.runs i p hp) (I.heap_proc hp)).mono fun _ _ h => Sys.foot_proc hp ▸ h.moves)
    | fork i j =>
      obtain ⟨p, hp, hr⟩ := bind_eq_some_iff.1 hc
      split at hr
      case isTrue => cases hr
      case isFalse hj =>
        refine I.has_call (some.inj hr) ((fork_own (I.runs i p hp) (I.heap_proc hp)).mono fun a m h => ?_)
        rw [Sys.foot, not_isSome_iff_eq_none.1 hj]
        cases a with
        | none => exact h
        | some np => exact h.2.2
    | exec i path file argv =>
      obtain ⟨p, hp, hr⟩ := map_eq_some_iff.1 hc
      exact I.has_call hr ((exec_own (I.runs i p hp) (I.heap_proc hp)).mono fun _ _ h => Sys.foot_proc hp ▸ h.moves)
    | reap i =>
      obtain ⟨p, hp, hr⟩ := map_eq_some_iff.1 hc
      exact I.has_call hr ((freeproc_own (I.runs i p hp) (I.heap_proc hp)).mono fun _ _ h => Sys.foot_proc hp ▸ h)
    | hold =>
      obtain ⟨a, m, hQ, ht⟩ := sat_finish (kalloc_own (I.heap .others)) (some.inj hc)
      cases ht
      cases a with
      | none =>
        obtain rfl : m = s.mem := hQ
        exact Iff.rfl
      | some pa =>
        refine I.has_move (o := .others) ?_ (fun _ _ => rfl) fun h => absurd rfl h
        convert hQ.2.2.1
        ext q
        exact mem_cons
    | drop pa =>
      rw [Vm.call] at hc
      split at hc
      case isFalse => cases hc
      case isTrue hpa =>
        have hfoot : s.foot .others = insert pa {q | q ∈ s.held.erase pa} := by
          ext q
          by_cases e : q = pa <;> simp [Sys.foot, I.held.mem_erase_iff, e, hpa]
        have hnot : pa ∉ {q | q ∈ s.held.erase pa} := fun h => (I.held.mem_erase_iff.1 h).1 rfl
        obtain ⟨a, m, hQ, ht⟩ := sat_finish (kfree_own (hfoot ▸ I.heap .others) hnot) (some.inj hc)
        cases ht
        exact I.has_move (o := .others) (hfoot ▸ hQ.1) (fun _ _ => rfl) fun h => absurd rfl h

end

/-- A page that the allocator has at boot is on the free list or has an owner, in every state, and it is in one place. -/
theorem pages_conserved {p : Proc} {m0 m : Mem} {initcode : List Byte} {es : List SysEv} (hnodup : m0.free.Nodup)
    (hframes : ∀ q ∈ m0.free, Frame m0 q) (hkend : 0 < m0.kend.toNat)
    (hboot : (userinit trampoline initcode).run machine m0 = .ok (some p, m))
    (hrun : Lts.run (sysStep trampoline) (started p m) es = some s) :
    (∀ q, q ∈ m0.free ↔ s.Has q) ∧ Pool.Split s.mem.free s.foot := by
  have hstart : ∀ q, q ∈ m0.free ↔ (started p m).Has q := fun q => by
    have H : Heap ∅ m0 := ⟨hnodup, fun _ h => h.elim, fun q hq => hframes q (hq.resolve_left id), hkend⟩
    have hs := ((userinit_own (X := fun _ => True) H).ok hboot p rfl).2.same q
    rw [Set.mem_empty_iff_false, false_or] at hs
    rw [← hs, Sys.Has, or_comm]
    refine or_congr_right ⟨fun h => ⟨.proc 0, h⟩, ?_⟩
    rintro ⟨(_ | _) | _, h⟩
    · exact h
    · exact h.elim
    · cases h
  obtain ⟨hhas, I⟩ := Lts.run_inv (I := fun s => (∀ q, q ∈ m0.free ↔ s.Has q) ∧ SysInv trampoline s)
    (fun _ _ _ h _ hs => ⟨fun q => (h.1 q).trans (h.2.has_step hs).symm, h.2.step hs⟩)
    ⟨hstart, .started hnodup hframes hkend hboot⟩ (Lts.along_of_forall fun _ _ _ => trivial) hrun
  exact ⟨hhas, I.split⟩

end

theorem pages_conserved_small : ∃ s : Sys, s.mem.free.length = 7 ∧ ∀ q, q ∈ smallMem.free ↔ s.Has q := by
  have hrun : ((booted ((userinit 0x80007000 [0x17, 0x05]).run machine smallMem)).bind fun b =>
      (Lts.run (sysStep 0x80007000) (started b.1 b.2) smallCalls).map fun s => s.mem.free.length) = some 7 := by decide +kernel
  obtain ⟨⟨p, m⟩, hboot, hs⟩ := bind_eq_some_iff.1 hrun
  obtain ⟨s, hs, hlen⟩ := map_eq_some_iff.1 hs
  exact ⟨s, hlen, (pages_conserved smallMem_nodup smallMem_frames (by decide) (booted_eq_some hboot) hs).1⟩

end Xv6.Vm
