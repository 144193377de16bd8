import Xv6.Harts.Threads

/-!
# Parents and children

What is true of the process table, and of the accounts with respect to it, between any two operations: the parent of a process
is alive; a process in the middle of `fork`, `exit` or `wait` is as far as its account says; and while a zombie waits for its
parent the parent does not sleep in `wait`, or whoever holds `wait_lock` is about to wake it.
-/

open Function (update update_self update_of_ne)

namespace Xv6.Harts

open Sched (Proc ProcState freeproc wrap32)
open List St Acct Wr

variable {N n : Nat} {ok : Int → Prop} {g g' : St N} {h h' : Fin N} {t t' : Th N} {a : Acct} {l : Lk} {p q r : Nat} {w : Wr}
  {proc proc' : Nat → Proc} {x : Proc}

/-! ## Phases -/

inductive Phase where
  | unused | used | live | zombie
  deriving DecidableEq

def phase (x : Proc) : Phase :=
  match x.state with
  | .unused => .unused
  | .used => .used
  | .zombie => .zombie
  | _ => .live

@[simp] theorem phase_eq_unused : phase x = .unused ↔ x.state = .unused := by
  cases hs : x.state <;> simp [phase, hs]

@[simp] theorem phase_eq_used : phase x = .used ↔ x.state = .used := by
  cases hs : x.state <;> simp [phase, hs]

@[simp] theorem phase_eq_zombie : phase x = .zombie ↔ x.state = .zombie := by
  cases hs : x.state <;> simp [phase, hs]

theorem phase_eq_live : phase x = .live ↔ x.state = .runnable ∨ x.state = .running ∨ x.state = .sleeping := by
  cases hs : x.state <;> simp [phase, hs]

/-! ## The process tree -/

structure Tree (n : Nat) (proc : Nat → Proc) : Prop where
  init : phase (proc initproc) = .live ∧ (proc initproc).parent = none
  bound : ∀ q, phase (proc q) ≠ .unused → q < n
  unused : ∀ q, phase (proc q) = .unused → (proc q).parent = none
  live : ∀ q r, (proc q).parent = some r → phase (proc r) = .live
  parent : ∀ q, phase (proc q) = .live ∨ phase (proc q) = .zombie → q ≠ initproc → (proc q).parent ≠ none

/-! ## Jobs -/

/-- The child that `fork` is making. -/
def Job.kid : Job → Option Nat
  | .took q => some q
  | .born q => some q
  | .filled q => some q
  | .child q => some q
  | _ => .none

/-- `fork` has set up the context of `q`. -/
def Job.Newborn (q : Nat) : Job → Prop
  | .born r => r = q
  | .filled r => r = q
  | .child r => r = q
  | _ => False

theorem Job.Newborn.kid {j : Job} (hn : j.Newborn q) : j.kid = some q := by
  cases j with
  | born r | filled r | child r => exact congrArg some hn
  | _ => exact hn.elim

structure Job.Mild (j j' : Job) : Prop where
  kid : ∀ q, j'.kid = some q → j.kid = some q
  newborn : ∀ q, j'.Newborn q → j.Newborn q
  dead : j = .dead → j' = .dead

namespace Job.Mild

variable {j : Job}

theorem refl (j : Job) : j.Mild j := ⟨fun _ h => h, fun _ h => h, id⟩

theorem begin : j.Mild j.begin := by
  cases j with
  | none | closed => exact ⟨(fun _ h => by cases h), fun _ h => h.elim, fun h => by cases h⟩
  | _ => exact refl _

theorem see {me : Option Nat} {b : Bool} : j.Mild (j.see me b q x) := by
  cases j with
  | orphan d | scan r => exact ⟨(fun _ h => by cases h), fun _ h => h.elim, fun h => by cases h⟩
  | _ => exact refl _

theorem copied {b : Bool} : j.Mild (j.copied b) := by
  cases j with
  | scan r => exact ⟨(fun _ h => by cases h), fun _ h => h.elim, fun h => by cases h⟩
  | _ => exact refl _

theorem leave : a.job.Mild a.leave := by
  unfold Acct.leave
  split
  · rename_i r hr
    rw [hr]
    split
    · exact ⟨(fun _ h => by cases h), fun _ h => h.elim, fun h => by cases h⟩
    · exact ⟨(fun _ h => by cases h), fun _ h => h.elim, fun h => by cases h⟩
  · exact refl _

end Job.Mild

/-- What the job of process `p`, which holds the locks `ls`, says of the table. -/
def Job.Fine (proc : Nat → Proc) (p : Nat) (ls : List Lk) : Job → Prop
  | .none => True
  | .dead => phase (proc p) ≠ .live
  | .took q => phase (proc p) = .live ∧ phase (proc q) = .used ∧ (proc q).parent = .none ∧ .proc q ∈ ls
  | .born q => phase (proc p) = .live ∧ phase (proc q) = .used ∧ (proc q).parent = .none
  | .filled q => phase (proc p) = .live ∧ phase (proc q) = .used ∧ (proc q).parent = .none
  | .child q => phase (proc p) = .live ∧ phase (proc q) = .used ∧ (proc q).parent = some p
  | .closed => phase (proc p) = .live ∧ p ≠ initproc
  | .orphan d => phase (proc p) = .live ∧ p ≠ initproc ∧ .wait ∈ ls ∧ ∀ q ∈ d, (proc q).parent ≠ some p
  | .scan r => phase (proc p) = .live ∧ .wait ∈ ls ∧ (∀ q ∈ r.done, (proc q).parent = some p → phase (proc q) ≠ .zombie) ∧
      (r.kids = false → ∀ q ∈ r.done, (proc q).parent ≠ some p) ∧ (r.killed = true → (proc p).killed = true)
  | .doze => phase (proc p) = .live ∧ .proc p ∈ ls
  | .left r => phase (proc p) = .live ∧ (r.killed = true → (proc p).killed = true)
  | .marked _ => phase (proc p) = .live

namespace Job.Fine

variable {j : Job} {ls ls' : List Lk}

section
variable (hj : j.Fine proc p ls)
include hj

theorem live (hn : j ≠ .none) (hd : j ≠ .dead) : phase (proc p) = .live := by
  cases j with
  | none => exact absurd rfl hn
  | dead => exact absurd rfl hd
  | marked pid => exact hj
  | _ => exact hj.1

theorem used (hk : j.kid = some q) : phase (proc q) = .used := by
  cases j with
  | took r | born r | filled r | child r =>
    cases hk
    exact hj.2.1
  | _ => cases hk

theorem more (hsub : ls ⊆ ls') : j.Fine proc p ls' := by
  cases j with
  | took q => exact ⟨hj.1, hj.2.1, hj.2.2.1, hsub hj.2.2.2⟩
  | orphan d => exact ⟨hj.1, hj.2.1, hsub hj.2.2.1, hj.2.2.2⟩
  | scan r => exact ⟨hj.1, hsub hj.2.1, hj.2.2⟩
  | doze => exact ⟨hj.1, hsub hj.2⟩
  | _ => exact hj

theorem fewer (hb : ¬j.Brief) (hw : (∃ d, j = .orphan d) ∨ (∃ r, j = .scan r) → .wait ∈ ls') :
    j.Fine proc p ls' := by
  cases j with
  | took q | doze => exact absurd trivial hb
  | orphan d => exact ⟨hj.1, hj.2.1, hw (.inl ⟨d, rfl⟩), hj.2.2.2⟩
  | scan r => exact ⟨hj.1, hw (.inr ⟨r, rfl⟩), hj.2.2⟩
  | _ => exact hj

theorem mono (hlive : phase (proc p) = .live → phase (proc' p) = .live ∧ ((proc p).killed = true → (proc' p).killed = true))
    (hdead : j = .dead → phase (proc' p) ≠ .live)
    (hkid : ∀ q, j.kid = some q → phase (proc' q) = phase (proc q) ∧ (proc' q).parent = (proc q).parent)
    (hwait : .wait ∈ ls → ∀ q, (proc' q).parent = (proc q).parent ∧ (phase (proc' q) = .zombie → phase (proc q) = .zombie)) :
    j.Fine proc' p ls := by
  cases j with
  | none => trivial
  | dead => exact hdead rfl
  | took q =>
    obtain ⟨hph, hpar⟩ := hkid q rfl
    exact ⟨(hlive hj.1).1, hph.trans hj.2.1, hpar.trans hj.2.2.1, hj.2.2.2⟩
  | born q | filled q | child q =>
    obtain ⟨hph, hpar⟩ := hkid q rfl
    exact ⟨(hlive hj.1).1, hph.trans hj.2.1, hpar.trans hj.2.2⟩
  | closed | doze => exact ⟨(hlive hj.1).1, hj.2⟩
  | orphan d =>
    refine ⟨(hlive hj.1).1, hj.2.1, hj.2.2.1, fun q hq => ?_⟩
    rw [(hwait hj.2.2.1 q).1]
    exact hj.2.2.2 q hq
  | scan r =>
    obtain ⟨hl, hw, hz, hk, hkill⟩ := hj
    refine ⟨(hlive hl).1, hw, fun q hq hpar hzq => ?_, fun hkids q hq => ?_, fun hr => (hlive hl).2 (hkill hr)⟩
    · rw [(hwait hw q).1] at hpar
      exact hz q hq hpar ((hwait hw q).2 hzq)
    · rw [(hwait hw q).1]
      exact hk hkids q hq
  | left r => exact ⟨(hlive hj.1).1, fun hr => (hlive hj.1).2 (hj.2 hr)⟩
  | marked pid => exact (hlive hj).1

theorem wait_mem (hw : (∃ d, j = .orphan d) ∨ (∃ r, j = .scan r)) : .wait ∈ ls := by
  rcases hw with ⟨d, rfl⟩ | ⟨r, rfl⟩
  · exact hj.2.2.1
  · exact hj.2.1

theorem see {b : Bool} : (j.see (some p) b q (proc q)).Fine proc p ls := by
  cases j with
  | orphan d =>
    obtain ⟨hl, hp, hw, hd⟩ := hj
    refine ⟨hl, hp, hw, fun r hr => ?_⟩
    split at hr
    · exact hd r hr
    · rename_i hq
      rcases mem_cons.1 hr with rfl | hr
      · exact hq
      · exact hd r hr
  | scan r =>
    obtain ⟨hl, hw, hz, hk, hkill⟩ := hj
    refine ⟨hl, hw, fun s hs => ?_, fun hkids s hs => ?_, fun hr => ?_⟩
    · split at hs
      · exact hz s hs
      · rename_i hq
        rcases mem_cons.1 hs with rfl | hs
        · intro hpar hzs
          exact hq ⟨hpar, fun hb => hb.2 (phase_eq_zombie.1 hzs)⟩
        · exact hz s hs
    · obtain ⟨hkids, hq⟩ : r.kids = false ∧ (proc q).parent ≠ some p := by simpa using hkids
      rw [if_neg fun h => hq h.1] at hs
      rcases mem_cons.1 hs with rfl | hs
      · exact hq
      · exact hk hkids s hs
    · have : r.killed = true ∨ p = q ∧ (proc q).killed = true := by simpa using hr
      rcases this with hr | ⟨rfl, hr⟩
      · exact hkill hr
      · exact hr
  | _ => exact hj

end

end Job.Fine

structure Jobs (g : St N) : Prop where
  cpu : ∀ h, (g.acc (.cpu h)).job = .none
  fine : ∀ p, (g.acc (.proc p)).job.Fine g.proc p (g.acc (.proc p)).locks
  par : ∀ t, .wait ∈ (g.acc t).locks → ∀ q o, (g.acc t).fam.par q = some o → (g.proc q).parent = o
  kid : ∀ p p' q, (g.acc (.proc p)).job.kid = some q → (g.acc (.proc p')).job.kid = some q → p = p'
  context : ∀ p q, (g.acc (.proc p)).job.Newborn q → g.acc (.proc q) = { role := .user q }
  zombie : ∀ q, phase (g.proc q) = .zombie → (g.acc (.proc q)).job = .dead
  on : ∀ h p, g.stack h = some p → phase (g.proc p) = .live ∨ phase (g.proc p) = .zombie

theorem Jobs.change (J : Jobs g) (hon : t = g.on h) (hcpu : ∀ h, t = .cpu h → a.job = .none)
    (hfine : ∀ p, t = .proc p → a.job.Fine (g.setProc q x).proc p a.locks)
    (hpar : .wait ∈ a.locks → ∀ q' o, a.fam.par q' = some o → ((g.setProc q x).proc q').parent = o)
    (hkid : ∀ q', a.job.kid = some q' → (g.acc t).job.kid = some q' ∨ ∀ p, (g.acc (.proc p)).job.kid ≠ some q')
    (hnew : ∀ q', a.job.Newborn q' → (g.acc t).job.Newborn q' ∨ .proc q' ≠ t ∧ g.acc (.proc q') = { role := .user q' })
    (hdead : (g.acc t).job = .dead → a.job = .dead)
    (hother : ∀ p, t ≠ .proc p → (g.acc (.proc p)).job.Fine (g.setProc q x).proc p (g.acc (.proc p)).locks)
    (hparent : ∀ t' ≠ t, .wait ∈ (g.acc t').locks → x.parent = (g.proc q).parent)
    (hz : phase x = .zombie → phase (g.proc q) = .zombie ∨ t = .proc q ∧ a.job = .dead)
    (hstack : ∀ h, g.stack h = some q → phase x = .live ∨ phase x = .zombie) :
    Jobs ((g.setProc q x).put t a) := by
  have hacc : ∀ t' ≠ t, ((g.setProc q x).put t a).acc t' = g.acc t' := fun t' hne => put_acc_ne hne
  -- the jobs of the other processes, and that of `t`
  have hjob : ∀ p, t = .proc p ∧ (((g.setProc q x).put t a).acc (.proc p)).job = a.job ∨
      t ≠ .proc p ∧ (((g.setProc q x).put t a).acc (.proc p)).job = (g.acc (.proc p)).job := by
    intro p
    by_cases ht : t = .proc p
    · subst ht
      exact .inl ⟨rfl, by rw [put_acc]⟩
    · exact .inr ⟨ht, by rw [hacc _ (Ne.symm ht)]⟩
  refine ⟨fun h => ?_, fun p => ?_, fun t' hw q' o hq' => ?_, fun p p' q' hp hp' => ?_, fun p q' hp => ?_, fun q' hq' => ?_,
    fun h' p hs => ?_⟩
  · rcases eq_or_ne (.cpu h) t with rfl | ht
    · rw [put_acc]
      exact hcpu h rfl
    · rw [hacc _ ht]
      exact J.cpu h
  · rcases eq_or_ne (.proc p) t with rfl | ht
    · rw [put_acc]
      exact hfine p rfl
    · rw [hacc _ ht]
      exact hother p ht.symm
  · rcases eq_or_ne t' t with rfl | ht
    · rw [put_acc] at hw hq'
      exact hpar hw q' o hq'
    rw [hacc _ ht] at hw hq'
    rw [put_proc]
    rcases eq_or_ne q' q with rfl | hne
    · rw [setProc_proc, hparent t' ht hw]
      exact J.par t' hw q' o hq'
    · rw [setProc_proc_ne hne]
      exact J.par t' hw q' o hq'
  · rcases hjob p with ⟨ht, he⟩ | ⟨ht, he⟩ <;> rcases hjob p' with ⟨ht', he'⟩ | ⟨ht', he'⟩
    · cases ht.symm.trans ht'
      rfl
    · subst ht
      rcases hkid q' (he ▸ hp) with hk | hk
      · exact J.kid p p' q' hk (he' ▸ hp')
      · exact absurd (he' ▸ hp') (hk p')
    · subst ht'
      rcases hkid q' (he' ▸ hp') with hk | hk
      · exact J.kid p p' q' (he ▸ hp) hk
      · exact absurd (he ▸ hp) (hk p)
    · exact J.kid p p' q' (he ▸ hp) (he' ▸ hp')
  · -- a new process is on no hart
    have hold : .proc q' ≠ t ∧ g.acc (.proc q') = { role := .user q' } := by
      have hctx : ∀ p, (g.acc (.proc p)).job.Newborn q' → .proc q' ≠ t ∧ g.acc (.proc q') = { role := .user q' } := by
        intro p' hp'
        refine ⟨?_, J.context p' q' hp'⟩
        rintro rfl
        have hused := (J.fine p').used hp'.kid
        rcases J.on h q' (on_eq_proc.1 hon.symm) with hl | hl
        · cases hused.symm.trans hl
        · cases hused.symm.trans hl
      rcases hjob p with ⟨rfl, he⟩ | ⟨-, he⟩
      · rcases hnew q' (he ▸ hp) with hn | hn
        · exact hctx p hn
        · exact hn
      · exact hctx p (he ▸ hp)
    rw [hacc _ hold.1]
    exact hold.2
  · have hold : phase (g.proc q') = .zombie ∨ t = .proc q' ∧ a.job = .dead := by
      rcases eq_or_ne q' q with rfl | hne
      · rw [put_proc, setProc_proc] at hq'
        exact hz hq'
      · rw [put_proc, setProc_proc_ne hne] at hq'
        exact .inl hq'
    rcases hjob q' with ⟨rfl, he⟩ | ⟨ht, he⟩
    · rw [he]
      rcases hold with hold | ⟨-, hd⟩
      · exact hdead (J.zombie q' hold)
      · exact hd
    · rw [he]
      rcases hold with hold | ⟨ht', -⟩
      · exact J.zombie q' hold
      · exact absurd ht' ht
  · rcases eq_or_ne p q with rfl | hne
    · rw [put_proc, setProc_proc]
      exact hstack h' hs
    · rw [put_proc, setProc_proc_ne hne]
      exact J.on h' p hs

theorem Jobs.move (J : Jobs g) (hon : t = g.on h) (hcpu : ∀ h, t = .cpu h → a.job = .none)
    (hfine : ∀ p, t = .proc p → a.job.Fine g.proc p a.locks)
    (hpar : .wait ∈ a.locks → ∀ q o, a.fam.par q = some o → (g.proc q).parent = o)
    (hkid : ∀ q, a.job.kid = some q → (g.acc t).job.kid = some q)
    (hnew : ∀ q, a.job.Newborn q → (g.acc t).job.Newborn q ∨ .proc q ≠ t ∧ g.acc (.proc q) = { role := .user q })
    (hdead : (g.acc t).job = .dead → a.job = .dead) : Jobs (g.put t a) := by
  have := J.change hon hcpu (by rwa [setProc_self]) (by rwa [setProc_self])
    (fun q hq => .inl (hkid q hq)) hnew hdead (fun p _ => by rw [setProc_self]; exact J.fine p) (fun _ _ _ => rfl) .inl
    fun h' hs => J.on h' 0 hs
  rwa [setProc_self] at this

structure Soft (x y : Proc) : Prop where
  phase : phase y = phase x
  parent : y.parent = x.parent
  killed : x.killed = true → y.killed = true

theorem Soft.slot (hx : Soft (g.proc q) x) (r : Nat) : Soft (g.proc r) ((g.setProc q x).proc r) := by
  rcases eq_or_ne r q with rfl | hne
  · rwa [setProc_proc]
  · rw [setProc_proc_ne hne]
    exact ⟨rfl, rfl, id⟩

theorem Job.Fine.soft {j : Job} {ls : List Lk} (hj : j.Fine g.proc p ls) (hx : Soft (g.proc q) x) : j.Fine (g.setProc q x).proc p ls := by
  refine hj.mono (fun hl => ⟨(hx.slot p).phase.trans hl, (hx.slot p).killed⟩) (fun hd => ?_)
    (fun r _ => ⟨(hx.slot r).phase, (hx.slot r).parent⟩) fun _ r => ⟨(hx.slot r).parent, fun hz => (hx.slot r).phase ▸ hz⟩
  rw [hd] at hj
  rw [(hx.slot p).phase]
  exact hj

theorem Jobs.soft (J : Jobs g) (hon : t = g.on h) (hx : Soft (g.proc q) x) (hcpu : ∀ h, t = .cpu h → a.job = .none)
    (hfine : ∀ p, t = .proc p → a.job.Fine (g.setProc q x).proc p a.locks)
    (hpar : .wait ∈ a.locks → ∀ q' o, a.fam.par q' = some o → (g.proc q').parent = o)
    (hmild : (g.acc t).job.Mild a.job) : Jobs ((g.setProc q x).put t a) := by
  refine J.change hon hcpu hfine (fun hw q' o ho => ?_) (fun q' hq' => .inl (hmild.kid q' hq'))
    (fun q' hq' => .inl (hmild.newborn q' hq')) hmild.dead (fun p _ => (J.fine p).soft hx) (fun _ _ _ => hx.parent)
    (fun hz => .inl (hx.phase ▸ hz)) fun h' hs => hx.phase ▸ J.on h' q hs
  rw [(hx.slot q').parent]
  exact hpar hw q' o ho

theorem Locks.me_proc (L : Locks g) : (g.acc (.proc p)).me = some p := by rw [me, L.user]

theorem Locks.me_cpu (L : Locks g) : (g.acc (.cpu h)).me = none := by
  have := L.role (.cpu h)
  unfold me
  split
  · rename_i r hr
    exact absurd hr (this r)
  · rfl

theorem Jobs.live_of_on (J : Jobs g) (hon : g.on h = .proc p) (hj : (g.acc (.proc p)).job ≠ .dead) : phase (g.proc p) = .live :=
  (J.on h p (on_eq_proc.1 hon)).resolve_right fun hz => hj (J.zombie p hz)

theorem Act.mild {a' : Acct} (ha : Act n g a a') : a.job.Mild a'.job := by
  cases ha with
  | acquire l x =>
    change a.job.Mild (if l = .wait then a.job.begin else a.job)
    split
    · exact .begin
    · exact .refl _
  | release l =>
    change a.job.Mild (if l = .wait then a.leave else a.job)
    split
    · exact .leave
    · exact .refl _
  | see q => exact .see
  | current p | leave p | ask c => exact .refl _
  | finish p st =>
    exact .refl _
  | copyout b => exact .copied
  | ret c hj =>
    refine ⟨nofun, fun _ h => h.elim, fun hd => ?_⟩
    rcases hj with hj | ⟨pid, hj⟩ | ⟨r, hj⟩
    · cases hj.symm.trans hd
    · cases hj.symm.trans hd
    · cases hj.symm.trans hd

theorem Jobs.act (L : Locks g) (J : Jobs g) (ha : Act n g (g.acct h) a) : Jobs (g.put (g.on h) a) := by
  have hmild := ha.mild
  have same : (∀ h', g.on h = .cpu h' → a.job = .none) → (∀ p, g.on h = .proc p → a.job.Fine g.proc p a.locks) →
      (.wait ∈ a.locks → ∀ q' o, a.fam.par q' = some o → (g.proc q').parent = o) → Jobs (g.put (g.on h) a) := by
    intro hcpu hfine hpar
    exact J.move rfl hcpu hfine hpar hmild.kid (fun q hq => .inl (hmild.newborn q hq)) hmild.dead
  have hcpu : ∀ h', g.on h = .cpu h' → (g.acct h).job = .none := fun h' he => by
    rw [St.acct, he]
    exact J.cpu h'
  have hfine : ∀ p, g.on h = .proc p → (g.acct h).job.Fine g.proc p (g.acct h).locks := fun p he => by
    rw [St.acct, he]
    exact J.fine p
  have hme : ∀ p, g.on h = .proc p → (g.acct h).me = some p := fun p he => by
    rw [St.acct, he]
    exact L.me_proc
  have hpar : .wait ∈ (g.acct h).locks → ∀ q o, (g.acct h).fam.par q = some o → (g.proc q).parent = o := J.par (g.on h)
  cases ha with
  | acquire l x hm hf hx =>
    rcases eq_or_ne l .wait with rfl | hne
    · refine same (fun h' he => ?_) (fun p he => ?_) (fun _ _ _ h => by cases h)
      · refine absurd ?_ (hm rfl)
        rw [St.acct, he]
        exact L.me_cpu
      · have hlive : (g.acct h).job ≠ .dead → phase (g.proc p) = .live := fun hj => J.live_of_on he (by rwa [St.acct, he] at hj)
        have := (hfine p he).more (subset_cons_self .wait _)
        change ((g.acct h).job.begin).Fine g.proc p _
        cases hj : (g.acct h).job with
        | none =>
          refine ⟨hlive (fun h => by cases hj.symm.trans h), by simp, ?_, ?_, ?_⟩
          · exact fun q hq => by cases hq
          · exact fun _ q hq => by cases hq
          · exact fun h => by cases h
        | closed =>
          rw [hj] at this
          exact ⟨this.1, this.2, by simp, fun q hq => by cases hq⟩
        | _ =>
          rw [hj] at this
          exact this
    · have hl : (g.acct h).locks ⊆ ((g.acct h).acquire l x).locks := locks_acquire ▸ subset_cons_self l _
      have hjob : ((g.acct h).acquire l x).job = (g.acct h).job := if_neg hne
      have hfam : ((g.acct h).acquire l x).fam = (g.acct h).fam := if_neg hne
      refine same (fun h' he => hjob.trans (hcpu h' he)) (fun p he => ?_) (fun hw => ?_)
      · rw [hjob]
        exact (hfine p he).more hl
      · rw [hfam]
        rw [locks_acquire] at hw
        exact hpar ((mem_cons.1 hw).resolve_left hne.symm)
  | release l hplain hb hl hw hc =>
    rcases eq_or_ne l .wait with rfl | hne
    · obtain ⟨-, hmay⟩ := hw rfl
      refine same (fun h' he => ?_) (fun p he => ?_) (fun _ _ _ h => by cases h)
      · change (g.acct h).leave = .none
        rw [leave, hcpu h' he]
      have := hfine p he
      change (g.acct h).leave.Fine g.proc p _
      cases hj : (g.acct h).job with
      | orphan d =>
        rw [hj] at hmay
        exact hmay.elim
      | scan r =>
        rw [hj] at this
        by_cases hown : (g.acct h).Own
        · rw [leave, hj]
          simp only [if_pos hown]
          obtain ⟨p', hp', hl'⟩ := hown
          cases (hme p he).symm.trans hp'
          exact ⟨this.1, mem_locks_release hl' (fun h => by cases h)⟩
        · rw [leave, hj]
          simp only [if_neg hown]
          exact ⟨this.1, this.2.2.2.2⟩
      | _ =>
        rw [leave, hj]
        rw [hj] at this hb
        exact this.fewer hb fun hs => by rcases hs with ⟨_, hs⟩ | ⟨_, hs⟩ <;> cases hs
    · have hjob : ((g.acct h).release l).job = (g.acct h).job := if_neg hne
      have hfam : ((g.acct h).release l).fam = (g.acct h).fam := if_neg hne
      refine same (fun h' he => hjob.trans (hcpu h' he)) (fun p he => ?_) (fun hw => ?_)
      · rw [hjob]
        exact (hfine p he).fewer hb fun hj => mem_locks_release ((hfine p he).wait_mem hj) hne.symm
      · rw [hfam]
        exact hpar (locks_release_sublist.subset hw)
  | see q =>
    refine same (fun h' he => ?_) (fun p he => ?_) (fun hw q' o ho => ?_)
    · rw [job_see, hcpu h' he]
      rfl
    · rw [job_see, hme p he]
      exact (hfine p he).see
    rw [locks_see] at hw
    rw [par_see hw] at ho
    rcases eq_or_ne q' q with rfl | hne
    · rw [update_self] at ho
      exact Option.some.inj ho
    · rw [update_of_ne hne] at ho
      exact hpar hw q' o ho
  | current p hr | leave p hr | ask c => exact same hcpu hfine hpar
  | finish p st hr =>
    have hjob : ((g.acct h).release (.proc p)).job = (g.acct h).job := job_release_proc
    have hfam : ((g.acct h).release (.proc p)).fam = (g.acct h).fam := fam_release_proc
    refine same (fun h' he => hjob.trans (hcpu h' he)) (fun r he => ?_) (fun hw => ?_)
    · have := me_eq (hme r he)
      cases hr.symm.trans this
    · change ∀ q' o, ((g.acct h).release (.proc p)).fam.par q' = some o → _
      rw [hfam]
      exact hpar (locks_release_sublist.subset hw)
  | copyout b =>
    refine same (fun h' he => ?_) (fun p he => ?_) hpar
    · change (g.acct h).job.copied b = .none
      rw [hcpu h' he]
      rfl
    · have := hfine p he
      change ((g.acct h).job.copied b).Fine g.proc p (g.acct h).locks
      cases hj : (g.acct h).job with
      | _ =>
        rw [hj] at this
        exact this
  | ret hj => exact same (fun _ _ => rfl) (fun _ _ => trivial) hpar

/-! ## Writes -/

/-- The writes that change a phase or a parent. -/
def Wr.hard : Wr → Bool
  | .free => true
  | .parent _ => true
  | .publish _ => true
  | .zombie _ => true
  | _ => false

theorem Wr.Allowed.soft (L : Locks g) (hw : w.Allowed n ok (g.acct h) q) (hs : w.hard = false) : Soft (g.proc q) (w.apply (g.proc q)) := by
  have hlive : ∀ {st}, (g.acct h).In q st → st = .runnable ∨ st = .running ∨ st = .sleeping → phase (g.proc q) = .live :=
    fun hi hst => phase_eq_live.2 (by rwa [L.state hi])
  cases w with
  | free | parent _ | publish _ | zombie _ => cases hs
  | ready t =>
    refine ⟨?_, rfl, id⟩
    rcases hw with ⟨hi, -⟩ | ⟨hi, -⟩
    · exact (hlive hi (.inr (.inr rfl))).symm
    · exact (hlive hi (.inr (.inl rfl))).symm
  | sleep chan => exact ⟨(hlive hw.2.1 (.inr (.inl rfl))).symm, rfl, id⟩
  | run now => exact ⟨(hlive hw.2 (.inl rfl)).symm, rfl, id⟩
  | kill pid =>
    refine ⟨?_, rfl, fun _ => rfl⟩
    cases hs : (g.proc q).state <;> simp [phase, apply, hs]
  | setkilled => exact ⟨rfl, rfl, fun _ => rfl⟩
  | _ => exact ⟨rfl, rfl, id⟩

theorem Locks.on_of_me (L : Locks g) (hm : (g.acct h).me = some p) : g.on h = .proc p :=
  on_some (L.stack_of_user (me_eq hm))

theorem Jobs.on_of_job (J : Jobs g) (hj : (g.acct h).job ≠ .none) : ∃ p, g.on h = .proc p := by
  cases hs : g.stack h with
  | none =>
    rw [St.acct, St.on_none hs] at hj
    exact absurd (J.cpu h) hj
  | some p => exact ⟨p, on_some hs⟩

theorem Jobs.off_of_used (J : Jobs g) (hq : phase (g.proc q) = .used) (h : Fin N) : g.stack h ≠ some q := by
  intro hs
  rcases J.on h q hs with hl | hl
  · cases hq.symm.trans hl
  · cases hq.symm.trans hl

theorem Jobs.of_kid (J : Jobs g) (hk : (g.acc (.proc p)).job.kid = some q) : phase (g.proc p) = .live ∧ phase (g.proc q) = .used := by
  refine ⟨(J.fine p).live (fun hj => ?_) (fun hj => ?_), (J.fine p).used hk⟩
  · rw [hj] at hk
    cases hk
  · rw [hj] at hk
    cases hk

theorem Jobs.used_of_took (J : Jobs g) (hj : (g.acct h).job = .took q) : phase (g.proc q) = .used := by
  obtain ⟨p, he⟩ := J.on_of_job (h := h) (by simp [hj])
  exact (J.fine p).used (by rw [← he, ← St.acct, hj]; rfl)

theorem Jobs.off_of_took (J : Jobs g) (hj : (g.acct h).job = .took q) (h' : Fin N) : g.stack h' ≠ some q :=
  J.off_of_used (J.used_of_took hj) h'

theorem St.acct_eq (he : g.on h = t) : g.acct h = g.acc t := by rw [St.acct, he]

theorem Job.Fine.kid_parent {j : Job} {ls : List Lk} (hj : j.Fine proc p ls) (hk : j.kid = some q) :
    (proc q).parent = .none ∨ (proc q).parent = some p := by
  cases j with
  | took r =>
    cases hk
    exact .inl hj.2.2.1
  | born r | filled r =>
    cases hk
    exact .inl hj.2.2
  | child r =>
    cases hk
    exact .inr hj.2.2
  | _ => cases hk

theorem St.setProc_cases (g : St N) (q : Nat) (x : Proc) (r : Nat) : r = q ∧ (g.setProc q x).proc r = x ∨ r ≠ q ∧ (g.setProc q x).proc r = g.proc r := by
  rcases eq_or_ne r q with rfl | hne
  · exact .inl ⟨rfl, setProc_proc⟩
  · exact .inr ⟨hne, setProc_proc_ne hne⟩

theorem Job.Fine.other {j : Job} {ls : List Lk} (hj : j.Fine g.proc p ls)
    (hlive : p = q → phase (g.proc q) = .live → phase x = .live ∧ ((g.proc q).killed = true → x.killed = true))
    (hdead : p = q → j = .dead → phase x ≠ .live) (hkid : j.kid ≠ some q)
    (hwait : .wait ∈ ls → x.parent = (g.proc q).parent ∧ phase x ≠ .zombie) : j.Fine (g.setProc q x).proc p ls := by
  refine hj.mono (fun hl => ?_) (fun hd => ?_) (fun r hr => ?_) fun hw r => ?_
  · rcases setProc_cases g q x p with ⟨rfl, he⟩ | ⟨-, he⟩
    · rw [he]
      exact hlive rfl hl
    · rw [he]
      exact ⟨hl, id⟩
  · rcases setProc_cases g q x p with ⟨rfl, he⟩ | ⟨-, he⟩
    · rw [he]
      exact hdead rfl hd
    · rw [he]
      rw [hd] at hj
      exact hj
  · have hne : r ≠ q := fun he => hkid (he ▸ hr)
    rw [setProc_proc_ne hne]
    exact ⟨rfl, rfl⟩
  · rcases setProc_cases g q x r with ⟨rfl, he⟩ | ⟨-, he⟩
    · rw [he]
      exact ⟨(hwait hw).1, fun hz => absurd hz (hwait hw).2⟩
    · rw [he]
      exact ⟨rfl, id⟩

theorem Jobs.par_keep (J : Jobs g) (hx : x.parent = (g.proc q).parent) (hw : .wait ∈ (g.acct h).locks) {o : Option Nat}
    (ho : (g.acct h).fam.par r = some o) : ((g.setProc q x).proc r).parent = o := by
  have hr := J.par (g.on h) hw r o ho
  rcases setProc_cases g q x r with ⟨rfl, he⟩ | ⟨-, he⟩
  · rw [he, hx, hr]
  · rw [he, hr]

/-- Two accounts that differ in locks other than `wait_lock`. -/
structure Relocked (a a' : Acct) : Prop where
  job : a'.job = a.job
  fam : a'.fam = a.fam
  wait : .wait ∈ a'.locks ↔ .wait ∈ a.locks
  ask : a'.ask = a.ask

theorem Relocked.refl (a : Acct) : Relocked a a := ⟨rfl, rfl, Iff.rfl, rfl⟩

theorem relocked_swtchTo (L : Locks g) (R : Runs g) (ha : g.acct h = { role := .current p, held := [.proc p x] }) (t : Th N) :
    Relocked (g.acc t)
      (((g.put (.cpu h) { role := .current p }).put (.proc p) { g.acc (.proc p) with held := [.proc p x] }).acc t) := by
  have hs := L.stack_of_current (by rw [ha])
  have hacc : g.acc (.cpu h) = { role := .current p, held := [.proc p x] } := by rw [← St.on_none hs, ← St.acct, ha]
  rcases eq_or_ne t (.proc p) with rfl | ht
  · have hoff : (g.acc (.proc p)).held = [] := L.off _ fun h' he => R.off L hs (by rw [has, ha]; rfl) h' (on_eq_proc.1 he)
    rw [put_acc]
    exact ⟨rfl, rfl, iff_of_false (by simp [locks, Held.lk]) (by simp [locks, hoff]), rfl⟩
  · rw [put_acc_ne ht]
    rcases eq_or_ne t (.cpu h) with rfl | ht'
    · rw [put_acc, hacc]
      exact ⟨rfl, rfl, iff_of_false (by simp [locks]) (by simp [locks, Held.lk]), rfl⟩
    · rw [put_acc_ne ht']
      exact .refl _

theorem relocked_sched (L : Locks g) (R : Runs g) (hm : (g.acct h).me = some p) (hheld : (g.acct h).held = [.proc p x]) (t : Th N) :
    Relocked (g.acc t)
      (((g.put (.proc p) { g.acct h with held := [] }).put (.cpu h) { g.acc (.cpu h) with held := [.proc p x] }).acc t) := by
  have hs := L.stack_of_user (me_eq hm)
  have hacc : g.acct h = g.acc (.proc p) := by rw [St.acct, St.on_some hs]
  rcases eq_or_ne t (.cpu h) with rfl | ht
  · rw [put_acc, R.saved h p hs]
    exact ⟨rfl, rfl, iff_of_false (by simp [locks, Held.lk]) (by simp [locks]), rfl⟩
  rw [put_acc_ne ht]
  rcases eq_or_ne t (.proc p) with rfl | ht'
  · rw [put_acc, hacc]
    rw [hacc] at hheld
    exact ⟨rfl, rfl, iff_of_false (by simp [locks]) (by simp [locks, hheld, Held.lk]), rfl⟩
  · rw [put_acc_ne ht']
    exact .refl _

section
variable (L : Locks g) (J : Jobs g)
include L J

theorem Jobs.soft_write (hw : w.Allowed n ok (g.acct h) q) (hs : w.hard = false) :
    Jobs (g.wrote h q w) := by
  have hx := hw.soft L hs
  have hfine : ∀ p, g.on h = .proc p → (g.acct h).job.Fine (g.setProc q (w.apply (g.proc q))).proc p (g.acct h).locks := fun p he => by
    rw [St.acct, he]
    exact (J.fine p).soft hx
  refine J.soft rfl hx (fun h' he => ?_) (fun p he => ?_) (fun hwait q' o ho => ?_) ?_
  · have hj : (g.acct h).job = .none := by
      rw [St.acct, he]
      exact J.cpu h'
    have hme : (g.acct h).me = none := by
      rw [St.acct, he]
      exact L.me_cpu
    rw [job_acct, hj]
    cases w with
    | free | parent _ | publish _ | zombie _ => cases hs
    | dup y => cases hj.symm.trans hw
    | close => cases hme.symm.trans hw.1
    | kill pid => exact absurd hme hw.2.2.1
    | _ => rfl
  · have hF := hfine p he
    rw [job_acct, locks_acct]
    cases w with
    | free | parent _ | publish _ | zombie _ => cases hs
    | dup y =>
      rw [show (g.acct h).job = .born q from hw] at hF
      exact hF
    | close =>
      obtain ⟨hme, hq, hj⟩ := hw
      rw [St.acct, he, L.me_proc] at hme
      cases hme
      refine ⟨(hx.slot q).phase.trans (J.live_of_on he ?_), hq⟩
      rw [← he]
      exact fun hd => by cases hj.symm.trans hd
    | kill pid =>
      refine (hx.slot p).phase.trans (J.live_of_on he ?_)
      rw [← he]
      exact fun hd => by cases hw.2.2.2.symm.trans hd
    | sleep chan =>
      cases hj : (g.acct h).job with
      | doze => trivial
      | _ =>
        rw [hj] at hF
        exact hF
    | _ => exact hF
  · rw [locks_acct] at hwait
    rw [fam_acct_of_mem hwait] at ho
    refine J.par (g.on h) hwait q' o ?_
    cases w with
    | free | parent _ | publish _ | zombie _ => cases hs
    | _ => exact ho
  · rw [job_acct]
    change (g.acct h).job.Mild _
    cases w with
    | free | parent _ | publish _ | zombie _ => cases hs
    | dup y =>
      rw [show (g.acct h).job = .born q from hw]
      exact ⟨fun _ h => h, fun _ h => h, fun h => by cases h⟩
    | close =>
      rw [hw.2.2]
      exact ⟨(fun _ h => by cases h), fun _ h => h.elim, fun h => by cases h⟩
    | kill pid =>
      rw [hw.2.2.2]
      exact ⟨(fun _ h => by cases h), fun _ h => h.elim, fun h => by cases h⟩
    | sleep chan =>
      cases hj : (g.acct h).job with
      | doze => exact ⟨(fun _ h => by cases h), fun _ h => h.elim, fun h => by cases h⟩
      | _ => exact .refl _
    | _ => exact .refl _

theorem Jobs.par_free (hw : .wait ∈ (free.acct (g.acct h) q).locks) {r : Nat} {o : Option Nat}
    (ho : (free.acct (g.acct h) q).fam.par r = some o) : ((g.setProc q (freeproc (g.proc q))).proc r).parent = o := by
  rw [locks_acct] at hw
  rw [fam_acct_of_mem hw] at ho
  rcases eq_or_ne r q with rfl | hne
  · simp [Wr.fam] at ho
  · rw [setProc_proc_ne hne]
    have ho : (g.acct h).fam.par r = some o := by simpa [Wr.fam, update_of_ne hne] using ho
    exact J.par (g.on h) hw r o ho

theorem Jobs.free_used (hi : (g.acct h).In q .used) (hj : (g.acct h).job = .took q ∨ (g.acct h).job = .born q) :
    Jobs ((g.setProc q (freeproc (g.proc q))).put (g.on h) (Wr.free.acct (g.acct h) q)) := by
  have hused : phase (g.proc q) = .used := phase_eq_used.2 (L.state hi)
  have hkid : (g.acct h).job.kid = some q := by rcases hj with hj | hj <;> rw [hj] <;> rfl
  obtain ⟨p, he⟩ := J.on_of_job (h := h) (by rcases hj with hj | hj <;> simp [hj])
  have hF := J.fine p
  rw [← he, ← St.acct] at hF
  have hparent : (g.proc q).parent = none := by
    rcases hj with hj | hj
    · rw [hj] at hF
      exact hF.2.2.1
    · rw [hj] at hF
      exact hF.2.2
  refine J.change rfl (fun _ _ => rfl) (fun _ _ => trivial) (fun hw q' o => J.par_free L hw) (fun _ h => by cases h) (fun _ h => h.elim) (fun hd => ?_)
    (fun p' hp' => ?_) (fun _ _ _ => hparent.symm) (fun h => by cases h) fun h' hs => ?_
  · rcases hj with hj | hj
    · cases hj.symm.trans hd
    · cases hj.symm.trans hd
  · refine (J.fine p').other (fun hp hl => ?_) (fun _ _ h => by cases h) (fun hk => ?_) fun _ => ⟨hparent.symm, fun h => by cases h⟩
    · cases hused.symm.trans hl
    · rw [acct_eq he] at hkid
      exact hp' (he.trans (congrArg Th.proc (J.kid p p' q hkid hk)))
  · rcases J.on h' q hs with hl | hl
    · cases hused.symm.trans hl
    · cases hused.symm.trans hl

theorem Jobs.free_zombie (R : Runs g) {r : Round} (hi : (g.acct h).In q .zombie) (hwait : .wait ∈ (g.acct h).locks)
    (hj : (g.acct h).job = .scan r) : Jobs ((g.setProc q (freeproc (g.proc q))).put (g.on h) (free.acct (g.acct h) q)) := by
  have hz : phase (g.proc q) = .zombie := phase_eq_zombie.2 (L.state hi)
  obtain ⟨p, he⟩ := J.on_of_job (h := h) (by simp [hj])
  refine J.change rfl (fun _ _ => rfl) (fun _ _ => trivial) (fun hw q' o => J.par_free L hw) nofun (fun _ h => h.elim) (fun hd => ?_)
    (fun p' hp' => ?_) (fun t' ht' hw => ?_) nofun fun h' hs => ?_
  · cases hj.symm.trans hd
  · refine (J.fine p').other (fun hp hl => ?_) (fun _ _ => nofun) (fun hk => ?_) fun hw => ?_
    · cases hz.symm.trans hl
    · cases hz.symm.trans ((J.fine p').used hk)
    · exact absurd (L.excl _ _ _ hwait hw) hp'
  · exact absurd (L.excl _ _ _ hw hwait) ht'
  · -- a zombie on a hart holds its own lock
    have hl : .proc q ∈ (g.acct h').locks := (R.holds h' q (L.has_stack hs)).resolve_left fun hr => by
      cases (L.state hi).symm.trans hr
    have hon : g.on h' = .proc p := (L.excl _ _ _ hl hi.mem).trans he
    cases (on_eq_proc.1 hon).symm.trans hs
    have hF := J.fine q
    rw [← he, ← St.acct, hj] at hF
    cases hz.symm.trans hF.1

theorem Jobs.publish {tm : UInt64} (hj : (g.acct h).job = .child q) :
    Jobs ((g.setProc q ((publish tm).apply (g.proc q))).put (g.on h) ((publish tm).acct (g.acct h) q)) := by
  obtain ⟨p, he⟩ := J.on_of_job (h := h) (by simp [hj])
  have hkid : (g.acc (.proc p)).job.kid = some q := by rw [← he, ← St.acct, hj]; rfl
  have hused : phase (g.proc q) = .used := (J.fine p).used hkid
  refine J.change rfl (fun _ _ => rfl) (fun _ _ => trivial) (fun hw q' o ho => ?_) (fun _ h => by cases h) (fun _ h => h.elim) (fun hd => ?_)
    (fun p' hp' => ?_) (fun t' ht' hw => rfl) (fun h => by cases h) fun h' hs => .inl rfl
  · rw [locks_acct] at hw
    rw [fam_acct_of_mem hw] at ho
    refine J.par_keep ?_ hw ho
    rfl
  · cases hj.symm.trans hd
  · refine (J.fine p').other (fun hp hl => ?_) (fun hp hd => ?_) (fun hk => ?_) fun hw => ⟨rfl, fun h => by cases h⟩
    · cases hused.symm.trans hl
    · -- the account of the child is new
      have hnew : (g.acc (.proc p)).job.Newborn q := by rw [← he, ← St.acct, hj]; rfl
      rw [hp, J.context p q hnew] at hd
      cases hd
    · exact absurd (he.trans (congrArg Th.proc (J.kid p p' q hkid hk))) hp'

theorem Jobs.exit {st : Int} (hw : (Wr.zombie st).Allowed n ok (g.acct h) q) :
    Jobs ((g.setProc q ((Wr.zombie st).apply (g.proc q))).put (g.on h) ((Wr.zombie st).acct (g.acct h) q)) := by
  obtain ⟨hme, hi, hwait, -⟩ := hw
  have he := L.on_of_me hme
  have hrun : phase (g.proc q) = .live := phase_eq_live.2 (.inr (.inl (L.state hi)))
  refine J.change rfl (fun h' he' => ?_) (fun p' hp' => ?_) (fun hw q' o ho => ?_) nofun (fun _ h => h.elim) (fun _ => rfl)
    (fun p' hp' => ?_) (fun t' ht' hw => rfl) (fun _ => .inr ⟨he, rfl⟩) fun h' hs => .inr rfl
  · cases he.symm.trans he'
  · cases he.symm.trans hp'
    change phase ((g.setProc q _).proc q) ≠ .live
    rw [setProc_proc]
    nofun
  · rw [locks_acct] at hw
    rw [fam_acct_of_mem hw] at ho
    refine J.par_keep ?_ hw ho
    rfl
  · refine (J.fine p').other (fun hp _ => ?_) (fun _ _ => nofun) (fun hk => ?_) fun hw => ?_
    · exact absurd (he.trans (congrArg Th.proc hp.symm)) hp'
    · cases hrun.symm.trans ((J.fine p').used hk)
    · exact absurd (L.excl _ _ _ hwait hw) hp'

omit L in
theorem Jobs.par_parent {s : Nat} (hw : .wait ∈ ((parent s).acct (g.acct h) q).locks) {r : Nat} {o : Option Nat}
    (ho : ((parent s).acct (g.acct h) q).fam.par r = some o) :
    ((g.setProc q ((parent s).apply (g.proc q))).proc r).parent = o := by
  rw [locks_acct] at hw
  rw [fam_acct_of_mem hw] at ho
  rcases eq_or_ne r q with rfl | hne
  · simpa [Wr.fam, Wr.apply] using ho
  · rw [setProc_proc_ne hne]
    have ho : (g.acct h).fam.par r = some o := by simpa [Wr.fam, update_of_ne hne] using ho
    exact J.par (g.on h) hw r o ho

theorem Jobs.adopt (hwait : .wait ∈ (g.acct h).locks) (hj : (g.acct h).job = .filled q) (hme : (g.acct h).me = some p) :
    Jobs ((g.setProc q ((Wr.parent p).apply (g.proc q))).put (g.on h) ((Wr.parent p).acct (g.acct h) q)) := by
  have he := L.on_of_me hme
  have hF := J.fine p
  rw [← he, ← St.acct, hj] at hF
  have hkid : (g.acc (.proc p)).job.kid = some q := by rw [← he, ← St.acct, hj]; rfl
  have hjob : ((parent p).acct (g.acct h) q).job = .child q := by rw [job_acct, hj]; rfl
  have hph : phase ((parent p).apply (g.proc q)) = phase (g.proc q) := rfl
  refine J.change rfl (fun h' he' => ?_) (fun p' hp' => ?_) (fun hw q' o => J.par_parent hw) (fun q' hq' => .inl ?_)
    (fun q' hq' => .inl ?_) (fun hd => ?_) (fun p' hp' => ?_) (fun t' ht' hw => ?_) (fun hz => .inl hz) fun h' hs => J.on h' q hs
  · cases he.symm.trans he'
  · cases he.symm.trans hp'
    rw [hjob]
    refine ⟨?_, ?_, ?_⟩
    · have hne : p ≠ q := by
        rintro rfl
        cases hF.1.symm.trans hF.2.1
      rw [setProc_proc_ne hne]
      exact hF.1
    · rw [setProc_proc]
      exact hF.2.1
    · rw [setProc_proc]
      rfl
  · rw [hjob] at hq'
    rw [he, hkid]
    exact hq'
  · rw [hjob] at hq'
    rw [← St.acct, hj]
    exact hq'
  · cases hj.symm.trans hd
  · refine (J.fine p').other (fun hp hl => ⟨hl, id⟩) (fun hp hd => ?_) (fun hk => ?_) fun hw => ?_
    · rw [hph, ← hp]
      have := J.fine p'
      rw [hd] at this
      exact this
    · exact absurd (he.trans (congrArg Th.proc (J.kid p p' q hkid hk))) hp'
    · exact absurd (L.excl _ _ _ hwait hw) hp'
  · exact absurd (L.excl _ _ _ hw hwait) ht'

theorem Jobs.reparent {d : List Nat} (hwait : .wait ∈ (g.acct h).locks) (hj : (g.acct h).job = .orphan d)
    (hpar : (g.acct h).fam.par q = some (g.acct h).me) :
    Jobs ((g.setProc q ((Wr.parent initproc).apply (g.proc q))).put (g.on h) ((Wr.parent initproc).acct (g.acct h) q)) := by
  obtain ⟨p, he⟩ := J.on_of_job (h := h) (by simp [hj])
  have hme : (g.acct h).me = some p := by rw [acct_eq he]; exact L.me_proc
  have hF := J.fine p
  rw [← he, ← St.acct, hj] at hF
  have hqp : (g.proc q).parent = some p := hme ▸ J.par (g.on h) hwait q _ hpar
  have hjob : ((parent initproc).acct (g.acct h) q).job = .orphan (q :: d) := by rw [job_acct, hj]; rfl
  have hph : ∀ r, phase ((g.setProc q ((parent initproc).apply (g.proc q))).proc r) = phase (g.proc r) := by
    intro r
    rcases setProc_cases g q ((parent initproc).apply (g.proc q)) r with ⟨rfl, he⟩ | ⟨-, he⟩
    · rw [he]
      rfl
    · rw [he]
  refine J.change rfl (fun h' he' => ?_) (fun p' hp' => ?_) (fun hw q' o => J.par_parent hw) (fun q' hq' => ?_)
    (fun q' hq' => ?_) (fun hd => ?_) (fun p' hp' => ?_) (fun t' ht' hw => ?_) (fun hz => .inl hz) fun h' hs => J.on h' q hs
  · cases he.symm.trans he'
  · cases he.symm.trans hp'
    rw [hjob, locks_acct]
    obtain ⟨hl, hp, hw, hd⟩ := hF
    refine ⟨(hph p).trans hl, hp, hw, fun r hr => ?_⟩
    rcases setProc_cases g q ((parent initproc).apply (g.proc q)) r with ⟨rfl, he⟩ | ⟨hne, he⟩
    · rw [he]
      exact fun h => hp (Option.some.inj h).symm
    · rw [he]
      exact hd r ((mem_cons.1 hr).resolve_left hne)
  · rw [hjob] at hq'
    cases hq'
  · rw [hjob] at hq'
    exact hq'.elim
  · cases hj.symm.trans hd
  · refine (J.fine p').other (fun hp hl => ⟨hl, id⟩) (fun hp hd => ?_) (fun hk => ?_) fun hw => ?_
    · have := J.fine p'
      rw [hd] at this
      exact hp ▸ this
    · rcases (J.fine p').kid_parent hk with h | h
      · cases hqp.symm.trans h
      · cases hqp.symm.trans h
        exact hp' he
    · exact absurd (L.excl _ _ _ hwait hw) hp'
  · exact absurd (L.excl _ _ _ hw hwait) ht'

theorem Jobs.take (T : Tree n g.proc) {pid : Int} (hme : (g.acct h).me ≠ none) (hj : (g.acct h).job = .none)
    (hi : (g.acct h).In q .unused) :
    Jobs ((g.setProc q (taken pid (g.proc q))).put (g.on h) { (g.acct h).upd q (taken pid) with job := .took q }) := by
  obtain ⟨p, hp⟩ := Option.ne_none_iff_exists'.1 hme
  have he := L.on_of_me hp
  have hun : phase (g.proc q) = .unused := phase_eq_unused.2 (L.state hi)
  have hparent : (g.proc q).parent = none := T.unused q hun
  have hnk : ∀ p', (g.acc (.proc p')).job.kid ≠ some q := fun p' hk => by cases hun.symm.trans ((J.fine p').used hk)
  have hlive : phase (g.proc p) = .live := J.live_of_on he (by rw [← acct_eq he, hj]; exact fun h => by cases h)
  have hpq : p ≠ q := by
    rintro rfl
    cases hun.symm.trans hlive
  refine J.change rfl (fun h' he' => ?_) (fun p' hp' => ?_) (fun hw q' o ho => ?_) (fun q' hq' => .inr ?_)
    (fun q' hq' => hq'.elim) (fun hd => ?_) (fun p' hp' => ?_) (fun t' ht' hw => rfl) (fun h => by cases h) fun h' hs => ?_
  · cases he.symm.trans he'
  · cases he.symm.trans hp'
    refine ⟨?_, ?_, ?_, ?_⟩
    · rwa [setProc_proc_ne hpq]
    · rw [setProc_proc]
      rfl
    · rw [setProc_proc]
      exact hparent
    · exact ((g.acct h).locks_upd (taken pid)).symm ▸ hi.mem
  · have hw : .wait ∈ (g.acct h).locks := (g.acct h).locks_upd (taken pid) ▸ hw
    refine J.par_keep ?_ hw ho
    rfl
  · cases hq'
    exact hnk
  · cases hj.symm.trans hd
  · refine (J.fine p').other (fun hp hl => ?_) (fun _ _ h => by cases h) (hnk p') fun hw => ⟨rfl, fun h => by cases h⟩
    cases hun.symm.trans hl
  · rcases J.on h' q hs with hl | hl
    · cases hun.symm.trans hl
    · cases hun.symm.trans hl

omit L in
theorem Jobs.reset (hused : phase (g.proc q) = .used) : Jobs (g.put (.proc q) { role := .user q }) := by
  have hacc : ∀ t ≠ .proc q, (g.put (.proc q) { role := .user q }).acc t = g.acc t := fun t ht => put_acc_ne ht
  have hproc : ∀ p ≠ q, (g.put (.proc q) { role := .user q }).acc (.proc p) = g.acc (.proc p) := fun p hp =>
    hacc _ (fun h => hp (by cases h; rfl))
  have hjob : ∀ p, ((g.put (.proc q) { role := .user q }).acc (.proc p)).job = (g.acc (.proc p)).job ∨
      ((g.put (.proc q) { role := .user q }).acc (.proc p)).job = .none := by
    intro p
    rcases eq_or_ne p q with rfl | hp
    · exact .inr (by rw [put_acc])
    · exact .inl (by rw [hproc p hp])
  refine ⟨fun h => ?_, fun p => ?_, fun t hw r o ho => ?_, fun p1 p2 r h1 h2 => ?_, fun p r hr => ?_, fun r hr => ?_, J.on⟩
  · exact J.cpu h
  · rcases eq_or_ne p q with rfl | hp
    · rw [put_acc]
      trivial
    · rw [hproc p hp]
      exact J.fine p
  · rcases eq_or_ne t (.proc q) with rfl | ht
    · rw [put_acc] at hw
      cases hw
    · rw [hacc _ ht] at hw ho
      exact J.par t hw r o ho
  · rcases hjob p1 with e1 | e1
    · rcases hjob p2 with e2 | e2
      · exact J.kid p1 p2 r (e1 ▸ h1) (e2 ▸ h2)
      · rw [e2] at h2
        cases h2
    · rw [e1] at h1
      cases h1
  · rcases eq_or_ne r q with rfl | hrq
    · exact put_acc
    · rw [hproc r hrq]
      rcases hjob p with e | e
      · exact J.context p r (e ▸ hr)
      · rw [e] at hr
        exact hr.elim
  · have hrq : r ≠ q := by
      rintro rfl
      cases hused.symm.trans hr
    rw [hproc r hrq]
    exact J.zombie r hr

theorem Jobs.newctx (hj : (g.acct h).job = .took q) :
    Jobs (g.bore h q) := by
  obtain ⟨p, he⟩ := J.on_of_job (h := h) (by simp [hj])
  have hF := J.fine p
  rw [← he, ← St.acct, hj] at hF
  have hne : g.on h ≠ .proc q := by
    intro hq
    cases he.symm.trans hq
    cases hF.1.symm.trans hF.2.1
  -- first the account of the child, then that of the parent
  have hcomm : g.bore h q =
      (g.put (.proc q) { role := .user q }).put (g.on h) { g.acct h with job := .born q } := by
    simp only [put, Function.update_comm hne]
  have hself : (g.put (.proc q) { role := .user q }).acc (g.on h) = g.acct h := put_acc_ne hne
  rw [hcomm]
  refine (J.reset hF.2.1).move rfl (fun h' he' => ?_) (fun p' hp' => ?_) (J.par (g.on h)) (fun r hr => ?_)
    (fun r hr => .inr ?_) fun hd => ?_
  · cases he.symm.trans he'
  · cases he.symm.trans hp'
    exact ⟨hF.1, hF.2.1, hF.2.2.1⟩
  · rw [hself, hj]
    exact hr
  · obtain rfl : q = r := hr
    exact ⟨hne.symm, put_acc⟩
  · rw [hself] at hd
    cases hj.symm.trans hd

omit L in
theorem Jobs.switch {c : Th N → Acct} {k : Fin N → Option Nat} (hc : ∀ t, Relocked (g.acc t) (c t))
    (hfine : ∀ p, (g.acc (.proc p)).job.Fine g.proc p (c (.proc p)).locks)
    (hctx : ∀ q, phase (g.proc q) = .used → c (.proc q) = g.acc (.proc q))
    (hon : ∀ h p, k h = some p → phase (g.proc p) = .live ∨ phase (g.proc p) = .zombie) :
    Jobs ({ g with acc := c, stack := k } : St N) := by
  refine ⟨fun h => ?_, fun p => ?_, fun t hw r o ho => ?_, fun p1 p2 r h1 h2 => ?_, fun p r hr => ?_, fun r hr => ?_, hon⟩
  · exact (hc _).job.trans (J.cpu h)
  · rw [(hc _).job]
    exact hfine p
  · exact J.par t ((hc t).wait.1 hw) r o ((hc t).fam ▸ ho)
  · exact J.kid p1 p2 r ((hc _).job ▸ h1) ((hc _).job ▸ h2)
  · have hr : (g.acc (.proc p)).job.Newborn r := (hc (.proc p)).job ▸ hr
    exact (hctx r ((J.fine p).used hr.kid)).trans (J.context p r hr)
  · exact (hc _).job.trans (J.zombie r hr)

theorem Jobs.swtchTo (R : Runs g) (ha : g.acct h = { role := .current p, held := [.proc p x] }) (hx : x.state = .running) :
    Jobs ((g.toProc h p x) : St N) := by
  have hs := L.stack_of_current (by rw [ha])
  have hoff : (g.acc (.proc p)).held = [] := L.off _ fun h' he => R.off L hs (by rw [has, ha]; rfl) h' (on_eq_proc.1 he)
  have hrun : (g.proc p).state = .running := by
    refine (congrArg Prod.fst (L.knows (g.on h) p x ?_)).trans hx
    rw [← St.acct, ha]
    exact mem_singleton.2 rfl
  refine J.switch (relocked_swtchTo L R ha) (fun r => ?_) (fun r hr => ?_) fun h' r hr => ?_
  · rcases eq_or_ne r p with rfl | hne
    · refine (J.fine r).more ?_
      rw [locks, hoff]
      exact nil_subset _
    · rw [put_acc_ne (fun h => hne (by cases h; rfl)), put_acc_ne (fun h => by cases h)]
      exact J.fine r
  · have hne : r ≠ p := by
      rintro rfl
      cases (phase_eq_used.1 hr).symm.trans hrun
    rw [put_acc_ne (fun h => hne (by cases h; rfl)), put_acc_ne (fun h => by cases h)]
  · rcases eq_or_ne h' h with rfl | hne
    · rw [update_self] at hr
      cases hr
      exact .inl (phase_eq_live.2 (.inr (.inl hrun)))
    · rw [update_of_ne hne] at hr
      exact J.on h' r hr

theorem Jobs.sched (R : Runs g) (hm : (g.acct h).me = some p) (hheld : (g.acct h).held = [.proc p x]) (hb : ¬(g.acct h).job.Brief)
    (hscan : ∀ r, (g.acct h).job ≠ .scan r) (horphan : ∀ d, (g.acct h).job ≠ .orphan d) :
    Jobs ((g.toCpu h p x) : St N) := by
  have hs := L.stack_of_user (me_eq hm)
  have hacc : g.acct h = g.acc (.proc p) := by rw [St.acct, St.on_some hs]
  refine J.switch (relocked_sched L R hm hheld) (fun r => ?_) (fun r hr => ?_) fun h' r hr => ?_
  · rw [put_acc_ne (fun h => by cases h)]
    rcases eq_or_ne r p with rfl | hne
    · rw [hacc] at hb hscan horphan
      refine (J.fine r).fewer hb fun hj => ?_
      rcases hj with ⟨d, hj⟩ | ⟨r', hj⟩
      · exact absurd hj (horphan d)
      · exact absurd hj (hscan r')
    · rw [put_acc_ne (fun h => hne (by cases h; rfl))]
      exact J.fine r
  · have hne : r ≠ p := by
      rintro rfl
      rcases J.on h r hs with hl | hl
      · cases hr.symm.trans hl
      · cases hr.symm.trans hl
    rw [put_acc_ne (fun h => by cases h), put_acc_ne (fun h => hne (by cases h; rfl))]
  · rcases eq_or_ne h' h with rfl | hne
    · rw [update_self] at hr
      cases hr
    · rw [update_of_ne hne] at hr
      exact J.on h' r hr

end

theorem Wr.Allowed.zombie_iff (L : Locks g) (J : Jobs g) (hw : w.Allowed n ok (g.acct h) q) (hz : ∀ st, w ≠ .zombie st)
    (hf : w ≠ .free) : (w.apply (g.proc q)).state = .zombie ↔ (g.proc q).state = .zombie := by
  by_cases hs : w.hard = false
  · rw [← phase_eq_zombie, ← phase_eq_zombie, (hw.soft L hs).phase]
  cases w with
  | free => exact absurd rfl hf
  | zombie st => exact absurd rfl (hz st)
  | parent m => exact Iff.rfl
  | publish tm =>
    obtain ⟨p, he⟩ := J.on_of_job (h := h) (by simp [hw.1])
    have := phase_eq_used.1 ((J.fine p).used (by rw [← he, ← St.acct, hw.1]; rfl))
    rw [this]
    exact iff_of_false (fun h => by cases h) (fun h => by cases h)
  | _ => exact absurd rfl hs

end Xv6.Harts
