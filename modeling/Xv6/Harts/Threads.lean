import Xv6.Harts.Obey

/-!
# Threads and their accounts

The machine without its code: the process table, which thread each hart executes, and the account of every thread, on a hart or
not. A move is an operation that the rules allow. What is proved of moves holds of the kernel as long as its code keeps to the
rules.
-/

open Function (update update_self update_of_ne)

namespace Xv6.Harts

open Sched (Proc ProcState freeproc wrap32)
open List Acct

/-- The scheduler of a hart, or a process. -/
inductive Th (N : Nat) where
  | cpu (h : Fin N)
  | proc (p : Nat)
  deriving DecidableEq

structure St (N : Nat) where
  proc : Nat → Proc
  nextpid : Int
  stack : Fin N → Option Nat
  acc : Th N → Acct

variable {N n : Nat} {ok : Int → Prop} {g g' : St N} {h h' : Fin N} {t t' : Th N} {a : Acct} {l : Lk} {p q : Nat} {w : Wr}

namespace St

def on (g : St N) (h : Fin N) : Th N :=
  match g.stack h with
  | some p => .proc p
  | none => .cpu h

def acct (g : St N) (h : Fin N) : Acct := g.acc (g.on h)

def put (g : St N) (t : Th N) (a : Acct) : St N := { g with acc := update g.acc t a }

def setProc (g : St N) (q : Nat) (x : Proc) : St N := { g with proc := update g.proc q x }

def bump (g : St N) : St N := { g with nextpid := wrap32 (g.nextpid + 1) }

def Free (g : St N) (l : Lk) : Prop := ∀ t, l ∉ (g.acc t).locks

end St

/-- What a thread may do that changes only its own account. -/
inductive Act (n : Nat) (g : St N) (a : Acct) : Acct → Prop
  | acquire (l : Lk) (x : Proc) : (l = .wait → a.me ≠ none) → g.Free l → (∀ q, l = .proc q → x = g.proc q) → Act n g a (a.acquire l x)
  | release (l : Lk) : a.role.Plain → ¬a.job.Brief → l ∈ a.locks → (l = .wait → a.MayLeave n) → (∀ q, l = .proc q → a.role.cur = some q → a.In q .running) →
      Act n g a (a.release l)
  | see (q : Nat) : Act n g a (a.see q (g.proc q))
  | current (p : Nat) : a.role = .claim p → Act n g a { a with role := .current p }
  | leave (p : Nat) : a.role = .current p → Act n g a { a with role := .leaving p }
  | finish (p : Nat) (st : ProcState) : a.role = .leaving p → a.In p st → st ≠ .running → Act n g a { a.release (.proc p) with role := .idle }
  | ask (c : Ask) : Act n g a { a with ask := c }
  | copyout (b : Bool) (c : Ask) : Act n g a { a with job := a.job.copied b, ask := c }
  | ret (c : Ask) : (a.job = .none ∨ (∃ pid, a.job = .marked pid) ∨ ∃ r, a.job = .left r) → Act n g a { a with job := .none, ask := c }

inductive Move (n : Nat) (ok : Int → Prop) (h : Fin N) (g : St N) : St N → Prop
  | act (a : Acct) : Act n g (g.acct h) a → Move n ok h g (g.put (g.on h) a)
  | write (q : Nat) (w : Wr) : w.Allowed n ok (g.acct h) q →
      Move n ok h g ((g.setProc q (w.apply (g.proc q))).put (g.on h) (w.acct (g.acct h) q))
  | take (q : Nat) : q < n → (g.acct h).me ≠ none → (g.acct h).job = .none → (g.acct h).In q .unused →
      Move n ok h g ((g.setProc q (taken g.nextpid (g.proc q))).put (g.on h)
        { (g.acct h).upd q (taken g.nextpid) with job := .took q }).bump
  /-- The context of a new process, which holds no lock and does nothing yet. -/
  | newctx (q : Nat) : (g.acct h).job = .took q →
      Move n ok h g ((g.put (g.on h) { g.acct h with job := .born q }).put (.proc q) { role := .user q })
  /-- The lock goes with the hart from the scheduler to the process. -/
  | swtchTo (p : Nat) (x : Proc) : x.state = .running → g.acct h = { role := .current p, held := [.proc p x] } →
      Move n ok h g { (g.put (.cpu h) { role := .current p }).put (.proc p) { g.acc (.proc p) with held := [.proc p x] } with
        stack := update g.stack h (some p) }
  /-- And back. -/
  | sched (p : Nat) (x : Proc) : (g.acct h).me = some p → (g.acct h).held = [.proc p x] → x.state ≠ .running →
      ¬(g.acct h).job.Brief → (∀ r, (g.acct h).job ≠ .scan r) → (∀ d, (g.acct h).job ≠ .orphan d) →
      Move n ok h g { (g.put (.proc p) { g.acct h with held := [] }).put (.cpu h) { g.acc (.cpu h) with held := [.proc p x] } with
        stack := update g.stack h none }

namespace St

/-! The states that the moves lead to. -/

abbrev wrote (g : St N) (h : Fin N) (q : Nat) (w : Wr) : St N :=
  (g.setProc q (w.apply (g.proc q))).put (g.on h) (w.acct (g.acct h) q)

abbrev bore (g : St N) (h : Fin N) (q : Nat) : St N :=
  (g.put (g.on h) { g.acct h with job := .born q }).put (.proc q) { role := .user q }

abbrev toProc (g : St N) (h : Fin N) (p : Nat) (x : Proc) : St N :=
  { (g.put (.cpu h) { role := .current p }).put (.proc p) { g.acc (.proc p) with held := [.proc p x] } with
    stack := update g.stack h (some p) }

abbrev toCpu (g : St N) (h : Fin N) (p : Nat) (x : Proc) : St N :=
  { (g.put (.proc p) { g.acct h with held := [] }).put (.cpu h) { g.acc (.cpu h) with held := [.proc p x] } with
    stack := update g.stack h none }

@[simp] theorem put_proc : (g.put t a).proc = g.proc := rfl
@[simp] theorem put_stack : (g.put t a).stack = g.stack := rfl
@[simp] theorem put_nextpid : (g.put t a).nextpid = g.nextpid := rfl
@[simp] theorem put_on : (g.put t a).on h = g.on h := rfl
@[simp] theorem put_acc : (g.put t a).acc t = a := by simp [put]
theorem put_acc_ne (hne : t' ≠ t) : (g.put t a).acc t' = g.acc t' := by simp [put, hne]

variable {x : Proc}

@[simp] theorem setProc_acc : (g.setProc q x).acc = g.acc := rfl
@[simp] theorem setProc_stack : (g.setProc q x).stack = g.stack := rfl
@[simp] theorem setProc_on : (g.setProc q x).on h = g.on h := rfl
@[simp] theorem setProc_proc : (g.setProc q x).proc q = x := by simp [setProc]
theorem setProc_proc_ne (hne : p ≠ q) : (g.setProc q x).proc p = g.proc p := by simp [setProc, hne]

theorem on_some (hs : g.stack h = some p) : g.on h = .proc p := by rw [on, hs]

theorem on_none (hs : g.stack h = none) : g.on h = .cpu h := by rw [on, hs]

theorem on_eq_proc : g.on h = .proc p ↔ g.stack h = some p := by
  unfold on
  cases g.stack h with
  | none => exact iff_of_false (fun h => by cases h) (fun h => by cases h)
  | some r => exact ⟨fun h => by cases h; rfl, fun h => by cases h; rfl⟩

theorem on_eq_cpu : g.on h = .cpu h' ↔ g.stack h = none ∧ h = h' := by
  unfold on
  cases g.stack h with
  | none => exact ⟨fun h => by cases h; exact ⟨rfl, rfl⟩, fun h => by rw [h.2]⟩
  | some r => exact iff_of_false (fun h => by cases h) (fun h => by cases h.1)

end St

/-! ## Locks -/

def Th.Is : Th N → Role → Prop
  | .cpu _, r => ∀ p, r ≠ .user p
  | .proc p, r => r = .user p

theorem Th.Is.cpu {r r' : Role} (hr : t.Is r) (hne : ∀ p, r ≠ .user p) (hne' : ∀ p, r' ≠ .user p) : t.Is r' := by
  cases t with
  | cpu h => exact hne'
  | proc p => exact absurd hr (hne p)

structure Locks (g : St N) : Prop where
  role : ∀ t : Th N, t.Is (g.acc t).role
  excl : ∀ t t' l, l ∈ (g.acc t).locks → l ∈ (g.acc t').locks → t = t'
  nodup : ∀ t, (g.acc t).locks.Nodup
  off : ∀ t, (∀ h, g.on h ≠ t) → (g.acc t).held = []
  knows : ∀ t q x, .proc q x ∈ (g.acc t).held → core (g.proc q) = core x

theorem Locks.put (L : Locks g) (hr : t.Is a.role) (hsub : ∀ l ∈ a.locks, l ∈ (g.acc t).locks ∨ g.Free l) (hn : a.locks.Nodup)
    (hon : (∀ h, g.on h ≠ t) → a.held = []) (hk : ∀ q x, .proc q x ∈ a.held → core (g.proc q) = core x) : Locks (g.put t a) where
  role t' := by
    rcases eq_or_ne t' t with rfl | ht
    · rwa [St.put_acc]
    · rw [St.put_acc_ne ht]
      exact L.role t'
  excl t1 t2 l h1 h2 := by
    rcases eq_or_ne t1 t with rfl | ht1
    · rw [St.put_acc] at h1
      by_contra hne
      rw [St.put_acc_ne (Ne.symm hne)] at h2
      rcases hsub l h1 with h | h
      · exact hne (L.excl _ _ l h h2)
      · exact h t2 h2
    · rw [St.put_acc_ne ht1] at h1
      rcases eq_or_ne t2 t with rfl | ht2
      · rw [St.put_acc] at h2
        rcases hsub l h2 with h | h
        · exact L.excl _ _ l h1 h
        · exact absurd h1 (h t1)
      · rw [St.put_acc_ne ht2] at h2
        exact L.excl _ _ l h1 h2
  nodup t' := by
    rcases eq_or_ne t' t with rfl | ht
    · rwa [St.put_acc]
    · rw [St.put_acc_ne ht]
      exact L.nodup t'
  off t' := by
    rcases eq_or_ne t' t with rfl | ht
    · rw [St.put_acc]
      exact hon
    · rw [St.put_acc_ne ht]
      exact L.off t'
  knows t' := by
    rcases eq_or_ne t' t with rfl | ht
    · rw [St.put_acc]
      exact hk
    · rw [St.put_acc_ne ht]
      exact L.knows t'

theorem Held.mem_lk {hs : List Held} {x : Proc} (hm : .proc q x ∈ hs) : .proc q ∈ hs.map Held.lk :=
  mem_map.2 ⟨_, hm, rfl⟩

theorem Acct.locks_release : (a.release l).locks = a.locks.erase l := by
  change (a.held.eraseP _).map Held.lk = (a.held.map Held.lk).erase l
  induction a.held with
  | nil => rfl
  | cons e hs ih =>
    by_cases he : e.lk = l
    · simp [he]
    · simp [he, ih]

theorem Acct.locks_release_sublist : (a.release l).locks.Sublist a.locks := (eraseP_sublist).map _

theorem Locks.act (L : Locks g) (ha : Act n g (g.acct h) a) : Locks (g.put (g.on h) a) := by
  have hon : (∀ h', g.on h' ≠ g.on h) → a.held = [] := fun hne => absurd rfl (hne h)
  have hrole := L.role (g.on h)
  have hn := L.nodup (g.on h)
  have hk := L.knows (g.on h)
  cases ha with
  | acquire l x hm hf hx =>
    refine L.put hrole (fun l' hl => ?_) ?_ hon fun q y hy => ?_
    · rcases mem_cons.1 (locks_acquire ▸ hl) with rfl | hl
      · exact .inr hf
      · exact .inl hl
    · rw [locks_acquire]
      exact nodup_cons.2 ⟨hf _, hn⟩
    · rcases mem_cons.1 hy with hy | hy
      · cases l with
        | proc r =>
          cases hy
          rw [hx q rfl]
        | _ => cases hy
      · exact hk q y hy
  | release l =>
    refine L.put hrole (fun l' hl => .inl ?_) ?_ hon fun q y hy => ?_
    · exact locks_release_sublist.subset hl
    · exact hn.sublist locks_release_sublist
    · exact hk q y (eraseP_subset hy)
  | see q | ask c | copyout b | ret => exact L.put hrole (fun _ hl => .inl hl) hn hon hk
  | current p hr | leave p hr =>
    exact L.put (hrole.cpu (fun q hq => by cases hr.symm.trans hq) fun _ h => by cases h) (fun _ hl => .inl hl) hn hon hk
  | finish p st hr =>
    refine L.put (hrole.cpu (fun q hq => by cases hr.symm.trans hq) fun _ h => by cases h) (fun l' hl => .inl ?_) ?_ hon fun q y hy => ?_
    · exact locks_release_sublist.subset hl
    · exact hn.sublist locks_release_sublist
    · exact hk q y (eraseP_subset hy)

theorem Held.mem_upd {hs : List Held} {f : Proc → Proc} {r : Nat} {y : Proc} (hy : .proc r y ∈ hs.map (Held.upd q f)) :
    ∃ x, .proc r x ∈ hs ∧ y = if r = q then f x else x := by
  obtain ⟨e, he, heq⟩ := mem_map.1 hy
  cases e with
  | proc p x =>
    cases heq
    exact ⟨x, he, rfl⟩
  | _ => cases heq

theorem Locks.table {f : Proc → Proc} (L : Locks g) (hc : ∀ x y, core x = core y → core (f x) = core (f y))
    (hq : .proc q ∈ (g.acc t).locks ∨ ∀ x, core (f x) = core x) (hheld : a.held = (g.acc t).held.map (Held.upd q f))
    (hr : t.Is a.role) : Locks ((g.setProc q (f (g.proc q))).put t a) := by
  have hlocks : ∀ t', (((g.setProc q (f (g.proc q))).put t a).acc t').locks = (g.acc t').locks := by
    intro t'
    rcases eq_or_ne t' t with rfl | ht
    · rw [St.put_acc, locks, hheld, map_map]
      exact map_congr_left fun e _ => Held.lk_upd q f e
    · rw [St.put_acc_ne ht, St.setProc_acc]
  refine ⟨fun t' => ?_, fun t1 t2 l h1 h2 => ?_, fun t' => ?_, fun t' hoff => ?_, fun t' r y hy => ?_⟩
  · rcases eq_or_ne t' t with rfl | ht
    · rwa [St.put_acc]
    · rw [St.put_acc_ne ht]
      exact L.role t'
  · exact L.excl t1 t2 l (hlocks t1 ▸ h1) (hlocks t2 ▸ h2)
  · rw [hlocks]
    exact L.nodup t'
  · rcases eq_or_ne t' t with rfl | ht
    · rw [St.put_acc, hheld, L.off t' hoff, map_nil]
    · rw [St.put_acc_ne ht]
      exact L.off t' hoff
  · rcases eq_or_ne t' t with rfl | ht
    · rw [St.put_acc, hheld] at hy
      obtain ⟨x, hx, rfl⟩ := Held.mem_upd hy
      rcases eq_or_ne r q with rfl | hrq
      · rw [if_pos rfl, St.put_proc, St.setProc_proc]
        exact hc _ _ (L.knows t' r x hx)
      · rw [if_neg hrq, St.put_proc, St.setProc_proc_ne hrq]
        exact L.knows t' r x hx
    · rw [St.put_acc_ne ht, St.setProc_acc] at hy
      rcases eq_or_ne r q with rfl | hrq
      · rw [St.put_proc, St.setProc_proc]
        rcases hq with hq | hq
        · exact absurd (L.excl t' t _ (Held.mem_lk hy) hq) ht
        · rw [hq]
          exact L.knows t' r y hy
      · rw [St.put_proc, St.setProc_proc_ne hrq]
        exact L.knows t' r y hy

theorem core_apply (w : Wr) {x y : Proc} (h : core x = core y) : core (w.apply x) = core (w.apply y) := by
  obtain ⟨hst, hch, hpid⟩ : x.state = y.state ∧ x.chan = y.chan ∧ x.pid = y.pid := by simpa [core] using h
  cases w <;> simp [Wr.apply, core, freeproc, hst, hch, hpid]

theorem Acct.In.mem {st : ProcState} (hi : a.In q st) : .proc q ∈ a.locks := by
  obtain ⟨x, hx, -⟩ := hi
  exact Held.mem_lk hx

theorem Wr.Allowed.core (hw : w.Allowed n ok a q) :
    .proc q ∈ a.locks ∨ ∀ x, Harts.core (w.apply x) = Harts.core x := by
  cases w with
  | free | ready t =>
    rcases hw with ⟨hi, -⟩ | ⟨hi, -⟩
    · exact .inl hi.mem
    · exact .inl hi.mem
  | dup y | parent r | setkilled | file fd f | chdir ip | endTime t | close => exact .inr fun x => rfl
  | publish t => exact .inl hw.2
  | kill pid =>
    obtain ⟨-, ⟨x, hx, -⟩, -⟩ := hw
    exact .inl (Held.mem_lk hx)
  | sleep chan | zombie st => exact .inl hw.2.1.mem
  | clearChan | run now => exact .inl hw.2.mem

theorem Wr.Allowed.role (hw : w.Allowed n ok a q) (ht : t.Is a.role) : t.Is (w.acct a q).role := by
  cases w with
  | run now => exact ht.cpu (fun p hp => by cases hw.1.symm.trans hp) fun _ h => by cases h
  | _ => exact ht

theorem Locks.write (L : Locks g) (hw : w.Allowed n ok (g.acct h) q) :
    Locks (g.wrote h q w) :=
  L.table (fun _ _ => core_apply w) hw.core rfl (hw.role (L.role (g.on h)))

theorem Locks.state {st : ProcState} (L : Locks g) (hi : (g.acc t).In q st) : (g.proc q).state = st := by
  obtain ⟨x, hx, hst⟩ := hi
  exact (congrArg Prod.fst (L.knows t q x hx)).trans hst

theorem Locks.user (L : Locks g) (p : Nat) : (g.acc (.proc p)).role = .user p := L.role (.proc p)

/-! ## Harts and processes -/

def St.has (g : St N) (h : Fin N) : Option Nat := (g.acct h).role.has

structure Runs (g : St N) : Prop where
  uniq : ∀ h h' p, g.has h = some p → g.has h' = some p → h = h'
  holds : ∀ h p, g.has h = some p → (g.proc p).state = .running ∨ .proc p ∈ (g.acct h).locks
  cpu : ∀ h p, g.stack h = none → g.has h = some p → .proc p ∈ (g.acct h).locks
  running : ∀ p, (g.proc p).state = .running → ∃ h, g.has h = some p
  /-- The scheduler of a hart that executes a process waits in `swtch`. -/
  saved : ∀ h p, g.stack h = some p → g.acc (.cpu h) = { role := .current p }

theorem Locks.has_stack (L : Locks g) (hs : g.stack h = some p) : g.has h = some p := by
  rw [St.has, St.acct, St.on_some hs, L.user]
  rfl

theorem Runs.on_inj (L : Locks g) (R : Runs g) (he : g.on h = g.on h') : h = h' := by
  cases hs : g.stack h' with
  | none => exact (St.on_eq_cpu.1 (he.trans (St.on_none hs))).2
  | some p =>
    have := St.on_eq_proc.1 (he.trans (St.on_some hs))
    exact R.uniq h h' p (L.has_stack this) (L.has_stack hs)

theorem Locks.stack_of_user (L : Locks g) (hr : (g.acct h).role = .user p) : g.stack h = some p := by
  have := L.role (g.on h)
  rw [show (g.acc (g.on h)).role = .user p from hr] at this
  cases hs : g.stack h with
  | none =>
    rw [St.on_none hs] at this
    exact absurd rfl (this p)
  | some r =>
    rw [St.on_some hs] at this
    cases this
    rfl

theorem Runs.change {x : Proc} (L : Locks g) (R : Runs g)
    (hnew : ∀ p, a.role.has = some p → g.has h = some p ∨ ∀ h', g.has h' ≠ some p)
    (hrun : ∀ p, ((g.setProc q x).proc p).state = .running → a.role.has = some p ∨ (g.proc p).state = .running ∧ g.has h ≠ some p)
    (hown : ∀ p, a.role.has = some p → .proc p ∈ a.locks ∨ g.stack h = some p ∧ ((g.setProc q x).proc p).state = .running)
    (hoth : ∀ h' ≠ h, g.has h' = some q → (g.proc q).state = .running → x.state = .running) :
    Runs ((g.setProc q x).put (g.on h) a) := by
  have hself : ((g.setProc q x).put (g.on h) a).acct h = a := St.put_acc
  have hacct : ∀ h' ≠ h, ((g.setProc q x).put (g.on h) a).acct h' = g.acct h' :=
    fun h' hne => St.put_acc_ne fun he => hne (R.on_inj L he)
  have hhas : ((g.setProc q x).put (g.on h) a).has h = a.role.has := by rw [St.has, hself]
  have hhas' : ∀ h' ≠ h, ((g.setProc q x).put (g.on h) a).has h' = g.has h' := by
    intro h' hne
    rw [St.has, hacct h' hne, St.has]
  -- no other hart has the process of `h`
  have huniq : ∀ h' p, a.role.has = some p → ((g.setProc q x).put (g.on h) a).has h' = some p → h' = h := by
    intro h' p hp hp'
    by_contra hne
    rw [hhas' h' hne] at hp'
    rcases hnew p hp with hh | hh
    · exact hne (R.uniq h' h p hp' hh)
    · exact hh h' hp'
  refine ⟨fun h1 h2 p h1p h2p => ?_, fun h' p hp => ?_, fun h' p hs hp => ?_, fun p hp => ?_, fun h' p hs => ?_⟩
  · rcases eq_or_ne h1 h with rfl | hne1
    · exact (huniq h2 p (hhas ▸ h1p) h2p).symm
    · rcases eq_or_ne h2 h with rfl | hne2
      · exact huniq h1 p (hhas ▸ h2p) h1p
      · exact R.uniq h1 h2 p (hhas' h1 hne1 ▸ h1p) (hhas' h2 hne2 ▸ h2p)
  · rcases eq_or_ne h' h with rfl | hne
    · rw [hself]
      rcases hown p (hhas ▸ hp) with hl | ⟨-, hr⟩
      · exact .inr hl
      · exact .inl hr
    · rw [hhas' h' hne] at hp
      rw [hacct h' hne]
      rcases R.holds h' p hp with hr | hl
      · left
        rcases eq_or_ne p q with rfl | hpq
        · rw [St.put_proc, St.setProc_proc]
          exact hoth h' hne hp hr
        · rwa [St.put_proc, St.setProc_proc_ne hpq]
      · exact .inr hl
  · rcases eq_or_ne h' h with rfl | hne
    · rw [hself]
      rcases hown p (hhas ▸ hp) with hl | ⟨hs', -⟩
      · exact hl
      · cases hs.symm.trans hs'
    · rw [hhas' h' hne] at hp
      rw [hacct h' hne]
      exact R.cpu h' p hs hp
  · rcases hrun p hp with hp | ⟨hr, hne⟩
    · exact ⟨h, hhas.trans hp⟩
    · obtain ⟨h', hh'⟩ := R.running p hr
      have hne' : h' ≠ h := fun he => hne (he ▸ hh')
      exact ⟨h', (hhas' h' hne').trans hh'⟩
  · have hne : Th.cpu h' ≠ g.on h := fun he => by
      have := St.on_eq_cpu.1 he.symm
      cases this.2
      cases this.1.symm.trans hs
    rw [St.put_acc_ne hne]
    exact R.saved h' p hs

theorem Runs.keep {x : Proc} (L : Locks g) (R : Runs g) (hhas : a.role.has = g.has h)
    (hx : x.state = .running → (g.proc q).state = .running)
    (hown : ∀ p, g.has h = some p → .proc p ∈ (g.acct h).locks →
      .proc p ∈ a.locks ∨ g.stack h = some p ∧ ((g.setProc q x).proc p).state = .running)
    (hstop : (g.proc q).state = .running → x.state = .running ∨ g.has h = some q ∧ .proc q ∈ a.locks) :
    Runs ((g.setProc q x).put (g.on h) a) := by
  have hstate : ∀ p, ((g.setProc q x).proc p).state = .running → (g.proc p).state = .running := by
    intro p hp
    rcases eq_or_ne p q with rfl | hpq
    · rw [St.setProc_proc] at hp
      exact hx hp
    · rwa [St.setProc_proc_ne hpq] at hp
  refine R.change L (fun p hp => .inl (hhas ▸ hp)) (fun p hp => ?_) (fun p hp => ?_) fun h' hne hh' hr => ?_
  · by_cases hh : g.has h = some p
    · exact .inl (hhas.trans hh)
    · exact .inr ⟨hstate p hp, hh⟩
  · rw [hhas] at hp
    cases hs : g.stack h with
    | none =>
      rcases hown p hp (R.cpu h p hs hp) with hl | ⟨hs', -⟩
      · exact .inl hl
      · cases hs.symm.trans hs'
    | some r =>
      obtain rfl : r = p := Option.some.inj ((L.has_stack hs).symm.trans hp)
      rcases R.holds h r hp with hr | hl
      · rcases eq_or_ne r q with rfl | hpq
        · rcases hstop hr with hr | ⟨-, hl⟩
          · exact .inr ⟨rfl, by rwa [St.setProc_proc]⟩
          · exact .inl hl
        · exact .inr ⟨rfl, by rwa [St.setProc_proc_ne hpq]⟩
      · rcases hown r hp hl with hl | ⟨-, hr⟩
        · exact .inl hl
        · exact .inr ⟨rfl, hr⟩
  · rcases hstop hr with hr | ⟨hh, -⟩
    · exact hr
    · exact absurd (R.uniq h' h q hh' hh) hne

@[simp] theorem St.setProc_self : g.setProc q (g.proc q) = g := by simp [St.setProc]

theorem Acct.mem_locks_release {l' : Lk} (hl : l' ∈ a.locks) (hne : l' ≠ l) : l' ∈ (a.release l).locks := by
  obtain ⟨e, he, rfl⟩ := mem_map.1 hl
  refine mem_map.2 ⟨e, ?_, rfl⟩
  exact (mem_eraseP_of_neg (by simpa using hne)).2 he

theorem Runs.act (L : Locks g) (R : Runs g) (ha : Act n g (g.acct h) a) : Runs (g.put (g.on h) a) := by
  -- the cases in which the hart keeps its process
  have same : ∀ {a' : Acct}, a'.role.has = g.has h →
      (∀ p, g.has h = some p → .proc p ∈ (g.acct h).locks → .proc p ∈ a'.locks ∨ g.stack h = some p ∧ (g.proc p).state = .running) →
      Runs (g.put (g.on h) a') := by
    intro a' hhas hl
    have := R.keep (q := 0) (x := g.proc 0) L hhas id (by rwa [St.setProc_self]) .inl
    rwa [St.setProc_self] at this
  cases ha with
  | acquire l x => exact same rfl fun p _ hl => .inl (by rw [locks_acquire]; exact mem_cons_of_mem l hl)
  | release l hplain hb hl hw hc =>
    refine same rfl fun p hp hlp => ?_
    rcases eq_or_ne (.proc p) l with rfl | hne
    · right
      rcases hplain with hr | ⟨r, hr⟩
      · rw [St.has, hr] at hp
        cases hp
      · rw [St.has, hr] at hp
        cases hp
        exact ⟨L.stack_of_user hr, L.state (hc p rfl (by rw [hr]; rfl))⟩
    · exact .inl (mem_locks_release hlp hne)
  | see q | ask c | copyout b | ret => exact same rfl fun p _ hl => .inl hl
  | current p hr | leave p hr => exact same (by rw [St.has, hr]; rfl) fun p _ hl => .inl hl
  | finish p st hr hi hst =>
    have := R.change (q := 0) (x := g.proc 0) (h := h) (a := { (g.acct h).release (.proc p) with role := .idle }) L (fun p hp => by cases hp)
      (fun r hrun => ?_) (fun p hp => by cases hp) (fun _ _ _ h => h)
    · rwa [St.setProc_self] at this
    · rw [St.setProc_self] at hrun
      refine .inr ⟨hrun, fun hh => ?_⟩
      rw [St.has, hr] at hh
      cases hh
      exact hst ((L.state hi).symm.trans hrun)

theorem Acct.me_eq (hm : a.me = some p) : a.role = .user p := by
  unfold me at hm
  split at hm
  · cases hm
    assumption
  · cases hm

theorem St.has_of_me (hm : (g.acct h).me = some p) : g.has h = some p := by
  rw [St.has, me_eq hm]
  rfl

theorem Runs.stop (L : Locks g) (R : Runs g) (hrole : (w.acct (g.acct h) q).role = (g.acct h).role)
    (hx : (w.apply (g.proc q)).state = .running → (g.proc q).state = .running)
    (hstop : (g.proc q).state = .running → (w.apply (g.proc q)).state = .running ∨ (g.acct h).me = some q ∧ .proc q ∈ (g.acct h).locks) :
    Runs (g.wrote h q w) := by
  refine R.keep L (by rw [hrole]; rfl) hx (fun p _ hl => .inl (by rwa [Wr.locks_acct])) fun hr => ?_
  rcases hstop hr with hr | ⟨hm, hl⟩
  · exact .inl hr
  · exact .inr ⟨St.has_of_me hm, by rwa [Wr.locks_acct]⟩

theorem Runs.write (L : Locks g) (R : Runs g) (hw : w.Allowed n ok (g.acct h) q)
    (hpub : ∀ t, w = .publish t → (g.proc q).state = .used) :
    Runs (g.wrote h q w) := by
  cases w with
  | run now =>
    obtain ⟨hidle, hi⟩ := hw
    have hst : (g.proc q).state = .runnable := L.state hi
    -- nobody else has a process that is not `RUNNING` and not locked by them
    have hnone : ∀ h', g.has h' ≠ some q := by
      intro h' hh'
      have hl : .proc q ∈ (g.acct h').locks := (R.holds h' q hh').resolve_left fun hr => by cases hst.symm.trans hr
      cases R.on_inj L (L.excl _ _ _ hl hi.mem)
      rw [St.has, hidle] at hh'
      cases hh'
    refine R.change L (fun p hp => ?_) (fun p hp => ?_) (fun p hp => ?_) fun h' _ hh' => absurd hh' (hnone h')
    · cases hp
      exact .inr hnone
    · rcases eq_or_ne p q with rfl | hpq
      · exact .inl rfl
      · rw [St.setProc_proc_ne hpq] at hp
        refine .inr ⟨hp, fun hh => ?_⟩
        rw [St.has, hidle] at hh
        cases hh
    · cases hp
      exact .inl (by rw [Wr.locks_acct]; exact hi.mem)
  | free =>
    refine R.stop L rfl (fun h => by cases h) fun hr => ?_
    rcases hw with ⟨hi, -⟩ | ⟨hi, -⟩
    · cases (L.state hi).symm.trans hr
    · cases (L.state hi).symm.trans hr
  | publish t => exact R.stop L rfl (fun h => by cases h) fun hr => by cases (hpub t rfl).symm.trans hr
  | ready t =>
    refine R.stop L rfl (fun h => by cases h) fun hr => ?_
    rcases hw with ⟨hi, -⟩ | ⟨hi, hm, -⟩
    · cases (L.state hi).symm.trans hr
    · exact .inr ⟨hm, hi.mem⟩
  | kill pid =>
    refine R.stop L rfl (fun h => ?_) fun hr => .inl (by simp [Wr.apply, hr])
    simp only [Wr.apply] at h
    split at h
    · cases h
    · exact h
  | sleep chan | zombie st => exact R.stop L rfl (fun h => by cases h) fun _ => .inr ⟨hw.1, hw.2.1.mem⟩
  | dup y | parent r | setkilled | clearChan | file fd f | chdir ip | endTime t | close => exact R.stop L rfl id .inl

/-! ## New processes, and switches -/

theorem Locks.take (L : Locks g) {pid : Int} (hi : (g.acct h).In q .unused) {j : Job} :
    Locks ((g.setProc q (taken pid (g.proc q))).put (g.on h) { (g.acct h).upd q (taken pid) with job := j }) := by
  refine L.table (fun x y hxy => ?_) (.inl hi.mem) rfl (L.role (g.on h))
  obtain ⟨-, hch, -⟩ : x.state = y.state ∧ x.chan = y.chan ∧ x.pid = y.pid := by simpa [core] using hxy
  simp [core, taken, hch]

theorem Runs.take (L : Locks g) (R : Runs g) {pid : Int} (hi : (g.acct h).In q .unused) {j : Job} :
    Runs ((g.setProc q (taken pid (g.proc q))).put (g.on h) { (g.acct h).upd q (taken pid) with job := j }) := by
  refine R.keep L rfl (fun h => by cases h) (fun p _ hl => .inl ?_) fun hr => ?_
  · exact ((g.acct h).locks_upd (taken pid)).symm ▸ hl
  · cases (L.state hi).symm.trans hr

theorem Locks.newctx (L : Locks g) {j : Job} : Locks ((g.put (g.on h) { g.acct h with job := j }).put (.proc q) { role := .user q }) := by
  have L' : Locks (g.put (g.on h) { g.acct h with job := j }) :=
    L.put (L.role (g.on h)) (fun _ hl => .inl hl) (L.nodup (g.on h)) (fun hne => absurd rfl (hne h)) (L.knows (g.on h))
  exact L'.put rfl (fun _ h => by cases h) nodup_nil (fun _ => rfl) fun _ _ h => by cases h

theorem Runs.put_off (R : Runs g) (hoff : ∀ h, g.stack h ≠ some q) : Runs (g.put (.proc q) a) := by
  have hacct : ∀ h, (g.put (.proc q) a).acct h = g.acct h := fun h => St.put_acc_ne fun he => hoff h (St.on_eq_proc.1 he)
  have hhas : ∀ h, (g.put (.proc q) a).has h = g.has h := fun h => by rw [St.has, hacct, St.has]
  refine ⟨fun h1 h2 p h1p h2p => ?_, fun h p hp => ?_, fun h p hs hp => ?_, fun p hp => ?_, fun h p hs => ?_⟩
  · exact R.uniq h1 h2 p (hhas h1 ▸ h1p) (hhas h2 ▸ h2p)
  · rw [hacct]
    exact R.holds h p (hhas h ▸ hp)
  · rw [hacct]
    exact R.cpu h p hs (hhas h ▸ hp)
  · obtain ⟨h, hh⟩ := R.running p hp
    exact ⟨h, (hhas h).trans hh⟩
  · exact R.saved h p hs

theorem Runs.newctx (L : Locks g) (R : Runs g) {j : Job} (hoff : ∀ h, g.stack h ≠ some q) :
    Runs ((g.put (g.on h) { g.acct h with job := j }).put (.proc q) { role := .user q }) := by
  have R' : Runs (g.put (g.on h) { g.acct h with job := j }) := by
    have := R.keep (q := 0) (x := g.proc 0) (h := h) (a := { g.acct h with job := j }) L rfl id (fun p _ hl => .inl hl) .inl
    rwa [St.setProc_self] at this
  exact R'.put_off hoff

theorem Locks.pass (L : Locks g) {b : Acct} {k : Fin N → Option Nat} (hne : t ≠ t') (ha : a.held = []) (hb : b.held = (g.acc t).held)
    (hra : t.Is a.role) (hrb : t'.Is b.role)
    (hoff : ∀ t'', (∀ h, ({ g with stack := k } : St N).on h ≠ t'') → t'' ≠ t' ∧ (t'' = t ∨ ∀ h, g.on h ≠ t'')) :
    Locks { (g.put t a).put t' b with stack := k } := by
  have ht' : ((g.put t a).put t' b).acc t' = b := St.put_acc
  have ht : ((g.put t a).put t' b).acc t = a := by rw [St.put_acc_ne hne, St.put_acc]
  have hother : ∀ t'', t'' ≠ t → t'' ≠ t' → ((g.put t a).put t' b).acc t'' = g.acc t'' := fun t'' h h' => by
    rw [St.put_acc_ne h', St.put_acc_ne h]
  -- a lock of `t'` was one of `t`, and the other threads keep theirs
  have hfrom : ∀ t'' l, l ∈ (((g.put t a).put t' b).acc t'').locks →
      t'' = t' ∧ l ∈ (g.acc t).locks ∨ t'' ≠ t' ∧ t'' ≠ t ∧ l ∈ (g.acc t'').locks := by
    intro t'' l hl
    rcases eq_or_ne t'' t' with rfl | hn'
    · rw [ht', locks, hb] at hl
      exact .inl ⟨rfl, hl⟩
    · rcases eq_or_ne t'' t with rfl | hn
      · rw [ht, locks, ha] at hl
        cases hl
      · rw [hother t'' hn hn'] at hl
        exact .inr ⟨hn', hn, hl⟩
  refine ⟨fun t'' => ?_, fun t1 t2 l h1 h2 => ?_, fun t'' => ?_, fun t'' h => ?_, fun t'' q x hx => ?_⟩
  · rcases eq_or_ne t'' t' with rfl | hn'
    · rwa [ht']
    · rcases eq_or_ne t'' t with rfl | hn
      · rwa [ht]
      · rw [hother t'' hn hn']
        exact L.role t''
  · rcases hfrom t1 l h1 with ⟨he1, h1⟩ | ⟨hn1', hn1, h1⟩
    · rcases hfrom t2 l h2 with ⟨he2, h2⟩ | ⟨hn2', hn2, h2⟩
      · exact he1.trans he2.symm
      · exact absurd (L.excl t2 t l h2 h1) hn2
    · rcases hfrom t2 l h2 with ⟨he2, h2⟩ | ⟨hn2', hn2, h2⟩
      · exact absurd (L.excl t1 t l h1 h2) hn1
      · exact L.excl t1 t2 l h1 h2
  · rcases eq_or_ne t'' t' with rfl | hn'
    · rw [ht', locks, hb]
      exact L.nodup t
    · rcases eq_or_ne t'' t with rfl | hn
      · rw [ht, locks, ha]
        exact nodup_nil
      · rw [hother t'' hn hn']
        exact L.nodup t''
  · obtain ⟨hn', rfl | hg⟩ := hoff t'' h
    · rw [ht, ha]
    · rcases eq_or_ne t'' t with rfl | hn
      · rw [ht, ha]
      · rw [hother t'' hn hn']
        exact L.off t'' hg
  · change .proc q x ∈ (((g.put t a).put t' b).acc t'').held at hx
    change core (g.proc q) = core x
    rcases eq_or_ne t'' t' with rfl | hn'
    · rw [ht', hb] at hx
      exact L.knows t q x hx
    · rcases eq_or_ne t'' t with rfl | hn
      · rw [ht, ha] at hx
        cases hx
      · rw [hother t'' hn hn'] at hx
        exact L.knows t'' q x hx

theorem Locks.stack_of_current (L : Locks g) (hr : (g.acct h).role = .current p) : g.stack h = none := by
  cases hs : g.stack h with
  | none => rfl
  | some r =>
    rw [St.acct, St.on_some hs, L.user] at hr
    cases hr

theorem Runs.off (L : Locks g) (R : Runs g) (hs : g.stack h = none) (hh : g.has h = some p) : ∀ h', g.stack h' ≠ some p := by
  intro h' hs'
  cases R.uniq h' h p (L.has_stack hs') hh
  cases hs.symm.trans hs'

theorem St.on_setStack {k : Option Nat} {c : Th N → Acct} (hne : h' ≠ h) :
    ({ g with acc := c, stack := update g.stack h k } : St N).on h' = g.on h' := by
  simp only [St.on, update_of_ne hne]

section
variable {x : Proc}

theorem Locks.swtchTo (L : Locks g) (ha : g.acct h = { role := .current p, held := [.proc p x] }) :
    Locks (g.toProc h p x) := by
  have hs := L.stack_of_current (by rw [ha])
  have hacc : (g.acc (.cpu h)).held = [.proc p x] := by rw [← St.on_none hs, ← St.acct, ha]
  refine L.pass (fun h => by cases h) rfl hacc.symm (fun _ h => by cases h) (L.user p) fun t hoff => ⟨?_, ?_⟩
  · rintro rfl
    exact hoff h (St.on_some (update_self h _ _))
  by_cases ht : t = .cpu h
  · exact .inl ht
  refine .inr fun h' => ?_
  rcases eq_or_ne h' h with rfl | hne
  · rw [St.on_none hs]
    exact Ne.symm ht
  · rw [← St.on_setStack hne]
    exact hoff h'

theorem Locks.sched (L : Locks g) (hm : (g.acct h).me = some p) (hheld : (g.acct h).held = [.proc p x]) :
    Locks (g.toCpu h p x) := by
  have hs := L.stack_of_user (me_eq hm)
  have hacc : g.acct h = g.acc (.proc p) := by rw [St.acct, St.on_some hs]
  refine L.pass (fun h => by cases h) rfl (by rw [← hacc, hheld]) (me_eq hm) (L.role (.cpu h)) fun t hoff => ⟨?_, ?_⟩
  · rintro rfl
    exact hoff h (St.on_none (update_self h _ _))
  by_cases ht : t = .proc p
  · exact .inl ht
  refine .inr fun h' => ?_
  rcases eq_or_ne h' h with rfl | hne
  · rw [St.on_some hs]
    exact Ne.symm ht
  · rw [← St.on_setStack hne]
    exact hoff h'

theorem Runs.switch (R : Runs g) {c : Th N → Acct} {k : Option Nat}
    (hacct : ∀ h' ≠ h, c (g.on h') = g.acct h') (hsaved : ∀ h' ≠ h, ∀ p, g.stack h' = some p → c (.cpu h') = { role := .current p })
    (hhas : (({ g with acc := c, stack := update g.stack h k } : St N).acct h).role.has = g.has h)
    (hown : ∀ p, g.has h = some p → .proc p ∈ (({ g with acc := c, stack := update g.stack h k } : St N).acct h).locks)
    (hcpu : ∀ p, k = some p → c (.cpu h) = { role := .current p }) :
    Runs ({ g with acc := c, stack := update g.stack h k } : St N) := by
  have hacct' : ∀ h' ≠ h, ({ g with acc := c, stack := update g.stack h k } : St N).acct h' = g.acct h' := fun h' hne => by
    rw [St.acct, St.on_setStack hne]
    exact hacct h' hne
  have hhas' : ∀ h', ({ g with acc := c, stack := update g.stack h k } : St N).has h' = g.has h' := by
    intro h'
    rcases eq_or_ne h' h with rfl | hne
    · exact hhas
    · rw [St.has, hacct' h' hne, St.has]
  refine ⟨fun h1 h2 p h1p h2p => ?_, fun h' p hp => ?_, fun h' p hs hp => ?_, fun p hp => ?_, fun h' p hs => ?_⟩
  · exact R.uniq h1 h2 p (hhas' h1 ▸ h1p) (hhas' h2 ▸ h2p)
  · rw [hhas'] at hp
    rcases eq_or_ne h' h with rfl | hne
    · exact .inr (hown p hp)
    · rw [hacct' h' hne]
      exact R.holds h' p hp
  · rw [hhas'] at hp
    rcases eq_or_ne h' h with rfl | hne
    · exact hown p hp
    · rw [hacct' h' hne]
      exact R.cpu h' p (by simpa [update_of_ne hne] using hs) hp
  · obtain ⟨h', hh'⟩ := R.running p hp
    exact ⟨h', (hhas' h').trans hh'⟩
  · rcases eq_or_ne h' h with rfl | hne
    · exact hcpu p (by simpa using hs)
    · exact hsaved h' hne p (by simpa [update_of_ne hne] using hs)

theorem Runs.swtchTo (L : Locks g) (R : Runs g) (ha : g.acct h = { role := .current p, held := [.proc p x] }) :
    Runs (g.toProc h p x) := by
  have hs := L.stack_of_current (by rw [ha])
  have hh : g.has h = some p := by rw [St.has, ha]; rfl
  have hoff := R.off L hs hh
  -- the hart is on the stack of the process
  have hacct : (g.toProc h p x).acct h = { g.acc (.proc p) with held := [.proc p x] } := by
    rw [St.acct, St.on_some (update_self h _ _)]
    exact St.put_acc
  refine R.switch (fun h' hne => ?_) (fun h' hne r hr => ?_) ?_ (fun r hr => ?_) fun r hr => ?_
  · have hcpu : g.on h' ≠ .cpu h := fun he => hne (St.on_eq_cpu.1 he).2
    have hproc : g.on h' ≠ .proc p := fun he => hoff h' (St.on_eq_proc.1 he)
    exact (St.put_acc_ne hproc).trans (St.put_acc_ne hcpu)
  · have hcpu : (Th.cpu h' : Th N) ≠ .cpu h := fun he => hne (by cases he; rfl)
    exact ((St.put_acc_ne (fun he => by cases he)).trans (St.put_acc_ne hcpu)).trans (R.saved h' r hr)
  · refine (congrArg (fun a => a.role.has) hacct).trans ?_
    rw [hh]
    exact congrArg Role.has (L.user p)
  · cases hh.symm.trans hr
    exact cast (congrArg (fun a => Lk.proc p ∈ a.locks) hacct).symm (mem_singleton.2 rfl)
  · cases hr
    exact (St.put_acc_ne (fun he => by cases he)).trans St.put_acc

theorem Runs.sched (L : Locks g) (R : Runs g) (hm : (g.acct h).me = some p) :
    Runs (g.toCpu h p x) := by
  have hs := L.stack_of_user (me_eq hm)
  have hh : g.has h = some p := L.has_stack hs
  have hacct : (g.toCpu h p x).acct h = { role := .current p, held := [.proc p x] } := by
    rw [St.acct, St.on_none (update_self h _ _), St.toCpu, R.saved h p hs]
    exact St.put_acc
  refine R.switch (fun h' hne => ?_) (fun h' hne r hr => ?_) ?_ (fun r hr => ?_) fun r hr => by cases hr
  · have hcpu : g.on h' ≠ .cpu h := fun he => hne (St.on_eq_cpu.1 he).2
    have hproc : g.on h' ≠ .proc p := fun he => hne (R.uniq h' h p (L.has_stack (St.on_eq_proc.1 he)) hh)
    exact (St.put_acc_ne hcpu).trans (St.put_acc_ne hproc)
  · have hcpu : (Th.cpu h' : Th N) ≠ .cpu h := fun he => hne (by cases he; rfl)
    exact ((St.put_acc_ne hcpu).trans (St.put_acc_ne (fun he => by cases he))).trans (R.saved h' r hr)
  · exact (congrArg (fun a => a.role.has) hacct).trans hh.symm
  · cases hh.symm.trans hr
    exact cast (congrArg (fun a => Lk.proc p ∈ a.locks) hacct).symm (mem_singleton.2 rfl)

end

end Xv6.Harts
