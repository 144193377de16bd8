import Xv6.Harts.Simulate

/-!
# `exit` and `wait`

A record of the run counts, for each slot, the exits and the reaps, and notes for each process why its last `wait` gave up.
-/

open Function (update update_self update_of_ne)

namespace Xv6.Harts

open Prog
open Sched (Proc ProcState freeproc)
open Sys

variable {N n : Nat} {ok : Int → Prop} {s s' : Sys N} {g g' : St N} {h : Fin N} {t : Th N} {a : Acct} {p q : Nat} {w : Wr} {x : Proc}

/-! ## The record -/

/-- What the record depends on in the code. -/
inductive Deed where
  | exits (q : Nat)
  | frees (q : Nat)
  /-- `wait_lock` is released. -/
  | leaves
  | copies
  | other

def deed : K Unit → Deed
  | .op (.set q (.zombie _)) _ => .exits q
  | .op (.set q .free) _ => .frees q
  | .op (.release .wait) _ => .leaves
  | .op (.copyout _ _ _) _ => .copies
  | _ => .other

structure Tally where
  exits : Nat → Nat
  reaps : Nat → Nat
  /-- In its last call the process has found itself without children. -/
  alone : Nat → Bool
  /-- In its last call a `copyout` has failed. -/
  failed : Nat → Bool

namespace Tally

/-- Process `p` releases `wait_lock`. -/
def leave (n : Nat) (s : Sys N) (r : Tally) : Option Nat → Tally
  | some p => { r with alone := update r.alone p (r.alone p || decide (∀ q < n, (s.proc q).parent ≠ some p)) }
  | none => r

/-- Process `p` copies the times of a child. -/
def copy (b : Bool) (r : Tally) : Option Nat → Tally
  | some p => { r with failed := update r.failed p (r.failed p || !b) }
  | none => r

/-- After an operation of hart `h`. -/
def afterOp (n : Nat) (s : Sys N) (h : Fin N) (ans : Ans) (r : Tally) : Tally :=
  match deed (s.hart h).code with
  | .exits q => { r with exits := update r.exits q (r.exits q + 1) }
  | .frees q => if (s.proc q).state = .zombie then { r with reaps := update r.reaps q (r.reaps q + 1) } else r
  | .leaves => r.leave n s (s.hart h).proc
  | .copies => r.copy ans.ok (s.hart h).proc
  | .other => r

def begin (r : Tally) : Option Nat → Tally
  | some p => { r with alone := update r.alone p false, failed := update r.failed p false }
  | none => r

def upd (n : Nat) (s : Sys N) (e : Ev N) (_ : Sys N) (r : Tally) : Tally :=
  match e with
  | .step h ans => r.afterOp n s h ans
  | .call h _ => r.begin (s.hart h).proc
  | _ => r

def zero : Tally := ⟨fun _ => 0, fun _ => 0, fun _ => false, fun _ => false⟩

end Tally

/-! ## Exits and reaps -/

def Tally.Balanced (proc : Nat → Proc) (r : Tally) : Prop := ∀ q, r.exits q = r.reaps q + if (proc q).state = .zombie then 1 else 0

section
variable {r r' : Tally} {proc : Nat → Proc}

theorem Tally.counts_leave (o : Option Nat) : (r.leave n s o).exits = r.exits ∧ (r.leave n s o).reaps = r.reaps := by
  cases o <;> exact ⟨rfl, rfl⟩

theorem Tally.counts_copy {b : Bool} (o : Option Nat) : (r.copy b o).exits = r.exits ∧ (r.copy b o).reaps = r.reaps := by
  cases o <;> exact ⟨rfl, rfl⟩

theorem Tally.counts_begin (o : Option Nat) : (r.begin o).exits = r.exits ∧ (r.begin o).reaps = r.reaps := by
  cases o <;> exact ⟨rfl, rfl⟩

theorem Tally.Balanced.same (hb : r.Balanced proc) (he : r'.exits = r.exits ∧ r'.reaps = r.reaps) : r'.Balanced proc := by
  intro q
  rw [he.1, he.2]
  exact hb q

theorem Tally.Balanced.write (hb : r.Balanced proc) (hz : x.state = .zombie ↔ (proc q).state = .zombie) :
    r.Balanced (update proc q x) := by
  intro q'
  rw [hb q']
  rcases eq_or_ne q' q with rfl | hne
  · rw [update_self]
    simp only [hz]
  · rw [update_of_ne hne]

theorem Tally.Balanced.exit (hb : r.Balanced proc) (hz : (proc q).state ≠ .zombie) (hx : x.state = .zombie) :
    Tally.Balanced (update proc q x) { r with exits := update r.exits q (r.exits q + 1) } := by
  intro q'
  change update r.exits q (r.exits q + 1) q' = r.reaps q' + _
  rcases eq_or_ne q' q with rfl | hne
  · have := hb q'
    rw [if_neg hz] at this
    rw [update_self, update_self, if_pos hx, this]
  · rw [update_of_ne hne, update_of_ne hne]
    exact hb q'

theorem Tally.Balanced.reap (hb : r.Balanced proc) (hz : (proc q).state = .zombie) (hx : x.state ≠ .zombie) :
    Tally.Balanced (update proc q x) { r with reaps := update r.reaps q (r.reaps q + 1) } := by
  intro q'
  change r.exits q' = update r.reaps q (r.reaps q + 1) q' + _
  rcases eq_or_ne q' q with rfl | hne
  · have := hb q'
    rw [if_pos hz] at this
    rw [update_self, update_self, if_neg hx, this]
  · rw [update_of_ne hne, update_of_ne hne]
    exact hb q'

end

theorem Tally.Balanced.exec {r : Tally} (S : Sim n ok s g) (I : Inv n g) (hb : r.Balanced s.proc) {ans : Ans} {β : Type} {e : Op β}
    {k : β → K Unit} (hcode : (s.hart h).code = .op e k) (hs : s.exec h ans (.op e k) = some s') :
    (r.afterOp n s h ans).Balanced s'.proc := by
  have hC := (S.hart h).code
  rw [hcode] at hC
  have hpre := hC.1
  have hst : ∀ {q st}, (g.acct h).In q st → (s.proc q).state = st := fun hi => S.proc ▸ I.locks.state hi
  unfold Tally.afterOp
  rw [hcode]
  cases e with
  | set q w =>
    cases hs
    have hkeep := Wr.Allowed.zombie_iff I.locks I.jobs hpre
    rw [S.proc] at hkeep
    cases w with
    | zombie st =>
      have hrun : (s.proc q).state = .running := hst hpre.2.1
      exact hb.exit (by simp [hrun]) rfl
    | free =>
      simp only [deed]
      split
      · rename_i hz
        exact hb.reap hz nofun
      · rename_i hz
        exact hb.write (iff_of_false nofun hz)
    | _ => exact hb.write (hkeep nofun nofun)
  | take q =>
    cases hs
    have hun : (s.proc q).state = .unused := hst hpre.2.2.2
    exact hb.write (iff_of_false nofun (by simp [hun]))
  | acquire l | sched p =>
    simp only [Sys.exec] at hs
    split at hs
    · cases hs
      exact hb
    · cases hs
  | release l =>
    simp only [Sys.exec] at hs
    split at hs
    · cases hs
      cases l with
      | wait => exact hb.same (Tally.counts_leave _)
      | _ => exact hb
    · cases hs
  | copyout q pt addr =>
    cases hs
    exact hb.same (Tally.counts_copy _)
  | _ =>
    cases hs
    exact hb

/-! ## Why `wait` gives up -/

/-- The record says why a process that is about to return -1 does so. -/
def Job.Because (alone failed : Bool) : Job → Prop
  | .scan r => r.copied = false → failed = true
  | .left r => alone = true ∨ r.killed = true ∨ failed = true
  | _ => True

namespace Job.Because

variable {al al' fa fa' : Bool} {j : Job}

section
variable (hj : j.Because al fa)
include hj

theorem mono (ha : al = true → al' = true) (hf : fa = true → fa' = true) : j.Because al' fa' := by
  cases j with
  | scan r => exact fun hr => hf (hj hr)
  | left r => exact hj.imp ha (Or.imp id hf)
  | _ => trivial

theorem begin : j.begin.Because al fa := by
  cases j with
  | none => exact nofun
  | _ => exact hj

theorem see {me : Option Nat} {b : Bool} : (j.see me b q x).Because al fa := by
  cases j with
  | scan r => exact hj
  | _ => exact hj

theorem copied {b : Bool} : (j.copied b).Because al (fa || !b) := by
  cases j with
  | scan r =>
    intro hr
    cases b with
    | true => simpa using hj (by simpa using hr)
    | false => simp
  | left r => exact hj.imp id (Or.imp id fun h => by simp [h])
  | _ => trivial

theorem wr : (w.job q j).Because al fa := by
  cases w with
  | parent m | sleep chan => cases j <;> first | trivial | exact hj
  | free | dup _ | publish _ | kill _ | close | zombie _ => trivial
  | _ => exact hj

end

end Job.Because

theorem Job.Because.leave {al fa : Bool} {proc : Nat → Proc} (hj : a.job.Because al fa) (hF : a.job.Fine proc p a.locks)
    (hm : a.MayLeave n) : a.leave.Because (al || decide (∀ q < n, (proc q).parent ≠ some p)) fa := by
  obtain ⟨-, hm⟩ := hm
  unfold Acct.leave
  cases hjob : a.job with
  | scan r =>
    rw [hjob] at hj hF hm
    by_cases hown : a.Own
    · simp only [if_pos hown]
      trivial
    simp only [if_neg hown] at hm ⊢
    rcases hm with ⟨hk, hall⟩ | hk | hc
    · left
      rw [Bool.or_eq_true, decide_eq_true_eq]
      exact .inr fun q hq => hF.2.2.2.1 hk q (hall q hq)
    · exact .inr (.inl hk)
    · exact .inr (.inr (hj hc))
  | _ =>
    rw [hjob] at hj
    exact hj.mono (fun h => by simp [h]) id

theorem Tally.afterOp_le (r : Tally) (n : Nat) (s : Sys N) (h : Fin N) (ans : Ans) (p : Nat) :
    (r.alone p = true → (r.afterOp n s h ans).alone p = true) ∧ (r.failed p = true → (r.afterOp n s h ans).failed p = true) := by
  unfold Tally.afterOp
  split
  · exact ⟨id, id⟩
  · split <;> exact ⟨id, id⟩
  · cases (s.hart h).proc with
    | none => exact ⟨id, id⟩
    | some p' =>
      refine ⟨fun hp => ?_, id⟩
      change update r.alone p' _ p = true
      rcases eq_or_ne p p' with rfl | hne
      · rw [update_self, hp, Bool.true_or]
      · rw [update_of_ne hne, hp]
  · cases (s.hart h).proc with
    | none => exact ⟨id, id⟩
    | some p' =>
      refine ⟨id, fun hp => ?_⟩
      change update r.failed p' _ p = true
      rcases eq_or_ne p p' with rfl | hne
      · rw [update_self, hp, Bool.true_or]
      · rw [update_of_ne hne, hp]
  · exact ⟨id, id⟩

theorem Job.Because.op {r : Tally} {ans : Ans} {β : Type} {e : Op β} {k : β → K Unit} (hcode : (s.hart h).code = .op e k)
    (hp : (s.hart h).proc = some p) (hF : (g.acct h).job.Fine s.proc p (g.acct h).locks) (hpre : (rules n ok).pre β e (g.acct h))
    (hsw : e.switches = false) (hpost : (rules n ok).post β e (g.acct h) (e.answer s h ans) a)
    (hj : (g.acct h).job.Because (r.alone p) (r.failed p)) :
    a.job.Because ((r.afterOp n s h ans).alone p) ((r.afterOp n s h ans).failed p) := by
  have hle := r.afterOp_le n s h ans p
  have same : ∀ {j : Job}, j.Because (r.alone p) (r.failed p) → j.Because ((r.afterOp n s h ans).alone p) ((r.afterOp n s h ans).failed p) :=
    fun hj => hj.mono hle.1 hle.2
  cases e with
  | acquire l =>
    obtain ⟨-, x, -, rfl⟩ := hpost
    refine same ?_
    change Job.Because _ _ (if l = .wait then _ else _)
    split
    · exact hj.begin
    · exact hj
  | release l =>
    cases hpost
    change Job.Because _ _ (if l = .wait then _ else _)
    split
    · rename_i hw
      subst hw
      have hal : (r.afterOp n s h ans).alone p = (r.alone p || decide (∀ q < n, (s.proc q).parent ≠ some p)) := by
        rw [Tally.afterOp, hcode]
        rw [hp]
        exact update_self p _ _
      rw [hal]
      exact (hj.leave hF (hpre.2.2.2.1 rfl)).mono id hle.2
    · exact same hj
  | get q =>
    obtain ⟨-, -, rfl⟩ := hpost
    exact same hj.see
  | set q w =>
    cases hpost
    exact same hj.wr
  | take q =>
    obtain ⟨pid, rfl⟩ := hpost
    trivial
  | newctx q | waitRet v | killRet pid v =>
    cases hpost
    trivial
  | waitCall addr | time | kalloc =>
    cases hpost
    exact same hj
  | copyout q pt addr =>
    cases hpost
    have hfa : (r.afterOp n s h ans).failed p = (r.failed p || !ans.ok) := by
      rw [Tally.afterOp, hcode]
      rw [hp]
      exact update_self p _ _
    rw [hfa]
    exact hj.copied.mono hle.1 id
  | myproc =>
    obtain ⟨-, rfl⟩ := hpost
    exact same hj
  | setproc o =>
    cases o with
    | some q =>
      cases hpost
      exact same hj
    | none =>
      obtain ⟨q, -, rfl⟩ := hpost
      exact same hj
  | swtchTo q | sched q => cases hsw

/-! ## All runs -/

/-- The accounts go with the state, and the record is right about both. -/
def Tallied (n : Nat) (s : Sys N) (r : Tally) : Prop :=
  ∃ g, Sim n (fun _ => True) s g ∧ Inv n g ∧ r.Balanced s.proc ∧ ∀ p, (g.acc (.proc p)).job.Because (r.alone p) (r.failed p)

theorem Tallied.exec {r : Tally} {ans : Ans} (hk : Tallied n s r) (hs : s.exec h ans (s.hart h).code = some s') :
    Tallied n s' (r.afterOp n s h ans) := by
  obtain ⟨g, S, I, hb, hj⟩ := hk
  obtain ⟨β, e, k, hc⟩ := op_of_exec hs
  rw [hc] at hs
  obtain ⟨g', hm, S', hproc⟩ := S.exec_proc I hc hs
  have hC := (S.hart h).code
  rw [hc] at hC
  have hle := r.afterOp_le n s h ans
  refine ⟨g', S', I.step (hm.imp id fun hm => ⟨h, hm⟩), hb.exec S I hc hs, fun p => ?_⟩
  rcases hproc p with ⟨hon, hsw, hpost⟩ | ⟨-, he⟩ | ⟨-, -, he⟩
  · have hacct := St.acct_eq hon
    refine Job.Because.op hc (S.proc_of_on I hon) ?_ hC.1 hsw hpost (hacct ▸ hj p)
    rw [hacct, ← S.proc]
    exact I.jobs.fine p
  · rw [he.job]
    exact (hj p).mono (hle p).1 (hle p).2
  · rw [he]
    trivial

theorem Tallied.step (hn : initproc < n) {r : Tally} {e : Ev N} (hk : Tallied n s r) (hs : s.step n e = some s') :
    Tallied n s' (r.upd n s e s') := by
  rcases step_cases hs with ⟨h, ans, rfl, hx⟩ | ⟨hne, h, k, rfl⟩
  · exact hk.exec hx
  obtain ⟨g, S, I, hb, hj⟩ := hk
  refine ⟨g, S.enter hn I e.ok_true hne hs, I, ?_, fun p => ?_⟩
  · cases e with
    | step h ans => exact absurd rfl (hne h ans)
    | call h c => exact hb.same (Tally.counts_begin _)
    | _ => exact hb
  · cases e with
    | step h ans => exact absurd rfl (hne h ans)
    | call h0 c =>
      simp only [step] at hs
      split at hs
      · rename_i p0 hcode hstack hproc
        change Job.Because ((r.begin (s.hart h0).proc).alone p) ((r.begin (s.hart h0).proc).failed p) _
        rw [hproc]
        obtain ⟨hon, ha⟩ := S.rest I hcode hproc
        by_cases hp : p = p0
        · rw [hp, ← St.acct_eq hon, ha]
          trivial
        · change Job.Because (update r.alone p0 false p) (update r.failed p0 false p) _
          rw [update_of_ne hp, update_of_ne hp]
          exact hj p
      · cases hs
    | _ => exact hj p

theorem no_child_is_lost (hn : initproc < n) {root : Nat} {t0 t : UInt64} {es : List (Ev N)} {o : Lts.Noted (Sys N) Tally}
    (hr : Lts.run (Lts.noted (step n) (Tally.upd n)) ⟨.boot N root t0 t, .zero⟩ es = some o) :
    (∀ q, o.note.exits q = o.note.reaps q + if (o.now.proc q).state = .zombie then 1 else 0) ∧
    (∀ h q k, (o.now.hart h).code = .op (.set q .free) k → (o.now.proc q).state = .zombie →
      ∃ p, (o.now.hart h).proc = some p ∧ (o.now.proc q).parent = some p) ∧
    (∀ h k, (o.now.hart h).code = .op (.waitRet none) k →
      ∃ p, (o.now.hart h).proc = some p ∧ (o.note.alone p = true ∨ (o.now.proc p).killed = true ∨ o.note.failed p = true)) ∧
    (o.now.Free .wait → ∀ p q, (o.now.proc p).state = .sleeping → (o.now.proc p).chan = procChan p →
      (o.now.proc q).parent = some p → (o.now.proc q).state ≠ .zombie) := by
  have hboot : Tallied n (.boot N root t0 t) .zero := by
    refine ⟨_, Sim.boot, Inv.boot hn, fun q => ?_, fun p => trivial⟩
    have hst : ((boot N root t0 t).proc q).state = .runnable ∨ ((boot N root t0 t).proc q).state = .unused := boot_state q
    rcases hst with h | h
    · rw [h]
      rfl
    · rw [h]
      rfl
  obtain ⟨g, S, I, hb, hj⟩ := Lts.noted_inv hr hboot fun _ _ _ _ hk hs => hk.step hn hs
  refine ⟨hb, fun h q k hc hz => ?_, fun h k hc => ?_, fun hf p q hst hch hpar hz => ?_⟩
  · have hC := (S.hart h).code
    rw [hc] at hC
    rcases hC.1 with ⟨hi, -⟩ | ⟨hi, hwait, hme, hpar, -⟩
    · have := I.locks.state hi
      rw [S.proc, hz] at this
      cases this
    · obtain ⟨p, hp⟩ := Option.ne_none_iff_exists'.1 hme
      refine ⟨p, (S.hart h).cur.symm.trans (Acct.me_eq_cur hp), ?_⟩
      rw [← S.proc]
      exact (I.jobs.par (g.on h) hwait q _ hpar).trans hp
  · have hC := (S.hart h).code
    rw [hc] at hC
    rcases hC.1.1 with ⟨hv, -⟩ | ⟨-, r, hr⟩
    · exact absurd rfl hv
    obtain ⟨p, hon⟩ := I.jobs.on_of_job (h := h) (by simp [hr])
    have hacct := St.acct_eq hon
    have hjob := hj p
    have hF := I.jobs.fine p
    rw [← hacct, hr] at hjob hF
    refine ⟨p, ?_, hjob.imp id (Or.imp (fun hk => ?_) id)⟩
    · rw [← (S.hart h).cur, hacct, I.locks.user]
      rfl
    · rw [← S.proc]
      exact hF.2 hk
  · rw [← S.proc] at hst hch hpar hz
    obtain ⟨t, ht, -⟩ := I.wake.zombie q p hz hpar (.inl ⟨hst, hch⟩)
    exact S.free I.locks hf t ht

def reapTrace : List (Ev 2) :=
  .round hart₀ .roundRobin :: Ev.steps hart₀ 7 9 ++ .call hart₀ .fork :: Ev.steps hart₀ 8 19 ++ .call hart₀ (.wait 0 2) :: Ev.steps hart₀ 9 16 ++
    .round hart₀ .roundRobin :: Ev.steps hart₀ 10 12 ++ .call hart₀ (.exit 3) :: Ev.steps hart₀ 11 21 ++ .round hart₀ .roundRobin :: Ev.steps hart₀ 12 19

theorem no_child_is_lost_reap : ∃ o, Lts.run (Lts.noted (step 2) (Tally.upd 2)) ⟨.boot 2 1 5 5, .zero⟩ reapTrace = some o ∧
    o.note.exits 1 = 1 ∧ (o.now.proc 1).state = .unused ∧ o.note.reaps 1 = 1 := by
  have hr : (Lts.run (Lts.noted (step 2) (Tally.upd 2)) ⟨.boot 2 1 5 5, .zero⟩ reapTrace).map
      (fun o => (o.note.exits 1, (o.now.proc 1).state)) = some (1, .unused) := by
    decide +kernel
  obtain ⟨o, ho, hl⟩ := Option.map_eq_some_iff.1 hr
  obtain ⟨he, hst⟩ := Prod.mk.inj hl
  have hb := (no_child_is_lost (by decide) ho).1 1
  rw [he, hst] at hb
  exact ⟨o, ho, he, hst, hb.symm⟩

end Xv6.Harts
