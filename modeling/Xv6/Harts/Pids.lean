import Mathlib.Logic.Relation
import Xv6.Harts.Simulate

/-!
# Pids and the process tree

A child has a larger pid than its parent, since `allocproc` gives it the next one and `reparent` gives it to the process with the
smallest. So following the parents ends, as long as `nextpid` has not wrapped around.
-/

namespace Xv6.Harts

open Prog
open Sched (Proc ProcState freeproc wrap32)
open St Sys

variable {N n : Nat} {ok : Int → Prop} {s s' : Sys N} {g g' : St N} {h : Fin N} {p q r : Nat} {w : Wr} {x : Proc}

/-! ## Pids -/

structure Pids (g : St N) : Prop where
  init : (g.proc initproc).pid = 1
  range : ∀ q, phase (g.proc q) ≠ .unused → 0 < (g.proc q).pid ∧ (g.proc q).pid < g.nextpid
  inj : ∀ q r, phase (g.proc q) ≠ .unused → phase (g.proc r) ≠ .unused → (g.proc q).pid = (g.proc r).pid → q = r
  parent : ∀ q r, (g.proc q).parent = some r → (g.proc r).pid < (g.proc q).pid
  /-- A child that `fork` is making. -/
  kid : ∀ p q, (g.acc (.proc p)).job.kid = some q → (g.proc p).pid < (g.proc q).pid

theorem Pids.keep (P : Pids g) (hnext : g'.nextpid = g.nextpid) (hpid : ∀ q, (g'.proc q).pid = (g.proc q).pid)
    (hph : ∀ q, phase (g'.proc q) ≠ .unused → phase (g.proc q) ≠ .unused)
    (hpar : ∀ q r, (g'.proc q).parent = some r → (g.proc r).pid < (g.proc q).pid)
    (hkid : ∀ p q, (g'.acc (.proc p)).job.kid = some q → (g.acc (.proc p)).job.kid = some q) : Pids g' where
  init := (hpid initproc).trans P.init
  range q hq := by
    rw [hpid, hnext]
    exact P.range q (hph q hq)
  inj q r hq hr he := by
    rw [hpid, hpid] at he
    exact P.inj q r (hph q hq) (hph r hr) he
  parent q r hr := by
    rw [hpid, hpid]
    exact hpar q r hr
  kid p q hq := by
    rw [hpid, hpid]
    exact P.kid p q (hkid p q hq)

theorem Wr.pid_apply (hw : w ≠ .free) : (w.apply x).pid = x.pid := by
  cases w with
  | free => exact absurd rfl hw
  | _ => rfl

theorem Wr.Allowed.kid {a : Acct} (hw : w.Allowed n ok a q) (hr : (w.acct a q).job.kid = some r) : a.job.kid = some r := by
  rw [Wr.job_acct] at hr
  cases w with
  | dup y =>
    rw [show a.job = .born q from hw]
    exact hr
  | parent s =>
    obtain ⟨-, ⟨hj, -⟩ | ⟨⟨d, hj⟩, -⟩⟩ := hw
    · rw [hj] at hr ⊢
      exact hr
    · rw [hj] at hr
      cases hr
  | sleep chan =>
    cases hj : a.job with
    | doze =>
      rw [hj] at hr
      cases hr
    | _ =>
      rw [hj] at hr
      exact hr
  | free | publish _ | kill _ | close | zombie _ => cases hr
  | _ => exact hr

theorem St.kid_put {a : Acct} (hkid : ∀ q, a.job.kid = some q → (g.acct h).job.kid = some q)
    (hq : ((g.put (g.on h) a).acc (.proc p)).job.kid = some q) : (g.acc (.proc p)).job.kid = some q := by
  rcases eq_or_ne (.proc p) (g.on h) with he | hne
  · rw [he, put_acc] at hq
    rw [he]
    exact hkid q hq
  · rwa [put_acc_ne hne] at hq

theorem Wr.Allowed.used (L : Locks g) (J : Jobs g) (hw : w.Allowed n ok (g.acct h) q) (hx : phase (w.apply (g.proc q)) ≠ .unused) :
    phase (g.proc q) ≠ .unused := by
  by_cases hs : w.hard = false
  · rwa [(hw.soft L hs).phase] at hx
  cases w with
  | free => exact absurd rfl hx
  | parent s => exact hx
  | publish t =>
    obtain ⟨p, he⟩ := J.on_of_job (h := h) (by simp [hw.1])
    rw [(J.fine p).used (by rw [← he, ← St.acct, hw.1]; rfl)]
    intro h
    cases h
  | zombie st =>
    rw [phase_eq_live.2 (.inr (.inl (L.state hw.2.1)))]
    intro h
    cases h
  | _ => exact absurd rfl hs

theorem Pids.free (P : Pids g) (I : Inv n g) (hw : Wr.free.Allowed n ok (g.acct h) q) :
    Pids ((g.setProc q (Wr.free.apply (g.proc q))).put (g.on h) (Wr.free.acct (g.acct h) q)) := by
  have I' := I.write hw
  have hnl : phase (g.proc q) ≠ .live := by
    rcases hw with ⟨hi, -⟩ | ⟨hi, -⟩
    · rw [phase_eq_used.2 (I.locks.state hi)]
      intro h
      cases h
    · rw [phase_eq_zombie.2 (I.locks.state hi)]
      intro h
      cases h
  have hself : ((g.setProc q (freeproc (g.proc q))).proc q) = freeproc (g.proc q) := setProc_proc
  have hne : ∀ {r}, phase ((g.setProc q (freeproc (g.proc q))).proc r) ≠ .unused → r ≠ q := by
    rintro r hr rfl
    rw [hself] at hr
    exact hr rfl
  have hsame : ∀ {r}, r ≠ q → (g.setProc q (freeproc (g.proc q))).proc r = g.proc r := fun hr => setProc_proc_ne hr
  refine ⟨?_, fun r hr => ?_, fun r t hr ht he => ?_, fun r t hr => ?_, fun p r hr => ?_⟩
  · exact (congrArg Proc.pid (hsame (I.tree.ne_init hnl).symm)).trans P.init
  · have := P.range r
    rw [← hsame (hne hr)] at this
    exact this hr
  · have := P.inj r t
    rw [← hsame (hne hr), ← hsame (hne ht)] at this
    exact this hr ht he
  · have hrq : r ≠ q := by
      rintro rfl
      rw [put_proc, Wr.apply, hself] at hr
      cases hr
    change ((g.setProc q (freeproc (g.proc q))).proc r).parent = some t at hr
    rw [hsame hrq] at hr
    have htq : t ≠ q := fun he => I.tree.no_child hnl r (he ▸ hr)
    have := P.parent r t hr
    rwa [← hsame hrq, ← hsame htq] at this
  · obtain ⟨hp, hru⟩ := I'.jobs.of_kid hr
    have hpq : p ≠ q := hne (by
      change phase ((g.setProc q (freeproc (g.proc q))).proc p) = .live at hp
      rw [hp]
      intro h
      cases h)
    have hrq : r ≠ q := hne (by
      change phase ((g.setProc q (freeproc (g.proc q))).proc r) = .used at hru
      rw [hru]
      intro h
      cases h)
    have := P.kid p r (kid_put (fun _ => hw.kid) hr)
    rwa [← hsame hpq, ← hsame hrq] at this

theorem Pids.write (P : Pids g) (I : Inv n g) (hw : w.Allowed n ok (g.acct h) q) :
    Pids (g.wrote h q w) := by
  by_cases hf : w = .free
  · subst hf
    exact P.free I hw
  have hcases := setProc_cases g q (w.apply (g.proc q))
  refine P.keep rfl (fun r => ?_) (fun r hr => ?_) (fun r t hr => ?_) fun p r hr => kid_put (fun _ => hw.kid) hr
  · rcases hcases r with ⟨rfl, he⟩ | ⟨-, he⟩
    · rw [put_proc, he, Wr.pid_apply hf]
    · rw [put_proc, he]
  · rcases hcases r with ⟨rfl, he⟩ | ⟨-, he⟩
    · rw [put_proc, he] at hr
      exact hw.used I.locks I.jobs hr
    · rwa [put_proc, he] at hr
  · rcases hcases r with ⟨rfl, he⟩ | ⟨-, he⟩
    · rw [put_proc, he] at hr
      cases w with
      | free => exact absurd rfl hf
      | parent m =>
        cases hr
        obtain ⟨hwait, ⟨hj, hme⟩ | ⟨⟨d, hj⟩, hpar, rfl⟩⟩ := hw
        · refine P.kid t r ?_
          rw [← I.locks.on_of_me hme, ← acct, hj]
          rfl
        · -- the child goes from a process to the one with the smallest pid
          obtain ⟨m, hon⟩ := I.jobs.on_of_job (h := h) (by simp [hj])
          have hme : (g.acct h).me = some m := by
            rw [acct_eq hon]
            exact I.locks.me_proc
          have hm : (g.proc r).parent = some m := (I.jobs.par (g.on h) hwait r _ hpar).trans hme
          have hlt := P.parent r m hm
          have hpos := (P.range m (by simp [I.tree.live r m hm])).1
          rw [P.init]
          omega
      | _ => exact P.parent r t hr
    · rw [put_proc, he] at hr
      exact P.parent r t hr

theorem wrap32_of_lt {i : Int} (h0 : 0 ≤ i) (h₁ : i < 2147483648) : wrap32 i = i := by
  rw [wrap32, Int.bmod_eq_of_le (by omega) (by omega)]

theorem wrap32_succ_ne (i : Int) : wrap32 (i + 1) ≠ i := by
  intro h
  have hmod : (i + 1).bmod (2 ^ 32) % (2 ^ 32 : Nat) = (i + 1) % (2 ^ 32 : Nat) := Int.bmod_emod
  rw [show (i + 1).bmod (2 ^ 32) = i from h] at hmod
  omega

theorem Pids.take (P : Pids g) (I : Inv n g) (hq : q < n) (hme : (g.acct h).me ≠ none) (hj : (g.acct h).job = .none)
    (hi : (g.acct h).In q .unused) (hnext : wrap32 (g.nextpid + 1) = g.nextpid + 1) :
    Pids ((g.setProc q (taken g.nextpid (g.proc q))).put (g.on h) { (g.acct h).upd q (taken g.nextpid) with job := .took q }).bump := by
  have I' := I.move (.take q hq hme hj hi : Move n (fun _ => True) h g _)
  have hun : phase (g.proc q) = .unused := phase_eq_unused.2 (I.locks.state hi)
  have hused : ∀ {r}, phase (g.proc r) ≠ .unused → r ≠ q := fun hr he => hr (he ▸ hun)
  have hself : (g.setProc q (taken g.nextpid (g.proc q))).proc q = taken g.nextpid (g.proc q) := setProc_proc
  have hsame : ∀ {r}, r ≠ q → (g.setProc q (taken g.nextpid (g.proc q))).proc r = g.proc r := fun hr => setProc_proc_ne hr
  have hinit : initproc ≠ q := hused (by simp [I.tree.init.1])
  have h1 := (P.range initproc (by simp [I.tree.init.1])).2
  rw [P.init] at h1
  have hlt : ∀ {r}, r ≠ q → phase ((g.setProc q (taken g.nextpid (g.proc q))).proc r) ≠ .unused →
      0 < (g.proc r).pid ∧ (g.proc r).pid < g.nextpid := by
    intro r hr hph
    rw [hsame hr] at hph
    exact P.range r hph
  refine ⟨?_, fun r hr => ?_, fun r t hr ht he => ?_, fun r t hr => ?_, fun p r hr => ?_⟩
  · exact (congrArg Proc.pid (hsame hinit)).trans P.init
  · change 0 < ((g.setProc q _).proc r).pid ∧ ((g.setProc q _).proc r).pid < wrap32 (g.nextpid + 1)
    rw [hnext]
    rcases eq_or_ne r q with rfl | hne
    · rw [hself]
      exact ⟨by change 0 < g.nextpid; omega, by change g.nextpid < g.nextpid + 1; omega⟩
    · have := hlt hne hr
      rw [hsame hne]
      omega
  · change ((g.setProc q (taken g.nextpid (g.proc q))).proc r).pid = ((g.setProc q (taken g.nextpid (g.proc q))).proc t).pid at he
    rcases eq_or_ne r q with rfl | hrq
    · rcases eq_or_ne t r with rfl | htq
      · rfl
      · have := hlt htq ht
        rw [hself, hsame htq] at he
        change g.nextpid = _ at he
        omega
    · rcases eq_or_ne t q with rfl | htq
      · have := hlt hrq hr
        rw [hself, hsame hrq] at he
        change _ = g.nextpid at he
        omega
      · rw [hsame hrq, hsame htq] at he
        have := P.inj r t
        rw [← hsame hrq, ← hsame htq] at this
        exact this hr ht (by rw [hsame hrq, hsame htq, he])
  · change ((g.setProc q (taken g.nextpid (g.proc q))).proc r).parent = some t at hr
    have hrq : r ≠ q := by
      rintro rfl
      rw [hself] at hr
      cases (I.tree.unused r hun).symm.trans hr
    rw [hsame hrq] at hr
    have htq : t ≠ q := hused (by simp [I.tree.live r t hr])
    have := P.parent r t hr
    rwa [← hsame hrq, ← hsame htq] at this
  · obtain ⟨hp, hru⟩ := I'.jobs.of_kid hr
    change phase ((g.setProc q (taken g.nextpid (g.proc q))).proc p) = .live at hp
    have hpq : p ≠ q := by
      rintro rfl
      rw [hself] at hp
      cases hp
    rcases eq_or_ne r q with rfl | hrq
    · have := hlt hpq (by simp [hp])
      change ((g.setProc r _).proc p).pid < ((g.setProc r _).proc r).pid
      rw [hself, hsame hpq]
      exact this.2
    · have hk : (g.acc (.proc p)).job.kid = some r := by
        rcases eq_or_ne (.proc p) (g.on h) with he | hne
        · change ((g.put (g.on h) _).acc (.proc p)).job.kid = some r at hr
          rw [he, put_acc] at hr
          exact absurd (Option.some.inj hr).symm hrq
        · change ((g.put (g.on h) _).acc (.proc p)).job.kid = some r at hr
          rwa [put_acc_ne hne] at hr
      have := P.kid p r hk
      rwa [← hsame hpq, ← hsame hrq] at this

theorem Pids.move (P : Pids g) (I : Inv n g) (hm : Move n ok h g g') (hb : g'.nextpid = g.nextpid ∨ g'.nextpid = g.nextpid + 1) :
    Pids g' := by
  obtain ⟨L, R, J, T, W⟩ := id I
  cases hm with
  | act a ha => exact P.keep rfl (fun _ => rfl) (fun _ h => h) P.parent fun p q hq => kid_put ha.mild.kid hq
  | write q w hw => exact P.write I hw
  | take q hq hme hj hi => exact P.take I hq hme hj hi (hb.resolve_left (wrap32_succ_ne _))
  | newctx q hj =>
    refine P.keep rfl (fun _ => rfl) (fun _ h => h) P.parent fun p r hr => ?_
    by_cases hpq : p = q
    · rw [hpq, put_acc] at hr
      cases hr
    · rw [put_acc_ne (fun he => hpq (by cases he; rfl))] at hr
      refine kid_put (fun t ht => ?_) hr
      rw [hj]
      exact ht
  | swtchTo p x hx ha =>
    refine P.keep rfl (fun _ => rfl) (fun _ h => h) P.parent fun p' r hr => ?_
    exact (relocked_swtchTo L R ha (.proc p')).job ▸ hr
  | sched p x hm hheld =>
    refine P.keep rfl (fun _ => rfl) (fun _ h => h) P.parent fun p' r hr => ?_
    exact (relocked_sched L R hm hheld (.proc p')).job ▸ hr

/-! ## Runs that count the processes -/

/-- The code takes a slot of the process table next. -/
def takes : K Unit → Bool
  | .op (.take _) _ => true
  | _ => false

/-- How many processes `fork` has created, those it could not finish included. -/
def created (s : Sys N) (e : Ev N) (_ : Sys N) (c : Nat) : Nat :=
  match e with
  | .step h _ => if takes (s.hart h).code then c + 1 else c
  | _ => c

theorem Sys.nextpid_of_exec {ans : Ans} {c : K Unit} (hs : s.exec h ans c = some s') :
    s'.nextpid = if takes c then wrap32 (s.nextpid + 1) else s.nextpid := by
  cases c with
  | ret u | panic m => cases hs
  | op e k =>
    cases e with
    | acquire l | release l | sched p =>
      simp only [exec] at hs
      split at hs
      · cases hs
        rfl
      · cases hs
    | _ =>
      cases hs
      rfl

def Counted (n : Nat) (s : Sys N) (c : Nat) : Prop :=
  ∃ g, Sim n (fun _ => True) s g ∧ Inv n g ∧ (c + 1 < 2 ^ 31 - 1 → g.nextpid = c + 2 ∧ Pids g)

theorem Pids.boot {root : Nat} {t0 t : UInt64} : Pids (boot N root t0 t).rest where
  init := rfl
  range q hq := by
    rcases boot_phase (N := N) q with ⟨-, rfl⟩ | ⟨h, -⟩
    · exact ⟨by change (0 : Int) < 1; decide, by change (1 : Int) < 2; decide⟩
    · exact absurd h hq
  inj q r hq hr _ := by
    rcases boot_phase (N := N) q with ⟨-, rfl⟩ | ⟨h, -⟩
    · rcases boot_phase (N := N) r with ⟨-, rfl⟩ | ⟨h, -⟩
      · rfl
      · exact absurd h hr
    · exact absurd h hq
  parent q r hr := by cases (boot_parent (N := N) q).symm.trans hr
  kid := nofun

theorem Counted.step (hn : initproc < n) {c : Nat} {e : Ev N} (hk : Counted n s c) (hs : s.step n e = some s') :
    Counted n s' (created s e s' c) := by
  obtain ⟨g, S, I, hP⟩ := hk
  obtain ⟨g', hm, S'⟩ := S.step hn I e.ok_true hs
  refine ⟨g', S', I.step hm, fun hc => ?_⟩
  have hle : created s e s' c = c ∨ created s e s' c = c + 1 := by
    unfold created
    split
    · split
      · exact .inr rfl
      · exact .inl rfl
    · exact .inl rfl
  obtain ⟨hnext, P⟩ := hP (by omega)
  have hnext' : g'.nextpid = created s e s' c + 2 := by
    rw [S'.nextpid]
    rcases step_cases hs with ⟨h, ans, rfl, hx⟩ | ⟨hne, h, k, rfl⟩
    · rw [nextpid_of_exec hx, created]
      rw [created] at hc
      split
      · rename_i ht
        rw [if_pos ht] at hc
        rw [← S.nextpid, hnext, wrap32_of_lt (by omega) (by omega)]
        omega
      · rw [← S.nextpid, hnext]
    · have : created s e (s.goto h k) c = c := by
        cases e with
        | step h ans => exact absurd rfl (hne h ans)
        | _ => rfl
      rw [this]
      exact S.nextpid.symm.trans hnext
  refine ⟨hnext', ?_⟩
  rcases hm with rfl | ⟨h, hm⟩
  · exact P
  · exact P.move I hm (by omega)

/-! ## The tree -/

def Sys.ParentOf (s : Sys N) (q r : Nat) : Prop := (s.proc q).parent = some r

theorem Pids.to_init (P : Pids g) (T : Tree n g.proc) (hp : Sim n ok s g) (q : Nat) (hq : (g.proc q).parent ≠ none ∨ q = initproc) :
    Relation.ReflTransGen s.ParentOf q initproc := by
  -- on the pid, which the parents make smaller
  induction hi : (g.proc q).pid.toNat using Nat.strongRecOn generalizing q with
  | ind i ih =>
    by_cases hinit : q = initproc
    · rw [hinit]
    obtain ⟨r, hr⟩ := Option.ne_none_iff_exists'.1 (hq.resolve_right hinit)
    have hlive := T.live q r hr
    have hpos := (P.range r (by simp [hlive])).1
    have hlt := P.parent q r hr
    have hrest := ih _ (by omega) r (or_iff_not_imp_right.2 (T.parent r (.inl hlive))) rfl
    refine .head ?_ hrest
    rw [Sys.ParentOf, ← hp.proc]
    exact hr

theorem process_tree (hn : initproc < n) {root : Nat} {t0 t : UInt64} {es : List (Ev N)} {o : Lts.Noted (Sys N) Nat}
    (hr : Lts.run (Lts.noted (step n) created) ⟨.boot N root t0 t, 0⟩ es = some o) (hc : o.note + 1 < 2 ^ 31 - 1) :
    (∀ q, (o.now.proc q).state ≠ .unused → 0 < (o.now.proc q).pid) ∧
    (∀ q r, (o.now.proc q).state ≠ .unused → (o.now.proc r).state ≠ .unused → (o.now.proc q).pid = (o.now.proc r).pid → q = r) ∧
    (∀ q, (o.now.proc q).state ∈ [ProcState.runnable, .running, .sleeping, .zombie] → q ≠ initproc → (o.now.proc q).parent ≠ none) ∧
    (∀ q r, (o.now.proc q).parent = some r → (o.now.proc r).state ≠ .unused ∧ (o.now.proc r).state ≠ .zombie) ∧
    (∀ q, ¬Relation.TransGen o.now.ParentOf q q) ∧
    ∀ q, (o.now.proc q).state ∈ [ProcState.runnable, .running, .sleeping, .zombie] ∨ (o.now.proc q).parent ≠ none →
      Relation.ReflTransGen o.now.ParentOf q initproc := by
  have hboot : Counted n (.boot N root t0 t) 0 := ⟨_, Sim.boot, Inv.boot hn, fun _ => ⟨rfl, .boot⟩⟩
  obtain ⟨g, S, I, hP⟩ := Lts.noted_inv hr hboot fun _ _ _ _ hk hs => hk.step hn hs
  obtain ⟨-, P⟩ := hP hc
  have hproc := S.proc
  have hout : ∀ q, (g.proc q).state ∈ [ProcState.runnable, .running, .sleeping, .zombie] → q ≠ initproc → (g.proc q).parent ≠ none := by
    intro q hq
    refine I.tree.parent q ?_
    rw [phase_eq_live, phase_eq_zombie]
    simpa [or_assoc] using hq
  rw [← hproc]
  refine ⟨fun q hq => (P.range q (mt phase_eq_unused.1 hq)).1, fun q r hq hr => P.inj q r (mt phase_eq_unused.1 hq) (mt phase_eq_unused.1 hr),
    hout, fun q r hr => ?_, fun q hq => ?_, fun q hq => ?_⟩
  · have := I.tree.live q r hr
    rw [phase_eq_live] at this
    rcases this with h | h | h
    all_goals
      rw [h]
      exact ⟨nofun, nofun⟩
  · have hlt : ∀ r, Relation.TransGen o.now.ParentOf q r → (g.proc r).pid < (g.proc q).pid := by
      intro r hqr
      induction hqr with
      | single hab => exact P.parent _ _ (hproc ▸ hab)
      | tail _ hab ih => exact Int.lt_trans (P.parent _ _ (hproc ▸ hab)) ih
    exact Int.lt_irrefl _ (hlt q hq)
  · refine P.to_init I.tree S q ?_
    rcases hq with hq | hq
    · exact or_iff_not_imp_right.2 (hout q hq)
    · exact .inl hq

def forkTrace : List (Ev 2) :=
  .round hart₀ .roundRobin :: Ev.steps hart₀ 7 9 ++ .call hart₀ .fork :: Ev.steps hart₀ 8 19

theorem process_tree_fork : ∃ o, Lts.run (Lts.noted (step 64) created) ⟨.boot 2 1 5 5, 0⟩ forkTrace = some o ∧ o.note = 1 ∧
    (o.now.proc 1).state = .runnable ∧ Relation.ReflTransGen o.now.ParentOf 1 initproc := by
  have hr : (Lts.run (Lts.noted (step 64) created) ⟨.boot 2 1 5 5, 0⟩ forkTrace).map
      (fun o => (o.note, (o.now.proc 1).state)) = some (1, .runnable) := by
    decide +kernel
  obtain ⟨o, ho, hl⟩ := Option.map_eq_some_iff.1 hr
  obtain ⟨hc, hst⟩ := Prod.mk.inj hl
  obtain ⟨-, -, -, -, -, hinit⟩ := process_tree (by decide) ho (by rw [hc]; decide)
  exact ⟨o, ho, hc, hst, hinit 1 (.inl (by rw [hst]; decide))⟩

end Xv6.Harts
