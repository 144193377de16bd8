import Xv6.Sleep.Rules

/-!
# Who is awake

What holds between the threads: who holds a lock alone, a process is on one hart, and whoever is about to sleep or sleeps has the
condition against it or a waker before it.
-/

namespace Xv6.Sleep

open Prog
open Harts (Op Lk Wr)
open Sched (Proc ProcState Policy)
open Function (update update_self update_of_ne)
open List Acct

def Acct.PlanOk (a : Acct) (cond : Bool) : Prop :=
  match a.plan with
  | .calm => True
  | .seen => lk ∈ a.held
  | .doomed => lk ∈ a.held ∧ cond = false
  | .drowsy => ∃ p, a.me = some p ∧ .proc p ∈ a.held
  | .waking i ok => lk ∈ a.held ∧ (ok = true → .proc i ∈ a.held)

/-- What an account says is true. -/
structure Own (n : Nat) (cond : Bool) (proc : Nat → Proc) (a : Acct) : Prop where
  nodup : a.held.Nodup
  cur : ∀ p, a.me = some p → a.cur = some p
  bound : ∀ p, a.me = some p → p < n
  /-- A process on a hart is `RUNNING` until it takes its own lock to change that. -/
  run : ∀ p, a.me = some p → (proc p).state = .running ∨ .proc p ∈ a.held
  known : ∀ q st, a.known q = some st → .proc q ∈ a.held ∧ (proc q).state = st
  claim : ∀ p, a.claim = some p → a.me = none ∧ .proc p ∈ a.held ∧ (proc p).state = .running
  plan : a.PlanOk cond

theorem Acct.PlanOk.mono {a b : Acct} {cond : Bool} (hok : a.PlanOk cond) (hplan : b.plan = a.plan) (hme : b.me = a.me)
    (hlk : lk ∈ a.held → lk ∈ b.held) (hproc : ∀ q, .proc q ∈ a.held → .proc q ∈ b.held) : b.PlanOk cond := by
  unfold PlanOk at hok ⊢
  rw [hplan]
  cases hp : a.plan with
  | calm => trivial
  | seen =>
    rw [hp] at hok
    exact hlk hok
  | doomed =>
    rw [hp] at hok
    exact ⟨hlk hok.1, hok.2⟩
  | drowsy =>
    rw [hp] at hok
    obtain ⟨p, hp, hm⟩ := hok
    exact ⟨p, hme.trans hp, hproc p hm⟩
  | waking i ok =>
    rw [hp] at hok
    exact ⟨hlk hok.1, fun hi => hproc i (hok.2 hi)⟩

section
variable {N n chan : Nat}

/-- The process sleeps on the channel or has no lock to take before it does. -/
def Dozes (chan : Nat) (proc : Nat → Proc) (acc : Fin N → Acct) (p : Nat) : Prop :=
  (∃ h, (acc h).me = some p ∧ (acc h).plan = .drowsy) ∨ (proc p).state = .sleeping ∧ (proc p).chan = chan

structure Inv (n chan : Nat) (cond : Bool) (proc : Nat → Proc) (acc : Fin N → Acct) : Prop where
  own : ∀ h, Own n cond proc (acc h)
  mutex : ∀ h h' l, l ∈ (acc h).held → l ∈ (acc h').held → h = h'
  uniq : ∀ h h' p, (acc h).me = some p → (acc h').me = some p → h = h'
  claim : ∀ h h' p, (acc h).claim = some p → (acc h').me ≠ some p
  unused : ∀ p, n ≤ p → (proc p).state = .unused
  seen : ∀ h p, (acc h).plan = .seen → ¬Dozes chan proc acc p
  woken : ∀ h i, (acc h).plan = .waking i true → ¬Dozes chan proc acc i
  awake : ∀ p, Dozes chan proc acc p → cond = false ∨ ∃ h i ok, (acc h).plan = .waking i ok ∧ i ≤ p

variable {cond cond' : Bool} {table table' : Nat → Proc} {acc : Fin N → Acct} {a b : Acct} {h h' : Fin N} {p q : Nat} {l : Lk} {w : Wr}

theorem Own.frame (O : Own n cond table a) (hcond : cond' = cond ∨ lk ∉ a.held) (htable : ∀ q, table' q = table q ∨ .proc q ∉ a.held)
    (hrun : ∀ q, a.me = some q → (table q).state = .running → (table' q).state = .running) : Own n cond' table' a where
  nodup := O.nodup
  cur := O.cur
  bound := O.bound
  run p hp := (O.run p hp).imp_left (hrun p hp)
  known q st hq := by
    obtain ⟨hm, hst⟩ := O.known q st hq
    exact ⟨hm, ((htable q).resolve_right (not_not_intro hm)) ▸ hst⟩
  claim p hp := by
    obtain ⟨hme, hm, hst⟩ := O.claim p hp
    exact ⟨hme, hm, ((htable p).resolve_right (not_not_intro hm)) ▸ hst⟩
  plan := by
    have hplan := O.plan
    unfold Acct.PlanOk at hplan ⊢
    split <;> simp_all

theorem Inv.move (I : Inv n chan cond table acc) (hown : Own n cond' table' b)
    (hheld : ∀ l ∈ b.held, l ∈ (acc h).held ∨ ∀ h', l ∉ (acc h').held) (hcond : cond' = cond ∨ lk ∈ (acc h).held)
    (htable : ∀ q, table' q = table q ∨ .proc q ∈ (acc h).held)
    (hrun : ∀ q, (table q).state = .running → (table' q).state = .running ∨ (acc h).me = some q)
    (hunused : ∀ q, n ≤ q → (table' q).state = .unused)
    (hme : ∀ p, b.me = some p → (acc h).me = some p ∨ (acc h).claim = some p)
    (hclaim : ∀ p, b.claim = some p → ∀ h', h' ≠ h → (acc h').me ≠ some p)
    (hdoze : ∀ p, Dozes chan table' (update acc h b) p → Dozes chan table acc p ∨ lk ∈ (acc h).held)
    (hseen : b.plan = .seen → ∀ p, ¬Dozes chan table' (update acc h b) p)
    (hwoken : ∀ i, b.plan = .waking i true → ¬Dozes chan table' (update acc h b) i)
    (hawake : ∀ p, Dozes chan table' (update acc h b) p →
      cond' = false ∨ ∃ h0 i ok, (update acc h b h0).plan = .waking i ok ∧ i ≤ p) :
    Inv n chan cond' table' (update acc h b) := by
  have hself : update acc h b h = b := update_self ..
  have hoth : ∀ {h'}, h' ≠ h → update acc h b h' = acc h' := fun hne => update_of_ne hne ..
  -- A lock in the hands of hart `h` is not in those of another.
  have hexcl : ∀ {h' l}, h' ≠ h → l ∈ (acc h).held → l ∉ (acc h').held := fun hne hl hl' => hne (I.mutex _ _ _ hl' hl)
  refine ⟨fun h' => ?_, fun h1 h2 l h1l h2l => ?_, fun h1 h2 p hp1 hp2 => ?_, fun h1 h2 p hc hp => ?_, hunused, fun h' p hs hd => ?_,
    fun h' i hw hd => ?_, hawake⟩
  · rcases eq_or_ne h' h with rfl | hne
    · rwa [hself]
    rw [hoth hne]
    refine (I.own h').frame (hcond.imp_right (hexcl hne)) (fun q => (htable q).imp_right (hexcl hne)) fun q hq hst => ?_
    exact (hrun q hst).resolve_right fun hq' => hne (I.uniq _ _ _ hq hq')
  · by_contra hne
    rcases eq_or_ne h1 h with rfl | h1h
    · rw [hself] at h1l
      rw [hoth (Ne.symm hne)] at h2l
      rcases hheld l h1l with hl | hl
      · exact hne (I.mutex _ _ _ hl h2l)
      · exact hl _ h2l
    · rw [hoth h1h] at h1l
      rcases eq_or_ne h2 h with rfl | h2h
      · rw [hself] at h2l
        rcases hheld l h2l with hl | hl
        · exact hne (I.mutex _ _ _ h1l hl)
        · exact hl _ h1l
      · rw [hoth h2h] at h2l
        exact hne (I.mutex _ _ _ h1l h2l)
  · have key : ∀ {h'}, h' ≠ h → b.me = some p → (acc h').me = some p → False := by
      intro h' hne hb hp
      rcases hme p hb with hm | hm
      · exact hne (I.uniq _ _ _ hp hm)
      · exact I.claim _ _ _ hm hp
    by_contra hne
    rcases eq_or_ne h1 h with rfl | h1h
    · rw [hself] at hp1
      rw [hoth (Ne.symm hne)] at hp2
      exact key (Ne.symm hne) hp1 hp2
    · rw [hoth h1h] at hp1
      rcases eq_or_ne h2 h with rfl | h2h
      · rw [hself] at hp2
        exact key h1h hp2 hp1
      · rw [hoth h2h] at hp2
        exact hne (I.uniq _ _ _ hp1 hp2)
  · rcases eq_or_ne h1 h with rfl | h1h
    · rw [hself] at hc
      rcases eq_or_ne h2 h1 with rfl | h2h
      · rw [hself] at hp
        rw [(hown.claim p hc).1] at hp
        cases hp
      · rw [hoth h2h] at hp
        exact hclaim p hc h2 h2h hp
    · rw [hoth h1h] at hc
      rcases eq_or_ne h2 h with rfl | h2h
      · rw [hself] at hp
        rcases hme p hp with hm | hm
        · exact I.claim _ _ _ hc hm
        · exact hexcl h1h ((I.own _).claim p hm).2.1 ((I.own _).claim p hc).2.1
      · rw [hoth h2h] at hp
        exact I.claim _ _ _ hc hp
  · rcases eq_or_ne h' h with rfl | hne
    · rw [hself] at hs
      exact hseen hs p hd
    rw [hoth hne] at hs
    have hplan := (I.own h').plan
    simp only [Acct.PlanOk, hs] at hplan
    rcases hdoze p hd with hd | hl
    · exact I.seen h' p hs hd
    · exact hexcl hne hl hplan
  · rcases eq_or_ne h' h with rfl | hne
    · rw [hself] at hw
      exact hwoken i hw hd
    rw [hoth hne] at hw
    have hplan := (I.own h').plan
    simp only [Acct.PlanOk, hw] at hplan
    rcases hdoze i hd with hd | hl
    · exact I.woken h' i hw hd
    · exact hexcl hne hl hplan.1

theorem Inv.keep (I : Inv n chan cond table acc) (hown : Own n cond table' b)
    (hheld : ∀ l ∈ b.held, l ∈ (acc h).held ∨ ∀ h', l ∉ (acc h').held)
    (htable : ∀ q, table' q = table q ∨ .proc q ∈ (acc h).held)
    (hrun : ∀ q, (table q).state = .running → (table' q).state = .running ∨ (acc h).me = some q)
    (hunused : ∀ q, n ≤ q → (table' q).state = .unused)
    (hme : ∀ p, b.me = some p → (acc h).me = some p ∨ (acc h).claim = some p)
    (hclaim : ∀ p, b.claim = some p → ∀ h', h' ≠ h → (acc h').me ≠ some p)
    (hplan : b.plan = (acc h).plan) (hdoze : ∀ p, Dozes chan table' (update acc h b) p → Dozes chan table acc p) :
    Inv n chan cond table' (update acc h b) := by
  have hplans : ∀ h', (update acc h b h').plan = (acc h').plan := by
    intro h'
    rcases eq_or_ne h' h with rfl | hne
    · rw [update_self, hplan]
    · rw [update_of_ne hne]
  refine I.move hown hheld (.inl rfl) htable hrun hunused hme hclaim (fun p hd => .inl (hdoze p hd))
    (fun hs p hd => I.seen h p (hplan ▸ hs) (hdoze p hd)) (fun i hw hd => I.woken h i (hplan ▸ hw) (hdoze i hd)) fun p hd => ?_
  refine (I.awake p (hdoze p hd)).imp_right ?_
  rintro ⟨h0, i, ok, hi, hle⟩
  exact ⟨h0, i, ok, (hplans h0).trans hi, hle⟩

theorem Dozes.of_update (hb : b.plan = .drowsy → (acc h).plan = .drowsy ∧ b.me = (acc h).me)
    (htable : (table' p).state = .sleeping → (table' p).chan = chan → Dozes chan table acc p)
    (hd : Dozes chan table' (update acc h b) p) : Dozes chan table acc p := by
  rcases hd with ⟨h', hme, hplan⟩ | ⟨hst, hc⟩
  · rcases eq_or_ne h' h with rfl | hne
    · rw [update_self] at hme hplan
      exact .inl ⟨h', (hb hplan).2 ▸ hme, (hb hplan).1⟩
    · rw [update_of_ne hne] at hme hplan
      exact .inl ⟨h', hme, hplan⟩
  · exact htable hst hc

section
variable (I : Inv n chan cond table acc)
include I

theorem Inv.lt (hd : Dozes chan table acc p) : p < n := by
  rcases hd with ⟨h, hme, -⟩ | ⟨hst, -⟩
  · exact (I.own h).bound p hme
  · by_contra hn
    rw [I.unused p (by omega)] at hst
    cases hst

theorem Inv.awake_update (hd : Dozes chan table acc p)
    (hb : ∀ i ok, (acc h).plan = .waking i ok → i ≤ p → ∃ j ok', b.plan = .waking j ok' ∧ j ≤ p) :
    cond = false ∨ ∃ h0 i ok, (update acc h b h0).plan = .waking i ok ∧ i ≤ p := by
  refine (I.awake p hd).imp_right ?_
  rintro ⟨h0, i, ok, hi, hle⟩
  rcases eq_or_ne h0 h with rfl | hne
  · obtain ⟨j, ok', hj, hle⟩ := hb i ok hi hle
    exact ⟨h0, j, ok', by rwa [update_self], hle⟩
  · exact ⟨h0, i, ok, by rwa [update_of_ne hne], hle⟩

theorem Inv.not_drowsy (hq : .proc q ∈ (acc h).held) (hp : (acc h).plan ≠ .drowsy)
    (hme : (acc h').me = some q) : (acc h').plan ≠ .drowsy := by
  intro hd
  have hplan := (I.own h').plan
  simp only [Acct.PlanOk, hd] at hplan
  obtain ⟨p, hp', hm⟩ := hplan
  cases hme.symm.trans hp'
  cases I.mutex _ _ _ hq hm
  exact hp hd

/-! One lemma for each operation. -/

theorem Inv.acquire (hl : ∀ h', l ∉ (acc h').held) :
    Inv n chan cond table (update acc h ((acc h).acquire l)) := by
  have O := I.own h
  refine I.keep ⟨?_, O.cur, O.bound, fun p hp => (O.run p hp).imp_right (mem_cons_of_mem _), fun q st hq => ?_, fun p hp => ?_, ?_⟩
    (fun l' hl' => ?_) (fun _ => .inl rfl) (fun _ hst => .inl hst) I.unused (fun _ => .inl) (fun p hp h' _ => I.claim h h' p hp) rfl
    fun p => Dozes.of_update (fun hd => ⟨hd, rfl⟩) fun hst hc => .inr ⟨hst, hc⟩
  · exact nodup_cons.2 ⟨hl h, O.nodup⟩
  · by_cases hlq : l = .proc q
    · subst hlq
      refine ⟨mem_cons_self, ?_⟩
      simp only [acquire, update_self] at hq
      split at hq
      case isTrue hme => cases hq; exact (O.run q hme).resolve_right (hl h)
      case isFalse => cases hq
    · have hk : ((acc h).acquire l).known q = (acc h).known q := by
        cases l with
        | proc r => exact update_of_ne (fun e => hlq (congrArg Lk.proc e.symm)) ..
        | _ => rfl
      exact (O.known q st (hk ▸ hq)).imp_left (mem_cons_of_mem _)
  · obtain ⟨hme, hm, hst⟩ := O.claim p hp
    exact ⟨hme, mem_cons_of_mem _ hm, hst⟩
  · exact O.plan.mono rfl rfl (mem_cons_of_mem _) fun _ => mem_cons_of_mem _
  · rcases mem_cons.1 hl' with rfl | hl'
    · exact .inr hl
    · exact .inl hl'

theorem Inv.releaseOther {i : Nat} (hm : MayRelease n (acc h) (.other i)) :
    Inv n chan cond table (update acc h ((acc h).release (.other i))) := by
  have O := I.own h
  have hplan := O.plan
  have hproc : ∀ q, .proc q ∈ (acc h).held → .proc q ∈ (acc h).held.erase (.other i) := fun q hq =>
    (mem_erase_of_ne (by simp)).2 hq
  have hdoze : ∀ p, Dozes chan table (update acc h ((acc h).release (.other i))) p → Dozes chan table acc p ∨ (acc h).plan = .doomed := by
    intro p hd
    by_cases hp : (acc h).plan = .doomed
    · exact .inr hp
    · refine .inl (Dozes.of_update (fun hb => ?_) (fun hst hc => .inr ⟨hst, hc⟩) hd)
      cases hpl : (acc h).plan <;> simp_all [release, MayRelease]
  refine I.move ⟨O.nodup.erase _, O.cur, O.bound, fun p hp => (O.run p hp).imp_right (hproc p),
      fun q st hq => (O.known q st hq).imp_left (hproc q), fun p hp => ?_, ?_⟩ (fun l hl => .inl (mem_of_mem_erase hl)) (.inl rfl)
    (fun _ => .inl rfl) (fun _ => .inl) I.unused (fun _ => .inl) (fun p hp h' _ => I.claim h h' p hp) (fun p hd => ?_) (fun hs => ?_)
    (fun j hw => ?_) fun p hd => ?_
  · obtain ⟨hme, hmem, hst⟩ := O.claim p hp
    exact ⟨hme, hproc p hmem, hst⟩
  · unfold Acct.PlanOk MayRelease at *
    cases hpl : (acc h).plan <;> simp_all [release]
  · refine (hdoze p hd).imp_right fun hp => ?_
    simp only [Acct.PlanOk, hp] at hplan
    exact hplan.1
  · cases hpl : (acc h).plan <;> simp_all [release]
  · cases hpl : (acc h).plan <;> simp_all [release]
  · rcases hdoze p hd with hd | hp
    · refine I.awake_update hd fun j ok hj hle => ?_
      simp only [MayRelease, hj] at hm
      exact absurd (I.lt hd) (by omega)
    · simp only [Acct.PlanOk, hp] at hplan
      exact .inl hplan.2

theorem Inv.releaseProc (hm : MayRelease n (acc h) (.proc q)) :
    Inv n chan cond table (update acc h ((acc h).release (.proc q))) := by
  obtain ⟨hdrowsy, hself, hok, hcl⟩ := hm
  have O := I.own h
  have hplan := O.plan
  have hproc : ∀ p, p ≠ q → .proc p ∈ (acc h).held → .proc p ∈ (acc h).held.erase (.proc q) := fun p hne hp =>
    (mem_erase_of_ne (by simpa using hne)).2 hp
  have hlk : lk ∈ (acc h).held → lk ∈ (acc h).held.erase (.proc q) := (mem_erase_of_ne (by simp [lk])).2
  have hdoze : ∀ p, Dozes chan table (update acc h ((acc h).release (.proc q))) p → Dozes chan table acc p := by
    intro p
    refine Dozes.of_update (fun hb => ?_) fun hst hc => .inr ⟨hst, hc⟩
    cases hpl : (acc h).plan <;> simp_all [release]
    split at hb <;> cases hb
  refine I.move ⟨O.nodup.erase _, O.cur, O.bound, fun p hp => ?_, fun r st hr => ?_, fun p hp => ?_, ?_⟩
    (fun l hl => .inl (mem_of_mem_erase hl)) (.inl rfl) (fun _ => .inl rfl) (fun _ => .inl) I.unused (fun _ => .inl)
    (fun p hp h' _ => I.claim h h' p hp) (fun p hd => .inl (hdoze p hd)) (fun hs p hd => ?_) (fun j hw hd => ?_) fun p hd => ?_
  · rcases eq_or_ne p q with rfl | hne
    · exact .inl (O.known p _ (hself hp)).2
    · exact (O.run p hp).imp_right (hproc p hne)
  · rcases eq_or_ne r q with rfl | hne
    · simp [release] at hr
    · simp only [release, update_of_ne hne] at hr
      exact (O.known r st hr).imp_left (hproc r hne)
  · obtain ⟨hme, hmem, hst⟩ := O.claim p hp
    exact ⟨hme, hproc p (fun e => hcl (e ▸ hp)) hmem, hst⟩
  · unfold Acct.PlanOk at *
    cases hpl : (acc h).plan with
    | waking i ok =>
      simp only [hpl] at hplan
      by_cases hqi : q = i
      · simpa [release, hpl, hqi] using hqi ▸ hlk hplan.1
      · simpa [release, hpl, hqi] using ⟨hlk hplan.1, fun hk => hproc i (Ne.symm hqi) (hplan.2 hk)⟩
    | _ => simp_all [release]
  · refine I.seen h p ?_ (hdoze p hd)
    cases hpl : (acc h).plan <;> simp_all [release]
    split at hs <;> cases hs
  · refine I.woken h j ?_ (hdoze j hd)
    cases hpl : (acc h).plan <;> simp_all [release]
    split at hw <;> simp_all
  · have hd := hdoze p hd
    refine I.awake_update hd fun i ok hi hle => ?_
    by_cases hqi : q = i
    · subst hqi
      have hk := hok ok hi
      subst hk
      have hne : p ≠ q := fun e => I.woken h q hi (e ▸ hd)
      exact ⟨q + 1, false, by simp [release, hi], by omega⟩
    · exact ⟨i, ok, by simp [release, hi, hqi], hle⟩

theorem Inv.releasePlain (hplain : (acc h).release l = { acc h with held := (acc h).held.erase l })
    (hproc : ∀ q, l ≠ .proc q) (hlk : l ≠ lk) : Inv n chan cond table (update acc h ((acc h).release l)) := by
  have O := I.own h
  have herase : ∀ l', l' ≠ l → l' ∈ (acc h).held → l' ∈ (acc h).held.erase l := fun l' hne => (mem_erase_of_ne hne).2
  have hq : ∀ q, .proc q ∈ (acc h).held → .proc q ∈ (acc h).held.erase l := fun q => herase _ (hproc q).symm
  rw [hplain]
  refine I.keep ⟨O.nodup.erase _, O.cur, O.bound, fun p hp => (O.run p hp).imp_right (hq p),
      fun q st hk => (O.known q st hk).imp_left (hq q), fun p hp => ?_, ?_⟩ (fun l hl => .inl (mem_of_mem_erase hl))
    (fun _ => .inl rfl) (fun _ => .inl) I.unused (fun _ => .inl) (fun p hp h' _ => I.claim h h' p hp) rfl
    fun p => Dozes.of_update (fun hd => ⟨hd, rfl⟩) fun hst hc => .inr ⟨hst, hc⟩
  · obtain ⟨hme, hmem, hst⟩ := O.claim p hp
    exact ⟨hme, hq p hmem, hst⟩
  · exact O.plan.mono rfl rfl (herase _ hlk.symm) hq

theorem Inv.release (hm : MayRelease n (acc h) l) :
    Inv n chan cond table (update acc h ((acc h).release l)) := by
  cases l with
  | proc q => exact I.releaseProc hm
  | other i => exact I.releaseOther hm
  | _ => exact I.releasePlain rfl (fun q => by simp) (by simp [lk])

theorem Inv.see (hq : .proc q ∈ (acc h).held) :
    Inv n chan cond table (update acc h ((acc h).see chan q (table q))) := by
  have O := I.own h
  have hplan := O.plan
  have hdoze : ∀ p, Dozes chan table (update acc h ((acc h).see chan q (table q))) p → Dozes chan table acc p := by
    intro p
    refine Dozes.of_update (fun hb => ?_) fun hst hc => .inr ⟨hst, hc⟩
    cases hpl : (acc h).plan <;> simp_all [Acct.see]
    split at hb <;> cases hb
  refine I.move ⟨O.nodup, O.cur, O.bound, O.run, fun r st hr => ?_, O.claim, ?_⟩ (fun _ => .inl) (.inl rfl) (fun _ => .inl rfl)
    (fun _ => .inl) I.unused (fun _ => .inl) (fun p hp h' _ => I.claim h h' p hp) (fun p hd => .inl (hdoze p hd)) (fun hs p hd => ?_)
    (fun j hw hd => ?_) fun p hd => ?_
  · rcases eq_or_ne r q with rfl | hne
    · simp only [see, update_self, Option.some.injEq] at hr
      exact ⟨hq, hr⟩
    · simp only [Acct.see, update_of_ne hne] at hr
      exact O.known r st hr
  · unfold Acct.PlanOk at *
    cases hpl : (acc h).plan with
    | waking i ok =>
      simp only [hpl] at hplan
      by_cases hqi : i = q ∧ ¬((table q).state = .sleeping ∧ (table q).chan = chan)
      · simpa only [Acct.see, hpl, if_pos hqi] using ⟨hplan.1, fun _ => hqi.1 ▸ hq⟩
      · simpa only [Acct.see, hpl, if_neg hqi] using hplan
    | _ => simp_all [Acct.see]
  · refine I.seen h p ?_ (hdoze p hd)
    cases hpl : (acc h).plan <;> simp_all [Acct.see]
    split at hs <;> cases hs
  · cases hpl : (acc h).plan with
    | waking i ok =>
      simp only [Acct.see, hpl] at hw
      split at hw
      case isTrue hqi =>
        obtain ⟨rfl, hns⟩ := hqi
        cases hw
        rcases hdoze _ hd with ⟨h', hme, hp⟩ | hst
        · exact I.not_drowsy hq (by simp [hpl]) hme hp
        · exact hns hst
      case isFalse => exact I.woken h j (hpl.trans hw) (hdoze j hd)
    | _ => simp [Acct.see, hpl] at hw
  · refine I.awake_update (hdoze p hd) fun i ok hi hle => ?_
    by_cases hqi : i = q ∧ ¬((table q).state = .sleeping ∧ (table q).chan = chan)
    · exact ⟨i, true, by simp only [Acct.see, hi, if_pos hqi], hle⟩
    · exact ⟨i, ok, by simp only [Acct.see, hi, if_neg hqi], hle⟩

theorem Inv.skip
    (hs : ∀ i ok, (acc h).plan = .waking i ok → (acc h).cur = (acc h).me ∧ ∀ p, (acc h).me = some p → .proc p ∉ (acc h).held) :
    Inv n chan cond table (update acc h (acc h).skip) := by
  have O := I.own h
  have hplan := O.plan
  have hdoze : ∀ p, Dozes chan table (update acc h (acc h).skip) p → Dozes chan table acc p := by
    intro p
    refine Dozes.of_update (fun hb => ?_) fun hst hc => .inr ⟨hst, hc⟩
    cases hpl : (acc h).plan <;> simp_all [Acct.skip]
    split at hb <;> cases hb
  refine I.move ⟨O.nodup, O.cur, O.bound, O.run, O.known, O.claim, ?_⟩ (fun _ => .inl) (.inl rfl) (fun _ => .inl rfl)
    (fun _ => .inl) I.unused (fun _ => .inl) (fun p hp h' _ => I.claim h h' p hp) (fun p hd => .inl (hdoze p hd)) (fun hs p hd => ?_)
    (fun j hw hd => ?_) fun p hd => ?_
  · unfold Acct.PlanOk at *
    cases hpl : (acc h).plan with
    | waking i ok =>
      simp only [hpl] at hplan
      by_cases hci : (acc h).cur = some i
      · simpa [Acct.skip, hpl, hci] using hplan.1
      · simpa only [Acct.skip, hpl, if_neg hci] using hplan
    | _ => simp_all [Acct.skip]
  · refine I.seen h p ?_ (hdoze p hd)
    cases hpl : (acc h).plan <;> simp_all [Acct.skip]
    split at hs <;> cases hs
  · refine I.woken h j ?_ (hdoze j hd)
    cases hpl : (acc h).plan <;> simp_all [Acct.skip]
    split at hw <;> simp_all
  · have hd := hdoze p hd
    refine I.awake_update hd fun i ok hi hle => ?_
    by_cases hci : (acc h).cur = some i
    · obtain ⟨hcm, hfree⟩ := hs i ok hi
      have hme : (acc h).me = some i := hcm ▸ hci
      have hne : p ≠ i := by
        rintro rfl
        rcases hd with ⟨h', hme', hp⟩ | ⟨hst, -⟩
        · cases I.uniq _ _ _ hme hme'
          rw [hi] at hp
          cases hp
        · rw [(O.run p hme).resolve_right (hfree p hme)] at hst
          cases hst
      exact ⟨i + 1, false, by simp [Acct.skip, hi, hci], by omega⟩
    · exact ⟨i, ok, by simp only [Acct.skip, hi, if_neg hci], hle⟩

end

/-! Writes of a record under its lock. -/

theorem Own.write (O : Own n cond table a) (hq : .proc q ∈ a.held) {x : Proc} {v : Option ProcState} {c : Option Nat} {plan : Plan}
    (hv : ∀ st, v = some st → x.state = st) (hc : ∀ p, c = some p → a.me = none ∧ (a.claim = some p ∧ p ≠ q ∨ p = q ∧ x.state = .running))
    (hplan : Acct.PlanOk { a with plan := plan } cond) :
    Own n cond (update table q x) { a with known := update a.known q v, claim := c, plan := plan } where
  nodup := O.nodup
  cur := O.cur
  bound := O.bound
  run p hp := by
    rcases eq_or_ne p q with rfl | hne
    · exact .inr hq
    · rw [update_of_ne hne]
      exact O.run p hp
  known r st hr := by
    rcases eq_or_ne r q with rfl | hne
    · simp only [update_self] at hr ⊢
      exact ⟨hq, hv st hr⟩
    · simp only [update_of_ne hne] at hr ⊢
      exact O.known r st hr
  claim p hp := by
    obtain ⟨hme, ⟨hcl, hne⟩ | ⟨rfl, hst⟩⟩ := hc p hp
    · rw [update_of_ne hne]
      exact O.claim p hcl
    · rw [update_self]
      exact ⟨hme, hq, hst⟩
  plan := hplan

section
variable (I : Inv n chan cond table acc)
include I

theorem Inv.writeTo (hq : .proc q ∈ (acc h).held) {x : Proc} {v : Option ProcState} {c : Option Nat}
    {plan : Plan} (hv : ∀ st, v = some st → x.state = st)
    (hc : ∀ p, c = some p → (acc h).me = none ∧ ((acc h).claim = some p ∧ p ≠ q ∨ p = q ∧ x.state = .running))
    (hcl : c = some q → ∀ h', (acc h').me ≠ some q) (hrun : (table q).state = .running → x.state = .running ∨ (acc h).me = some q)
    (hunused : n ≤ q → x.state = .unused) (hx : x.state = .sleeping → x.chan = chan → Dozes chan table acc q)
    (hok : Acct.PlanOk { acc h with plan := plan } cond) (hdrowsy : plan = .drowsy → (acc h).plan = .drowsy)
    (hseen : plan = .seen → (acc h).plan = .seen) (hwaking : ∀ i ok, (acc h).plan = .waking i ok → ∃ ok', plan = .waking i ok')
    (hwoken : ∀ i, plan = .waking i true → (acc h).plan = .waking i true ∨ i = q ∧ x.state ≠ .sleeping ∧ (acc h).plan ≠ .drowsy) :
    Inv n chan cond (update table q x)
      (update acc h { acc h with known := update (acc h).known q v, claim := c, plan := plan }) := by
  have hdoze : ∀ p, Dozes chan (update table q x)
      (update acc h { acc h with known := update (acc h).known q v, claim := c, plan := plan }) p → Dozes chan table acc p := by
    intro p
    refine Dozes.of_update (fun hd => ⟨hdrowsy hd, rfl⟩) fun hst hch => ?_
    rcases eq_or_ne p q with rfl | hne
    · rw [update_self] at hst hch
      exact hx hst hch
    · rw [update_of_ne hne] at hst hch
      exact .inr ⟨hst, hch⟩
  refine I.move ((I.own h).write hq hv hc hok) (fun _ => .inl) (.inl rfl) (fun r => ?_) (fun r hst => ?_) (fun r hr => ?_)
    (fun _ => .inl) (fun p hp h' hne => ?_) (fun p hd => .inl (hdoze p hd)) (fun hs p hd => I.seen h p (hseen hs) (hdoze p hd))
    (fun i hi hd => ?_) fun p hd => ?_
  · rcases eq_or_ne r q with rfl | hne
    · exact .inr hq
    · exact .inl (update_of_ne hne ..)
  · rcases eq_or_ne r q with rfl | hne
    · rw [update_self]
      exact hrun hst
    · rw [update_of_ne hne]
      exact .inl hst
  · rcases eq_or_ne r q with rfl | hne
    · rw [update_self]
      exact hunused hr
    · rw [update_of_ne hne]
      exact I.unused r hr
  · rcases (hc p hp).2 with ⟨hold, -⟩ | ⟨rfl, -⟩
    · exact I.claim h h' p hold
    · exact hcl hp h'
  · rcases hwoken i hi with hold | ⟨rfl, hst, hpl⟩
    · exact I.woken h i hold (hdoze i hd)
    rcases hd with ⟨h', hme, hp⟩ | ⟨hs, -⟩
    · rcases eq_or_ne h' h with rfl | hne
      · rw [update_self] at hp
        exact hpl (hdrowsy hp)
      · rw [update_of_ne hne] at hme hp
        exact I.not_drowsy hq hpl hme hp
    · rw [update_self] at hs
      exact hst hs
  · refine I.awake_update (hdoze p hd) fun i ok hi hle => ?_
    obtain ⟨ok', hplan⟩ := hwaking i ok hi
    exact ⟨i, ok', hplan, hle⟩

theorem Inv.write (hq : .proc q ∈ (acc h).held) (hw : Allowed chan (acc h) q w) :
    Inv n chan cond (update table q (w.apply (table q))) (update acc h ((acc h).write q w)) := by
  have O := I.own h
  have hunclaimed : ∀ p, (acc h).me = some q → (acc h).claim ≠ some p := by
    intro p hme hc
    rw [(O.claim p hc).1] at hme
    cases hme
  have hused : ∀ st, (acc h).known q = some st → st ≠ .unused → ¬n ≤ q := fun st hk hne hle =>
    hne ((O.known q st hk).2.symm.trans (I.unused q hle))
  cases w with
  | ready t =>
    rcases hw with ⟨hk, hme, hplan⟩ | ⟨hk, ok, hplan⟩
    · have hwr : (acc h).write q (.ready t) = { acc h with known := update (acc h).known q none } := by simp [write, hplan]
      rw [hwr]
      refine I.writeTo hq (fun _ hv => by cases hv) (fun p hp => absurd hp (hunclaimed p hme)) (fun hp => absurd hp (hunclaimed q hme))
        (fun _ => .inr hme) (fun hle => absurd hle (hused _ hk (by simp))) (fun hs => by cases hs) O.plan id id
        (fun i ok hi => ⟨ok, hi⟩) fun i => .inl
    · have hwr : (acc h).write q (.ready t) = { acc h with known := update (acc h).known q none, plan := .waking q true } := by
        simp [write, hplan]
      have hst := (O.known q _ hk).2
      have hcl : ∀ p, (acc h).claim = some p → p ≠ q := by
        rintro p hp rfl
        rw [(O.claim p hp).2.2] at hst
        cases hst
      rw [hwr]
      refine I.writeTo hq (fun _ hv => by cases hv) (fun p hp => ⟨(O.claim p hp).1, .inl ⟨hp, hcl p hp⟩⟩) (fun hp => absurd rfl (hcl q hp))
        (fun hr => by rw [hr] at hst; cases hst) (fun hle => absurd hle (hused _ hk (by simp))) (fun hs => by cases hs) ?_
        (fun hd => by cases hd) (fun hd => by cases hd) (fun i ok' hi => ?_) fun i hi => ?_
      · have hp := O.plan
        simp only [Acct.PlanOk, hplan] at hp ⊢
        exact ⟨hp.1, fun _ => hq⟩
      · rw [hplan] at hi
        cases hi
        exact ⟨true, rfl⟩
      · cases hi
        exact .inr ⟨rfl, fun hs => (by cases hs), by simp [hplan]⟩
  | kill pid =>
    obtain ⟨hplan, hclaim⟩ := hw
    have hno : ∀ p, (acc h).claim ≠ some p := fun p => by simp [hclaim]
    refine I.writeTo hq (fun st hv => ?_) (fun p hp => absurd hp (hno p)) (fun hp => absurd hp (hno q)) (fun hr => .inl ?_) (fun hle => ?_)
      (fun hs hc => ?_) O.plan id id (fun i ok hi => ⟨ok, hi⟩) fun i => .inl
    · obtain ⟨hk, hr⟩ := Option.filter_eq_some_iff.1 hv
      simp only [decide_eq_true_eq] at hr
      subst hr
      simp [Wr.apply, (O.known q _ hk).2]
    · simp [Wr.apply, hr]
    · simp [Wr.apply, I.unused q hle]
    · simp only [Wr.apply] at hs
      split at hs
      case isTrue => cases hs
      case isFalse hne => exact absurd hs hne
  | sleep c =>
    obtain ⟨rfl, hme, hplan⟩ := hw
    refine I.writeTo hq (fun _ hv => by cases hv) (fun p hp => absurd hp (hunclaimed p hme)) (fun hp => absurd hp (hunclaimed q hme))
      (fun _ => .inr hme) (fun hle => absurd (O.bound q hme) (by omega)) (fun _ _ => .inl ⟨h, hme, hplan⟩) trivial (fun hd => by cases hd)
      (fun hd => by cases hd) (fun i ok hi => by rw [hplan] at hi; cases hi) fun i hi => by cases hi
  | clearChan =>
    obtain ⟨hme, hk⟩ := hw
    have hst := (O.known q _ hk).2
    have hwr : (acc h).write q .clearChan = { acc h with known := update (acc h).known q (some .running) } := by
      rw [← hk, Function.update_eq_self]
      rfl
    rw [hwr]
    refine I.writeTo hq (fun _ hv => ?_) (fun p hp => absurd hp (hunclaimed p hme)) (fun hp => absurd hp (hunclaimed q hme))
      (fun _ => .inr hme) (fun hle => absurd (O.bound q hme) (by omega)) (fun hs => ?_) O.plan id id (fun i ok hi => ⟨ok, hi⟩) fun i => .inl
    · cases hv
      exact hst
    · cases hst.symm.trans hs
  | run t =>
    obtain ⟨hme, hk, hplan, hclaim⟩ := hw
    have hst := (O.known q _ hk).2
    refine I.writeTo hq (fun _ hv => ?_) (fun p hp => ?_) (fun _ h' hme' => ?_) (fun _ => .inl rfl)
      (fun hle => absurd hle (hused _ hk (by simp))) (fun hs => by cases hs) O.plan id id (fun i ok hi => ⟨ok, hi⟩) fun i => .inl
    · cases hv
      rfl
    · cases hp
      exact ⟨hme, .inr ⟨rfl, rfl⟩⟩
    rcases (I.own h').run q hme' with hr | hl
    · rw [hst] at hr
      cases hr
    · cases I.mutex _ _ _ hq hl
      rw [hme] at hme'
      cases hme'
  | _ => exact absurd hw id

theorem Inv.swtchTo (hheld : (acc h).held = [.proc p]) (hclaim : (acc h).claim = some p)
    (hplan : (acc h).plan = .calm) : Inv n chan cond table (update acc h (resumed p)) := by
  have O := I.own h
  obtain ⟨hme, hm, hst⟩ := O.claim p hclaim
  refine I.keep ⟨by simp [resumed], fun q hq => hq, fun q hq => ?_, fun q hq => ?_, fun q st hq => ?_, (fun q hq => by cases hq), trivial⟩
    (fun l hl => .inl (by rwa [hheld])) (fun _ => .inl rfl) (fun _ => .inl) I.unused (fun q hq => ?_) (fun q hq => by cases hq) hplan.symm
    fun q => Dozes.of_update (fun hd => by cases hd) fun hs hc => .inr ⟨hs, hc⟩
  · cases hq
    by_contra hn
    rw [I.unused p (by omega)] at hst
    cases hst
  · cases hq
    exact .inl hst
  · rcases eq_or_ne q p with rfl | hne
    · simp only [resumed, update_self, Option.some.injEq] at hq
      exact ⟨by simp [resumed], hst.trans hq⟩
    · simp [resumed, hne] at hq
  · cases hq
    exact .inr hclaim

theorem Inv.sched (hheld : (acc h).held = [.proc p]) (hplan : (acc h).plan = .calm) :
    Inv n chan cond table (update acc h (returned p)) := by
  refine I.keep ⟨by simp [returned], (fun q hq => by cases hq), (fun q hq => by cases hq), (fun q hq => by cases hq),
      (fun q st hq => by cases hq), (fun q hq => by cases hq), trivial⟩
    (fun l hl => .inl (by rwa [hheld])) (fun _ => .inl rfl) (fun _ => .inl) I.unused (fun q hq => by cases hq) (fun q hq => by cases hq)
    hplan.symm fun q => Dozes.of_update (fun hd => by cases hd) fun hs hc => .inr ⟨hs, hc⟩

theorem Inv.setproc (hme : (acc h).me = none) (c : Option Nat) :
    Inv n chan cond table (update acc h { acc h with cur := c }) := by
  have O := I.own h
  refine I.keep { O with cur := fun q hq => by rw [hme] at hq; cases hq } (fun _ => .inl) (fun _ => .inl rfl) (fun _ => .inl) I.unused
    (fun _ => .inl) (fun p hp h' _ => I.claim h h' p hp) rfl
    fun q => Dozes.of_update (fun hd => ⟨hd, rfl⟩) fun hs hc => .inr ⟨hs, hc⟩

theorem Inv.test (hl : lk ∈ (acc h).held) (hplan : (acc h).plan = .calm) :
    Inv n chan cond table (update acc h { acc h with plan := if cond then .seen else .doomed }) := by
  have O := I.own h
  have hdoze : ∀ p, Dozes chan table (update acc h { acc h with plan := if cond then .seen else .doomed }) p →
      Dozes chan table acc p := fun p => Dozes.of_update (fun hd => by cases cond <;> cases hd) fun hs hc => .inr ⟨hs, hc⟩
  -- No waker is at work while this thread holds the lock.
  have hcalm : ∀ p, Dozes chan table acc p → cond = false := by
    intro p hd
    refine (I.awake p hd).resolve_right ?_
    rintro ⟨h0, i, ok, hi, -⟩
    have hp := (I.own h0).plan
    simp only [Acct.PlanOk, hi] at hp
    cases I.mutex _ _ _ hl hp.1
    rw [hplan] at hi
    cases hi
  refine I.move { O with plan := ?_ } (fun _ => .inl) (.inl rfl) (fun _ => .inl rfl) (fun _ => .inl) I.unused (fun _ => .inl)
    (fun p hp h' _ => I.claim h h' p hp) (fun p hd => .inl (hdoze p hd)) (fun hs p hd => ?_) (fun i hi => ?_) fun p hd => .inl (hcalm p (hdoze p hd))
  · cases cond with
    | true => exact hl
    | false => exact ⟨hl, rfl⟩
  · rw [hcalm p (hdoze p hd)] at hs
    cases hs
  · cases cond <;> cases hi

theorem Inv.assign (hl : lk ∈ (acc h).held) {b : Bool}
    (hplan : (acc h).plan = .seen ∨ (acc h).plan = .calm ∧ b = true) :
    Inv n chan b table (update acc h { acc h with plan := if (acc h).plan = .seen then .seen else .waking 0 false }) := by
  have O := I.own h
  have hdoze : ∀ p, Dozes chan table (update acc h { acc h with plan := if (acc h).plan = .seen then .seen else .waking 0 false }) p →
      Dozes chan table acc p := fun p => Dozes.of_update (fun hd => by simp only at hd; split at hd <;> cases hd) fun hs hc => .inr ⟨hs, hc⟩
  have hown : Own n b table { acc h with plan := if (acc h).plan = .seen then .seen else .waking 0 false } := by
    refine ⟨O.nodup, O.cur, O.bound, O.run, O.known, O.claim, ?_⟩
    rcases hplan with hp | ⟨hp, -⟩ <;> simp [Acct.PlanOk, hp, hl]
  refine I.move hown (fun _ => .inl) (.inr hl) (fun _ => .inl rfl) (fun _ => .inl) I.unused (fun _ => .inl)
    (fun p hp h' _ => I.claim h h' p hp) (fun p hd => .inl (hdoze p hd)) (fun hs p hd => ?_) (fun i hi => ?_) fun p hd => ?_
  · refine I.seen h p ?_ (hdoze p hd)
    by_contra hne
    rw [if_neg hne] at hs
    cases hs
  · split at hi <;> cases hi
  · rcases hplan with hp | ⟨hp, -⟩
    · exact absurd (hdoze p hd) (I.seen h p hp)
    · exact .inr ⟨h, 0, false, by simp [hp], Nat.zero_le _⟩

end

end

end Xv6.Sleep
