import Xv6.Harts.Family

/-!
# No wakeup is lost

`exit` calls `wakeup` before it makes the process a zombie, and `wait` looks for zombies before it sleeps. Both hold
`wait_lock`, and `sleep` takes the lock of the process before it releases `wait_lock`; so whoever wakes the parent finds it
asleep, or finds it awake with a round of `wait` still to come.
-/

namespace Xv6.Harts

open Sched (Proc ProcState freeproc wrap32)
open St Acct Wr

variable {N n : Nat} {ok : Int → Prop} {g g' : St N} {h h' : Fin N} {t t' : Th N} {a : Acct} {l : Lk} {p q r : Nat} {w : Wr}
  {x : Proc}

/-! ## The tree -/

section
variable (T : Tree n g.proc)
include T

theorem Tree.set (hinit : q = initproc → phase x = .live ∧ x.parent = none) (hbound : phase x ≠ .unused → q < n)
    (hun : phase x = .unused → x.parent = none) (hup : ∀ r, x.parent = some r → phase ((g.setProc q x).proc r) = .live)
    (hdown : phase x = .live ∨ ∀ r, (g.proc r).parent ≠ some q)
    (hpar : phase x = .live ∨ phase x = .zombie → q ≠ initproc → x.parent ≠ none) : Tree n (g.setProc q x).proc := by
  refine ⟨?_, fun r hr => ?_, fun r hr => ?_, fun r s hs => ?_, fun r hr hne => ?_⟩
  · rcases setProc_cases _ _ _ initproc with ⟨hq, he⟩ | ⟨-, he⟩
    · rw [he]
      exact hinit hq.symm
    · rw [he]
      exact T.init
  · rcases setProc_cases g q x r with ⟨rfl, he⟩ | ⟨-, he⟩
    · rw [he] at hr
      exact hbound hr
    · rw [he] at hr
      exact T.bound r hr
  · rcases setProc_cases g q x r with ⟨rfl, he⟩ | ⟨-, he⟩
    · rw [he] at hr ⊢
      exact hun hr
    · rw [he] at hr ⊢
      exact T.unused r hr
  · rcases setProc_cases g q x r with ⟨rfl, he⟩ | ⟨-, he⟩
    · rw [he] at hs
      exact hup s hs
    rw [he] at hs
    rcases setProc_cases g q x s with ⟨rfl, he'⟩ | ⟨-, he'⟩
    · rw [he']
      exact hdown.resolve_right fun hn => hn r hs
    · rw [he']
      exact T.live r s hs
  · rcases setProc_cases g q x r with ⟨rfl, he⟩ | ⟨-, he⟩
    · rw [he] at hr ⊢
      exact hpar hr hne
    · rw [he] at hr ⊢
      exact T.parent r hr hne

theorem Tree.soft (hx : Soft (g.proc q) x) : Tree n (g.setProc q x).proc := by
  refine T.set (fun hq => ?_) (fun hp => ?_) (fun hp => ?_) (fun r hr => ?_) ?_ fun hp hq => ?_
  · rw [hx.phase, hx.parent, hq]
    exact T.init
  · exact T.bound q (hx.phase ▸ hp)
  · rw [hx.parent]
    exact T.unused q (hx.phase ▸ hp)
  · rw [(hx.slot r).phase]
    exact T.live q r (hx.parent ▸ hr)
  · by_cases hl : phase (g.proc q) = .live
    · exact .inl (hx.phase.trans hl)
    · exact .inr fun r hr => hl (T.live r q hr)
  · rw [hx.parent]
    exact T.parent q (hx.phase ▸ hp) hq

theorem Tree.ne_init (hq : phase (g.proc q) ≠ .live) : q ≠ initproc := by
  rintro rfl
  exact hq T.init.1

theorem Tree.no_child (hq : phase (g.proc q) ≠ .live) (r : Nat) : (g.proc r).parent ≠ some q :=
  fun hr => hq (T.live r q hr)

theorem Tree.free (hq : phase (g.proc q) ≠ .live) : Tree n (g.setProc q (freeproc (g.proc q))).proc :=
  T.set (fun h => absurd h (T.ne_init hq)) (fun h => absurd rfl h) (fun _ => rfl) nofun (.inr (T.no_child hq))
    fun h => by rcases h with h | h <;> cases h

theorem Tree.take {pid : Int} (hq : phase (g.proc q) = .unused) (hqn : q < n) :
    Tree n (g.setProc q (taken pid (g.proc q))).proc := by
  have hne : phase (g.proc q) ≠ .live := fun h => by cases hq.symm.trans h
  refine T.set (fun h => absurd h (T.ne_init hne)) (fun _ => hqn) nofun (fun r hr => ?_) (.inr (T.no_child hne))
    fun h => by rcases h with h | h <;> cases h
  have : (g.proc q).parent = some r := hr
  cases (T.unused q hq).symm.trans this

end

section
variable (T : Tree n g.proc) (L : Locks g) (J : Jobs g)
include T J

theorem Tree.publish {tm : UInt64} (hj : (g.acct h).job = .child q) :
    Tree n (g.setProc q ((Wr.publish tm).apply (g.proc q))).proc := by
  obtain ⟨p, he⟩ := J.on_of_job (h := h) (by simp [hj])
  have hF := J.fine p
  rw [← he, ← St.acct, hj] at hF
  obtain ⟨hp, hq, hpar⟩ := hF
  have hne : phase (g.proc q) ≠ .live := fun h => by cases hq.symm.trans h
  refine T.set (fun h => absurd h (T.ne_init hne)) (fun _ => T.bound q (by simp [hq])) (fun h => by cases h) (fun r hr => ?_) (.inl rfl)
    fun _ _ h => ?_
  · cases hpar.symm.trans hr
    have hpq : p ≠ q := by
      rintro rfl
      exact hne hp
    rwa [setProc_proc_ne hpq]
  · cases hpar.symm.trans h

include L

theorem Tree.exit {st : Int} (hw : (zombie st).Allowed n ok (g.acct h) q) :
    Tree n (g.setProc q ((Wr.zombie st).apply (g.proc q))).proc := by
  obtain ⟨hme, hi, -, ⟨d, hj, hall⟩, -⟩ := hw
  have he := L.on_of_me hme
  have hF := J.fine q
  rw [← he, ← St.acct, hj] at hF
  obtain ⟨hlive, hq, -, hd⟩ := hF
  -- every slot in use has been looked at
  have hnone : ∀ r, (g.proc r).parent ≠ some q := by
    intro r hr
    refine hd r (hall r (T.bound r fun hun => ?_)) hr
    cases (T.unused r hun).symm.trans hr
  have hpar := T.parent q (.inl hlive) hq
  refine T.set (fun h => absurd h hq) (fun _ => T.bound q (by simp [hlive])) (fun h => by cases h) (fun r hr => ?_) (.inr hnone) fun _ _ => hpar
  have hrq : r ≠ q := by
    rintro rfl
    exact hnone r hr
  rw [setProc_proc_ne hrq]
  exact T.live q r hr

theorem Tree.adopt (hj : (g.acct h).job = .filled q) (hme : (g.acct h).me = some p) :
    Tree n (g.setProc q ((Wr.parent p).apply (g.proc q))).proc := by
  have he := L.on_of_me hme
  have hF := J.fine p
  rw [← he, ← St.acct, hj] at hF
  obtain ⟨hp, hq, -⟩ := hF
  have hne : phase (g.proc q) ≠ .live := fun h => by cases hq.symm.trans h
  have hph : phase ((Wr.parent p).apply (g.proc q)) = .used := hq
  refine T.set (fun h => absurd h (T.ne_init hne)) (fun _ => T.bound q (by simp [hq])) (fun h => ?_) (fun r hr => ?_)
    (.inr (T.no_child hne)) fun _ _ h => by cases h
  · cases hph.symm.trans h
  · cases hr
    have hpq : p ≠ q := by
      rintro rfl
      exact hne hp
    rwa [setProc_proc_ne hpq]

theorem Tree.reparent {d : List Nat} (hwait : .wait ∈ (g.acct h).locks) (hj : (g.acct h).job = .orphan d)
    (hpar : (g.acct h).fam.par q = some (g.acct h).me) : Tree n (g.setProc q ((Wr.parent initproc).apply (g.proc q))).proc := by
  obtain ⟨p, he⟩ := J.on_of_job (h := h) (by simp [hj])
  have hme : (g.acct h).me = some p := by rw [acct_eq he]; exact L.me_proc
  have hqp : (g.proc q).parent = some p := hme ▸ J.par (g.on h) hwait q _ hpar
  have hq : q ≠ initproc := by
    rintro rfl
    cases T.init.2.symm.trans hqp
  have hun : phase (g.proc q) ≠ .unused := fun h => by cases (T.unused q h).symm.trans hqp
  refine T.set (fun h => absurd h hq) (fun _ => T.bound q hun) (fun h => absurd h hun) (fun r hr => ?_) ?_ fun _ _ h => by cases h
  · cases hr
    rw [setProc_proc_ne hq.symm]
    exact T.init.1
  · by_cases hl : phase (g.proc q) = .live
    · exact .inl hl
    · exact .inr (T.no_child hl)

end

/-! ## Sleeping in `wait` -/

/-- `r` sleeps in `wait`, or is about to. -/
def St.Dozing (g : St N) (r : Nat) : Prop :=
  (g.proc r).state = .sleeping ∧ (g.proc r).chan = procChan r ∨ (g.acc (.proc r)).job = .doze

structure Wake (g : St N) : Prop where
  awake : ∀ t r, .wait ∈ (g.acc t).locks → (g.acc t).fam.awake r → ¬g.Dozing r
  owe : ∀ t r, (g.acc t).fam.owe = some r → r = initproc
  zombie : ∀ q r, (g.proc q).state = .zombie → (g.proc q).parent = some r → g.Dozing r →
    ∃ t, .wait ∈ (g.acc t).locks ∧ (g.acc t).fam.owe = some r

theorem Wake.change (W : Wake g) (hdoze : ∀ r, ((g.setProc q x).put t a).Dozing r → g.Dozing r)
    (hawake : .wait ∈ a.locks → ∀ r, a.fam.awake r → ¬((g.setProc q x).put t a).Dozing r)
    (howe : ∀ r, a.fam.owe = some r → r = initproc)
    (hkeep : .wait ∈ (g.acc t).locks → ∀ r, (g.acc t).fam.owe = some r → .wait ∈ a.locks ∧ a.fam.owe = some r)
    (hz : x.state = .zombie → ∀ r, x.parent = some r → ((g.setProc q x).put t a).Dozing r →
      ((g.proc q).state = .zombie ∧ (g.proc q).parent = some r) ∨ .wait ∈ a.locks ∧ a.fam.owe = some r) :
    Wake ((g.setProc q x).put t a) := by
  have hacc : ∀ t' ≠ t, ((g.setProc q x).put t a).acc t' = g.acc t' := fun t' ht => put_acc_ne ht
  have hself : ((g.setProc q x).put t a).acc t = a := put_acc
  refine ⟨fun t' r hw hr => ?_, fun t' r hr => ?_, fun q' r hq' hr hd => ?_⟩
  · rcases eq_or_ne t' t with rfl | ht
    · rw [hself] at hw hr
      exact hawake hw r hr
    · rw [hacc t' ht] at hw hr
      exact fun hd => W.awake t' r hw hr (hdoze r hd)
  · rcases eq_or_ne t' t with rfl | ht
    · rw [hself] at hr
      exact howe r hr
    · rw [hacc t' ht] at hr
      exact W.owe t' r hr
  · -- whoever had to wake the parent still has to
    have hold : (g.proc q').state = .zombie → (g.proc q').parent = some r →
        ∃ t', .wait ∈ (((g.setProc q x).put t a).acc t').locks ∧ (((g.setProc q x).put t a).acc t').fam.owe = some r := by
      intro hzq hpq
      obtain ⟨t', hw, ho⟩ := W.zombie q' r hzq hpq (hdoze r hd)
      refine ⟨t', ?_⟩
      rcases eq_or_ne t' t with rfl | ht
      · rw [hself]
        exact hkeep hw r ho
      · rw [hacc t' ht]
        exact ⟨hw, ho⟩
    rcases setProc_cases g q x q' with ⟨rfl, he⟩ | ⟨-, he⟩
    · rw [put_proc, he] at hq' hr
      rcases hz hq' r hr hd with ⟨hzq, hpq⟩ | ho
      · exact hold hzq hpq
      · exact ⟨t, by rwa [hself]⟩
    · rw [put_proc, he] at hq' hr
      exact hold hq' hr

theorem Wake.move (W : Wake g) (hjob : ∀ p, t = .proc p → a.job = .doze → (g.acc t).job = .doze)
    (hawake : .wait ∈ a.locks → ∀ r, a.fam.awake r → ¬g.Dozing r)
    (howe : ∀ r, a.fam.owe = some r → r = initproc)
    (hkeep : .wait ∈ (g.acc t).locks → ∀ r, (g.acc t).fam.owe = some r → .wait ∈ a.locks ∧ a.fam.owe = some r) :
    Wake (g.put t a) := by
  have hdoze : ∀ r, (g.put t a).Dozing r → g.Dozing r := by
    intro r hr
    rcases hr with hr | hr
    · exact .inl hr
    · right
      rcases eq_or_ne (.proc r) t with rfl | ht
      · rw [put_acc] at hr
        exact hjob r rfl hr
      · rwa [put_acc_ne ht] at hr
  have := W.change (q := 0) (x := g.proc 0) (t := t) (a := a) (by rwa [setProc_self])
    (fun hw r hr hd => hawake hw r hr (hdoze r (by rwa [setProc_self] at hd))) howe hkeep fun hz r hr _ => .inl ⟨hz, hr⟩
  rwa [setProc_self] at this

theorem Job.begin_eq_doze {j : Job} (hj : j.begin = .doze) : j = .doze := by
  cases j with
  | none | closed => cases hj
  | _ => exact hj

theorem Job.see_eq_doze {j : Job} {me : Option Nat} {b : Bool} (hj : j.see me b q x = .doze) : j = .doze := by
  cases j with
  | orphan d | scan r => cases hj
  | _ => exact hj

theorem Job.copied_eq_doze {j : Job} {b : Bool} (hj : j.copied b = .doze) : j = .doze := by
  cases j with
  | scan r => cases hj
  | _ => exact hj

theorem Wr.job_eq_doze {j : Job} (hj : w.job q j = .doze) : j = .doze := by
  cases w with
  | free | dup _ | publish _ | kill _ | close | zombie _ => cases hj
  | parent r =>
    cases j with
    | filled _ | orphan _ => cases hj
    | _ => exact hj
  | sleep chan =>
    cases j with
    | doze => rfl
    | _ => exact hj
  | _ => exact hj

section
variable (L : Locks g) (J : Jobs g) (W : Wake g)
include L J W

theorem Jobs.not_doze (hl : .proc q ∈ (g.acc t).locks) (hne : t ≠ .proc q) : (g.acc (.proc q)).job ≠ .doze := by
  intro hj
  have hF := J.fine q
  rw [hj] at hF
  exact hne (L.excl _ _ _ hl hF.2)

theorem Wake.release_wait (T : Tree n g.proc) (hl : .wait ∈ (g.acct h).locks) (hm : (g.acct h).MayLeave n) :
    Wake (g.put (g.on h) ((g.acct h).release .wait)) := by
  have hacc : ∀ t' ≠ g.on h, (g.put (g.on h) ((g.acct h).release .wait)).acc t' = g.acc t' := fun t' ht => put_acc_ne ht
  have hnone : ∀ t', .wait ∉ ((g.put (g.on h) ((g.acct h).release .wait)).acc t').locks := by
    intro t' hw
    rcases eq_or_ne t' (g.on h) with rfl | ht
    · rw [put_acc, locks_release] at hw
      exact (L.nodup (g.on h)).not_mem_erase hw
    · rw [hacc t' ht] at hw
      exact ht (L.excl _ _ _ hw hl)
  refine ⟨fun t' r hw => absurd hw (hnone t'), fun t' r hr => ?_, fun q r hz hr hd => ?_⟩
  · rcases eq_or_ne t' (g.on h) with rfl | ht
    · rw [put_acc] at hr
      cases hr
    · rw [hacc t' ht] at hr
      exact W.owe t' r hr
  · exfalso
    -- the parent slept before, or it is the process that releases the lock
    have hd' : g.Dozing r ∨ g.on h = .proc r ∧ (g.acct h).leave = .doze := by
      rcases hd with hd | hd
      · exact .inl (.inl hd)
      · rcases eq_or_ne (.proc r) (g.on h) with he | ht
        · rw [he, put_acc] at hd
          exact .inr ⟨he.symm, hd⟩
        · rw [hacc _ ht] at hd
          exact .inl (.inr hd)
    have hold : ¬g.Dozing r := by
      intro hd
      obtain ⟨t', hw, ho⟩ := W.zombie q r hz hr hd
      cases L.excl _ _ _ hw hl
      exact W.awake (g.on h) r hl (hm.1 r ho) hd
    obtain ⟨he, hj⟩ := hd'.resolve_left hold
    have hF := J.fine r
    rw [← he, ← St.acct] at hF
    cases hjob : (g.acct h).job with
    | scan s =>
      obtain ⟨-, hmay⟩ := hm
      rw [leave, hjob] at hj
      rw [hjob] at hmay hF
      by_cases hown : (g.acct h).Own
      · simp only [if_pos hown] at hmay
        have hzq : phase (g.proc q) = .zombie := phase_eq_zombie.2 hz
        exact hF.2.2.1 q (hmay q (T.bound q (by simp [hzq]))) hr hzq
      · simp only [if_neg hown] at hj
        cases hj
    | doze => exact hold (.inr (by rw [← he, ← St.acct, hjob]))
    | _ =>
      rw [leave, hjob] at hj
      cases hj

theorem Wake.act (T : Tree n g.proc) (ha : Act n g (g.acct h) a) : Wake (g.put (g.on h) a) := by
  have hawake : .wait ∈ (g.acct h).locks → ∀ r, (g.acct h).fam.awake r → ¬g.Dozing r := fun hw r hr => W.awake (g.on h) r hw hr
  have howe : ∀ r, (g.acct h).fam.owe = some r → r = initproc := fun r hr => W.owe (g.on h) r hr
  -- a lock other than `wait_lock` is released
  have kept : ∀ {a' : Acct} {l : Lk}, l ≠ .wait → a'.locks = ((g.acct h).release l).locks → a'.job = (g.acct h).job →
      a'.fam = (g.acct h).fam → Wake (g.put (g.on h) a') := by
    intro a' l hne hl hjob hfam
    refine W.move (fun _ _ hj => hjob ▸ hj) (fun hw r hr => ?_) (fun r hr => howe r (hfam ▸ hr)) fun hw r hr => ⟨?_, ?_⟩
    · exact hawake (locks_release_sublist.subset (hl ▸ hw)) r (hfam ▸ hr)
    · rw [hl]
      exact mem_locks_release hw hne.symm
    · rw [hfam]
      exact hr
  cases ha with
  | acquire l x hm hf hx =>
    rcases eq_or_ne l .wait with rfl | hne
    · exact W.move (fun _ _ => Job.begin_eq_doze) (fun _ _ h => h.elim) (fun _ h => by cases h) fun hw => absurd hw (hf _)
    have hjob : ((g.acct h).acquire l x).job = (g.acct h).job := if_neg hne
    have hfam : ((g.acct h).acquire l x).fam = (g.acct h).fam := if_neg hne
    refine W.move (fun _ _ hj => hjob ▸ hj) (fun hw r hr => ?_) (fun r hr => howe r (hfam ▸ hr)) fun hw r hr => ⟨?_, ?_⟩
    · rw [locks_acquire] at hw
      exact hawake ((List.mem_cons.1 hw).resolve_left hne.symm) r (hfam ▸ hr)
    · rw [locks_acquire]
      exact List.mem_cons_of_mem l hw
    · rw [hfam]
      exact hr
  | release l hplain hb hl hw hc =>
    rcases eq_or_ne l .wait with rfl | hne
    · exact W.release_wait L J T hl (hw rfl)
    · have hjob : ((g.acct h).release l).job = (g.acct h).job := if_neg hne
      exact kept hne rfl hjob (if_neg hne)
  | see q =>
    refine W.move (fun _ _ => Job.see_eq_doze) (fun hw r hr => ?_) (fun r hr => howe r (by rwa [owe_see] at hr))
      fun hw r hr => ⟨hw, by rwa [owe_see]⟩
    rw [locks_see] at hw
    rw [see, if_pos hw] at hr
    rcases hr with hr | ⟨rfl, hl, hme, hx⟩
    · exact hawake hw r hr
    · rintro (hd | hd)
      · exact hx hd
      · refine J.not_doze L W hl (fun he => hme ?_) hd
        rw [acct_eq he]
        exact L.me_proc
  | current p hr => exact W.move (fun _ _ h => h) hawake howe fun hw r hr => ⟨hw, hr⟩
  | leave p hr => exact W.move (fun _ _ h => h) hawake howe fun hw r hr => ⟨hw, hr⟩
  | finish p st hr =>
    have hjob : ((g.acct h).release (.proc p)).job = (g.acct h).job := job_release_proc
    exact kept (l := .proc p) (fun h => by cases h) rfl hjob (fam_release_proc (q := p))
  | ask c => exact W.move (fun _ _ h => h) hawake howe fun hw r hr => ⟨hw, hr⟩
  | copyout b => exact W.move (fun _ _ => Job.copied_eq_doze) hawake howe fun hw r hr => ⟨hw, hr⟩
  | ret c hj => exact W.move (fun _ _ h => by cases h) hawake howe fun hw r hr => ⟨hw, hr⟩

theorem Wr.Allowed.dozing (hw : w.Allowed n ok (g.acct h) q) :
    (g.wrote h q w).Dozing r → g.Dozing r := by
  rintro (hd | hd)
  · rcases setProc_cases g q (w.apply (g.proc q)) r with ⟨rfl, he⟩ | ⟨-, he⟩
    · rw [put_proc, he] at hd
      cases w with
      | sleep chan =>
        obtain ⟨hme, -, hiff⟩ := hw
        have hj := hiff.1 hd.2
        rw [acct_eq (L.on_of_me hme)] at hj
        exact .inr hj
      | kill pid =>
        obtain ⟨hs, -⟩ := hd
        simp only [apply] at hs
        split at hs
        · cases hs
        · contradiction
      | clearChan => cases (L.state hw.2).symm.trans hd.1
      | free | publish _ | ready _ | zombie _ | run _ => cases hd.1
      | _ => exact .inl hd
    · rw [put_proc, he] at hd
      exact .inl hd
  · right
    rcases eq_or_ne (.proc r) (g.on h) with he | ht
    · rw [he, put_acc, job_acct] at hd
      rw [he]
      exact job_eq_doze hd
    · rwa [put_acc_ne ht] at hd

theorem Wr.Allowed.owe (hw : w.Allowed n ok (g.acct h) q) (ho : (w.acct (g.acct h) q).fam.owe = some r) :
    (g.acct h).fam.owe = some r ∨ r = initproc := by
  by_cases hwait : .wait ∈ (g.acct h).locks
  · rw [fam_acct_of_mem hwait] at ho
    cases w with
    | parent s =>
      obtain ⟨-, ⟨hj, -⟩ | ⟨⟨d, hj⟩, -, rfl⟩⟩ := hw
      · rw [hj] at ho
        exact .inl ho
      · rw [hj] at ho
        cases ho
        exact .inr rfl
    | _ => exact .inl ho
  · rw [fam_acct hwait] at ho
    exact .inl ho

theorem Wr.Allowed.ready_awake {tm : UInt64} (hw : (ready tm).Allowed n ok (g.acct h) q) :
    ¬((g.setProc q ((ready tm).apply (g.proc q))).put (g.on h) ((ready tm).acct (g.acct h) q)).Dozing q := by
  rintro (⟨hd, -⟩ | hd)
  · rw [put_proc, setProc_proc] at hd
    cases hd
  rcases hw with ⟨hi, hme⟩ | ⟨-, hme, hb⟩
  · have hne : g.on h ≠ .proc q := by
      intro he
      rw [acct_eq he] at hme
      exact hme L.me_proc
    rw [put_acc_ne hne.symm] at hd
    exact J.not_doze L W hi.mem hne hd
  · rw [← L.on_of_me hme, put_acc, job_acct] at hd
    rw [job_eq_doze hd] at hb
    exact hb trivial

theorem Wake.write (T : Tree n g.proc) (hw : w.Allowed n ok (g.acct h) q) :
    Wake (g.wrote h q w) := by
  have hdoze : ∀ r, (g.wrote h q w).Dozing r → g.Dozing r :=
    fun r => hw.dozing L J W
  refine W.change hdoze (fun hwait r hr hd => ?_) (fun r hr => ?_) (fun hwait r hr => ⟨by rwa [locks_acct], ?_⟩) fun hz r hr hd => ?_
  · rw [locks_acct] at hwait
    rw [fam_acct_of_mem hwait] at hr
    cases w with
    | ready tm =>
      rcases hr with hr | rfl
      · exact W.awake (g.on h) r hwait hr (hdoze r hd)
      · exact hw.ready_awake L J W hd
    | _ => exact W.awake (g.on h) r hwait hr (hdoze r hd)
  · rcases hw.owe L J W hr with hr | hr
    · exact W.owe (g.on h) r hr
    · exact hr
  · rw [fam_acct_of_mem (a := g.acct h) hwait]
    cases w with
    | parent s =>
      obtain ⟨-, ⟨hj, -⟩ | ⟨⟨d, hj⟩, -, rfl⟩⟩ := hw
      · rw [hj]
        exact hr
      · rw [hj, W.owe (g.on h) r hr]
        rfl
    | _ => exact hr
  · cases w with
    | zombie st =>
      exfalso
      obtain ⟨hme, -, hwait, -, o, ho, hall⟩ := hw
      have he := L.on_of_me hme
      have hrn : r < n := T.bound r (by simp [T.live q r hr])
      rcases hall r hrn ((J.par (g.on h) hwait q o ho).symm.trans hr) with rfl | hawake
      · rcases hd with ⟨hd, -⟩ | hd
        · rw [put_proc, setProc_proc] at hd
          cases hd
        · rw [he, put_acc] at hd
          cases hd
      · exact W.awake (g.on h) r hwait hawake (hdoze r hd)
    | parent s =>
      obtain ⟨hwait, ⟨hj, -⟩ | ⟨⟨d, hj⟩, -, rfl⟩⟩ := hw
      · obtain ⟨p, he⟩ := J.on_of_job (h := h) (by simp [hj])
        have hF := J.fine p
        rw [← he, ← St.acct, hj] at hF
        cases (phase_eq_used.1 hF.2.1).symm.trans hz
      · right
        rw [locks_acct, fam_acct_of_mem hwait, hj]
        exact ⟨hwait, hr⟩
    | free | publish _ | ready _ | sleep _ | run _ => cases hz
    | kill pid =>
      simp only [apply] at hz
      split at hz
      · cases hz
      · exact .inl ⟨hz, hr⟩
    | _ => exact .inl ⟨hz, hr⟩

theorem Wake.take {pid : Int} (hi : (g.acct h).In q .unused) :
    Wake ((g.setProc q (taken pid (g.proc q))).put (g.on h) { (g.acct h).upd q (taken pid) with job := .took q }) := by
  have hlocks : ({ (g.acct h).upd q (taken pid) with job := .took q } : Acct).locks = (g.acct h).locks := (g.acct h).locks_upd _
  have hdoze : ∀ r, ((g.setProc q (taken pid (g.proc q))).put (g.on h) { (g.acct h).upd q (taken pid) with job := .took q }).Dozing r →
      g.Dozing r := by
    rintro r (hd | hd)
    · rcases setProc_cases g q (taken pid (g.proc q)) r with ⟨rfl, he⟩ | ⟨-, he⟩
      · rw [put_proc, he] at hd
        cases hd.1
      · rw [put_proc, he] at hd
        exact .inl hd
    · rcases eq_or_ne (.proc r) (g.on h) with he | ht
      · rw [he, put_acc] at hd
        cases hd
      · rw [put_acc_ne ht] at hd
        exact .inr hd
  refine W.change hdoze (fun hw r hr hd => ?_) (fun r hr => W.owe (g.on h) r hr) (fun hw r hr => ⟨hlocks ▸ hw, hr⟩)
    fun hz => by cases hz
  exact W.awake (g.on h) r (hlocks ▸ hw) hr (hdoze r hd)

omit L J in
theorem Wake.switch {c : Th N → Acct} {k : Fin N → Option Nat} (hc : ∀ t, Relocked (g.acc t) (c t)) :
    Wake ({ g with acc := c, stack := k } : St N) := by
  have hdoze : ∀ r, ({ g with acc := c, stack := k } : St N).Dozing r → g.Dozing r := by
    rintro r (hd | hd)
    · exact .inl hd
    · exact .inr ((hc _).job ▸ hd)
  refine ⟨fun t r hw hr hd => ?_, fun t r hr => ?_, fun q r hz hr hd => ?_⟩
  · exact W.awake t r ((hc t).wait.1 hw) ((hc t).fam ▸ hr) (hdoze r hd)
  · exact W.owe t r ((hc t).fam ▸ hr)
  · obtain ⟨t, hw, ho⟩ := W.zombie q r hz hr (hdoze r hd)
    exact ⟨t, (hc t).wait.2 hw, (congrArg Fam.owe (hc t).fam).trans ho⟩

theorem Wake.newctx (hj : (g.acct h).job = .took q) :
    Wake (g.bore h q) := by
  have W' : Wake (g.put (g.on h) { g.acct h with job := .born q }) :=
    W.move (fun _ _ h => by cases h) (fun hw r hr => W.awake (g.on h) r hw hr) (fun r hr => W.owe (g.on h) r hr)
      fun hw r hr => ⟨hw, hr⟩
  refine W'.move (fun _ _ h => by cases h) (fun h => by cases h) (fun _ h => by cases h) fun hw => ?_
  -- a process that is being made holds no lock
  obtain ⟨p, he⟩ := J.on_of_job (h := h) (by simp [hj])
  have hused : phase (g.proc q) = .used := (J.fine p).used (by rw [← he, ← St.acct, hj]; rfl)
  have hoff : ∀ h', g.on h' ≠ .proc q := fun h' he' => J.off_of_used hused h' (on_eq_proc.1 he')
  rw [put_acc_ne (hoff h).symm, locks, L.off _ hoff] at hw
  cases hw

end

/-! ## All of it -/

structure Inv (n : Nat) (g : St N) : Prop where
  locks : Locks g
  runs : Runs g
  jobs : Jobs g
  tree : Tree n g.proc
  wake : Wake g

theorem Inv.bump (I : Inv n g) : Inv n g.bump := by
  obtain ⟨L, R, J, T, W⟩ := I
  exact ⟨⟨L.role, L.excl, L.nodup, L.off, L.knows⟩, ⟨R.uniq, R.holds, R.cpu, R.running, R.saved⟩,
    ⟨J.cpu, J.fine, J.par, J.kid, J.context, J.zombie, J.on⟩, T, ⟨W.awake, W.owe, W.zombie⟩⟩

theorem Inv.write (I : Inv n g) (hw : w.Allowed n ok (g.acct h) q) :
    Inv n (g.wrote h q w) := by
  obtain ⟨L, R, J, T, W⟩ := I
  have hpub : ∀ tm, w = .publish tm → (g.proc q).state = .used := by
    rintro tm rfl
    obtain ⟨p, he⟩ := J.on_of_job (h := h) (by simp [hw.1])
    exact phase_eq_used.1 ((J.fine p).used (by rw [← he, ← St.acct, hw.1]; rfl))
  suffices hJT : Jobs (g.wrote h q w) ∧
      Tree n (g.setProc q (w.apply (g.proc q))).proc from
    ⟨L.write hw, R.write L hw hpub, hJT.1, hJT.2, W.write L J T hw⟩
  by_cases hs : w.hard = false
  · exact ⟨J.soft_write L hw hs, T.soft (hw.soft L hs)⟩
  cases w with
  | free =>
    rcases hw with ⟨hi, hj⟩ | ⟨hi, hwait, -, -, r, hj⟩
    · refine ⟨J.free_used L hi hj, T.free ?_⟩
      rw [phase_eq_used.2 (L.state hi)]
      intro h
      cases h
    · refine ⟨J.free_zombie L R hi hwait hj, T.free ?_⟩
      rw [phase_eq_zombie.2 (L.state hi)]
      intro h
      cases h
  | publish tm => exact ⟨J.publish L hw.1, T.publish J hw.1⟩
  | zombie st => exact ⟨J.exit L hw, T.exit L J hw⟩
  | parent s =>
    obtain ⟨hwait, ⟨hj, hme⟩ | ⟨⟨d, hj⟩, hpar, rfl⟩⟩ := hw
    · exact ⟨J.adopt L hwait hj hme, T.adopt L J hj hme⟩
    · exact ⟨J.reparent L hwait hj hpar, T.reparent L J hwait hj hpar⟩
  | _ => exact absurd rfl hs

theorem Inv.move (I : Inv n g) (hm : Move n ok h g g') : Inv n g' := by
  cases hm with
  | act a ha =>
    obtain ⟨L, R, J, T, W⟩ := I
    exact ⟨L.act ha, R.act L ha, J.act L ha, T, W.act L J T ha⟩
  | write q w hw => exact I.write hw
  | take q hq hme hj hi =>
    obtain ⟨L, R, J, T, W⟩ := I
    have hun : phase (g.proc q) = .unused := phase_eq_unused.2 (L.state hi)
    exact Inv.bump ⟨L.take hi, R.take L hi, J.take L T hme hj hi, T.take hun hq, W.take L J hi⟩
  | newctx q hj =>
    obtain ⟨L, R, J, T, W⟩ := I
    obtain ⟨p, he⟩ := J.on_of_job (h := h) (by simp [hj])
    have hused : phase (g.proc q) = .used := (J.fine p).used (by rw [← he, ← St.acct, hj]; rfl)
    exact ⟨L.newctx, R.newctx L (J.off_of_used hused), J.newctx L hj, T, W.newctx L J hj⟩
  | swtchTo p x hx ha =>
    obtain ⟨L, R, J, T, W⟩ := I
    exact ⟨L.swtchTo ha, R.swtchTo L ha, J.swtchTo L R ha hx, T, W.switch (relocked_swtchTo L R ha)⟩
  | sched p x hm hheld hx hb hs ho =>
    obtain ⟨L, R, J, T, W⟩ := I
    exact ⟨L.sched hm hheld, R.sched L hm, J.sched L R hm hheld hb hs ho, T, W.switch (relocked_sched L R hm hheld)⟩

end Xv6.Harts
