import Xv6.Fs.UserCopy
import Xv6.Harts.Simulate

/-!
# What `wait` writes to user memory

`user.h` declares `int wait(int *)`. The kernel copies a `struct proc_time` of 56 bytes to the address, of which the first four are
the pid of the child; `xstate` is not read.
-/

open Function (update update_self update_of_ne)

namespace Xv6.Harts

open Prog
open Sched (Proc ProcState ProcTime wrap32)
open Fs (UMem copyout)
open List Option

variable {N n : Nat} {s s' : Sys N} {g g' : St N} {h : Fin N} {a : Acct} {p q addr : Nat} {w : Wr} {x : Proc}

/-! ## User memory -/

/-- The user pages of a process, and which of them have `PTE_W`. -/
structure Space where
  pages : UMem
  writable : Nat → Bool

def Space.int (m : Space) (va : Nat) : Option Int :=
  match m.pages.byte va, m.pages.byte (va + 1), m.pages.byte (va + 2), m.pages.byte (va + 3) with
  | some b0, some b1, some b2, some b3 =>
    some (wrap32 (b0.toNat + 256 * b1.toNat + 65536 * b2.toNat + 16777216 * b3.toNat : Nat))
  | _, _, _, _ => none

def le64 (v : Nat) : List UInt8 := Bytes.le32 v ++ Bytes.le32 (v / 4294967296)

def bytes (pt : ProcTime) : List UInt8 :=
  le64 (pt.pid % 18446744073709551616).toNat ++ le64 pt.startTime.toNat ++ le64 pt.turnaroundTime.toNat ++ le64 pt.waitTime.toNat ++
    le64 pt.totalWaitTime.toNat ++ le64 pt.endTime.toNat ++ Bytes.le32 (pt.priority % 4294967296).toNat ++ Bytes.le32 0

theorem length_bytes (pt : ProcTime) : (bytes pt).length = 56 := rfl

/-- The `int` at `addr` is `st`, and no other byte has changed. -/
def Delivers (m m' : Space) (addr : Nat) (st : Int) : Prop :=
  m'.int addr = some st ∧ ∀ va, ¬(addr ≤ va ∧ va < addr + 4) → m'.pages.byte va = m.pages.byte va

def Lucky (m : Space) (addr : Nat) (pt : ProcTime) (st : Int) : Prop :=
  st = wrap32 pt.pid ∧ ∀ i < 56, 4 ≤ i → m.pages.byte (addr + i) = (bytes pt)[i]?

theorem int_of_bytes {m : Space} {v : Nat} (hb : ∀ i < 4, m.pages.byte (addr + i) = (Bytes.le32 v)[i]?) :
    m.int addr = some (wrap32 v) := by
  have h0 : m.pages.byte addr = some (UInt8.ofNat v) := hb 0 (by decide)
  have h1 : m.pages.byte (addr + 1) = some (UInt8.ofNat (v / 256)) := hb 1 (by decide)
  have h2 : m.pages.byte (addr + 2) = some (UInt8.ofNat (v / 65536)) := hb 2 (by decide)
  have h3 : m.pages.byte (addr + 3) = some (UInt8.ofNat (v / 16777216)) := hb 3 (by decide)
  rw [Space.int, h0, h1, h2, h3]
  simp only [UInt8.toNat_ofNat']
  have e : v % 2 ^ 8 + 256 * (v / 256 % 2 ^ 8) + 65536 * (v / 65536 % 2 ^ 8) + 16777216 * (v / 16777216 % 2 ^ 8) = v % 4294967296 := by
    omega
  rw [e, Int.natCast_emod]
  exact congrArg some (Int.emod_bmod _ 4294967296)

theorem wrap32_emod (i : Int) : wrap32 (i % 18446744073709551616) = wrap32 i := by
  have h : i % 18446744073709551616 % 4294967296 = i % 4294967296 := Int.emod_emod_of_dvd i (by decide)
  calc (i % 18446744073709551616).bmod 4294967296
      = (i % 18446744073709551616 % 4294967296).bmod 4294967296 := (Int.emod_bmod _ 4294967296).symm
    _ = (i % 4294967296).bmod 4294967296 := by rw [h]
    _ = i.bmod 4294967296 := Int.emod_bmod i 4294967296

theorem delivers_iff {m m' : Space} {pt : ProcTime} {st : Int} (hc : copyout m.writable m.pages addr (bytes pt) = (m'.pages, true)) :
    Delivers m m' addr st ↔ Lucky m addr pt st := by
  have hbyte : ∀ b, m'.pages.byte b = if addr ≤ b ∧ b < addr + 56 then (bytes pt)[b - addr]? else m.pages.byte b := by
    intro b
    rw [Fs.byte_copyout hc, length_bytes]
  have hin : ∀ i < 56, m'.pages.byte (addr + i) = (bytes pt)[i]? := by
    intro i hi
    rw [hbyte, if_pos (by omega), Nat.add_sub_cancel_left]
  have hint : m'.int addr = some (wrap32 pt.pid) := by
    have hb : ∀ i < 4, m'.pages.byte (addr + i) = (Bytes.le32 (pt.pid % 18446744073709551616).toNat)[i]? := by
      intro i hi
      rw [hin i (by omega)]
      rcases i with _ | _ | _ | _ | i
      · rfl
      · rfl
      · rfl
      · rfl
      · omega
    rw [int_of_bytes hb, Int.toNat_of_nonneg (Int.emod_nonneg _ (by decide)), wrap32_emod]
  constructor
  · rintro ⟨hst, hother⟩
    refine ⟨some.inj (hst.symm.trans hint), fun i hlt hi => ?_⟩
    rw [← hother _ (by omega), hin i hlt]
  · rintro ⟨rfl, hb⟩
    refine ⟨hint, fun va hva => ?_⟩
    rw [hbyte]
    split
    · rename_i hr
      have := hb (va - addr) (by omega) (by omega)
      rw [Nat.add_sub_cancel' hr.1] at this
      exact this.symm
    · rfl

/-! ## The machine with user memory -/

structure World (N : Nat) where
  sys : Sys N
  /-- The memory of each process. -/
  mem : Nat → Space

inductive World.Ev (N : Nat) where
  | kernel (e : Harts.Ev N)
  /-- The process on the hart, in user mode, has changed its memory to `m`. -/
  | user (h : Fin N) (m : Space)

/-- What the code does next that concerns the status or the memory. -/
inductive Errand where
  | asks (addr : Nat)
  | copies (q : Nat) (pt : ProcTime) (addr : Nat)
  | exits (q : Nat) (status : Int)
  | other

def errand : K Unit → Errand
  | .op (.waitCall addr) _ => .asks addr
  | .op (.copyout q pt addr) _ => .copies q pt addr
  | .op (.set q (.zombie status)) _ => .exits q status
  | _ => .other

namespace World

def copyout (w : World N) (p : Nat) (pt : ProcTime) (addr : Nat) : UMem × Bool :=
  Fs.copyout (w.mem p).writable (w.mem p).pages addr (bytes pt)

def op (n : Nat) (w : World N) (h : Fin N) (ans : Ans) : Option (World N) :=
  match errand (w.sys.hart h).code, (w.sys.hart h).proc with
  | .copies _ pt addr, some p =>
    (w.sys.step n (.step h { ans with ok := (w.copyout p pt addr).2 })).map fun s =>
      ⟨s, update w.mem p { w.mem p with pages := (w.copyout p pt addr).1 }⟩
  | _, _ => (w.sys.step n (.step h ans)).map fun s => ⟨s, w.mem⟩

def step (n : Nat) (w : World N) : World.Ev N → Option (World N)
  | .kernel (.step h ans) => w.op n h ans
  | .kernel e => (w.sys.step n e).map fun s => ⟨s, w.mem⟩
  | .user h m =>
    match (w.sys.hart h).code, (w.sys.hart h).stack, (w.sys.hart h).proc with
    | .ret _, some _, some p => some { w with mem := update w.mem p m }
    | _, _, _ => none

end World

/-! ## The record -/

structure Found where
  status : Option Int
  pt : ProcTime

structure Mail where
  /-- The status with which the process in each slot has exited. -/
  status : Nat → Option Int
  /-- For each process, the address of its last `wait` and its memory at the time. -/
  call : Nat → Option (Nat × Space)
  found : Nat → Option Found

namespace Mail

def after (r : Mail) (m : Space) (p : Nat) : Errand → Mail
  | .asks addr => { r with call := update r.call p (some (addr, m)), found := update r.found p none }
  | .copies q pt _ => { r with found := update r.found p (some ⟨r.status q, pt⟩) }
  | .exits q status => { r with status := update r.status q (some status) }
  | .other => r

def upd (w : World N) (e : World.Ev N) (_ : World N) (r : Mail) : Mail :=
  match e with
  | .kernel (.step h _) =>
    match (w.sys.hart h).proc with
    | some p => r.after (w.mem p) p (errand (w.sys.hart h).code)
    | none => r
  | _ => r

def zero : Mail := ⟨fun _ => none, fun _ => none, fun _ => none⟩

end Mail

/-! ## Steps -/

def Told (c : Ask) (m : Space) (call : Option (Nat × Space)) (found : Option Found) : Prop :=
  ∀ addr, c.addr = some addr → ∃ m0, call = some (addr, m0) ∧
    match c.tried with
    | none => m = m0
    | some none => True
    | some (some pid) => ∃ d st, found = some d ∧ d.status = some st ∧ d.pt.pid = pid ∧
        Fs.copyout m0.writable m0.pages addr (bytes d.pt) = (m.pages, true)

theorem Told.idle {m : Space} {call : Option (Nat × Space)} {found : Option Found} : Told {} m call found := nofun

/-- A zombie has the status it has exited with. -/
def Mail.Knows (r : Mail) (f : Nat → Proc) : Prop := ∀ q, (f q).state = .zombie → r.status q = some (f q).xstate

section
variable {r : Mail} {v v' : World N} {ans : Ans} {β : Type} {e : Op β} {k : β → K Unit}

theorem World.op_eq_some (hs : v.op n h ans = some v') : ∃ ans', v.sys.exec h ans' (v.sys.hart h).code = some v'.sys ∧
    ((∃ q pt addr p, errand (v.sys.hart h).code = .copies q pt addr ∧ (v.sys.hart h).proc = some p ∧
        ans'.ok = (v.copyout p pt addr).2 ∧ v'.mem = update v.mem p { v.mem p with pages := (v.copyout p pt addr).1 }) ∨
      (∀ q pt addr p, errand (v.sys.hart h).code = .copies q pt addr → (v.sys.hart h).proc ≠ some p) ∧ v'.mem = v.mem) := by
  unfold World.op at hs
  split at hs
  · rename_i q pt addr p he hp
    obtain ⟨s, hx, rfl⟩ := map_eq_some_iff.1 hs
    exact ⟨_, hx, .inl ⟨q, pt, addr, p, he, hp, rfl, rfl⟩⟩
  · rename_i hno
    obtain ⟨s, hx, rfl⟩ := map_eq_some_iff.1 hs
    exact ⟨ans, hx, .inr ⟨fun q pt addr p he hp => hno q pt addr p he hp, rfl⟩⟩

theorem Mail.Knows.write {f : Nat → Proc} (hk : r.Knows f) (hx : x.state = .zombie → (f q).state = .zombie ∧ x.xstate = (f q).xstate) :
    r.Knows (update f q x) := by
  intro q' hz
  rcases eq_or_ne q' q with rfl | hne
  · rw [update_self] at hz ⊢
    obtain ⟨hz', hst⟩ := hx hz
    rw [hst]
    exact hk q' hz'
  · rw [update_of_ne hne] at hz ⊢
    exact hk q' hz

theorem Mail.Knows.exit {f : Nat → Proc} (hk : r.Knows f) {st : Int} (hx : x.xstate = st) :
    Mail.Knows { r with status := update r.status q (some st) } (update f q x) := by
  intro q' hz
  change update r.status q (some st) q' = _
  rcases eq_or_ne q' q with rfl | hne
  · rw [update_self, update_self, hx]
  · rw [update_of_ne hne] at hz
    rw [update_of_ne hne, update_of_ne hne]
    exact hk q' hz

theorem Mail.Knows.exec (S : Sim n (fun _ => True) s g) (I : Inv n g) (hk : r.Knows s.proc) (hcode : (s.hart h).code = .op e k)
    (hs : s.exec h ans (.op e k) = some s') {m : Space} : (r.after m p (errand (.op e k))).Knows s'.proc := by
  have hC := (S.hart h).code
  rw [hcode] at hC
  cases e with
  | set q w =>
    cases hs
    have hw : w.Allowed n (fun _ => True) (g.acct h) q := hC.1
    have hiff := hw.zombie_iff I.locks I.jobs
    rw [S.proc] at hiff
    cases w with
    | zombie st => exact hk.exit rfl
    | free => exact hk.write fun hz => by cases hz
    | _ => exact hk.write fun hz => ⟨(hiff nofun nofun).1 hz, rfl⟩
  | take q =>
    cases hs
    exact hk.write fun hz => by cases hz
  | acquire l | release l | sched p =>
    simp only [Sys.exec] at hs
    split at hs
    · cases hs
      exact hk
    · cases hs
  | _ =>
    cases hs
    exact hk

theorem Told.copyout {pt : ProcTime} (I : Inv n g) (hk : r.Knows g.proc)
    (hpre : (rules n fun _ => True).pre Bool (.copyout q pt addr) (g.acct h)) (ht : Told (g.acct h).ask (v.mem p) (r.call p) (r.found p)) :
    Told { (g.acct h).ask with tried := some (if (v.copyout p pt addr).2 then some pt.pid else none) }
      { v.mem p with pages := (v.copyout p pt addr).1 } (r.call p) (some ⟨r.status q, pt⟩) := by
  obtain ⟨-, hask, x, hx, hz, -⟩ := hpre
  rw [hask] at ht ⊢
  rintro addr' ⟨⟩
  obtain ⟨m0, hcall, hm⟩ := ht addr rfl
  refine ⟨m0, hcall, ?_⟩
  cases hb : (v.copyout p pt addr).2 with
  | false => trivial
  | true =>
    refine ⟨_, (g.proc q).xstate, rfl, hk q (I.locks.state ⟨x, hx, hz⟩), rfl, ?_⟩
    rw [← hm]
    exact Prod.ext rfl hb

theorem Told.op {x : β} (hsw : e.switches = false) (hpost : (rules n fun _ => True).post β e (g.acct h) x a)
    (hne : ∀ q pt addr, errand (.op e k) ≠ .copies q pt addr) (ht : Told (g.acct h).ask (v.mem p) (r.call p) (r.found p)) :
    Told a.ask (v.mem p) ((r.after (v.mem p) p (errand (.op e k))).call p) ((r.after (v.mem p) p (errand (.op e k))).found p) := by
  cases e with
  | waitCall addr =>
    cases hpost
    rintro addr' ⟨⟩
    exact ⟨v.mem p, update_self p _ _, rfl⟩
  | copyout q pt addr => exact absurd rfl (hne q pt addr)
  | waitRet v =>
    cases hpost
    exact .idle
  | set q w =>
    cases hpost
    cases w <;> exact ht
  | acquire l =>
    obtain ⟨-, x, -, rfl⟩ := hpost
    exact ht
  | get q =>
    obtain ⟨-, -, rfl⟩ := hpost
    exact ht
  | take q =>
    obtain ⟨pid, rfl⟩ := hpost
    exact ht
  | myproc =>
    obtain ⟨-, rfl⟩ := hpost
    exact ht
  | setproc o =>
    cases o with
    | some q =>
      cases hpost
      exact ht
    | none =>
      obtain ⟨q, -, rfl⟩ := hpost
      exact ht
  | swtchTo q | sched q => cases hsw
  | _ =>
    cases hpost
    exact ht

theorem Mail.after_ne {p' : Nat} {m : Space} (hne : p ≠ p') (er : Errand) :
    (r.after m p' er).call p = r.call p ∧ (r.after m p' er).found p = r.found p := by
  cases er with
  | asks addr => exact ⟨update_of_ne hne _ _, update_of_ne hne _ _⟩
  | copies q pt addr => exact ⟨rfl, update_of_ne hne _ _⟩
  | _ => exact ⟨rfl, rfl⟩

theorem errand_cpu {ok : Int → Prop} (hpre : (rules n ok).pre β e a) (hme : a.me = none) : errand (.op e k) = .other := by
  cases e with
  | waitCall addr => exact absurd hme hpre
  | copyout q pt addr => exact absurd hme hpre.1
  | set q w =>
    cases w with
    | zombie st =>
      have := hpre.1
      rw [hme] at this
      cases this
    | _ => rfl
  | _ => rfl

theorem errand_copies {c : K Unit} {pt : ProcTime} (hc : errand c = .copies q pt addr) : ∃ k, c = .op (.copyout q pt addr) k := by
  cases c with
  | ret u | panic m => cases hc
  | op e k =>
    cases e with
    | copyout q pt addr =>
      cases hc
      exact ⟨k, rfl⟩
    | set q w => cases w <;> cases hc
    | _ => cases hc

theorem errand_switch (hsw : e.switches = true) : errand (.op e k) = .other := by
  cases e with
  | swtchTo q | sched q => rfl
  | _ => cases hsw

end

/-! ## All runs -/

def Mailed (n : Nat) (v : World N) (r : Mail) : Prop :=
  ∃ g, Sim n (fun _ => True) v.sys g ∧ Inv n g ∧ r.Knows v.sys.proc ∧ ∀ p, Told (g.acc (.proc p)).ask (v.mem p) (r.call p) (r.found p)

theorem Mailed.op {r : Mail} {v v' : World N} {ans : Ans} (hk : Mailed n v r) (hs : v.op n h ans = some v') :
    Mailed n v' (r.upd v (.kernel (.step h ans)) v') := by
  obtain ⟨g, S, I, hK, ht⟩ := hk
  obtain ⟨ans', hx, hmem⟩ := World.op_eq_some hs
  obtain ⟨β, e, k, hc⟩ := Sys.op_of_exec hx
  rw [hc] at hx hmem
  obtain ⟨g', hm, S', hproc⟩ := S.exec_proc I hc hx
  have hC := (S.hart h).code
  rw [hc] at hC
  have I' := I.step (hm.imp id fun hm => ⟨h, hm⟩)
  change Mailed n v' (match (v.sys.hart h).proc with | some p => r.after (v.mem p) p (errand (v.sys.hart h).code) | none => r)
  rw [hc]
  cases hth : g.on h with
  | cpu h' =>
    have her : errand (.op e k) = .other := errand_cpu hC.1 (by rw [St.acct_eq hth]; exact I.locks.me_cpu)
    have hr : (match (v.sys.hart h).proc with | some p => r.after (v.mem p) p (errand (.op e k)) | none => r) = r := by
      rw [her]
      cases (v.sys.hart h).proc <;> rfl
    rw [her] at hmem
    have hmem : v'.mem = v.mem := by
      rcases hmem with ⟨_, _, _, _, h, -⟩ | ⟨-, hmem⟩
      · cases h
      · exact hmem
    have hK' := hK.exec (p := 0) (m := v.mem 0) S I hc hx
    rw [her] at hK'
    rw [hr, Mailed, hmem]
    refine ⟨g', S', I', hK', fun p => ?_⟩
    rcases hproc p with ⟨hon, -⟩ | ⟨-, he⟩ | ⟨-, -, he⟩
    · cases hth.symm.trans hon
    · rw [he.ask]
      exact ht p
    · rw [he]
      exact .idle
  | proc p0 =>
    have hp0 := S.proc_of_on I hth
    rw [hp0] at hmem ⊢
    change Mailed n v' (r.after (v.mem p0) p0 (errand (.op e k)))
    refine ⟨g', S', I', hK.exec S I hc hx, fun p => ?_⟩
    have hother : p ≠ p0 → v'.mem p = v.mem p := by
      intro hne
      rcases hmem with ⟨_, _, _, _, -, h, -, hmem⟩ | ⟨-, hmem⟩
      · cases h
        rw [hmem, update_of_ne hne]
      · rw [hmem]
    rcases hproc p with ⟨hon, hsw, hpost⟩ | ⟨hsw, he⟩ | ⟨hon, hu, he⟩
    · cases hth.symm.trans hon
      have htp := ht p0
      rw [← St.acct_eq hth] at htp
      rcases hmem with ⟨q, pt, addr, _, her, h, hok, hmem⟩ | ⟨hno, hmem⟩
      · cases h
        obtain ⟨k', hk'⟩ := errand_copies her
        cases hk'
        have hask : (g'.acc (.proc p0)).ask =
            { (g.acct h).ask with tried := some (if (v.copyout p0 pt addr).2 then some pt.pid else none) } := by
          rw [← hok]
          exact congrArg Acct.ask hpost
        have hfound : ((r.after (v.mem p0) p0 (.copies q pt addr)).found p0) = some ⟨r.status q, pt⟩ := update_self p0 _ _
        rw [hask, hmem, update_self, her, hfound]
        exact htp.copyout (r := r) I (S.proc ▸ hK) hC.1
      · rw [hmem]
        exact htp.op hsw hpost fun q pt addr her => hno q pt addr p0 her rfl
    · rw [he.ask]
      by_cases hpp : p = p0
      · subst hpp
        have her : errand (.op e k) = .other := errand_switch (hsw hth)
        rw [her] at hmem ⊢
        rcases hmem with ⟨_, _, _, _, h, -⟩ | ⟨-, hmem⟩
        · cases h
        · rw [hmem]
          exact ht p
      · rw [hother hpp, (Mail.after_ne hpp _).1, (Mail.after_ne hpp _).2]
        exact ht p
    · rw [he]
      exact .idle

theorem Mailed.step (hn : initproc < n) {r : Mail} {v v' : World N} {e : World.Ev N} (hk : Mailed n v r) (hs : v.step n e = some v') :
    Mailed n v' (r.upd v e v') := by
  cases e with
  | user h m =>
    simp only [World.step] at hs
    split at hs
    · rename_i p0 hcode _ hp
      cases hs
      obtain ⟨g, S, I, hK, ht⟩ := hk
      -- a process in user mode is not in `wait`
      obtain ⟨hon, hacct⟩ := S.rest I hcode hp
      refine ⟨g, S, I, hK, fun p => ?_⟩
      by_cases hpp : p = p0
      · subst hpp
        rw [← St.acct_eq hon, hacct]
        exact .idle
      · change Told _ (update v.mem p0 m p) _ _
        rw [update_of_ne hpp]
        exact ht p
    · cases hs
  | kernel e =>
    by_cases hst : ∃ h ans, e = .step h ans
    · obtain ⟨h, ans, rfl⟩ := hst
      exact hk.op hs
    have hne : ∀ h ans, e ≠ .step h ans := fun h ans he => hst ⟨h, ans, he⟩
    have heq : v.step n (.kernel e) = (v.sys.step n e).map (fun s => ⟨s, v.mem⟩) ∧ r.upd v (.kernel e) v' = r := by
      cases e with
      | step h ans => exact absurd rfl (hne h ans)
      | _ => exact ⟨rfl, rfl⟩
    rw [heq.1] at hs
    rw [heq.2]
    obtain ⟨s, hx, rfl⟩ := map_eq_some_iff.1 hs
    obtain ⟨g, S, I, hK, ht⟩ := hk
    refine ⟨g, S.enter hn I e.ok_true hne hx, I, ?_, ht⟩
    rcases Sys.step_cases hx with ⟨h, ans, he, -⟩ | ⟨-, h, k, rfl⟩
    · exact absurd he (hne h ans)
    · exact hK

theorem Mailed.boot (hn : initproc < n) {root : Nat} {t0 t : UInt64} {mem : Nat → Space} :
    Mailed n (⟨.boot N root t0 t, mem⟩ : World N) .zero := by
  refine ⟨_, Sim.boot, Inv.boot hn, fun q hz => ?_, fun p => .idle⟩
  rcases Sys.boot_state q with h | h
  · cases h.symm.trans hz
  · cases h.symm.trans hz

theorem wait_delivers_iff (hn : initproc < n) {root : Nat} {t0 t : UInt64} {mem : Nat → Space} {es : List (World.Ev N)}
    {o : Lts.Noted (World N) Mail} (hr : Lts.run (Lts.noted (World.step n) Mail.upd) ⟨⟨.boot N root t0 t, mem⟩, .zero⟩ es = some o)
    {h : Fin N} {pid : Int} {k : Unit → K Unit} (hc : (o.now.sys.hart h).code = .op (.waitRet (some pid)) k) :
    ∃ p addr m, (o.now.sys.hart h).proc = some p ∧ o.note.call p = some (addr, m) ∧ (addr ≠ 0 →
      ∃ d st, o.note.found p = some d ∧ d.pt.pid = pid ∧ d.status = some st ∧
        (Delivers m (o.now.mem p) addr st ↔ Lucky m addr d.pt st)) := by
  obtain ⟨g, S, I, hK, ht⟩ := Lts.noted_inv hr (Mailed.boot hn) fun _ _ _ _ hk hs => hk.step hn hs
  have hC := (S.hart h).code
  rw [hc] at hC
  obtain ⟨-, hme, addr, haddr, htried⟩ := hC.1
  obtain ⟨p, hp⟩ := ne_none_iff_exists'.1 hme
  have hon := I.locks.on_of_me hp
  have htp := ht p
  rw [← St.acct_eq hon] at htp
  obtain ⟨m, hcall, hm⟩ := htp addr haddr
  refine ⟨p, addr, m, S.proc_of_on I hon, hcall, fun hne => ?_⟩
  rw [htried hne nofun] at hm
  obtain ⟨d, st, hfound, hst, hpid, hcopy⟩ := hm
  exact ⟨d, st, hfound, hpid, hst, delivers_iff hcopy⟩

/-- The first process forks and waits with the address 4096, and the child exits. -/
def statusTrace (st : Int) : List (World.Ev 2) :=
  (.round hart₀ .roundRobin :: Ev.steps hart₀ 7 9 ++ .call hart₀ .fork :: Ev.steps hart₀ 8 19 ++
    .call hart₀ (.wait 4096 2) :: Ev.steps hart₀ 9 16 ++ .round hart₀ .roundRobin :: Ev.steps hart₀ 10 12 ++
    .call hart₀ (.exit st) :: Ev.steps hart₀ 11 21 ++ .round hart₀ .roundRobin :: Ev.steps hart₀ 12 19).map .kernel

def onePage (bs : List UInt8) : Space :=
  ⟨fun i => if i = 1 then some fun j => bs.getD j 0 else none, fun _ => true⟩

/-- The result with which `wait` returns next. -/
def waitResult : K Unit → Option (Option Int)
  | .op (.waitRet v) _ => some v
  | _ => none

theorem waitResult_eq_some {c : K Unit} {v : Option Int} (hc : waitResult c = some v) : ∃ k, c = .op (.waitRet v) k := by
  cases c with
  | ret u | panic m => cases hc
  | op e k =>
    cases e with
    | waitRet v =>
      cases hc
      exact ⟨k, rfl⟩
    | _ => cases hc

/-- What the first process sees of its `wait`. -/
structure Outcome where
  result : Option (Option Int)
  proc : Option Nat
  addr : Option Nat
  /-- The first bytes of the page, at the call and at the return. -/
  before : Option (List (Option UInt8))
  after : List (Option UInt8)
  status : Option (Option Int)
  times : Option ProcTime
  deriving DecidableEq

def outcome (o : Lts.Noted (World 2) Mail) : Outcome where
  result := waitResult (o.now.sys.hart hart₀).code
  proc := (o.now.sys.hart hart₀).proc
  addr := (o.note.call 0).map Prod.fst
  before := (o.note.call 0).map fun c => (List.range 56).map fun i => c.2.pages.byte (4096 + i)
  after := (List.range 56).map fun i => (o.now.mem 0).pages.byte (4096 + i)
  status := (o.note.found 0).map Found.status
  times := (o.note.found 0).map Found.pt

/-- The times of the child in `statusTrace`. -/
def childTimes : ProcTime := ⟨2, 8, 3, 10, 2, 11, 10⟩

theorem wait_delivers_lucky : ∃ o m, Lts.run (Lts.noted (World.step 2) Mail.upd) ⟨⟨.boot 2 1 5 5, fun _ => onePage (bytes childTimes)⟩, .zero⟩
    (statusTrace 2) = some o ∧ o.note.call 0 = some (4096, m) ∧ Delivers m (o.now.mem 0) 4096 2 := by
  have hr : (Lts.run (Lts.noted (World.step 2) Mail.upd) ⟨⟨.boot 2 1 5 5, fun _ => onePage (bytes childTimes)⟩, .zero⟩
      (statusTrace 2)).map outcome = some ⟨some (some 2), some 0, some 4096,
        some ((range 56).map fun i => (bytes childTimes)[i]?), (range 56).map fun i => (bytes childTimes)[i]?,
        some (some 2), some childTimes⟩ := by
    decide +kernel
  obtain ⟨o, ho, hl⟩ := map_eq_some_iff.1 hr
  simp only [outcome, Outcome.mk.injEq] at hl
  obtain ⟨hret, hproc, haddr, hbytes, -, hstatus, htimes⟩ := hl
  obtain ⟨k, hk⟩ := waitResult_eq_some hret
  obtain ⟨p, addr, m, hp, hm, hiff⟩ := wait_delivers_iff (by decide) ho hk
  cases hproc.symm.trans hp
  rw [hm] at haddr hbytes
  cases haddr
  obtain ⟨d, st, hd, -, hst, hiff⟩ := hiff (by decide)
  rw [hd] at hstatus htimes
  cases hst.symm.trans (some.inj hstatus)
  have hpt : d.pt = childTimes := some.inj htimes
  refine ⟨o, m, ho, hm, hiff.2 ⟨by rw [hpt]; decide, fun i hi _ => ?_⟩⟩
  rw [hpt]
  exact map_inj_left.1 (some.inj hbytes) i (mem_range.2 hi)

theorem wait_delivers_pid : ∃ o m, Lts.run (Lts.noted (World.step 2) Mail.upd) ⟨⟨.boot 2 1 5 5, fun _ => onePage []⟩, .zero⟩
    (statusTrace 3) = some o ∧ (∃ k, (o.now.sys.hart 0).code = .op (.waitRet (some 2)) k) ∧ (o.now.sys.hart 0).proc = some 0 ∧
      o.note.call 0 = some (4096, m) ∧ (∃ pt, o.note.found 0 = some ⟨some 3, pt⟩) ∧ ¬Delivers m (o.now.mem 0) 4096 3 ∧
      m.pages.byte 4104 = some 0 ∧ (o.now.mem 0).pages.byte 4104 = some 8 := by
  have hr : (Lts.run (Lts.noted (World.step 2) Mail.upd) ⟨⟨.boot 2 1 5 5, fun _ => onePage []⟩, .zero⟩ (statusTrace 3)).map outcome =
      some ⟨some (some 2), some 0, some 4096, some ((range 56).map fun _ => some 0),
        (range 56).map fun i => (bytes childTimes)[i]?, some (some 3), some childTimes⟩ := by
    decide +kernel
  obtain ⟨o, ho, hl⟩ := map_eq_some_iff.1 hr
  simp only [outcome, Outcome.mk.injEq] at hl
  obtain ⟨hret, hproc, haddr, hbytes, hafter, hstatus, htimes⟩ := hl
  obtain ⟨k, hk⟩ := waitResult_eq_some hret
  obtain ⟨⟨addr, m⟩, hc, rfl⟩ := map_eq_some_iff.1 haddr
  obtain ⟨⟨st, pt⟩, hd, rfl⟩ := map_eq_some_iff.1 hstatus
  rw [hc] at hbytes
  have hbefore : m.pages.byte 4104 = some 0 := map_inj_left.1 (some.inj hbytes) 8 (by decide)
  have hnow : (o.now.mem 0).pages.byte 4104 = some 8 := map_inj_left.1 hafter 8 (by decide)
  refine ⟨o, m, ho, ⟨k, hk⟩, hproc, hc, ⟨pt, hd⟩, fun hdel => ?_, hbefore, hnow⟩
  have := hdel.2 4104 (by decide)
  rw [hbefore, hnow] at this
  cases this

end Xv6.Harts
