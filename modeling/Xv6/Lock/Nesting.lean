import Mathlib
import Xv6.Lib.Protocol
import Xv6.Lock.Spin

/-!
# Nested locks keep interrupts consistent

The account of a hart is its `struct cpu`, the locks it has taken, and what its thread had `outside` of all locks. No other hart changes it. A
thread that is switched out has the rest of its code in its context: that code is right for whatever hart resumes it, since `sched` puts back the
`intena` it has kept on the stack.
-/

open Function (update update_self update_of_ne)

namespace Xv6.Lock

open Prog Lts
open Harts (Lk hart₀)
open Sched (ProcState)

/-! ## Accounts -/

structure Acct where
  cpu : Cpu
  /-- The locks that the hart has set, and those whose `cpu` is the hart. -/
  taken : Set Lk
  signed : Set Lk
  on : Option Nat
  out : Option Bool

/-- What holds between any two accesses. -/
structure Tidy (a : Acct) : Prop where
  off : ∀ l ∈ a.taken, a.cpu.intr = false
  signed : a.signed ⊆ a.taken

/-- What `swtch` passes on between a scheduler and process `p`. -/
structure Handed (p : Nat) (a : Acct) : Prop where
  taken : a.taken = {.proc p}
  signed : a.signed = {.proc p}
  noff : a.cpu.noff = 1
  intr : a.cpu.intr = false
  proc : a.cpu.proc = some p

/-- What holds between two calls, with the locks `held`. -/
structure Rest (held : List Lk) (a : Acct) : Prop where
  taken : a.taken = {l | l ∈ held}
  signed : a.signed = {l | l ∈ held}
  nodup : held.Nodup
  noff : a.cpu.noff = held.length
  off : held ≠ [] → a.cpu.intr = false ∧ a.out = some a.cpu.intena
  free : held = [] → a.out = some a.cpu.intr
  proc : a.cpu.proc = a.on

/-- What an access needs of the account, and what the account is after it. -/
def proto : Protocol Op Acct where
  pre _ e a := Tidy a ∧
    match e with
    | .swap l => l ∉ a.taken
    | .sign l => l ∈ a.taken
    | .unsign l => l ∈ a.taken
    | .unlock l => l ∈ a.taken ∧ l ∉ a.signed
    | .swtchTo p => Handed p a ∧ a.out = some a.cpu.intena ∧ a.on = none
    | .swtchBack p => Handed p a ∧ a.out = some a.cpu.intena ∧ a.on = some p
    | _ => True
  post
    | _, .cpu, a, b, a' => b = a.cpu ∧ a' = a
    | _, .setcpu f, a, _, a' => a' = { a with cpu := f a.cpu }
    | _, .locked l, a, b, a' => (l ∈ a.taken → b = true) ∧ a' = a
    | _, .mine l, a, b, a' => (b = true ↔ l ∈ a.signed) ∧ a' = a
    | _, .swap l, a, _, a' => a' = { a with taken := insert l a.taken }
    | _, .sign l, a, _, a' => a' = { a with signed := insert l a.signed }
    | _, .unsign l, a, _, a' => a' = { a with signed := a.signed \ {l} }
    | _, .unlock l, a, _, a' => a' = { a with taken := a.taken \ {l} }
    | _, .swtchTo p, _, _, a' => Handed p a' ∧ a'.out = some a'.cpu.intena ∧ a'.on = none
    | _, .swtchBack p, a, _, a' => Handed p a' ∧ a'.out = a.out ∧ a'.on = some p

/-! ## The calls -/

section
variable {a : Acct} {l : Lk} {p : Nat} {held : List Lk} {α : Type}

theorem keeps_mycpu {f : Cpu → K α} {Q : α → Acct → Prop} (ht : Tidy a) (hf : Keeps proto (f a.cpu) a Q) :
    Keeps proto (mycpu >>= f) a Q := by
  rw [mycpu, keeps_bind, keeps_perform]
  refine ⟨⟨ht, trivial⟩, ?_⟩
  rintro _ _ ⟨rfl, rfl⟩
  exact hf

theorem keeps_setcpu {g : Cpu → Cpu} {Q : Unit → Acct → Prop} (ht : Tidy a) (hQ : Q () { a with cpu := g a.cpu }) :
    Keeps proto (setcpu g) a Q := by
  rw [setcpu, keeps_perform]
  refine ⟨⟨ht, trivial⟩, ?_⟩
  rintro _ _ rfl
  exact hQ

def Acct.pushed (a : Acct) : Acct :=
  { a with cpu := { a.cpu with
      intr := false, intena := if a.cpu.noff = 0 then a.cpu.intr else a.cpu.intena, noff := a.cpu.noff + 1 } }

def Acct.popped (a : Acct) : Acct :=
  { a with cpu := { a.cpu with intr := decide (a.cpu.noff = 1) && a.cpu.intena, noff := a.cpu.noff - 1 } }

theorem keeps_pushOff {Q : Unit → Acct → Prop} (ht : Tidy a) (hQ : Q () a.pushed) : Keeps proto pushOff a Q := by
  have ht' : ∀ c : Cpu, c.intr = false → Tidy { a with cpu := c } := fun c hc => ⟨fun _ _ => hc, ht.signed⟩
  unfold pushOff
  refine keeps_mycpu ht ?_
  rw [keeps_bind]
  refine keeps_setcpu ht (keeps_mycpu (ht' _ rfl) ?_)
  dsimp only
  split
  case isTrue hn =>
    rw [keeps_bind]
    refine keeps_setcpu (ht' _ rfl) (keeps_setcpu (ht' _ rfl) ?_)
    simpa [Acct.pushed, hn] using hQ
  case isFalse hn =>
    refine keeps_setcpu (ht' _ rfl) ?_
    simpa [Acct.pushed, hn] using hQ

theorem keeps_popOff {Q : Unit → Acct → Prop} (ht : Tidy a) (hi : a.cpu.intr = false) (hn : 1 ≤ a.cpu.noff) (hQ : Q () a.popped) :
    Keeps proto popOff a Q := by
  have ht' : ∀ c : Cpu, c.intr = false → Tidy { a with cpu := c } := fun c hc => ⟨fun _ _ => hc, ht.signed⟩
  unfold popOff
  refine keeps_mycpu ht ?_
  rw [if_neg (by simp [hi])]
  refine keeps_mycpu ht ?_
  rw [if_neg (by omega), keeps_bind]
  refine keeps_setcpu ht (keeps_mycpu (ht' _ hi) ?_)
  have hnoff : a.cpu.noff - 1 = 0 ↔ a.cpu.noff = 1 := by omega
  dsimp only
  split
  case isTrue h =>
    refine keeps_setcpu (ht' _ hi) ?_
    simpa [Acct.popped, hnoff.1 h.1, h.2] using hQ
  case isFalse h =>
    rw [hnoff, not_and, Bool.not_eq_true] at h
    have : (decide (a.cpu.noff = 1) && a.cpu.intena) = a.cpu.intr := by simpa [hi] using h
    rw [Acct.popped, this] at hQ
    exact hQ

theorem keeps_holding {Q : Bool → Acct → Prop} (ht : Tidy a) (hQ : ∀ b, (b = true ↔ l ∈ a.signed) → Q b a) :
    Keeps proto (holding l) a Q := by
  rw [holding, keeps_bind, keeps_perform]
  refine ⟨⟨ht, trivial⟩, ?_⟩
  rintro b _ ⟨hb, rfl⟩
  split
  · rw [keeps_perform]
    refine ⟨⟨ht, trivial⟩, ?_⟩
    rintro b' _ ⟨hb', rfl⟩
    exact hQ b' hb'
  · rename_i hno
    refine hQ false ⟨nofun, fun hl => ?_⟩
    exact absurd (hb (ht.signed hl)) hno

theorem Rest.tidy (h : Rest held a) : Tidy a := by
  refine ⟨fun l hl => ?_, (h.signed.trans h.taken.symm).subset⟩
  rw [h.taken] at hl
  exact (h.off (List.ne_nil_of_mem hl)).1

theorem keeps_acquire (h : Rest held a) (hl : l ∉ held) : Keeps proto (acquire l) a fun _ => Rest (l :: held) := by
  have ht : Tidy a.pushed := ⟨fun _ _ => rfl, h.tidy.signed⟩
  have hout : a.out = some a.pushed.cpu.intena := by
    cases held with
    | nil => simpa [Acct.pushed, h.noff] using h.free rfl
    | cons x xs =>
      have : (xs.length : Int) + 1 ≠ 0 := by omega
      simpa [Acct.pushed, h.noff, this] using (h.off (by simp)).2
  rw [acquire, keeps_bind]
  refine keeps_pushOff h.tidy ?_
  rw [keeps_bind]
  refine keeps_holding ht fun b hb => ?_
  have hmine : b = false := by
    rw [← Bool.not_eq_true, hb]
    simpa [Acct.pushed, h.signed] using hl
  rw [hmine, if_neg (by simp), keeps_bind, keeps_perform]
  refine ⟨⟨ht, by simpa [Acct.pushed, h.taken] using hl⟩, ?_⟩
  rintro _ _ rfl
  rw [keeps_perform]
  refine ⟨⟨⟨fun _ _ => rfl, h.tidy.signed.trans (Set.subset_insert l _)⟩, Set.mem_insert l _⟩, ?_⟩
  rintro _ _ rfl
  refine ⟨?_, ?_, List.nodup_cons.2 ⟨hl, h.nodup⟩, ?_, fun _ => ⟨rfl, hout⟩, nofun, h.proc⟩
  · ext x
    simp [Acct.pushed, h.taken]
  · ext x
    simp [Acct.pushed, h.signed]
  · simp [Acct.pushed, h.noff]

theorem keeps_release (h : Rest held a) (hl : l ∈ held) : Keeps proto (release l) a fun _ => Rest (held.erase l) := by
  have hne := List.ne_nil_of_mem hl
  obtain ⟨hi, hout⟩ := h.off hne
  have hlen : 1 ≤ held.length := List.length_pos_iff.2 hne
  have htaken : l ∈ a.taken := by simpa [h.taken] using hl
  rw [release, keeps_bind]
  refine keeps_holding h.tidy fun b hb => ?_
  have hmine : b = true := hb.2 (by simpa [h.signed] using hl)
  rw [hmine, if_neg (by simp), keeps_bind, keeps_perform]
  refine ⟨⟨h.tidy, htaken⟩, ?_⟩
  rintro _ _ rfl
  rw [keeps_bind, keeps_perform]
  refine ⟨⟨⟨fun _ _ => hi, fun _ hx => h.tidy.signed hx.1⟩, htaken, by simp⟩, ?_⟩
  rintro _ _ rfl
  refine keeps_popOff ⟨fun _ _ => hi, fun _ hx => ⟨h.tidy.signed hx.1, hx.2⟩⟩ hi (by simp only [h.noff]; omega) ?_
  have herase : ∀ x, x ∈ held.erase l ↔ x ∈ held ∧ x ≠ l := fun x => by rw [h.nodup.mem_erase_iff, and_comm]
  have hcount : (held.erase l).length = held.length - 1 := List.length_erase_of_mem hl
  refine ⟨?_, ?_, h.nodup.erase l, ?_, fun hno => ?_, fun hno => ?_, h.proc⟩
  · ext x
    simp [Acct.popped, h.taken, herase]
  · ext x
    simp [Acct.popped, h.signed, herase]
  · simp only [Acct.popped, h.noff]
    omega
  · have : held.length ≠ 1 := fun h1 => hno (List.length_eq_zero_iff.1 (by omega))
    refine ⟨?_, hout⟩
    simp only [Acct.popped, h.noff]
    have : (held.length : Int) ≠ 1 := by omega
    simp [this]
  · have : held.length = 1 := by
      rw [hno, List.length_nil] at hcount
      omega
    simpa [Acct.popped, h.noff, this] using hout

theorem Acct.pushed_popped (hn : a.cpu.noff = 1) (hi : a.cpu.intr = false) : a.pushed.popped = a := by
  obtain ⟨⟨i, n, e, q⟩, t, u, v, o⟩ := a
  cases hn
  cases hi
  rfl

theorem keeps_sched {st : ProcState} (h : Rest [.proc p] a) (hon : a.on = some p) (hst : st ≠ .running) :
    Keeps proto (sched st) a fun _ => Rest [.proc p] := by
  obtain ⟨hi, hout⟩ := h.off (by simp)
  have hn : a.cpu.noff = 1 := h.noff
  unfold sched myproc
  rw [keeps_bind, keeps_bind]
  refine keeps_pushOff h.tidy (keeps_mycpu ⟨fun _ _ => rfl, h.tidy.signed⟩ ?_)
  rw [keeps_bind]
  refine keeps_popOff ⟨fun _ _ => rfl, h.tidy.signed⟩ rfl (by simp [Acct.pushed, hn]) ?_
  rw [Acct.pushed_popped hn hi, keeps_pure]
  have hproc : a.pushed.cpu.proc = some p := h.proc.trans hon
  simp only [hproc]
  rw [keeps_bind]
  refine keeps_holding h.tidy fun b hb => ?_
  have hmine : b = true := hb.2 (by simp [h.signed])
  rw [hmine, if_neg (by simp)]
  refine keeps_mycpu h.tidy ?_
  rw [if_neg (by simp [hn]), if_neg hst]
  refine keeps_mycpu h.tidy ?_
  rw [if_neg (by simp [hi])]
  refine keeps_mycpu h.tidy ?_
  rw [keeps_bind, keeps_perform]
  refine ⟨⟨h.tidy, ⟨by simp [h.taken], by simp [h.signed], hn, hi, h.proc.trans hon⟩, hout, hon⟩, ?_⟩
  rintro _ b ⟨hb, hbout, hbon⟩
  refine keeps_setcpu ⟨fun _ _ => hb.intr, by rw [hb.taken, hb.signed]⟩ ?_
  exact ⟨by simp [hb.taken], by simp [hb.signed], by simp, hb.noff, fun _ => ⟨hb.intr, hbout.trans hout⟩, nofun, hb.proc.trans hbon.symm⟩

theorem keeps_runProc (h : Rest [.proc p] a) (hon : a.on = none) : Keeps proto (runProc p) a fun _ => Rest [.proc p] := by
  obtain ⟨hi, hout⟩ := h.off (by simp)
  rw [runProc, keeps_bind]
  refine keeps_setcpu h.tidy ?_
  rw [keeps_bind, keeps_perform]
  refine ⟨⟨⟨fun _ _ => hi, h.tidy.signed⟩, ⟨by simp [h.taken], by simp [h.signed], h.noff, hi, rfl⟩, hout, hon⟩, ?_⟩
  rintro _ b ⟨hb, hbout, hbon⟩
  refine keeps_setcpu ⟨fun _ _ => hb.intr, by rw [hb.taken, hb.signed]⟩ ?_
  exact ⟨by simp [hb.taken], by simp [hb.signed], by simp, hb.noff, fun _ => ⟨hb.intr, hbout⟩, nofun, hbon.symm⟩

end

/-! ## The machine -/

section
variable {N : Nat} {s s' : Sys N} {r r' : Thread N → Ledger} {h h' : Fin N} {l : Lk} {p : Nat}

def Sys.acct (s : Sys N) (r : Thread N → Ledger) (h : Fin N) : Acct where
  cpu := (s.hart h).cpu
  taken := {l | (s.lock l).locked = some h}
  signed := {l | (s.lock l).cpu = some h}
  on := (s.hart h).on
  out := (r (s.thread h)).outside

structure Good (s : Sys N) (r : Thread N → Ledger) : Prop where
  code : ∀ h, Keeps proto (s.hart h).code (s.acct r h) fun _ => Rest (r (s.thread h)).held
  /-- A scheduler that has been switched out is resumed by its process. -/
  sched : ∀ h p, (s.hart h).on = some p → ∀ a, Handed p a → a.out = some a.cpu.intena → a.on = none →
    Keeps proto (s.hart h).ctx a fun _ => Rest (r (.scheduler h)).held
  proc : ∀ p, (∀ h, (s.hart h).on ≠ some p) → ∀ a, Handed p a → a.out = ((r (.proc p)).outside <|> some a.cpu.intena) →
    a.on = some p → Keeps proto (s.ctx p) a fun _ => Rest (r (.proc p)).held
  once : ∀ h h' p, (s.hart h).on = some p → (s.hart h').on = some p → h = h'

theorem Sys.thread_eq_proc : s.thread h = .proc p ↔ (s.hart h).on = some p := by
  unfold thread
  split <;> simp_all

theorem Sys.thread_eq_scheduler : s.thread h = .scheduler h' ↔ h = h' ∧ (s.hart h).on = none := by
  unfold thread
  split <;> simp_all

section
variable (G : Good s r)
include G

theorem Good.thread_ne (hne : h' ≠ h) : s.thread h' ≠ s.thread h := by
  intro e
  cases ht : s.thread h with
  | scheduler h0 =>
    rw [ht] at e
    exact hne ((Sys.thread_eq_scheduler.1 e).1.trans (Sys.thread_eq_scheduler.1 ht).1.symm)
  | proc p =>
    rw [ht] at e
    exact hne (G.once _ _ _ (Sys.thread_eq_proc.1 e) (Sys.thread_eq_proc.1 ht))

theorem Good.tidy (h : Fin N) : Tidy (s.acct r h) := by
  have hk := G.code h
  cases hc : (s.hart h).code with
  | ret u =>
    rw [hc] at hk
    exact Rest.tidy hk
  | panic m =>
    rw [hc] at hk
    exact hk.elim
  | op e k =>
    rw [hc] at hk
    exact hk.1.1

theorem Good.other (hhart : s'.hart h' = s.hart h') (hr : r' (s.thread h') = r (s.thread h'))
    (hlock : ∀ l, ((s'.lock l).locked = some h' ↔ (s.lock l).locked = some h') ∧ ((s'.lock l).cpu = some h' ↔ (s.lock l).cpu = some h')) :
    Keeps proto (s'.hart h').code (s'.acct r' h') fun _ => Rest (r' (s'.thread h')).held := by
  have hthread : s'.thread h' = s.thread h' := by rw [Sys.thread, Sys.thread, hhart]
  have hacct : s'.acct r' h' = s.acct r h' := by simp only [Sys.acct, hthread, hhart, hr, hlock]
  rw [hacct, hthread, hhart, hr]
  exact G.code h'

theorem Good.move {c : Cpu} {q : K Unit} (hhart : s'.hart = update s.hart h { s.hart h with cpu := c, code := q })
    (hctx : s'.ctx = s.ctx) (hr : ∀ t ≠ s.thread h, r' t = r t)
    (hlock : ∀ h' ≠ h, ∀ l, ((s'.lock l).locked = some h' ↔ (s.lock l).locked = some h') ∧
      ((s'.lock l).cpu = some h' ↔ (s.lock l).cpu = some h'))
    (hk : Keeps proto q ⟨c, {l | (s'.lock l).locked = some h}, {l | (s'.lock l).cpu = some h}, (s.hart h).on, (r' (s.thread h)).outside⟩
      fun _ => Rest (r' (s.thread h)).held) : Good s' r' := by
  have hself : s'.hart h = { s.hart h with cpu := c, code := q } := by rw [hhart, update_self]
  have hother : ∀ h' ≠ h, s'.hart h' = s.hart h' := fun h' hne => by rw [hhart, update_of_ne hne]
  have hon : ∀ h', (s'.hart h').on = (s.hart h').on ∧ (s'.hart h').ctx = (s.hart h').ctx := by
    intro h'
    rcases eq_or_ne h' h with rfl | hne
    · rw [hself]
      exact ⟨rfl, rfl⟩
    · rw [hother h' hne]
      exact ⟨rfl, rfl⟩
  refine ⟨fun h' => ?_, fun h' p hp a => ?_, fun p hp a => ?_, fun h1 h2 p hp hq => ?_⟩
  · rcases eq_or_ne h' h with rfl | hne
    · have hthread : s'.thread h' = s.thread h' := by rw [Sys.thread, Sys.thread, (hon h').1]
      rw [Sys.acct, hthread, hself]
      exact hk
    · exact G.other (hother h' hne) (hr _ (G.thread_ne hne)) (hlock h' hne)
  · rw [(hon h').1] at hp
    have hne : .scheduler h' ≠ s.thread h := by
      intro e
      obtain ⟨rfl, hno⟩ := Sys.thread_eq_scheduler.1 e.symm
      cases hp.symm.trans hno
    rw [(hon h').2, hr _ hne]
    exact G.sched h' p hp a
  · have hoff : ∀ h, (s.hart h).on ≠ some p := fun h => (hon h).1 ▸ hp h
    rw [hr _ fun e => hoff h (Sys.thread_eq_proc.1 e.symm), hctx]
    exact G.proc p hoff a
  · rw [(hon _).1] at hp hq
    exact G.once h1 h2 p hp hq

end

theorem Good.swtchTo (G : Good s r) {k : Unit → K Unit} (hc : (s.hart h).code = .op (.swtchTo p) k) (hoff : ∀ h', (s.hart h').on ≠ some p)
    (hhart : s'.hart = update s.hart h { s.hart h with code := s.ctx p, ctx := k (), on := some p }) (hlock : s'.lock = s.lock)
    (hctx : s'.ctx = s.ctx) :
    Good s' (update r (.proc p) { r (.proc p) with outside := (r (.proc p)).outside <|> (r (.scheduler h)).outside }) := by
  have hk := G.code h
  rw [hc] at hk
  obtain ⟨⟨-, hhand, hout, hon⟩, hpost⟩ := hk
  have hself : s.thread h = .scheduler h := Sys.thread_eq_scheduler.2 ⟨rfl, hon⟩
  rw [hself] at hpost
  have hout : (r (.scheduler h)).outside = some (s.hart h).cpu.intena := hself ▸ hout
  have hh : s'.hart h = { s.hart h with code := s.ctx p, ctx := k (), on := some p } := by rw [hhart, update_self]
  have hother : ∀ h' ≠ h, s'.hart h' = s.hart h' := fun h' hne => by rw [hhart, update_of_ne hne]
  refine ⟨fun h' => ?_, fun h' q hq a ha ho hn => ?_, fun q hq a => ?_, fun h1 h2 q hq1 hq2 => ?_⟩
  · rcases eq_or_ne h' h with rfl | hne
    · have ht : s'.thread h' = .proc p := Sys.thread_eq_proc.2 (by rw [hh])
      rw [Sys.acct, ht, hh, update_self, hlock, hout]
      exact G.proc p hoff _ ⟨hhand.taken, hhand.signed, hhand.noff, hhand.intr, hhand.proc⟩ rfl rfl
    · refine G.other (hother h' hne) (update_of_ne (fun e => hoff h' (Sys.thread_eq_proc.1 e)) ..) fun _ => ?_
      rw [hlock]
      exact ⟨.rfl, .rfl⟩
  · rw [update_of_ne (by simp)]
    rcases eq_or_ne h' h with rfl | hne
    · rw [hh] at hq ⊢
      cases hq
      exact hpost () a ⟨ha, ho, hn⟩
    · rw [hother h' hne] at hq ⊢
      exact G.sched h' q hq a ha ho hn
  · have hqp : q ≠ p := by
      rintro rfl
      exact hq h (by rw [hh])
    rw [update_of_ne (by simpa using hqp), hctx]
    refine G.proc q (fun h' => ?_) a
    rcases eq_or_ne h' h with rfl | hne
    · exact fun he => by cases he.symm.trans hon
    · exact hother h' hne ▸ hq h'
  · by_contra hne
    rcases eq_or_ne h1 h with rfl | h1h
    · rw [hh] at hq1
      cases hq1
      rw [hother h2 (Ne.symm hne)] at hq2
      exact hoff h2 hq2
    · rw [hother h1 h1h] at hq1
      rcases eq_or_ne h2 h with rfl | h2h
      · rw [hh] at hq2
        cases hq2
        exact hoff h1 hq1
      · rw [hother h2 h2h] at hq2
        exact hne (G.once _ _ _ hq1 hq2)

theorem Good.swtchBack (G : Good s r) {k : Unit → K Unit} (hc : (s.hart h).code = .op (.swtchBack p) k)
    (hhart : s'.hart = update s.hart h { s.hart h with code := (s.hart h).ctx, on := none }) (hlock : s'.lock = s.lock)
    (hctx : s'.ctx = update s.ctx p (k ())) :
    Good s' (update r (.scheduler h) { r (.scheduler h) with outside := (r (.proc p)).outside }) := by
  have hk := G.code h
  rw [hc] at hk
  obtain ⟨⟨-, hhand, hout, hon⟩, hpost⟩ := hk
  have hself : s.thread h = .proc p := Sys.thread_eq_proc.2 hon
  rw [hself] at hpost
  have hout : (r (.proc p)).outside = some (s.hart h).cpu.intena := hself ▸ hout
  have hh : s'.hart h = { s.hart h with code := (s.hart h).ctx, on := none } := by rw [hhart, update_self]
  have hother : ∀ h' ≠ h, s'.hart h' = s.hart h' := fun h' hne => by rw [hhart, update_of_ne hne]
  have hold : ∀ h' q, (s'.hart h').on = some q → h' ≠ h ∧ (s.hart h').on = some q := by
    intro h' q hq
    rcases eq_or_ne h' h with rfl | hne
    · rw [hh] at hq
      cases hq
    · exact ⟨hne, hother h' hne ▸ hq⟩
  refine ⟨fun h' => ?_, fun h' q hq a => ?_, fun q hq a ha ho hn => ?_, fun h1 h2 q hq1 hq2 => ?_⟩
  · rcases eq_or_ne h' h with rfl | hne
    · have ht : s'.thread h' = .scheduler h' := Sys.thread_eq_scheduler.2 ⟨rfl, by rw [hh]⟩
      rw [Sys.acct, ht, hh, update_self, hlock]
      exact G.sched h' p hon _ ⟨hhand.taken, hhand.signed, hhand.noff, hhand.intr, hhand.proc⟩ hout rfl
    · refine G.other (hother h' hne) (update_of_ne (fun e => hne (Sys.thread_eq_scheduler.1 e).1) ..) fun _ => ?_
      rw [hlock]
      exact ⟨.rfl, .rfl⟩
  · obtain ⟨hne, hq⟩ := hold h' q hq
    rw [update_of_ne (by simpa using hne), hother h' hne]
    exact G.sched h' q hq a
  · rw [update_of_ne (by simp)] at ho ⊢
    rw [hctx]
    rcases eq_or_ne q p with rfl | hqp
    · rw [update_self]
      refine hpost () a ⟨ha, ?_, hn⟩
      rw [Sys.acct, hself]
      rw [hout] at ho ⊢
      exact ho
    · rw [update_of_ne hqp]
      refine G.proc q (fun h' => ?_) a ha ho hn
      rcases eq_or_ne h' h with rfl | hne
      · exact fun he => hqp (Option.some.inj (he.symm.trans hon))
      · exact hother h' hne ▸ hq h'
  · exact G.once h1 h2 q (hold h1 q hq1).2 (hold h2 q hq2).2

/-! ## Steps -/

section
variable {x : Spinlock N} {f : Spinlock N → Prop}

theorem setOf_update_of (hx : f x) : {l' | f (update s.lock l x l')} = insert l {l' | f (s.lock l')} := by
  ext l'
  rcases eq_or_ne l' l with rfl | hne
  · simp [hx]
  · simp [hne]

theorem setOf_update_of_not (hx : ¬f x) : {l' | f (update s.lock l x l')} = {l' | f (s.lock l')} \ {l} := by
  ext l'
  rcases eq_or_ne l' l with rfl | hne
  · simp [hx]
  · simp [hne]

theorem setOf_update_same (hx : f x ↔ f (s.lock l)) : {l' | f (update s.lock l x l')} = {l' | f (s.lock l')} := by
  ext l'
  rcases eq_or_ne l' l with rfl | hne
  · simp [hx]
  · simp [hne]

theorem Good.relock (G : Good s r) {q : K Unit} {T U : Set Lk}
    (hx : ∀ h' ≠ h, (x.locked = some h' ↔ (s.lock l).locked = some h') ∧ (x.cpu = some h' ↔ (s.lock l).cpu = some h'))
    (hT : {l' | (update s.lock l x l').locked = some h} = T) (hU : {l' | (update s.lock l x l').cpu = some h} = U)
    (hk : Keeps proto q { s.acct r h with taken := T, signed := U } fun _ => Rest (r (s.thread h)).held) :
    Good ((s.setLock l x).goto h q) r := by
  subst hT hU
  refine G.move rfl rfl (fun _ _ => rfl) (fun h' hne l' => ?_) hk
  change ((update s.lock l x l').locked = some h' ↔ _) ∧ ((update s.lock l x l').cpu = some h' ↔ _)
  rcases eq_or_ne l' l with rfl | hl
  · rw [update_self]
    exact hx h' hne
  · rw [update_of_ne hl]
    exact ⟨.rfl, .rfl⟩

end

section
variable (G : Good s r)
include G

theorem Good.not_signed (hl : (s.lock l).locked = some h) (hne : h' ≠ h) : (s.lock l).cpu ≠ some h' := by
  intro e
  have := (G.tidy h').signed e
  exact hne (Option.some.inj (this.symm.trans hl))

theorem Good.exec (hs : s.exec h (s.hart h).code = some s') : Good s' (record s (.step h) s' r) := by
  have hk := G.code h
  cases hc : (s.hart h).code with
  | ret u | panic m =>
    rw [hc] at hs
    cases hs
  | op e k =>
    simp only [record, hc]
    rw [hc] at hs hk
    obtain ⟨⟨-, hpre⟩, hpost⟩ := hk
    cases e with
    | cpu =>
      cases hs
      exact G.move rfl rfl (fun _ _ => rfl) (fun _ _ _ => ⟨.rfl, .rfl⟩) (hpost _ _ ⟨rfl, rfl⟩)
    | setcpu f =>
      cases hs
      exact G.move rfl rfl (fun _ _ => rfl) (fun _ _ _ => ⟨.rfl, .rfl⟩) (hpost _ _ rfl)
    | locked l =>
      cases hs
      refine G.move rfl rfl (fun _ _ => rfl) (fun _ _ _ => ⟨.rfl, .rfl⟩) (hpost _ _ ⟨fun hl => ?_, rfl⟩)
      exact Option.isSome_iff_exists.2 ⟨h, hl⟩
    | mine l =>
      cases hs
      exact G.move rfl rfl (fun _ _ => rfl) (fun _ _ _ => ⟨.rfl, .rfl⟩) (hpost _ _ ⟨decide_eq_true_iff, rfl⟩)
    | swap l =>
      simp only [Sys.exec] at hs
      split at hs
      case isTrue hfree =>
        cases hs
        exact G.relock (fun h' hne => ⟨by simp [hfree, hne.symm], .rfl⟩) (setOf_update_of (f := fun y => y.locked = some h) rfl)
          (setOf_update_same (f := fun y => y.cpu = some h) .rfl) (hpost _ _ rfl)
      case isFalse => cases hs
    | sign l =>
      cases hs
      exact G.relock (fun h' hne => ⟨.rfl, by simp [G.not_signed hpre hne, hne.symm]⟩) (setOf_update_same (f := fun y => y.locked = some h) .rfl)
        (setOf_update_of (f := fun y => y.cpu = some h) rfl) (hpost _ _ rfl)
    | unsign l =>
      cases hs
      exact G.relock (fun h' hne => ⟨.rfl, by simp [G.not_signed hpre hne]⟩) (setOf_update_same (f := fun y => y.locked = some h) .rfl)
        (setOf_update_of_not (f := fun y => y.cpu = some h) nofun) (hpost _ _ rfl)
    | unlock l =>
      cases hs
      have hl : (s.lock l).locked = some h := hpre.1
      exact G.relock (fun h' hne => ⟨by simp [hl, hne.symm], .rfl⟩) (setOf_update_of_not (f := fun y => y.locked = some h) nofun)
        (setOf_update_same (f := fun y => y.cpu = some h) .rfl) (hpost _ _ rfl)
    | swtchTo p =>
      simp only [Sys.exec] at hs
      split at hs
      case isTrue hoff =>
        cases hs
        exact G.swtchTo hc hoff rfl rfl rfl
      case isFalse => cases hs
    | swtchBack p =>
      cases hs
      exact G.swtchBack hc rfl rfl rfl

theorem Good.rest (hi : (s.hart h).idle) : Rest (r (s.thread h)).held (s.acct r h) := by
  have hk := G.code h
  unfold Hart.idle at hi
  split at hi
  case h_1 u hc =>
    rw [hc] at hk
    exact hk
  case h_2 => cases hi

theorem Good.call {c : Call} (hi : (s.hart h).idle) (hm : Matched ⟨s, r⟩ (.call h c)) :
    Good (s.goto h c.prog) (record s (.call h c) (s.goto h c.prog) r) := by
  have hrest := G.rest hi
  cases c with
  | acquire l =>
    refine G.move rfl rfl (fun t ht => update_of_ne ht ..) (fun _ _ _ => ⟨.rfl, .rfl⟩) ?_
    rw [record, update_self]
    exact keeps_acquire hrest hm
  | release l =>
    refine G.move rfl rfl (fun t ht => update_of_ne ht ..) (fun _ _ _ => ⟨.rfl, .rfl⟩) ?_
    rw [record, update_self]
    exact keeps_release hrest hm
  | intr b =>
    have hnil : (r (s.thread h)).held = [] := hm
    refine G.move rfl rfl (fun t ht => update_of_ne ht ..) (fun _ _ _ => ⟨.rfl, .rfl⟩) ?_
    rw [record, update_self]
    refine keeps_setcpu ⟨hrest.tidy.off, hrest.tidy.signed⟩ ?_
    exact ⟨hrest.taken, hrest.signed, hrest.nodup, hrest.noff, fun hne => absurd hnil hne, fun _ => rfl, hrest.proc⟩
  | sched st =>
    obtain ⟨hst, p, hon, hheld⟩ := hm
    refine G.move rfl rfl (fun _ _ => rfl) (fun _ _ _ => ⟨.rfl, .rfl⟩) ?_
    change Keeps proto (Lock.sched st) (s.acct r h) fun _ => Rest (r (s.thread h)).held
    have hheld : (r (s.thread h)).held = [.proc p] := hheld
    rw [hheld] at hrest ⊢
    exact keeps_sched hrest hon hst
  | run p =>
    obtain ⟨hon, hheld⟩ := hm
    refine G.move rfl rfl (fun _ _ => rfl) (fun _ _ _ => ⟨.rfl, .rfl⟩) ?_
    change Keeps proto (runProc p) (s.acct r h) fun _ => Rest (r (s.thread h)).held
    have hheld : (r (s.thread h)).held = [.proc p] := hheld
    rw [hheld] at hrest ⊢
    exact keeps_runProc hrest hon

end

theorem Good.step (G : Good s r) {e : Ev N} (hm : Matched ⟨s, r⟩ e) (hs : s.step e = some s') : Good s' (record s e s' r) := by
  cases e with
  | step h => exact G.exec hs
  | call h c =>
    simp only [Sys.step] at hs
    split at hs
    case isTrue hi =>
      cases hs
      exact G.call hi hm
    case isFalse => cases hs

structure Consistent (s : Sys N) (r : Thread N → Ledger) (h : Fin N) : Prop where
  nodup : (r (s.thread h)).held.Nodup
  holding : ∀ l, l ∈ (r (s.thread h)).held ↔ (s.lock l).locked = some h ∧ (s.lock l).cpu = some h
  noff : (s.hart h).cpu.noff = (r (s.thread h)).held.length
  restored : (r (s.thread h)).held = [] → (r (s.thread h)).outside = some (s.hart h).cpu.intr

end

/-- Hart `h` makes a call and the `n` accesses after it. -/
def Ev.calls {N : Nat} (h : Fin N) (c : Call) (n : Nat) : List (Ev N) := .call h c :: List.replicate n (.step h)

def Ev.dispatch {N : Nat} (h : Fin N) : List (Ev N) :=
  Ev.calls h (.acquire .sched) 8 ++ Ev.calls h (.acquire (.proc 3)) 7 ++ Ev.calls h (.release .sched) 8 ++ Ev.calls h (.run 3) 2

def moved : List (Ev 2) :=
  Ev.dispatch hart₀ ++ Ev.calls hart₀ (.release (.proc 3)) 9 ++ Ev.calls hart₀ (.intr false) 1 ++ Ev.calls hart₀ (.acquire (.other 0)) 8 ++
    Ev.calls hart₀ (.acquire (.proc 3)) 7 ++ Ev.calls hart₀ (.release (.other 0)) 8 ++ Ev.calls hart₀ (.sched .sleeping) 16 ++
    Ev.calls hart₀ (.release (.proc 3)) 8 ++ Ev.dispatch (Fin.last 1) ++ .step (Fin.last 1) :: Ev.calls (Fin.last 1) (.release (.proc 3)) 8

end Xv6.Lock
