import Xv6.Harts.Status

/-!
# Structures copied to user space

`sys_get_proc_time`, `sys_getptable` (`sysproc.c`), `filestat` (`file.c`), `wait` (`proc.c`) and `sys_datetime` build a structure on
the kernel stack and copy its whole image to the user. A local structure starts out with what the stack held; a field assignment
stores the bytes of the field, and no assignment touches the padding.
-/

namespace Xv6.Report

open Bytes (fill Assigned le16 le32)
open Sched (Proc ProcState procTime)
open Harts (Space le64)
open Fs (copyout Reaches)

/-! ## The kernel's state -/

/-- `struct inode`, the fields that `stati` reads. -/
structure Inode where
  dev : UInt32
  inum : UInt32
  type : UInt16
  nlink : UInt16
  size : UInt32

/-- `struct file` (`file.h:1`), the fields that `filestat` reads. -/
inductive File where
  | none
  | pipe
  | inode (ip : Nat)
  | device (ip : Nat)

/-- What the calls report. -/
structure Kernel where
  proc : Nat → Proc
  /-- `p->name`, `char[16]`. -/
  name : Nat → Fin 16 → UInt8
  sz : Nat → UInt64
  inode : Nat → Inode
  mtime : Option UInt64

structure Ret where
  mem : Space
  val : Option Int

/-- A call that fails before it copies anything. -/
def fails (m : Space) : Ret := ⟨m, some (-1)⟩

def copies (m : Space) (addr : Nat) (src : List UInt8) (ok : Int) : Ret :=
  let r := copyout m.writable m.pages addr src
  ⟨{ m with pages := r.1 }, some (if r.2 then ok else -1)⟩

/-- The bytes of a local structure before its first assignment. -/
def frame (stack : Nat → UInt8) (size : Nat) : Fin size → UInt8 := fun i => stack i

def int32 (v : Int) : List UInt8 := le32 (v % 4294967296).toNat

def uint64 (v : Int) : List UInt8 := le64 (v % 18446744073709551616).toNat

@[simp] theorem length_int32 (v : Int) : (int32 v).length = 4 := rfl
@[simp] theorem length_uint64 (v : Int) : (uint64 v).length = 8 := rfl
@[simp] theorem length_le64 (v : Nat) : (le64 v).length = 8 := rfl

/-! ## The calls -/

/-- The assignments of `sys_get_proc_time` (`sysproc.c:163-167`). -/
def timeFields (x : Proc) : List (Nat × List UInt8) :=
  [(0, uint64 x.pid), (8, le64 x.startTime.toNat), (16, le64 x.turnaroundTime.toNat), (48, int32 x.priority),
    (24, le64 x.waitTime.toNat)]

/-- `sysproc.c:148`. -/
def sysGetProcTime (n : Nat) (k : Kernel) (m : Space) (pid : Int) (addr : Nat) (stack : Nat → UInt8) : Ret :=
  match (List.range n).find? fun p => (k.proc p).pid = pid ∧ (k.proc p).state ≠ .unused with
  | none => fails m
  | some p => copies m addr (List.ofFn (fill (frame stack 56) (timeFields (k.proc p)))) 0

def safestrcpyFrom : Nat → List UInt8 → List UInt8
  | 0, _ => [0]
  | _ + 1, [] => [0]
  | n + 1, c :: t => if c = 0 then [0, 0] else c :: safestrcpyFrom n t

/-- `string.c:85`. -/
def safestrcpy (t : List UInt8) (n : Nat) : List UInt8 := if n = 0 then [] else safestrcpyFrom (n - 1) t

def stateNum : ProcState → Int
  | .unused => 0
  | .used => 1
  | .sleeping => 2
  | .runnable => 3
  | .running => 4
  | .zombie => 5

/-- `proc.c:742`. -/
def procParentPid (k : Kernel) (p : Nat) : Int := match (k.proc p).parent with | none => 0 | some q => (k.proc q).pid

def infoFields (k : Kernel) (count p : Nat) : List (Nat × List UInt8) :=
  [(40 * count, int32 (k.proc p).pid), (40 * count + 4, int32 (procParentPid k p)), (40 * count + 8, int32 (stateNum (k.proc p).state)),
    (40 * count + 12, safestrcpy (List.ofFn (k.name p)) 16), (40 * count + 32, le64 (k.sz p).toNat)]

/-- The loop of `sys_getptable` over the slots that are in use. -/
def tableFields (k : Kernel) : Nat → List Nat → List (Nat × List UInt8)
  | _, [] => []
  | count, p :: ps => infoFields k count p ++ tableFields k (count + 1) ps

def live (n : Nat) (k : Kernel) : List Nat := (List.range n).filter fun p => (k.proc p).state ≠ .unused

/-- `sysproc.c:106`. -/
def sysGetptable (n : Nat) (k : Kernel) (m : Space) (addr : Nat) (stack : Nat → UInt8) : Ret :=
  let ptable := fill (frame stack (40 * n)) (tableFields k 0 (live n k))
  copies m addr ((List.ofFn ptable).take (40 * (live n k).length)) (live n k).length

/-- `stati` (`fs.c:458`). -/
def statFields (ip : Inode) : List (Nat × List UInt8) :=
  [(0, le32 ip.dev.toNat), (4, le32 ip.inum.toNat), (8, le16 ip.type.toNat), (10, le16 ip.nlink.toNat), (16, le64 ip.size.toNat)]

/-- `file.c:88`. -/
def filestat (k : Kernel) (m : Space) (addr : Nat) (stack : Nat → UInt8) : File → Ret
  | .inode ip | .device ip => copies m addr (List.ofFn (fill (frame stack 24) (statFields (k.inode ip)))) 0
  | .none | .pipe => fails m

/-- `memset` and the assignments of `wait` (`proc.c:406-415`). -/
def waitFields (x : Proc) : List (Nat × List UInt8) :=
  [(0, List.replicate 56 0), (0, uint64 x.pid), (48, int32 x.priority), (8, le64 x.startTime.toNat), (16, le64 x.turnaroundTime.toNat),
    (24, le64 x.waitTime.toNat), (32, le64 x.totalWaitTime.toNat), (40, le64 x.endTime.toNat)]

def wait (n p : Nat) (m : Space) (addr : Nat) (stack : Nat → UInt8) : List Kernel → Ret
  | [] => ⟨m, none⟩
  | k :: ks =>
    match (List.range n).find? fun q => (k.proc q).parent = some p ∧ (k.proc q).state = .zombie with
    | some q =>
      let pt := fill (frame stack 56) (waitFields (k.proc q))
      if addr = 0 then ⟨m, some (k.proc q).pid⟩ else copies m addr (List.ofFn pt) (k.proc q).pid
    | none =>
      if (∀ q < n, (k.proc q).parent ≠ some p) ∨ (k.proc p).killed then fails m else wait n p m addr stack ks

/-- `datetime.c:14`. -/
def isLeap (year : Nat) : Bool := year % 4 = 0 && (year % 100 ≠ 0 || year % 400 = 0)

def daysInYear (year : Nat) : Nat := if isLeap year then 366 else 365

def yearLoop : Nat → Int → Nat → Int × Nat
  | 0, days, year => (days, year)
  | fuel + 1, days, year =>
    if days < daysInYear year then (days, year) else yearLoop fuel (days - daysInYear year) (year + 1)

/-- The loop over the months (`datetime.c:48`). -/
def monthLoop : List Nat → Int → Nat → Int × Nat
  | [], days, month => (days, month)
  | len :: lens, days, month => if days < len then (days, month) else monthLoop lens (days - len) (month + 1)

def daysInMonth (year : Nat) : List Nat := [31, if isLeap year then 29 else 28, 31, 30, 31, 30, 31, 31, 30, 31, 30, 31]

/-- `get_datetime` (`datetime.c:18`); `epoch` is `BOOT_EPOCH`. -/
def dateFields (epoch mtime : UInt64) : List (Nat × List UInt8) :=
  let secs := (mtime / 10000000 + epoch + 7200).toNat
  let days := Sched.wrap32 (secs / 60 / 60 / 24)
  let y := yearLoop days.toNat days 1970
  let d := monthLoop (daysInMonth y.2) y.1 1
  [(20, int32 (secs % 60 : Nat)), (16, int32 (secs / 60 % 60 : Nat)), (12, int32 (secs / 60 / 60 % 24 : Nat)), (0, int32 y.2), (4, int32 d.2),
    (8, int32 (d.1 + 1))]

/-- `sysproc.c:223`. The load of `*mtime` traps where the page is not mapped. -/
def sysDatetime (epoch : UInt64) (k : Kernel) (m : Space) (addr : Nat) (stack : Nat → UInt8) : Ret :=
  match k.mtime with
  | none => ⟨m, none⟩
  | some t => copies m addr (List.ofFn (fill (frame stack 24) (dateFields epoch t))) 0

inductive Call where
  | getProcTime (pid : Int) (addr : Nat)
  | getptable (addr : Nat)
  | fstat (f : File) (addr : Nat)
  /-- `later` are the states that the passes after the first one see. -/
  | wait (addr : Nat) (later : List Kernel)
  | datetime (addr : Nat)

/-- A call by the process in slot `p`, on a kernel stack with the given contents. -/
def call (n p : Nat) (epoch : UInt64) (k : Kernel) (m : Space) (stack : Nat → UInt8) : Call → Ret
  | .getProcTime pid addr => sysGetProcTime n k m pid addr stack
  | .getptable addr => sysGetptable n k m addr stack
  | .fstat f addr => filestat k m addr stack f
  | .wait addr later => wait n p m addr stack (k :: later)
  | .datetime addr => sysDatetime epoch k m addr stack

/-! ## What depends on the stack -/

variable {n p addr : Nat} {epoch : UInt64} {k : Kernel} {m : Space}

def Hidden (f : (Nat → UInt8) → Ret) : Prop := ∀ s s' va, (f s).mem.pages.byte va = (f s').mem.pages.byte va

theorem hidden_const (r : Ret) : Hidden fun _ => r := fun _ _ _ => rfl

open List Nat

theorem hidden_copies_iff {N L : Nat} (hL : L ≤ N) {ws : List (Nat × List UInt8)} {ok : Int} :
    Hidden (fun s => copies m addr ((ofFn (fill (frame s N) ws)).take L) ok) ↔
      ∀ i < L, Reaches m.writable m.pages addr (addr + i) → Assigned ws i := by
  have hlen : ∀ s, ((ofFn (fill (frame s N) ws)).take L).length = L := fun s => by
    rw [length_take, length_ofFn]
    omega
  have hspec := fun s => (Fs.copyout_spec m.writable m.pages addr ((ofFn (fill (frame s N) ws)).take L)).2
  have hbyte : ∀ s i (hi : i < L), ((ofFn (fill (frame s N) ws)).take L)[i]? = some (fill (frame s N) ws ⟨i, by omega⟩) := by
    intro s i hi
    rw [List.getElem?_take, if_pos hi, List.getElem?_ofFn, dif_pos]
  simp only [hlen] at hspec
  constructor
  · intro h i hi hr
    by_contra hno
    -- two stacks that differ in the byte
    have hi' : (addr ≤ addr + i ∧ addr + i < addr + L) ∧ Reaches m.writable m.pages addr (addr + i) := ⟨by omega, hr⟩
    have hsee : ∀ s, (copies m addr ((ofFn (fill (frame s N) ws)).take L) ok).mem.pages.byte (addr + i) = some (s i) := by
      intro s
      refine ((hspec s (addr + i)).1 hi').trans ?_
      rw [Nat.add_sub_cancel_left, hbyte s i hi, Bytes.fill_of_not_assigned hno]
      rfl
    have := h (fun _ => 0) (fun _ => 1) (addr + i)
    rw [hsee, hsee] at this
    cases this
  · intro h s s' va
    by_cases hva : (addr ≤ va ∧ va < addr + L) ∧ Reaches m.writable m.pages addr va
    · have hi : va - addr < L := by omega
      have has : Assigned ws (va - addr) := h _ hi (by rw [Nat.add_sub_cancel' hva.1.1]; exact hva.2)
      refine ((hspec s va).1 hva).trans (.trans ?_ ((hspec s' va).1 hva).symm)
      rw [hbyte s _ hi, hbyte s' _ hi]
      exact congrArg some (Bytes.fill_of_assigned has _ _)
    · exact ((hspec s va).2 hva).trans ((hspec s' va).2 hva).symm

theorem hidden_copies_ofFn_iff {N : Nat} {ws : List (Nat × List UInt8)} {ok : Int} :
    Hidden (fun s => copies m addr (ofFn (fill (frame s N) ws)) ok) ↔
      ∀ i < N, Reaches m.writable m.pages addr (addr + i) → Assigned ws i := by
  have htake : ∀ s, (ofFn (fill (frame s N) ws)).take N = ofFn (fill (frame s N) ws) := fun s =>
    take_of_length_le (le_of_eq length_ofFn)
  simpa only [htake] using @hidden_copies_iff addr m N N (le_refl N) ws ok

def strlen (t : List UInt8) : Nat := (t.takeWhile (· ≠ 0)).length

theorem length_safestrcpyFrom {n : Nat} {t : List UInt8} (h : n ≤ t.length) :
    (safestrcpyFrom n t).length = if strlen t < n then strlen t + 2 else n + 1 := by
  induction n generalizing t with
  | zero => rfl
  | succ n ih =>
    cases t with
    | nil => simp at h
    | cons c t =>
      rw [safestrcpyFrom]
      by_cases hc : c = 0
      · simp [hc, strlen]
      · have hlen : strlen (c :: t) = strlen t + 1 := by simp [strlen, hc]
        rw [if_neg hc, length_cons, ih (by simpa using h), hlen]
        split <;> split <;> omega

theorem length_safestrcpy_name (name : Fin 16 → UInt8) :
    (safestrcpy (ofFn name) 16).length = 2 + min (strlen (ofFn name)) 14 := by
  unfold safestrcpy
  rw [if_neg (by decide), length_safestrcpyFrom (by simp)]
  split <;> omega

def infoHole (k : Kernel) (p : Nat) : Nat := 14 + min (strlen (List.ofFn (k.name p))) 14

theorem assigned_tableFields_ge {k : Kernel} {count i : Nat} {ps : List Nat} (h : Assigned (tableFields k count ps) i) :
    40 * count ≤ i := by
  induction ps generalizing count with
  | nil => obtain ⟨w, hw, -⟩ := h; cases hw
  | cons p ps ih =>
    obtain ⟨w, hw, hi⟩ := h
    rcases mem_append.1 hw with hw | hw
    · simp only [infoFields, mem_cons, not_mem_nil, or_false] at hw
      rcases hw with rfl | rfl | rfl | rfl | rfl <;> simp only at hi <;> omega
    · have := ih ⟨w, hw, hi⟩
      omega

theorem assigned_tableFields_lt {k : Kernel} {q i : Nat} {ps : List Nat} (h : i < infoHole k q) :
    Assigned (tableFields k 0 (q :: ps)) i := by
  have hlen := length_safestrcpy_name (k.name q)
  unfold infoHole at h
  have hin : ∀ w ∈ infoFields k 0 q, w.1 ≤ i → i < w.1 + w.2.length → Assigned (tableFields k 0 (q :: ps)) i :=
    fun w hw h1 h2 => ⟨w, mem_append_left _ hw, h1, h2⟩
  simp only [infoFields, forall_mem_cons, length_int32, hlen] at hin
  obtain ⟨h0, h1, h2, h3, -⟩ := hin
  rcases lt_or_ge i 4 with hi | hi
  · exact h0 (by omega) (by omega)
  · rcases lt_or_ge i 8 with hi' | hi'
    · exact h1 (by omega) (by omega)
    · rcases lt_or_ge i 12 with hi'' | hi''
      · exact h2 (by omega) (by omega)
      · exact h3 (by omega) (by omega)

theorem not_assigned_infoHole {k : Kernel} {q : Nat} {ps : List Nat} :
    ¬Assigned (tableFields k 0 (q :: ps)) (infoHole k q) := by
  have hlen := length_safestrcpy_name (k.name q)
  rintro ⟨w, hw, h1, h2⟩
  rcases mem_append.1 hw with hw | hw
  · simp only [infoFields, mem_cons, not_mem_nil, or_false] at hw
    unfold infoHole at h1 h2
    rcases hw with rfl | rfl | rfl | rfl | rfl <;> simp only [length_int32, length_le64, hlen] at h1 h2 <;> omega
  · have := assigned_tableFields_ge ⟨w, hw, h1, h2⟩
    unfold infoHole at this
    omega

def Safe (n : Nat) (k : Kernel) (m : Space) : Call → Prop
  | .getProcTime pid addr =>
    (∃ p < n, (k.proc p).pid = pid ∧ (k.proc p).state ≠ .unused) → ¬Reaches m.writable m.pages addr (addr + 32)
  | .getptable addr => ∀ q, (live n k).head? = some q → ¬Reaches m.writable m.pages addr (addr + infoHole k q)
  | .fstat (.inode _) addr | .fstat (.device _) addr => ¬Reaches m.writable m.pages addr (addr + 12)
  | .fstat .none _ | .fstat .pipe _ => True
  | .wait _ _ | .datetime _ => True

theorem hidden_getProcTime_iff {pid : Int} :
    Hidden (fun s => sysGetProcTime n k m pid addr s) ↔ Safe n k m (.getProcTime pid addr) := by
  unfold sysGetProcTime
  cases hf : (range n).find? fun p => (k.proc p).pid = pid ∧ (k.proc p).state ≠ .unused with
  | none =>
    simp only [hidden_const, true_iff]
    rintro ⟨p, hp, hpid⟩
    have := find?_eq_none.1 hf p (mem_range.2 hp)
    simp [hpid] at this
  | some p =>
    have hp := mem_range.1 (mem_of_find?_eq_some hf)
    have hpid := find?_some hf
    simp only [decide_eq_true_eq] at hpid
    simp only [hidden_copies_ofFn_iff]
    have hass : ∀ i, Assigned (timeFields (k.proc p)) i ↔ i < 32 ∨ 48 ≤ i ∧ i < 52 := by
      intro i
      simp only [Assigned, timeFields, exists_mem_cons_iff, length_uint64, length_le64, length_int32, not_mem_nil, false_and,
        exists_false, or_false]
      omega
    simp only [hass]
    constructor
    · intro h _ hr
      have := h 32 (by decide) hr
      omega
    · intro h i hi hr
      by_contra hno
      exact h ⟨p, hp, hpid⟩ (hr.mono (by omega))

theorem hidden_getptable_iff : Hidden (fun s => sysGetptable n k m addr s) ↔ Safe n k m (.getptable addr) := by
  have hlen : 40 * (live n k).length ≤ 40 * n := by
    have := length_filter_le (fun p => decide ((k.proc p).state ≠ .unused)) (range n)
    rw [length_range] at this
    exact mul_le_mul_left 40 this
  unfold sysGetptable
  rw [hidden_copies_iff hlen]
  cases hl : live n k with
  | nil => simp [Safe, hl]
  | cons q ps =>
    have hhole : infoHole k q < 40 := by
      unfold infoHole
      omega
    simp only [Safe, hl, head?_cons, Option.some.injEq, forall_eq', length_cons]
    constructor
    · exact fun h hr => not_assigned_infoHole (h _ (by omega) hr)
    · intro h i _ hr
      rcases lt_or_ge i (infoHole k q) with hi | hi
      · exact assigned_tableFields_lt hi
      · exact absurd (hr.mono (by omega)) h

theorem hidden_stat_iff {ip : Inode} {ok : Int} : Hidden (fun s => copies m addr (ofFn (fill (frame s 24) (statFields ip))) ok) ↔
    ¬Reaches m.writable m.pages addr (addr + 12) := by
  have hass : ∀ i, Assigned (statFields ip) i ↔ i < 12 ∨ 16 ≤ i ∧ i < 24 := by
    intro i
    simp only [Assigned, statFields, exists_mem_cons_iff, Bytes.length_le32, Bytes.length_le16, length_le64, not_mem_nil, false_and,
      exists_false, or_false]
    omega
  rw [hidden_copies_ofFn_iff]
  simp only [hass]
  constructor
  · intro h hr
    have := h 12 (by decide) hr
    omega
  · intro h i hi hr
    by_contra hno
    exact h (hr.mono (by omega))

theorem hidden_wait {ks : List Kernel} : Hidden fun s => wait n p m addr s ks := by
  induction ks with
  | nil => exact hidden_const _
  | cons k ks ih =>
    simp only [wait]
    split
    · split
      · exact hidden_const _
      · exact hidden_copies_ofFn_iff.2 fun i hi _ => ⟨_, mem_cons_self, zero_le i, by simpa using hi⟩
    · split
      · exact hidden_const _
      · exact ih

theorem hidden_datetime : Hidden fun s => sysDatetime epoch k m addr s := by
  unfold sysDatetime
  split
  · exact hidden_const _
  · refine hidden_copies_ofFn_iff.2 fun i hi _ => ?_
    simp only [Assigned, dateFields, exists_mem_cons_iff, length_int32, not_mem_nil, false_and, exists_false, or_false]
    omega

theorem stack_hidden_iff (n p : Nat) (epoch : UInt64) (k : Kernel) (m : Space) (c : Call) :
    Hidden (fun stack => call n p epoch k m stack c) ↔ Safe n k m c := by
  cases c with
  | getProcTime pid addr => exact hidden_getProcTime_iff
  | getptable addr => exact hidden_getptable_iff
  | fstat f addr =>
    cases f with
    | none | pipe => exact iff_of_true (hidden_const _) trivial
    | inode ip | device ip => exact hidden_stat_iff
  | wait addr later => exact iff_of_true hidden_wait trivial
  | datetime addr => exact iff_of_true hidden_datetime trivial

/-- One process, named `sh`, with one writable page at 4096. -/
def oneProc : Kernel where
  proc p := if p = 0 then { state := .running, pid := 1 } else {}
  name _ i := [115, 104].getD i 0
  sz _ := 8192
  inode _ := ⟨1, 1, 1, 1, 1024⟩
  mtime := none

theorem stack_not_hidden :
    (¬Hidden fun stack => call 1 0 0 oneProc (Harts.onePage []) stack (.getProcTime 1 4096)) ∧
    (¬Hidden fun stack => call 1 0 0 oneProc (Harts.onePage []) stack (.fstat (.inode 0) 4096)) ∧
    ¬Hidden fun stack => call 1 0 0 oneProc (Harts.onePage []) stack (.getptable 4096) := by
  have hdiff : ∀ x ∈ [(Call.getProcTime 1 4096, 4128), (Call.fstat (.inode 0) 4096, 4108), (Call.getptable 4096, 4112)],
      (call 1 0 0 oneProc (Harts.onePage []) (fun _ => 0) x.1).mem.pages.byte x.2 ≠
        (call 1 0 0 oneProc (Harts.onePage []) (fun _ => 1) x.1).mem.pages.byte x.2 := by
    decide +kernel
  simp only [forall_mem_cons, not_mem_nil, false_implies, implies_true, and_true] at hdiff
  exact ⟨fun h => hdiff.1 (h _ _ _), fun h => hdiff.2.1 (h _ _ _), fun h => hdiff.2.2 (h _ _ _)⟩

end Xv6.Report
