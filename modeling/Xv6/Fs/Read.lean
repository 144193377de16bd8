import Xv6.Dev.Console
import Xv6.Fs.Open
import Xv6.Fs.UserCopy

/-!
# `read` (`kernel/sysfile.c`, `kernel/file.c`)

`sys_read` takes a signed count. The pipe and the console treat one that is not positive as 0; `readi` takes it as unsigned, and the
test there for a wraparound depends on the offset. The model keeps what is stored in user memory, also by a copy that fails in the
middle.

A call on a pipe or on the console may sleep, and what it finds there then is what others have made of it. So it is given by what it finds
at its start and after each `sleep`.
-/

namespace Xv6.Fs

open Prog List Option UInt32 Nat

/-! ## User memory -/

/-- The pages that are mapped with `PTE_V`, `PTE_U` and `PTE_W`, by page number. -/
abbrev Pages := Nat → Bool

def Writable (u : Pages) (va : Nat) : Prop := PGROUNDDOWN va < MAXVA ∧ u (PGROUNDDOWN va / PGSIZE) = true

instance (u : Pages) (va : Nat) : Decidable (Writable u va) := inferInstanceAs (Decidable (_ ∧ _))

def storesAt : Nat → List UInt8 → List (Nat × UInt8)
  | _, [] => []
  | va, b :: bs => (va, b) :: storesAt (va + 1) bs

def storesFrom (u : Pages) : Nat → Nat → List UInt8 → List (Nat × UInt8) × Bool
  | 0, _, src => ([], src.isEmpty)
  | fuel + 1, dstva, src =>
    if src = [] then ([], true)
    else if Writable u dstva then
      let n := min (PGSIZE - (dstva - PGROUNDDOWN dstva)) src.length
      let r := storesFrom u fuel (PGROUNDDOWN dstva + PGSIZE) (src.drop n)
      (storesAt dstva (src.take n) ++ r.1, r.2)
    else ([], false)

def copyoutTo (u : Pages) (dstva : Nat) (src : List UInt8) : List (Nat × UInt8) × Bool := storesFrom u src.length dstva src

/-- How many of `n` bytes can be stored one by one from `va` on. -/
def room (u : Pages) : Nat → Nat → Nat
  | 0, _ => 0
  | n + 1, va => if Writable u va then room u n (va + 1) + 1 else 0

/-! ## The call -/

/-- The loop of `readi` (`fs.c:478`) with what it stores. -/
def readLoopTo (sb : Super) (ip : Nat) (u : Pages) (dst n : Nat) :
    Nat → Nat → Nat → List (Nat × UInt8) → M (Option Nat × List (Nat × UInt8))
  | 0, tot, _, stored => return (some tot, stored)
  | fuel + 1, tot, off, stored => do
    if tot < n then
      let addr ← bmap sb ip (off / BSIZE)
      if addr = 0 then return (some tot, stored)
      let x ← bread addr
      let m := min (n - tot) (BSIZE - off % BSIZE)
      let c := copyoutTo u ((dst + tot) % 2 ^ 64) (bytesAt x (off % BSIZE) m)
      brelse addr
      if c.2 then readLoopTo sb ip u dst n fuel (tot + m) (off + m) (stored ++ c.1)
      else return (none, stored ++ c.1)
    else
      return (some tot, stored)

/-- `fs.c:467`, to user memory. -/
def readiTo (sb : Super) (ip : Nat) (u : Pages) (dst : Nat) (off n : UInt32) : M (Option Nat × List (Nat × UInt8)) := do
  let size := (← iat ip).d.size
  if off > size ∨ off + n < off then return (some 0, [])
  let n := if off + n > size then size - off else n
  readLoopTo sb ip u dst n.toNat n.toNat 0 off.toNat []

def pipereadCall (n cap : Nat) : List (Bool × Ipc.Pipe) → List UInt8 × Option Int
  | [] => ([], none)
  | (killed, s) :: found =>
    let t := Ipc.readStretch killed n cap s
    match t.ctl with
    | .ret v => (t.bytes, some v)
    | .sleep => pipereadCall n cap found

/-- A call of `consoleread` with `n` of `target` bytes to go. -/
def consolereadCall (target cap : Nat) : Nat → List (Bool × Console.Cons) → List UInt8 × Option Int
  | _, [] => ([], none)
  | n, (killed, s) :: found =>
    let t := Console.readLoop killed target cap n s
    match t.ctl with
    | .ret v => (t.out, some v)
    | .sleep n' =>
      let r := consolereadCall target cap n' found
      (t.out ++ r.1, r.2)

/-- What a call finds in a pipe or in the console. -/
structure Seen where
  pipe : List (Bool × Ipc.Pipe)
  cons : List (Bool × Console.Cons)

/-- The answer, what has been stored, and the offset of the file after the call. -/
structure ReadRes where
  ret : Option Int
  stored : List (Nat × UInt8)
  off : UInt32

def inodeRes (off : UInt32) : Option Nat × List (Nat × UInt8) → ReadRes
  | (some tot, stored) => ⟨some tot, stored, off + ofNat tot⟩
  | (none, stored) => ⟨some (-1), stored, off⟩

def CONSOLE : Int := 1

/-- `file.c:107`. Of the devices only the console has a `read` (`console.c:192`). -/
def fileread (sb : Super) (u : Pages) (found : Seen) (f : OpenFile) (addr : Nat) (n : Int32) : M ReadRes := do
  let off := ofNat f.off
  let len := n.toInt.toNat
  if f.readable = false then return ⟨some (-1), [], off⟩
  match f.type with
  | .pipe =>
    let r := pipereadCall len (room u len addr) found.pipe
    return ⟨r.2, storesAt addr r.1, off⟩
  | .device =>
    if short f.major < 0 ∨ short f.major ≥ NDEV ∨ short f.major ≠ CONSOLE then return ⟨some (-1), [], off⟩
    let r := consolereadCall len (room u len addr) len found.cons
    return ⟨r.2, storesAt addr r.1, off⟩
  | .inode =>
    ilock sb f.ip
    let r ← readiTo sb f.ip u addr off n.toUInt32
    iunlock f.ip
    return inodeRes off r
  | .none => .panic "fileread"

/-- `sysfile.c:69`, with the file of the descriptor if there is one. -/
def sysRead (sb : Super) (u : Pages) (found : Seen) (f : Option OpenFile) (p : Nat) (n : Int32) : M ReadRes :=
  match f with
  | none => return ⟨some (-1), [], 0⟩
  | some f => fileread sb u found f p n

/-! ## What is stored -/

@[simp] theorem length_storesAt (va : Nat) (bs : List UInt8) : (storesAt va bs).length = bs.length := by
  induction bs generalizing va with
  | nil => rfl
  | cons b bs ih => rw [storesAt, length_cons, ih, length_cons]

theorem storesAt_append (va : Nat) (xs ys : List UInt8) : storesAt va (xs ++ ys) = storesAt va xs ++ storesAt (va + xs.length) ys := by
  induction xs generalizing va with
  | nil => rfl
  | cons b xs ih =>
    rw [cons_append, storesAt, storesAt, ih, cons_append, length_cons, add_assoc, add_comm 1]

theorem mem_storesAt {va : Nat} {bs : List UInt8} {a : Nat × UInt8} (h : a ∈ storesAt va bs) : va ≤ a.1 ∧ a.1 < va + bs.length := by
  induction bs generalizing va with
  | nil => cases h
  | cons b bs ih =>
    rw [length_cons]
    rcases mem_cons.1 h with rfl | h
    · exact ⟨le_refl _, by omega⟩
    · have := ih h
      omega

/-- A copy stores the first `k` bytes, all of them if it succeeds. -/
structure Stored (u : Pages) (va : Nat) (src : List UInt8) (r : List (Nat × UInt8) × Bool) (k : Nat) : Prop where
  le : k ≤ src.length
  stores : r.1 = storesAt va (src.take k)
  ok : r.2 = true → k = src.length
  bound : 0 < k → va + k ≤ MAXVA
  first : src ≠ [] → (0 < k ↔ Writable u va)

theorem storesFrom_stored (u : Pages) (fuel va : Nat) {src : List UInt8} (hf : src.length ≤ fuel) :
    ∃ k, Stored u va src (storesFrom u fuel va src) k := by
  induction fuel generalizing va src with
  | zero =>
    cases length_eq_zero_iff.1 (le_zero.1 hf)
    exact ⟨0, zero_le _, rfl, fun _ => rfl, fun h => absurd h (by decide), fun h => absurd rfl h⟩
  | succ fuel ih =>
    rw [storesFrom]
    by_cases hs : src = []
    · subst hs
      exact ⟨0, zero_le _, rfl, fun _ => rfl, fun h => absurd h (by decide), fun h => absurd rfl h⟩
    rw [if_neg hs]
    by_cases hw : Writable u va
    · have hround := roundDown_le va
      have hpos := length_pos_iff.2 hs
      generalize hn : min (PGSIZE - (va - PGROUNDDOWN va)) src.length = n
      have hf' : (src.drop n).length ≤ fuel := by
        rw [length_drop]
        omega
      obtain ⟨k, h⟩ := ih (PGROUNDDOWN va + PGSIZE) hf'
      have hle := h.le
      rw [length_drop] at hle
      -- The next page begins where this part ends, if there is anything left.
      have hnext : src.drop n ≠ [] → PGROUNDDOWN va + PGSIZE = va + n := fun hne => by
        have := length_pos_iff.2 hne
        rw [length_drop] at this
        omega
      have hbound : va + n ≤ MAXVA := by
        have := hw.1
        unfold PGROUNDDOWN PGSIZE MAXVA at *
        omega
      rw [if_pos hw]
      refine ⟨n + k, by omega, ?_, fun hok => ?_, fun _ => ?_, fun _ => iff_of_true (by omega) hw⟩
      · have hlen : (src.take n).length = n := by rw [length_take]; omega
        change storesAt va (src.take n) ++ (storesFrom u fuel _ _).1 = _
        rw [h.stores, take_add, storesAt_append, hlen]
        by_cases hne : src.drop n = []
        · rw [hne, take_nil]
          rfl
        · rw [hnext hne]
      · have := h.ok hok
        rw [length_drop] at this
        omega
      · rcases Nat.eq_zero_or_pos k with rfl | hk
        · exact hbound
        have hne : src.drop n ≠ [] := fun he => by
          rw [← length_eq_zero_iff, length_drop] at he
          omega
        have := h.bound hk
        have := hnext hne
        omega
    · rw [if_neg hw]
      exact ⟨0, zero_le _, rfl, fun h => (by cases h), fun h => absurd h (by decide), fun _ => iff_of_false (by decide) hw⟩

theorem copyoutTo_stored (u : Pages) (va : Nat) (src : List UInt8) : ∃ k, Stored u va src (copyoutTo u va src) k :=
  storesFrom_stored u src.length va (le_refl _)

/-! ## `readi` -/

structure LoopDone (u : Pages) (dst n tot : Nat) (bytes : Nat → UInt8) (stored : List (Nat × UInt8)) (r : Option Nat × List (Nat × UInt8))
    (k : Nat) : Prop where
  le : k ≤ n - tot
  stores : r.2 = stored ++ storesAt (dst + tot) ((range k).map bytes)
  res : r.1 = some n ∧ k = n - tot ∨ r.1 = none
  first : tot < n → (0 < k ↔ Writable u (dst + tot))

theorem readLoopTo_done {sb : Super} {s : FsState} {ip : Nat} {X : String → Prop} {u : Pages} {dst n fuel tot off : Nat}
    {stored : List (Nat × UInt8)} (h : Consistent sb (cur sb s ip)) (ht : (s.itable ip).d.type ≠ 0)
    (hsize : off + (n - tot) ≤ (s.itable ip).d.size.toNat) (htot : tot ≤ n) (hfuel : n - tot ≤ fuel) (hdst : dst + tot < 2 ^ 64) :
    Sat seq (readLoopTo sb ip u dst n fuel tot off stored) s
      (fun r s' => s' = s ∧ ∃ k, LoopDone u dst n tot (fun j => s.byte sb ip (off + j)) stored r k) X := by
  induction fuel generalizing tot off stored with
  | zero =>
    obtain rfl : n = tot := by omega
    exact ⟨rfl, 0, zero_le _, by simp [storesAt], .inl ⟨rfl, by omega⟩, fun h => absurd h (lt_irrefl _)⟩
  | succ fuel ih =>
    unfold readLoopTo
    by_cases hlt : tot < n
    · simp only [hlt, if_true, sat_bind]
      have hmap := h.mapped_of_lt (cur_alloc ht) (o := off) (by rw [cur_ino_self]; omega)
      refine (bmap_spec h ht fun hge => absurd hmap.1 (by omega)).mono ?_
      intro r s1 b
      obtain rfl := b.found hmap.2
      obtain rfl := b.addr
      have hD := data_of_slot h ht (fileSlot_lt hmap.1) hmap.2
      have hne : s1.slot sb ip (fileSlot (off / BSIZE)) ≠ 0 := hmap.2
      simp only [hne, if_false, sat_bind, sat_bread, sat_brelse]
      have hmod : off % BSIZE < BSIZE := mod_lt _ (by decide)
      generalize hm : min (n - tot) (BSIZE - off % BSIZE) = m
      rw [bytesAt_slot hD (by omega), mod_eq_of_lt hdst]
      obtain ⟨k, hk⟩ := copyoutTo_stored u (dst + tot) ((range m).map fun j => s1.byte sb ip (off + j))
      generalize copyoutTo u (dst + tot) ((range m).map fun j => s1.byte sb ip (off + j)) = c at hk ⊢
      have hle := hk.le
      have hfirst := hk.first (by simp; omega)
      rw [length_map, length_range] at hle
      by_cases hc : c.2 = true
      · have hall := hk.ok hc
        rw [length_map, length_range] at hall
        have hbound := hk.bound (by omega)
        simp only [hc, if_true]
        refine (ih (by omega) (by omega) (by omega) (by unfold MAXVA at hbound; omega)).mono ?_
        rintro r s' ⟨rfl, k', hk'⟩
        have hle' := hk'.le
        refine ⟨rfl, m + k', by omega, ?_, ?_, fun _ => iff_of_true (by omega) (hfirst.1 (by omega))⟩
        · rw [hk'.stores, hk.stores, hall, take_of_length_le (by simp), append_assoc, range_add, map_append,
            storesAt_append, List.length_map, List.length_range, List.map_map]
          simp only [Function.comp_def, add_assoc]
        · exact hk'.res.imp_left fun hres => ⟨hres.1, by omega⟩
      · simp only [hc, Bool.false_eq_true, if_false, sat_pure]
        refine ⟨trivial, k, by omega, ?_, .inr rfl, fun _ => hfirst⟩
        rw [hk.stores, ← map_take, take_range, min_eq_left hle]
    · simp only [hlt, if_false, sat_pure]
      obtain rfl : n = tot := by omega
      exact ⟨trivial, 0, zero_le _, by simp [storesAt], .inl ⟨rfl, by omega⟩, fun h => absurd h (lt_irrefl _)⟩

theorem readiTo_done {sb : Super} {s : FsState} {ip : Nat} {X : String → Prop} {u : Pages} {dst : Nat} {off n : UInt32}
    (h : Consistent sb (cur sb s ip)) (ht : (s.itable ip).d.type ≠ 0) (hdst : dst < 2 ^ 64) :
    Sat seq (readiTo sb ip u dst off n) s
      (fun r s' => s' = s ∧ ∃ k, LoopDone u dst (readLen (s.itable ip).d.size off n) 0 (fun j => s.byte sb ip (off.toNat + j)) [] r k) X := by
  simp only [readiTo, sat_bind, sat_iat]
  by_cases hbad : off > (s.itable ip).d.size ∨ off + n < off
  · simp only [hbad, if_true, sat_pure]
    rw [readLen, if_pos hbad]
    exact ⟨trivial, 0, le_refl _, rfl, .inl ⟨rfl, rfl⟩, fun h => absurd h (lt_irrefl _)⟩
  · simp only [hbad, if_false]
    have hle := readLen_le hbad
    rw [toNat_clamped hbad]
    exact readLoopTo_done h ht (by omega) (zero_le _) (by omega) (by omega)

section
variable (size off : UInt32) (n : Int32)

theorem toNat_toUInt32 : (n.toUInt32.toNat : Int) = if 0 ≤ n.toInt then n.toInt else n.toInt + 4294967296 := by
  have hn : n.toInt = n.toBitVec.toInt := rfl
  have hu : n.toUInt32.toNat = n.toBitVec.toNat := rfl
  rw [hn, hu, BitVec.toInt_eq_toNat_cond]
  split <;> split <;> omega

theorem readLen_of_nonneg (h : 0 ≤ n.toInt) : (readLen size off n.toUInt32 : Int) ≤ n.toInt := by
  have hn := toNat_toUInt32 n
  rw [readLen]
  split <;> omega

theorem readLen_of_neg (h : n.toInt < 0) : 0 < readLen size off n.toUInt32 ↔ (off.toNat : Int) + n.toInt < 0 ∧ off.toNat < size.toNat := by
  have hn := toNat_toUInt32 n
  have hlo : -2147483648 ≤ n.toInt := n.toBitVec.le_toInt
  rw [readLen]
  split
  case isTrue hbad =>
    rw [gt_iff_lt, UInt32.lt_iff_toNat_lt, UInt32.lt_iff_toNat_lt, UInt32.toNat_add] at hbad
    exact iff_of_false (lt_irrefl 0) (by omega)
  case isFalse hbad =>
    rw [gt_iff_lt, UInt32.lt_iff_toNat_lt, UInt32.lt_iff_toNat_lt, UInt32.toNat_add] at hbad
    omega

end

/-! ## Pipes and the console -/

theorem length_copyLoop (cap left i : Nat) (s : Ipc.Pipe) : (Ipc.copyLoop cap left i s).bytes.length ≤ left := by
  induction left generalizing i s with
  | zero => exact le_refl 0
  | succ left ih =>
    unfold Ipc.copyLoop
    split
    · exact zero_le _
    · split
      · exact succ_le_succ (ih _ _)
      · exact zero_le _

theorem pipereadCall_bounded (n cap : Nat) (seen : List (Bool × Ipc.Pipe)) :
    (pipereadCall n cap seen).1.length ≤ n ∧
      ∀ v, (pipereadCall n cap seen).2 = some v → v = -1 ∨ v = (pipereadCall n cap seen).1.length := by
  induction seen with
  | nil => exact ⟨zero_le n, fun v h => by cases h⟩
  | cons d seen ih =>
    obtain ⟨killed, s⟩ := d
    obtain ⟨-, -, -, -, hret, -⟩ := Ipc.readStretch_spec s killed n cap
    have hlen : (Ipc.readStretch killed n cap s).bytes.length ≤ n := by
      unfold Ipc.readStretch
      split
      · split <;> exact zero_le n
      · exact length_copyLoop cap n 0 s
    rw [pipereadCall]
    split
    case h_1 v hv =>
      refine ⟨hlen, fun v' h => ?_⟩
      cases h
      exact (hret v hv).symm.imp_left And.left
    case h_2 => exact ih

theorem consoleread_bounded (killed : Bool) (target cap : Nat) {n : Nat} (s : Console.Cons) (hn : n ≤ target) :
    (Console.readLoop killed target cap n s).out.length ≤ n ∧
      (∀ v, (Console.readLoop killed target cap n s).ctl = .ret v →
        v = -1 ∨ v = (target - n + (Console.readLoop killed target cap n s).out.length : Nat)) ∧
      ∀ n', (Console.readLoop killed target cap n s).ctl = .sleep n' → n' + (Console.readLoop killed target cap n s).out.length = n := by
  induction n generalizing s with
  | zero => exact ⟨le_refl 0, fun v h => .inr (by cases h; rfl), fun n' h => by cases h⟩
  | succ n ih =>
    unfold Console.readLoop
    dsimp only
    split
    · split
      · exact ⟨zero_le _, fun v h => .inl (by cases h; rfl), fun n' h => by cases h⟩
      · exact ⟨zero_le _, fun v h => (by cases h), fun n' h => by cases h; rfl⟩
    · split
      · split <;> exact ⟨zero_le _, fun v h => .inr (by cases h; rfl), fun n' h => by cases h⟩
      split
      · split
        · exact ⟨by simp, fun v h => .inr (by cases h; simp; omega), fun n' h => by cases h⟩
        obtain ⟨hlen, hret, hsleep⟩ := ih { s with r := s.r + 1 } (by omega)
        refine ⟨succ_le_succ hlen, fun v h => (hret v h).imp_right fun hv => ?_, fun n' h => ?_⟩
        · rw [hv, length_cons]
          congr 1
          omega
        · have := hsleep n' h
          rw [length_cons]
          omega
      · exact ⟨zero_le _, fun v h => .inr (by cases h; rfl), fun n' h => by cases h⟩

theorem consolereadCall_bounded (target cap : Nat) {n : Nat} (seen : List (Bool × Console.Cons)) (hn : n ≤ target) :
    (consolereadCall target cap n seen).1.length ≤ n ∧
      ∀ v, (consolereadCall target cap n seen).2 = some v →
        v = -1 ∨ v = (target - n + (consolereadCall target cap n seen).1.length : Nat) := by
  induction seen generalizing n with
  | nil => exact ⟨zero_le n, fun v h => by cases h⟩
  | cons d seen ih =>
    obtain ⟨killed, s⟩ := d
    obtain ⟨hlen, hret, hsleep⟩ := consoleread_bounded killed target cap s hn
    rw [consolereadCall]
    split
    case h_1 v hv =>
      refine ⟨hlen, fun v' h => ?_⟩
      cases h
      exact hret v hv
    case h_2 n' hn' =>
      have := hsleep n' hn'
      obtain ⟨hlen', hret'⟩ := ih (n := n') (by omega)
      rw [length_append]
      refine ⟨by omega, fun v h => (hret' v h).imp_right fun hv => ?_⟩
      congr 1
      omega

/-! ## `sys_read` -/

structure Bounded (f : OpenFile) (p : Nat) (n : Int32) (r : ReadRes) : Prop where
  count : (r.stored.length : Int) ≤ max n.toInt 0
  inside : ∀ a ∈ r.stored, p ≤ a.1 ∧ (a.1 : Int) < p + max n.toInt 0
  ret : ∀ v, r.ret = some v → v = -1 ∨ 0 ≤ v ∧ v ≤ max n.toInt 0
  off : f.type = .inode → ∀ v, r.ret = some v → (r.off.toNat : Int) = f.off + if v = -1 then 0 else v

def Overreads (u : Pages) (f : OpenFile) (size p : Nat) (n : Int32) : Prop :=
  f.readable = true ∧ f.type = .inode ∧ (f.off : Int) + n.toInt < 0 ∧ f.off < size ∧ Writable u p

section
variable {sb : Super} {s : FsState} {u : Pages} {seen : Seen} {f : OpenFile} {p : Nat} {n : Int32} {X : String → Prop}

theorem bounded_fail (hoff : f.off < 2 ^ 32) : Bounded f p n ⟨some (-1), [], ofNat f.off⟩ where
  count := by simp
  inside a ha := by cases ha
  ret v hv := .inl (some.inj hv).symm
  off _ v hv := by
    rw [← some.inj hv, if_pos rfl, toNat_ofNat_of_lt' hoff]
    simp

theorem bounded_bytes {bytes : List UInt8} {ret : Option Int} {off : UInt32} (hf : f.type ≠ .inode) (hlen : bytes.length ≤ n.toInt.toNat)
    (hret : ∀ v, ret = some v → v = -1 ∨ v = bytes.length) : Bounded f p n ⟨ret, storesAt p bytes, off⟩ where
  count := by
    rw [length_storesAt]
    omega
  inside a ha := by
    have := mem_storesAt ha
    omega
  ret v hv := (hret v hv).imp_right fun h => by omega
  off h := absurd h hf

theorem off_add_readLen (size : UInt32) {off : Nat} (hoff : off < 2 ^ 32) :
    (ofNat off + ofNat (readLen size (ofNat off) n.toUInt32)).toNat =
      off + readLen size (UInt32.ofNat off) n.toUInt32 := by
  have hsize := size.toNat_lt
  have hof : (ofNat off).toNat = off := toNat_ofNat_of_lt' hoff
  have hsum : off + readLen size (ofNat off) n.toUInt32 < 2 ^ 32 := by
    by_cases hbad : ofNat off > size ∨ ofNat off + n.toUInt32 < ofNat off
    · rw [readLen, if_pos hbad]
      exact hoff
    · have := readLen_le hbad
      omega
  rw [UInt32.toNat_add, hof, UInt32.toNat_ofNat_of_lt' (lt_of_le_of_lt (le_add_left _ _) hsum), mod_eq_of_lt hsum]

section
variable {size : UInt32} {bytes : Nat → UInt8} {r : Option Nat × List (Nat × UInt8)} {k : Nat} (hoff : f.off < 2 ^ 32)
  (h : LoopDone u p (readLen size (ofNat f.off) n.toUInt32) 0 bytes [] r k)
include hoff h

theorem bounded_inode (hk : (k : Int) ≤ max n.toInt 0)
    (hlen : r.1 = none ∨ (readLen size (ofNat f.off) n.toUInt32 : Int) ≤ max n.toInt 0) :
    Bounded f p n (inodeRes (ofNat f.off) r) := by
  obtain ⟨ret, stored⟩ := r
  obtain rfl : stored = storesAt p ((range k).map bytes) := h.stores
  have hcount : ((storesAt p ((range k).map bytes)).length : Int) ≤ max n.toInt 0 := by simpa using hk
  have hinside : ∀ a ∈ storesAt p ((range k).map bytes), p ≤ a.1 ∧ (a.1 : Int) < p + max n.toInt 0 := fun a ha => by
    have := mem_storesAt ha
    rw [length_map, length_range] at this
    omega
  have hof : (ofNat f.off).toNat = f.off := toNat_ofNat_of_lt' hoff
  rcases h.res with ⟨hret, -⟩ | hret
  · cases hret
    refine ⟨hcount, hinside, fun v hv => .inr ?_, fun _ v hv => ?_⟩
    · rw [← some.inj hv]
      exact ⟨Int.natCast_nonneg _, hlen.resolve_left fun h => by cases h⟩
    · rw [← some.inj hv, if_neg (by omega)]
      exact_mod_cast off_add_readLen size hoff
  · cases hret
    refine ⟨hcount, hinside, fun v hv => .inl (some.inj hv).symm, fun _ v hv => ?_⟩
    rw [← some.inj hv, if_pos rfl, Int.add_zero]
    exact congrArg Nat.cast hof

theorem bounded_inode_iff (hread : f.readable = true) (hf : f.type = .inode) :
    Bounded f p n (inodeRes (ofNat f.off) r) ↔ ¬Overreads u f size.toNat p n := by
  have hof : (ofNat f.off).toNat = f.off := toNat_ofNat_of_lt' hoff
  have hle := h.le
  have hfirst := h.first
  rcases Int.lt_or_le n.toInt 0 with hneg | hpos
  · have hlen := readLen_of_neg size (ofNat f.off) n hneg
    rw [hof] at hlen
    rcases Nat.eq_zero_or_pos (readLen size (ofNat f.off) n.toUInt32) with hz | hlt
    · refine iff_of_true (bounded_inode hoff h (by omega) (.inr (by omega))) fun hover => ?_
      have := hlen.2 ⟨hover.2.2.1, hover.2.2.2.1⟩
      omega
    · by_cases hw : Writable u p
      · refine iff_of_false (fun hb => ?_) (not_not.2 ⟨hread, hf, (hlen.1 hlt).1, (hlen.1 hlt).2, hw⟩)
        have hk := (hfirst hlt).2 hw
        have hcount := hb.count
        have hstored : (inodeRes (ofNat f.off) r).stored = r.2 := by
          obtain ⟨ret, stored⟩ := r
          cases ret <;> rfl
        rw [hstored, h.stores] at hcount
        simp only [nil_append, length_storesAt, length_map, length_range] at hcount
        omega
      · have hk : k = 0 := Nat.eq_zero_of_not_pos fun hk => hw ((hfirst hlt).1 hk)
        refine iff_of_true (bounded_inode hoff h (by omega) (.inl ?_)) fun hover => hw hover.2.2.2.2
        exact h.res.resolve_left fun hres => by omega
  · have hlen := readLen_of_nonneg size (ofNat f.off) n hpos
    refine iff_of_true (bounded_inode hoff h (by omega) (.inr (by omega))) fun hover => ?_
    have := hover.2.2.1
    omega

end

theorem sysRead_bounded_iff {i : Nat} {x : File} (hg : Good sb s) (hkind : f.type ≠ .none)
    (hino : f.type = .inode → Ptr s f.ip i ∧ (files sb s).file i = some x) (hoff : f.off < 2 ^ 32) (hp : p < 2 ^ 64) :
    ∃ r s', (sysRead sb u seen (some f) p n).run seq s = .ok (r, s') ∧ (Bounded f p n r ↔ ¬Overreads u f x.bytes.length p n) := by
  suffices hsat : Sat seq (sysRead sb u seen (some f) p n) s (fun r _ => Bounded f p n r ↔ ¬Overreads u f x.bytes.length p n) fun _ => False
    from hsat.exists_ok
  rw [sysRead, fileread]
  by_cases hread : f.readable = false
  · rw [if_pos hread]
    exact iff_of_true (bounded_fail hoff) fun hover => absurd (hread.symm.trans hover.1) (by decide)
  rw [if_neg hread]
  have hother : f.type ≠ .inode → ¬Overreads u f x.bytes.length p n := fun hne hover => hne hover.2.1
  split
  case h_1 hf =>
    obtain ⟨hlen, hret⟩ := pipereadCall_bounded n.toInt.toNat (room u n.toInt.toNat p) seen.pipe
    have hne : f.type ≠ .inode := by rw [hf]; decide
    exact iff_of_true (bounded_bytes hne hlen hret) (hother hne)
  case h_2 hf =>
    have hne : f.type ≠ .inode := by rw [hf]; decide
    split
    · exact iff_of_true (bounded_fail hoff) (hother hne)
    · obtain ⟨hlen, hret⟩ := consolereadCall_bounded n.toInt.toNat (room u n.toInt.toNat p) seen.cons (le_refl _)
      exact iff_of_true (bounded_bytes hne hlen (by simpa using hret)) (hother hne)
  case h_3 hf =>
    obtain ⟨hptr, hx⟩ := hino hf
    have hsome : (files sb s).file i ≠ none := by
      rw [hx]
      exact some_ne_none x
    simp only [sat_bind]
    refine (ilock_next hg hptr (hg.lt_of_file hsome) fun hnone => absurd hnone hsome).mono ?_
    rintro _ s1 ⟨hn, hl, -⟩
    have hptr1 : Ptr s1 f.ip i := hn.ptr _ _ hptr (hg.refs_pos hptr)
    refine (readiTo_done (hn.good.held hl).cons (hn.good.alloc f.ip hl) hp).mono ?_
    rintro r s2 ⟨rfl, k, hk⟩
    rw [sat_iunlock hptr1]
    have hsize : (s2.itable f.ip).d.size.toNat = x.bytes.length := by
      have hfile := hn.good.file_eq hl hptr1
      rw [hn.files, hx, some.injEq] at hfile
      rw [hfile, hn.good.copy f.ip hl, hptr1.2]
      exact (length_content _ _).symm
    rw [sat_pure, ← hsize]
    exact bounded_inode_iff hoff hk (by simpa using hread) hf
  case h_4 hf => exact absurd hf hkind

end

/-- A descriptor of the root directory, at offset 0. -/
def rootFile : OpenFile := { type := .inode, ref := 1, readable := true, ip := 0 }

theorem file_one_smallState : (files mkfsSuper smallState).file 1 = some ((rootInode fileEntry).file ((treeView fileEntry emptyFile 3).content 1)) := by
  rw [smallState, file_treeState (by decide)]
  rfl

theorem sysRead_bounded_iff_root : ∃ r s', (sysRead mkfsSuper (fun _ => true) ⟨[], []⟩ (some rootFile) 4096 16).run seq smallState = .ok (r, s') ∧
    (Bounded rootFile 4096 16 r ↔
      ¬Overreads (fun _ => true) rootFile ((treeView fileEntry emptyFile 3).content 1).length 4096 16) :=
  sysRead_bounded_iff (i := 1) good_smallState (by decide) (fun _ => ⟨⟨by decide, rfl⟩, file_one_smallState⟩) (by decide) (by decide)

theorem read_negative_count : ∃ r s', (sysRead mkfsSuper (fun _ => true) ⟨[], []⟩ (some rootFile) 4096 (-1)).run seq smallState = .ok (r, s') ∧
    r.ret = some 16 ∧ r.stored.length = 16 ∧ ¬Bounded rootFile 4096 (-1) r := by
  have hrun : ((sysRead mkfsSuper (fun _ => true) ⟨[], []⟩ (some rootFile) 4096 (-1)).run seq smallState).toOption.map
      (fun r => (r.1.ret, r.1.stored.length)) = some (some 16, 16) := by decide +kernel
  cases hr : (sysRead mkfsSuper (fun _ => true) ⟨[], []⟩ (some rootFile) 4096 (-1)).run seq smallState with
  | error m =>
    rw [hr] at hrun
    cases hrun
  | ok r =>
    rw [hr] at hrun
    obtain ⟨hret, hlen⟩ := Prod.mk.inj (some.inj hrun)
    refine ⟨r.1, r.2, rfl, hret, hlen, fun hb => ?_⟩
    have := hb.count
    rw [hlen] at this
    exact absurd this (by decide)

end Xv6.Fs
