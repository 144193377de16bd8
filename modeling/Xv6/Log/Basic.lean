import Mathlib.Data.List.GetD
import Xv6.Lib.Bytes
import Xv6.Lib.Writes
import Xv6.Param

/-!
# The redo log (`kernel/log.c`) over a block device with a buffer cache

`Log` is `struct log`; the critical sections of `begin_op`, `end_op` and `log_write` are functions on it. `St`
adds what the commit reads and writes: the disk, the contents of the cached buffers, the pins taken by
`log_write`, and the sequence of block writes issued so far, which is what a stopped machine leaves behind.
-/

namespace Xv6.LogLayer

open Bytes

/-! ## `struct log` -/

structure Log where
  start : Nat
  size : Nat
  outstanding : Nat
  committing : Bool
  lh : List Nat
  deriving DecidableEq, Repr

def beginOp (l : Log) : Option Log :=
  if l.committing then none
  else if l.lh.length + (l.outstanding + 1) * MAXOPBLOCKS > LOGSIZE then none
  else some { l with outstanding := l.outstanding + 1 }

/-- The first critical section of `end_op` (`log.c:147`), with `do_commit`. -/
def endOp (l : Log) : Except String (Log × Bool) :=
  if l.committing then .error "log.committing"
  else if l.outstanding - 1 = 0 then .ok ({ l with outstanding := l.outstanding - 1, committing := true }, true)
  else .ok ({ l with outstanding := l.outstanding - 1 }, false)

def logWrite (l : Log) (b : Nat) : Except String (Log × Bool) :=
  if l.lh.length ≥ LOGSIZE ∨ l.lh.length ≥ l.size - 1 then .error "too big a transaction"
  else if l.outstanding < 1 then .error "log_write outside of trans"
  else if b ∈ l.lh then .ok (l, false)
  else .ok ({ l with lh := l.lh ++ [b] }, true)

/-! ## The header block -/

def decodeHead (h : Block) : List Nat :=
  if get32 h 0 < 2 ^ 31 then (List.range (get32 h 0)).map fun i => get32 h (4 + 4 * i) else []

def encodeHead (h : Block) (lh : List Nat) : Block := putWords h 0 (lh.length :: lh)

/-! ## Device and cache -/

structure Dev where
  disk : Nat → Block
  cache : Nat → Option Block
  writes : List (Nat × Block)

/-- What `bread` finds: the cached data, else the block on the disk. -/
def Dev.read (d : Dev) (b : Nat) : Block := (d.cache b).getD (d.disk b)

def Dev.bread (d : Dev) (b : Nat) : Block × Dev :=
  (d.read b, { d with cache := Function.update d.cache b (some (d.read b)) })

/-- `bwrite` of the buffer of block `b` whose data is `x`. -/
def Dev.bwrite (d : Dev) (b : Nat) (x : Block) : Dev where
  disk := Function.update d.disk b x
  cache := Function.update d.cache b (some x)
  writes := d.writes ++ [(b, x)]

/-- The holder of the buffer of `b` sets its data. -/
def Dev.store (d : Dev) (b : Nat) (x : Block) : Dev :=
  { d with cache := Function.update d.cache b (some x) }

/-- `bget` takes the buffer of `b` for another block. -/
def Dev.recycle (d : Dev) (b : Nat) : Dev := { d with cache := Function.update d.cache b none }

/-! ## The commit -/

structure St where
  log : Log
  dev : Dev
  /-- References to the buffer of a block that `log_write` took with `bpin`. -/
  pin : Nat → Nat

def Log.block (l : Log) (i : Nat) : Nat := l.lh.getD i 0

/-- The body of the loop of `write_log` (`log.c:183`). -/
def St.writeLogAt (s : St) (tail : Nat) : St :=
  let (_, d) := s.dev.bread (s.log.start + tail + 1)
  let (x, d) := d.bread (s.log.block tail)
  { s with dev := d.bwrite (s.log.start + tail + 1) x }

def St.writeLog (s : St) : St := (List.range s.log.lh.length).foldl St.writeLogAt s

def St.writeHead (s : St) : St :=
  let (h, d) := s.dev.bread s.log.start
  { s with dev := d.bwrite s.log.start (encodeHead h s.log.lh) }

def St.readHead (s : St) : St :=
  let (h, d) := s.dev.bread s.log.start
  { s with dev := d, log := { s.log with lh := decodeHead h } }

/-- The body of the loop of `install_trans` (`log.c:72`). -/
def St.installAt (recovering : Bool) (s : St) (tail : Nat) : St :=
  let (x, d) := s.dev.bread (s.log.start + tail + 1)
  let (_, d) := d.bread (s.log.block tail)
  { s with
    dev := d.bwrite (s.log.block tail) x
    pin := if recovering then s.pin else Function.update s.pin (s.log.block tail) (s.pin (s.log.block tail) - 1) }

def St.installTrans (recovering : Bool) (s : St) : St :=
  (List.range s.log.lh.length).foldl (St.installAt recovering) s

def St.clearHead (s : St) : St := { s with log := { s.log with lh := [] } }

def St.commit (s : St) : St :=
  if s.log.lh.length > 0 then ((s.writeLog.writeHead).installTrans false).clearHead.writeHead else s

def St.recoverFromLog (s : St) : St := ((s.readHead).installTrans true).clearHead.writeHead

/-- A caller reads block `b`, changes its data to `x` and calls `log_write`. -/
def St.update (s : St) (b : Nat) (x : Block) : Except String St :=
  match logWrite s.log b with
  | .error e => .error e
  | .ok (l, new) => .ok
      { log := l
        dev := (s.dev.bread b).2.store b x
        pin := if new then Function.update s.pin b (s.pin b + 1) else s.pin }

/-! ## Inversion -/

theorem logWrite_ok {l l' : Log} {b : Nat} {new : Bool} (h : logWrite l b = .ok (l', new)) :
    l.lh.length < LOGSIZE ∧ l.lh.length < l.size - 1 ∧ 1 ≤ l.outstanding ∧
      (b ∈ l.lh ∧ new = false ∧ l' = l ∨ b ∉ l.lh ∧ new = true ∧ l' = { l with lh := l.lh ++ [b] }) := by
  unfold logWrite at h
  split at h
  · cases h
  · split at h
    · cases h
    · split at h <;> cases h
      · exact ⟨by omega, by omega, by omega, .inl ⟨‹_›, rfl, rfl⟩⟩
      · exact ⟨by omega, by omega, by omega, .inr ⟨‹_›, rfl, rfl⟩⟩

theorem update_error {s : St} {b : Nat} {x : Block} {m : String} (h : s.update b x = .error m) :
    (s.log.lh.length ≥ LOGSIZE ∨ s.log.lh.length ≥ s.log.size - 1) ∧ m = "too big a transaction" ∨
      s.log.outstanding < 1 ∧ m = "log_write outside of trans" := by
  unfold St.update logWrite at h
  split at h
  · rename_i hw
    split at hw
    · cases hw; cases h
      exact .inl ⟨‹_›, rfl⟩
    · split at hw
      · cases hw; cases h
        exact .inr ⟨‹_›, rfl⟩
      · split at hw <;> cases hw
  · cases h

theorem update_ok {s s' : St} {b : Nat} {x : Block} (h : s.update b x = .ok s') :
    s.log.lh.length < LOGSIZE ∧ s.log.lh.length < s.log.size - 1 ∧ 1 ≤ s.log.outstanding ∧
      (b ∈ s.log.lh ∧ s' = { s with dev := (s.dev.bread b).2.store b x } ∨
        b ∉ s.log.lh ∧ s' =
          { log := { s.log with lh := s.log.lh ++ [b] }
            dev := (s.dev.bread b).2.store b x
            pin := Function.update s.pin b (s.pin b + 1) }) := by
  unfold St.update at h
  split at h
  · cases h
  case h_2 l new hw =>
    obtain ⟨h1, h2, h3, ⟨hb, rfl, rfl⟩ | ⟨hb, rfl, rfl⟩⟩ := logWrite_ok hw
    · exact ⟨h1, h2, h3, .inl ⟨hb, by cases h; rfl⟩⟩
    · exact ⟨h1, h2, h3, .inr ⟨hb, by cases h; rfl⟩⟩

/-! ## Header round trip -/

theorem head_fits {lh : List Nat} (hn : lh.length ≤ LOGSIZE) : 0 + 4 * (lh.length :: lh).length ≤ BSIZE := by
  simp only [LOGSIZE, MAXOPBLOCKS] at hn
  simp only [List.length_cons, BSIZE]
  omega

theorem get32_encodeHead (h : Block) {lh : List Nat} (hn : lh.length ≤ LOGSIZE) :
    get32 (encodeHead h lh) 0 = lh.length := by
  have hk : lh.length < 2 ^ 32 := by simp only [LOGSIZE, MAXOPBLOCKS] at hn; omega
  have e : get32 (putWords h 0 (lh.length :: lh)) 0 = lh.length % 2 ^ 32 :=
    get32_putWords (j := 0) (by simp) (head_fits hn)
  rw [Nat.mod_eq_of_lt hk] at e
  exact e

theorem decodeHead_encodeHead (h : Block) {lh : List Nat} (hn : lh.length ≤ LOGSIZE)
    (hb : ∀ b ∈ lh, b < 2 ^ 32) : decodeHead (encodeHead h lh) = lh := by
  have h31 : lh.length < 2 ^ 31 := by simp only [LOGSIZE, MAXOPBLOCKS] at hn; omega
  rw [decodeHead, get32_encodeHead h hn, if_pos h31]
  refine List.ext_getElem (by simp) fun i hi hi' => ?_
  have e := get32_putWords (b := h) (j := i + 1) (by simpa using hi') (head_fits hn)
  rw [List.getElem_map, List.getElem_range, show 4 + 4 * i = 0 + 4 * (i + 1) by omega, encodeHead, e]
  exact Nat.mod_eq_of_lt (hb _ (List.getElem_mem hi'))

theorem decodeHead_of_zero {h : Block} (h0 : get32 h 0 = 0) : decodeHead h = [] := by
  simp [decodeHead, h0]

end Xv6.LogLayer
