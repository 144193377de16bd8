import Xv6.Lib.Run
import Xv6.Log.Commit

/-!
# Processes that share the log

Any number of processes call `begin_op`, `log_write` and `end_op`. A step is one critical section of `log.lock`,
one block write of the commit, which runs without the lock, or the recycling of a buffer; the processes' steps
interleave in any order. A panic stops the machine.
-/

namespace Xv6.LogLayer

open Function (update)

/-- Where the committing process is in `commit` (`log.c:194`) or after it. -/
inductive Stage where
  | writeLog (tail : Nat)
  | writeHead
  | install (tail : Nat)
  | clear
  | erase
  | finish
  deriving DecidableEq, Repr

inductive Pc where
  | out
  | waiting
  | asleep
  | inOp
  | commit (g : Stage)
  deriving DecidableEq, Repr

structure Sys where
  st : St
  pc : Nat → Pc
  panic : Option String

inductive Ev where
  /-- Process `p` calls `begin_op`. -/
  | enter (p : Nat)
  /-- A pass of the loop of `begin_op`. -/
  | test (p : Nat)
  /-- A locked buffer is changed and passed to `log_write`. -/
  | write (p b : Nat) (x : Block)
  /-- The call of `end_op`, up to its first `release`. -/
  | close (p : Nat)
  /-- The next step of the commit that process `p` runs. -/
  | commit (p : Nat)
  /-- `bget` takes the buffer of `b`. -/
  | recycle (b : Nat)

def wakeup (pc : Nat → Pc) : Nat → Pc := fun p => if pc p = .asleep then .waiting else pc p

/-- The first stage of `commit`, which tests `log.lh.n > 0`. -/
def firstStage (l : Log) : Stage := if l.lh.length > 0 then .writeLog 0 else .finish

/-- One step of `commit` and the stage after it. -/
def St.commitStep (s : St) : Stage → St × Stage
  | .writeLog t => if t < s.log.lh.length then (s.writeLogAt t, .writeLog (t + 1)) else (s, .writeHead)
  | .writeHead => (s.writeHead, .install 0)
  | .install t => if t < s.log.lh.length then (s.installAt false t, .install (t + 1)) else (s, .clear)
  | .clear => (s.clearHead, .erase)
  | .erase => (s.writeHead, .finish)
  | .finish => (s, .finish)

/-- A step of the machine; `none` if the event is not possible. -/
def Sys.step (s : Sys) (e : Ev) : Option Sys :=
  if s.panic.isSome then none
  else match e with
  | .enter p => if s.pc p = .out then some { s with pc := update s.pc p .waiting } else none
  | .test p =>
    if s.pc p = .waiting then
      match beginOp s.st.log with
      | none => some { s with pc := update s.pc p .asleep }
      | some l => some { s with st := { s.st with log := l }, pc := update s.pc p .inOp }
    else none
  | .write p b x =>
    if s.pc p = .inOp then
      match s.st.update b x with
      | .error m => some { s with panic := some m }
      | .ok st => some { s with st := st }
    else none
  | .close p =>
    if s.pc p = .inOp then
      match endOp s.st.log with
      | .error m => some { s with panic := some m }
      | .ok (l, false) => some { s with st := { s.st with log := l }, pc := wakeup (update s.pc p .out) }
      | .ok (l, true) =>
        some { s with st := { s.st with log := l }, pc := update s.pc p (.commit (firstStage l)) }
    else none
  | .commit p =>
    match s.pc p with
    | .commit .finish =>
      some { s with
        st := { s.st with log := { s.st.log with committing := false } }
        pc := wakeup (update s.pc p .out) }
    | .commit g => some { s with st := (s.st.commitStep g).1, pc := update s.pc p (.commit (s.st.commitStep g).2) }
    | _ => none
  | .recycle b => if s.st.pin b = 0 then some { s with st := { s.st with dev := s.st.dev.recycle b } } else none

/-- The machine at boot: the recovery has emptied the log. -/
def Sys.boot (start size : Nat) (disk : Nat → Block) : Sys :=
  { st := LogLayer.boot start size disk, pc := fun _ => .out, panic := none }

/-! ## What a step can do -/

/-- The same processes are inside an operation or committing, at the same stage. -/
def SamePcs (pc pc' : Nat → Pc) : Prop :=
  ∀ q, (pc' q = .inOp ↔ pc q = .inOp) ∧ ∀ g, pc' q = .commit g ↔ pc q = .commit g

theorem SamePcs.refl (pc : Nat → Pc) : SamePcs pc pc := fun _ => ⟨Iff.rfl, fun _ => Iff.rfl⟩

theorem samePcs_wakeup (pc : Nat → Pc) : SamePcs pc (wakeup pc) := by
  intro q
  unfold wakeup
  split
  · rename_i h; simp [h]
  · exact ⟨Iff.rfl, fun _ => Iff.rfl⟩

theorem samePcs_update {pc : Nat → Pc} {p : Nat} {c : Pc} (hc : c ≠ .inOp) (hc' : ∀ g, c ≠ .commit g)
    (hp : pc p ≠ .inOp) (hp' : ∀ g, pc p ≠ .commit g) : SamePcs pc (update pc p c) := by
  intro q
  by_cases e : q = p
  · subst e; simp [hc, hc', hp, hp']
  · simp [e]

/-- The effect of a step, up to the processes that wait to begin. -/
inductive Move (s : Sys) : Ev → Sys → Prop
  | quiet {p e s'} : (e = .enter p ∨ e = .test p) → s.pc p ≠ .inOp → s'.st = s.st → s'.panic = none →
      SamePcs s.pc s'.pc → Move s e s'
  | begin {p s'} : s.st.log.committing = false →
      s.st.log.lh.length + (s.st.log.outstanding + 1) * MAXOPBLOCKS ≤ LOGSIZE →
      s'.st = { s.st with log := { s.st.log with outstanding := s.st.log.outstanding + 1 } } →
      s.pc p = .waiting → s'.panic = none → SamePcs (update s.pc p .inOp) s'.pc → Move s (.test p) s'
  | write {p b x s'} : s.pc p = .inOp → s.st.update b x = .ok s'.st → s'.panic = none → s'.pc = s.pc →
      Move s (.write p b x) s'
  | writePanic {p b x m s'} : s.pc p = .inOp → s.st.update b x = .error m → s'.st = s.st → s'.panic = some m →
      s'.pc = s.pc → Move s (.write p b x) s'
  | closePanic {p s'} : s.pc p = .inOp → s.st.log.committing = true → s'.st = s.st →
      s'.panic = some "log.committing" → s'.pc = s.pc → Move s (.close p) s'
  | leave {p s'} : s.pc p = .inOp → s.st.log.committing = false → s.st.log.outstanding - 1 ≠ 0 →
      s'.st = { s.st with log := { s.st.log with outstanding := s.st.log.outstanding - 1 } } → s'.panic = none →
      SamePcs (update s.pc p .out) s'.pc → Move s (.close p) s'
  | last {p s'} : s.pc p = .inOp → s.st.log.committing = false → s.st.log.outstanding - 1 = 0 →
      s'.st = { s.st with log := { s.st.log with outstanding := 0, committing := true } } → s'.panic = none →
      s'.pc = update s.pc p (.commit (firstStage s.st.log)) → Move s (.close p) s'
  | stage {p g s'} : s.pc p = .commit g → g ≠ .finish → s'.st = (s.st.commitStep g).1 → s'.panic = none →
      s'.pc = update s.pc p (.commit (s.st.commitStep g).2) → Move s (.commit p) s'
  | done {p s'} : s.pc p = .commit .finish →
      s'.st = { s.st with log := { s.st.log with committing := false } } → s'.panic = none →
      SamePcs (update s.pc p .out) s'.pc → Move s (.commit p) s'
  | recycle {b s'} : s.st.pin b = 0 → s'.st = { s.st with dev := s.st.dev.recycle b } → s'.panic = none →
      s'.pc = s.pc → Move s (.recycle b) s'

theorem endOp_cases (l : Log) :
    (l.committing = true ∧ endOp l = .error "log.committing") ∨
    (l.committing = false ∧ l.outstanding - 1 ≠ 0 ∧
      endOp l = .ok ({ l with outstanding := l.outstanding - 1 }, false)) ∨
    (l.committing = false ∧ l.outstanding - 1 = 0 ∧
      endOp l = .ok ({ l with outstanding := 0, committing := true }, true)) := by
  unfold endOp
  cases hc : l.committing
  · by_cases ho : l.outstanding - 1 = 0
    · simp [ho]
    · simp [ho]
  · simp

theorem beginOp_some {l l' : Log} (h : beginOp l = some l') :
    l.committing = false ∧ l.lh.length + (l.outstanding + 1) * MAXOPBLOCKS ≤ LOGSIZE ∧
      l' = { l with outstanding := l.outstanding + 1 } := by
  unfold beginOp at h
  split at h
  · cases h
  · split at h
    · cases h
    · cases h
      exact ⟨by simpa using ‹¬ _ = true›, by omega, rfl⟩

theorem step_move {s s' : Sys} {e : Ev} (h : s.step e = some s') : s.panic = none ∧ Move s e s' := by
  unfold Sys.step at h
  split at h
  · cases h
  have hn : s.panic = none := by
    cases hp : s.panic <;> simp_all
  refine ⟨hn, ?_⟩
  cases e with
  | enter p =>
    simp only at h
    split at h
    · cases h
      rename_i hp
      exact .quiet (.inl rfl) (by simp [hp]) rfl hn (samePcs_update (by simp) (by simp) (by simp [hp]) (by simp [hp]))
    · cases h
  | test p =>
    simp only at h
    split at h
    · rename_i hp
      cases hb : beginOp s.st.log with
      | none =>
        rw [hb] at h
        cases h
        exact .quiet (.inr rfl) (by simp [hp]) rfl hn
          (samePcs_update (by simp) (by simp) (by simp [hp]) (by simp [hp]))
      | some l =>
        rw [hb] at h
        cases h
        obtain ⟨h1, h2, rfl⟩ := beginOp_some hb
        exact .begin h1 h2 rfl hp hn (SamePcs.refl _)
    · cases h
  | write p b x =>
    simp only at h
    split at h
    · rename_i hp
      cases hu : s.st.update b x with
      | error m =>
        rw [hu] at h
        cases h
        exact .writePanic hp hu rfl rfl rfl
      | ok st =>
        rw [hu] at h
        cases h
        exact .write hp hu hn rfl
    · cases h
  | close p =>
    simp only at h
    split at h
    · rename_i hp
      rcases endOp_cases s.st.log with ⟨hc, he⟩ | ⟨hc, ho, he⟩ | ⟨hc, ho, he⟩ <;> rw [he] at h <;> cases h
      · exact .closePanic hp hc rfl rfl rfl
      · exact .leave hp hc ho rfl hn (samePcs_wakeup _)
      · exact .last hp hc ho rfl hn rfl
    · cases h
  | commit p =>
    simp only at h
    split at h
    · rename_i hp
      cases h
      exact .done hp rfl hn (samePcs_wakeup _)
    · rename_i g hg hp
      cases h
      exact .stage hp hg rfl hn rfl
    · cases h
  | recycle b =>
    simp only at h
    split at h
    · cases h
      exact .recycle ‹_› rfl hn rfl
    · cases h

end Xv6.LogLayer
