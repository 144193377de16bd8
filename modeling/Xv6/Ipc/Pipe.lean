import Xv6.Lib.Ring
import Xv6.Lib.Run

/-!
# Pipes (`kernel/pipe.c`)

`pipewrite` and `piperead` hold `pi->lock` and give it up only in `sleep`, so a step is one stretch of a call, from `acquire` or a
wakeup up to `sleep` or `return`. Any number of processes may write and read at the same time, and a sleeping one may go on at any time.
User buffers are given by how far they can be read or written: `copyin` fails behind the end of `src`, `copyout` at the offset `cap`.
-/

namespace Xv6.Ipc

open Ring (slot gap between)
open List Lts Nat

def PIPESIZE : Nat := 512

/-- `struct pipe` (`pipe.c:13`). -/
structure Pipe where
  data : Nat → UInt8
  nread : BitVec 32
  nwrite : BitVec 32
  readopen : Bool
  writeopen : Bool

inductive Ctl where
  | ret (v : Int)
  | sleep
  deriving DecidableEq

/-! ## Writers -/

structure Put where
  pipe : Pipe
  bytes : List UInt8
  ctl : Ctl

def writeLoop (killed : Nat → Bool) (src : List UInt8) : Nat → Nat → Pipe → Put
  | 0, i, s => ⟨s, [], .ret i⟩
  | left + 1, i, s =>
    if s.readopen = false ∨ killed i then ⟨s, [], .ret (-1)⟩
    else if s.nwrite = s.nread + BitVec.ofNat 32 PIPESIZE then ⟨s, [], .sleep⟩
    else
      match src[i]? with
      | none => ⟨s, [], .ret i⟩
      | some ch =>
        let t := writeLoop killed src left (i + 1)
          { s with data := Function.update s.data (slot PIPESIZE s.nwrite) ch, nwrite := s.nwrite + 1 }
        ⟨t.pipe, ch :: t.bytes, t.ctl⟩

/-! ## Readers -/

structure Got where
  pipe : Pipe
  bytes : List UInt8
  ctl : Ctl

def copyLoop (cap : Nat) : Nat → Nat → Pipe → Got
  | 0, i, s => ⟨s, [], .ret i⟩
  | left + 1, i, s =>
    if s.nread = s.nwrite then ⟨s, [], .ret i⟩
    else
      let ch := s.data (slot PIPESIZE s.nread)
      let s := { s with nread := s.nread + 1 }
      if i < cap then
        let t := copyLoop cap left (i + 1) s
        ⟨t.pipe, ch :: t.bytes, t.ctl⟩
      else ⟨s, [], .ret i⟩

/-- A stretch of `piperead` (`pipe.c:106`). -/
def readStretch (killed : Bool) (n cap : Nat) (s : Pipe) : Got :=
  if s.nread = s.nwrite ∧ s.writeopen then
    if killed then ⟨s, [], .ret (-1)⟩ else ⟨s, [], .sleep⟩
  else copyLoop cap n 0 s

/-! ## The system -/

inductive Job where
  | writer (left i : Nat) (src : List UInt8)
  | reader (n cap : Nat)

structure Sys where
  pipe : Pipe
  asleep : Nat → Option Job

/-- A pipe as `pipealloc` (`pipe.c:22`) leaves it; `data` is what the page held. -/
def fresh (data : Nat → UInt8) : Sys := ⟨⟨data, 0, 0, true, true⟩, fun _ => none⟩

inductive Ev where
  | write (p n : Nat) (src : List UInt8) (killed : Nat → Bool)
  | read (p n cap : Nat) (killed : Bool)
  /-- The process `p` goes on after its `sleep`. -/
  | resume (p : Nat) (killed : Nat → Bool)
  /-- `pipeclose` (`pipe.c:59`). -/
  | close (writable : Bool)

def Ev.job (s : Sys) : Ev → Option (Nat × Job × (Nat → Bool))
  | .write p n src killed => if (s.asleep p).isNone then some (p, .writer n 0 src, killed) else none
  | .read p n cap killed => if (s.asleep p).isNone then some (p, .reader n cap, fun _ => killed) else none
  | .resume p killed => (s.asleep p).map fun j => (p, j, killed)
  | .close _ => none

def Sys.put (s : Sys) (p left i : Nat) (src : List UInt8) (t : Put) : Sys where
  pipe := t.pipe
  asleep := Function.update s.asleep p
    (match t.ctl with
    | .ret _ => none
    | .sleep => some (.writer (left - t.bytes.length) (i + t.bytes.length) src))

def Sys.got (s : Sys) (p n cap : Nat) (t : Got) : Sys where
  pipe := t.pipe
  asleep := Function.update s.asleep p
    (match t.ctl with
    | .ret _ => none
    | .sleep => some (.reader n cap))

def Sys.go (s : Sys) (p : Nat) (killed : Nat → Bool) : Job → Sys
  | .writer left i src => s.put p left i src (writeLoop killed src left i s.pipe)
  | .reader n cap => s.got p n cap (readStretch (killed 0) n cap s.pipe)

def Pipe.close (s : Pipe) (writable : Bool) : Pipe := if writable then { s with writeopen := false } else { s with readopen := false }

/-- The page is freed when both ends are closed; there are no more steps then. -/
def step (s : Sys) (e : Ev) : Option Sys :=
  if s.pipe.readopen = false ∧ s.pipe.writeopen = false then none
  else
    match e with
    | .close writable => some { s with pipe := s.pipe.close writable }
    | e => (e.job s).map fun d => s.go d.1 d.2.2 d.2.1

/-! ## What is recorded of a run -/

structure Note where
  accepted : List UInt8
  stored : List UInt8
  reads : List (List UInt8 × Int)

def Note.zero : Note := ⟨[], [], []⟩

def Note.got (r : Note) (t : Got) : Note where
  accepted := r.accepted
  stored := r.stored ++ t.bytes
  reads := match t.ctl with
    | .ret v => r.reads ++ [(t.bytes, v)]
    | .sleep => r.reads

def Note.go (r : Note) (s : Pipe) (killed : Nat → Bool) : Job → Note
  | .writer left i src => { r with accepted := r.accepted ++ (writeLoop killed src left i s).bytes }
  | .reader n cap => r.got (readStretch (killed 0) n cap s)

def Note.upd (s : Sys) (e : Ev) (_ : Sys) (r : Note) : Note :=
  match e.job s with
  | none => r
  | some d => r.go s.pipe d.2.2 d.2.1

/-! ## One stretch -/

theorem size_dvd : PIPESIZE ∣ 2 ^ 32 := by decide

def Pipe.contents (s : Pipe) : List UInt8 := between PIPESIZE s.data s.nread s.nwrite

def Pipe.Ok (s : Pipe) : Prop := gap s.nread s.nwrite ≤ PIPESIZE

theorem Pipe.length_contents (s : Pipe) : s.contents.length = gap s.nread s.nwrite := Ring.length_between ..

theorem writeLoop_spec {s : Pipe} (h : s.Ok) (killed : Nat → Bool) (src : List UInt8) (left i : Nat) :
    (writeLoop killed src left i s).pipe.Ok ∧
      (writeLoop killed src left i s).pipe.contents = s.contents ++ (writeLoop killed src left i s).bytes := by
  induction left generalizing s i with
  | zero => exact ⟨h, by simp [writeLoop]⟩
  | succ left ih =>
    unfold writeLoop
    split
    · exact ⟨h, by simp⟩
    split
    · exact ⟨h, by simp⟩
    rename_i hfull
    split
    · exact ⟨h, by simp⟩
    rename_i ch _
    have hlt : gap s.nread s.nwrite < PIPESIZE :=
      lt_of_le_of_ne h fun he => hfull (by rw [← he, Ring.add_gap])
    have hN : PIPESIZE = 512 := rfl
    have hok : Pipe.Ok { s with data := Function.update s.data (slot PIPESIZE s.nwrite) ch, nwrite := s.nwrite + 1 } := by
      unfold Pipe.Ok
      dsimp only
      rw [Ring.gap_succ (by omega)]
      exact hlt
    have hpush : Pipe.contents { s with data := Function.update s.data (slot PIPESIZE s.nwrite) ch, nwrite := s.nwrite + 1 } =
        s.contents ++ [ch] := Ring.between_push size_dvd (by decide) hlt
    obtain ⟨hok', hc⟩ := ih hok (i + 1)
    refine ⟨hok', hc.trans ?_⟩
    rw [hpush, append_assoc]
    rfl

def Room (s : Pipe) (left i cap : Nat) : Prop := i + min left (gap s.nread s.nwrite) ≤ cap

theorem copyLoop_spec (s : Pipe) {cap left i : Nat} (hi : i ≤ cap) :
    ∃ used ≤ gap s.nread s.nwrite, (copyLoop cap left i s).pipe = { s with nread := s.nread + BitVec.ofNat 32 used } ∧
      (copyLoop cap left i s).bytes <+: s.contents ∧
      (copyLoop cap left i s).ctl = .ret (i + (copyLoop cap left i s).bytes.length : Nat) ∧
      (Room s left i cap → used = (copyLoop cap left i s).bytes.length) ∧
      (¬Room s left i cap → used = (copyLoop cap left i s).bytes.length + 1) := by
  induction left generalizing s i with
  | zero => exact ⟨0, zero_le _, by simp [copyLoop], nil_prefix, rfl, fun _ => rfl, fun h => absurd (by simpa [Room] using hi) h⟩
  | succ left ih =>
    unfold copyLoop
    by_cases he : s.nread = s.nwrite
    · rw [if_pos he]
      have hroom : Room s (left + 1) i cap := by
        unfold Room
        rw [he, Ring.gap_self]
        omega
      exact ⟨0, zero_le _, by simp, nil_prefix, rfl, fun _ => rfl, fun h => absurd hroom h⟩
    · rw [if_neg he]
      have hgap := Ring.gap_succ_left he
      have hcons : s.contents = s.data (slot PIPESIZE s.nread) :: Pipe.contents { s with nread := s.nread + 1 } := Ring.between_cons he
      by_cases hlt : i < cap
      · rw [if_pos hlt]
        obtain ⟨used, hle, hpipe, hbytes, hctl, hin, hout⟩ := ih { s with nread := s.nread + 1 } (i := i + 1) hlt
        have hroom : Room s (left + 1) i cap ↔ Room { s with nread := s.nread + 1 } left (i + 1) cap := by
          unfold Room
          dsimp only
          omega
        refine ⟨used + 1, by dsimp only at hle; omega, ?_, ?_, ?_, ?_, ?_⟩
        · rw [hpipe, BitVec.ofNat_add, add_assoc, add_comm (1 : BitVec 32)]
          rfl
        · rw [hcons]
          exact cons_prefix_cons.2 ⟨rfl, hbytes⟩
        · rw [hctl, length_cons]
          congr 2
          omega
        · exact fun h => congrArg (· + 1) (hin (hroom.1 h))
        · exact fun h => congrArg (· + 1) (hout (mt hroom.2 h))
      · rw [if_neg hlt]
        have hno : ¬Room s (left + 1) i cap := by
          unfold Room
          omega
        exact ⟨1, by omega, rfl, nil_prefix, rfl, fun h => absurd h hno, fun _ => rfl⟩

theorem readStretch_spec (s : Pipe) (killed : Bool) (n cap : Nat) :
    ∃ used ≤ gap s.nread s.nwrite, (readStretch killed n cap s).pipe = { s with nread := s.nread + BitVec.ofNat 32 used } ∧
      (readStretch killed n cap s).bytes <+: s.contents ∧
      (∀ v, (readStretch killed n cap s).ctl = .ret v →
        v = (readStretch killed n cap s).bytes.length ∨ v = -1 ∧ (readStretch killed n cap s).bytes = []) ∧
      (Room s n 0 cap → used = (readStretch killed n cap s).bytes.length) ∧
      (¬Room s n 0 cap → used = (readStretch killed n cap s).bytes.length + 1) := by
  unfold readStretch
  by_cases he : s.nread = s.nwrite ∧ s.writeopen
  · rw [if_pos he]
    have hroom : Room s n 0 cap := by
      unfold Room
      rw [he.1, Ring.gap_self]
      omega
    refine ⟨0, zero_le _, ?_, ?_, ?_, fun _ => ?_, fun h => absurd hroom h⟩
    · cases killed <;> simp
    · cases killed <;> exact nil_prefix
    · intro v hv
      cases killed with
      | true => cases hv; exact .inr ⟨rfl, rfl⟩
      | false => cases hv
    · cases killed <;> rfl
  · rw [if_neg he]
    obtain ⟨used, hle, hpipe, hbytes, hctl, hin, hout⟩ := @copyLoop_spec s cap n 0 (zero_le cap)
    refine ⟨used, hle, hpipe, hbytes, fun v hv => .inl ?_, hin, hout⟩
    rw [hctl, zero_add] at hv
    cases hv
    rfl

/-! ## Whole runs -/

def Fifo (o : Lts.Noted Sys Note) : Prop := o.note.accepted = o.note.stored ++ o.now.pipe.contents

/-- If the step runs a reader, the bytes it finds in the pipe fit into its buffer. -/
def Spares (s : Sys) (e : Ev) : Prop :=
  match e.job s with
  | some (_, .reader n cap, _) => Room s.pipe n 0 cap
  | _ => True

def Counted (bytes : List UInt8) (v : Int) : Prop := v = bytes.length ∨ v = -1 ∧ bytes = []

structure Kept (o : Lts.Noted Sys Note) : Prop where
  ok : o.now.pipe.Ok
  /-- Nothing is stored that was not accepted. -/
  length : o.note.stored.length + o.now.pipe.contents.length ≤ o.note.accepted.length
  reads : ∀ c ∈ o.note.reads, Counted c.1 c.2

section
variable {o : Lts.Noted Sys Note} {p : Nat} {killed : Nat → Bool}

theorem Kept.write (h : Kept o) (p : Nat) (killed : Nat → Bool) (left i : Nat) (src : List UInt8) :
    Kept ⟨o.now.go p killed (.writer left i src), o.note.go o.now.pipe killed (.writer left i src)⟩ ∧
      (Fifo ⟨o.now.go p killed (.writer left i src), o.note.go o.now.pipe killed (.writer left i src)⟩ ↔ Fifo o) := by
  obtain ⟨hok, hc⟩ := writeLoop_spec h.ok killed src left i
  have hlen := h.length
  refine ⟨⟨hok, ?_, h.reads⟩, ?_⟩
  · simp only [Sys.go, Sys.put, Note.go, hc, length_append]
    omega
  · simp only [Fifo, Sys.go, Sys.put, Note.go, hc, ← append_assoc, append_left_inj]

theorem Kept.read (h : Kept o) (p : Nat) (killed : Nat → Bool) (n cap : Nat) :
    Kept ⟨o.now.go p killed (.reader n cap), o.note.go o.now.pipe killed (.reader n cap)⟩ ∧
      (Fifo ⟨o.now.go p killed (.reader n cap), o.note.go o.now.pipe killed (.reader n cap)⟩ ↔ Fifo o ∧ Room o.now.pipe n 0 cap) := by
  obtain ⟨used, hle, hpipe, hbytes, hret, hin, hout⟩ := readStretch_spec o.now.pipe (killed 0) n cap
  have hok := h.ok
  have hlen := h.length
  have hgap := o.now.pipe.length_contents
  have hcontents : (readStretch (killed 0) n cap o.now.pipe).pipe.contents = o.now.pipe.contents.drop used := by
    rw [hpipe]
    exact Ring.between_drop hle
  have hblen := hbytes.length_le
  have hused : (readStretch (killed 0) n cap o.now.pipe).bytes.length ≤ used := by
    by_cases hr : Room o.now.pipe n 0 cap
    · rw [hin hr]
    · rw [hout hr]
      omega
  simp only [Sys.go, Sys.got, Note.go, Note.got, Fifo]
  refine ⟨⟨?_, ?_, ?_⟩, ?_⟩
  · unfold Pipe.Ok at hok ⊢
    rw [hpipe, Ring.gap_add_left hle]
    omega
  · dsimp only
    rw [hcontents, length_append, length_drop]
    omega
  · intro c hc
    dsimp only at hc
    cases hctl : (readStretch (killed 0) n cap o.now.pipe).ctl with
    | sleep =>
      rw [hctl] at hc
      exact h.reads c hc
    | ret v =>
      rw [hctl] at hc
      rcases mem_append.1 hc with hc | hc
      · exact h.reads c hc
      · cases mem_singleton.1 hc
        exact hret v hctl
  · have htake : (readStretch (killed 0) n cap o.now.pipe).bytes =
        o.now.pipe.contents.take (readStretch (killed 0) n cap o.now.pipe).bytes.length := prefix_iff_eq_take.1 hbytes
    rw [hcontents, append_assoc]
    constructor
    · intro hf
      -- a lost byte shows in the lengths
      have hroom : Room o.now.pipe n 0 cap := by
        by_contra hr
        have := hout hr
        have hl := congrArg List.length hf
        rw [length_append, length_append, length_drop] at hl
        omega
      refine ⟨?_, hroom⟩
      rw [hf, hin hroom]
      conv_lhs => rw [htake]
      rw [length_take, min_eq_left hblen, take_append_drop]
    · rintro ⟨hf, hroom⟩
      rw [hf, hin hroom]
      conv_rhs => rw [htake]
      rw [length_take, min_eq_left hblen, take_append_drop]

theorem Kept.step {o' : Lts.Noted Sys Note} {e : Ev} (h : Kept o) (hs : noted step Note.upd o e = some o') :
    Kept o' ∧ (Fifo o' ↔ Fifo o ∧ Spares o.now e) := by
  obtain ⟨hstep, hn⟩ := noted_eq_some hs
  obtain ⟨s', r'⟩ := o'
  dsimp only at hstep hn
  subst hn
  clear hs
  unfold Ipc.step at hstep
  split at hstep
  · cases hstep
  have hgo : ∀ e : Ev, (e.job o.now).map (fun d => o.now.go d.1 d.2.2 d.2.1) = some s' →
      Kept ⟨s', Note.upd o.now e s' o.note⟩ ∧ (Fifo ⟨s', Note.upd o.now e s' o.note⟩ ↔ Fifo o ∧ Spares o.now e) := by
    intro e he
    obtain ⟨⟨p, j, killed⟩, hd, rfl⟩ := Option.map_eq_some_iff.1 he
    unfold Note.upd Spares
    rw [hd]
    cases j with
    | writer left i src =>
      obtain ⟨hk, hf⟩ := h.write p killed left i src
      exact ⟨hk, by simpa using hf⟩
    | reader n cap => exact h.read p killed n cap
  cases e with
  | close writable =>
    cases hstep
    have hc : ((o.now.pipe.close writable).contents = o.now.pipe.contents) ∧ ((o.now.pipe.close writable).Ok ↔ o.now.pipe.Ok) := by
      cases writable <;> exact ⟨rfl, Iff.rfl⟩
    refine ⟨⟨hc.2.2 h.ok, ?_, h.reads⟩, ?_⟩
    · rw [hc.1]
      exact h.length
    · dsimp only [Fifo, Note.upd, Ev.job, Spares]
      rw [hc.1, and_true]
  | write p n src killed | read p n cap killed | resume p killed => exact hgo _ hstep

end

theorem pipe_lossless_iff {data : Nat → UInt8} {es : List Ev} {o : Lts.Noted Sys Note}
    (hr : run (noted step Note.upd) ⟨fresh data, .zero⟩ es = some o) :
    gap o.now.pipe.nread o.now.pipe.nwrite ≤ PIPESIZE ∧ (∀ c ∈ o.note.reads, Counted c.1 c.2) ∧
      (o.note.accepted = o.note.stored ++ o.now.pipe.contents ↔
        Lts.Along (noted step Note.upd) (fun o e => Spares o.now e) ⟨fresh data, .zero⟩ es) := by
  have h0 : Kept ⟨fresh data, .zero⟩ := by
    refine ⟨?_, ?_, fun c hc => by cases hc⟩
    · simp [Pipe.Ok, fresh]
    · simp [Pipe.length_contents, fresh, Note.zero]
  have hf0 : Fifo ⟨fresh data, .zero⟩ := by simp [Fifo, Pipe.contents, fresh, Note.zero]
  have hk : Kept o := run_inv (fun o e o' h _ hs => (h.step hs).1) h0 (along_of_forall fun _ _ _ => trivial) hr
  refine ⟨hk.ok, hk.reads, ?_⟩
  have hiff := run_iff_along (fun _ _ _ h hs => h.step hs) h0 hr
  exact hiff.trans (and_iff_right hf0)

/-- A byte is written and read into a buffer whose first byte cannot be written. -/
def lostByte : List Ev := [.write 1 1 [97] fun _ => false, .read 2 1 0 false]

theorem pipe_loses_byte : ∃ o, run (noted step Note.upd) ⟨fresh fun _ => 0, .zero⟩ lostByte = some o ∧
    o.note.accepted = [97] ∧ o.note.stored = [] ∧ o.now.pipe.contents = [] ∧ o.note.reads = [([], 0)] := by
  have hr : (run (noted step Note.upd) ⟨fresh fun _ => 0, .zero⟩ lostByte).map
      (fun o => decide (o.note.accepted = [97] ∧ o.note.stored = [] ∧ o.now.pipe.contents = [] ∧ o.note.reads = [([], 0)])) =
        some true := by
    decide +kernel
  obtain ⟨o, ho, hd⟩ := Option.map_eq_some_iff.1 hr
  exact ⟨o, ho, of_decide_eq_true hd⟩

theorem pipe_lossless_two : ∃ o, run (noted step Note.upd) ⟨fresh fun _ => 0, .zero⟩
    [.write 1 2 [97, 98] fun _ => false, .read 2 5 5 false] = some o ∧ o.note.stored = [97, 98] ∧
      o.note.accepted = o.note.stored ++ o.now.pipe.contents := by
  have hr : (run (noted step Note.upd) ⟨fresh fun _ => 0, .zero⟩
      [.write 1 2 [97, 98] fun _ => false, .read 2 5 5 false]).map (fun o => o.note.stored) = some [97, 98] := by
    decide +kernel
  obtain ⟨o, ho, hd⟩ := Option.map_eq_some_iff.1 hr
  have hroom : Lts.Along (noted step Note.upd) (fun o e => Spares o.now e) ⟨fresh fun _ => 0, .zero⟩
      [.write 1 2 [97, 98] fun _ => false, .read 2 5 5 false] := by
    refine ⟨trivial, ?_, trivial⟩
    change Room _ 5 0 5
    unfold Room
    omega
  exact ⟨o, ho, hd, (pipe_lossless_iff ho).2.2.2 hroom⟩

end Xv6.Ipc
