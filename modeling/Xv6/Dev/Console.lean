import Xv6.Lib.Ring
import Xv6.Lib.Run

/-!
# Console input (`kernel/console.c`)

`consoleintr` runs in the UART interrupt and `consoleread` in the reading processes. Both hold `cons.lock`, which `consoleread` gives
up only in `sleep`, so a step of the system is one keystroke or one stretch of a `consoleread` from `acquire` or a wakeup up to
`sleep` or `return`. A sleeping reader may go on at any time; it then finds input, goes back to sleep, or has been killed.

`Line` says what the console is for: a line is edited until it is committed, and readers take what has been committed.
-/

namespace Xv6.Console

open Ring (slot gap between)
open List Option Nat

def INPUT_BUF_SIZE : Nat := 128

def CTRL_D : UInt8 := 4
def CTRL_H : UInt8 := 8
def CTRL_P : UInt8 := 16
def CTRL_U : UInt8 := 21
def DEL : UInt8 := 0x7f
def NL : UInt8 := 10
def CR : UInt8 := 13

/-- `cons` (`console.c:44`). -/
structure Cons where
  buf : Nat → UInt8
  r : BitVec 32
  w : BitVec 32
  e : BitVec 32

/-! ## The interrupt handler -/

def killLine : Nat → Cons → Cons
  | 0, s => s
  | fuel + 1, s =>
    if s.e ≠ s.w ∧ s.buf (slot INPUT_BUF_SIZE (s.e - 1)) ≠ NL then killLine fuel { s with e := s.e - 1 } else s

def crlf (c : UInt8) : UInt8 := if c = CR then NL else c

/-- `console.c:136`, without the echo. -/
def consoleintr (s : Cons) (c : UInt8) : Cons :=
  if c = CTRL_P then s
  else if c = CTRL_U then killLine (gap s.w s.e) s
  else if c = CTRL_H ∨ c = DEL then
    if s.e ≠ s.w then { s with e := s.e - 1 } else s
  else if c ≠ 0 ∧ gap s.r s.e < INPUT_BUF_SIZE then
    let s' := { s with buf := Function.update s.buf (slot INPUT_BUF_SIZE s.e) (crlf c), e := s.e + 1 }
    if crlf c = NL ∨ crlf c = CTRL_D ∨ gap s'.r s'.e = INPUT_BUF_SIZE then { s' with w := s'.e } else s'
  else s

/-! ## Readers -/

inductive Ctl where
  | ret (v : Int)
  /-- Asleep with `n` bytes to go. -/
  | sleep (n : Nat)
  deriving DecidableEq

structure Stretch where
  cons : Cons
  out : List UInt8
  ctl : Ctl

def readLoop (killed : Bool) (target cap : Nat) : Nat → Cons → Stretch
  | 0, s => ⟨s, [], .ret target⟩
  | n + 1, s =>
    if s.r = s.w then
      if killed then ⟨s, [], .ret (-1)⟩ else ⟨s, [], .sleep (n + 1)⟩
    else
      let c := s.buf (slot INPUT_BUF_SIZE s.r)
      let s := { s with r := s.r + 1 }
      if c = CTRL_D then
        if n + 1 < target then ⟨{ s with r := s.r - 1 }, [], .ret (target - (n + 1) : Nat)⟩ else ⟨s, [], .ret (target - (n + 1) : Nat)⟩
      else if target - (n + 1) < cap then
        if c = NL then ⟨s, [c], .ret (target - n : Nat)⟩
        else
          let t := readLoop killed target cap n s
          ⟨t.cons, c :: t.out, t.ctl⟩
      else ⟨s, [], .ret (target - (n + 1) : Nat)⟩

structure Reader where
  target : Nat
  cap : Nat
  left : Nat
  got : List UInt8

structure Sys where
  cons : Cons
  /-- The processes asleep in `consoleread`. -/
  asleep : Nat → Option Reader

def boot : Sys := ⟨⟨fun _ => 0, 0, 0, 0⟩, fun _ => none⟩

inductive Ev where
  | key (c : UInt8)
  | read (p n cap : Nat) (killed : Bool)
  /-- `p` goes on after its `sleep`. -/
  | resume (p : Nat) (killed : Bool)

/-- The call that a step goes on with, and whether it finds itself killed. -/
def Ev.reader (s : Sys) : Ev → Option (Nat × Reader × Bool)
  | .key _ => none
  | .read p n cap killed => if (s.asleep p).isNone then some (p, ⟨n, cap, n, []⟩, killed) else none
  | .resume p killed => (s.asleep p).map fun x => (p, x, killed)

def Reader.stretch (x : Reader) (killed : Bool) (s : Cons) : Stretch := readLoop killed x.target x.cap x.left s

def Sys.go (s : Sys) (p : Nat) (x : Reader) (killed : Bool) : Sys :=
  let t := x.stretch killed s.cons
  { cons := t.cons
    asleep := Function.update s.asleep p
      (match t.ctl with
      | .ret _ => none
      | .sleep n => some { x with left := n, got := x.got ++ t.out }) }

def step (s : Sys) (e : Ev) : Option Sys :=
  match e with
  | .key c => some { s with cons := consoleintr s.cons c }
  | e => (e.reader s).map fun d => s.go d.1 d.2.1 d.2.2

/-! ## What the console is for -/

structure Line where
  committed : List UInt8
  taken : Nat
  editing : List UInt8

/-- Committed and not yet taken. -/
def Line.unread (l : Line) : List UInt8 := l.committed.drop l.taken

def Line.key (l : Line) (c : UInt8) : Line :=
  if c = CTRL_P then l
  else if c = CTRL_U then { l with editing := [] }
  else if c = CTRL_H ∨ c = DEL then { l with editing := l.editing.dropLast }
  else if c = 0 ∨ l.unread.length + l.editing.length = INPUT_BUF_SIZE then l
  else
    let line := l.editing ++ [crlf c]
    if crlf c = NL ∨ crlf c = CTRL_D ∨ l.unread.length + line.length = INPUT_BUF_SIZE then
      { l with committed := l.committed ++ line, editing := [] }
    else { l with editing := line }

inductive Stop (killed : Bool) (target left : Nat) (q out : List UInt8) : Nat → Ctl → Prop
  /-- Its buffer is full or the line is complete. -/
  | done (h : out.length = left ∨ out.getLast? = some NL) :
    Stop killed target left q out out.length (.ret (target - left + out.length : Nat))
  | eof (hlt : out.length < left) (hl : out.getLast? ≠ some NL) (h : q[out.length]? = some CTRL_D) :
    Stop killed target left q out (out.length + if left = target ∧ out = [] then 1 else 0) (.ret (target - left + out.length : Nat))
  /-- There is nothing left to take. -/
  | empty (hlt : out.length < left) (hl : out.getLast? ≠ some NL) (h : out = q) :
    Stop killed target left q out out.length (if killed then .ret (-1) else .sleep (left - out.length))

/-- The reader is given the next bytes, none beyond a newline or an end-of-file. -/
structure Served (killed : Bool) (target left : Nat) (q out : List UInt8) (used : Nat) (ctl : Ctl) : Prop where
  next : out <+: q
  length_le : out.length ≤ left
  line : NL ∉ out.dropLast
  no_eof : CTRL_D ∉ out
  stop : Stop killed target left q out used ctl

/-! ## The interrupt handler edits the line -/

structure Rep (s : Cons) (l : Line) : Prop where
  order : gap s.r s.w + gap s.w s.e = gap s.r s.e
  room : gap s.r s.e ≤ INPUT_BUF_SIZE
  taken_le : l.taken ≤ l.committed.length
  unread : l.unread = between INPUT_BUF_SIZE s.buf s.r s.w
  editing : l.editing = between INPUT_BUF_SIZE s.buf s.w s.e
  /-- A newline commits, so none is being edited. -/
  plain : NL ∉ l.editing

theorem size_dvd : INPUT_BUF_SIZE ∣ 2 ^ 32 := by decide

theorem killLine_eq {s : Cons} {n : Nat} (hn : gap s.w s.e = n) (h : NL ∉ between INPUT_BUF_SIZE s.buf s.w s.e) :
    killLine n s = { s with e := s.w } := by
  induction n generalizing s with
  | zero =>
    have he : s.w = s.e := Ring.gap_eq_zero.1 hn
    cases s
    cases he
    rfl
  | succ n ih =>
    have hne : s.w ≠ s.e := Ring.gap_pos.1 (by omega)
    rw [Ring.between_concat hne, mem_append, not_or] at h
    have hpred := Ring.gap_pred hne
    have hlast : s.buf (slot INPUT_BUF_SIZE (s.e - 1)) ≠ NL := fun e => h.2 (e ▸ mem_singleton_self _)
    rw [killLine, if_pos ⟨hne.symm, hlast⟩]
    exact ih (by dsimp only; omega) h.1

variable {s : Cons} {l : Line} {c : UInt8}

theorem Rep.length_unread (h : Rep s l) : l.unread.length = gap s.r s.w := by rw [h.unread, Ring.length_between]

theorem Rep.length_editing (h : Rep s l) : l.editing.length = gap s.w s.e := by rw [h.editing, Ring.length_between]

theorem Rep.backspace (h : Rep s l) :
    Rep (if s.e ≠ s.w then { s with e := s.e - 1 } else s) { l with editing := l.editing.dropLast } := by
  by_cases hne : s.e = s.w
  · have hnil : l.editing = [] := by rw [h.editing, hne, Ring.between_self]
    rw [if_neg (by simpa using hne), hnil, dropLast_nil, ← hnil]
    exact h
  · rw [if_pos hne]
    have hgap := Ring.gap_pred (Ne.symm hne)
    have hre : s.r ≠ s.e := Ring.gap_pos.1 (by have := h.order; omega)
    have hgap' := Ring.gap_pred hre
    have hlast : l.editing.dropLast = between INPUT_BUF_SIZE s.buf s.w (s.e - 1) := by
      rw [h.editing, Ring.between_concat (Ne.symm hne), dropLast_concat]
    exact ⟨by have := h.order; dsimp only; omega, by have := h.room; dsimp only; omega, h.taken_le, h.unread, hlast,
      fun hm => h.plain (mem_of_mem_dropLast hm)⟩

theorem Rep.kill (h : Rep s l) : Rep { s with e := s.w } { l with editing := [] } := by
  have horder := h.order
  have hroom := h.room
  exact ⟨by simp, by dsimp only; omega, h.taken_le, h.unread, by simp, by simp⟩

theorem Rep.store (h : Rep s l) (hlt : gap s.r s.e < INPUT_BUF_SIZE) (c : UInt8) :
    gap s.r (s.e + 1) = gap s.r s.e + 1 ∧ gap s.w (s.e + 1) = gap s.w s.e + 1 ∧
      between INPUT_BUF_SIZE (Function.update s.buf (slot INPUT_BUF_SIZE s.e) c) s.r s.w = l.unread ∧
      between INPUT_BUF_SIZE (Function.update s.buf (slot INPUT_BUF_SIZE s.e) c) s.w (s.e + 1) = l.editing ++ [c] := by
  have horder := h.order
  have hN : INPUT_BUF_SIZE = 128 := rfl
  refine ⟨Ring.gap_succ (by omega), Ring.gap_succ (by omega), ?_, ?_⟩
  · rw [h.unread]
    exact Ring.between_update size_dvd (by omega) hlt
  · rw [h.editing]
    exact Ring.between_push size_dvd (by decide) (by omega)

theorem Rep.key (h : Rep s l) (c : UInt8) : Rep (consoleintr s c) (l.key c) := by
  have horder := h.order
  unfold consoleintr Line.key
  by_cases hp : c = CTRL_P
  · rwa [if_pos hp, if_pos hp]
  rw [if_neg hp, if_neg hp]
  by_cases hu : c = CTRL_U
  · rw [if_pos hu, if_pos hu, killLine_eq rfl (h.editing ▸ h.plain)]
    exact h.kill
  rw [if_neg hu, if_neg hu]
  by_cases hb : c = CTRL_H ∨ c = DEL
  · rw [if_pos hb, if_pos hb]
    exact h.backspace
  rw [if_neg hb, if_neg hb]
  rw [h.length_unread, h.length_editing, horder]
  by_cases hd : c ≠ 0 ∧ gap s.r s.e < INPUT_BUF_SIZE
  · obtain ⟨hre, hwe, hunread, hediting⟩ := h.store hd.2 (crlf c)
    have hfree : ¬(c = 0 ∨ gap s.r s.e = INPUT_BUF_SIZE) := not_or.2 ⟨hd.1, Nat.ne_of_lt hd.2⟩
    rw [if_pos hd, if_neg hfree]
    dsimp only
    have hlen : gap s.r s.w + (l.editing ++ [crlf c]).length = gap s.r (s.e + 1) := by
      rw [length_append, h.length_editing, length_singleton]
      omega
    rw [hlen]
    by_cases hc : crlf c = NL ∨ crlf c = CTRL_D ∨ gap s.r (s.e + 1) = INPUT_BUF_SIZE
    · rw [if_pos hc, if_pos hc]
      refine ⟨by simp, by dsimp only; omega, ?_, ?_, by simp, by simp⟩
      · rw [length_append]
        have := h.taken_le
        dsimp only
        omega
      · unfold Line.unread at hunread ⊢
        dsimp only
        rw [drop_append_of_le_length h.taken_le, ← hunread, ← hediting]
        exact (Ring.between_append (by omega)).symm
    · rw [if_neg hc, if_neg hc]
      refine ⟨by dsimp only; omega, by dsimp only; omega, h.taken_le, hunread.symm, hediting.symm, ?_⟩
      rw [mem_append, mem_singleton]
      rintro (hm | hm)
      · exact h.plain hm
      · exact hc (.inl hm.symm)
  · have hfull : c = 0 ∨ gap s.r s.e = INPUT_BUF_SIZE := by
      by_cases h0 : c = 0
      · exact .inl h0
      · exact .inr (Nat.le_antisymm h.room (Nat.le_of_not_lt fun hlt => hd ⟨h0, hlt⟩))
    rw [if_neg hd, if_pos hfull]
    exact h

/-! ## Readers take what is committed -/

section
variable {killed : Bool} {target cap n left used : Nat} {q out : List UInt8} {ctl : Ctl}

theorem Stop.cons (hc : c ≠ NL) (hlt : left < target) (h : Stop killed target left q out used ctl) :
    Stop killed target (left + 1) (c :: q) (c :: out) (used + 1) ctl := by
  have hlen : target - left + out.length = target - (left + 1) + (c :: out).length := by
    rw [length_cons]
    omega
  have hlast : (c :: out).getLast? = some NL ↔ out.getLast? = some NL := by
    cases h : out.getLast? with
    | none => simp [getLast?_cons, h, hc]
    | some d => simp [getLast?_cons, h]
  cases h with
  | done h =>
    rw [hlen]
    exact .done (h.imp (fun h => by simp [h]) hlast.2)
  | eof hlt' hl h =>
    rw [hlen, if_neg fun h => absurd h.1 (Nat.ne_of_lt hlt)]
    have hstop : Stop killed target (left + 1) (c :: q) (c :: out) _ _ := .eof (by simpa using hlt') (hlast.not.2 hl) (by simpa using h)
    rwa [if_neg (by simp)] at hstop
  | empty hlt' hl h =>
    have hstop : Stop killed target (left + 1) (c :: q) (c :: out) _ _ := .empty (by simpa using hlt') (hlast.not.2 hl) (by rw [h])
    rwa [length_cons, Nat.add_sub_add_right] at hstop

theorem Served.cons (hc : c ≠ NL) (hd : c ≠ CTRL_D) (hlt : left < target) (h : Served killed target left q out used ctl) :
    Served killed target (left + 1) (c :: q) (c :: out) (used + 1) ctl where
  next := cons_prefix_cons.2 ⟨rfl, h.next⟩
  length_le := succ_le_succ h.length_le
  line := by
    cases out with
    | nil => simp
    | cons d out =>
      rw [dropLast_cons_cons, mem_cons, not_or]
      exact ⟨hc.symm, h.line⟩
  no_eof := by
    rw [mem_cons, not_or]
    exact ⟨hd.symm, h.no_eof⟩
  stop := h.stop.cons hc hlt

theorem served_nil {left : Nat} (h : Stop killed target left q [] used ctl) : Served killed target left q [] used ctl :=
  ⟨ nil_prefix, zero_le _, by simp, by simp, h⟩

theorem readLoop_served (s : Cons) (hn : n ≤ target) (hcap : target ≤ cap) :
    ∃ used ≤ gap s.r s.w, (readLoop killed target cap n s).cons = { s with r := s.r + BitVec.ofNat 32 used } ∧
      Served killed target n (between INPUT_BUF_SIZE s.buf s.r s.w) (readLoop killed target cap n s).out used
        (readLoop killed target cap n s).ctl := by
  induction n generalizing s with
  | zero => exact ⟨0, zero_le _, by simp [readLoop], served_nil (.done (.inl rfl))⟩
  | succ n ih =>
    unfold readLoop
    by_cases hrw : s.r = s.w
    · have hq : between INPUT_BUF_SIZE s.buf s.r s.w = [] := by rw [hrw, Ring.between_self]
      have hstop : Stop killed target (n + 1) (between INPUT_BUF_SIZE s.buf s.r s.w) [] _ _ := .empty (succ_pos n) (by simp) hq.symm
      rw [if_pos hrw]
      refine ⟨0, zero_le _, ?_, ?_⟩
      · cases killed <;> simp
      · cases killed <;> exact served_nil hstop
    · rw [if_neg hrw]
      have hq : between INPUT_BUF_SIZE s.buf s.r s.w = _ := Ring.between_cons hrw
      have hgap := Ring.gap_succ_left hrw
      generalize hc : s.buf (slot INPUT_BUF_SIZE s.r) = c at hq ⊢
      by_cases hd : c = CTRL_D
      · have hstop : Stop killed target (n + 1) (between INPUT_BUF_SIZE s.buf s.r s.w) [] _ _ :=
          .eof (succ_pos n) (by simp) (by rw [hq, hd]; rfl)
        rw [if_pos hd]
        by_cases hlt : n + 1 < target
        · rw [if_pos hlt]
          refine ⟨0, zero_le _, by simp, served_nil ?_⟩
          rwa [if_neg fun h => absurd h.1 (Nat.ne_of_lt hlt)] at hstop
        · rw [if_neg hlt]
          refine ⟨1, by omega, rfl, served_nil ?_⟩
          rwa [if_pos ⟨by omega, rfl⟩] at hstop
      · rw [if_neg hd, if_pos (show target - (n + 1) < cap by omega)]
        by_cases hnl : c = NL
        · rw [if_pos hnl, hq]
          have hstop : Stop killed target (n + 1) (c :: between INPUT_BUF_SIZE s.buf (s.r + 1) s.w) [c] _ _ :=
            .done (.inr (by rw [hnl]; rfl))
          have hret : target - (n + 1) + [c].length = target - n := by
            rw [length_singleton]
            omega
          rw [hret] at hstop
          exact ⟨1, by omega, rfl, by simp, succ_pos n, by simp, by simpa using Ne.symm hd, hstop⟩
        · rw [if_neg hnl, hq]
          obtain ⟨used, hle, hcons, hs⟩ := ih { s with r := s.r + 1 } (by omega)
          refine ⟨used + 1, by dsimp only at hle; omega, ?_, hs.cons hnl hd (by omega)⟩
          rw [hcons, BitVec.ofNat_add, add_assoc, add_comm (1 : BitVec 32)]
          rfl

end

/-! ## Whole runs -/

structure Note where
  line : Line
  data : List UInt8
  rets : List (List UInt8 × Int)

def Note.zero : Note := ⟨⟨[], 0, []⟩, [], []⟩

def Note.served (r : Note) (s : Cons) (x : Reader) (t : Stretch) : Note where
  line := { r.line with taken := r.line.taken + gap s.r t.cons.r }
  data := r.data ++ t.out
  rets := match t.ctl with
    | .ret v => r.rets ++ [(x.got ++ t.out, v)]
    | .sleep _ => r.rets

def Note.upd (s : Sys) (e : Ev) (_ : Sys) (r : Note) : Note :=
  match e with
  | .key c => { r with line := r.line.key c }
  | e => match e.reader s with
    | none => r
    | some d => r.served s.cons d.2.1 (d.2.1.stretch d.2.2 s.cons)

/-- `copyout` does not fail. -/
def Ev.Fits : Ev → Prop
  | .read _ n cap _ => n ≤ cap
  | _ => True

/-- A call that is still to get bytes: it has not met a newline or an end-of-file. -/
structure Reader.Ok (x : Reader) : Prop where
  fits : x.target ≤ x.cap
  count : x.left + x.got.length = x.target
  no_eof : CTRL_D ∉ x.got
  no_line : NL ∉ x.got

structure Returned (bytes : List UInt8) (v : Int) : Prop where
  value : v = -1 ∨ v = bytes.length
  no_eof : CTRL_D ∉ bytes
  line : NL ∉ bytes.dropLast

structure Kept (s : Sys) (r : Note) : Prop where
  rep : Rep s.cons r.line
  data : r.data = (r.line.committed.take r.line.taken).filter (· ≠ CTRL_D)
  readers : ∀ p x, s.asleep p = some x → x.Ok
  rets : ∀ c ∈ r.rets, Returned c.1 c.2

theorem Kept.boot : Kept boot .zero where
  rep := ⟨by simp [Console.boot], by simp [Console.boot], by simp [Note.zero], by simp [Console.boot, Note.zero, Line.unread],
    by simp [Console.boot, Note.zero], by simp [Note.zero]⟩
  data := rfl
  readers _ _ h := by cases h
  rets _ h := by cases h

section
variable {s s' : Sys} {r : Note} {e : Ev} {p : Nat} {x : Reader} {killed : Bool}

theorem Ev.reader_ok (h : Kept s r) (he : e.Fits) (hd : e.reader s = some (p, x, killed)) : x.Ok := by
  cases e with
  | key c => cases hd
  | read q n cap k =>
    simp only [Ev.reader, ite_none_right_eq_some, some.injEq, Prod.mk.injEq] at hd
    obtain ⟨-, -, rfl, -⟩ := hd
    exact ⟨he, by simp, by simp, by simp⟩
  | resume q k =>
    obtain ⟨y, hy, hd⟩ := map_eq_some_iff.1 hd
    cases hd
    exact h.readers _ _ hy

theorem Rep.served {s : Cons} {l : Line} (h : Rep s l) (hx : x.Ok) (killed : Bool) :
    let t := x.stretch killed s
    let l' := { l with taken := l.taken + gap s.r t.cons.r }
    Rep t.cons l' ∧ Served killed x.target x.left l.unread t.out (gap s.r t.cons.r) t.ctl := by
  obtain ⟨used, hle, hcons, hs⟩ := @readLoop_served killed x.target x.cap x.left s (by have := hx.count; omega) hx.fits
  have hroom := h.room
  have horder := h.order
  have hN : INPUT_BUF_SIZE = 128 := rfl
  have hgap : gap s.r (s.r + BitVec.ofNat 32 used) = used := Ring.gap_add_ofNat (by omega)
  dsimp only [Reader.stretch]
  rw [← h.unread] at hs
  rw [hcons]
  rw [hgap]
  have hleft : gap (s.r + BitVec.ofNat 32 used) s.w = gap s.r s.w - used := Ring.gap_add_left hle
  have hleft' : gap (s.r + BitVec.ofNat 32 used) s.e = gap s.r s.e - used := Ring.gap_add_left (by omega)
  have hlen : l.unread.length = l.committed.length - l.taken := length_drop
  have hunread := h.length_unread
  have htaken := h.taken_le
  refine ⟨⟨by dsimp only; omega, by dsimp only; omega, by dsimp only; omega, ?_, h.editing, h.plain⟩, hs⟩
  unfold Line.unread
  dsimp only
  rw [← drop_drop, Ring.between_drop hle, ← h.unread]
  rfl

theorem Line.key_committed (l : Line) (c : UInt8) :
    (l.key c).taken = l.taken ∧ ∃ line, (l.key c).committed = l.committed ++ line := by
  unfold Line.key
  split
  · exact ⟨rfl, [], by simp⟩
  split
  · exact ⟨rfl, [], by simp⟩
  split
  · exact ⟨rfl, [], by simp⟩
  split
  · exact ⟨rfl, [], by simp⟩
  · dsimp only
    split
    · exact ⟨rfl, _, rfl⟩
    · exact ⟨rfl, [], by simp⟩

theorem Served.taken {target left used : Nat} {q out : List UInt8} {ctl : Ctl} (h : Served killed target left q out used ctl) :
    (q.take used).filter (· ≠ CTRL_D) = out := by
  have hout : (q.take out.length).filter (· ≠ CTRL_D) = out := by
    rw [← prefix_iff_eq_take.1 h.next]
    refine filter_eq_self.2 fun c hc => decide_eq_true fun e => ?_
    exact h.no_eof (e ▸ hc)
  cases h.stop with
  | done _ | empty _ _ _ => exact hout
  | eof hlt hl hd =>
    by_cases hnil : left = target ∧ out = []
    · rw [if_pos hnil]
      obtain ⟨-, rfl⟩ := hnil
      cases q with
      | nil => simp at hd
      | cons c q =>
        have : c = CTRL_D := by simpa using hd
        simp [this]
    · rw [if_neg hnil]
      exact hout

theorem Reader.Ok.served {used : Nat} {q out : List UInt8} {ctl : Ctl} (hx : x.Ok) (h : Served killed x.target x.left q out used ctl) :
    (∀ n, ctl = .sleep n → Reader.Ok { x with left := n, got := x.got ++ out }) ∧ ∀ v, ctl = .ret v → Returned (x.got ++ out) v := by
  have hcount := hx.count
  have hno : CTRL_D ∉ x.got ++ out := by
    rw [mem_append, not_or]
    exact ⟨hx.no_eof, h.no_eof⟩
  have hline : NL ∉ (x.got ++ out).dropLast := by
    by_cases hnil : out = []
    · rw [hnil, append_nil]
      exact fun hm => hx.no_line (mem_of_mem_dropLast hm)
    · rw [dropLast_append_of_ne_nil hnil, mem_append, not_or]
      exact ⟨hx.no_line, h.line⟩
  have hlen : ((x.target - x.left + out.length : Nat) : Int) = (x.got ++ out).length := by
    rw [length_append]
    omega
  constructor
  · intro n hn
    cases h.stop with
    | done _ | eof _ _ _ => cases hn
    | empty hlt hl he =>
      cases killed with
      | true => cases hn
      | false =>
        cases hn
        refine ⟨hx.fits, by rw [length_append]; dsimp only; omega, hno, ?_⟩
        rw [mem_append, not_or]
        refine ⟨hx.no_line, fun hm => ?_⟩
        -- a newline would be the last byte
        cases hl' : out.getLast? with
        | none => simp [getLast?_eq_none_iff.1 hl'] at hm
        | some d =>
          have := dropLast_append_getLast? d hl'
          rw [← this, mem_append, mem_singleton] at hm
          exact hm.elim h.line fun e => hl (by rw [hl', e])
  · intro v hv
    refine ⟨?_, hno, hline⟩
    cases h.stop with
    | done _ | eof _ _ _ => cases hv; exact .inr hlen
    | empty _ _ _ =>
      cases killed with
      | true => cases hv; exact .inl rfl
      | false => cases hv

theorem Kept.go (h : Kept s r) (hx : x.Ok) (p : Nat) (killed : Bool) :
    Kept (s.go p x killed) (r.served s.cons x (x.stretch killed s.cons)) := by
  obtain ⟨hrep, hs⟩ := h.rep.served hx killed
  have hx' := hx.served hs
  unfold Sys.go
  generalize x.stretch killed s.cons = t at *
  refine ⟨hrep, ?_, fun q y hy => ?_, fun c hc => ?_⟩
  · change r.data ++ t.out = _
    rw [h.data, ← hs.taken, ← filter_append, Line.unread, ← take_add]
    rfl
  · dsimp only at hy
    by_cases hq : q = p
    · rw [hq, Function.update_self] at hy
      cases hc : t.ctl with
      | ret v => rw [hc] at hy; cases hy
      | sleep n =>
        rw [hc] at hy
        cases hy
        exact hx'.1 n hc
    · rw [Function.update_of_ne hq] at hy
      exact h.readers q y hy
  · unfold Note.served at hc
    cases hctl : t.ctl with
    | sleep n =>
      rw [hctl] at hc
      exact h.rets c hc
    | ret v =>
      rw [hctl] at hc
      rcases mem_append.1 hc with hc | hc
      · exact h.rets c hc
      · cases mem_singleton.1 hc
        exact hx'.2 v hctl

theorem Kept.step (h : Kept s r) (he : e.Fits) (hs : step s e = some s') : Kept s' (Note.upd s e s' r) := by
  have hgo : ∀ e : Ev, e.Fits → ∀ s', (e.reader s).map (fun d => s.go d.1 d.2.1 d.2.2) = some s' →
      Kept s' (match e.reader s with | none => r | some d => r.served s.cons d.2.1 (d.2.1.stretch d.2.2 s.cons)) := by
    intro e he s' hs
    obtain ⟨⟨p, x, killed⟩, hd, rfl⟩ := map_eq_some_iff.1 hs
    rw [hd]
    exact h.go (Ev.reader_ok h he hd) p killed
  cases e with
  | key c =>
    cases hs
    obtain ⟨ht, line, hline⟩ := r.line.key_committed c
    refine ⟨h.rep.key c, ?_, h.readers, h.rets⟩
    simp only [Note.upd]
    rw [ht, hline, take_append_of_le_length h.rep.taken_le]
    exact h.data
  | read p n cap killed | resume p killed => exact hgo _ he s' hs

end

end Xv6.Console
