import Xv6.Lib.Count
import Xv6.Lib.Links
import Xv6.Lib.Run

/-!
# The list of buffers (`kernel/bio.c`)

The buffers are linked through `bcache.head`, the one used last in front. A step is one critical section of `bcache.lock` or of the lock
inside a buffer's sleep-lock, or the end of a transfer; any number of callers interleave. A caller gets its buffer in `bget`, waits for
the sleep-lock, holds it, and gives it up in `brelse`, which first releases the sleep-lock and then takes `bcache.lock`.

There are `N` buffers (`NBUF` in the kernel), numbered from 0; the number `N` stands for `bcache.head`.
-/

namespace Xv6.Lru

open Links (Linked walk)
open Count (count)
open Function (update update_self update_of_ne)
open List Nat

/-- `struct buf` (`buf.h`), without its data and its links. -/
structure Buf where
  dev : UInt32 := 0
  blockno : UInt32 := 0
  valid : Bool := false
  refcnt : BitVec 32 := 0
  locked : Bool := false

inductive Phase where
  | waiting
  | holding
  /-- In `brelse`, behind `releasesleep`. -/
  | releasing
  deriving DecidableEq

structure Sys where
  buf : Nat → Buf
  next : Nat → Nat
  prev : Nat → Nat
  /-- The buffer of each caller that has called `bread` and not finished `brelse`. -/
  calls : Nat → Option (Nat × Phase)
  /-- How often the buffer has been pinned and not unpinned. -/
  pins : Nat → Nat

/-- `b->next = head.next; b->prev = &head; head.next->prev = b; head.next = b`. -/
def Sys.pushFront (s : Sys) (head b : Nat) : Sys :=
  let s := { s with next := update s.next b (s.next head) }
  let s := { s with prev := update s.prev b head }
  let s := { s with prev := update s.prev (s.next head) b }
  { s with next := update s.next head b }

/-- `b->next->prev = b->prev; b->prev->next = b->next`. -/
def Sys.unlink (s : Sys) (b : Nat) : Sys :=
  let s := { s with prev := update s.prev (s.next b) (s.prev b) }
  { s with next := update s.next (s.prev b) (s.next b) }

/-- Zeroed memory, with `head` linked to itself. -/
def Sys.zero (N : Nat) : Sys :=
  { buf := fun _ => {}, next := fun _ => N, prev := fun _ => N, calls := fun _ => none, pins := fun _ => 0 }

/-- `binit` (`bio.c:37`). -/
def binit (N : Nat) : Sys := (List.range N).foldl (fun s b => s.pushFront N b) (.zero N)

def Sys.setBuf (s : Sys) (b : Nat) (f : Buf → Buf) : Sys := { s with buf := update s.buf b (f (s.buf b)) }

def Sys.setCall (s : Sys) (c : Nat) (x : Option (Nat × Phase)) : Sys := { s with calls := update s.calls c x }

/-- The first loop of `bget`. -/
def Sys.lookup (s : Sys) (N : Nat) (dev blockno : UInt32) : Option Nat :=
  (walk s.next N (N + 1) (s.next N)).find? fun b => (s.buf b).dev = dev ∧ (s.buf b).blockno = blockno

/-- The second loop of `bget`. -/
def Sys.victim (s : Sys) (N : Nat) : Option Nat := (walk s.prev N (N + 1) (s.prev N)).find? fun b => (s.buf b).refcnt = 0

def Sys.bget (s : Sys) (N c : Nat) (dev blockno : UInt32) : Option Sys :=
  match s.lookup N dev blockno with
  | some b => some ((s.setBuf b fun x => { x with refcnt := x.refcnt + 1 }).setCall c (some (b, .waiting)))
  | none =>
    match s.victim N with
    | some b =>
      some ((s.setBuf b fun x => { x with dev := dev, blockno := blockno, valid := false, refcnt := 1 }).setCall c (some (b, .waiting)))
    | none => none

/-- The critical section of `brelse` (`bio.c:124`). -/
def Sys.drop (s : Sys) (N b : Nat) : Sys :=
  let s := s.setBuf b fun x => { x with refcnt := x.refcnt - 1 }
  if (s.buf b).refcnt = 0 then (s.unlink b).pushFront N b else s

inductive Ev where
  | bget (c : Nat) (dev blockno : UInt32)
  /-- `acquiresleep` gets the lock. -/
  | lock (c : Nat)
  /-- `b->valid = 1` in `bread`, after the transfer. -/
  | fill (c : Nat)
  | bwrite (c : Nat)
  /-- `releasesleep` in `brelse`. -/
  | unlock (c : Nat)
  /-- The rest of `brelse`. -/
  | drop (c : Nat)
  | bpin (b : Nat)
  | bunpin (b : Nat)

def step (N n : Nat) (s : Sys) : Ev → Option Sys
  | .bget c dev blockno => if c < n ∧ s.calls c = none then s.bget N c dev blockno else none
  | .lock c =>
    match s.calls c with
    | some (b, .waiting) =>
      if (s.buf b).locked then none else some ((s.setBuf b fun x => { x with locked := true }).setCall c (some (b, .holding)))
    | _ => none
  | .fill c =>
    match s.calls c with
    | some (b, .holding) => some (s.setBuf b fun x => { x with valid := true })
    | _ => none
  | .bwrite c =>
    match s.calls c with
    | some (_, .holding) => some s
    | _ => none
  | .unlock c =>
    match s.calls c with
    | some (b, .holding) => some ((s.setBuf b fun x => { x with locked := false }).setCall c (some (b, .releasing)))
    | _ => none
  | .drop c =>
    match s.calls c with
    | some (b, .releasing) => some ((s.drop N b).setCall c none)
    | _ => none
  | .bpin b =>
    if b < N then some { s.setBuf b fun x => { x with refcnt := x.refcnt + 1 } with pins := update s.pins b (s.pins b + 1) } else none
  | .bunpin b =>
    if b < N ∧ 0 < s.pins b then
      some { s.setBuf b fun x => { x with refcnt := x.refcnt - 1 } with pins := update s.pins b (s.pins b - 1) }
    else none

/-! ## What is recorded of a run -/

structure Note where
  clock : Nat
  dropped : Nat → Option Nat

def Note.zero : Note := ⟨0, fun _ => none⟩

/-- The buffer that `brelse` brings to 0 in this step. -/
def Ev.drops (s s' : Sys) : Ev → Option Nat
  | .drop c =>
    match s.calls c with
    | some (b, _) => if (s'.buf b).refcnt = 0 then some b else none
    | none => none
  | _ => none

def Note.upd (s : Sys) (e : Ev) (s' : Sys) (r : Note) : Note where
  clock := r.clock + 1
  dropped := match e.drops s s' with
    | some b => update r.dropped b (some r.clock)
    | none => r.dropped

/-- The first time is longer ago; never is longest ago. -/
def Before : Option Nat → Option Nat → Prop
  | none, _ => True
  | some t, some u => t < u
  | some _, none => False

def users (n : Nat) (s : Sys) (b : Nat) : Nat := count (fun x => decide (x.map Prod.fst = some b)) s.calls n

variable {N n b c : Nat} {s s' : Sys} {r : Note} {l : List Nat}

/-! ## The list -/

/-- Through `head` the list goes through `l`, which has every buffer once. -/
structure Ring (N : Nat) (s : Sys) (l : List Nat) : Prop where
  linked : Linked s.next s.prev N l N
  perm : l.Perm (List.range N)

section
variable (h : Ring N s l)
include h

theorem Ring.nodup : l.Nodup := h.perm.nodup_iff.2 nodup_range

theorem Ring.mem_iff : b ∈ l ↔ b < N := h.perm.mem_iff.trans mem_range

theorem Ring.head_not_mem : N ∉ l := fun hm => Nat.lt_irrefl N (h.mem_iff.1 hm)

theorem Ring.length : l.length = N := h.perm.length_eq.trans length_range

theorem Ring.walk_next {fuel : Nat} (hf : N < fuel) : walk s.next N fuel (s.next N) = l :=
  h.linked.walk h.head_not_mem (by rwa [h.length])

theorem Ring.walk_prev {fuel : Nat} (hf : N < fuel) : walk s.prev N fuel (s.prev N) = l.reverse :=
  h.linked.reverse.walk (fun hm => h.head_not_mem (mem_reverse.1 hm)) (by rwa [length_reverse, h.length])

end

theorem linked_pushFront (h : Linked s.next s.prev N l N) (hl : l.Nodup) (hN : N ∉ l) (hb : b ∉ l) (hbN : b ≠ N) :
    Linked (s.pushFront N b).next (s.pushFront N b).prev N (b :: l) N := by
  have hn : (N :: l).Nodup := nodup_cons.2 ⟨hN, hl⟩
  have hp : (l ++ [N]).Nodup := nodup_append_comm.1 hn
  have := h.push (x := b) (by simp [hb, hbN]) hn hp
  simpa [Sys.pushFront, update_of_ne hbN.symm] using this

theorem linked_binit (N k : Nat) (hk : k ≤ N) :
    let s : Sys := (range k).foldl (fun s b => s.pushFront N b) (.zero N)
    Linked s.next s.prev N (range k).reverse N := by
  induction k with
  | zero => exact ⟨rfl, rfl⟩
  | succ k ih =>
    rw [range_succ, foldl_append, reverse_append]
    exact linked_pushFront (ih (by omega)) (nodup_reverse.2 nodup_range) (by simp; omega) (by simp) (by omega)

theorem ring_binit (N : Nat) : Ring N (binit N) (range N).reverse :=
  ⟨linked_binit N N (Nat.le_refl N), reverse_perm _⟩

theorem Ring.toFront (h : Ring N s l) (hb : b < N) : Ring N ((s.unlink b).pushFront N b) (b :: l.erase b) := by
  have hmem : b ∈ l := h.mem_iff.2 hb
  obtain ⟨l1, l2, hb1, hl, he⟩ := exists_erase_eq hmem
  have hnd := h.nodup
  have hN := h.head_not_mem
  rw [hl] at hnd hN
  have hlink := h.linked
  rw [hl, Links.linked_append] at hlink
  have hn : (N :: l1 ++ b :: l2).Nodup := nodup_cons.2 ⟨hN, hnd⟩
  have hp : (l1 ++ b :: l2 ++ [N]).Nodup := nodup_append_comm.1 hn
  have hun : Linked (s.unlink b).next (s.unlink b).prev N (l1 ++ l2) N := by
    have hne : b ≠ s.next b := by
      intro e
      have hm := hlink.2.next_mem
      rw [← e, mem_append, mem_singleton] at hm
      rcases hm with hm | hm
      · exact (nodup_cons.1 (nodup_append.1 hnd).2.1).1 hm
      · omega
    simpa [Sys.unlink, update_of_ne hne] using hlink.1.unlink hlink.2 hn hp
  rw [he]
  have hsub : (l1 ++ l2).Sublist (l1 ++ b :: l2) := (sublist_cons_self b l2).append_left l1
  refine ⟨linked_pushFront hun (hnd.sublist hsub) (fun hm => hN (hsub.subset hm)) ?_ (by omega), ?_⟩
  · rw [← he]
    exact fun hm => h.nodup.not_mem_erase hm
  · rw [← he]
    exact (perm_cons_erase hmem).symm.trans h.perm

theorem Ring.congr (h : Ring N s l) (hn : s'.next = s.next) (hp : s'.prev = s.prev) : Ring N s' l :=
  ⟨by rw [hn, hp]; exact h.linked, h.perm⟩

variable {dev blockno : UInt32} {ph : Phase} {f : Buf → Buf} {e : Ev}

theorem Ring.lookup_eq_some (h : Ring N s l) (hf : s.lookup N dev blockno = some b) :
    b < N ∧ (s.buf b).dev = dev ∧ (s.buf b).blockno = blockno := by
  unfold Sys.lookup at hf
  rw [h.walk_next (lt_succ_self N)] at hf
  exact ⟨h.mem_iff.1 (mem_of_find?_eq_some hf), by simpa using find?_some hf⟩

theorem Ring.lookup_eq_none (h : Ring N s l) (hf : s.lookup N dev blockno = none) (hb : b < N) :
    ¬((s.buf b).dev = dev ∧ (s.buf b).blockno = blockno) := by
  unfold Sys.lookup at hf
  rw [h.walk_next (lt_succ_self N)] at hf
  simpa using find?_eq_none.1 hf b (h.mem_iff.2 hb)

theorem Ring.victim_eq_some (h : Ring N s l) (hf : s.victim N = some b) :
    (s.buf b).refcnt = 0 ∧ ∃ l1 l2, l = l1 ++ b :: l2 ∧ ∀ x ∈ l2, (s.buf x).refcnt ≠ 0 := by
  unfold Sys.victim at hf
  rw [h.walk_prev (lt_succ_self N)] at hf
  obtain ⟨hb, as, bs, hl, hno⟩ := find?_eq_some_iff_append.1 hf
  refine ⟨by simpa using hb, bs.reverse, as.reverse, ?_, fun x hx => by simpa using hno x (mem_reverse.1 hx)⟩
  have := congrArg reverse hl
  simpa using this

/-! ## Callers and counts -/

structure Counted (N n : Nat) (s : Sys) : Prop where
  calls : ∀ c b ph, s.calls c = some (b, ph) → c < n ∧ b < N
  refcnt : ∀ b < N, (s.buf b).refcnt = BitVec.ofNat 32 (users n s b + s.pins b)

theorem users_setCall {x : Option (Nat × Phase)} (hc : c < n) (b : Nat) :
    users n (s.setCall c x) b + (if (s.calls c).map Prod.fst = some b then 1 else 0) =
      users n s b + if x.map Prod.fst = some b then 1 else 0 := by
  have h := Count.count_update (p := fun x : Option (Nat × Phase) => decide (x.map Prod.fst = some b)) (f := s.calls) (v := x) hc
  simp only [decide_eq_true_eq] at h
  exact h

theorem users_take (hc : c < n) (hnone : s.calls c = none) (b : Nat) (ph : Phase) (x : Nat) :
    users n (s.setCall c (some (b, ph))) x = users n s x + if x = b then 1 else 0 := by
  have h := users_setCall (s := s) (x := some (b, ph)) hc x
  simpa [hnone, eq_comm] using h

theorem users_drop (hc : c < n) (hsome : s.calls c = some (b, ph)) (x : Nat) :
    users n (s.setCall c none) x + (if x = b then 1 else 0) = users n s x := by
  have h := users_setCall (s := s) (x := none) hc x
  simpa [hsome, eq_comm] using h

theorem users_phase (hc : c < n) (hsome : s.calls c = some (b, ph)) (ph' : Phase) (x : Nat) :
    users n (s.setCall c (some (b, ph'))) x = users n s x := by
  have h := users_setCall (s := s) (x := some (b, ph')) hc x
  simpa [hsome] using h

theorem ofNat_succ (k : Nat) : BitVec.ofNat 32 k + 1 = BitVec.ofNat 32 (k + 1) := by rw [BitVec.ofNat_add]; rfl

theorem ofNat_pred (k : Nat) : BitVec.ofNat 32 (k + 1) - 1 = BitVec.ofNat 32 k := by rw [← ofNat_succ, BitVec.add_sub_cancel]

theorem Counted.calls_setCall (h : Counted N n s) {x : Option (Nat × Phase)} (hc : c < n) (hx : ∀ b ph, x = some (b, ph) → b < N) :
    ∀ c' b ph, (s.setCall c x).calls c' = some (b, ph) → c' < n ∧ b < N := by
  intro c' b ph hc'
  by_cases he : c' = c
  · subst he
    simp only [Sys.setCall, update_self] at hc'
    exact ⟨hc, hx b ph hc'⟩
  · simp only [Sys.setCall, update_of_ne he] at hc'
    exact h.calls c' b ph hc'

theorem Counted.take (h : Counted N n s) (hc : c < n) (hnone : s.calls c = none) (hb : b < N)
    (hf : (f (s.buf b)).refcnt = (s.buf b).refcnt + 1) : Counted N n ((s.setBuf b f).setCall c (some (b, .waiting))) := by
  refine ⟨h.calls_setCall hc fun b' ph e => by cases e; exact hb, fun x hx => ?_⟩
  have hu := users_take hc hnone b .waiting x
  change (update s.buf b (f (s.buf b)) x).refcnt = BitVec.ofNat 32 (users n (s.setCall c _) x + s.pins x)
  rw [hu]
  by_cases he : x = b
  · subst he
    rw [update_self, hf, h.refcnt x hx, if_pos rfl, ofNat_succ]
    congr 1
    omega
  · rw [update_of_ne he, if_neg he, h.refcnt x hx]
    rfl

theorem Counted.go {ph' : Phase} (h : Counted N n s) (hsome : s.calls c = some (b, ph))
    (hf : (f (s.buf b)).refcnt = (s.buf b).refcnt) : Counted N n ((s.setBuf b f).setCall c (some (b, ph'))) := by
  obtain ⟨hc, hb⟩ := h.calls c b ph hsome
  refine ⟨h.calls_setCall hc fun b' ph e => by cases e; exact hb, fun x hx => ?_⟩
  have hu := users_phase hc hsome ph' x
  change (update s.buf b (f (s.buf b)) x).refcnt = BitVec.ofNat 32 (users n (s.setCall c _) x + s.pins x)
  rw [hu]
  by_cases he : x = b
  · subst he
    rw [update_self, hf, h.refcnt x hx]
  · rw [update_of_ne he, h.refcnt x hx]

theorem Sys.drop_frame (s : Sys) (N b : Nat) :
    (s.drop N b).calls = s.calls ∧ (s.drop N b).pins = s.pins ∧
      (s.drop N b).buf = (s.setBuf b fun x => { x with refcnt := x.refcnt - 1 }).buf := by
  unfold Sys.drop
  dsimp only
  split <;> exact ⟨rfl, rfl, rfl⟩

theorem Counted.drop (h : Counted N n s) (hsome : s.calls c = some (b, ph)) : Counted N n ((s.drop N b).setCall c none) := by
  obtain ⟨hc, hb⟩ := h.calls c b ph hsome
  obtain ⟨hcalls, hpins, hbuf⟩ := s.drop_frame N b
  refine ⟨?_, fun x hx => ?_⟩
  · have := h.calls_setCall (x := none) hc fun _ _ e => by cases e
    simpa only [Sys.setCall, hcalls] using this
  have hu := users_drop hc hsome x
  have hu' : users n ((s.drop N b).setCall c none) x = users n (s.setCall c none) x := by
    simp only [users, Sys.setCall, hcalls]
  rw [hu']
  change ((s.drop N b).buf x).refcnt = BitVec.ofNat 32 (_ + (s.drop N b).pins x)
  rw [hbuf, hpins]
  change (update s.buf b _ x).refcnt = _
  by_cases he : x = b
  · subst he
    rw [if_pos rfl] at hu
    rw [update_self]
    dsimp only
    rw [h.refcnt x hx, ← hu, Nat.add_right_comm]
    exact ofNat_pred _
  · rw [if_neg he] at hu
    rw [update_of_ne he, h.refcnt x hx, ← hu]
    rfl

theorem Counted.pin (h : Counted N n s) {k : Nat}
    (hf : ∀ j, (s.buf b).refcnt = BitVec.ofNat 32 (j + s.pins b) → (f (s.buf b)).refcnt = BitVec.ofNat 32 (j + k)) :
    Counted N n { s.setBuf b f with pins := update s.pins b k } := by
  refine ⟨h.calls, fun x hx => ?_⟩
  change (update s.buf b (f (s.buf b)) x).refcnt = BitVec.ofNat 32 (users n s x + update s.pins b k x)
  by_cases he : x = b
  · subst he
    rw [update_self, update_self]
    exact hf _ (h.refcnt x hx)
  · rw [update_of_ne he, update_of_ne he]
    exact h.refcnt x hx

/-! ## Steps -/

/-- No two buffers are for one block. -/
def Unique (N : Nat) (f : Nat → Buf) : Prop :=
  ∀ a < N, ∀ b < N, (f a).dev ≠ 0 → (f a).dev = (f b).dev → (f a).blockno = (f b).blockno → a = b

/-- The buffers in front have been used later. -/
def Sorted (dropped : Nat → Option Nat) (l : List Nat) : Prop := l.Pairwise fun x y => Before (dropped y) (dropped x)

structure Kept (N n : Nat) (s : Sys) (r : Note) : Prop where
  ring : ∃ l, Ring N s l ∧ Sorted r.dropped l
  past : ∀ b t, r.dropped b = some t → t < r.clock
  unique : Unique N s.buf
  counted : Counted N n s

theorem Unique.setBuf {f : Nat → Buf} {x : Buf} (h : Unique N f) (hd : x.dev = (f b).dev) (hbn : x.blockno = (f b).blockno) :
    Unique N (update f b x) := by
  have hdev : ∀ a, (update f b x a).dev = (f a).dev := by
    intro a
    by_cases he : a = b
    · rw [he, update_self, hd]
    · rw [update_of_ne he]
  have hblock : ∀ a, (update f b x a).blockno = (f a).blockno := by
    intro a
    by_cases he : a = b
    · rw [he, update_self, hbn]
    · rw [update_of_ne he]
  intro a ha a' ha' hne hd' hb'
  rw [hdev, hdev] at hd'
  rw [hdev] at hne
  rw [hblock, hblock] at hb'
  exact h a ha a' ha' hne hd' hb'

theorem Unique.recycle {f : Nat → Buf} {x : Buf} (h : Unique N f) (hno : ∀ a < N, ¬((f a).dev = x.dev ∧ (f a).blockno = x.blockno)) :
    Unique N (update f b x) := by
  intro a ha a' ha' hne hd hb
  by_cases he : a = b <;> by_cases he' : a' = b
  · exact he.trans he'.symm
  · rw [he, update_self, update_of_ne he'] at hd hb
    exact absurd ⟨hd.symm, hb.symm⟩ (hno a' ha')
  · rw [he', update_self, update_of_ne he] at hd hb
    exact absurd ⟨hd, hb⟩ (hno a ha)
  · rw [update_of_ne he, update_of_ne he'] at hd hb
    rw [update_of_ne he] at hne
    exact h a ha a' ha' hne hd hb

theorem Kept.still (h : Kept N n s r) (hn : s'.next = s.next) (hp : s'.prev = s.prev) (hu : Unique N s'.buf) (hc : Counted N n s') :
    Kept N n s' ⟨r.clock + 1, r.dropped⟩ := by
  obtain ⟨l, hl, hs⟩ := h.ring
  exact ⟨⟨l, hl.congr hn hp, hs⟩, fun b t ht => lt_succ_of_lt (h.past b t ht), hu, hc⟩

theorem Sorted.toFront {dropped : Nat → Option Nat} {t : Nat} (h : Sorted dropped l) (hl : l.Nodup) (hpast : ∀ b u, dropped b = some u → u < t)
    (b : Nat) : Sorted (update dropped b (some t)) (b :: l.erase b) := by
  have hne : ∀ x ∈ l.erase b, x ≠ b := fun x hx e => hl.not_mem_erase (e ▸ hx)
  refine pairwise_cons.2 ⟨fun x hx => ?_, ?_⟩
  · rw [update_self, update_of_ne (hne x hx)]
    cases hd : dropped x with
    | none => trivial
    | some u => exact hpast x u hd
  · refine (List.Pairwise.sublist (erase_sublist ..) h).imp_of_mem fun hx hy hxy => ?_
    rwa [update_of_ne (hne _ hx), update_of_ne (hne _ hy)]

theorem Kept.drop (h : Kept N n s r) (hsome : s.calls c = some (b, ph)) :
    Kept N n ((s.drop N b).setCall c none) ⟨r.clock + 1,
      if ((s.drop N b).buf b).refcnt = 0 then update r.dropped b (some r.clock) else r.dropped⟩ := by
  obtain ⟨-, hb⟩ := h.counted.calls c b ph hsome
  obtain ⟨-, -, hbuf⟩ := s.drop_frame N b
  have hu : Unique N (s.drop N b).buf := by
    rw [hbuf]
    exact h.unique.setBuf rfl rfl
  have hc := h.counted.drop hsome
  rw [hbuf]
  by_cases h0 : ((s.setBuf b fun x => { x with refcnt := x.refcnt - 1 }).buf b).refcnt = 0
  · rw [if_pos h0]
    obtain ⟨l, hl, hs⟩ := h.ring
    refine ⟨⟨b :: l.erase b, ?_, hs.toFront hl.nodup h.past b⟩, ?_, hu, hc⟩
    · have hring : Ring N (s.setBuf b fun x => { x with refcnt := x.refcnt - 1 }) l := hl.congr rfl rfl
      refine (hring.toFront hb).congr ?_ ?_
      · simp only [Sys.setCall, Sys.drop, if_pos h0]
      · simp only [Sys.setCall, Sys.drop, if_pos h0]
    · intro x t ht
      dsimp only at ht
      by_cases he : x = b
      · rw [he, update_self] at ht
        cases ht
        exact lt_succ_self _
      · rw [update_of_ne he] at ht
        exact lt_succ_of_lt (h.past x t ht)
  · rw [if_neg h0]
    refine h.still ?_ ?_ hu hc
    · simp only [Sys.setCall, Sys.drop, if_neg h0]
      rfl
    · simp only [Sys.setCall, Sys.drop, if_neg h0]
      rfl

theorem calls_of_step (hs : step N n s e = some s') :
    match e with
    | .bget c dev blockno => c < n ∧ s.calls c = none ∧ s.bget N c dev blockno = some s'
    | .lock c => ∃ b, s.calls c = some (b, .waiting) ∧
        s' = (s.setBuf b fun x => { x with locked := true }).setCall c (some (b, .holding))
    | .fill c => ∃ b, s.calls c = some (b, .holding) ∧ s' = s.setBuf b fun x => { x with valid := true }
    | .bwrite _ => s' = s
    | .unlock c => ∃ b, s.calls c = some (b, .holding) ∧
        s' = (s.setBuf b fun x => { x with locked := false }).setCall c (some (b, .releasing))
    | .drop c => ∃ b, s.calls c = some (b, .releasing) ∧ s' = (s.drop N b).setCall c none
    | .bpin b => b < N ∧
        s' = { s.setBuf b fun x => { x with refcnt := x.refcnt + 1 } with pins := update s.pins b (s.pins b + 1) }
    | .bunpin b => (b < N ∧ 0 < s.pins b) ∧
        s' = { s.setBuf b fun x => { x with refcnt := x.refcnt - 1 } with pins := update s.pins b (s.pins b - 1) } := by
  cases e with
  | bget c dev blockno =>
    simp only [step] at hs ⊢
    split at hs
    · rename_i h
      exact ⟨h.1, h.2, hs⟩
    · cases hs
  | lock c =>
    simp only [step] at hs ⊢
    split at hs
    · rename_i b hb
      split at hs
      · cases hs
      · cases hs
        exact ⟨b, hb, rfl⟩
    · cases hs
  | fill c | unlock c | drop c =>
    simp only [step] at hs ⊢
    split at hs
    · rename_i b hb
      cases hs
      exact ⟨b, hb, rfl⟩
    · cases hs
  | bwrite c =>
    simp only [step] at hs ⊢
    split at hs
    · cases hs
      rfl
    · cases hs
  | bpin b | bunpin b =>
    simp only [step] at hs ⊢
    split at hs
    · rename_i hb
      cases hs
      exact ⟨hb, rfl⟩
    · cases hs

theorem Sys.bget_cases (h : s.bget N c dev blockno = some s') :
    (∃ b, s.lookup N dev blockno = some b ∧
      s' = (s.setBuf b fun x => { x with refcnt := x.refcnt + 1 }).setCall c (some (b, .waiting))) ∨
    ∃ b, s.lookup N dev blockno = none ∧ s.victim N = some b ∧
      s' = (s.setBuf b fun x => { x with dev := dev, blockno := blockno, valid := false, refcnt := 1 }).setCall c (some (b, .waiting)) := by
  unfold Sys.bget at h
  cases hl : s.lookup N dev blockno with
  | some b =>
    rw [hl] at h
    cases h
    exact .inl ⟨b, rfl, rfl⟩
  | none =>
    rw [hl] at h
    cases hv : s.victim N with
    | none => rw [hv] at h; cases h
    | some b =>
      rw [hv] at h
      cases h
      exact .inr ⟨b, rfl, rfl, rfl⟩

theorem Kept.bget (h : Kept N n s r) (hc : c < n) (hnone : s.calls c = none)
    (hs : s.bget N c dev blockno = some s') : Kept N n s' ⟨r.clock + 1, r.dropped⟩ := by
  obtain ⟨l, hl, -⟩ := h.ring
  rcases s.bget_cases hs with ⟨b, hb, rfl⟩ | ⟨b, hno, hb, rfl⟩
  · obtain ⟨hlt, -⟩ := hl.lookup_eq_some hb
    exact h.still rfl rfl (h.unique.setBuf rfl rfl) (h.counted.take hc hnone hlt rfl)
  · obtain ⟨h0, l1, l2, he, -⟩ := hl.victim_eq_some hb
    have hlt : b < N := hl.mem_iff.1 (by rw [he]; simp)
    refine h.still rfl rfl (h.unique.recycle fun a ha => hl.lookup_eq_none hno ha) (h.counted.take hc hnone hlt ?_)
    rw [h0]
    rfl

theorem Kept.step (h : Kept N n s r) (hs : step N n s e = some s') : Kept N n s' (Note.upd s e s' r) := by
  have he := calls_of_step hs
  cases e with
  | bget c dev blockno => exact h.bget he.1 he.2.1 he.2.2
  | lock c | unlock c =>
    obtain ⟨b, hb, rfl⟩ := he
    exact h.still rfl rfl (h.unique.setBuf rfl rfl) (h.counted.go hb rfl)
  | fill c =>
    obtain ⟨b, hb, rfl⟩ := he
    have hc : Counted N n ((s.setBuf b fun x => { x with valid := true }).setCall c (some (b, .holding))) := h.counted.go hb rfl
    have hsame : update s.calls c (some (b, .holding)) = s.calls := by rw [← hb, Function.update_eq_self]
    refine h.still rfl rfl (h.unique.setBuf rfl rfl) ?_
    simpa only [Sys.setCall, hsame, Sys.setBuf] using hc
  | bwrite c =>
    cases he
    exact h.still rfl rfl h.unique h.counted
  | drop c =>
    obtain ⟨b, hb, rfl⟩ := he
    have hk := h.drop hb
    have hd : Ev.drops s ((s.drop N b).setCall c none) (.drop c) = if ((s.drop N b).buf b).refcnt = 0 then some b else none := by
      simp only [Ev.drops, hb]
      rfl
    unfold Note.upd
    rw [hd]
    by_cases h0 : ((s.drop N b).buf b).refcnt = 0
    · rw [if_pos h0] at hk ⊢
      exact hk
    · rw [if_neg h0] at hk ⊢
      exact hk
  | bpin b =>
    obtain ⟨hb, rfl⟩ := he
    refine h.still rfl rfl (h.unique.setBuf rfl rfl) (h.counted.pin fun j hj => ?_)
    rw [hj, ofNat_succ, Nat.add_assoc]
  | bunpin b =>
    obtain ⟨⟨hb, hpos⟩, rfl⟩ := he
    refine h.still rfl rfl (h.unique.setBuf rfl rfl) (h.counted.pin fun j hj => ?_)
    rw [hj, show j + s.pins b = j + (s.pins b - 1) + 1 by omega, ofNat_pred]

theorem foldl_pushFront (k : Nat) :
    let s : Sys := (range k).foldl (fun s b => s.pushFront N b) (.zero N)
    s.buf = (Sys.zero N).buf ∧ s.calls = (Sys.zero N).calls ∧ s.pins = (Sys.zero N).pins := by
  induction k with
  | zero => exact ⟨rfl, rfl, rfl⟩
  | succ k ih =>
    rw [range_succ, foldl_append]
    exact ih

theorem Kept.boot (N n : Nat) : Kept N n (binit N) .zero := by
  obtain ⟨hbuf, hcalls, hpins⟩ := foldl_pushFront N
  refine ⟨⟨_, ring_binit N, ?_⟩, (fun b t ht => by cases ht), ?_, ?_, ?_⟩
  · exact (nodup_reverse.2 nodup_range).imp fun _ => trivial
  · intro a _ b _ hne
    rw [binit, hbuf] at hne
    exact absurd rfl hne
  · intro c b ph hc
    rw [binit, hcalls] at hc
    cases hc
  · intro b _
    have hz : users n (binit N) b = 0 := Count.count_eq_zero.2 fun i _ => by rw [binit, hcalls]; rfl
    rw [hz, binit, hbuf, hpins]
    rfl

theorem step_identity (h : Kept N n s r) (hs : step N n s e = some s') (h0 : (s.buf b).refcnt ≠ 0) :
    (s'.buf b).dev = (s.buf b).dev ∧ (s'.buf b).blockno = (s.buf b).blockno := by
  have hset : ∀ (x : Nat) (y : Buf), y.dev = (s.buf x).dev → y.blockno = (s.buf x).blockno →
      (update s.buf x y b).dev = (s.buf b).dev ∧ (update s.buf x y b).blockno = (s.buf b).blockno := by
    intro x y hd hbn
    by_cases he : b = x
    · rw [he, update_self]
      exact ⟨hd, hbn⟩
    · rw [update_of_ne he]
      exact ⟨rfl, rfl⟩
  have he := calls_of_step hs
  cases e with
  | bget c dev blockno =>
    obtain ⟨l, hl, -⟩ := h.ring
    rcases s.bget_cases he.2.2 with ⟨x, -, rfl⟩ | ⟨x, -, hv, rfl⟩
    · exact hset x _ rfl rfl
    · have hne : b ≠ x := by
        rintro rfl
        exact h0 (hl.victim_eq_some hv).1
      simp only [Sys.setCall, Sys.setBuf, update_of_ne hne, and_self]
  | lock c | fill c | unlock c =>
    obtain ⟨x, -, rfl⟩ := he
    exact hset x _ rfl rfl
  | bwrite c =>
    cases he
    exact ⟨rfl, rfl⟩
  | drop c =>
    obtain ⟨x, -, rfl⟩ := he
    obtain ⟨-, -, hbuf⟩ := s.drop_frame N x
    change ((s.drop N x).buf b).dev = _ ∧ ((s.drop N x).buf b).blockno = _
    rw [hbuf]
    exact hset x _ rfl rfl
  | bpin x | bunpin x =>
    obtain ⟨-, rfl⟩ := he
    exact hset x _ rfl rfl

theorem Kept.victim_oldest (h : Kept N n s r) (hv : s.victim N = some b) :
    (s.buf b).refcnt = 0 ∧ ∀ x < N, x ≠ b → (s.buf x).refcnt = 0 → Before (r.dropped b) (r.dropped x) := by
  obtain ⟨l, hl, hs⟩ := h.ring
  obtain ⟨h0, l1, l2, he, hl2⟩ := hl.victim_eq_some hv
  refine ⟨h0, fun x hx hne hx0 => ?_⟩
  have hmem : x ∈ l1 ++ b :: l2 := he ▸ hl.mem_iff.2 hx
  rw [mem_append, mem_cons] at hmem
  rcases hmem with hm | rfl | hm
  · unfold Sorted at hs
    rw [he, pairwise_append] at hs
    exact hs.2.2 x hm b mem_cons_self
  · exact absurd rfl hne
  · exact absurd hx0 (hl2 x hm)

theorem buffer_cache {es : List Ev} {o : Lts.Noted Sys Note}
    (hr : Lts.run (Lts.noted (step N n) Note.upd) ⟨binit N, .zero⟩ es = some o) :
    (∃ l, l.Perm (range N) ∧ ∀ fuel > N, walk o.now.next N fuel (o.now.next N) = l ∧
      walk o.now.prev N fuel (o.now.prev N) = l.reverse) ∧
    Unique N o.now.buf ∧
    (∀ b < N, (o.now.buf b).refcnt = BitVec.ofNat 32 (users n o.now b + o.now.pins b)) ∧
    (∀ e s', step N n o.now e = some s' → ∀ b < N, (o.now.buf b).refcnt ≠ 0 →
      (s'.buf b).dev = (o.now.buf b).dev ∧ (s'.buf b).blockno = (o.now.buf b).blockno) ∧
    ∀ c dev blockno s' b, step N n o.now (.bget c dev blockno) = some s' → s'.calls c = some (b, .waiting) →
      (∀ x < N, ¬((o.now.buf x).dev = dev ∧ (o.now.buf x).blockno = blockno)) →
      (o.now.buf b).refcnt = 0 ∧ ∀ x < N, x ≠ b → (o.now.buf x).refcnt = 0 → Before (o.note.dropped b) (o.note.dropped x) := by
  have hk : Kept N n o.now o.note := Lts.noted_inv hr (Kept.boot N n) fun _ _ _ _ h hs => h.step hs
  obtain ⟨l, hl, -⟩ := hk.ring
  refine ⟨⟨l, hl.perm, fun fuel hf => ⟨hl.walk_next hf, hl.walk_prev hf⟩⟩, hk.unique, hk.counted.refcnt,
    fun e s' hs b _ h0 => step_identity hk hs h0, fun c dev blockno s' b hs hc hno => ?_⟩
  obtain ⟨-, -, hget⟩ := calls_of_step hs
  rcases Sys.bget_cases hget with ⟨x, hx, rfl⟩ | ⟨x, -, hv, rfl⟩
  · obtain ⟨hlt, hid⟩ := hl.lookup_eq_some hx
    exact absurd hid (hno x hlt)
  · simp only [Sys.setCall, update_self, Option.some.injEq, Prod.mk.injEq, and_true] at hc
    subst hc
    exact hk.victim_oldest hv

def twoBlocks : List Ev := [.bget 0 1 5, .lock 0, .fill 0, .unlock 0, .drop 0, .bget 0 1 6]

theorem buffer_cache_two : ∃ o, Lts.run (Lts.noted (step 2 1) Note.upd) ⟨binit 2, .zero⟩ twoBlocks = some o ∧
    (o.now.buf 0).blockno = 5 ∧ (o.now.buf 1).blockno = 6 ∧ Unique 2 o.now.buf := by
  have hr : (Lts.run (Lts.noted (step 2 1) Note.upd) ⟨binit 2, .zero⟩ twoBlocks).map
      (fun o => ((o.now.buf 0).blockno, (o.now.buf 1).blockno)) = some (5, 6) := by
    decide +kernel
  obtain ⟨o, ho, hd⟩ := Option.map_eq_some_iff.1 hr
  obtain ⟨h₀, h1⟩ := Prod.mk.inj hd
  exact ⟨o, ho, h₀, h1, (buffer_cache ho).2.1⟩

end Xv6.Lru
