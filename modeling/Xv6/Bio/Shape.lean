import Mathlib.Algebra.BigOperators.Group.Finset.Basic
import Mathlib.Data.Fintype.Basic
import Xv6.Bio.Obey

/-!
# Buffers, references and locks

No two buffers cache one block, and a buffer that a thread waits for or holds, or that `log_write` has pinned, has a
reference, so that `bget` does not take it for another block.
-/

namespace Xv6.Bio

open Prog Fs
open LogLayer (Log)
open Function (update update_self update_of_ne)
open List

def Wait.At (w : Wait) (i : Nat) : Prop := w = .got i ∨ w = .locked i ∨ w = .freed i

instance (w : Wait) (i : Nat) : Decidable (w.At i) := inferInstanceAs (Decidable (_ ∨ _ ∨ _))

def Wait.count (w : Wait) (i : Nat) : Nat := if w.At i then 1 else 0

section
variable {N : Nat}

def Mach.waits (m : Mach N) (i : Nat) : Nat := ∑ t, (m.thr t).wait.count i

/-- The reference of the thread that has read the buffer and not released it. -/
def Mach.holds (m : Mach N) (i : Nat) : Nat :=
  match (m.buf i).holder with
  | some t => if (m.thr t).wait = .locked i then 0 else 1
  | none => 0

/-- The reference taken by `bpin`, where `pin` are the pinned blocks. -/
def Mach.pins (m : Mach N) (pin : List Nat) (i : Nat) : Nat :=
  match (m.buf i).block with
  | some b => if b ∈ pin then 1 else 0
  | none => 0

/-- What a thread inside `bread` or `brelse` is about. -/
def WaitOk (m : Mach N) (t : Fin N) : Wait → Prop
  | .no => True
  | .got i => i < NBUF ∧ ∃ b k, (m.thr t).prog = .op (.inl (.bread b)) k ∧ (m.buf i).block = some b
  | .locked i => i < NBUF ∧ (m.buf i).holder = some t ∧
      ∃ b k, (m.thr t).prog = .op (.inl (.bread b)) k ∧ (m.buf i).block = some b
  | .freed i => i < NBUF

structure Shape (m : Mach N) (pin : List Nat) : Prop where
  lru : m.lru.Perm (List.range NBUF)
  inj : ∀ i < NBUF, ∀ j < NBUF, ∀ b, (m.buf i).block = some b → (m.buf j).block = some b → i = j
  wait : ∀ t, WaitOk m t (m.thr t).wait
  refs : ∀ i < NBUF, m.waits i + m.holds i + m.pins pin i ≤ (m.buf i).refcnt
  nodup : pin.Nodup
  pinned : ∀ b ∈ pin, ∃ i < NBUF, (m.buf i).block = some b

variable {m m' : Mach N} {pin : List Nat} {t : Fin N} {i b : Nat}

/-! ## Finding buffers -/

theorem Shape.mem_lru (h : Shape m pin) : i ∈ m.lru ↔ i < NBUF := by
  rw [h.lru.mem_iff, mem_range]

theorem Shape.cached_some (h : Shape m pin) (hc : m.cached b = some i) : i < NBUF ∧ (m.buf i).block = some b := by
  have hp := find?_some hc
  exact ⟨h.mem_lru.1 (mem_of_find?_eq_some hc), of_decide_eq_true hp⟩

theorem Shape.cached_none (h : Shape m pin) (hc : m.cached b = none) (hi : i < NBUF) : (m.buf i).block ≠ some b := by
  have := find?_eq_none.1 hc i (h.mem_lru.2 hi)
  simpa using this

theorem Shape.victim_some (h : Shape m pin) (hv : m.victim = some i) : i < NBUF ∧ (m.buf i).refcnt = 0 := by
  have hp := find?_some hv
  have hm := mem_of_find?_eq_some hv
  rw [mem_reverse] at hm
  exact ⟨h.mem_lru.1 hm, of_decide_eq_true hp⟩

theorem Shape.heldBy_some (h : Shape m pin) (hh : m.heldBy t b = some i) :
    i < NBUF ∧ (m.buf i).block = some b ∧ (m.buf i).holder = some t := by
  have hp := find?_some hh
  simp only [Bool.and_eq_true, decide_eq_true_eq] at hp
  exact ⟨h.mem_lru.1 (mem_of_find?_eq_some hh), hp⟩

/-! ## Counting references -/

/-- The references of the threads other than `t`. -/
def Mach.others (m : Mach N) (t : Fin N) (i : Nat) : Nat := ∑ u ∈ Finset.univ.erase t, (m.thr u).wait.count i

theorem waits_eq (m : Mach N) (t : Fin N) (i : Nat) : m.waits i = (m.thr t).wait.count i + m.others t i :=
  (Finset.add_sum_erase _ _ (Finset.mem_univ t)).symm

theorem others_congr (h : ∀ u, u ≠ t → (m'.thr u).wait = (m.thr u).wait) (i : Nat) : m'.others t i = m.others t i :=
  Finset.sum_congr rfl fun u hu => by rw [h u (Finset.ne_of_mem_erase hu)]

theorem Shape.free (h : Shape m pin) (hi : i < NBUF) (h0 : (m.buf i).refcnt = 0) :
    (∀ t, ¬(m.thr t).wait.At i) ∧ (m.buf i).holder = none ∧ ∀ b ∈ pin, (m.buf i).block ≠ some b := by
  have hr := h.refs i hi
  have hw : ∀ t, ¬(m.thr t).wait.At i := by
    intro t ht
    have := waits_eq m t i
    rw [Wait.count, if_pos ht] at this
    omega
  refine ⟨hw, ?_, fun b hb e => ?_⟩
  · cases hh : (m.buf i).holder with
    | none => rfl
    | some t =>
      have hne : (m.thr t).wait ≠ .locked i := fun e => hw t (.inr (.inl e))
      have : m.holds i = 1 := by simp [Mach.holds, hh, hne]
      omega
  · have : m.pins pin i = 1 := by simp [Mach.pins, e, hb]
    omega

/-! ## Steps -/

theorem holds_some {u : Fin N} (h : (m.buf i).holder = some u) :
    m.holds i = if (m.thr u).wait = .locked i then 0 else 1 := by
  rw [Mach.holds, h]

theorem holds_none (h : (m.buf i).holder = none) : m.holds i = 0 := by
  rw [Mach.holds, h]

variable {p : K Unit} {pin' : List Nat} {j : Nat}

theorem Shape.quiet (h : Shape m pin) (hno : (m.thr t).wait = .no)
    (hthr : m'.thr = update m.thr t ⟨p, .no⟩) (hlru : m'.lru = m.lru)
    (hbuf : ∀ j, (m'.buf j).block = (m.buf j).block ∧ (m'.buf j).holder = (m.buf j).holder ∧
      (m'.buf j).refcnt = (m.buf j).refcnt) : Shape m' pin := by
  have hself : m'.thr t = ⟨p, .no⟩ := by rw [hthr, update_self]
  have hother : ∀ u, u ≠ t → m'.thr u = m.thr u := fun u hu => by rw [hthr, update_of_ne hu]
  have hwait : ∀ u, (m'.thr u).wait = (m.thr u).wait := by
    intro u
    by_cases e : u = t
    · subst e; rw [hself, hno]
    · rw [hother u e]
  refine ⟨by rw [hlru]; exact h.lru, fun j hj k hk b h1 h2 => ?_, fun u => ?_, fun j hj => ?_, h.nodup, fun b hb => ?_⟩
  · rw [(hbuf j).1] at h1
    rw [(hbuf k).1] at h2
    exact h.inj j hj k hk b h1 h2
  · by_cases e : u = t
    · subst e; rw [hself]; trivial
    · have hu := h.wait u
      unfold WaitOk at *
      cases hw : (m.thr u).wait <;> simp only [hw, hother u e, hbuf] at hu ⊢ <;> exact hu
  · have h1 : m'.waits j = m.waits j := Finset.sum_congr rfl fun u _ => by rw [hwait]
    have h2 : m'.holds j = m.holds j := by simp only [Mach.holds, hbuf, hwait]
    have h3 : m'.pins pin j = m.pins pin j := by simp only [Mach.pins, hbuf]
    rw [h1, h2, h3, (hbuf j).2.2]
    exact h.refs j hj
  · obtain ⟨j, hj, e⟩ := h.pinned b hb
    exact ⟨j, hj, by rw [(hbuf j).1]; exact e⟩

theorem Shape.touch {w : Wait} (h : Shape m pin) (hi : i < NBUF)
    (hthr : m'.thr = update m.thr t ⟨p, w⟩) (hlru : m'.lru.Perm (range NBUF))
    (hbuf : ∀ j, j ≠ i → m'.buf j = m.buf j) (hblk : (m'.buf i).block = (m.buf i).block)
    (hhold : ∀ u, u ≠ t → (m.buf i).holder = some u → (m'.buf i).holder = some u)
    (hat : ∀ j, j ≠ i → ¬(m.thr t).wait.At j ∧ ¬w.At j) (hw : WaitOk m' t w) (hnd : pin'.Nodup)
    (hpin : ∀ b, (m.buf i).block ≠ some b → (b ∈ pin' ↔ b ∈ pin)) (hrefs : w.count i + m.others t i + m'.holds i + m'.pins pin' i ≤
      (m'.buf i).refcnt) : Shape m' pin' := by
  have hself : m'.thr t = ⟨p, w⟩ := by rw [hthr, update_self]
  have hother : ∀ u, u ≠ t → m'.thr u = m.thr u := fun u hu => by rw [hthr, update_of_ne hu]
  have hothers : ∀ j, m'.others t j = m.others t j := others_congr fun u hu => by rw [hother u hu]
  have hblock : ∀ j, (m'.buf j).block = (m.buf j).block := by
    intro j
    by_cases e : j = i
    · rw [e, hblk]
    · rw [hbuf j e]
  refine ⟨hlru, fun j hj k hk b h1 h2 => ?_, fun u => ?_, fun j hj => ?_, hnd, fun b hb => ?_⟩
  · rw [hblock] at h1 h2
    exact h.inj j hj k hk b h1 h2
  · by_cases e : u = t
    · subst e; rw [hself]; exact hw
    have hu := h.wait u
    rw [hother u e]
    cases hwu : (m.thr u).wait with
    | no => trivial
    | got j =>
      rw [hwu] at hu
      obtain ⟨h1, b, k, h2, h3⟩ := hu
      exact ⟨h1, b, k, by rw [hother u e]; exact h2, by rw [hblock]; exact h3⟩
    | locked j =>
      rw [hwu] at hu
      obtain ⟨h1, hh, b, k, h2, h3⟩ := hu
      refine ⟨h1, ?_, b, k, by rw [hother u e]; exact h2, by rw [hblock]; exact h3⟩
      by_cases ej : j = i
      · subst ej; exact hhold u e hh
      · rw [hbuf j ej]; exact hh
    | freed j =>
      rw [hwu] at hu
      exact hu
  · by_cases ej : j = i
    · subst ej
      rw [waits_eq m' t, hself, hothers]
      exact hrefs
    · obtain ⟨h1, h2⟩ := hat j ej
      have hr := h.refs j hj
      have hc : (m'.thr t).wait.count j = (m.thr t).wait.count j := by
        rw [hself, Wait.count, Wait.count, if_neg h1, if_neg h2]
      have hholds : m'.holds j = m.holds j := by
        unfold Mach.holds
        rw [hbuf j ej]
        cases (m.buf j).holder with
        | none => rfl
        | some u =>
          by_cases e : u = t
          · subst e
            have ha : (m'.thr u).wait ≠ .locked j := by rw [hself]; exact fun e => h2 (.inr (.inl e))
            have hb : (m.thr u).wait ≠ .locked j := fun e => h1 (.inr (.inl e))
            simp only [ha, hb, if_false]
          · simp only [hother u e]
      have hpins : m'.pins pin' j = m.pins pin j := by
        unfold Mach.pins
        rw [hbuf j ej]
        cases hb : (m.buf j).block with
        | none => rfl
        | some b => simp only [hpin b fun e => ej (h.inj j hj i hi b hb e)]
      rw [waits_eq m' t, hc, hothers, hholds, hpins, hbuf j ej, ← waits_eq]
      exact hr
  · by_cases e : (m.buf i).block = some b
    · exact ⟨i, hi, by rw [hblk]; exact e⟩
    · obtain ⟨j, hj, ej⟩ := h.pinned b ((hpin b e).1 hb)
      exact ⟨j, hj, by rw [hblock]; exact ej⟩

theorem at_no (j : Nat) : ¬Wait.no.At j := by
  simp [Wait.At]

theorem at_got (h : j ≠ i) : ¬(Wait.got i).At j := by
  simp [Wait.At, h.symm]

theorem at_locked (h : j ≠ i) : ¬(Wait.locked i).At j := by
  simp [Wait.At, h.symm]

theorem at_freed (h : j ≠ i) : ¬(Wait.freed i).At j := by
  simp [Wait.At, h.symm]

@[simp] theorem count_no (i : Nat) : Wait.no.count i = 0 := by simp [Wait.count, Wait.At]

@[simp] theorem count_got (i : Nat) : (Wait.got i).count i = 1 := by simp [Wait.count, Wait.At]

@[simp] theorem count_locked (i : Nat) : (Wait.locked i).count i = 1 := by simp [Wait.count, Wait.At]

@[simp] theorem count_freed (i : Nat) : (Wait.freed i).count i = 1 := by simp [Wait.count, Wait.At]

theorem holds_congr (hh : (m'.buf i).holder = (m.buf i).holder)
    (hw : ∀ u, (m'.thr u).wait = .locked i ↔ (m.thr u).wait = .locked i) : m'.holds i = m.holds i := by
  unfold Mach.holds
  rw [hh]
  cases (m.buf i).holder with
  | none => rfl
  | some u => simp only [hw u]

theorem pins_congr (hb : (m'.buf i).block = (m.buf i).block)
    (hp : ∀ b, (m.buf i).block = some b → (b ∈ pin' ↔ b ∈ pin)) : m'.pins pin' i = m.pins pin i := by
  unfold Mach.pins
  rw [hb]
  cases h : (m.buf i).block with
  | none => rfl
  | some b => simp only [hp b h]

@[simp] theorem setThr_thr (m : Mach N) (t : Fin N) (p : K Unit) (w : Wait) :
    (m.setThr t p w).thr = update m.thr t ⟨p, w⟩ := rfl

@[simp] theorem setThr_buf (m : Mach N) (t : Fin N) (p : K Unit) (w : Wait) : (m.setThr t p w).buf = m.buf := rfl

@[simp] theorem setThr_lru (m : Mach N) (t : Fin N) (p : K Unit) (w : Wait) : (m.setThr t p w).lru = m.lru := rfl

@[simp] theorem setThr_disk (m : Mach N) (t : Fin N) (p : K Unit) (w : Wait) : (m.setThr t p w).disk = m.disk := rfl

@[simp] theorem setThr_log (m : Mach N) (t : Fin N) (p : K Unit) (w : Wait) : (m.setThr t p w).log = m.log := rfl

@[simp] theorem setBuf_disk (m : Mach N) (i : Nat) (x : Buf N) : (m.setBuf i x).disk = m.disk := rfl

@[simp] theorem setBuf_log (m : Mach N) (i : Nat) (x : Buf N) : (m.setBuf i x).log = m.log := rfl

@[simp] theorem setLog_buf (m : Mach N) (l : Log) : (m.setLog l).buf = m.buf := rfl

@[simp] theorem setLog_disk (m : Mach N) (l : Log) : (m.setLog l).disk = m.disk := rfl

@[simp] theorem setLog_log (m : Mach N) (l : Log) : (m.setLog l).log = l := rfl

@[simp] theorem setBuf_self (m : Mach N) (i : Nat) (x : Buf N) : (m.setBuf i x).buf i = x := update_self _ _ _

theorem setBuf_ne (m : Mach N) (x : Buf N) (h : j ≠ i) : (m.setBuf i x).buf j = m.buf j :=
  update_of_ne h _ _

@[simp] theorem setBuf_thr (m : Mach N) (i : Nat) (x : Buf N) : (m.setBuf i x).thr = m.thr := rfl

@[simp] theorem setBuf_lru (m : Mach N) (i : Nat) (x : Buf N) : (m.setBuf i x).lru = m.lru := rfl

theorem locked_iff {w : Wait} (hthr : m'.thr = update m.thr t ⟨p, w⟩)
    (hw : w = .locked i ↔ (m.thr t).wait = .locked i) (u : Fin N) :
    (m'.thr u).wait = .locked i ↔ (m.thr u).wait = .locked i := by
  by_cases e : u = t
  · subst e; rw [hthr, update_self]; exact hw
  · rw [hthr, update_of_ne e]

theorem Shape.hit {k : Block → K Unit} (h : Shape m pin) (hno : (m.thr t).wait = .no) (hc : m.cached b = some i) :
    Shape ((m.setBuf i { m.buf i with refcnt := (m.buf i).refcnt + 1 }).setThr t (.op (.inl (.bread b)) k) (.got i)) pin := by
  obtain ⟨hi, hb⟩ := h.cached_some hc
  have hr := h.refs i hi
  rw [waits_eq m t, hno, count_no] at hr
  refine h.touch hi rfl h.lru (fun j hj => setBuf_ne _ _ hj) (by simp) (fun u _ hu => by simpa using hu)
    (fun j hj => ⟨by rw [hno]; exact at_no j, at_got hj⟩) ⟨hi, b, k, by simp, by simpa using hb⟩ h.nodup (fun _ _ => Iff.rfl) ?_
  rw [holds_congr (m := m) (by simp) (locked_iff rfl (by simp [hno])), pins_congr (m := m) (by simp) fun _ _ => Iff.rfl]
  simp only [count_got, setThr_buf, setBuf_self]
  omega

theorem Shape.acquire (h : Shape m pin) (hgot : m.thr t = ⟨p, .got i⟩) (hfree : (m.buf i).holder = none) :
    Shape ((m.setBuf i { m.buf i with holder := some t }).setThr t p (.locked i)) pin := by
  have hw := h.wait t
  rw [hgot] at hw
  obtain ⟨hi, b, k, hp, hb⟩ := hw
  rw [hgot] at hp
  have hr := h.refs i hi
  rw [waits_eq m t, hgot, count_got, holds_none hfree] at hr
  refine h.touch hi rfl h.lru (fun j hj => setBuf_ne _ _ hj) (by simp) (fun u _ hu => ?_)
    (fun j hj => ⟨by rw [hgot]; exact at_got hj, at_locked hj⟩) ⟨hi, by simp, b, k, by simpa using hp, by simpa using hb⟩
    h.nodup (fun _ _ => Iff.rfl) ?_
  · rw [hfree] at hu
    cases hu
  · rw [holds_some (u := t) (by simp), pins_congr (m := m) (by simp) fun _ _ => Iff.rfl]
    simp only [count_locked, setThr_buf, setBuf_self, setThr_thr, update_self, if_true]
    omega

theorem Shape.fill {p' : K Unit} {x : Buf N} (h : Shape m pin) (hl : m.thr t = ⟨p, .locked i⟩)
    (hb : x.block = (m.buf i).block) (hh : x.holder = (m.buf i).holder) (hr : x.refcnt = (m.buf i).refcnt) :
    Shape ((m.setBuf i x).setThr t p' .no) pin := by
  have hw := h.wait t
  rw [hl] at hw
  obtain ⟨hi, hhold, -⟩ := hw
  have hrefs := h.refs i hi
  rw [waits_eq m t, hl, count_locked, holds_some hhold, hl, if_pos rfl] at hrefs
  refine h.touch hi rfl h.lru (fun j hj => setBuf_ne _ _ hj) (by simp [hb]) (fun u _ hu => by simpa [hh] using hu)
    (fun j hj => ⟨by rw [hl]; exact at_locked hj, at_no j⟩) trivial h.nodup (fun _ _ => Iff.rfl) ?_
  rw [holds_some (u := t) (by simp [hh, hhold]), pins_congr (m := m) (by simp [hb]) fun _ _ => Iff.rfl]
  simp only [count_no, setThr_buf, setBuf_self, setThr_thr, update_self, hr]
  have : (if Wait.no = Wait.locked i then 0 else 1) = 1 := by simp
  omega

theorem Shape.release (h : Shape m pin) (hno : (m.thr t).wait = .no) (hh : m.heldBy t b = some i) :
    Shape ((m.setBuf i { m.buf i with holder := none }).setThr t p (.freed i)) pin := by
  obtain ⟨hi, -, hhold⟩ := h.heldBy_some hh
  have hrefs := h.refs i hi
  rw [waits_eq m t, hno, count_no, holds_some hhold, hno, if_neg (by simp)] at hrefs
  refine h.touch hi rfl h.lru (fun j hj => setBuf_ne _ _ hj) (by simp) (fun u hu hu' => ?_)
    (fun j hj => ⟨by rw [hno]; exact at_no j, at_freed hj⟩) hi h.nodup (fun _ _ => Iff.rfl) ?_
  · rw [hhold] at hu'
    exact absurd (Option.some.inj hu').symm hu
  · rw [holds_none (by simp), pins_congr (m := m) (by simp) fun _ _ => Iff.rfl]
    simp only [count_freed, setThr_buf, setBuf_self]
    omega

theorem Shape.unref {p' : K Unit} (h : Shape m pin) (hf : m.thr t = ⟨p, .freed i⟩) : Shape (m.unref t i p') pin := by
  have hw := h.wait t
  rw [hf] at hw
  have hi : i < NBUF := hw
  have hrefs := h.refs i hi
  rw [waits_eq m t, hf, count_freed] at hrefs
  have key : ∀ l : List Nat, l.Perm (range NBUF) →
      Shape { (m.setBuf i { m.buf i with refcnt := (m.buf i).refcnt - 1 }).setThr t p' .no with lru := l } pin := by
    intro l hl
    refine h.touch hi rfl hl (fun j hj => setBuf_ne _ _ hj) (by simp) (fun u _ hu => by simpa using hu)
      (fun j hj => ⟨by rw [hf]; exact at_freed hj, at_no j⟩) trivial h.nodup (fun _ _ => Iff.rfl) ?_
    rw [holds_congr (m := m) (by simp) (locked_iff rfl (by simp [hf])), pins_congr (m := m) (by simp) fun _ _ => Iff.rfl]
    simp only [count_no, setThr_buf, setBuf_self]
    omega
  unfold Mach.unref
  split
  · refine key _ ((perm_cons_erase ?_).symm.trans h.lru)
    exact h.mem_lru.2 hi
  · exact key m.lru h.lru

theorem Shape.log {l : Log} {new : Bool} (h : Shape m pin)
    (hno : (m.thr t).wait = .no) (hh : m.heldBy t b = some i)
    (hp : new = false ∧ pin' = pin ∨ new = true ∧ b ∉ pin ∧ pin' = pin ++ [b]) :
    Shape (((m.setBuf i { m.buf i with refcnt := (m.buf i).refcnt + if new then 1 else 0 }).setLog l).setThr t p .no) pin' := by
  obtain ⟨hi, hb, -⟩ := h.heldBy_some hh
  have hrefs := h.refs i hi
  rw [waits_eq m t, hno, count_no] at hrefs
  refine h.touch hi rfl h.lru (fun j hj => setBuf_ne _ _ hj) (by simp [Mach.setLog]) (fun u _ hu => by simpa [Mach.setLog] using hu)
    (fun j hj => ⟨by rw [hno]; exact at_no j, at_no j⟩) trivial ?_ (fun c hc => ?_) ?_
  · rcases hp with ⟨-, rfl⟩ | ⟨-, hn, rfl⟩
    · exact h.nodup
    · exact nodup_append.2 ⟨h.nodup, by simp, fun x hx y hy => by
        rw [mem_singleton.1 hy]; rintro rfl; exact hn hx⟩
  · rcases hp with ⟨-, rfl⟩ | ⟨-, -, rfl⟩
    · exact Iff.rfl
    · have hne : c ≠ b := by
        rintro rfl
        exact hc hb
      simp [hne]
  · rw [holds_congr (m := m) (by simp [Mach.setLog]) (locked_iff rfl (by simp [hno]))]
    rcases hp with ⟨rfl, rfl⟩ | ⟨rfl, hn, rfl⟩
    · rw [pins_congr (m := m) (by simp [Mach.setLog]) fun _ _ => Iff.rfl]
      simpa [Mach.setLog] using hrefs
    · simp only [Mach.pins, Mach.setLog, setThr_buf, setBuf_self, hb, count_no]
      simp only [mem_append, mem_singleton, or_true, if_true]
      omega

theorem Shape.unpin (h : Shape m pin) (hno : (m.thr t).wait = .no) (hh : m.heldBy t b = some i) (hp : b ∈ pin) :
    Shape ((m.setBuf i { m.buf i with refcnt := (m.buf i).refcnt - 1 }).setThr t p .no) (pin.erase b) := by
  obtain ⟨hi, hb, -⟩ := h.heldBy_some hh
  have hrefs := h.refs i hi
  rw [waits_eq m t, hno, count_no] at hrefs
  refine h.touch hi rfl h.lru (fun j hj => setBuf_ne _ _ hj) (by simp) (fun u _ hu => by simpa using hu)
    (fun j hj => ⟨by rw [hno]; exact at_no j, at_no j⟩) trivial (h.nodup.erase b) (fun c hc => ?_) ?_
  · have hne : c ≠ b := by
      rintro rfl
      exact hc hb
    exact mem_erase_of_ne hne
  · have h1 : m.pins pin i = 1 := by simp [Mach.pins, hb, hp]
    rw [holds_congr (m := m) (by simp) (locked_iff rfl (by simp [hno]))]
    simp only [Mach.pins, setThr_buf, setBuf_self, hb, count_no, h.nodup.not_mem_erase, if_false]
    omega

theorem Shape.recycle {k : Block → K Unit} (h : Shape m pin) (hno : (m.thr t).wait = .no) (hc : m.cached b = none)
    (hv : m.victim = some i) :
    Shape ((m.setBuf i { m.buf i with block := some b, valid := false, refcnt := 1 }).setThr t (.op (.inl (.bread b)) k)
      (.got i)) pin := by
  obtain ⟨hi, h0⟩ := h.victim_some hv
  obtain ⟨hfree, hholder, hpin⟩ := h.free hi h0
  have hnew : b ∉ pin := by
    intro hb
    obtain ⟨j, hj, e⟩ := h.pinned b hb
    exact h.cached_none hc hj e
  have hr0 := h.refs i hi
  rw [waits_eq m t, h0] at hr0
  refine ⟨h.lru, fun j hj l hl c h1 h2 => ?_, fun u => ?_, fun j hj => ?_, h.nodup, fun c hc' => ?_⟩
  · have hne : ∀ j < NBUF, j ≠ i → (m.buf j).block = some c → c ≠ b := by
      rintro j hj - e rfl
      exact h.cached_none hc hj e
    by_cases ej : j = i <;> by_cases el : l = i
    · rw [ej, el]
    · subst ej
      rw [setThr_buf, setBuf_ne _ _ el] at h2
      rw [setThr_buf, setBuf_self] at h1
      exact absurd (Option.some.inj h1).symm (hne l hl el h2)
    · subst el
      rw [setThr_buf, setBuf_ne _ _ ej] at h1
      rw [setThr_buf, setBuf_self] at h2
      exact absurd (Option.some.inj h2).symm (hne j hj ej h1)
    · rw [setThr_buf, setBuf_ne _ _ ej] at h1
      rw [setThr_buf, setBuf_ne _ _ el] at h2
      exact h.inj j hj l hl c h1 h2
  · by_cases e : u = t
    · subst e
      simp only [setThr_thr, update_self]
      exact ⟨hi, b, k, by simp, by simp⟩
    · have hu := h.wait u
      have hfu := hfree u
      have hthr : ((m.setBuf i { m.buf i with block := some b, valid := false, refcnt := 1 }).setThr t
          (.op (.inl (.bread b)) k) (.got i)).thr u = m.thr u := by simp [e]
      rw [hthr]
      cases hwu : (m.thr u).wait with
      | no => trivial
      | got j =>
        rw [hwu] at hu hfu
        have hj : j ≠ i := fun e => hfu (.inl (by rw [e]))
        obtain ⟨h1, c, k', h2, h3⟩ := hu
        exact ⟨h1, c, k', by rw [hthr]; exact h2, by rw [setThr_buf, setBuf_ne _ _ hj]; exact h3⟩
      | locked j =>
        rw [hwu] at hu hfu
        have hj : j ≠ i := fun e => hfu (.inr (.inl (by rw [e])))
        obtain ⟨h1, hh, c, k', h2, h3⟩ := hu
        exact ⟨h1, by rw [setThr_buf, setBuf_ne _ _ hj]; exact hh, c, k', by rw [hthr]; exact h2,
          by rw [setThr_buf, setBuf_ne _ _ hj]; exact h3⟩
      | freed j =>
        rw [hwu] at hu
        exact hu
  · rw [waits_eq _ t, others_congr (m := m) fun u hu => by simp [hu]]
    by_cases ej : j = i
    · subst ej
      rw [holds_none (by simpa using hholder)]
      simp [Mach.pins, hnew]
      omega
    · have hr := h.refs j hj
      rw [waits_eq m t, hno, count_no] at hr
      rw [holds_congr (m := m) (by rw [setThr_buf, setBuf_ne _ _ ej]) (locked_iff rfl (by simp [hno])),
        pins_congr (m := m) (by rw [setThr_buf, setBuf_ne _ _ ej]) fun _ _ => Iff.rfl, setThr_buf, setBuf_ne _ _ ej]
      have : (Wait.got i).count j = 0 := by rw [Wait.count, if_neg (at_got ej)]
      simp only [setThr_thr, update_self, this]
      omega
  · obtain ⟨j, hj, e⟩ := h.pinned c hc'
    have hne : j ≠ i := by
      rintro rfl
      exact hpin c hc' e
    exact ⟨j, hj, by rw [setThr_buf, setBuf_ne _ _ hne]; exact e⟩

end

end Xv6.Bio
