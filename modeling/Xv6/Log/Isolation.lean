import Xv6.Log.Group

/-!
# A commit writes all finished updates and no unfinished one

A monitor numbers the operations and records every update with the operation that made it. `Durable` follows the
disk through the stages of the commit; it stands for the updates recorded when the last `write_head` of a
transaction was done.
-/

namespace Xv6.LogLayer

open Bytes Writes List
open Function (update update_self update_of_ne)

/-! ## The disk at each stage -/

section
variable {start size : Nat} {D D' : Nat → Block} {st st' : St} {t : Nat}

structure PendingAt (start size : Nat) (D D' : Nat → Block) (t : Nat) (st : St) : Prop
    extends View start size D' st where
  start_eq : st.log.start = start
  size_eq : st.log.size = size
  logged : Logged start size D [] st.dev.disk
  body : ∀ i < t, i < st.log.lh.length → st.dev.disk (start + i + 1) = D' (st.log.block i)

structure CommittedAt (start size : Nat) (D D' : Nat → Block) (t : Nat) (st : St) : Prop where
  start_eq : st.log.start = start
  size_eq : st.log.size = size
  sees : ∀ b, Home start size b → st.dev.read b = D' b
  settled : ∀ b, Home start size b → D b = D' b
  clean : ∀ b, b ∉ st.log.lh.drop t → st.dev.read b = st.dev.disk b
  logged : Logged start size D st.log.lh st.dev.disk

/-- All is installed and `log.lh.n` is 0 in memory. -/
structure ErasedAt (start size : Nat) (D D' : Nat → Block) (st : St) : Prop where
  start_eq : st.log.start = start
  size_eq : st.log.size = size
  sees : ∀ b, Home start size b → st.dev.read b = D' b
  settled : ∀ b, Home start size b → D b = D' b
  clean : ∀ b, st.dev.read b = st.dev.disk b
  empty : st.log.lh = []
  logged : ∃ lh, Logged start size D lh st.dev.disk

def Durable (start size : Nat) (D D' : Nat → Block) (st : St) : Option Stage → Prop
  | none => PendingAt start size D D' 0 st
  | some (.writeLog t) => PendingAt start size D D' t st
  | some .writeHead => PendingAt start size D D' st.log.lh.length st
  | some (.install t) => CommittedAt start size D D' t st
  | some .clear => CommittedAt start size D D' st.log.lh.length st
  | some .erase => ErasedAt start size D D' st
  | some .finish => PendingAt start size D D' 0 st ∧ st.log.lh = []

theorem clean_update {r d : Nat → Block} {a b : Nat} (x : Block) (h : b ≠ a → r b = d b) :
    update r a x b = update d a x b := by
  by_cases e : b = a
  · rw [e, update_self, update_self]
  · rw [update_of_ne e, update_of_ne e]
    exact h e

theorem PendingAt.writeLogAt (h : PendingAt start size D D' t st) (ht : t < st.log.lh.length) :
    PendingAt start size D D' (t + 1) (st.writeLogAt t) := by
  have hi := writeLogAt_issues st t
  have hr : (st.writeLogAt t).dev.read = update st.dev.read (start + t + 1) (st.dev.read (st.log.block t)) := by
    rw [hi.read, h.start_eq]; rfl
  have hd : (st.writeLogAt t).dev.disk = update st.dev.disk (start + t + 1) (st.dev.read (st.log.block t)) := by
    rw [hi.disk, h.start_eq]; rfl
  have hlog : (st.writeLogAt t).log = st.log := rfl
  refine ⟨⟨h.listed, fun b hb => ?_, fun b hb => ?_⟩, h.start_eq, h.size_eq, ?_, fun i hi hn => ?_⟩
  · rw [hr, hd]
    exact clean_update _ fun _ => h.clean b hb
  · rw [hr, update_of_ne (h.listed.log_ne ht hb).symm]
    exact h.sees b hb
  · rw [hd]
    have := h.listed.lt_size ht
    exact h.logged.write_body (by omega) (by omega)
  · rw [hd, hlog]
    rcases Nat.lt_succ_iff_lt_or_eq.1 hi with hi | rfl
    · rw [update_of_ne (by omega)]
      exact h.body i hi hn
    · rw [update_self]
      exact h.sees _ (h.listed.home_block ht)

theorem writeHead_dev (h : st.log.start = start) : ∃ old,
    st.writeHead.dev.read = update st.dev.read start (encodeHead old st.log.lh) ∧
    st.writeHead.dev.disk = update st.dev.disk start (encodeHead old st.log.lh) := by
  have hi := writeHead_issues st
  rw [h] at hi
  exact ⟨_, hi.read, hi.disk⟩

theorem PendingAt.writeHead (h : PendingAt start size D D' st.log.lh.length st) :
    CommittedAt start size D' D' 0 st.writeHead := by
  obtain ⟨old, hr, hd⟩ := writeHead_dev h.start_eq
  refine ⟨h.start_eq, h.size_eq, fun b hb => ?_, fun _ _ => rfl, fun b hb => ?_, ?_⟩
  · rw [hr, update_of_ne hb.2.1]
    exact h.sees b hb
  · rw [hr, hd]
    exact clean_update _ fun _ => h.clean b hb
  · rw [hd]
    refine h.logged.commit D' h.listed (fun i hi => h.body i hi hi) (fun b hb hn => ?_) old
    rw [← h.sees b hb, h.clean b hn]
    exact h.logged.home b hb not_mem_nil

theorem CommittedAt.installAt (h : CommittedAt start size D D' t st) (ht : t < st.log.lh.length) :
    CommittedAt start size D D' (t + 1) (st.installAt false t) := by
  have hi := installAt_issues false st t
  have hhome := h.logged.listed.home_block ht
  -- the log block is read from the cache, which agrees with the disk there
  have hx : st.dev.read (start + t + 1) = D (st.log.block t) := by
    rw [h.clean _ fun hm => ?_]
    · exact h.logged.body t ht
    · exact h.logged.listed.log_ne ht (h.logged.listed.home _ (drop_subset _ _ hm)) rfl
  have hb : st.log.block t ∈ st.log.lh := by
    rw [Log.block, getD_eq_getElem _ _ ht]; exact getElem_mem ht
  rw [h.start_eq, hx] at hi
  refine ⟨h.start_eq, h.size_eq, fun b hb' => ?_, h.settled, fun b hb' => ?_, ?_⟩
  · rw [hi.read, apply_cons, apply_nil]
    by_cases e : b = st.log.block t
    · rw [e, update_self]; exact h.settled _ hhome
    · rw [update_of_ne e]; exact h.sees b hb'
  · rw [hi.read, hi.disk]
    refine clean_update _ fun e => h.clean b ?_
    rw [drop_eq_getElem_cons ht, mem_cons, not_or]
    exact ⟨by rwa [Log.block, getD_eq_getElem _ _ ht] at e, hb'⟩
  · rw [hi.disk]
    exact h.logged.install hb

theorem CommittedAt.clear (h : CommittedAt start size D D' st.log.lh.length st) :
    ErasedAt start size D D' st.clearHead :=
  ⟨h.start_eq, h.size_eq, h.sees, h.settled, fun b => h.clean b (by simp), rfl, _, h.logged⟩

theorem ErasedAt.writeHead (h : ErasedAt start size D D' st) :
    PendingAt start size D D' 0 st.writeHead ∧ st.writeHead.log.lh = [] := by
  obtain ⟨old, hr, hd⟩ := writeHead_dev h.start_eq
  have hl : st.writeHead.log.lh = [] := h.empty
  refine ⟨⟨⟨?_, fun b _ => ?_, fun b hb => ?_⟩, h.start_eq, h.size_eq, ?_, by simp⟩, hl⟩
  · rw [hl]; exact listed_nil _ _
  · rw [hr, hd]
    exact clean_update _ fun _ => h.clean b
  · rw [hr, update_of_ne hb.2.1]
    exact h.sees b hb
  · rw [hd, h.empty]
    exact Logged.clear (fun b hb => by rw [← h.clean, h.sees b hb, h.settled b hb]) old

theorem Durable.step {g : Stage} (h : Durable start size D D' st (some g)) (hg : g ≠ .finish) :
    Durable start size (if g = .writeHead then D' else D) D' (st.commitStep g).1 (some (st.commitStep g).2) := by
  cases g with
  | writeLog t =>
    by_cases ht : t < st.log.lh.length
    · simp only [St.commitStep, ht, if_true, reduceCtorEq, if_false]
      exact PendingAt.writeLogAt h ht
    · simp only [St.commitStep, ht, if_false, reduceCtorEq]
      exact { h with body := fun i hi hn => PendingAt.body h i (by omega) hn }
  | writeHead => exact PendingAt.writeHead h
  | install t =>
    by_cases ht : t < st.log.lh.length
    · simp only [St.commitStep, ht, if_true, reduceCtorEq, if_false]
      exact CommittedAt.installAt h ht
    · simp only [St.commitStep, ht, if_false, reduceCtorEq]
      exact { h with clean := fun b _ => CommittedAt.clean h b (by simp [drop_of_length_le (Nat.not_lt.1 ht)]) }
  | clear => exact CommittedAt.clear h
  | erase => exact ErasedAt.writeHead h
  | finish => exact absurd rfl hg

theorem Durable.logged {g : Option Stage} (h : Durable start size D D' st g) :
    ∃ lh, Logged start size D lh st.dev.disk := by
  match g, h with
  | none, h => exact ⟨_, PendingAt.logged h⟩
  | some (.writeLog _), h => exact ⟨_, PendingAt.logged h⟩
  | some .writeHead, h => exact ⟨_, PendingAt.logged h⟩
  | some (.install _), h => exact ⟨_, CommittedAt.logged h⟩
  | some .clear, h => exact ⟨_, CommittedAt.logged h⟩
  | some .erase, h => exact ErasedAt.logged h
  | some .finish, h => exact ⟨_, PendingAt.logged h.1⟩

theorem Durable.congr {g : Option Stage} (h : Durable start size D D' st g) (h1 : st'.log.start = st.log.start)
    (h2 : st'.log.size = st.log.size) (h3 : st'.log.lh = st.log.lh) (hr : st'.dev.read = st.dev.read)
    (hd : st'.dev.disk = st.dev.disk) : Durable start size D D' st' g := by
  have pend : ∀ {t}, PendingAt start size D D' t st → PendingAt start size D D' t st' := fun h =>
    ⟨⟨h3 ▸ h.listed, by rw [hr, hd, h3]; exact h.clean, hr ▸ h.sees⟩, h1 ▸ h.start_eq, h2 ▸ h.size_eq, hd ▸ h.logged,
      by rw [hd, h3]; simpa only [Log.block, h3] using h.body⟩
  have comm : ∀ {t}, CommittedAt start size D D' t st → CommittedAt start size D D' t st' := fun h =>
    ⟨h1 ▸ h.start_eq, h2 ▸ h.size_eq, hr ▸ h.sees, h.settled, by rw [hr, hd, h3]; exact h.clean,
      by rw [hd, h3]; exact h.logged⟩
  rcases g with - | q
  · exact pend h
  cases q with
  | writeLog => exact pend h
  | writeHead => exact (show PendingAt start size D D' _ st' from h3 ▸ pend h)
  | install => exact comm h
  | clear => exact (show CommittedAt start size D D' _ st' from h3 ▸ comm h)
  | erase => exact ⟨h1 ▸ h.start_eq, h2 ▸ h.size_eq, hr ▸ h.sees, h.settled, by rw [hr, hd]; exact h.clean,
      h3 ▸ h.empty, hd ▸ h.logged⟩
  | finish => exact ⟨pend h.1, h3 ▸ h.2⟩

theorem Durable.clean {p : Nat} {g : Stage} {b : Nat} (h : Durable start size D D' st (some g))
    (hb : b ∉ st.log.lh.drop (released (some (p, g)) st.log.lh.length)) : st.dev.read b = st.dev.disk b := by
  cases g with
  | writeLog t | writeHead => exact (PendingAt.toView h).clean b hb
  | install t | clear => exact CommittedAt.clean h b hb
  | erase => exact ErasedAt.clean h b
  | finish => exact h.1.clean b hb

theorem PendingAt.update {b : Nat} {x : Block} (h : PendingAt start size D D' 0 st) (hb : Home start size b)
    (hu : st.update b x = .ok st') : PendingAt start size D (update D' b x) 0 st' := by
  have hv := (h.toView.update h.size_eq hb hu).1
  refine { hv with start_eq := ?_, size_eq := ?_, logged := ?_, body := by simp }
  all_goals obtain ⟨-, -, -, ⟨-, rfl⟩ | ⟨-, rfl⟩⟩ := update_ok hu
  · exact h.start_eq
  · exact h.start_eq
  · exact h.size_eq
  · exact h.size_eq
  · exact h.logged
  · exact h.logged

end

/-! ## Operations and their updates -/

structure Mon where
  sys : Sys
  op : Nat → Nat
  nops : Nat
  hist : List (Nat × Nat × Block)
  committed : Nat

def Mon.boot (start size : Nat) (disk : Nat → Block) : Mon :=
  { sys := Sys.boot start size disk, op := fun _ => 0, nops := 0, hist := [], committed := 0 }

/-- The record after event `e` has led to `s'`. -/
def Mon.note (m : Mon) (e : Ev) (s' : Sys) : Mon :=
  match e with
  | .test p =>
    if s'.pc p = .inOp then { m with sys := s', op := update m.op p m.nops, nops := m.nops + 1 }
    else { m with sys := s' }
  | .write p b x => if s'.panic = none then { m with sys := s', hist := m.hist ++ [(m.op p, b, x)] } else { m with sys := s' }
  | .commit p => if m.sys.pc p = .commit .writeHead then { m with sys := s', committed := m.hist.length } else { m with sys := s' }
  | _ => { m with sys := s' }

def Mon.step (m : Mon) (e : Ev) : Option Mon := (m.sys.step e).map (m.note e)

def Mon.Unfinished (m : Mon) (o : Nat) : Prop := ∃ p, m.sys.pc p = .inOp ∧ m.op p = o

/-- The home blocks after the first `k` updates. -/
def Mon.after (d0 : Nat → Block) (m : Mon) (k : Nat) : Nat → Block := apply d0 ((m.hist.take k).map Prod.snd)

@[simp] theorem note_sys (m : Mon) (e : Ev) (s' : Sys) : (m.note e s').sys = s' := by
  unfold Mon.note
  split <;> (try split) <;> rfl

theorem mon_step {m m' : Mon} {e : Ev} (h : m.step e = some m') : ∃ s', m.sys.step e = some s' ∧ m' = m.note e s' := by
  simp only [Mon.step, Option.map_eq_some_iff] at h
  obtain ⟨s', h1, rfl⟩ := h
  exact ⟨s', h1, rfl⟩

theorem group_step {s s' : Sys} {e : Ev} {ph : Phase} (h : Group s ph) (he : s.step e = some s') :
    ∃ ph', Group s' ph' := by
  obtain ⟨-, mv⟩ := step_move he
  cases mv with
  | quiet _ _ hst hp hpc => exact ⟨_, h.same (by rw [hst]) (by rw [hst]) hpc (by simp [hp])⟩
  | begin hc _ hst hp hn hpc => exact ⟨_, h.begin hc hst hp hn hpc⟩
  | write hp hu hn hpc => exact ⟨_, h.write hp hu hn hpc⟩
  | writePanic hp hu hst hn hpc =>
    refine ⟨_, h.same (by rw [hst]) (by rw [hst]) (hpc ▸ SamePcs.refl _) ?_⟩
    rcases update_error hu with ⟨-, rfl⟩ | ⟨-, rfl⟩ <;> simp [hn]
  | closePanic hp hc =>
    have := h.phase_none hp
    subst this
    simp [h.phase.1] at hc
  | leave hp hc ho hst hn hpc => exact ⟨_, h.leave hp hc hst hn hpc⟩
  | last hp hc ho hst hn hpc => exact ⟨_, h.last hp ho hst hn hpc⟩
  | stage hp hg hst hn hpc =>
    obtain rfl := h.phase_some hp
    exact ⟨_, h.stage hst hn hpc⟩
  | done hp hst hn hpc =>
    obtain rfl := h.phase_some hp
    exact ⟨_, h.done hst hn hpc⟩
  | recycle hb hst hn hpc => exact ⟨_, h.same (by rw [hst]) (by rw [hst]) (hpc ▸ SamePcs.refl _) (by simp [hn])⟩

/-- From the header write to the end of the commit. -/
def pastHead : Option Stage → Bool
  | some (.install _) | some .clear | some .erase | some .finish => true
  | _ => false

structure Isolated (start size : Nat) (d0 : Nat → Block) (m : Mon) (ph : Phase) : Prop where
  group : Group m.sys ph
  durable : Durable start size (m.after d0 m.committed) (m.after d0 m.hist.length) m.sys.st (ph.map Prod.snd)
  le : m.committed ≤ m.hist.length
  /-- An update not yet committed is to a listed block. -/
  tracked : ∀ u ∈ m.hist.drop m.committed, u.2.1 ∈ m.sys.st.log.lh
  all : pastHead (ph.map Prod.snd) = true → m.committed = m.hist.length
  histLt : ∀ u ∈ m.hist, u.1 < m.nops
  opLt : ∀ p, m.sys.pc p = .inOp → m.op p < m.nops
  fresh : ∀ p, m.sys.pc p = .inOp → ∀ u ∈ m.hist.take m.committed, u.1 ≠ m.op p

section
variable {start size : Nat} {d0 : Nat → Block} {m m' : Mon} {ph : Phase} {s' : Sys}

theorem isolated_boot (h : get32 (d0 start) 0 = 0) : Isolated start size d0 (Mon.boot start size d0) none where
  group := group_boot start size d0
  durable := ⟨⟨listed_nil _ _, fun _ _ => rfl, fun _ _ => rfl⟩, rfl, rfl,
    ⟨decodeHead_of_zero h, listed_nil _ _, by simp, fun _ _ _ => rfl⟩, by simp⟩
  le := Nat.le_refl _
  tracked := by simp [Mon.boot]
  all := by simp [pastHead]
  histLt := by simp [Mon.boot]
  opLt := by simp [Mon.boot, Sys.boot]
  fresh := by simp [Mon.boot, Sys.boot]

section
variable (h : Isolated start size d0 m ph)
include h

theorem Isolated.same {ph' : Phase} (hg : Group s' ph')
    (hd : Durable start size (m.after d0 m.committed) (m.after d0 m.hist.length) s'.st (ph'.map Prod.snd))
    (hl : ∀ u ∈ m.hist.drop m.committed, u.2.1 ∈ s'.st.log.lh)
    (ha : pastHead (ph'.map Prod.snd) = true → m.committed = m.hist.length)
    (hpc : ∀ q, s'.pc q = .inOp → m.sys.pc q = .inOp) : Isolated start size d0 { m with sys := s' } ph' :=
  ⟨hg, hd, h.le, hl, ha, h.histLt, fun p hp => h.opLt p (hpc p hp), fun p hp => h.fresh p (hpc p hp)⟩

theorem Isolated.begin {p : Nat} (hg : Group s' none) (hph : ph = none)
    (hst : s'.st = { m.sys.st with log := { m.sys.st.log with outstanding := m.sys.st.log.outstanding + 1 } })
    (hpc : SamePcs (update m.sys.pc p .inOp) s'.pc) :
    Isolated start size d0 { m with sys := s', op := update m.op p m.nops, nops := m.nops + 1 } none := by
  subst hph
  have hin : ∀ q, q ≠ p → s'.pc q = .inOp → m.sys.pc q = .inOp := fun q hq hi => by
    simpa [hq] using (hpc q).1.1 hi
  refine ⟨hg, ?_, h.le, by rw [hst]; exact h.tracked, by simp [pastHead], fun u hu => ?_, fun q hq => ?_, fun q hq u hu => ?_⟩
  · exact h.durable.congr (by rw [hst]) (by rw [hst]) (by rw [hst]) (by rw [hst]) (by rw [hst])
  · have := h.histLt u hu
    dsimp only; omega
  · by_cases e : q = p
    · subst e; simp
    · have := h.opLt q (hin q e hq)
      simp [e]; omega
  · by_cases e : q = p
    · -- a new operation has a number that no recorded update carries
      have := h.histLt u (mem_of_mem_take hu)
      subst e
      simp only [update_self]
      omega
    · simpa [e] using h.fresh q (hin q e hq) u hu

theorem Isolated.write {p b : Nat} {x : Block} (hg : Group s' none) (hph : ph = none)
    (hp : m.sys.pc p = .inOp) (hb : Home start size b) (hu : m.sys.st.update b x = .ok s'.st) (hpc : s'.pc = m.sys.pc) :
    Isolated start size d0 { m with sys := s', hist := m.hist ++ [(m.op p, b, x)] } none := by
  subst hph
  have hd := PendingAt.update h.durable hb hu
  have hv := (PendingAt.toView h.durable).update
    (PendingAt.size_eq h.durable) hb hu
  have htake : (m.hist ++ [(m.op p, b, x)]).take m.committed = m.hist.take m.committed :=
    take_append_of_le_length h.le
  refine ⟨hg, ?_, by have := h.le; simp; omega, fun u hu => ?_, by simp [pastHead], fun u hu => ?_, fun q hq => ?_,
    fun q hq u hu => ?_⟩
  · have e1 : apply d0 (((m.hist ++ [(m.op p, b, x)]).take m.committed).map Prod.snd) = m.after d0 m.committed := by
      rw [htake]; rfl
    have e2 : apply d0 (((m.hist ++ [(m.op p, b, x)]).take (m.hist ++ [(m.op p, b, x)]).length).map Prod.snd)
        = update (m.after d0 m.hist.length) b x := by
      rw [take_length, map_append, apply_append, Mon.after, take_length]; rfl
    simp only [Durable, Option.map_none, Mon.after]
    rw [e1, e2]
    exact hd
  · rw [drop_append_of_le_length h.le, mem_append, mem_singleton] at hu
    rcases hu with hu | rfl
    · exact hv.2.2 (h.tracked u hu)
    · exact hv.2.1
  · rcases mem_append.1 hu with hu | hu
    · exact h.histLt u hu
    · rw [mem_singleton.1 hu]; exact h.opLt p hp
  · exact h.opLt q (by rw [← hpc]; exact hq)
  · rw [htake] at hu
    exact h.fresh q (by rw [← hpc]; exact hq) u hu

theorem Isolated.last {p : Nat} (hph : ph = none)
    (hg : Group s' (some (p, firstStage m.sys.st.log)))
    (hst : s'.st = { m.sys.st with log := { m.sys.st.log with outstanding := 0, committing := true } })
    (hpc : s'.pc = update m.sys.pc p (.commit (firstStage m.sys.st.log))) :
    Isolated start size d0 { m with sys := s' } (some (p, firstStage m.sys.st.log)) := by
  subst hph
  have hd : Durable start size (m.after d0 m.committed) (m.after d0 m.hist.length) s'.st none :=
    h.durable.congr (by rw [hst]) (by rw [hst]) (by rw [hst]) (by rw [hst]) (by rw [hst])
  refine h.same hg ?_ (by rw [hst]; exact h.tracked) ?_ fun q hq => ?_
  · unfold firstStage
    split
    · exact hd
    · refine ⟨hd, ?_⟩
      rw [hst]
      exact eq_nil_of_length_eq_zero (show m.sys.st.log.lh.length = 0 by omega)
  · unfold firstStage
    split
    · simp [pastHead]
    -- no block is listed, so there is no update to commit
    have hnil : m.sys.st.log.lh = [] := eq_nil_of_length_eq_zero (by omega)
    have := h.tracked
    rw [hnil] at this
    have hdrop : m.hist.drop m.committed = [] := eq_nil_iff_forall_not_mem.2 fun u hu => by simpa using this u hu
    have := h.le
    have := drop_eq_nil_iff.1 hdrop
    omega
  · rw [hpc] at hq
    by_cases e : q = p
    · simp [e] at hq
    · simpa [e] using hq

end

theorem pastHead_of_commitStep {st : St} {g : Stage} (hg : g ≠ .writeHead)
    (h : pastHead (some (st.commitStep g).2) = true) : pastHead (some g) = true := by
  cases g with
  | writeLog t => by_cases ht : t < st.log.lh.length <;> simp [St.commitStep, ht, pastHead] at h
  | writeHead => exact absurd rfl hg
  | install t | clear | erase | finish => rfl

theorem Isolated.stage {p : Nat} {g : Stage} (h : Isolated start size d0 m (some (p, g))) (hg : g ≠ .finish)
    (hgr : Group s' (some (p, (m.sys.st.commitStep g).2))) (hp : m.sys.pc p = .commit g)
    (hst : s'.st = (m.sys.st.commitStep g).1)
    (hpc : s'.pc = update m.sys.pc p (.commit (m.sys.st.commitStep g).2)) :
    Isolated start size d0 (m.note (.commit p) s') (some (p, (m.sys.st.commitStep g).2)) := by
  have hno : ∀ q, s'.pc q ≠ .inOp := fun q hq => by
    have := hgr.phase_none hq
    cases this
  have hd := Durable.step (g := g) h.durable hg
  rw [← hst] at hd
  by_cases e : g = .writeHead
  · subst e
    have hnote : m.note (.commit p) s' = { m with sys := s', committed := m.hist.length } := by simp [Mon.note, hp]
    rw [hnote]
    exact ⟨hgr, hd, Nat.le_refl _, by simp, fun _ => rfl, h.histLt, fun q hq => absurd hq (hno q),
      fun q hq => absurd hq (hno q)⟩
  · have hnote : m.note (.commit p) s' = { m with sys := s' } := by simp [Mon.note, hp, e]
    rw [hnote]
    simp only [e, if_false] at hd
    refine h.same hgr hd ?_ (fun hpast => h.all (pastHead_of_commitStep e hpast)) fun q hq => absurd hq (hno q)
    rw [hst]
    rcases commitStep_cases (p := p) m.sys.st g with ⟨e1, -⟩ | ⟨t, -, -, e1⟩ | ⟨t, -, -, e1⟩ | ⟨rfl, e1⟩ <;> rw [e1]
    · exact h.tracked
    · exact h.tracked
    · exact h.tracked
    · rw [h.all rfl]
      simp

theorem Isolated.step {e : Ev} (h : Isolated start size d0 m ph) (hhome : ∀ p b x, e = .write p b x → Home start size b)
    (he : m.step e = some m') : ∃ ph', Isolated start size d0 m' ph' := by
  obtain ⟨s', hs, rfl⟩ := mon_step he
  obtain ⟨-, mv⟩ := step_move hs
  have hgr := h.group
  cases mv with
  | @quiet p e s' hev hpn hst hp hpc =>
    have e : m.note e s' = { m with sys := s' } := by
      rcases hev with rfl | rfl
      · rfl
      · have : s'.pc p ≠ .inOp := fun hi => hpn ((hpc p).1.1 hi)
        simp [Mon.note, this]
    rw [e]
    exact ⟨_, h.same (hgr.same (by rw [hst]) (by rw [hst]) hpc (by simp [hp])) (hst ▸ h.durable) (hst ▸ h.tracked) h.all
      fun q => (hpc q).1.1⟩
  | @begin p s' hc _ hst hp hn hpc =>
    have hi : s'.pc p = .inOp := (hpc p).1.2 (by simp)
    have hph := hgr.phase_none_of_committing hc
    have e : m.note (.test p) s' = { m with sys := s', op := update m.op p m.nops, nops := m.nops + 1 } := by
      simp [Mon.note, hi]
    exact ⟨_, e ▸ h.begin (hgr.begin hc hst hp hn hpc) hph hst hpc⟩
  | @write p b x s' hp hu hn hpc =>
    have e : m.note (.write p b x) s' = { m with sys := s', hist := m.hist ++ [(m.op p, b, x)] } := by
      simp [Mon.note, hn]
    exact ⟨_, e ▸ h.write (hgr.write hp hu hn hpc) (hgr.phase_none hp) hp (hhome p b x rfl) hu hpc⟩
  | @writePanic p b x msg s' hp hu hst hn hpc =>
    have e : m.note (.write p b x) s' = { m with sys := s' } := by simp [Mon.note, hn]
    have hpan : s'.panic ≠ some "log.committing" := by
      rcases update_error hu with ⟨-, rfl⟩ | ⟨-, rfl⟩ <;> simp [hn]
    rw [e]
    exact ⟨_, h.same (hgr.same (by rw [hst]) (by rw [hst]) (hpc ▸ SamePcs.refl _) hpan) (hst ▸ h.durable) (hst ▸ h.tracked)
      h.all fun q => hpc ▸ id⟩
  | @closePanic p s' hp hc =>
    have := hgr.phase_none hp
    subst this
    simp [hgr.phase.1] at hc
  | @leave p s' hp hc ho hst hn hpc =>
    have hph := hgr.phase_none hp
    subst hph
    refine ⟨_, h.same (hgr.leave hp hc hst hn hpc) ?_ (by rw [hst]; exact h.tracked) h.all fun q hq => ?_⟩
    · exact h.durable.congr (by rw [hst]) (by rw [hst]) (by rw [hst]) (by rw [hst]) (by rw [hst])
    · have := (hpc q).1.1 hq
      by_cases e : q = p
      · simp [e] at this
      · simpa [e] using this
  | @last p s' hp hc ho hst hn hpc => exact ⟨_, h.last (hgr.phase_none hp) (hgr.last hp ho hst hn hpc) hst hpc⟩
  | @stage p g s' hp hg hst hn hpc =>
    obtain rfl := hgr.phase_some hp
    exact ⟨_, h.stage hg (hgr.stage hst hn hpc) hp hst hpc⟩
  | @done p s' hp hst hn hpc =>
    obtain rfl := hgr.phase_some hp
    have e : m.note (.commit p) s' = { m with sys := s' } := by simp [Mon.note, hp]
    rw [e]
    refine ⟨_, h.same (hgr.done hst hn hpc) ?_ (by rw [hst]; exact h.tracked) (by simp [pastHead]) fun q hq => ?_⟩
    · have hd : PendingAt start size (m.after d0 m.committed) (m.after d0 m.hist.length) 0 m.sys.st := h.durable.1
      exact Durable.congr hd (by rw [hst]) (by rw [hst]) (by rw [hst]) (by rw [hst]) (by rw [hst])
    · have := (hpc q).1.1 hq
      by_cases e : q = p
      · simp [e] at this
      · simpa [e] using this
  | @recycle b s' hb hst hn hpc =>
    have hpins := hgr.pins b
    rw [hb] at hpins
    have hnot : b ∉ m.sys.st.log.lh.drop (released ph m.sys.st.log.lh.length) := by
      intro hm
      simp [hm] at hpins
    have hclean : m.sys.st.dev.read b = m.sys.st.dev.disk b := by
      match ph, h.durable, hnot with
      | none, hd, hn => exact (PendingAt.toView hd).clean b hn
      | some (p, g), hd, hn => exact Durable.clean hd hn
    refine ⟨ph, h.same (hgr.same (by rw [hst]) (by rw [hst]) (hpc ▸ SamePcs.refl _) (by simp [hn])) ?_
      (by rw [hst]; exact h.tracked) h.all fun q => hpc ▸ id⟩
    exact h.durable.congr (by rw [hst]) (by rw [hst]) (by rw [hst]) (by rw [hst]; exact recycle_read hclean) (by rw [hst]; rfl)

end

/-! ## Group commit -/

def Sys.Unpinned (s : Sys) (k : Nat) : Prop :=
  (∃ p, s.pc p = .commit (.install k)) ∨ ((∃ p, s.pc p = .commit .clear) ∧ k = s.st.log.lh.length) ∨
    ((∀ p, s.pc p ≠ .commit .clear ∧ ∀ t, s.pc p ≠ .commit (.install t)) ∧ k = 0)

theorem Group.unpinned {s : Sys} {ph : Phase} (h : Group s ph) : s.Unpinned (released ph s.st.log.lh.length) := by
  match ph, h.phase with
  | none, ⟨_, hq⟩ => exact .inr (.inr ⟨fun p => ⟨hq p _, fun t => hq p _⟩, rfl⟩)
  | some (p, g), ⟨_, _, hp, hu⟩ =>
    have hone : ∀ g', g' ≠ g → ∀ q, s.pc q ≠ .commit g' := fun g' hne q hq => by
      rw [hu q g' hq, hp] at hq
      exact hne (Pc.commit.inj hq).symm
    cases g with
    | install t => exact .inl ⟨p, hp⟩
    | clear => exact .inr (.inl ⟨⟨p, hp⟩, rfl⟩)
    | writeLog _ | writeHead | erase | finish => exact .inr (.inr ⟨fun q => ⟨hone _ (by simp) q, fun t => hone _ (by simp) q⟩, rfl⟩)

theorem group_commit (start size : Nat) (d0 : Nat → Block) (es : List Ev) (m : Mon)
    (h : Lts.run Mon.step (Mon.boot start size d0) es = some m) :
    (m.sys.st.log.committing = true → m.sys.st.log.outstanding = 0 ∧ ∀ p, m.sys.pc p ≠ .inOp) ∧
    m.sys.panic ≠ some "log.committing" ∧
    m.sys.st.log.lh.Nodup ∧
    (∃ k, m.sys.Unpinned k ∧ ∀ b, m.sys.st.pin b = if b ∈ m.sys.st.log.lh.drop k then 1 else 0) ∧
    ((∀ p b x, Ev.write p b x ∈ es → Home start size b) → get32 (d0 start) 0 = 0 →
      (∃ lh, Logged start size (m.after d0 m.committed) lh m.sys.st.dev.disk) ∧
      (∀ u ∈ m.hist.take m.committed, ¬ m.Unfinished u.1) ∧
      ∀ p, m.sys.pc p = .commit .finish → m.committed = m.hist.length ∧
        (∀ u ∈ m.hist, ¬ m.Unfinished u.1) ∧
        ∀ b, Home start size b → m.sys.st.dev.disk b = m.after d0 m.hist.length b) := by
  have hgroup : ∃ ph, Group m.sys ph := by
    refine Lts.run_inv (I := fun m : Mon => ∃ ph, Group m.sys ph) ?_ ⟨none, group_boot start size d0⟩
      (Lts.along_of_forall fun _ _ _ => trivial) h
    rintro m e m' ⟨ph, hg⟩ - he
    obtain ⟨s', hs, rfl⟩ := mon_step he
    rw [note_sys]
    exact group_step hg hs
  obtain ⟨ph, hg⟩ := hgroup
  refine ⟨fun hc => ?_, hg.panic, hg.nodup, ⟨_, hg.unpinned, hg.pins⟩, fun hhome h0 => ?_⟩
  · match ph, hg.phase with
    | none, ⟨hc', _⟩ => simp [hc] at hc'
    | some (q, g), ⟨_, ho, _⟩ => exact ⟨ho, fun p hp => by cases hg.phase_none hp⟩
  · have hiso : ∃ ph, Isolated start size d0 m ph := by
      refine Lts.run_inv (I := fun m : Mon => ∃ ph, Isolated start size d0 m ph)
        (C := fun _ e => ∀ p b x, e = .write p b x → Home start size b) ?_ ⟨none, isolated_boot h0⟩
        (Lts.along_of_forall fun e he _ p b x hw => hhome p b x (by rw [← hw]; exact he)) h
      rintro m e m' ⟨ph, hi⟩ hc he
      exact hi.step hc he
    obtain ⟨ph, hi⟩ := hiso
    refine ⟨hi.durable.logged, ?_, fun p hp => ?_⟩
    · rintro u hu ⟨q, hq, e⟩
      exact hi.fresh q hq u hu e.symm
    obtain rfl := hi.group.phase_some hp
    have hall := hi.all rfl
    refine ⟨hall, ?_, fun b hb => ?_⟩
    · rintro u - ⟨q, hq, -⟩
      cases hi.group.phase_none hq
    · rw [← hi.durable.1.sees b hb]
      exact (hi.durable.1.clean b (by rw [hi.durable.2]; simp)).symm

/-- Two operations that share a commit, up to its end. -/
def twoOps : List Ev :=
  [.enter 0, .test 0, .enter 1, .test 1, .write 0 50 fun _ => 7, .write 1 51 fun _ => 8, .close 0, .close 1] ++
    List.replicate 9 (.commit 1)

theorem group_commit_twoOps : ∃ m, Lts.run Mon.step (Mon.boot 2 30 fun _ _ => 0) twoOps = some m ∧
    m.hist.length = 2 ∧ m.committed = 2 ∧ ∀ b, Home 2 30 b → m.sys.st.dev.disk b = m.after (fun _ _ => 0) 2 b := by
  have h : (Lts.run Mon.step (Mon.boot 2 30 fun _ _ => 0) twoOps).map (fun m => (m.sys.pc 1, m.hist.length))
      = some (.commit .finish, 2) := by decide +kernel
  obtain ⟨m, hm, e⟩ := Option.map_eq_some_iff.1 h
  obtain ⟨hpc, hlen⟩ := Prod.mk.inj e
  obtain ⟨-, -, hfin⟩ := (group_commit 2 30 _ twoOps m hm).2.2.2.2
    (by simp only [twoOps, Home]; simp; omega) (by decide +kernel)
  obtain ⟨h1, -, h2⟩ := hfin 1 hpc
  rw [hlen] at h1 h2
  exact ⟨m, hm, hlen, h1, h2⟩

end Xv6.LogLayer
