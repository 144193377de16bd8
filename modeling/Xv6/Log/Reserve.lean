import Mathlib.Data.Finset.Card
import Xv6.Log.Isolation

/-!
# Does `begin_op` reserve enough log space?

`mkfs` gives the log `LOGSIZE` blocks with the header among them (`mkfs.c:23`), so that `log_write` panics from
`LOGSIZE - 1` listed blocks on, while `begin_op` admits operations up to `LOGSIZE`. Three operations of
`MAXOPBLOCKS` blocks each are admitted together and the last `log_write` panics. What holds is that `log_write`
panics exactly where `LOGSIZE - 1` distinct blocks were logged since the last commit.
-/

namespace Xv6.LogLayer

open List Lts

/-- The blocks logged since the last commit. -/
def Mon.pending (m : Mon) : List Nat := (m.hist.drop m.committed).map fun u => u.2.1

def Room (m : Mon) : Ev → Prop
  | .write _ _ _ => m.pending.toFinset.card < LOGSIZE - 1
  | _ => True

instance (m : Mon) (e : Ev) : Decidable (Room m e) := by
  unfold Room; split <;> infer_instance

structure Tally (m : Mon) (ph : Phase) : Prop where
  group : Group m.sys ph
  size : m.sys.st.log.size = LOGSIZE
  le : m.committed ≤ m.hist.length
  blocks : pastHead (ph.map Prod.snd) = false → ∀ b, b ∈ m.sys.st.log.lh ↔ b ∈ m.pending
  all : pastHead (ph.map Prod.snd) = true → m.committed = m.hist.length
  empty : ph.map Prod.snd = some .erase ∨ ph.map Prod.snd = some .finish → m.sys.st.log.lh = []

section
variable {m m' : Mon} {ph : Phase} {e : Ev} {s' : Sys}

theorem Tally.length (h : Tally m none) : m.sys.st.log.lh.length = m.pending.toFinset.card := by
  rw [← toFinset_card_of_nodup h.group.nodup]
  congr 1
  ext b
  simpa using h.blocks rfl b

theorem Tally.pending_nil (h : Tally m ph) (hp : pastHead (ph.map Prod.snd) = true) : m.pending = [] := by
  simp [Mon.pending, h.all hp]

theorem Tally.same {ph' : Phase} (h : Tally m ph) (hg : Group m'.sys ph') (hh : m'.hist = m.hist)
    (hc : m'.committed = m.committed) (hs : m'.sys.st.log.size = m.sys.st.log.size)
    (hl : m'.sys.st.log.lh = m.sys.st.log.lh) (hp : ph'.map Prod.snd = ph.map Prod.snd) : Tally m' ph' := by
  have hpend : m'.pending = m.pending := by rw [Mon.pending, Mon.pending, hh, hc]
  exact ⟨hg, hs.trans h.size, by rw [hh, hc]; exact h.le, by rw [hp, hl, hpend]; exact h.blocks,
    by rw [hp, hh, hc]; exact h.all, by rw [hp, hl]; exact h.empty⟩

theorem Tally.write {p b : Nat} {x : Block} (h : Tally m none) (hg : Group s' none)
    (hu : m.sys.st.update b x = .ok s'.st) :
    Tally { m with sys := s', hist := m.hist ++ [(m.op p, b, x)] } none := by
  have hpend : Mon.pending { m with sys := s', hist := m.hist ++ [(m.op p, b, x)] } = m.pending ++ [b] := by
    simp [Mon.pending, drop_append_of_le_length h.le]
  have hb := h.blocks rfl
  refine ⟨hg, ?_, by have := h.le; simp; omega, fun _ a => ?_, by simp [pastHead], by simp⟩
  · obtain ⟨-, -, -, ⟨-, e⟩ | ⟨-, e⟩⟩ := update_ok hu <;> rw [e] <;> exact h.size
  · rw [hpend, mem_append, mem_singleton, ← hb]
    obtain ⟨-, -, -, ⟨hm, e⟩ | ⟨hm, e⟩⟩ := update_ok hu <;> rw [e]
    · exact ⟨.inl, fun ha => ha.elim id fun e => e ▸ hm⟩
    · simp

theorem Tally.last {p : Nat} (h : Tally m none) (hg : Group s' (some (p, firstStage m.sys.st.log)))
    (hst : s'.st = { m.sys.st with log := { m.sys.st.log with outstanding := 0, committing := true } }) :
    Tally { m with sys := s' } (some (p, firstStage m.sys.st.log)) := by
  have hb := h.blocks rfl
  refine ⟨hg, by rw [hst]; exact h.size, h.le, ?_, ?_, ?_⟩
  · rw [hst]; exact fun _ => hb
  · unfold firstStage
    split
    · simp [pastHead]
    rename_i hn
    -- the list is empty, so nothing was logged since the last commit
    have hnil : m.sys.st.log.lh = [] := eq_nil_of_length_eq_zero (by omega)
    rw [hnil] at hb
    have hp : m.pending = [] := eq_nil_iff_forall_not_mem.2 fun b hm => by simpa using (hb b).2 hm
    have hd : m.hist.drop m.committed = [] := by simpa [Mon.pending] using hp
    have := drop_eq_nil_iff.1 hd
    have := h.le
    dsimp only
    omega
  · rw [hst]
    unfold firstStage
    split
    · simp
    · exact fun _ => eq_nil_of_length_eq_zero (show m.sys.st.log.lh.length = 0 by omega)

theorem Tally.stage_to {p : Nat} {g g' : Stage} (h : Tally m (some (p, g))) (hgr : Group s' (some (p, g')))
    (hs : s'.st.log.size = m.sys.st.log.size) (hpast : pastHead (some g') = pastHead (some g))
    (hl : s'.st.log.lh = m.sys.st.log.lh ∨ pastHead (some g) = true)
    (he : g' = .erase ∨ g' = .finish → s'.st.log.lh = []) : Tally { m with sys := s' } (some (p, g')) := by
  refine ⟨hgr, hs.trans h.size, h.le, fun hf => ?_, fun ht => h.all (hpast ▸ ht), fun hg => he (by simpa using hg)⟩
  rcases hl with hl | hl
  · rw [show (Mon.sys { m with sys := s' }).st.log.lh = _ from hl]
    exact h.blocks (hpast ▸ hf)
  · exact absurd (hpast.trans hl) (by simpa using hf)

theorem Tally.stage {p : Nat} {g : Stage} (h : Tally m (some (p, g))) (hg : g ≠ .finish)
    (hgr : Group s' (some (p, (m.sys.st.commitStep g).2))) (hp : m.sys.pc p = .commit g)
    (hst : s'.st = (m.sys.st.commitStep g).1) :
    Tally (m.note (.commit p) s') (some (p, (m.sys.st.commitStep g).2)) := by
  by_cases hw : g = .writeHead
  · subst hw
    have hn : m.note (.commit p) s' = { m with sys := s', committed := m.hist.length } := by simp [Mon.note, hp]
    rw [hn]
    exact ⟨hgr, by rw [hst]; exact h.size, Nat.le_refl _, by simp [St.commitStep, pastHead], fun _ => rfl,
      by simp [St.commitStep]⟩
  · have hn : m.note (.commit p) s' = { m with sys := s' } := by simp [Mon.note, hp, hw]
    rw [hn]
    cases g with
    | writeLog t =>
      by_cases ht : t < m.sys.st.log.lh.length <;> simp only [St.commitStep, ht, if_true, if_false] at hgr hst ⊢
      · exact h.stage_to hgr (by rw [hst]; rfl) rfl (.inl (by rw [hst]; rfl)) (by simp)
      · exact h.stage_to hgr (by rw [hst]) rfl (.inl (by rw [hst])) (by simp)
    | writeHead => exact absurd rfl hw
    | install t =>
      by_cases ht : t < m.sys.st.log.lh.length <;> simp only [St.commitStep, ht, if_true, if_false] at hgr hst ⊢
      · exact h.stage_to hgr (by rw [hst]; rfl) rfl (.inr rfl) (by simp)
      · exact h.stage_to hgr (by rw [hst]) rfl (.inr rfl) (by simp)
    | clear => exact h.stage_to hgr (by rw [hst]; rfl) rfl (.inr rfl) fun _ => by rw [hst]; rfl
    | erase => exact h.stage_to hgr (by rw [hst]; rfl) rfl (.inr rfl) fun _ => by rw [hst]; exact h.empty (.inl rfl)
    | finish => exact absurd rfl hg

theorem Tally.done {p : Nat} (h : Tally m (some (p, .finish))) (hg : Group s' none)
    (hst : s'.st = { m.sys.st with log := { m.sys.st.log with committing := false } }) :
    Tally { m with sys := s' } none := by
  refine ⟨hg, by rw [hst]; exact h.size, h.le, fun _ b => ?_, by simp [pastHead], by simp⟩
  rw [show (Mon.pending { m with sys := s' }) = m.pending from rfl, h.pending_nil rfl,
    show s'.st.log.lh = [] by rw [hst]; exact h.empty (.inr rfl)]

theorem Tally.step (h : Tally m ph) (he : m.step e = some m') : ∃ ph', Tally m' ph' := by
  obtain ⟨s', hs, rfl⟩ := mon_step he
  obtain ⟨-, mv⟩ := step_move hs
  have hgr := h.group
  cases mv with
  | @quiet p e s' hev hpn hst hp hpc =>
    have e : m.note e s' = { m with sys := s' } := by
      rcases hev with rfl | rfl
      · rfl
      · have : s'.pc p ≠ .inOp := fun hi => hpn ((hpc p).1.1 hi)
        simp [Mon.note, this]
    rw [e]
    exact ⟨_, h.same (hgr.same (by rw [hst]) (by rw [hst]) hpc (by simp [hp])) rfl rfl (by rw [hst]) (by rw [hst]) rfl⟩
  | @begin p s' hc _ hst hp hn hpc =>
    have hi : s'.pc p = .inOp := (hpc p).1.2 (by simp)
    obtain rfl := hgr.phase_none_of_committing hc
    have e : m.note (.test p) s' = { m with sys := s', op := Function.update m.op p m.nops, nops := m.nops + 1 } := by
      simp [Mon.note, hi]
    rw [e]
    exact ⟨_, h.same (hgr.begin hc hst hp hn hpc) rfl rfl (by rw [hst]) (by rw [hst]) rfl⟩
  | @write p b x s' hp hu hn hpc =>
    obtain rfl := hgr.phase_none hp
    have e : m.note (.write p b x) s' = { m with sys := s', hist := m.hist ++ [(m.op p, b, x)] } := by
      simp [Mon.note, hn]
    exact ⟨_, e ▸ h.write (hgr.write hp hu hn hpc) hu⟩
  | @writePanic p b x msg s' hp hu hst hn hpc =>
    have e : m.note (.write p b x) s' = { m with sys := s' } := by simp [Mon.note, hn]
    obtain ⟨ph', hg'⟩ := group_step hgr hs
    obtain rfl := hgr.phase_none hp
    obtain rfl := hg'.phase_none (hpc ▸ hp)
    rw [e]
    exact ⟨_, h.same hg' rfl rfl (by rw [hst]) (by rw [hst]) rfl⟩
  | @closePanic p s' hp hc =>
    obtain rfl := hgr.phase_none hp
    simp [hgr.phase.1] at hc
  | @leave p s' hp hc ho hst hn hpc =>
    obtain rfl := hgr.phase_none hp
    exact ⟨_, h.same (hgr.leave hp hc hst hn hpc) rfl rfl (by rw [note_sys, hst]) (by rw [note_sys, hst]) rfl⟩
  | @last p s' hp hc ho hst hn hpc =>
    obtain rfl := hgr.phase_none hp
    exact ⟨_, h.last (hgr.last hp ho hst hn hpc) hst⟩
  | @stage p g s' hp hg hst hn hpc =>
    obtain rfl := hgr.phase_some hp
    exact ⟨_, h.stage hg (hgr.stage hst hn hpc) hp hst⟩
  | @done p s' hp hst hn hpc =>
    obtain rfl := hgr.phase_some hp
    have e : m.note (.commit p) s' = { m with sys := s' } := by simp [Mon.note, hp]
    exact ⟨_, e ▸ h.done (hgr.done hst hn hpc) hst⟩
  | @recycle b s' hb hst hn hpc =>
    refine ⟨ph, h.same (hgr.same (by rw [note_sys, hst]) (by rw [note_sys, hst]) ?_ (by simp [hn])) rfl rfl
      (by rw [note_sys, hst]) (by rw [note_sys, hst]) rfl⟩
    rw [note_sys, hpc]
    exact SamePcs.refl _

theorem Tally.panic (h : Tally m ph) (he : m.step e = some m') :
    m'.sys.panic = if Room m e then none else some "too big a transaction" := by
  obtain ⟨s', hs, rfl⟩ := mon_step he
  obtain ⟨-, mv⟩ := step_move hs
  have hgr := h.group
  cases mv with
  | quiet hev _ _ hn _ => rcases hev with rfl | rfl <;> simpa [Room] using hn
  | begin _ _ _ _ hn _ | leave _ _ _ _ hn _ | last _ _ _ _ hn _ | stage _ _ _ hn _ | done _ _ hn _ | recycle _ _ hn _ => simpa [Room] using hn
  | write hp hu hn _ =>
    obtain rfl := hgr.phase_none hp
    have hlt := (update_ok hu).2.1
    rw [h.size, h.length] at hlt
    simpa [Room, hlt] using hn
  | writePanic hp hu _ hn _ =>
    obtain rfl := hgr.phase_none hp
    obtain ⟨L, -, hL, hlen⟩ := hgr.ops
    rcases update_error hu with ⟨hbig, rfl⟩ | ⟨ho, -⟩
    · rw [h.size, h.length] at hbig
      have : ¬ m.pending.toFinset.card < LOGSIZE - 1 := by omega
      simpa [Room, this] using hn
    · -- the caller is inside an operation
      have := length_pos_of_mem ((hL _).2 hp)
      omega
  | closePanic hp hc =>
    obtain rfl := hgr.phase_none hp
    simp [hgr.phase.1] at hc

end

end Xv6.LogLayer
