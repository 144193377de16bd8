import Xv6.Log.Sys

/-!
# Group commit isolates unfinished operations

The invariant is in two parts. `Group` is about the counters, the list and the pins, whatever blocks are logged.
`Durable` follows the disk through the stages of the commit: the first `write_head` is where the updates made so
far become those the disk stands for, and at that stage no process is inside an operation.
-/

namespace Xv6.LogLayer

open Bytes Writes List

/-! ## Counters, list and pins -/

/-- The committing process and its stage, if there is one. -/
abbrev Phase := Option (Nat × Stage)

def InPhase (s : Sys) : Phase → Prop
  | none => s.st.log.committing = false ∧ ∀ q g, s.pc q ≠ .commit g
  | some (p, g) => s.st.log.committing = true ∧ s.st.log.outstanding = 0 ∧ s.pc p = .commit g ∧
      ∀ q g', s.pc q = .commit g' → q = p

/-- How many of the `n` listed blocks `install_trans` has unpinned. -/
def released : Phase → Nat → Nat
  | some (_, .install t), _ => t
  | some (_, .clear), n => n
  | _, _ => 0

structure Group (s : Sys) (ph : Phase) : Prop where
  ops : ∃ L : List Nat, L.Nodup ∧ (∀ q, q ∈ L ↔ s.pc q = .inOp) ∧ L.length = s.st.log.outstanding
  phase : InPhase s ph
  nodup : s.st.log.lh.Nodup
  pins : ∀ b, s.st.pin b = if b ∈ s.st.log.lh.drop (released ph s.st.log.lh.length) then 1 else 0
  panic : s.panic ≠ some "log.committing"

section
variable {s s' : Sys} {ph : Phase} {p : Nat}

theorem group_boot (start size : Nat) (d : Nat → Block) : Group (Sys.boot start size d) none where
  ops := ⟨[], by simp, by simp [Sys.boot], rfl⟩
  phase := ⟨rfl, by simp [Sys.boot]⟩
  nodup := nodup_nil
  pins b := by simp [Sys.boot, boot]
  panic := by simp [Sys.boot]

theorem Group.phase_none (h : Group s ph) (hp : s.pc p = .inOp) : ph = none := by
  obtain ⟨L, -, hL, hlen⟩ := h.ops
  match ph, h.phase with
  | none, _ => rfl
  | some (q, g), ⟨_, ho, _⟩ =>
    have := length_pos_of_mem ((hL p).2 hp)
    omega

theorem Group.phase_none_of_committing (h : Group s ph) (hc : s.st.log.committing = false) : ph = none := by
  match ph, h.phase with
  | none, _ => rfl
  | some (q, g), ⟨hc', _⟩ => simp [hc] at hc'

theorem Group.phase_some {g : Stage} (h : Group s ph) (hp : s.pc p = .commit g) : ph = some (p, g) := by
  match ph, h.phase with
  | none, ⟨_, hq⟩ => exact absurd hp (hq p g)
  | some (q, g'), ⟨_, _, hq, hu⟩ =>
    obtain rfl := hu p g hp
    rw [hq] at hp
    cases hp
    rfl

theorem InPhase.congr (h : InPhase s ph) (hl : s'.st.log = s.st.log) (hpc : SamePcs s.pc s'.pc) : InPhase s' ph := by
  match ph, h with
  | none, ⟨hc, hq⟩ => exact ⟨hl ▸ hc, fun q g e => hq q g (((hpc q).2 g).1 e)⟩
  | some (p, g), ⟨hc, ho, hp, hu⟩ =>
    exact ⟨hl ▸ hc, hl ▸ ho, ((hpc p).2 g).2 hp, fun q g' e => hu q g' (((hpc q).2 g').1 e)⟩

theorem Group.same (h : Group s ph) (hl : s'.st.log = s.st.log) (hpin : s'.st.pin = s.st.pin)
    (hpc : SamePcs s.pc s'.pc) (hpanic : s'.panic ≠ some "log.committing") : Group s' ph := by
  obtain ⟨L, hn, hL, hlen⟩ := h.ops
  exact ⟨⟨L, hn, fun q => (hL q).trans (hpc q).1.symm, hl ▸ hlen⟩, h.phase.congr hl hpc, hl ▸ h.nodup,
    by rw [hl, hpin]; exact h.pins, hpanic⟩

theorem Group.begin (h : Group s ph) (hc : s.st.log.committing = false)
    (hst : s'.st = { s.st with log := { s.st.log with outstanding := s.st.log.outstanding + 1 } })
    (hp : s.pc p = .waiting) (hpanic : s'.panic = none) (hpc : SamePcs (Function.update s.pc p .inOp) s'.pc) :
    Group s' none := by
  obtain rfl := h.phase_none_of_committing hc
  obtain ⟨L, hn, hL, hlen⟩ := h.ops
  have hpL : p ∉ L := fun hm => by have := (hL p).1 hm; simp [hp] at this
  refine ⟨⟨p :: L, nodup_cons.2 ⟨hpL, hn⟩, fun q => ?_, by rw [hst]; simp [hlen]⟩, ⟨by rw [hst]; exact hc, fun q g e => ?_⟩,
    by rw [hst]; exact h.nodup, by rw [hst]; exact h.pins, by simp [hpanic]⟩
  · rw [(hpc q).1, mem_cons, hL]
    by_cases e : q = p <;> simp [e]
  · have := ((hpc q).2 g).1 e
    by_cases e : q = p
    · simp [e] at this
    · exact h.phase.2 q g (by simpa [e] using this)

theorem Group.write {b : Nat} {x : Block} (h : Group s ph) (hp : s.pc p = .inOp)
    (hu : s.st.update b x = .ok s'.st) (hpanic : s'.panic = none) (hpc : s'.pc = s.pc) : Group s' none := by
  obtain rfl := h.phase_none hp
  obtain ⟨L, hn, hL, hlen⟩ := h.ops
  have hpins : ∀ a, s.st.pin a = if a ∈ s.st.log.lh then 1 else 0 := by simpa [released] using h.pins
  obtain ⟨-, -, -, ⟨hb, e⟩ | ⟨hb, e⟩⟩ := update_ok hu
  · refine ⟨⟨L, hn, by rw [hpc]; exact hL, by rw [e]; exact hlen⟩, ⟨by rw [e]; exact h.phase.1, by rw [hpc]; exact h.phase.2⟩,
      by rw [e]; exact h.nodup, by rw [e]; exact h.pins, by simp [hpanic]⟩
  refine ⟨⟨L, hn, by rw [hpc]; exact hL, by rw [e]; exact hlen⟩, ⟨by rw [e]; exact h.phase.1, by rw [hpc]; exact h.phase.2⟩,
    ?_, fun a => ?_, by simp [hpanic]⟩
  · rw [e]
    exact nodup_append.2 ⟨h.nodup, by simp, by grind⟩
  · rw [e]
    by_cases ha : a = b
    · subst ha; simp [released, hpins, hb]
    · simp [released, hpins, ha]

theorem Group.leave (h : Group s ph) (hp : s.pc p = .inOp) (hc : s.st.log.committing = false)
    (hst : s'.st = { s.st with log := { s.st.log with outstanding := s.st.log.outstanding - 1 } })
    (hpanic : s'.panic = none) (hpc : SamePcs (Function.update s.pc p .out) s'.pc) : Group s' none := by
  obtain rfl := h.phase_none hp
  obtain ⟨L, hn, hL, hlen⟩ := h.ops
  refine ⟨⟨L.erase p, hn.erase p, fun q => ?_, ?_⟩, ⟨by rw [hst]; exact hc, fun q g e => ?_⟩,
    by rw [hst]; exact h.nodup, by rw [hst]; exact h.pins, by simp [hpanic]⟩
  · rw [(hpc q).1, hn.mem_erase_iff, hL]
    by_cases e : q = p <;> simp [e]
  · rw [hst, length_erase_of_mem ((hL p).2 hp), hlen]
  · have := ((hpc q).2 g).1 e
    by_cases e : q = p
    · simp [e] at this
    · exact h.phase.2 q g (by simpa [e] using this)

theorem Group.last (h : Group s ph) (hp : s.pc p = .inOp) (ho : s.st.log.outstanding - 1 = 0)
    (hst : s'.st = { s.st with log := { s.st.log with outstanding := 0, committing := true } })
    (hpanic : s'.panic = none) (hpc : s'.pc = Function.update s.pc p (.commit (firstStage s.st.log))) :
    Group s' (some (p, firstStage s.st.log)) := by
  obtain rfl := h.phase_none hp
  obtain ⟨L, hn, hL, hlen⟩ := h.ops
  have hLp : L = [p] := by
    match L, hn, hL, hlen with
    | [], _, hL, _ => exact absurd ((hL p).2 hp) (by simp)
    | [q], _, hL, _ => rw [mem_singleton.1 ((hL p).2 hp)]
    | _ :: _ :: _, _, _, hlen => simp at hlen; omega
  have hrel : released (some (p, firstStage s.st.log)) s.st.log.lh.length = 0 := by
    unfold firstStage; split <;> rfl
  refine ⟨⟨[], by simp, fun q => ?_, by rw [hst]; rfl⟩, ⟨by rw [hst], by rw [hst], by simp [hpc], fun q g e => ?_⟩,
    by rw [hst]; exact h.nodup, by rw [hst, hrel]; exact h.pins, by simp [hpanic]⟩
  · rw [hpc]
    by_cases e : q = p
    · simp [e]
    · have := (hL q).not.1 (by simp [hLp, e])
      simp [e, this]
  · by_contra hne
    exact h.phase.2 q g (by simpa [hpc, hne] using e)

theorem commitStep_cases (st : St) (g : Stage) :
    ((st.commitStep g).1.log = st.log ∧ (st.commitStep g).1.pin = st.pin ∧
      released (some (p, (st.commitStep g).2)) st.log.lh.length = released (some (p, g)) st.log.lh.length) ∨
    (∃ t < st.log.lh.length, g = .install t ∧ st.commitStep g = (st.installAt false t, .install (t + 1))) ∨
    (∃ t, st.log.lh.length ≤ t ∧ g = .install t ∧ st.commitStep g = (st, .clear)) ∨
    (g = .clear ∧ st.commitStep g = (st.clearHead, .erase)) := by
  cases g with
  | writeLog t =>
    left
    by_cases ht : t < st.log.lh.length <;> simp [St.commitStep, ht, St.writeLogAt, released]
  | writeHead | erase | finish => exact .inl ⟨rfl, rfl, rfl⟩
  | install t =>
    by_cases ht : t < st.log.lh.length
    · exact .inr (.inl ⟨t, ht, rfl, by simp [St.commitStep, ht]⟩)
    · exact .inr (.inr (.inl ⟨t, by omega, rfl, by simp [St.commitStep, ht]⟩))
  | clear => exact .inr (.inr (.inr ⟨rfl, rfl⟩))

theorem Group.stage {g : Stage} (h : Group s (some (p, g)))
    (hst : s'.st = (s.st.commitStep g).1) (hpanic : s'.panic = none)
    (hpc : s'.pc = Function.update s.pc p (.commit (s.st.commitStep g).2)) :
    Group s' (some (p, (s.st.commitStep g).2)) := by
  obtain ⟨L, hn, hL, hlen⟩ := h.ops
  obtain ⟨hc, ho, hp, hu⟩ := h.phase
  have hlog : (s.st.commitStep g).1.log.outstanding = s.st.log.outstanding ∧
      (s.st.commitStep g).1.log.committing = s.st.log.committing := by
    rcases commitStep_cases (p := p) s.st g with ⟨e, -⟩ | ⟨t, -, -, e⟩ | ⟨t, -, -, e⟩ | ⟨-, e⟩ <;> rw [e] <;>
      exact ⟨rfl, rfl⟩
  have hpins := h.pins
  refine ⟨⟨L, hn, fun q => ?_, by rw [hst, hlog.1]; exact hlen⟩, ⟨by rw [hst, hlog.2]; exact hc, by rw [hst, hlog.1]; exact ho,
    by simp [hpc], fun q g' e => ?_⟩, ?_, ?_, by simp [hpanic]⟩
  · rw [hL, hpc]
    by_cases e : q = p
    · simp [e, hp]
    · simp [e]
  · by_contra hne
    exact hne (hu q g' (by simpa [hpc, hne] using e))
  · rw [hst]
    rcases commitStep_cases (p := p) s.st g with ⟨e, -⟩ | ⟨t, -, -, e⟩ | ⟨t, -, -, e⟩ | ⟨-, e⟩ <;> rw [e]
    · exact h.nodup
    · exact h.nodup
    · exact h.nodup
    · exact nodup_nil
  · intro b
    rw [hst]
    rcases commitStep_cases s.st g with ⟨e1, e2, e3⟩ | ⟨t, ht, rfl, e⟩ | ⟨t, ht, rfl, e⟩ | ⟨rfl, e⟩
    · rw [e1, e2, e3, hpins]
    · -- the block at `tail` had its one pin
      have hd : s.st.log.lh.drop t = s.st.log.block t :: s.st.log.lh.drop (t + 1) := by
        rw [Log.block, getD_eq_getElem _ _ ht, drop_eq_getElem_cons ht]
      have hnd := h.nodup.sublist (drop_sublist t _)
      have hp' : ∀ a, s.st.pin a = if a ∈ s.st.log.block t :: s.st.log.lh.drop (t + 1) then 1 else 0 := by
        rw [← hd]; exact hpins
      rw [hd, nodup_cons] at hnd
      rw [e]
      simp only [released, St.installAt, Bool.false_eq_true, if_false]
      by_cases hb : b = s.st.log.block t
      · subst hb; simp [hp', hnd.1]
      · simp [hp', hb]
    · rw [e, hpins]
      simp [released, drop_of_length_le ht]
    · rw [e]
      simpa [released, St.clearHead] using hpins b

theorem Group.done (h : Group s (some (p, .finish)))
    (hst : s'.st = { s.st with log := { s.st.log with committing := false } }) (hpanic : s'.panic = none)
    (hpc : SamePcs (Function.update s.pc p .out) s'.pc) : Group s' none := by
  obtain ⟨L, hn, hL, hlen⟩ := h.ops
  obtain ⟨-, -, hp, hu⟩ := h.phase
  refine ⟨⟨L, hn, fun q => ?_, by rw [hst]; exact hlen⟩, ⟨by rw [hst], fun q g e => ?_⟩,
    by rw [hst]; exact h.nodup, by rw [hst]; exact h.pins, by simp [hpanic]⟩
  · rw [(hpc q).1, hL]
    by_cases e : q = p
    · simp [e, hp]
    · simp [e]
  · have := ((hpc q).2 g).1 e
    by_cases e : q = p
    · simp [e] at this
    · exact e (hu q g (by simpa [e] using this))

end

end Xv6.LogLayer
