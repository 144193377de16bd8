import Xv6.Log.Commit

/-!
# Crash atomicity of the redo log

Transactions run one after the other: `begin_op`, changes of cached blocks recorded with `log_write`, `end_op`
with its commit. The machine may stop after any number of the block writes issued, and then again inside any
number of recoveries. The home blocks that a completed recovery leaves are those of a number of first
transactions, the ones whose first `write_head` is among the writes done.
-/

namespace Xv6.LogLayer

open Bytes Writes List St Nat

/-! ## Transactions -/

inductive Act where
  | write (b : Nat) (x : Block)
  | recycle (b : Nat)

def St.act (s : St) : Act → Except String St
  | .write b x => s.update b x
  | .recycle b => .ok (if s.pin b = 0 then { s with dev := s.dev.recycle b } else s)

def St.acts (s : St) : List Act → Except String St
  | [] => .ok s
  | a :: T => match s.act a with
    | .error e => .error e
    | .ok s' => s'.acts T

def St.record (s : St) (T : List Act) : Except String St :=
  match beginOp s.log with
  | none => .error "sleep"
  | some l => { s with log := l }.acts T

def St.commitOp (s : St) : St × Option Nat :=
  ({ s.commit with log := { s.commit.log with committing := false } },
    if s.log.lh.length > 0 then some s.writeLog.writeHead.dev.writes.length else none)

/-- One transaction with its `end_op` (`log.c:147`). -/
def St.runTxn (s : St) (T : List Act) : Except String (St × Option Nat) :=
  match s.record T with
  | .error e => .error e
  | .ok s' => match endOp s'.log with
    | .error e => .error e
    | .ok (l, false) => .ok ({ s' with log := l }, none)
    | .ok (l, true) => .ok { s' with log := l }.commitOp

/-- A machine that runs the transactions in turn; a panic ends it. -/
def St.transact (s : St) : List (List Act) → St
  | [] => s
  | T :: Ts => match s.runTxn T with
    | .error _ => s
    | .ok (s', _) => s'.transact Ts

def St.commitPoints (s : St) : List (List Act) → List (Option Nat)
  | [] => []
  | T :: Ts => match s.runTxn T with
    | .error _ => none :: Ts.map fun _ => none
    | .ok (s', p) => p :: s'.commitPoints Ts

def updates (T : List Act) : List (Nat × Block) :=
  T.filterMap fun
    | .write b x => some (b, x)
    | .recycle _ => none

def applyAll (D : Nat → Block) (Ts : List (List Act)) : Nat → Block :=
  Ts.foldl (fun D T => apply D (updates T)) D

/-- The disk that a recovery of `d` stopped after `j` block writes leaves. -/
def recoverStopped (start size : Nat) (d : Nat → Block) (j : Nat) : Nat → Block :=
  apply d ((boot start size d).recoverFromLog.dev.writes.take j)

/-! ## Inside a transaction -/

structure Ready (start size : Nat) (D : Nat → Block) (s : St) : Prop where
  log : s.log = { start, size, outstanding := 0, committing := false, lh := [] }
  logged : Logged start size D [] s.dev.disk
  clean : ∀ b, s.dev.read b = s.dev.disk b

structure Open (start size : Nat) (s0 : St) (D : Nat → Block) (s : St) : Prop extends View start size D s where
  log : s.log = { start, size, outstanding := 1, committing := false, lh := s.log.lh }
  disk : s.dev.disk = s0.dev.disk
  writes : s.dev.writes = s0.dev.writes
  pinned : ∀ b ∈ s.log.lh, 0 < s.pin b

section
variable {start size : Nat} {s s' s0 : St} {D : Nat → Block} {T : List Act}

theorem Open.write {b : Nat} {x : Block} (h : Open start size s0 D s) (hb : Home start size b)
    (hu : s.update b x = .ok s') :
    Open start size s0 (Function.update D b x) s' ∧ b ∈ s'.log.lh ∧ s.log.lh ⊆ s'.log.lh := by
  obtain ⟨hv, hm, hsub⟩ := h.toView.update (by rw [h.log]) hb hu
  refine ⟨{ hv with log := ?_, disk := ?_, writes := ?_, pinned := fun a ha => ?_ }, hm, hsub⟩
  all_goals obtain ⟨-, -, -, ⟨hm, rfl⟩ | ⟨hm, rfl⟩⟩ := update_ok hu
  · exact h.log
  · rw [h.log]
  · exact h.disk
  · exact h.disk
  · exact h.writes
  · exact h.writes
  · exact h.pinned a ha
  · by_cases e : a = b
    · simp [e]
    · simp only [mem_append, mem_singleton, e, or_false] at ha
      simpa [e] using h.pinned a ha

theorem Open.recycle {b : Nat} (h : Open start size s0 D s) (hp : s.pin b = 0) :
    Open start size s0 D { s with dev := s.dev.recycle b } := by
  have hb : b ∉ s.log.lh := fun hm => by have := h.pinned b hm; omega
  have hr := recycle_read (h.clean b hb)
  exact ⟨⟨h.listed, hr ▸ h.clean, hr ▸ h.sees⟩, h.log, h.disk, h.writes, h.pinned⟩

theorem Open.acts : ∀ {T : List Act} {s : St} {D : Nat → Block}, Open start size s0 D s →
    (∀ w ∈ updates T, Home start size w.1) → s.acts T = .ok s' →
    Open start size s0 (apply D (updates T)) s' ∧ s.log.lh ⊆ s'.log.lh ∧ ∀ w ∈ updates T, w.1 ∈ s'.log.lh
  | [], s, D, h, _, ha => by
    cases ha
    exact ⟨h, List.Subset.refl _, by simp [updates]⟩
  | .write b x :: T, s, D, h, hT, ha => by
    simp only [St.acts, St.act] at ha
    split at ha
    · cases ha
    case h_2 s1 hu =>
      have hT' : ∀ w ∈ (b, x) :: updates T, Home start size w.1 := hT
      obtain ⟨h1, hb, hs⟩ := h.write (hT' (b, x) (by simp)) hu
      obtain ⟨h2, hs', hm⟩ := Open.acts h1 (fun w hw => hT' w (by simp [hw])) ha
      refine ⟨h2, List.Subset.trans hs hs', fun w hw => ?_⟩
      rcases mem_cons.1 hw with rfl | hw
      · exact hs' hb
      · exact hm w hw
  | .recycle b :: T, s, D, h, hT, ha => by
    simp only [St.acts, St.act] at ha
    have hT' : ∀ w ∈ updates T, Home start size w.1 := hT
    split at ha
    · have hT := Open.acts (h.recycle ‹_›) hT' ha
      exact hT
    · have hT := Open.acts h hT' ha
      exact hT

theorem Ready.record (h : Ready start size D s) (hT : ∀ w ∈ updates T, Home start size w.1)
    (hr : s.record T = .ok s') :
    Open start size s (apply D (updates T)) s' ∧ (s'.log.lh = [] → updates T = []) := by
  have hb : beginOp s.log = some { s.log with outstanding := 1 } := by rw [h.log]; rfl
  rw [St.record, hb] at hr
  have h0 : Open start size s D { s with log := { s.log with outstanding := 1 } } := by
    refine ⟨⟨?_, fun b _ => h.clean b, fun b hb => ?_⟩, ?_, rfl, rfl, ?_⟩
    · rw [h.log]; exact listed_nil start size
    · rw [h.clean b]; exact h.logged.home b hb not_mem_nil
    · rw [h.log]
    · rw [h.log]; simp
  obtain ⟨h1, -, hm⟩ := h0.acts hT hr
  refine ⟨h1, fun he => eq_nil_iff_forall_not_mem.2 fun w hw => ?_⟩
  have := hm w hw
  rw [he] at this
  exact not_mem_nil this

/-! ## One transaction -/

inductive TxnWrites (start size : Nat) (D D' d : Nat → Block) (ws : List (Nat × Block)) (s' : St) : Option Nat → Prop
  | empty (disk : s'.dev.disk = d) (writes : s'.dev.writes = ws) : TxnWrites start size D D' d ws s' none
  | commit (A : List (Nat × Block)) (h : Nat × Block) (B : List (Nat × Block))
      (disk : s'.dev.disk = apply d (A ++ [h] ++ B)) (writes : s'.dev.writes = ws ++ (A ++ [h] ++ B))
      (before : AtStops (Logged start size D []) d A)
      (after : AtStops (fun d => ∃ lh, Logged start size D' lh d) (apply d (A ++ [h])) B) :
      TxnWrites start size D D' d ws s' (some (ws.length + A.length + 1))

theorem commitOp_spec {D' : Nat → Block} (hlog : s.log = { s.log with outstanding := 0, committing := true })
    (hl : Listed s.log.start s.log.size s.log.lh) (hd : Logged s.log.start s.log.size D [] s.dev.disk)
    (hc : ∀ b, b ∉ s.log.lh → s.dev.read b = s.dev.disk b)
    (hD : ∀ b, Home s.log.start s.log.size b → s.dev.read b = D' b) :
    Ready s.log.start s.log.size D' s.commitOp.1 ∧ (s.commitOp.2 = none → s.log.lh = []) ∧
      TxnWrites s.log.start s.log.size D D' s.dev.disk s.dev.writes s.commitOp.1 s.commitOp.2 := by
  by_cases hnil : s.log.lh = []
  · have hcm : s.commit = s := by simp [commit, hnil]
    have hpt : s.commitOp.2 = none := by simp [commitOp, hnil]
    refine ⟨⟨?_, ?_, ?_⟩, fun _ => hnil, hpt ▸ .empty ?_ ?_⟩ <;> simp only [commitOp, hcm]
    · rw [hlog, hnil]
    · exact hd.congr fun b hb =>
        (hd.home b hb not_mem_nil).symm.trans ((hc b (by simp [hnil])).symm.trans (hD b hb))
    · exact fun b => hc b (by simp [hnil])
  · obtain ⟨A, h, B, c⟩ := commit_spec hl hnil hd hc
    have hpt : s.commitOp.2 = some (s.dev.writes.length + A.length + 1) := by
      simp only [commitOp, length_pos_of_ne_nil hnil, if_true, c.header.writes]
      simp; omega
    refine ⟨⟨?_, c.logged.congr hD, c.clean⟩, by simp [hpt], hpt ▸ .commit A h B c.issues.disk c.issues.writes c.before ?_⟩
    · simp only [commitOp, c.log]
      rw [hlog]
    · refine c.after.mono ?_
      rintro d ⟨lh, hd⟩
      exact ⟨lh, hd.congr hD⟩

theorem runTxn_spec {p : Option Nat} (h : Ready start size D s) (hT : ∀ w ∈ updates T, Home start size w.1)
    (hr : s.runTxn T = .ok (s', p)) :
    Ready start size (apply D (updates T)) s' ∧ (p = none → updates T = []) ∧
      TxnWrites start size D (apply D (updates T)) s.dev.disk s.dev.writes s' p := by
  unfold runTxn at hr
  split at hr
  · cases hr
  case h_2 s1 hrec =>
    obtain ⟨o, hnil⟩ := h.record hT hrec
    have e1 : s1.log.start = start := by rw [o.log]
    have e2 : s1.log.size = size := by rw [o.log]
    subst e1 e2
    have hend : endOp s1.log = .ok ({ s1.log with outstanding := 0, committing := true }, true) := by
      rw [o.log]; rfl
    rw [hend] at hr
    have c := commitOp_spec (s := { s1 with log := { s1.log with outstanding := 0, committing := true } })
      rfl o.listed (o.disk ▸ h.logged) o.clean o.sees
    rw [Except.ok.inj hr] at c
    obtain ⟨c1, c2, c3⟩ := c
    exact ⟨c1, fun hp => hnil (c2 hp), o.disk ▸ o.writes ▸ c3⟩

/-! ## Whole runs -/

theorem commitPoints_gt : ∀ {Ts : List (List Act)} {s : St} {D : Nat → Block} {w : Nat}, Ready start size D s →
    (∀ T ∈ Ts, ∀ w ∈ updates T, Home start size w.1) → some w ∈ s.commitPoints Ts → s.dev.writes.length < w
  | [], _, _, _, _, _, hw => by simp [commitPoints] at hw
  | T :: Ts, s, D, w, h, hT, hw => by
    unfold commitPoints at hw
    split at hw
    · simp at hw
    case h_2 s' p hr =>
      obtain ⟨h', -, hp⟩ := runTxn_spec h (hT T (by simp)) hr
      have hlen : s.dev.writes.length ≤ s'.dev.writes.length := by
        cases hp with
        | empty _ e => exact e ▸ Nat.le_refl _
        | commit A hd B _ e => rw [e, length_append]; omega
      rcases mem_cons.1 hw with rfl | hw
      · cases hp with
        | commit => omega
      · have := commitPoints_gt h' (fun T hT' => hT T (by simp [hT'])) hw
        omega

theorem transact_stops : ∀ (Ts : List (List Act)) {s : St} {D : Nat → Block}, Ready start size D s →
    (∀ T ∈ Ts, ∀ w ∈ updates T, Home start size w.1) →
    ∃ W, (s.transact Ts).dev.writes = s.dev.writes ++ W ∧ ∀ j, ∃ k ≤ Ts.length,
      (∃ lh, Logged start size (applyAll D (Ts.take k)) lh (apply s.dev.disk (W.take j))) ∧
      ∀ i T, Ts[i]? = some T → updates T ≠ [] →
        (i < k ↔ ∃ w ≤ s.dev.writes.length + j, (s.commitPoints Ts)[i]? = some (some w))
  | [], s, D, h, _ => ⟨[], by simp [transact], fun j => ⟨0, Nat.le_refl _, ⟨[], by simpa [applyAll] using h.logged⟩,
      fun i T hi => by simp at hi⟩⟩
  | T :: Ts, s, D, h, hT => by
    unfold transact commitPoints
    cases hr : s.runTxn T with
    | error e =>
      refine ⟨[], by simp, fun j => ⟨0, zero_le _, ⟨[], by simpa [applyAll] using h.logged⟩, fun i T' hi _ => ?_⟩⟩
      simp only [not_lt_zero, false_iff, not_exists, not_and]
      rintro w - hw
      have := mem_of_getElem? hw
      simp at this
    | ok r =>
      obtain ⟨s', p⟩ := r
      obtain ⟨h', hpn, hp⟩ := runTxn_spec h (hT T (by simp)) hr
      have hT' : ∀ T ∈ Ts, ∀ w ∈ updates T, Home start size w.1 := fun T' hm => hT T' (by simp [hm])
      obtain ⟨W, hW, ih⟩ := transact_stops Ts h' hT'
      have hgt : ∀ w, some w ∈ s'.commitPoints Ts → s'.dev.writes.length < w :=
        fun w => commitPoints_gt h' hT'
      cases hp with
      | empty hdisk hw =>
        rw [hw] at hW ih
        refine ⟨W, hW, fun j => ?_⟩
        obtain ⟨k, hk, hl, hi⟩ := ih j
        refine ⟨k + 1, by simpa using hk, hdisk ▸ hl, fun i T' hiT hne => ?_⟩
        cases i with
        | zero =>
          cases hiT
          exact absurd (hpn rfl) hne
        | succ i => simpa using hi i T' hiT hne
      | commit A hd B hdisk hw hbef haft =>
        refine ⟨A ++ [hd] ++ B ++ W, by rw [hW, hw, append_assoc], fun j => ?_⟩
        have hlen : s'.dev.writes.length = s.dev.writes.length + A.length + 1 + B.length := by
          rw [hw]; simp; omega
        by_cases hA : j ≤ A.length
        · -- stopped before the header write: neither this nor a later transaction counts
          refine ⟨0, zero_le _, ⟨[], ?_⟩, fun i T' hiT hne => ?_⟩
          · have := hbef j
            simpa [applyAll, append_assoc, take_append_of_le_length hA] using this
          · simp only [not_lt_zero, false_iff, not_exists, not_and]
            rintro w hle hm
            rcases mem_cons.1 (mem_of_getElem? hm) with e | hm
            · cases e; omega
            · have := hgt w hm; omega
        · by_cases hB : j ≤ A.length + 1 + B.length
          · -- stopped inside this commit: it counts, no later one does
            refine ⟨1, by simp, ?_, fun i T' hiT hne => ?_⟩
            · have := haft (j - (A ++ [hd]).length)
              have e : (A ++ [hd] ++ B ++ W).take j = A ++ [hd] ++ B.take (j - (A ++ [hd]).length) := by
                rw [take_append_of_le_length (by simp; omega), take_append,
                  take_of_length_le (by simp; omega)]
              rw [e, apply_append]
              exact this
            · cases i with
              | zero =>
                simp only [getElem?_cons_zero, Option.some.injEq, exists_eq_right']
                omega
              | succ i =>
                refine ⟨fun h => by omega, ?_⟩
                rintro ⟨w, hle, hm⟩
                have := hgt w (mem_of_getElem? hm)
                omega
          · obtain ⟨k, hk, hl, hi⟩ := ih (j - (A ++ [hd] ++ B).length)
            refine ⟨k + 1, by simpa using hk, ?_, fun i T' hiT hne => ?_⟩
            · have e : (A ++ [hd] ++ B).take j = A ++ [hd] ++ B := take_of_length_le (by simp; omega)
              rw [take_append, e, apply_append, ← hdisk]
              exact hl
            · cases i with
              | zero =>
                simp only [getElem?_cons_zero, Option.some.injEq, exists_eq_right']
                omega
              | succ i =>
                have := hi i T' hiT hne
                have e : s'.dev.writes.length + (j - (A ++ [hd] ++ B).length) = s.dev.writes.length + j := by
                  simp; omega
                rw [e] at this
                simpa using this

end

theorem ready_boot {start size : Nat} {d : Nat → Block} (h : get32 (d start) 0 = 0) :
    Ready start size d (boot start size d) where
  log := rfl
  logged := ⟨decodeHead_of_zero h, listed_nil _ _, by simp, fun _ _ _ => rfl⟩
  clean _ := rfl

theorem recoverStopped_logged {start size : Nat} {D : Nat → Block} : ∀ (js : List Nat) {d : Nat → Block},
    (∃ lh, Logged start size D lh d) → ∃ lh, Logged start size D lh (js.foldl (recoverStopped start size) d)
  | [], _, h => h
  | j :: js, _, ⟨_, h⟩ => recoverStopped_logged js ((recover_spec h).1 j)

theorem crash_atomic (start size : Nat) (d0 : Nat → Block) (h0 : get32 (d0 start) 0 = 0) (Ts : List (List Act))
    (hT : ∀ T ∈ Ts, ∀ w ∈ updates T, Home start size w.1) (j : Nat) (js : List Nat) :
    let stopped := apply d0 (((boot start size d0).transact Ts).dev.writes.take j)
    let disk := (boot start size (js.foldl (recoverStopped start size) stopped)).recoverFromLog.dev.disk
    ∃ k ≤ Ts.length, (∀ b, Home start size b → disk b = applyAll d0 (Ts.take k) b) ∧ get32 (disk start) 0 = 0 ∧
      ∀ i T, Ts[i]? = some T → updates T ≠ [] →
        (i < k ↔ ∃ w ≤ j, ((boot start size d0).commitPoints Ts)[i]? = some (some w)) := by
  obtain ⟨W, hW, hj⟩ := transact_stops Ts (ready_boot h0) hT
  obtain ⟨k, hk, hl, hi⟩ := hj j
  have hW' : ((boot start size d0).transact Ts).dev.writes = W := hW
  obtain ⟨lh, hl⟩ := recoverStopped_logged js hl
  obtain ⟨-, hd, hz⟩ := recover_spec hl
  intro stopped disk
  refine ⟨k, hk, fun b hb => ?_, ?_, ?_⟩
  · simp only [disk, stopped, hW']
    exact hd.home b hb not_mem_nil
  · simp only [disk, stopped, hW']
    exact hz
  · simpa [boot] using hi

theorem crash_atomic_after_header :
    (boot 2 30 ([1].foldl (recoverStopped 2 30) (apply (fun _ _ => 0)
      (((boot 2 30 fun _ _ => 0).transact [[.write 50 fun _ => 7]]).dev.writes.take 2)))).recoverFromLog.dev.disk 50
      = fun _ => 7 := by
  obtain ⟨k, hk, hb, -, hi⟩ := crash_atomic 2 30 (fun _ _ => 0) (by decide +kernel) [[.write 50 fun _ => 7]]
    (by simp [updates, Home]) 2 [1]
  have hpos : 0 < k := (hi 0 _ rfl (by simp [updates])).2 ⟨2, Nat.le_refl _, by decide +kernel⟩
  obtain rfl : k = 1 := Nat.le_antisymm hk hpos
  rw [hb 50 (by decide)]
  simp [applyAll, updates]

end Xv6.LogLayer
