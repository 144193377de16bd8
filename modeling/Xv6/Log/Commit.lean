import Mathlib.Data.List.Nodup
import Xv6.Log.Basic

/-!
# The block writes of the commit and of the recovery

Each function of the commit is described by the block writes it issues (`Issues`); the disk and what `bread`
sees follow from them. Then `Logged lh d D` says what a disk `d` left by a stopped machine stands for: its
header lists `lh`, and the recovery will turn the home blocks into those of `D`. The commit's first
`write_head` is the one write at which `D` changes.
-/

namespace Xv6.LogLayer

open Bytes Writes List St Function

/-! ## Issued writes -/

structure Issues (d : Dev) (ws : List (Nat × Block)) (d' : Dev) : Prop where
  disk : d'.disk = apply d.disk ws
  read : d'.read = apply d.read ws
  writes : d'.writes = d.writes ++ ws

theorem Issues.refl (d : Dev) : Issues d [] d := ⟨rfl, rfl, by simp⟩

theorem Issues.trans {d d' d'' : Dev} {ws vs : List (Nat × Block)} (h : Issues d ws d') (h' : Issues d' vs d'') :
    Issues d (ws ++ vs) d'' where
  disk := by rw [h'.disk, h.disk, apply_append]
  read := by rw [h'.read, h.read, apply_append]
  writes := by rw [h'.writes, h.writes, append_assoc]

@[simp] theorem bread_disk (d : Dev) (b : Nat) : (d.bread b).2.disk = d.disk := rfl
@[simp] theorem bread_writes (d : Dev) (b : Nat) : (d.bread b).2.writes = d.writes := rfl
@[simp] theorem bread_val (d : Dev) (b : Nat) : (d.bread b).1 = d.read b := rfl

@[simp] theorem bread_read (d : Dev) (b : Nat) : (d.bread b).2.read = d.read := by
  funext a
  by_cases h : a = b <;> simp [Dev.bread, Dev.read, h]

theorem store_read (d : Dev) (b : Nat) (x : Block) : (d.store b x).read = update d.read b x := by
  funext a
  by_cases h : a = b <;> simp [Dev.store, Dev.read, h]

theorem issues_bread (d : Dev) (b : Nat) : Issues d [] (d.bread b).2 :=
  ⟨rfl, bread_read d b, by simp⟩

theorem issues_bwrite (d : Dev) (b : Nat) (x : Block) : Issues d [(b, x)] (d.bwrite b x) where
  disk := rfl
  writes := rfl
  read := by
    funext a
    by_cases h : a = b <;> simp [Dev.bwrite, Dev.read, h]

/-! ## The home blocks -/

def Home (start size b : Nat) : Prop := b < 2 ^ 32 ∧ b ≠ start ∧ ¬(start < b ∧ b < start + size)

instance (start size b : Nat) : Decidable (Home start size b) := inferInstanceAs (Decidable (_ ∧ _))

/-- What `log_write` keeps of the header: distinct home blocks, no more than fit. -/
structure Listed (start size : Nat) (lh : List Nat) : Prop where
  nodup : lh.Nodup
  home : ∀ b ∈ lh, Home start size b
  fits : lh.length ≤ LOGSIZE
  room : lh.length < size ∨ lh = []

theorem listed_nil (start size : Nat) : Listed start size [] :=
  ⟨nodup_nil, by simp, by simp, .inr rfl⟩

theorem Listed.lt_size {start size t : Nat} {lh : List Nat} (h : Listed start size lh) (ht : t < lh.length) :
    t + 1 < size := by
  rcases h.room with h | rfl
  · omega
  · simp at ht

theorem Listed.home_block {start size t : Nat} {lh : List Nat} (h : Listed start size lh) (ht : t < lh.length) :
    Home start size (lh.getD t 0) := by
  rw [getD_eq_getElem _ _ ht]
  exact h.home _ (getElem_mem ht)

theorem Listed.log_ne {start size t : Nat} {lh : List Nat} (h : Listed start size lh) (ht : t < lh.length)
    {b : Nat} (hb : Home start size b) : start + t + 1 ≠ b := by
  have := h.lt_size ht
  have := hb.2.2
  omega

/-! ## The cache inside a transaction -/

structure View (start size : Nat) (D : Nat → Block) (s : St) : Prop where
  listed : Listed start size s.log.lh
  clean : ∀ b, b ∉ s.log.lh → s.dev.read b = s.dev.disk b
  sees : ∀ b, Home start size b → s.dev.read b = D b

theorem View.update {start size b : Nat} {D : Nat → Block} {s s' : St} {x : Block} (h : View start size D s)
    (hsize : s.log.size = size) (hb : Home start size b) (hu : s.update b x = .ok s') :
    View start size (Function.update D b x) s' ∧ b ∈ s'.log.lh ∧ s.log.lh ⊆ s'.log.lh := by
  obtain ⟨hL, hS, -, hcase⟩ := update_ok hu
  have hr : ((s.dev.bread b).2.store b x).read = Function.update s.dev.read b x := by
    rw [store_read, bread_read]
  have hsees : ∀ a, Home start size a → Function.update s.dev.read b x a = Function.update D b x a := by
    intro a ha
    by_cases e : a = b
    · simp [e]
    · simp [e, h.sees a ha]
  have hclean : ∀ a, a ≠ b → a ∉ s.log.lh → Function.update s.dev.read b x a = s.dev.disk a := by
    intro a e ha
    rw [update_of_ne e]; exact h.clean a ha
  rcases hcase with ⟨hm, rfl⟩ | ⟨hm, rfl⟩
  · refine ⟨⟨h.listed, fun a ha => ?_, ?_⟩, hm, List.Subset.refl _⟩
    · rw [hr]; exact hclean a (ne_of_mem_of_not_mem hm ha).symm ha
    · rw [hr]; exact hsees
  · refine ⟨⟨⟨?_, ?_, by simp; omega, .inl (by simp; omega)⟩, fun a ha => ?_, ?_⟩, by simp, by simp⟩
    · exact nodup_append.2 ⟨h.listed.nodup, by simp, by grind⟩
    · intro a ha
      rcases mem_append.1 ha with ha | ha
      · exact h.listed.home a ha
      · rw [mem_singleton.1 ha]; exact hb
    · simp only [mem_append, mem_singleton, not_or] at ha
      rw [hr]; exact hclean a ha.2 ha.1
    · rw [hr]; exact hsees

theorem recycle_read {d : Dev} {b : Nat} (h : d.read b = d.disk b) : (d.recycle b).read = d.read := by
  funext a
  by_cases e : a = b
  · rw [e, h]; simp [Dev.read, Dev.recycle]
  · simp [Dev.read, Dev.recycle, e]

/-! ## The writes of each function -/

/-- The writes of `write_log` for its first `k` blocks, where `bread` sees `f`. -/
def bodyWrites (start : Nat) (lh : List Nat) (f : Nat → Block) (k : Nat) : List (Nat × Block) :=
  (range k).map fun t => (start + t + 1, f (lh.getD t 0))

/-- The writes of `install_trans` for its first `k` blocks. -/
def installWrites (start : Nat) (lh : List Nat) (f : Nat → Block) (k : Nat) : List (Nat × Block) :=
  (range k).map fun t => (lh.getD t 0, f (start + t + 1))

theorem bodyWrites_succ (start : Nat) (lh : List Nat) (f : Nat → Block) (k : Nat) :
    bodyWrites start lh f (k + 1) = bodyWrites start lh f k ++ [(start + k + 1, f (lh.getD k 0))] := by
  simp [bodyWrites, range_succ]

theorem installWrites_succ (start : Nat) (lh : List Nat) (f : Nat → Block) (k : Nat) :
    installWrites start lh f (k + 1) = installWrites start lh f k ++ [(lh.getD k 0, f (start + k + 1))] := by
  simp [installWrites, range_succ]

theorem bodyWrites_ne {start k a : Nat} {lh : List Nat} {f : Nat → Block}
    (h : ∀ t < k, start + t + 1 ≠ a) : ∀ w ∈ bodyWrites start lh f k, w.1 ≠ a := by
  intro w hw
  simp only [bodyWrites, mem_map, mem_range] at hw
  obtain ⟨t, ht, rfl⟩ := hw
  exact h t ht

theorem installWrites_ne {start k a : Nat} {lh : List Nat} {f : Nat → Block}
    (h : ∀ t < k, lh.getD t 0 ≠ a) : ∀ w ∈ installWrites start lh f k, w.1 ≠ a := by
  intro w hw
  simp only [installWrites, mem_map, mem_range] at hw
  obtain ⟨t, ht, rfl⟩ := hw
  exact h t ht

theorem writeLogAt_issues (s : St) (t : Nat) :
    Issues s.dev [(s.log.start + t + 1, s.dev.read (s.log.block t))] (s.writeLogAt t).dev := by
  have h := ((issues_bread s.dev (s.log.start + t + 1)).trans (issues_bread _ (s.log.block t))).trans
    (issues_bwrite _ (s.log.start + t + 1) (((s.dev.bread (s.log.start + t + 1)).2.bread (s.log.block t)).1))
  simpa [writeLogAt] using h

theorem installAt_issues (r : Bool) (s : St) (t : Nat) :
    Issues s.dev [(s.log.block t, s.dev.read (s.log.start + t + 1))] (s.installAt r t).dev := by
  have h := ((issues_bread s.dev (s.log.start + t + 1)).trans (issues_bread _ (s.log.block t))).trans
    (issues_bwrite _ (s.log.block t) (s.dev.bread (s.log.start + t + 1)).1)
  simpa [installAt] using h

theorem writeLog_prefix (s : St) (hl : Listed s.log.start s.log.size s.log.lh) : ∀ k, k ≤ s.log.lh.length →
    let s' := (range k).foldl writeLogAt s
    s'.log = s.log ∧ s'.pin = s.pin ∧ Issues s.dev (bodyWrites s.log.start s.log.lh s.dev.read k) s'.dev
  | 0, _ => ⟨rfl, rfl, Issues.refl _⟩
  | k + 1, hk => by
    obtain ⟨h1, h2, h3⟩ := writeLog_prefix s hl k (by omega)
    simp only [range_succ, foldl_append, foldl_cons, foldl_nil]
    refine ⟨h1, h2, ?_⟩
    have h := h3.trans (writeLogAt_issues _ k)
    have hb := hl.home_block (show k < s.log.lh.length by omega)
    -- no earlier log write hit the home block that is read now
    have hr : apply s.dev.read (bodyWrites s.log.start s.log.lh s.dev.read k) (s.log.lh.getD k 0)
        = s.dev.read (s.log.lh.getD k 0) :=
      apply_of_not_mem (bodyWrites_ne fun t ht => hl.log_ne (by omega) hb)
    rw [h3.read, h1, Log.block, hr, ← bodyWrites_succ] at h
    exact h

theorem installTrans_prefix (r : Bool) (s : St) (hl : Listed s.log.start s.log.size s.log.lh) :
    ∀ k, k ≤ s.log.lh.length →
    let s' := (range k).foldl (installAt r) s
    s'.log = s.log ∧ Issues s.dev (installWrites s.log.start s.log.lh s.dev.read k) s'.dev
  | 0, _ => ⟨rfl, Issues.refl _⟩
  | k + 1, hk => by
    obtain ⟨h1, h3⟩ := installTrans_prefix r s hl k (by omega)
    simp only [range_succ, foldl_append, foldl_cons, foldl_nil]
    refine ⟨h1, ?_⟩
    have h := h3.trans (installAt_issues r _ k)
    have hr : apply s.dev.read (installWrites s.log.start s.log.lh s.dev.read k) (s.log.start + k + 1)
        = s.dev.read (s.log.start + k + 1) :=
      apply_of_not_mem (installWrites_ne fun t ht =>
        (hl.log_ne (show k < s.log.lh.length by omega) (hl.home_block (by omega))).symm)
    rw [h3.read, h1, Log.block, hr, ← installWrites_succ] at h
    exact h

theorem writeHead_issues (s : St) :
    Issues s.dev [(s.log.start, encodeHead (s.dev.read s.log.start) s.log.lh)] s.writeHead.dev := by
  have h := (issues_bread s.dev s.log.start).trans
    (issues_bwrite _ s.log.start (encodeHead (s.dev.bread s.log.start).1 s.log.lh))
  simpa [writeHead] using h

/-! ## What a stopped disk stands for -/

structure Logged (start size : Nat) (D : Nat → Block) (lh : List Nat) (d : Nat → Block) : Prop where
  head : decodeHead (d start) = lh
  listed : Listed start size lh
  body : ∀ t < lh.length, d (start + t + 1) = D (lh.getD t 0)
  home : ∀ b, Home start size b → b ∉ lh → d b = D b

section
variable {start size : Nat} {D D' d : Nat → Block} {lh : List Nat}

theorem Logged.write_body (h : Logged start size D [] d) {a : Nat} {x : Block} (h1 : start < a)
    (h2 : a < start + size) : Logged start size D [] (update d a x) where
  head := by rw [update_of_ne (by omega)]; exact h.head
  listed := h.listed
  body := by simp
  home b hb hn := by rw [update_of_ne (by have := hb.2.2; omega)]; exact h.home b hb hn

theorem Logged.install (h : Logged start size D lh d) {b : Nat} (hb : b ∈ lh) :
    Logged start size D lh (update d b (D b)) where
  head := by
    rw [update_of_ne (h.listed.home b hb).2.1.symm]; exact h.head
  listed := h.listed
  body t ht := by
    rw [update_of_ne (h.listed.log_ne ht (h.listed.home b hb))]; exact h.body t ht
  home a ha hn := by
    rw [update_of_ne (ne_of_mem_of_not_mem hb hn).symm]; exact h.home a ha hn

theorem Logged.commit (h : Logged start size D [] d) (D' : Nat → Block) (hl : Listed start size lh)
    (hb : ∀ t < lh.length, d (start + t + 1) = D' (lh.getD t 0))
    (hD : ∀ b, Home start size b → b ∉ lh → D' b = D b) (old : Block) :
    Logged start size D' lh (update d start (encodeHead old lh)) where
  head := by
    rw [update_self]
    exact decodeHead_encodeHead old hl.fits fun b hb => (hl.home b hb).1
  listed := hl
  body t ht := by rw [update_of_ne (by omega)]; exact hb t ht
  home b hb hn := by
    rw [update_of_ne hb.2.1, hD b hb hn]
    exact h.home b hb not_mem_nil

theorem Logged.clear (h : ∀ b, Home start size b → d b = D b) (old : Block) :
    Logged start size D [] (update d start (encodeHead old [])) where
  head := by rw [update_self]; exact decodeHead_encodeHead old (by simp) (by simp)
  listed := listed_nil start size
  body := by simp
  home b hb _ := by rw [update_of_ne hb.2.1]; exact h b hb

/-! ## The stops of `write_log` and `install_trans` -/

theorem mem_bodyWrites {f : Nat → Block} {w : Nat × Block} {k : Nat} :
    w ∈ bodyWrites start lh f k ↔ ∃ t < k, (start + t + 1, f (lh.getD t 0)) = w := by
  simp [bodyWrites]

theorem mem_installWrites {f : Nat → Block} {w : Nat × Block} {k : Nat} :
    w ∈ installWrites start lh f k ↔ ∃ t < k, (lh.getD t 0, f (start + t + 1)) = w := by
  simp [installWrites]

theorem installWrites_fst (f : Nat → Block) : (installWrites start lh f lh.length).map Prod.fst = lh :=
  ext_getElem (by simp [installWrites]) fun i hi hi' => by
    simp [installWrites, getElem?_eq_getElem hi']

theorem bodyWrites_nodup (f : Nat → Block) (k : Nat) : ((bodyWrites start lh f k).map Prod.fst).Nodup := by
  simp only [bodyWrites, map_map]
  exact nodup_range.map fun a b (h : start + a + 1 = start + b + 1) => by omega

theorem Logged.body_stops (h : Logged start size D [] d) (hl : Listed start size lh) (f : Nat → Block) :
    AtStops (Logged start size D []) d (bodyWrites start lh f lh.length) := by
  refine atStops_of_forall h fun w hw d' h' => ?_
  obtain ⟨t, ht, rfl⟩ := mem_bodyWrites.1 hw
  exact h'.write_body (by omega) (by have := hl.lt_size ht; omega)

theorem Logged.install_stops (h : Logged start size D lh d) :
    AtStops (Logged start size D lh) d (installWrites start lh d lh.length) := by
  refine atStops_of_forall h fun w hw d' h' => ?_
  obtain ⟨t, ht, rfl⟩ := mem_installWrites.1 hw
  rw [h.body t ht]
  exact h'.install (by rw [getD_eq_getElem _ _ ht]; exact getElem_mem ht)

theorem Logged.installed (h : Logged start size D lh d) {b : Nat} (hb : Home start size b) :
    apply d (installWrites start lh d lh.length) b = D b := by
  have hd := h.install_stops.last
  by_cases hm : b ∈ lh
  · obtain ⟨t, ht, rfl⟩ := mem_iff_getElem.1 hm
    refine apply_of_mem ?_ (mem_installWrites.2 ⟨t, ht, ?_⟩)
    · rw [installWrites_fst]; exact h.listed.nodup
    · rw [h.body t ht, getD_eq_getElem _ _ ht]
  · exact hd.home b hb hm

theorem Logged.congr (h : Logged start size D lh d) (hD : ∀ b, Home start size b → D b = D' b) :
    Logged start size D' lh d where
  head := h.head
  listed := h.listed
  body t ht := by rw [h.body t ht, hD _ (h.listed.home_block ht)]
  home b hb hn := by rw [h.home b hb hn, hD b hb]

theorem installWrites_congr {f g : Nat → Block} {k : Nat} (h : ∀ t < k, f (start + t + 1) = g (start + t + 1)) :
    installWrites start lh f k = installWrites start lh g k :=
  map_congr_left fun t ht => by rw [h t (mem_range.1 ht)]

end

/-! ## The whole commit and the whole recovery -/

theorem writeLog_spec (s : St) (hl : Listed s.log.start s.log.size s.log.lh) :
    s.writeLog.log = s.log ∧
      Issues s.dev (bodyWrites s.log.start s.log.lh s.dev.read s.log.lh.length) s.writeLog.dev :=
  have h := writeLog_prefix s hl _ (Nat.le_refl _)
  ⟨h.1, h.2.2⟩

theorem installTrans_spec (r : Bool) (s : St) (hl : Listed s.log.start s.log.size s.log.lh) :
    (s.installTrans r).log = s.log ∧
      Issues s.dev (installWrites s.log.start s.log.lh s.dev.read s.log.lh.length) (s.installTrans r).dev :=
  installTrans_prefix r s hl _ (Nat.le_refl _)

def St.finish (r : Bool) (s : St) : St := (s.installTrans r).clearHead.writeHead

structure Finishes (r : Bool) (s : St) (l : Log) (D : Nat → Block) (B : List (Nat × Block)) : Prop where
  issues : Issues s.dev B (s.finish r).dev
  stops : AtStops (fun d => ∃ lh, Logged l.start l.size D lh d) s.dev.disk B
  log : (s.finish r).log = { l with lh := [] }
  logged : Logged l.start l.size D [] (s.finish r).dev.disk
  zero : get32 ((s.finish r).dev.disk l.start) 0 = 0
  covers : ∀ b ∈ l.lh, b ∈ B.map Prod.fst

theorem finish_spec (r : Bool) {s : St} {l : Log} {D : Nat → Block} (hs : s.log = l)
    (hd : Logged l.start l.size D l.lh s.dev.disk)
    (hc : ∀ t < l.lh.length, s.dev.read (l.start + t + 1) = s.dev.disk (l.start + t + 1)) :
    ∃ B, Finishes r s l D B := by
  subst hs
  obtain ⟨h1, h2⟩ := installTrans_spec r s hd.listed
  rw [installWrites_congr hc] at h2
  have h3 := writeHead_issues (s.installTrans r).clearHead
  have hlog : (s.installTrans r).clearHead.log = { s.log with lh := [] } := by simp only [clearHead, h1]
  rw [hlog] at h3
  generalize hI : installWrites s.log.start s.log.lh s.dev.disk s.log.lh.length = I at h2
  generalize ho : (clearHead _).dev.read s.log.start = old at h3
  have hall := h2.trans h3
  have hinst : ∀ b, Home s.log.start s.log.size b → apply s.dev.disk I b = D b :=
    fun b hb => hI ▸ hd.installed hb
  have hclear := Logged.clear hinst old
  have hdisk : (s.finish r).dev.disk = update (apply s.dev.disk I) s.log.start (encodeHead old []) := by
    rw [show (s.finish r).dev.disk = _ from hall.disk, apply_append]; rfl
  refine ⟨_, hall, atStops_append.2 ⟨?_, atStops_cons.2 ⟨?_, atStops_nil.2 ⟨_, hclear⟩⟩⟩, hlog, ?_, ?_, ?_⟩
  · exact hI ▸ hd.install_stops.mono fun d h => ⟨_, h⟩
  · exact ⟨_, hI ▸ hd.install_stops.last⟩
  · rw [hdisk]; exact hclear
  · rw [hdisk, update_self, get32_encodeHead old (by simp)]; rfl
  · intro b hb
    rw [map_append, ← hI, installWrites_fst]
    exact mem_append_left _ hb

structure Commits (s : St) (D : Nat → Block) (A : List (Nat × Block)) (h : Nat × Block)
    (B : List (Nat × Block)) : Prop where
  header : Issues s.dev (A ++ [h]) s.writeLog.writeHead.dev
  issues : Issues s.dev (A ++ [h] ++ B) s.commit.dev
  before : AtStops (Logged s.log.start s.log.size D []) s.dev.disk A
  after : AtStops (fun d => ∃ lh, Logged s.log.start s.log.size s.dev.read lh d) (apply s.dev.disk (A ++ [h])) B
  log : s.commit.log = { s.log with lh := [] }
  logged : Logged s.log.start s.log.size s.dev.read [] s.commit.dev.disk
  clean : ∀ b, s.commit.dev.read b = s.commit.dev.disk b

theorem commit_eq_finish {s : St} (hne : s.log.lh ≠ []) : s.commit = s.writeLog.writeHead.finish false := by
  rw [commit, if_pos (length_pos_of_ne_nil hne)]; rfl

theorem commit_spec {s : St} {D : Nat → Block} (hl : Listed s.log.start s.log.size s.log.lh)
    (hne : s.log.lh ≠ []) (hd : Logged s.log.start s.log.size D [] s.dev.disk)
    (hc : ∀ b, b ∉ s.log.lh → s.dev.read b = s.dev.disk b) : ∃ A h B, Commits s D A h B := by
  obtain ⟨w1, w2⟩ := writeLog_spec s hl
  have hh := w2.trans (writeHead_issues s.writeLog)
  have e1 : s.writeLog.writeHead.log = s.log := w1
  rw [w1] at hh
  have hstop := hd.body_stops hl s.dev.read
  have hbody : ∀ t < s.log.lh.length,
      apply s.dev.disk (bodyWrites s.log.start s.log.lh s.dev.read s.log.lh.length) (s.log.start + t + 1)
        = s.dev.read (s.log.lh.getD t 0) :=
    fun t ht => apply_of_mem (bodyWrites_nodup _ _) (mem_bodyWrites.2 ⟨t, ht, rfl⟩)
  generalize bodyWrites s.log.start s.log.lh s.dev.read s.log.lh.length = A at hh hstop hbody
  generalize s.writeLog.dev.read s.log.start = old at hh
  -- the header write makes the cached contents those the disk stands for
  have hcommit := hstop.last.commit s.dev.read hl hbody
    (fun b hb hn => (hc b hn).trans (hd.home b hb not_mem_nil)) old
  have hdisk : s.writeLog.writeHead.dev.disk
      = update (apply s.dev.disk A) s.log.start (encodeHead old s.log.lh) := by
    rw [hh.disk, apply_append]; rfl
  have hlog : ∀ t < s.log.lh.length, s.writeLog.writeHead.dev.read (s.log.start + t + 1)
      = s.writeLog.writeHead.dev.disk (s.log.start + t + 1) := by
    intro t ht
    rw [hh.read, hh.disk]
    refine apply_congr (hc _ fun hm => ?_)
    exact hl.log_ne ht (hl.home _ hm) rfl
  obtain ⟨B, f⟩ := finish_spec false e1 (hdisk ▸ hcommit) hlog
  have hi := hh.trans f.issues
  have hc' : ∀ b, (s.writeLog.writeHead.finish false).dev.read b = (s.writeLog.writeHead.finish false).dev.disk b := by
    intro b
    rw [hi.read, hi.disk]
    by_cases hb : b ∈ s.log.lh
    · refine apply_eq_of_mem ?_
      rw [map_append]
      exact mem_append_right _ (f.covers b hb)
    · exact apply_congr (hc b hb)
  rw [← commit_eq_finish hne] at hi hc'
  exact ⟨A, _, B, hh, hi, hstop, hh.disk ▸ f.stops, commit_eq_finish hne ▸ f.log, commit_eq_finish hne ▸ f.logged, hc'⟩

/-- The machine after a reset: nothing cached, nothing pinned. -/
def boot (start size : Nat) (disk : Nat → Block) : St where
  log := { start, size, outstanding := 0, committing := false, lh := [] }
  dev := { disk, cache := fun _ => none, writes := [] }
  pin := fun _ => 0

theorem recover_spec {start size : Nat} {D d : Nat → Block} {lh : List Nat} (hd : Logged start size D lh d) :
    AtStops (fun d => ∃ lh, Logged start size D lh d) d (boot start size d).recoverFromLog.dev.writes ∧
    Logged start size D [] (boot start size d).recoverFromLog.dev.disk ∧
    get32 ((boot start size d).recoverFromLog.dev.disk start) 0 = 0 := by
  have hi := issues_bread (boot start size d).dev start
  have hlh : (boot start size d).readHead.log = { start, size, outstanding := 0, committing := false, lh } := by
    have := hd.head
    simp only [readHead, boot, bread_val]
    rw [show Dev.read _ start = d start from rfl, this]
  have hdisk : (boot start size d).readHead.dev.disk = d := hi.disk
  obtain ⟨B, f⟩ := finish_spec true hlh (hdisk ▸ hd)
    (fun t _ => by rw [show (readHead _).dev.read = _ from hi.read, hdisk]; rfl)
  have hw : (boot start size d).recoverFromLog.dev.writes = B := by
    rw [show (recoverFromLog _).dev.writes = _ from f.issues.writes,
      show (readHead _).dev.writes = _ from hi.writes]
    rfl
  exact ⟨hw ▸ hdisk ▸ f.stops, f.logged, f.zero⟩

end Xv6.LogLayer
