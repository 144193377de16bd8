import Xv6.Bio.Steps
import Xv6.Fs.AllocSafe

/-!
# The cache in every reachable state

From power on, whatever the threads do and however their steps interleave, a valid buffer that nobody holds is listed in the
transaction or equal to the disk, as long as no copy of a `writei` from user memory is torn. A torn copy breaks it:
`writei` releases the buffer with the bytes of the first page in it and without `log_write`.
-/

namespace Xv6.Bio

open Bytes Prog Fs Lts Mach

section
variable {N : Nat} {m m' : Mach N} {g : Fin N → Acct} {pin : List Nat} {t : Fin N} {sb : Super}

instance : (c : Call) → Decidable c.Untorn
  | .writei _ (.user u src) off n => inferInstanceAs (Decidable (∀ tot < n.toNat, tot = 0 ∨ (off.toNat + tot) % BSIZE = 0 →
      Fs.Untorn u ((src + tot) % 2 ^ 64) (min (n.toNat - tot) (BSIZE - (off.toNat + tot) % BSIZE))))
  | .writei _ (.kernel _) _ _ | .iget _ | .idup _ | .ialloc _ | .iupdate _ | .ilock _ | .iunlock _ | .iput _ | .itrunc _
  | .readi .. | .dirlookup .. | .dirlink .. | .change .. => isTrue trivial

/-- No call that is started has a torn copy. -/
def Ev.Untorn : Ev N → Prop
  | .start _ k => ∀ c ∈ k.calls, c.Untorn
  | .step _ _ => True

instance : (e : Ev N) → Decidable e.Untorn
  | .start _ k => inferInstanceAs (Decidable (∀ c ∈ k.calls, c.Untorn))
  | .step _ _ => isTrue trivial

/-! ## Power on -/

/-- The accounts at power on: the first thread is about to recover the log. -/
def bootAcct (t0 t : Fin N) : Acct := ⟨fun _ => none, if t = t0 then some ⟨[], [], []⟩ else none⟩

theorem shape_boot (sb : Super) (disk : Nat → Block) (t0 : Fin N) : Shape (boot sb disk t0) [] where
  lru := List.reverse_perm _
  inj i _ j _ b hb _ := by cases hb
  wait t := trivial
  refs i _ := by
    have hw : (boot sb disk t0).waits i = 0 := Finset.sum_eq_zero fun t _ => count_no i
    have hh : (boot sb disk t0).holds i = 0 := holds_none rfl
    rw [hw, hh]
    exact Nat.le_refl 0
  nodup := List.nodup_nil
  pinned b hb := by cases hb

theorem coms_boot (sb : Super) (disk : Nat → Block) (t0 : Fin N) : Coms (boot sb disk t0) (bootAcct t0) [] := by
  have hcom : ∀ t, (bootAcct t0 t).com ≠ none → t = t0 := by
    intro t h
    by_contra e
    exact h (if_neg e)
  constructor
  · intro t c hc
    obtain rfl := hcom t (by rw [hc]; exact Option.some_ne_none c)
    obtain rfl : ⟨[], [], []⟩ = c := by simpa [bootAcct] using hc
    exact ⟨rfl, rfl, rfl, .inr rfl⟩
  · intro t u ht hu
    rw [hcom t ht, hcom u hu]
  · intro _
    rfl
  · intro _ t ht
    have hne : t ≠ t0 := by
      rintro rfl
      simp [bootAcct] at ht
    exact ⟨⟨(), if_neg hne⟩, rfl⟩

theorem inv_boot (sb : Super) (disk : Nat → Block) (t0 : Fin N) : Inv (boot sb disk t0) (bootAcct t0) [] where
  shape := shape_boot sb disk t0
  contents := ⟨(fun i _ b hb _ => by cases hb), (fun _ _ _ _ _ i _ hb _ => by cases hb)⟩
  coms := coms_boot sb disk t0
  held t b x hx := by cases hx
  obey t := by
    by_cases e : t = t0
    · subst e
      simp only [ThreadOk, boot, bootAcct, if_true]
      exact recoverFromLog_obeys.mono fun _ a h => by rw [h]; rfl
    · simp only [ThreadOk, boot, bootAcct, e, if_false]
      exact rfl

/-! ## Every step and every run -/

theorem Inv.start {k : Task} {u : Unit} (h : Inv m g pin) (hb : m.booting = false) (ht : m.thr t = ⟨.ret u, .no⟩)
    (hk : ∀ c ∈ k.calls, c.Untorn) : Kept (m.setThr t (k.prog sb) .no) g t := by
  have hcom : (g t).com = none := by
    have := h.obey t
    rw [ht] at this
    exact this
  have hob : Obeys kProto (k.prog sb) (g t) Ends := by
    have hneutral : KNeutral (k.prog sb) := kneutral_task hk
    have := hneutral (g t).marks
    rw [← hcom] at this
    exact this.mono fun _ a ha => by rw [ha]; exact hcom
  refine ⟨g t, pin, h.inert rfl (h.shape.quiet (by rw [ht]) rfl rfl fun j => ⟨rfl, rfl, rfl⟩)
    (h.contents.same rfl (fun j => ⟨rfl, rfl, rfl, rfl⟩) rfl (fun _ hb => .inl hb) fun c hc _ hb => ⟨c, hc, hb⟩)
    (h.coms.same rfl (fun hb' => ?_) rfl rfl rfl) (fun j => ⟨rfl, rfl, rfl, rfl⟩) (fun j => by simp) rfl hob⟩
  rw [hb] at hb'
  cases hb'

theorem Inv.step {e : Ev N} (h : Inv m g pin) (he : e.Untorn) (hm : m.step sb e = some m') : ∃ g' pin', Inv m' g' pin' := by
  suffices hk : ∃ t, Kept m' g t by
    obtain ⟨t, a, pin', hinv⟩ := hk
    exact ⟨_, pin', hinv⟩
  cases e with
  | start t k =>
    simp only [Mach.step] at hm
    split at hm
    · cases hm
      rename_i hb ht
      exact ⟨t, h.start hb ht he⟩
    · cases hm
  | step t full =>
    refine ⟨t, ?_⟩
    simp only [Mach.step] at hm
    split at hm
    · rename_i ht
      exact h.exec ht hm
    · rename_i ht
      exact h.acquire ht hm
    · cases hm
      rename_i ht
      exact h.fill ht
    · cases hm
      rename_i ht
      exact h.unref ht
    · cases hm

theorem inv_run {disk : Nat → Block} {t0 : Fin N} {es : List (Ev N)}
    (hes : Lts.Along (step sb) (fun _ e => e.Untorn) (boot sb disk t0) es)
    (hr : run (step sb) (boot sb disk t0) es = some m) : ∃ g pin, Inv m g pin :=
  run_inv (I := fun m => ∃ g pin, Inv m g pin) (fun _ _ _ ⟨_, _, h⟩ hc hs => h.step hc hs) ⟨_, _, inv_boot sb disk t0⟩
    hes hr

theorem Inv.agree {i b : Nat} (h : Inv m g pin) (hi : i < NBUF) (hb : (m.buf i).block = some b)
    (hv : (m.buf i).valid = true) (hfree : (m.buf i).holder = none) : b ∈ m.log.lh ∨ (m.buf i).data = m.disk b := by
  refine (h.contents.agree i hi b hb hv).imp_right ?_
  rintro (hd | ⟨t, x, ht, -⟩)
  · exact hd
  · rw [hfree] at ht
    cases ht

end

theorem cached_agrees (sb : Super) :
    (∀ (N : Nat) (disk : Nat → Block) (t0 : Fin N) (es : List (Ev N)) (m : Mach N),
      Lts.Along (step sb) (fun _ e => e.Untorn) (boot sb disk t0) es →
      run (step sb) (boot sb disk t0) es = some m →
      ∀ i < NBUF, ∀ b, (m.buf i).block = some b → (m.buf i).valid = true → (m.buf i).holder = none →
        b ∈ m.log.lh ∨ (m.buf i).data = m.disk b) ∧
    (∀ (s : FsState) (ip : Nat) (src : Source) (off n : UInt32), Held sb s ip → (Call.writei ip src off n).Untorn →
      Sat seq (writei sb ip src.src off n) s (fun r s' => ∀ o < (s.itable ip).d.size.toNat,
        o < off.toNat ∨ off.toNat + r.getD 0 ≤ o → s'.byte sb ip o = s.byte sb ip o) Never) := by
  constructor
  · intro N disk t0 es m hes hr i hi b hb hv hfree
    obtain ⟨g, pin, h⟩ := inv_run hes hr
    exact h.agree hi hb hv hfree
  · intro s ip src off n hheld hu
    refine (writei_spec hheld).mono fun r s' p o ho hout => ?_
    unfold WritePost at p
    split at p
    · rw [p.2]
    · obtain ⟨tot, rfl, w⟩ := p
      exact w.exact (whole_of_untorn hu) o ho hout

/-- A file of one block, block 47, as inode 1. -/
def blockFile : Dinode := { type := T_FILE, nlink := 1, size := 1024, addrs := fun k => if k.val = 0 then 47 else 0 }

/-- A process with `n` pages of the byte 7. -/
def sevens (n : Nat) : UMem := fun p => if p < n then some fun _ => 7 else none

def crossWrite (u : UMem) (n : Nat) : List (Ev 1) :=
  List.replicate 15 (.step 0 false) ++
    .start 0 ⟨true, [.iget 1, .ilock 0, .writei 0 (.user u 4092) 0 8]⟩ :: List.replicate n (.step 0 false)

theorem held_five : ∃ s, Held mkfsSuper s 0 ∧ (s.itable 0).d.size.toNat = 5 := by
  have hlive : Live (oneFileState (List.range 47)) 0 := ⟨by decide, by decide⟩
  have hheld := good_oneFile.held hlive
  have hrun : ((writei mkfsSuper 0 (kernelSrc fun _ => 7) 0 5).run seq (oneFileState (List.range 47))).toOption.map (·.1) =
      some (some 5) := by decide +kernel
  have hspec : Sat seq (writei mkfsSuper 0 (kernelSrc fun _ => 7) 0 5) _ _ Never := writei_spec hheld
  cases hr : (writei mkfsSuper 0 (kernelSrc fun _ => 7) 0 5).run seq (oneFileState (List.range 47)) with
  | error e => exact (hspec.error hr).elim
  | ok r =>
    have hp := hspec.ok hr
    obtain ⟨tot, htot, w⟩ : ∃ tot, r.1 = some tot ∧ Written mkfsSuper 0 _ 0 5 _ tot r.2 := by
      unfold WritePost at hp
      rwa [if_neg (by decide)] at hp
    rw [hr] at hrun
    obtain rfl : tot = 5 := by simpa [Except.toOption, htot] using hrun
    refine ⟨r.2, w.good.held ?_, w.size.trans (by decide)⟩
    unfold Live
    rw [w.self]
    exact hlive

theorem cached_agrees_crossWrite :
    (∃ m, run (step mkfsSuper) (boot mkfsSuper (oneFile [] blockFile) 0) (crossWrite (sevens 2) 60) = some m ∧
      ∀ i < NBUF, ∀ b, (m.buf i).block = some b → (m.buf i).valid = true → (m.buf i).holder = none →
        b ∈ m.log.lh ∨ (m.buf i).data = m.disk b) ∧
    ∃ s, (s.itable 0).d.size.toNat = 5 ∧ Sat seq (writei mkfsSuper 0 (Source.user (sevens 1) 4094).src 1 2) s
      (fun r s' => ∀ o < (s.itable 0).d.size.toNat, o < 1 ∨ 1 + r.getD 0 ≤ o → s'.byte mkfsSuper 0 o = s.byte mkfsSuper 0 o)
      Never := by
  constructor
  · have hrun : (run (step mkfsSuper) (boot mkfsSuper (oneFile [] blockFile) 0)
        (crossWrite (sevens 2) 60)).isSome = true := by decide +kernel
    obtain ⟨m, hm⟩ := Option.isSome_iff_exists.1 hrun
    have hes : ∀ e ∈ crossWrite (sevens 2) 60, e.Untorn := by decide +kernel
    exact ⟨m, hm, (cached_agrees mkfsSuper).1 1 _ 0 _ m (along_of_forall fun e he _ => hes e he) hm⟩
  · obtain ⟨s, hheld, hsize⟩ := held_five
    exact ⟨s, hsize, (cached_agrees mkfsSuper).2 s 0 (.user (sevens 1) 4094) 1 2 hheld (by decide +kernel)⟩

theorem torn_write_stays_cached :
    ∃ m, run (step mkfsSuper) (boot mkfsSuper (oneFile [] blockFile) 0) (crossWrite (sevens 1) 67) = some m ∧
      (m.buf 2).block = some 47 ∧ (m.buf 2).valid = true ∧ (m.buf 2).holder = none ∧ 47 ∉ m.log.lh ∧
      (m.buf 2).data ≠ m.disk 47 := by
  have hrun : ((run (step mkfsSuper) (boot mkfsSuper (oneFile [] blockFile) 0)
      (crossWrite (sevens 1) 67)).map fun m => ((m.buf 2).block, (m.buf 2).valid, (m.buf 2).holder.isNone, m.log.lh,
        (byteAt (m.buf 2).data 0).toNat, (byteAt (m.disk 47) 0).toNat)) = some (some 47, true, true, [], 7, 0) := by
    decide +kernel
  obtain ⟨m, hm, h⟩ := Option.map_eq_some_iff.1 hrun
  simp only [Prod.mk.injEq, Option.isNone_iff_eq_none] at h
  obtain ⟨h1, h2, h3, h4, h5, h6⟩ := h
  refine ⟨m, hm, h1, h2, h3, by simp [h4], fun e => ?_⟩
  rw [e, h6] at h5
  cases h5

end Xv6.Bio
