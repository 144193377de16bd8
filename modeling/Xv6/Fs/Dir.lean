import Xv6.Fs.File

/-!
# Directories

A directory is a file of 16-byte entries. `dirlookup` finds the first live entry whose name agrees with the one asked for;
`dirlink` puts an entry into the first free slot or appends it, in one write that takes place as a whole or not at all.
-/

namespace Xv6.Fs

open Bytes Prog UInt32 Nat

/-- `inum` of the `n`-th entry of a directory with the bytes `f`. -/
def entInum (f : Nat → UInt8) (n : Nat) : Nat := (f (DIRENT * n)).toNat + 256 * (f (DIRENT * n + 1)).toNat

def entName (f : Nat → UInt8) (n : Nat) : List UInt8 := (List.range DIRSIZ).map fun k => f (DIRENT * n + 2 + k)

/-- The `n`-th entry is live and `namecmp` takes its name for `name`. -/
def EntMatch (f : Nat → UInt8) (name : List UInt8) (n : Nat) : Prop :=
  entInum f n ≠ 0 ∧ namecmpEq name (entName f n) = true

instance (f : Nat → UInt8) (name : List UInt8) (n : Nat) : Decidable (EntMatch f name n) :=
  inferInstanceAs (Decidable (_ ∧ _))

section
variable {sb : Super} {s s' : FsState} {dp : Nat} {X : String → Prop}

theorem size_le (h : Consistent sb (cur sb s dp)) (ht : (s.itable dp).d.type ≠ 0) :
    (s.itable dp).d.size.toNat ≤ MAXFILE * BSIZE := by
  by_contra hgt
  have hlt : MAXFILE < nblocksOf (s.itable dp).d.size.toNat := by unfold nblocksOf BSIZE at *; omega
  have hfill := h.filled _ (cur_alloc ht)
  rw [cur_ino_self] at hfill
  exact absurd (hfill MAXFILE hlt).1 (lt_irrefl _)

variable {n inum : Nat} {name : List UInt8}

theorem toNat_ofNat_lt (h : n ≤ MAXFILE * BSIZE) : (ofNat n).toNat = n := by
  rw [toNat_ofNat', mod_eq_of_lt]
  unfold MAXFILE NDIRECT NINDIRECT BSIZE at h
  omega

theorem ofNat_add_dirent {off : Nat} (h : off ≤ MAXFILE * BSIZE) :
    (UInt32.ofNat off + UInt32.ofNat DIRENT).toNat = off + DIRENT := by
  have h16 : (ofNat DIRENT).toNat = DIRENT := rfl
  rw [UInt32.toNat_add, toNat_ofNat_lt h, h16, mod_eq_of_lt]
  unfold MAXFILE NDIRECT NINDIRECT BSIZE DIRENT at *
  omega

theorem readLen_dirent {size : UInt32} {off : Nat} (hoff : off < size.toNat) (hsize : size.toNat ≤ MAXFILE * BSIZE) :
    readLen size (ofNat off) (ofNat DIRENT) = min DIRENT (size.toNat - off) := by
  have hadd : (ofNat off + ofNat DIRENT).toNat = off + DIRENT := ofNat_add_dirent (by omega)
  have ho := toNat_ofNat_lt (n := off) (by omega)
  have h16 : (ofNat DIRENT).toNat = DIRENT := rfl
  rw [readLen, if_neg, ho, h16]
  rw [not_or, GT.gt, lt_iff_toNat_lt, lt_iff_toNat_lt, hadd, ho]
  omega

theorem direntInum_map (f : Nat → UInt8) (n : Nat) :
    direntInum ((List.range DIRENT).map fun k => f (DIRENT * n + k)) = entInum f n := rfl

theorem drop_map_dirent (f : Nat → UInt8) (n : Nat) :
    ((List.range DIRENT).map fun k => f (DIRENT * n + k)).drop 2 = entName f n := rfl

theorem readDirent_spec {msg : String} (h : Consistent sb (cur sb s dp)) (ht : (s.itable dp).d.type ≠ 0)
    (hn : DIRENT * n < (s.itable dp).d.size.toNat) (hX : (s.itable dp).d.size.toNat < DIRENT * n + DIRENT → X msg) :
    Sat seq (readDirent sb dp (DIRENT * n) msg) s
      (fun bs s' => s' = s ∧ direntInum bs = entInum (s.byte sb dp) n ∧ bs.drop 2 = entName (s.byte sb dp) n ∧
        DIRENT * n + DIRENT ≤ (s.itable dp).d.size.toNat) X := by
  have hsize := size_le h ht
  have hlen := readLen_dirent hn hsize
  simp only [readDirent, sat_bind]
  refine (readi_spec h ht).mono ?_
  rintro ⟨r, bs⟩ s' ⟨hs, hok, hsome⟩
  subst hs
  dsimp only at hok hsome ⊢
  have hr := hok fun _ _ => rfl
  obtain ⟨-, hbs⟩ := hsome _ hr
  rw [toNat_ofNat_lt (by omega), hlen] at hbs
  rw [hlen] at hr
  by_cases hfull : DIRENT * n + DIRENT ≤ (s'.itable dp).d.size.toNat
  · have hmin : min DIRENT ((s'.itable dp).d.size.toNat - DIRENT * n) = DIRENT := by omega
    rw [hmin] at hr hbs
    simp only [hr, ne_eq, not_true, if_false, sat_pure]
    subst hbs
    exact ⟨trivial, direntInum_map _ _, drop_map_dirent _ _, hfull⟩
  · have hne : r ≠ some DIRENT := by
      rw [hr]
      intro e
      have := Option.some.inj e
      omega
    simp only [hne, ne_eq, not_false_eq_true, if_true, sat_panic]
    exact hX (by omega)

/-! ## `dirlookup` -/

def LookupPost (sb : Super) (dp : Nat) (name : List UInt8) (s : FsState) : Option (Nat × Nat) → FsState → Prop
  | none, s' => s' = s ∧ ∀ n, DIRENT * n < (s.itable dp).d.size.toNat → ¬EntMatch (s.byte sb dp) name n
  | some (k, off), s' => ∃ n, off = DIRENT * n ∧ DIRENT * n + DIRENT ≤ (s.itable dp).d.size.toNat ∧
      EntMatch (s.byte sb dp) name n ∧ (∀ m < n, ¬EntMatch (s.byte sb dp) name m) ∧
      IgetPost (entInum (s.byte sb dp) n) s k s'

/-- The inode of the entry that `dirlookup` finds has no place in the inode table. -/
def NoRoom (sb : Super) (dp : Nat) (name : List UInt8) (s : FsState) : Prop :=
  ∃ n, DIRENT * n + DIRENT ≤ (s.itable dp).d.size.toNat ∧ EntMatch (s.byte sb dp) name n ∧
    (∀ m < n, ¬EntMatch (s.byte sb dp) name m) ∧ igetSlot s.itable (entInum (s.byte sb dp) n) = none

theorem dirlookupFrom_spec {fuel : Nat} (h : Consistent sb (cur sb s dp))
    (ht : (s.itable dp).d.type ≠ 0) (htab : TableOk s.itable)
    (hX : (s.itable dp).d.size.toNat % DIRENT ≠ 0 → X "dirlookup read") (hI : NoRoom sb dp name s → X "iget: no inodes")
    (hfuel : (s.itable dp).d.size.toNat / DIRENT + 1 ≤ fuel + n) (hold : ∀ m < n, ¬EntMatch (s.byte sb dp) name m) :
    Sat seq (dirlookupFrom sb dp name fuel (DIRENT * n)) s (LookupPost sb dp name s) X := by
  have hstop : (s.itable dp).d.size.toNat ≤ DIRENT * n →
      LookupPost sb dp name s none s := fun hle => ⟨rfl, fun m hm => hold m (by unfold DIRENT at *; omega)⟩
  induction fuel generalizing n with
  | zero =>
    exact hstop (by unfold DIRENT at *; omega)
  | succ fuel ih =>
    simp only [dirlookupFrom, sat_bind, sat_iat]
    by_cases hlt : DIRENT * n < (s.itable dp).d.size.toNat
    · simp only [hlt, if_true, sat_bind]
      refine (readDirent_spec h ht hlt fun hsh => hX (by unfold DIRENT at *; omega)).mono ?_
      rintro bs s1 ⟨rfl, hinum, hname, hle⟩
      rw [hinum, hname]
      by_cases hm : entInum (s1.byte sb dp) n ≠ 0 ∧ namecmpEq name (entName (s1.byte sb dp) n) = true
      · rw [if_pos hm]
        simp only [sat_bind, sat_pure]
        refine (iget_spec htab fun hno => hI ⟨n, hle, hm, hold, hno⟩).mono ?_
        intro k s' hget
        exact ⟨n, rfl, hle, hm, hold, hget⟩
      · rw [if_neg hm, ← mul_succ]
        have hold' : ∀ m < n + 1, ¬EntMatch (s1.byte sb dp) name m := by
          intro m hm'
          rcases Nat.lt_succ_iff_lt_or_eq.1 hm' with h1 | rfl
          · exact hold m h1
          · exact hm
        exact ih (by omega) hold' fun hle => ⟨rfl, fun m hm => hold' m (by unfold DIRENT at *; omega)⟩
    · simp only [hlt, if_false, sat_pure]
      exact hstop (by omega)

theorem dirlookup_spec (h : Consistent sb (cur sb s dp)) (ht : (s.itable dp).d.type ≠ 0)
    (htab : TableOk s.itable) (hD : (s.itable dp).d.type ≠ T_DIR → X "dirlookup not DIR")
    (hX : (s.itable dp).d.size.toNat % DIRENT ≠ 0 → X "dirlookup read") (hI : NoRoom sb dp name s → X "iget: no inodes") :
    Sat seq (dirlookup sb dp name) s (LookupPost sb dp name s) X := by
  simp only [dirlookup, sat_bind, sat_iat]
  by_cases htype : (s.itable dp).d.type = T_DIR
  · simp only [htype, ne_eq, not_true, if_false]
    exact dirlookupFrom_spec (n := 0) h ht htab hX hI (le_refl _) fun m hm => absurd hm (not_lt_zero m)
  · simp only [htype, ne_eq, not_false_eq_true, if_true, sat_panic]
    exact hD htype

/-! ## `dirlink` -/

/-- The first free slot, or the end of the directory. -/
def EmptyPost (sb : Super) (dp : Nat) (s : FsState) (off : Nat) (s' : FsState) : Prop :=
  s' = s ∧ ∃ n, off = DIRENT * n ∧ (∀ m < n, entInum (s.byte sb dp) m ≠ 0) ∧ DIRENT * n ≤ (s.itable dp).d.size.toNat ∧
    (DIRENT * n + DIRENT ≤ (s.itable dp).d.size.toNat ∧ entInum (s.byte sb dp) n = 0 ∨
      DIRENT * n = (s.itable dp).d.size.toNat)

theorem emptyFrom_spec {fuel : Nat} (h : Consistent sb (cur sb s dp)) (ht : (s.itable dp).d.type ≠ 0)
    (hX : (s.itable dp).d.size.toNat % DIRENT ≠ 0 → X "dirlink read")
    (hfuel : (s.itable dp).d.size.toNat / DIRENT + 1 ≤ fuel + n) (hn : DIRENT * n ≤ (s.itable dp).d.size.toNat)
    (hold : ∀ m < n, entInum (s.byte sb dp) m ≠ 0) :
    Sat seq (emptyFrom sb dp fuel (DIRENT * n)) s (EmptyPost sb dp s) X := by
  induction fuel generalizing n with
  | zero => exact absurd hn (by unfold DIRENT at *; omega)
  | succ fuel ih =>
    simp only [emptyFrom, sat_bind, sat_iat]
    by_cases hlt : DIRENT * n < (s.itable dp).d.size.toNat
    · simp only [hlt, if_true, sat_bind]
      refine (readDirent_spec h ht hlt fun hsh => hX (by unfold DIRENT at *; omega)).mono ?_
      rintro bs s1 ⟨rfl, hinum, -, hle⟩
      rw [hinum]
      by_cases h0 : entInum (s1.byte sb dp) n = 0
      · simp only [h0, if_true, sat_pure]
        exact ⟨rfl, n, rfl, hold, hn, .inl ⟨hle, h0⟩⟩
      · rw [if_neg h0, ← mul_succ]
        refine ih (by omega) (by rw [mul_succ]; exact hle) fun m hm => ?_
        rcases Nat.lt_succ_iff_lt_or_eq.1 hm with h1 | rfl
        · exact hold m h1
        · exact h0
    · simp only [hlt, if_false, sat_pure]
      exact ⟨rfl, n, rfl, hold, hn, .inr (by omega)⟩

/-- The entries in use are the same. -/
def TableSame (t t' : Itable) : Prop := ∀ k, (t' k).ref = (t k).ref ∧ (0 < (t k).ref → t' k = t k)

theorem IgetPost.not_frees {k : Nat} (h : IgetPost inum s k s') : ¬(s'.itable k).Frees := by
  rintro ⟨h1, h2, -⟩
  rcases h.entry with ⟨h0, -, e⟩ | ⟨-, -, e⟩
  · rw [e] at h1
    dsimp only at h1
    omega
  · rw [e] at h2
    cases h2

theorem IgetPost.iput {k : Nat} {s'' : FsState} (h : IgetPost inum s k s') (hp : IputPost sb k s' s'') :
    s''.blocks = s.blocks ∧ TableSame s.itable s''.itable := by
  obtain ⟨hb, ht⟩ := hp.kept h.not_frees
  refine ⟨hb.trans h.blocks, fun j => ?_⟩
  rw [ht]
  by_cases e : j = k
  · subst e
    rw [Function.update_self]
    rcases h.entry with ⟨h0, -, e⟩ | ⟨h0, -, e⟩
    · rw [e]
      exact ⟨rfl, fun _ => rfl⟩
    · rw [e]
      exact ⟨by simp [h0], fun hpos => absurd hpos (by omega)⟩
  · rw [Function.update_of_ne e, h.other j e]
    exact ⟨rfl, fun _ => rfl⟩

theorem writeDirent_spec {g : Nat → UInt8} (h : Held sb s dp) (hn : DIRENT * n ≤ (s.itable dp).d.size.toNat) :
    Sat seq (writei sb dp (kernelSrc g) (ofNat (DIRENT * n)) (ofNat DIRENT)) s
      (fun r s' => r = some DIRENT ∧ Written sb dp (kernelSrc g) (DIRENT * n) DIRENT s DIRENT s' ∨
        r ≠ some DIRENT ∧ (s' = s ∨ Written sb dp (kernelSrc g) (DIRENT * n) DIRENT s 0 s')) X := by
  have hsize := size_le h.cons (h.alloc dp h.live)
  have hoff := toNat_ofNat_lt (n := DIRENT * n) (by omega)
  refine (writei_spec h).mono ?_
  intro r s' w
  unfold WritePost at w
  split at w
  · obtain ⟨rfl, rfl⟩ := w
    exact .inr ⟨by simp, .inl rfl⟩
  obtain ⟨tot, rfl, w⟩ := w
  rw [hoff] at w
  have h16 : (ofNat DIRENT).toNat = DIRENT := rfl
  have hle := w.le
  have hstop := w.stop
  by_cases htot : tot = DIRENT
  · subst htot
    exact .inl ⟨rfl, w⟩
  · obtain rfl : tot = 0 := by unfold DIRENT BSIZE at *; omega
    exact .inr ⟨by simp [DIRENT], .inr w⟩

inductive DirlinkPost (sb : Super) (dp : Nat) (name : List UInt8) (inum : Nat) (s : FsState) : Bool → FsState → Prop
  /-- The name is present. -/
  | present (s' : FsState) (n : Nat) : DIRENT * n + DIRENT ≤ (s.itable dp).d.size.toNat →
      EntMatch (s.byte sb dp) name n → s'.blocks = s.blocks → TableSame s.itable s'.itable → Good sb s' →
      DirlinkPost sb dp name inum s false s'
  /-- The entry cannot be written. -/
  | full (s' : FsState) (n : Nat) : (∀ m, DIRENT * m < (s.itable dp).d.size.toNat → ¬EntMatch (s.byte sb dp) name m) →
      s' = s ∨ Written sb dp (kernelSrc fun i => (dirent inum name).getD i 0) (DIRENT * n) DIRENT s 0 s' →
      DIRENT * n ≤ (s.itable dp).d.size.toNat → DirlinkPost sb dp name inum s false s'
  | linked (s' : FsState) (n : Nat) : (∀ m, DIRENT * m < (s.itable dp).d.size.toNat → ¬EntMatch (s.byte sb dp) name m) →
      EmptyPost sb dp s (DIRENT * n) s →
      Written sb dp (kernelSrc fun i => (dirent inum name).getD i 0) (DIRENT * n) DIRENT s DIRENT s' →
      DirlinkPost sb dp name inum s true s'

theorem dirlink_spec (h : Good sb s) (hl : Live s dp)
    (hD : (s.itable dp).d.type ≠ T_DIR → X "dirlookup not DIR")
    (hX : (s.itable dp).d.size.toNat % DIRENT ≠ 0 → X "dirlookup read" ∧ X "dirlink read")
    (hI : NoRoom sb dp name s → X "iget: no inodes") :
    Sat seq (dirlink sb dp name inum) s (DirlinkPost sb dp name inum s) X := by
  have hh := h.held hl
  have ht := h.alloc dp hl
  simp only [dirlink, sat_bind]
  refine (dirlookup_spec hh.cons ht h.table hD (fun e => (hX e).1) hI).mono ?_
  rintro (- | ⟨k, off⟩) s1 hlook
  · obtain ⟨rfl, hno⟩ := hlook
    simp only [sat_bind, sat_iat]
    refine (emptyFrom_spec (n := 0) hh.cons ht (fun e => (hX e).2) (le_refl _) (zero_le _)
      fun m hm => absurd hm (not_lt_zero m)).mono ?_
    rintro off s2 ⟨rfl, n, rfl, hempty⟩
    refine (writeDirent_spec hh hempty.2.1).mono ?_
    rintro r s' (⟨rfl, w⟩ | ⟨hr, w⟩)
    · simp only [sat_pure, decide_true]
      exact .linked s' n hno ⟨rfl, n, rfl, hempty⟩ w
    · simp only [sat_pure, hr, decide_false]
      exact .full s' n hno w hempty.2.1
  · obtain ⟨n, -, hle, hm, -, hget⟩ := hlook
    simp only [sat_bind, sat_pure]
    refine (iput_spec (hget.good h) hget.ref_pos).mono ?_
    intro _ s' hput
    obtain ⟨hb, htab⟩ := hget.iput hput
    exact .present s' n hle hm hb htab hput.good

end

end Xv6.Fs
