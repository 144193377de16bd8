import Xv6.Lib.Slots
import Xv6.Fs.Disk

/-!
# Directories as finite maps

A name is what `namecmp` sees of it: the bytes before the first NUL, at most `DIRSIZ` of them. The contents of a
directory are a table of slots, each free or with a name and an inode number, and `dirlookup`, `dirlink` and the clearing
of an entry in `sys_unlink` are the operations of `Slots` on it.
-/

namespace Xv6.Fs

open Bytes Prog List Option Slots Nat

/-! ## Names -/

/-- The part of a name that `namecmp` looks at. -/
def nameKey (s : List UInt8) : List UInt8 := (s.take DIRSIZ).takeWhile (· ≠ 0)

theorem strncmpEq_iff {n : Nat} {s t : List UInt8} :
    strncmpEq n s t = true ↔ (s.take n).takeWhile (· ≠ 0) = (t.take n).takeWhile (· ≠ 0) := by
  induction n generalizing s t with
  | zero => simp [strncmpEq]
  | succ n ih =>
    unfold strncmpEq
    cases s with
    | nil =>
      cases t with
      | nil => simp
      | cons b t =>
        by_cases hb : b = 0
        · simp [hb]
        · simp [hb, Ne.symm hb]
    | cons a s =>
      cases t with
      | nil =>
        by_cases ha : a = 0
        · simp [ha]
        · simp [ha]
      | cons b t =>
        by_cases hab : a = b
        · subst hab
          by_cases ha : a = 0
          · simp [ha]
          · simp [ha, ih]
        · by_cases ha : a = 0
          · subst ha
            simp [hab, Ne.symm hab]
          · by_cases hb : b = 0
            · subst hb
              simp [ha]
            · simp [ha, hb, hab]

theorem namecmpEq_iff {s t : List UInt8} : namecmpEq s t = true ↔ nameKey s = nameKey t := strncmpEq_iff

theorem length_strncpy (n : Nat) (s : List UInt8) : (strncpy n s).length = n := by
  induction n generalizing s with
  | zero => rfl
  | succ n ih =>
    unfold strncpy
    split
    · simp
    · simp [ih]

theorem takeWhile_strncpy (n : Nat) (s : List UInt8) : (strncpy n s).takeWhile (· ≠ 0) = (s.take n).takeWhile (· ≠ 0) := by
  induction n generalizing s with
  | zero => rfl
  | succ n ih =>
    unfold strncpy
    cases s with
    | nil => simp [replicate_succ]
    | cons a s =>
      by_cases ha : a = 0
      · simp [ha, replicate_succ]
      · simpa [ha] using ih s

/-! ## The slots of a directory -/

/-- The name and the inode number of the `n`-th entry, if it is in use. -/
def direntAt (f : Nat → UInt8) (n : Nat) : Option (List UInt8 × Nat) :=
  if entInum f n = 0 then none else some (nameKey (entName f n), entInum f n)

def dirents (bs : List UInt8) : List (Option (List UInt8 × Nat)) :=
  (range (bs.length / DIRENT)).map (direntAt fun o => bs.getD o 0)

@[simp] theorem length_dirents (bs : List UInt8) : (dirents bs).length = bs.length / DIRENT := by simp [dirents]

theorem direntAt_congr {f g : Nat → UInt8} {m n : Nat} (h : ∀ k < DIRENT, f (DIRENT * m + k) = g (DIRENT * n + k)) :
    direntAt f m = direntAt g n := by
  have hinum : entInum f m = entInum g n := by
    unfold entInum
    rw [h 1 (by decide)]
    have h0 := h 0 (by decide)
    simp only [add_zero] at h0
    rw [h0]
  have hname : entName f m = entName g n := by
    refine map_congr_left fun k hk => ?_
    have := h (2 + k) (by have := mem_range.1 hk; unfold DIRSIZ at this; unfold DIRENT; omega)
    simpa only [add_assoc] using this
  unfold direntAt
  rw [hinum, hname]

theorem entMatch_iff {f : Nat → UInt8} {name : List UInt8} {n : Nat} :
    EntMatch f name n ↔ direntAt f n = some (nameKey name, entInum f n) := by
  unfold EntMatch direntAt
  rw [namecmpEq_iff]
  by_cases h : entInum f n = 0
  · simp [h]
  · simp [h, eq_comm]

theorem entMatch_of_direntAt {f : Nat → UInt8} {name : List UInt8} {n i : Nat} (h : direntAt f n = some (nameKey name, i)) :
    EntMatch f name n := by
  rw [entMatch_iff]
  unfold direntAt at *
  split at h
  · cases h
  · rename_i h0
    rw [if_neg h0]
    simp only [some.injEq, Prod.mk.injEq] at h ⊢
    exact ⟨h.1, trivial⟩

theorem dirents_splice {bs e : List UInt8} {n : Nat} (hbs : bs.length % DIRENT = 0) (hn : DIRENT * n ≤ bs.length)
    (he : e.length = DIRENT) :
    dirents (bs.take (DIRENT * n) ++ e ++ bs.drop (DIRENT * n + DIRENT)) =
      (dirents bs).take n ++ direntAt (fun o => e.getD o 0) 0 :: (dirents bs).drop (n + 1) := by
  have hlen : (bs.take (DIRENT * n)).length = DIRENT * n := by simp; omega
  have hlen' : (bs.take (DIRENT * n) ++ e ++ bs.drop (DIRENT * n + DIRENT)).length =
      max bs.length (DIRENT * n + DIRENT) := by
    simp only [length_append, hlen, he, length_drop]
    omega
  have hcount : max bs.length (DIRENT * n + DIRENT) / DIRENT = max (bs.length / DIRENT) (n + 1) := by
    unfold DIRENT at *
    omega
  have hn' : n ≤ bs.length / DIRENT := by unfold DIRENT at *; omega
  -- the bytes of the entries around the new one
  have hlow : ∀ o < DIRENT * n, (bs.take (DIRENT * n) ++ e ++ bs.drop (DIRENT * n + DIRENT)).getD o 0 = bs.getD o 0 := by
    intro o ho
    rw [append_assoc, getD_eq_getElem?_getD, getElem?_append_left (by omega), getElem?_take_of_lt ho,
      getD_eq_getElem?_getD]
  have hmid : ∀ k < DIRENT, (bs.take (DIRENT * n) ++ e ++ bs.drop (DIRENT * n + DIRENT)).getD (DIRENT * n + k) 0 =
      e.getD k 0 := by
    intro k hk
    rw [append_assoc, getD_eq_getElem?_getD, getElem?_append_right (by omega),
      getElem?_append_left (by omega), getD_eq_getElem?_getD, hlen, Nat.add_sub_cancel_left]
  have hhigh : ∀ o, DIRENT * n + DIRENT ≤ o →
      (bs.take (DIRENT * n) ++ e ++ bs.drop (DIRENT * n + DIRENT)).getD o 0 = bs.getD o 0 := by
    intro o ho
    rw [getD_eq_getElem?_getD, getElem?_append_right (by simp only [length_append]; omega),
      getElem?_drop, getD_eq_getElem?_getD]
    simp only [length_append, hlen, he]
    congr 2
    omega
  refine ext_getElem ?_ fun m hm hm' => ?_
  · simp only [length_dirents, hlen', hcount, length_append, length_take, length_cons, length_drop]
    omega
  simp only [dirents, getElem_map, getElem_range]
  rcases lt_trichotomy m n with h | h | h
  · rw [getElem_append_left (by simp; omega)]
    simp only [getElem_take, getElem_map, getElem_range]
    refine direntAt_congr fun k hk => hlow _ ?_
    unfold DIRENT at *
    omega
  · subst h
    rw [getElem_append_right (by simp)]
    have h0 : m - ((map (direntAt fun o => bs.getD o 0) (range (bs.length / DIRENT))).take m).length = 0 := by
      simp
      omega
    simp only [h0, getElem_cons_zero]
    refine direntAt_congr fun k hk => ?_
    rw [hmid k hk]
    simp
  · rw [getElem_append_right (by simp; omega)]
    obtain ⟨j, rfl⟩ : ∃ j, m = n + 1 + j := ⟨m - (n + 1), by omega⟩
    have hj : n + 1 + j - ((map (direntAt fun o => bs.getD o 0) (range (bs.length / DIRENT))).take n).length =
        j + 1 := by
      simp
      omega
    simp only [hj, getElem_cons_succ, getElem_drop, getElem_map, getElem_range]
    refine direntAt_congr fun k hk => hhigh _ ?_
    unfold DIRENT at *
    omega

theorem direntAt_dirent {inum : Nat} {name : List UInt8} (h0 : 0 < inum) (hlt : inum < 65536) :
    direntAt (fun o => (dirent inum name).getD o 0) 0 = some (nameKey name, inum) := by
  have hinum : entInum (fun o => (dirent inum name).getD o 0) 0 = inum := by
    simp only [entInum, dirent, le16, Nat.mul_zero, Nat.zero_add, cons_append, getD_cons_zero, getD_cons_succ,
      UInt8.toNat_ofNat']
    omega
  have hname : entName (fun o => (dirent inum name).getD o 0) 0 = strncpy DIRSIZ name := by
    have hlen := length_strncpy DIRSIZ name
    refine ext_getElem (by simp [entName, hlen]) fun k hk hk' => ?_
    simp only [entName, getElem_map, getElem_range, Nat.mul_zero, Nat.zero_add, Nat.add_comm 2]
    simp [dirent, le16, getD_eq_getElem?_getD, hk']
  have hkey : nameKey (strncpy DIRSIZ name) = nameKey name := by
    unfold nameKey
    rw [take_of_length_le (by rw [length_strncpy]), takeWhile_strncpy]
  rw [direntAt, hinum, hname, hkey, if_neg (by omega)]

theorem direntAt_zero (n : Nat) : direntAt (fun _ => 0) n = none := by
  simp [direntAt, entInum]

/-! ## The calls on a locked directory -/

/-- The inode in table entry `dp` is a directory, locked by the caller. -/
structure Directory (sb : Super) (s : FsState) (dp : Nat) : Prop where
  good : Good sb s
  live : Live s dp
  type : (s.itable dp).d.type = T_DIR
  size : (s.itable dp).d.size.toNat % DIRENT = 0

/-- The slots of the directory in table entry `dp`. -/
def FsState.dirents (sb : Super) (s : FsState) (dp : Nat) : List (Option (List UInt8 × Nat)) :=
  Fs.dirents ((view sb s.blocks).content (s.itable dp).inum)

section
variable {sb : Super} {s s' : FsState} {dp n i : Nat} {name : List UInt8} {X : String → Prop}

theorem Good.length_content (h : Good sb s) (hl : Live s dp) :
    ((view sb s.blocks).content (s.itable dp).inum).length = (s.itable dp).d.size.toNat := by
  rw [Fs.length_content, ← h.copy dp hl]

theorem Good.getD_content (h : Good sb s) (hl : Live s dp) {o : Nat} (ho : o < (s.itable dp).d.size.toNat) :
    ((view sb s.blocks).content (s.itable dp).inum).getD o 0 = s.byte sb dp o := by
  have hlt : o < ((view sb s.blocks).content (s.itable dp).inum).length := by rw [h.length_content hl]; exact ho
  rw [getD_eq_getElem?_getD, getElem?_eq_getElem hlt, getD_some, getElem_content, h.byte_eq hl]

theorem Good.getElem?_dirents (h : Good sb s) (hl : Live s dp) (hn : DIRENT * n + DIRENT ≤ (s.itable dp).d.size.toNat) :
    (s.dirents sb dp)[n]? = some (direntAt (s.byte sb dp) n) := by
  have hcount : n < ((view sb s.blocks).content (s.itable dp).inum).length / DIRENT := by
    rw [h.length_content hl]
    unfold DIRENT at *
    omega
  unfold FsState.dirents Fs.dirents
  rw [getElem?_map, getElem?_range hcount, map_some]
  congr 1
  refine direntAt_congr fun k hk => h.getD_content hl ?_
  omega

theorem Directory.lt_of_getElem? (h : Directory sb s dp) {e : Option (List UInt8 × Nat)} (hn : (s.dirents sb dp)[n]? = some e) :
    DIRENT * n + DIRENT ≤ (s.itable dp).d.size.toNat := by
  obtain ⟨hlt, -⟩ := List.getElem?_eq_some_iff.1 hn
  unfold FsState.dirents at hlt
  rw [length_dirents, h.good.length_content h.live] at hlt
  unfold DIRENT at *
  omega

theorem Directory.lookup_of_match (h : Directory sb s dp) (hn : DIRENT * n + DIRENT ≤ (s.itable dp).d.size.toNat)
    (hm : EntMatch (s.byte sb dp) name n) (hlt : ∀ m < n, ¬EntMatch (s.byte sb dp) name m) :
    (s.dirents sb dp)[n]? = some (some (nameKey name, entInum (s.byte sb dp) n)) ∧
      lookup (nameKey name) (s.dirents sb dp) = some (entInum (s.byte sb dp) n) := by
  have hget : (s.dirents sb dp)[n]? = some (some (nameKey name, entInum (s.byte sb dp) n)) := by
    rw [h.good.getElem?_dirents h.live hn, entMatch_iff.1 hm]
  refine ⟨hget, lookup_first hget fun m hmn v' e => hlt m hmn ?_⟩
  rw [h.good.getElem?_dirents h.live (by unfold DIRENT at *; omega), some.injEq] at e
  exact entMatch_of_direntAt e

theorem Directory.lookup_of_none (h : Directory sb s dp)
    (hno : ∀ n, DIRENT * n < (s.itable dp).d.size.toNat → ¬EntMatch (s.byte sb dp) name n) :
    lookup (nameKey name) (s.dirents sb dp) = none := by
  rw [lookup_eq_none, Slots.mem_keys]
  rintro ⟨v, hv⟩
  obtain ⟨n, hn⟩ := mem_iff_getElem?.1 hv
  have hle := h.lt_of_getElem? hn
  refine hno n (by unfold DIRENT at *; omega) ?_
  rw [h.good.getElem?_dirents h.live hle, some.injEq] at hn
  exact entMatch_of_direntAt hn

/-- `dirlookup` finds what the table of slots gives, and takes a reference to it. -/
def Found (sb : Super) (dp : Nat) (name : List UInt8) (s : FsState) : Option (Nat × Nat) → FsState → Prop
  | none, s' => s' = s ∧ lookup (nameKey name) (s.dirents sb dp) = none
  | some (k, off), s' => ∃ n i, off = DIRENT * n ∧ (s.dirents sb dp)[n]? = some (some (nameKey name, i)) ∧
      lookup (nameKey name) (s.dirents sb dp) = some i ∧ IgetPost i s k s'

theorem dirlookup_names (h : Directory sb s dp)
    (hI : ∀ i, lookup (nameKey name) (s.dirents sb dp) = some i → igetSlot s.itable i = none → X "iget: no inodes") :
    Sat seq (dirlookup sb dp name) s (Found sb dp name s) X := by
  have hroom : NoRoom sb dp name s → X "iget: no inodes" := by
    rintro ⟨n, hle, hm, hlt, hno⟩
    exact hI _ (h.lookup_of_match hle hm hlt).2 hno
  refine (dirlookup_spec (h.good.held h.live).cons (h.good.alloc dp h.live) h.good.table (fun hne => absurd h.type hne)
    (fun hne => absurd h.size hne) hroom).mono ?_
  rintro (- | ⟨k, off⟩) s' p
  · exact ⟨p.1, h.lookup_of_none p.2⟩
  · obtain ⟨n, hoff, hle, hm, hlt, hget⟩ := p
    obtain ⟨h1, h2⟩ := h.lookup_of_match hle hm hlt
    exact ⟨n, _, hoff, h1, h2, hget⟩

theorem Directory.dirents_written {g : Nat → UInt8} (h : Directory sb s dp) (hn : DIRENT * n ≤ (s.itable dp).d.size.toNat)
    (w : Written sb dp (kernelSrc g) (DIRENT * n) DIRENT s DIRENT s') :
    s'.dirents sb dp = (s.dirents sb dp).take n ++ direntAt g 0 :: (s.dirents sb dp).drop (n + 1) := by
  have hlen := h.good.length_content h.live
  have hentry : direntAt (fun o => ((range DIRENT).map g).getD o 0) 0 = direntAt g 0 :=
    direntAt_congr fun k hk => by simp [hk]
  unfold FsState.dirents
  rw [w.inum, w.content_self h.good h.live hn, dirents_splice (by rw [hlen]; exact h.size) (by rw [hlen]; exact hn) (by simp),
    hentry]

theorem Written.content_zero {g : Nat → UInt8} {off m : Nat} (w : Written sb dp (kernelSrc g) off m s 0 s') (h : Good sb s)
    (hl : Live s dp) (hoff : off ≤ (s.itable dp).d.size.toNat) :
    (view sb s'.blocks).content (s.itable dp).inum = (view sb s.blocks).content (s.itable dp).inum := by
  rw [w.content_self h hl hoff]
  simp

/-- What `dirlink` does to the slots. -/
inductive LinkPost (sb : Super) (dp : Nat) (name : List UInt8) (inum : Nat) (s : FsState) : Bool → FsState → Prop
  | present (s' : FsState) (i : Nat) : lookup (nameKey name) (s.dirents sb dp) = some i → s'.blocks = s.blocks →
      TableSame s.itable s'.itable → Good sb s' → LinkPost sb dp name inum s false s'
  | full (s' : FsState) (n : Nat) : lookup (nameKey name) (s.dirents sb dp) = none →
      DIRENT * n ≤ (s.itable dp).d.size.toNat →
      s' = s ∨ Written sb dp (kernelSrc fun i => (dirent inum name).getD i 0) (DIRENT * n) DIRENT s 0 s' →
      LinkPost sb dp name inum s false s'
  | linked (s' : FsState) (n : Nat) : lookup (nameKey name) (s.dirents sb dp) = none →
      DIRENT * n ≤ (s.itable dp).d.size.toNat →
      Written sb dp (kernelSrc fun i => (dirent inum name).getD i 0) (DIRENT * n) DIRENT s DIRENT s' →
      (0 < inum → inum < 65536 → s'.dirents sb dp = insert (nameKey name, inum) (s.dirents sb dp)) →
      LinkPost sb dp name inum s true s'

theorem EmptyPost.insert_eq {e : List UInt8 × Nat} (h : Directory sb s dp) (p : EmptyPost sb dp s (DIRENT * n) s) :
    insert e (s.dirents sb dp) = (s.dirents sb dp).take n ++ some e :: (s.dirents sb dp).drop (n + 1) := by
  obtain ⟨-, n', he, hlt, hle, hend⟩ := p
  obtain rfl : n = n' := by unfold DIRENT at he; omega
  refine Slots.insert_eq (fun m hm => ?_) ?_
  · have hle' : DIRENT * m + DIRENT ≤ (s.itable dp).d.size.toNat := by unfold DIRENT at *; omega
    refine ⟨(nameKey (entName (s.byte sb dp) m), entInum (s.byte sb dp) m), ?_⟩
    rw [h.good.getElem?_dirents h.live hle', direntAt, if_neg (hlt m hm)]
  · rcases hend with ⟨h1, h2⟩ | h1
    · left
      rw [h.good.getElem?_dirents h.live h1, direntAt, if_pos h2]
    · right
      unfold FsState.dirents
      rw [length_dirents, h.good.length_content h.live, ← h1]
      unfold DIRENT
      omega

theorem dirlink_names {inum : Nat} (h : Directory sb s dp)
    (hI : ∀ i, lookup (nameKey name) (s.dirents sb dp) = some i → igetSlot s.itable i = none → X "iget: no inodes") :
    Sat seq (dirlink sb dp name inum) s (LinkPost sb dp name inum s) X := by
  have hroom : NoRoom sb dp name s → X "iget: no inodes" := by
    rintro ⟨n, hle, hm, hlt, hno⟩
    exact hI _ (h.lookup_of_match hle hm hlt).2 hno
  refine (dirlink_spec h.good h.live (fun hne => absurd h.type hne) (fun hne => absurd h.size hne) hroom).mono ?_
  rintro r s' (⟨_, n, hle, hm, hb, ht, hg⟩ | ⟨_, n, hno, hw, hle⟩ | ⟨_, n, hno, hempty, hw⟩)
  · have hsome : lookup (nameKey name) (s.dirents sb dp) ≠ none := by
      rw [Ne, lookup_eq_none, not_not, Slots.mem_keys]
      have hget := h.good.getElem?_dirents h.live hle
      rw [entMatch_iff.1 hm] at hget
      exact ⟨_, mem_of_getElem? hget⟩
    obtain ⟨i, hi⟩ := ne_none_iff_exists'.1 hsome
    exact .present s' i hi hb ht hg
  · exact .full s' n (h.lookup_of_none hno) hle hw
  · have hle : DIRENT * n ≤ (s.itable dp).d.size.toNat := by
      obtain ⟨-, n', he, -, hle, -⟩ := hempty
      rw [he]
      exact hle
    refine .linked s' n (h.lookup_of_none hno) hle hw fun h0 hlt => ?_
    rw [h.dirents_written hle hw, hempty.insert_eq h, direntAt_dirent h0 hlt]

theorem IgetPost.directory {k : Nat} (h : IgetPost i s k s') (hd : Directory sb s dp) : Directory sb s' dp := by
  have hsame : (s'.itable dp).d = (s.itable dp).d ∧ Live s' dp := by
    by_cases e : dp = k
    · subst e
      rcases h.entry with ⟨-, -, e⟩ | ⟨h0, -⟩
      · unfold Live
        rw [e]
        exact ⟨rfl, succ_pos _, hd.live.2⟩
      · exact absurd hd.live.1 (by omega)
    · unfold Live
      rw [h.other dp e]
      exact ⟨rfl, hd.live⟩
  exact ⟨h.good hd.good, hsame.2, hsame.1 ▸ hd.type, hsame.1 ▸ hd.size⟩

theorem IgetPost.dirents {k : Nat} (h : IgetPost i s k s') (hd : Directory sb s dp) : s'.dirents sb dp = s.dirents sb dp := by
  have hinum : (s'.itable dp).inum = (s.itable dp).inum := by
    by_cases e : dp = k
    · subst e
      rcases h.entry with ⟨-, -, e⟩ | ⟨h0, -⟩
      · rw [e]
      · exact absurd hd.live.1 (by omega)
    · rw [h.other dp e]
  unfold FsState.dirents
  rw [h.blocks, hinum]

theorem TableSame.directory (ht : TableSame s.itable s'.itable) (hb : s'.blocks = s.blocks) (hg : Good sb s')
    (hd : Directory sb s dp) : Directory sb s' dp ∧ s'.dirents sb dp = s.dirents sb dp := by
  have e := (ht dp).2 hd.live.1
  refine ⟨⟨hg, ?_, e ▸ hd.type, e ▸ hd.size⟩, ?_⟩
  · unfold Live
    rw [e]
    exact hd.live
  · unfold FsState.dirents
    rw [hb, e]

theorem Written.directory {cp : Src} {tot : Nat} (w : Written sb dp cp (DIRENT * n) DIRENT s tot s') (hd : Directory sb s dp)
    (htot : tot = 0 ∨ tot = DIRENT) (hn : DIRENT * n ≤ (s.itable dp).d.size.toNat) : Directory sb s' dp := by
  refine ⟨w.good, w.live hd.live, by rw [w.self]; exact hd.type, ?_⟩
  have hsize := w.size
  have := hd.size
  unfold DIRENT at *
  omega

def clearEntry (sb : Super) (dp off : Nat) : M (Option Nat) :=
  writei sb dp (kernelSrc fun _ => 0) (UInt32.ofNat off) (UInt32.ofNat DIRENT)

theorem not_badWrite {size : UInt32} {off : Nat} (hoff : off ≤ size.toNat) (hmax : off + DIRENT ≤ MAXFILE * BSIZE) :
    ¬BadWrite size (UInt32.ofNat off) (UInt32.ofNat DIRENT) := by
  have hadd : (UInt32.ofNat off + UInt32.ofNat DIRENT).toNat = off + DIRENT := ofNat_add_dirent (by omega)
  have ho := toNat_ofNat_lt (n := off) (by omega)
  rw [BadWrite, not_or, not_or, GT.gt, UInt32.lt_iff_toNat_lt, UInt32.lt_iff_toNat_lt, hadd, ho]
  omega

theorem clearEntry_names (h : Directory sb s dp) {e : List UInt8 × Nat} (hn : (s.dirents sb dp)[n]? = some (some e)) :
    Sat seq (clearEntry sb dp (DIRENT * n)) s (fun r s' => r = some DIRENT ∧
      Written sb dp (kernelSrc fun _ => 0) (DIRENT * n) DIRENT s DIRENT s' ∧
      s'.dirents sb dp = (s.dirents sb dp).set n none) X := by
  have hle := h.lt_of_getElem? hn
  have hlt := (List.getElem?_eq_some_iff.1 hn).1
  have hh := h.good.held h.live
  have hmax := size_le hh.cons (h.good.alloc dp h.live)
  have hoff := toNat_ofNat_lt (n := DIRENT * n) (by omega)
  have hwithin : Sat seq (clearEntry sb dp (DIRENT * n)) s (fun r _ => r = some DIRENT) fun _ => False := by
    refine (writei_within hh (not_badWrite (by omega) (by omega)) ?_).mono fun r s' hr => hr
    rw [hoff]
    exact hle
  refine sat_of_run (fun r s' hrun => ?_) fun m hrun => (hwithin.error hrun).elim
  have hr := hwithin.ok hrun
  have hspec : Sat seq (clearEntry sb dp (DIRENT * n)) s _ fun _ => False := writeDirent_spec hh (by omega)
  rcases hspec.ok hrun with ⟨-, w⟩ | ⟨hne, -⟩
  · refine ⟨hr, w, ?_⟩
    rw [h.dirents_written (by omega) w, direntAt_zero, set_eq_take_append_cons_drop, if_pos hlt]
  · exact absurd hr hne

theorem dirlink_full {inum : Nat} (h : Directory sb s dp) (hdir : (dirlink sb dp name inum).run seq s = .ok (false, s'))
    (hnone : lookup (nameKey name) (s.dirents sb dp) = none) :
    none ∉ s.dirents sb dp ∧
      ((s.itable dp).d.size.toNat + DIRENT > MAXFILE * BSIZE ∨ FullReported sb (dirlink sb dp name inum) s) := by
  have hh := h.good.held h.live
  have hmax := size_le hh.cons (h.good.alloc dp h.live)
  unfold dirlink at hdir ⊢
  obtain ⟨r, s1, hlook, hrun⟩ := run_bind_ok.1 hdir
  have hfound : Sat seq (dirlookup sb dp name) s (Found sb dp name s) fun _ => True := dirlookup_names h fun _ _ _ => trivial
  have hr := hfound.ok hlook
  cases r with
  | some r =>
    obtain ⟨_, _, -, -, hsome, -⟩ := hr
    rw [hnone] at hsome
    cases hsome
  | none =>
    obtain ⟨rfl, -⟩ := hr
    obtain ⟨t, s2, ht, hrun⟩ := run_bind_ok.1 hrun
    obtain ⟨rfl, rfl⟩ : t = s1.itable dp ∧ s2 = s1 := by
      cases ht
      exact ⟨rfl, rfl⟩
    obtain ⟨off, s3, hoff, hrun⟩ := run_bind_ok.1 hrun
    have hempty : Sat seq _ s2 (EmptyPost sb dp s2) fun _ => True :=
      emptyFrom_spec (n := 0) hh.cons (h.good.alloc dp h.live) (fun _ => trivial) (le_refl _) (zero_le _)
        fun m hm => absurd hm (not_lt_zero m)
    obtain ⟨rfl, n, rfl, hused, hle, hend⟩ := hempty.ok hoff
    obtain ⟨r, s4, hwrite, hrun⟩ := run_bind_ok.1 hrun
    have hshort : r ≠ some DIRENT := by
      obtain ⟨e, -⟩ := Prod.mk.inj (Except.ok.inj hrun)
      simpa using e
    -- a write inside the directory would not have failed
    have hn : DIRENT * n = (s3.itable dp).d.size.toNat := by
      rcases hend with ⟨h1, -⟩ | h1
      · have hwithin : Sat seq (writei sb dp (kernelSrc fun i => (dirent inum name).getD i 0) (UInt32.ofNat (DIRENT * n))
            (UInt32.ofNat DIRENT)) s3 (fun r _ => r = some DIRENT) fun _ => True :=
          (writei_within hh (not_badWrite (by omega) (by omega)) (by rw [toNat_ofNat_lt (by omega)]; exact h1)).mono
            fun r s' hr => hr
        exact absurd (hwithin.ok hwrite) hshort
      · exact h1
    constructor
    · intro hmem
      obtain ⟨m, hm⟩ := mem_iff_getElem?.1 hmem
      have hlt := h.lt_of_getElem? hm
      rw [h.good.getElem?_dirents h.live hlt, direntAt, if_neg (hused m (by unfold DIRENT at *; omega))] at hm
      cases hm
    · by_cases hbig : (s3.itable dp).d.size.toNat + DIRENT > MAXFILE * BSIZE
      · exact .inl hbig
      right
      have hpost : Sat seq (writei sb dp (kernelSrc fun i => (dirent inum name).getD i 0) (UInt32.ofNat (DIRENT * n))
          (UInt32.ofNat DIRENT)) s3 (WritePost sb dp _ _ _ s3) fun _ => True := writei_spec hh
      have hw := hpost.ok hwrite
      rw [WritePost, if_neg (not_badWrite (by omega) (by omega))] at hw
      obtain ⟨tot, rfl, w⟩ := hw
      have htot : tot < (UInt32.ofNat DIRENT).toNat := by
        have := w.le
        have hne : tot ≠ DIRENT := fun e => hshort (by rw [e])
        have h16 : (UInt32.ofNat DIRENT).toNat = DIRENT := rfl
        omega
      exact .after hlook (.after ht (.after hoff (writei_short hwrite htot).first))

theorem LinkPost.distinct {inum : Nat} {r : Bool} (p : LinkPost sb dp name inum s r s') (h : Directory sb s dp)
    (h0 : 0 < inum) (hlt : inum < 65536) (hd : Slots.Distinct (s.dirents sb dp)) : Slots.Distinct (s'.dirents sb dp) := by
  cases p with
  | present _ i _ hb ht hg =>
    rw [(ht.directory hb hg h).2]
    exact hd
  | full _ n _ hle hw =>
    rcases hw with rfl | w
    · exact hd
    · unfold FsState.dirents
      rw [w.inum, w.content_zero h.good h.live hle]
      exact hd
  | linked _ n hnone _ _ e =>
    rw [e h0 hlt]
    exact distinct_insert hd hnone

theorem LinkPost.dirents_false {inum : Nat} (p : LinkPost sb dp name inum s false s') (h : Directory sb s dp) :
    s'.dirents sb dp = s.dirents sb dp := by
  cases p with
  | present _ i _ hb ht hg => exact (ht.directory hb hg h).2
  | full _ n _ hle hw =>
    rcases hw with rfl | w
    · rfl
    · unfold FsState.dirents
      rw [w.inum, w.content_zero h.good h.live hle]

end

theorem directories_are_maps {sb : Super} {s : FsState} {dp : Nat} (h : Directory sb s dp)
    (hd : Slots.Distinct (s.dirents sb dp)) (name : List UInt8) :
    (∀ i, lookup (nameKey name) (s.dirents sb dp) = some i ↔ some (nameKey name, i) ∈ s.dirents sb dp) ∧
    (lookup (nameKey name) (s.dirents sb dp) = none → (dirlookup sb dp name).run seq s = .ok (none, s)) ∧
    (∀ i, some (nameKey name, i) ∈ s.dirents sb dp → igetSlot s.itable i ≠ none →
      ∃ k n s1, (dirlookup sb dp name).run seq s = .ok (some (k, DIRENT * n), s1) ∧ (s1.itable k).inum = i ∧
        (s.dirents sb dp)[n]? = some (some (nameKey name, i)) ∧ s1.dirents sb dp = s.dirents sb dp ∧
        ∃ s2, (clearEntry sb dp (DIRENT * n)).run seq s1 = .ok (some DIRENT, s2) ∧
          s2.dirents sb dp = (s.dirents sb dp).set n none ∧ Slots.Distinct (s2.dirents sb dp) ∧
          ∀ key, lookup key (s2.dirents sb dp) =
            if key = nameKey name then none else lookup key (s.dirents sb dp)) ∧
    ∀ inum, 0 < inum → inum < 65536 → (∀ i, some (nameKey name, i) ∈ s.dirents sb dp → igetSlot s.itable i ≠ none) →
      ∃ r s', (dirlink sb dp name inum).run seq s = .ok (r, s') ∧ Slots.Distinct (s'.dirents sb dp) ∧
        (r = false → s'.dirents sb dp = s.dirents sb dp ∧
          ((∃ i, some (nameKey name, i) ∈ s.dirents sb dp) ∨ none ∉ s.dirents sb dp ∧
            ((s.itable dp).d.size.toNat + DIRENT > MAXFILE * BSIZE ∨ FullReported sb (dirlink sb dp name inum) s))) ∧
        (r = true → (∀ i, some (nameKey name, i) ∉ s.dirents sb dp) ∧
          s'.dirents sb dp = insert (nameKey name, inum) (s.dirents sb dp) ∧
          ∀ key, lookup key (s'.dirents sb dp) =
            if key = nameKey name then some inum else lookup key (s.dirents sb dp)) := by
  have hmem : ∀ i, lookup (nameKey name) (s.dirents sb dp) = some i ↔ some (nameKey name, i) ∈ s.dirents sb dp :=
    fun i => lookup_eq_some hd
  refine ⟨hmem, fun hnone => ?_, fun i hi hroom => ?_, fun inum h0 hlt hroom => ?_⟩
  · have hspec : Sat seq (dirlookup sb dp name) s (Found sb dp name s) fun _ => False :=
      dirlookup_names h fun i hi _ => by rw [hnone] at hi; cases hi
    obtain ⟨r, s', hrun, hr⟩ := hspec.exists_ok
    cases r with
    | none => rw [hrun, hr.1]
    | some r =>
      obtain ⟨_, _, -, -, hsome, -⟩ := hr
      rw [hnone] at hsome
      cases hsome
  · have hsome := (hmem i).2 hi
    have hspec : Sat seq (dirlookup sb dp name) s (Found sb dp name s) fun _ => False :=
      dirlookup_names h fun j hj hno => hroom (by rw [hsome] at hj; cases hj; exact hno)
    obtain ⟨r, s1, hrun, hr⟩ := hspec.exists_ok
    cases r with
    | none =>
      rw [hr.2] at hsome
      cases hsome
    | some r =>
      obtain ⟨n, j, hoff, hn, hj, hget⟩ := hr
      obtain rfl : j = i := some.inj (hj.symm.trans hsome)
      have hdir := hget.directory h
      have hents := hget.dirents h
      have hclear : Sat seq (clearEntry sb dp (DIRENT * n)) s1 _ fun _ => False :=
        clearEntry_names hdir (by rw [hents]; exact hn)
      obtain ⟨_, s2, hrun2, rfl, -, hset⟩ := hclear.exists_ok
      rw [hents] at hset
      refine ⟨r.1, n, s1, by rw [hrun, ← hoff], hget.inum_eq, hn, hents, s2, hrun2, hset, ?_, fun key => ?_⟩
      · rw [hset]
        exact distinct_set_none hd
      · rw [hset]
        exact lookup_set_none hd hn
  · have hspec : Sat seq (dirlink sb dp name inum) s (LinkPost sb dp name inum s) fun _ => False :=
      dirlink_names h fun i hi hno => hroom i ((hmem i).1 hi) hno
    obtain ⟨r, s', hrun, p⟩ := hspec.exists_ok
    refine ⟨r, s', hrun, p.distinct h h0 hlt hd, ?_, ?_⟩
    · rintro rfl
      refine ⟨p.dirents_false h, ?_⟩
      cases hl : lookup (nameKey name) (s.dirents sb dp) with
      | some i => exact .inl ⟨i, (hmem i).1 hl⟩
      | none => exact .inr (dirlink_full h hrun hl)
    · rintro rfl
      cases p with
      | linked _ n hnone _ _ e =>
        refine ⟨fun i hi => ?_, e h0 hlt, fun key => ?_⟩
        · rw [(hmem i).2 hi] at hnone
          cases hnone
        · rw [e h0 hlt]
          exact lookup_insert hnone

/-! ## A full inode table -/

/-- A root directory with one file `a`. -/
def fileEntry : List (Nat × List UInt8) := [(2, [97])]

/-- The root directory is locked in entry 0; the entries below `n` are in use. -/
def busyTable (ents : List (Nat × List UInt8)) (n : Nat) : Itable := fun k =>
  if k = 0 then ⟨1, 1, true, rootInode ents⟩ else if k < n then ⟨2 + k, 1, false, {}⟩ else {}

def busyState (n : Nat) : FsState := treeState fileEntry emptyFile 52 (busyTable fileEntry n) []

theorem tableOk_busyTable {ents : List (Nat × List UInt8)} {n : Nat} (hn : n ≤ NINODE) : TableOk (busyTable ents n) := by
  have huse : ∀ k, 0 < (busyTable ents n k).ref →
      k = 0 ∧ (busyTable ents n k).inum = 1 ∨ 0 < k ∧ k < n ∧ (busyTable ents n k).inum = 2 + k := by
    intro k hk
    unfold busyTable at hk ⊢
    split at hk
    · rename_i h0
      exact .inl ⟨h0, by rw [if_pos h0]⟩
    · split at hk
      · rename_i h0 hlt
        exact .inr ⟨Nat.pos_of_ne_zero h0, hlt, by rw [if_neg h0, if_pos hlt]⟩
      · cases hk
  refine ⟨fun k hk => ?_, fun k k' hk hk' e => ?_⟩
  · have := huse k hk
    unfold NINODE at *
    omega
  · have h1 := huse k hk
    have h2 := huse k' hk'
    omega

theorem good_busyState {n : Nat} (hn : n ≤ NINODE) : Good mkfsSuper (busyState n) := by
  refine good_treeState (by decide) (by decide) (by decide) rfl rfl (tableOk_busyTable hn) fun k _ hv => ?_
  unfold busyTable at hv ⊢
  split at hv
  · rename_i hk
    simp [hk, treeView, rootInode, T_DIR]
  · split at hv <;> cases hv

theorem directory_busyState {n : Nat} (hn : n ≤ NINODE) : Directory mkfsSuper (busyState n) 0 := by
  refine ⟨good_busyState hn, ⟨one_pos, rfl⟩, rfl, ?_⟩
  change (rootInode fileEntry).size.toNat % DIRENT = 0
  decide

theorem dirents_busyState (n : Nat) : (busyState n).dirents mkfsSuper 0 = [some ([97], 2)] := by
  unfold FsState.dirents busyState
  rw [view_treeState (by decide)]
  change dirents ((treeView fileEntry emptyFile 52).content 1) = _
  decide +kernel

theorem directories_are_maps_file : Directory mkfsSuper (busyState 1) 0 ∧
    Slots.Distinct ((busyState 1).dirents mkfsSuper 0) ∧
    ∃ r s', (dirlink mkfsSuper 0 [98] 2).run seq (busyState 1) = .ok (r, s') ∧ Slots.Distinct (s'.dirents mkfsSuper 0) := by
  have hdir : Directory mkfsSuper (busyState 1) 0 := directory_busyState (by decide)
  have hd : Slots.Distinct ((busyState 1).dirents mkfsSuper 0) := by
    rw [dirents_busyState]
    decide
  have hempty : igetEmpty (busyState 1).itable = some 1 := by decide
  have hroom : ∀ i, igetSlot (busyState 1).itable i ≠ none := by
    intro i
    unfold igetSlot
    cases igetFind (busyState 1).itable i with
    | some k => simp
    | none => simp [hempty]
  obtain ⟨r, s', hrun, hd', -⟩ := (directories_are_maps hdir hd [98]).2.2.2 2 (by decide) (by decide) fun i _ => hroom i
  exact ⟨hdir, hd, r, s', hrun, hd'⟩

theorem dirlookup_table_full : Directory mkfsSuper (busyState NINODE) 0 ∧
    Slots.Distinct ((busyState NINODE).dirents mkfsSuper 0) ∧
    some (nameKey [97], 2) ∈ (busyState NINODE).dirents mkfsSuper 0 ∧
    (dirlookup mkfsSuper 0 [97]).run seq (busyState NINODE) = .error "iget: no inodes" := by
  refine ⟨directory_busyState (le_refl _), ?_, ?_, panicOf_eq_some (by decide +kernel)⟩
  · rw [dirents_busyState]
    decide
  · rw [dirents_busyState]
    decide

end Xv6.Fs
