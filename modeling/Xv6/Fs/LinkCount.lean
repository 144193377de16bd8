import Mathlib.Algebra.BigOperators.Group.Finset.Basic
import Xv6.Fs.Calls

/-!
# Link counts

The link count of a file is a `short`, and `sys_link` increments it without looking at it. As long as it is less than 32767,
a link leaves the count equal to the number of entries that name the file, and `sys_unlink` of any of them finds a positive
count. The 32768th link makes the count negative; a disk of the `mkfs` layout has room for the entries.
-/

open Function (update update_self update_of_ne)

namespace Xv6.Fs

open Prog List Option Files Slots Nat

/-! ## Counting entries -/

/-- How many entries of a directory with the contents `bs` name inode `i`. -/
def namesIn (bs : List UInt8) (i : Nat) : Nat := (dirents bs).countP fun o => decide (o.map Prod.snd = some i)

namespace Files

def linksIn (a : Files) (i d : Nat) : Nat :=
  match a.file d with
  | some f => if f.type = T_DIR then namesIn f.bytes i else 0
  | none => 0

/-- How many entries of the directories below `n` name inode `i`. -/
def links (a : Files) (n i : Nat) : Nat := ∑ d ∈ Finset.range n, a.linksIn i d

section
variable {a b : Files} {i d n : Nat} {f fd : File} {e bs : List UInt8}

theorem linksIn_dir (hf : a.file d = some f) (ht : f.type = T_DIR) : a.linksIn i d = namesIn f.bytes i := by
  simp [linksIn, hf, ht]

theorem linksIn_file (hf : a.file d = some f) (ht : f.type ≠ T_DIR) : a.linksIn i d = 0 := by
  simp [linksIn, hf, ht]

theorem linksIn_congr (h : b.file d = a.file d) : b.linksIn i d = a.linksIn i d := by rw [linksIn, linksIn, h]

theorem namesIn_insert {bs' : List UInt8} (h : dirents bs' = insert (e, i) (dirents bs)) : namesIn bs' i = namesIn bs i + 1 := by
  rw [namesIn, h, countP_insert (by simp)]
  simp [namesIn]

theorem links_add (hd : d < n) (hone : b.linksIn i d = a.linksIn i d + 1)
    (hother : ∀ d', d' ≠ d → b.linksIn i d' = a.linksIn i d') : b.links n i = a.links n i + 1 := by
  have hmem : d ∈ Finset.range n := Finset.mem_range.2 hd
  have hrest : ∑ d' ∈ (Finset.range n).erase d, b.linksIn i d' = ∑ d' ∈ (Finset.range n).erase d, a.linksIn i d' :=
    Finset.sum_congr rfl fun d' hd' => hother d' (Finset.ne_of_mem_erase hd')
  unfold links
  rw [← Finset.add_sum_erase _ _ hmem, ← Finset.add_sum_erase _ (a.linksIn i) hmem, hrest, hone]
  omega

theorem walk_named {c : Nat} {es : List (List UInt8)} (h : a.walk c es = some i) : i = c ∨ ∃ d e, a.child d e = some i := by
  by_cases hes : es = []
  · subst hes
    exact .inl (some.inj h).symm
  · rw [walk_eq hes, bind_eq_some_iff] at h
    obtain ⟨p, -, hp⟩ := h
    exact .inr ⟨p.1, p.2, hp⟩

theorem pos_of_child (h : a.child d e = some i) : 0 < i := by
  unfold child at h
  split at h
  · split at h
    · rename_i f _ _
      have hm := mem_of_lookup h
      obtain ⟨n, -, hn⟩ := mem_map.1 hm
      unfold direntAt at hn
      split at hn
      · cases hn
      · rename_i h0
        cases hn
        exact Nat.pos_of_ne_zero h0
    · cases h
  · cases h

end

end Files

/-! ## `short` -/

theorem short_eq (n : UInt16) : short n = if n.toNat < 32768 then (n.toNat : Int) else n.toNat - 65536 := by
  unfold short
  rw [BitVec.toInt_eq_toNat_cond]
  simp only [UInt16.toNat_toBitVec]
  split
  · rw [if_pos (by omega)]
  · rw [if_neg (by omega)]
    rfl

theorem short_add_one {n : UInt16} (h : 0 ≤ short n) :
    short (n + 1) = if short n < 32767 then short n + 1 else -32768 := by
  have hlt := n.toNat_lt
  rw [short_eq] at h ⊢
  rw [short_eq n, UInt16.toNat_add]
  have h1 : (1 : UInt16).toNat = 1 := rfl
  split at h
  · rename_i hn
    by_cases h2 : n.toNat < 32767
    · rw [if_pos (by omega), if_pos hn, if_pos (by omega)]
      omega
    · omega
  · omega

theorem add_one_ne_zero {n : UInt16} (h : 0 ≤ short n) : n + 1 ≠ 0 := by
  intro h0
  have := short_add_one h
  rw [h0] at this
  have hz : short 0 = 0 := by decide
  rw [hz] at this
  split at this <;> omega

/-! ## A new link -/

section
variable {sb : Super} {s s' : FsState} {a b : Files} {i d cwd : Nat} {f fd : File} {e bs old new path name buf : List UInt8} {r : Bool}

/-- The files after a link to `i` has been added to the directory `d`. -/
structure NewLink (a b : Files) (i d : Nat) (f fd : File) (e bs : List UInt8) : Prop where
  file : a.file i = some f
  type : f.type ≠ T_DIR
  dir : a.file d = some fd
  dir_type : fd.type = T_DIR
  entries : dirents bs = Slots.insert (e, i) (dirents fd.bytes)
  size : bs.length % DIRENT = 0
  after : b.file = update (update a.file i (some { f with nlink := f.nlink + 1 })) d (some { fd with bytes := bs })
  refs : b.refs = a.refs

section
variable (h : NewLink a b i d f fd e bs)
include h

theorem NewLink.ne : d ≠ i := by
  rintro rfl
  have := h.file.symm.trans h.dir
  cases this
  exact h.type h.dir_type

theorem NewLink.file_after : b.file i = some { f with nlink := f.nlink + 1 } := by
  rw [h.after, update_of_ne h.ne.symm, update_self]

theorem NewLink.dir_after : b.file d = some { fd with bytes := bs } := by
  rw [h.after, update_self]

theorem NewLink.other {j : Nat} (hi : j ≠ i) (hd : j ≠ d) : b.file j = a.file j := by
  rw [h.after, update_of_ne hd, update_of_ne hi]

theorem NewLink.links {n : Nat} (hd : d < n) : b.links n i = a.links n i + 1 := by
  refine links_add hd ?_ fun d' hd' => ?_
  · rw [linksIn_dir h.dir_after h.dir_type, linksIn_dir h.dir h.dir_type, namesIn_insert h.entries]
  · by_cases e : d' = i
    · subst e
      rw [linksIn_file h.file_after h.type, linksIn_file h.file h.type]
    · exact linksIn_congr (h.other e hd')

theorem NewLink.named {j : Nat} (hj : b.Named j) : j = i ∨ a.Named j := by
  rcases hj with rfl | ⟨d', fd', key, hd', ht', hm⟩
  · exact .inr (.inl rfl)
  by_cases e1 : d' = d
  · subst e1
    rw [h.dir_after] at hd'
    cases hd'
    rw [h.entries] at hm
    rcases mem_insert hm with hm | hm
    · cases hm
      exact .inl rfl
    · exact .inr (.inr ⟨d', fd, key, h.dir, h.dir_type, hm⟩)
  · by_cases e2 : d' = i
    · subst e2
      rw [h.file_after] at hd'
      cases hd'
      exact absurd ht' h.type
    · rw [h.other e2 e1] at hd'
      exact .inr (.inr ⟨d', fd', key, hd', ht', hm⟩)

theorem NewLink.sound (hs : Sound sb a) (hlt : i < sb.ninodes) (hn : f.nlink + 1 ≠ 0) :
    Sound sb b where
  size d' fd' hd' ht' := by
    by_cases e1 : d' = d
    · subst e1
      rw [h.dir_after] at hd'
      cases hd'
      exact h.size
    · by_cases e2 : d' = i
      · subst e2
        rw [h.file_after] at hd'
        cases hd'
        exact absurd ht' h.type
      · rw [h.other e2 e1] at hd'
        exact hs.size d' fd' hd' ht'
  lt j hj := by
    rcases h.named hj with rfl | hj
    · exact hlt
    · exact hs.lt j hj
  linked j hj fj hfj h0 := by
    rw [h.refs]
    by_cases e2 : j = i
    · subst e2
      rw [h.file_after] at hfj
      cases hfj
      exact absurd h0 hn
    · have hold := (h.named hj).resolve_left e2
      by_cases e1 : j = d
      · subst e1
        rw [h.dir_after] at hfj
        cases hfj
        exact hs.linked j hold fd h.dir h0
      · rw [h.other e2 e1] at hfj
        exact hs.linked j hold fj hfj h0
  refs j hj := by
    rw [h.refs] at hj
    by_cases e2 : j = i
    · rw [e2, h.file_after]
      simp
    · by_cases e1 : j = d
      · rw [e1, h.dir_after]
        simp
      · rw [h.other e2 e1]
        exact hs.refs j hj

end

theorem pos_of_walk (hdir : (files sb s).isDir (s.itable cwd).inum = true)
    (hwalk : (files sb s).walk (startOf s cwd path) (elems path) = some i) (hf : (files sb s).file i = some f)
    (ht : f.type ≠ T_DIR) : 0 < i := by
  rcases walk_named hwalk with rfl | ⟨d, e, hchild⟩
  · unfold startOf at hf ⊢
    split
    · decide
    · rename_i hroot
      rw [if_neg hroot] at hf
      rw [isDir_eq hf] at hdir
      exact absurd (of_decide_eq_true hdir) ht
  · exact pos_of_child hchild

def LinksExact (sb : Super) (s : FsState) (i : Nat) : Prop :=
  (∃ f, (files sb s).file i = some f ∧ short f.nlink = (files sb s).links sb.ninodes i) ∧
    ∀ cwd path name, 0 < (s.itable cwd).ref → (files sb s).walk (startOf s cwd path) (elems path) = some i →
      (sysUnlink sb cwd (some path) name).run seq s ≠ .error "unlink: nlink < 1"

theorem unlink_no_panic (hg : Good sb s) (hs : Sound sb (files sb s)) (hcwd : 0 < (s.itable cwd).ref)
    (hwalk : (files sb s).walk (startOf s cwd path) (elems path) = some i) (hf : (files sb s).file i = some f)
    (hn : 1 ≤ short f.nlink) : (sysUnlink sb cwd (some path) name).run seq s ≠ .error "unlink: nlink < 1" := by
  have hspec : Sat seq (sysUnlink sb cwd (some path) name) s (UnlinkCall sb s cwd path) (· ≠ "unlink: nlink < 1") := by
    refine sysUnlink_spec hg hs hcwd (fun m hm => hm) fun d e i' f' hpar hchild hf' hlt => ?_
    have hes : elems path ≠ [] := by
      intro hnil
      rw [hnil] at hpar
      cases hpar
    rw [walk_eq hes, hpar, bind_some, hchild] at hwalk
    cases hwalk
    rw [hf] at hf'
    cases hf'
    omega
  exact fun hrun => hspec.error hrun rfl

end

theorem sys_link_exact_iff {sb : Super} {s s' : FsState} {cwd i : Nat} {f : File} {old : List UInt8} {r : Bool} (hg : Good sb s)
    (hs : Sound sb (files sb s)) (hcwd : 0 < (s.itable cwd).ref) (hdir : (files sb s).isDir (s.itable cwd).inum = true)
    (hwalk : (files sb s).walk (startOf s cwd old) (elems old) = some i) (hf : (files sb s).file i = some f)
    (ht : f.type ≠ T_DIR) (hlinks : short f.nlink = (files sb s).links sb.ninodes i) (new name buf : List UInt8)
    (hrun : (sysLink sb cwd (some old) (some new) name buf).run seq s = .ok (r, s')) :
    r = false ∧ files sb s' = files sb s ∨ r = true ∧ (LinksExact sb s' i ↔ short f.nlink < 32767) := by
  have hpos : 0 ≤ short f.nlink := by
    rw [hlinks]
    exact Int.natCast_nonneg _
  have hi := pos_of_walk hdir hwalk hf ht
  have hcall : LinkCall sb s cwd old new r s' := (sysLink_spec hg hs hcwd).ok hrun
  cases hcall with
  | failed _ h => exact .inl ⟨rfl, h.files_eq⟩
  | linked _ i' d f' fd e bs hw hf' _ hpar hfd htd _ hins hlen h =>
    rw [hwalk] at hw
    cases hw
    rw [hf] at hf'
    cases hf'
    have hne : d ≠ i := by
      rintro rfl
      rw [hf] at hfd
      cases hfd
      exact ht htd
    have hn0 := add_one_ne_zero hpos
    rw [release_of_nlink
      (by rw [update_of_ne hne.symm, update_self]) hn0] at h
    have hlink : NewLink (files sb s) (files sb s') i d f fd e bs := by
      refine ⟨hf, ht, hfd, htd, hins hi, hlen, h.file, ?_⟩
      funext j
      exact h.refs j
    have hcount := hlink.links (hg.lt_of_file (by rw [hfd]; simp) : d < sb.ninodes)
    refine .inr ⟨rfl, ?_, fun hlt => ⟨⟨_, hlink.file_after, ?_⟩, fun cwd' path name' hcwd' hwalk' => ?_⟩⟩
    · rintro ⟨⟨g, hg', hexact⟩, -⟩
      rw [hlink.file_after] at hg'
      cases hg'
      by_contra hge
      rw [short_add_one hpos, if_neg hge, hcount] at hexact
      omega
    · rw [short_add_one hpos, if_pos hlt, hcount, hlinks]
      rfl
    · have hsound := hlink.sound hs (hg.lt_of_file (by rw [hf]; simp)) hn0
      refine unlink_no_panic h.good hsound hcwd' hwalk' hlink.file_after ?_
      rw [short_add_one hpos, if_pos hlt]
      omega

theorem linksIn_busyState (d : Nat) : (files mkfsSuper (busyState 1)).linksIn 2 d = if d = 1 then 1 else 0 := by
  have hfile : (files mkfsSuper (busyState 1)).file = (treeView fileEntry emptyFile 52).file := file_treeState (by decide)
  cases hd : (treeView fileEntry emptyFile 52).file d with
  | none =>
    have hne : d ≠ 1 := by
      rintro rfl
      cases file_root.symm.trans hd
    rw [linksIn, hfile, hd, if_neg hne]
  | some f =>
    rcases file_treeView hd with rfl | hi
    · rw [linksIn_dir (by rw [hfile]; exact file_root) rfl]
      decide +kernel
    · rw [linksIn_file (by rw [hfile]; exact file_file hi (by decide)) (show T_FILE ≠ T_DIR by decide), if_neg (by omega)]

theorem sys_link_exact_iff_file : Good mkfsSuper (busyState 1) ∧ Sound mkfsSuper (files mkfsSuper (busyState 1)) ∧
    ∃ s', (sysLink mkfsSuper 0 (some [47, 97]) (some [47, 98]) [] []).run seq (busyState 1) = .ok (true, s') ∧
      LinksExact mkfsSuper s' 2 := by
  have hg : Good mkfsSuper (busyState 1) := good_busyState (by decide)
  have hs : Sound mkfsSuper (files mkfsSuper (busyState 1)) := (tree_busyState (by decide)).toSound
  have hfile : (files mkfsSuper (busyState 1)).file = (treeView fileEntry emptyFile 52).file := file_treeState (by decide)
  have hroot : (files mkfsSuper (busyState 1)).file 1 = _ := (congrFun hfile 1).trans file_root
  have hf : (files mkfsSuper (busyState 1)).file 2 = _ := (congrFun hfile 2).trans (file_file (by decide) (by decide))
  have hcwd : 0 < ((busyState 1).itable 0).ref := by decide
  have hdir : (files mkfsSuper (busyState 1)).isDir ((busyState 1).itable 0).inum = true := by
    change (files mkfsSuper (busyState 1)).isDir 1 = true
    rw [isDir_eq hroot]
    rfl
  have hwalk : (files mkfsSuper (busyState 1)).walk (startOf (busyState 1) 0 [47, 97]) (elems [47, 97]) = some 2 := by
    have hlookup : lookup [97] (dirents ((treeView fileEntry emptyFile 52).content 1)) = some 2 := by decide +kernel
    rw [show startOf (busyState 1) 0 [47, 97] = 1 by decide, show elems [47, 97] = [[97]] by decide]
    simp only [walk]
    rw [child_eq hroot rfl, entries_eq hroot]
    change (lookup [97] (dirents ((treeView fileEntry emptyFile 52).content 1))).bind _ = _
    rw [hlookup]
    rfl
  have hlinks : short emptyFile.nlink = (files mkfsSuper (busyState 1)).links mkfsSuper.ninodes 2 := by
    unfold links
    rw [Finset.sum_congr rfl fun d _ => linksIn_busyState d]
    decide +kernel
  have hrun : ((sysLink mkfsSuper 0 (some [47, 97]) (some [47, 98]) [] []).run seq (busyState 1)).toOption.map (·.1) =
      some true := by decide +kernel
  cases hr : (sysLink mkfsSuper 0 (some [47, 97]) (some [47, 98]) [] []).run seq (busyState 1) with
  | error m =>
    rw [hr] at hrun
    cases hrun
  | ok r =>
    obtain ⟨b, s'⟩ := r
    rw [hr] at hrun
    obtain rfl : b = true := some.inj hrun
    have hexact := sys_link_exact_iff hg hs hcwd hdir hwalk hf (show T_FILE ≠ T_DIR by decide) hlinks [47, 98] [] [] hr
    rcases hexact with h | h
    · cases h.1
    · exact ⟨hg, hs, s', rfl, h.2.2 (by decide)⟩

/-! ## A file with 32767 links

The root directory has the entries `.`, `..`, `a` for the file 2 and `d` for the directory 3. That has 42 directories and 594
links to the file, and each of the 42 directories has 766 links to the file. -/

/-- The inode number in entry `n` of the directory `i`. -/
def manyInum (i n : Nat) : Nat :=
  if n = 0 then i
  else if n = 1 then if i = 3 then 1 else 3
  else if i = 3 then if n < 44 then n + 2 else if n < 638 then 2 else 0
  else 2

/-- Byte `r` of the name of entry `n`: `.`, `..`, then a number in base 16. -/
def manyName (n r : Nat) : Nat :=
  if n < 2 then if r ≤ n then 46 else 0
  else if r = 0 then 97 + n % 16
  else if r = 1 then 97 + n / 16 % 16
  else if r = 2 then 97 + n / 256
  else 0

def manyByte (i o : Nat) : UInt8 :=
  UInt8.ofNat (if o % DIRENT = 0 then manyInum i (o / DIRENT) else if o % DIRENT = 1 then 0 else manyName (o / DIRENT) (o % DIRENT - 2))

def manyRoot : List (Nat × List UInt8) := [(1, dot), (1, dotdot), (2, [97]), (3, [100])]

def manyDir (i : Nat) : Dinode where
  type := T_DIR
  nlink := if i = 3 then 43 else 1
  size := 12288
  addrs k := if k.val < NDIRECT then UInt32.ofNat (48 + 12 * (i - 3) + k.val) else 0

def manyFile : Dinode := { type := T_FILE, nlink := 32767 }

/-- The blocks of directory `i` are the 12 from `48 + 12 * (i - 3)` on. -/
def manyView : View where
  bit b := decide (b < 564)
  ino i := if i = 1 then rootInode manyRoot else if i = 2 then manyFile else if 3 ≤ i ∧ i < 46 then manyDir i else {}
  data a :=
    if a = 47 then Bytes.put (fun _ => 0) 0 (manyRoot.flatMap fun e => dirent e.1 e.2)
    else if 48 ≤ a ∧ a < 564 then fun o => manyByte ((a - 48) / 12 + 3) (BSIZE * ((a - 48) % 12) + o)
    else fun _ => 0

def manyState : FsState := ⟨diskOf mkfsSuper manyView, busyTable manyRoot 1, []⟩

theorem data_mkfs {b : Nat} : mkfsSuper.Data b ↔ 47 ≤ b ∧ b < 10000 := Iff.rfl

theorem fits_manyView : manyView.Fits mkfsSuper := by
  refine ⟨fun b hb => ?_, fun i hi => ?_, fun a ha => ?_⟩
  · have : 10000 ≤ b := hb
    exact decide_eq_false (by omega)
  · have : 200 ≤ i := hi
    simp only [manyView, if_neg (show i ≠ 1 by omega), if_neg (show i ≠ 2 by omega), if_neg (show ¬(3 ≤ i ∧ i < 46) by omega)]
  have h47 : a ≠ 47 := by
    rintro rfl
    exact ha (by decide)
  have hdata : ¬(48 ≤ a ∧ a < 564) := by
    rintro ⟨h1, h2⟩
    exact ha (data_mkfs.2 ⟨by omega, by omega⟩)
  simp only [manyView, if_neg h47, if_neg hdata]

theorem view_manyState : view mkfsSuper manyState.blocks = manyView := view_diskOf fits_manyView

theorem alloc_manyView {i : Nat} (h : manyView.Alloc i) : i = 1 ∨ i = 2 ∨ 3 ≤ i ∧ i < 46 := by
  by_contra hne
  simp only [not_or] at hne
  simp [View.Alloc, manyView, hne.1, hne.2.1, hne.2.2] at h

theorem ino_many {i : Nat} (h : 3 ≤ i ∧ i < 46) : manyView.ino i = manyDir i := by
  simp only [manyView, if_neg (show i ≠ 1 by omega), if_neg (show i ≠ 2 by omega), if_pos h]

theorem slot_many_root (k : Nat) : manyView.slot 1 k = if k = 0 then 47 else 0 := by
  have hind : ((rootInode manyRoot).addrs indirect).toNat = 0 := rfl
  simp only [View.slot, manyView, if_true, slotOf, hind]
  split
  · simp only [rootInode]
    split <;> rfl
  · rename_i h
    rw [if_neg (by omega)]

theorem slot_many {i : Nat} (h : 3 ≤ i ∧ i < 46) (k : Nat) : manyView.slot i k = if k < NDIRECT then 48 + 12 * (i - 3) + k else 0 := by
  have hind : ((manyDir i).addrs indirect).toNat = 0 := rfl
  rw [View.slot, ino_many h]
  simp only [slotOf, hind, if_true]
  split
  · simp only [manyDir]
    split
    · rw [UInt32.toNat_ofNat', mod_eq_of_lt]
      unfold NDIRECT at *
      omega
    · rfl
  · rename_i hk
    rw [if_neg (by unfold NDIRECT at *; omega)]

theorem consistent_manyView : Consistent mkfsSuper manyView := by
  refine Consistent.of_owner (fun b => if b = 47 then (1, 0) else ((b - 48) / 12 + 3, (b - 48) % 12)) (fun i k hi hk => ?_)
    (fun b hb hbit => ?_) (fun i hi m hm => ?_) fun b hb => ?_
  · rcases alloc_manyView hi with rfl | rfl | hi'
    · rw [slot_many_root] at hk ⊢
      split at hk
      · rename_i hk0
        subst hk0
        exact ⟨by decide, by simp [manyView], rfl⟩
      · exact absurd rfl hk
    · refine absurd ?_ hk
      simp [View.slot, manyView, slotOf, manyFile]
    · rw [slot_many hi'] at hk ⊢
      split at hk
      · rename_i hlt
        unfold NDIRECT at hlt
        rw [if_pos (by unfold NDIRECT; omega)]
        have h1 : 47 ≤ 48 + 12 * (i - 3) + k := by omega
        have h2 : 48 + 12 * (i - 3) + k < 564 := by omega
        refine ⟨data_mkfs.2 ⟨h1, by omega⟩, decide_eq_true h2, ?_⟩
        rw [if_neg (by omega)]
        exact Prod.ext (by dsimp only; omega) (by dsimp only; omega)
      · exact absurd rfl hk
  · have hb' : b < 564 := of_decide_eq_true hbit
    have hb'' : 47 ≤ b := hb.1
    by_cases h47 : b = 47
    · subst h47
      exact ⟨by simp [View.Alloc, manyView, rootInode, T_DIR], by decide, slot_many_root 0⟩
    have hi : 3 ≤ (b - 48) / 12 + 3 ∧ (b - 48) / 12 + 3 < 46 := by omega
    rw [if_neg h47]
    refine ⟨?_, ?_, ?_⟩
    · unfold View.Alloc
      rw [ino_many hi]
      exact show (1 : UInt16) ≠ 0 by decide
    · change (b - 48) % 12 < 12
      omega
    · rw [slot_many hi, if_pos (by unfold NDIRECT; omega)]
      omega
  · rcases alloc_manyView hi with rfl | rfl | hi'
    · obtain rfl : m = 0 := by
        have : m < 1 := hm
        omega
      exact ⟨by decide, by rw [slot_many_root]; decide⟩
    · exact absurd hm (not_lt_zero m)
    · rw [ino_many hi'] at hm
      have hsize : nblocksOf (manyDir i).size.toNat = NDIRECT := by change nblocksOf 12288 = 12; decide
      rw [hsize] at hm
      refine ⟨hm, ?_⟩
      rw [slot_many hi', if_pos hm]
      omega
  · have hb' : b < 47 := hb
    exact decide_eq_true (by omega)

theorem good_manyState : Good mkfsSuper manyState := by
  have hroot : ∀ k, Live manyState k → k = 0 := by
    intro k hk
    by_contra h0
    have hv := hk.2
    have hlt : ¬k < 1 := by omega
    simp [manyState, busyTable, h0, hlt] at hv
  refine ⟨?_, tableOk_busyTable (by decide), fun k hk => ?_, fun k hk => ?_⟩
  · rw [view_manyState]
    exact consistent_manyView
  · rw [view_manyState, hroot k hk]
    rfl
  · rw [hroot k hk]
    decide

theorem byte_many {i o : Nat} (h : 3 ≤ i ∧ i < 46) (ho : o < 12288) : manyView.byte i o = manyByte i o := by
  have hblock : o / BSIZE < NDIRECT := by unfold BSIZE NDIRECT; omega
  have hslot : manyView.slot i (fileSlot (o / BSIZE)) = 48 + 12 * (i - 3) + o / BSIZE := by
    rw [fileSlot, if_pos hblock, slot_many h, if_pos hblock]
  have hdata : ∀ q < NDIRECT, manyView.data (48 + 12 * (i - 3) + q) = fun x => manyByte i (BSIZE * q + x.val) := by
    intro q hq
    unfold NDIRECT at hq
    have h1 : (48 + 12 * (i - 3) + q - 48) / 12 + 3 = i := by omega
    have h2 : (48 + 12 * (i - 3) + q - 48) % 12 = q := by omega
    simp only [manyView]
    rw [if_neg (by omega), if_pos (by omega), h1, h2]
  have hlt : o % BSIZE < BSIZE := mod_lt _ (by decide)
  rw [View.byte, hslot, hdata _ hblock, Bytes.byteAt, dif_pos hlt]
  rw [div_add_mod]

theorem dirents_many {i : Nat} (h : 3 ≤ i ∧ i < 46) :
    dirents (manyView.content i) = (range 768).map (direntAt (manyByte i)) := by
  have hlen : (manyView.content i).length = 12288 := by
    rw [length_content, ino_many h]
    rfl
  unfold dirents
  rw [hlen]
  refine map_congr_left fun n hn => direntAt_congr fun k hk => ?_
  have ho : DIRENT * n + k < 12288 := by
    have := mem_range.1 hn
    unfold DIRENT at *
    omega
  have ho' : DIRENT * n + k < (manyView.content i).length := by rw [hlen]; exact ho
  rw [getD_eq_getElem?_getD, getElem?_eq_getElem ho', getD_some, getElem_content, byte_many h ho]

theorem manyInum_lt {i n : Nat} (h : i < 46) : manyInum i n < 46 := by
  unfold manyInum
  repeat' split
  all_goals omega

theorem entInum_many {i n : Nat} (h : i < 46) : entInum (manyByte i) n = manyInum i n := by
  have hlt := manyInum_lt (n := n) h
  have h0 : DIRENT * n % DIRENT = 0 := mul_mod_right ..
  have h1 : (DIRENT * n + 1) % DIRENT = 1 := by unfold DIRENT; omega
  have hd : DIRENT * n / DIRENT = n := Nat.mul_div_cancel_left _ (by decide)
  unfold entInum manyByte
  rw [if_pos h0, hd, if_neg (by rw [h1]; decide), if_pos h1, UInt8.toNat_ofNat', mod_eq_of_lt (by omega)]
  simp

theorem namesIn_many {i : Nat} (h : 3 ≤ i ∧ i < 46) :
    namesIn (manyView.content i) 2 = (range 768).countP fun n => decide (manyInum i n = 2) := by
  rw [namesIn, dirents_many h, countP_map]
  refine countP_congr fun n _ => ?_
  simp only [Function.comp_apply, direntAt, entInum_many h.2, decide_eq_true_eq]
  split
  · rename_i h0
    simp [h0]
  · simp

theorem file_manyState : (files mkfsSuper manyState).file = manyView.file := by
  change (view mkfsSuper manyState.blocks).file = _
  rw [view_manyState]

theorem file_many {i : Nat} (h : manyView.Alloc i) :
    (files mkfsSuper manyState).file i = some ((manyView.ino i).file (manyView.content i)) := by
  rw [file_manyState, View.file, if_neg h]

theorem linksIn_many (d : Nat) : (files mkfsSuper manyState).linksIn 2 d =
    if d = 1 then 1 else if d = 3 then 594 else if 4 ≤ d ∧ d < 46 then 766 else 0 := by
  by_cases ha : manyView.Alloc d
  · have hsome := file_many ha
    rcases alloc_manyView ha with rfl | rfl | hd
    · rw [linksIn_dir hsome rfl]
      decide +kernel
    · rw [linksIn_file hsome (show T_FILE ≠ T_DIR by decide)]
      rfl
    rw [ino_many hd] at hsome
    rw [linksIn_dir hsome rfl]
    change namesIn (manyView.content d) 2 = _
    rw [namesIn_many hd, if_neg (by omega)]
    by_cases h3 : d = 3
    · subst h3
      decide +kernel
    have hall : ∀ n ∈ range 768, (decide (manyInum d n = 2) = true ↔ decide (2 ≤ n) = true) := by
      intro n _
      rw [decide_eq_true_eq, decide_eq_true_eq, manyInum, if_neg h3, if_neg h3]
      split
      · omega
      · split
        · omega
        · omega
    rw [if_neg h3, if_pos (by omega), countP_congr hall]
    decide +kernel
  · have hnone : (files mkfsSuper manyState).file d = none := by
      rw [file_manyState, View.file, if_pos (not_not.1 ha)]
    have hout : d ≠ 1 ∧ ¬(3 ≤ d ∧ d < 46) := by
      refine ⟨?_, fun hd => ?_⟩
      · rintro rfl
        exact ha (show (1 : UInt16) ≠ 0 by decide)
      · refine ha ?_
        unfold View.Alloc
        rw [ino_many hd]
        exact show (1 : UInt16) ≠ 0 by decide
    rw [linksIn, hnone, if_neg hout.1, if_neg (by omega), if_neg (by omega)]

theorem links_many : (files mkfsSuper manyState).links 200 2 = 32767 := by
  unfold links
  rw [Finset.sum_congr rfl fun d _ => linksIn_many d]
  decide +kernel

theorem dirents_many_root :
    dirents (manyView.content 1) = [some (dot, 1), some (dotdot, 1), some ([97], 2), some ([100], 3)] := by decide +kernel

theorem alloc_many {i : Nat} (h : 1 ≤ i ∧ i < 46) : manyView.Alloc i ∧ (manyView.ino i).nlink ≠ 0 := by
  by_cases h1 : i = 1
  · subst h1
    exact ⟨show (1 : UInt16) ≠ 0 by decide, show (1 : UInt16) ≠ 0 by decide⟩
  by_cases h2 : i = 2
  · subst h2
    exact ⟨show (2 : UInt16) ≠ 0 by decide, show (32767 : UInt16) ≠ 0 by decide⟩
  unfold View.Alloc
  rw [ino_many (by omega)]
  refine ⟨show (1 : UInt16) ≠ 0 by decide, ?_⟩
  simp only [manyDir]
  split
  · decide
  · decide

theorem named_many {j : Nat} (h : (files mkfsSuper manyState).Named j) : 1 ≤ j ∧ j < 46 := by
  rcases h with rfl | ⟨d, f, key, hd, ht, hm⟩
  · decide
  have ha : manyView.Alloc d := by
    by_contra hno
    rw [file_manyState, View.file, if_pos (not_not.1 hno)] at hd
    cases hd
  rw [file_many ha, some.injEq] at hd
  subst hd
  change some (key, j) ∈ dirents (manyView.content d) at hm
  rcases alloc_manyView ha with rfl | rfl | hd
  · rw [dirents_many_root] at hm
    simp only [mem_cons, some.injEq, Prod.mk.injEq, not_mem_nil, or_false] at hm
    omega
  · exact absurd ht (show T_FILE ≠ T_DIR by decide)
  · rw [dirents_many hd] at hm
    obtain ⟨n, -, hn⟩ := List.mem_map.1 hm
    rw [direntAt, entInum_many hd.2] at hn
    split at hn
    · cases hn
    · have hlt := manyInum_lt (n := n) hd.2
      cases hn
      omega

theorem sound_manyState : Sound mkfsSuper (files mkfsSuper manyState) := by
  have hfile : ∀ j, 1 ≤ j ∧ j < 46 → ∃ f, (files mkfsSuper manyState).file j = some f ∧ f.nlink ≠ 0 := fun j hj =>
    ⟨_, file_many (alloc_many hj).1, (alloc_many hj).2⟩
  refine ⟨fun d f hd ht => ?_, fun i hi => ?_, fun i hi f hf h0 => ?_, fun i hi => ?_⟩
  · have ha : manyView.Alloc d := by
      by_contra hno
      rw [file_manyState, View.file, if_pos (not_not.1 hno)] at hd
      cases hd
    rw [file_many ha, some.injEq] at hd
    subst hd
    change (manyView.content d).length % DIRENT = 0
    rw [length_content]
    rcases alloc_manyView ha with rfl | rfl | hd
    · rfl
    · rfl
    · rw [ino_many hd]
      exact show (12288 : UInt32).toNat % 16 = 0 by decide
  · have := named_many hi
    exact show i < 200 by omega
  · obtain ⟨g, hg, hne⟩ := hfile i (named_many hi)
    rw [hg] at hf
    cases hf
    exact absurd h0 hne
  · obtain ⟨k, hk, rfl⟩ := refsOf_pos hi
    have hk0 : k = 0 := by
      by_contra h0
      have hlt : ¬k < 1 := by omega
      simp [manyState, busyTable, h0, hlt] at hk
    subst hk0
    obtain ⟨g, hg, -⟩ := hfile 1 (by decide)
    change (files mkfsSuper manyState).file 1 ≠ none
    rw [hg]
    simp

theorem sys_link_overflow : Good mkfsSuper manyState ∧ Sound mkfsSuper (files mkfsSuper manyState) ∧
    (∃ f, (files mkfsSuper manyState).file 2 = some f ∧ f.type ≠ T_DIR ∧
      short f.nlink = (files mkfsSuper manyState).links mkfsSuper.ninodes 2) ∧
    ∃ s', (sysLink mkfsSuper 0 (some [47, 97]) (some [47, 98]) [] []).run seq manyState = .ok (true, s') ∧
      (∃ f, (files mkfsSuper s').file 2 = some f ∧ short f.nlink = -32768) ∧
      (sysUnlink mkfsSuper 0 (some [47, 98]) []).run seq s' = .error "unlink: nlink < 1" := by
  have hrun : ((sysLink mkfsSuper 0 (some [47, 97]) (some [47, 98]) [] []).run seq manyState).toOption.map (fun r =>
      (r.1, (getDinode (r.2.blocks 32) 2).type, (getDinode (r.2.blocks 32) 2).nlink,
        panicOf ((sysUnlink mkfsSuper 0 (some [47, 98]) []).run seq r.2))) =
        some (true, T_FILE, 32768, some "unlink: nlink < 1") := by decide +kernel
  refine ⟨good_manyState, sound_manyState, ⟨_, file_many (alloc_many (by decide)).1, show T_FILE ≠ T_DIR by decide, ?_⟩, ?_⟩
  · change short 32767 = ((files mkfsSuper manyState).links 200 2 : Nat)
    rw [links_many]
    decide
  · cases hr : (sysLink mkfsSuper 0 (some [47, 97]) (some [47, 98]) [] []).run seq manyState with
    | error m =>
      rw [hr] at hrun
      cases hrun
    | ok r =>
      obtain ⟨b, s'⟩ := r
      rw [hr] at hrun
      obtain ⟨hb, hrest⟩ := Prod.mk.inj (some.inj hrun)
      obtain ⟨htype, hrest⟩ := Prod.mk.inj hrest
      obtain ⟨hnlink, hpanic⟩ := Prod.mk.inj hrest
      subst hb
      refine ⟨s', rfl, ?_, panicOf_eq_some hpanic⟩
      have hino : (view mkfsSuper s'.blocks).ino 2 = getDinode (s'.blocks 32) 2 := view_ino_eq (show 2 < 200 by decide)
      refine ⟨((view mkfsSuper s'.blocks).ino 2).file ((view mkfsSuper s'.blocks).content 2), ?_, ?_⟩
      · change View.file (view mkfsSuper s'.blocks) 2 = _
        rw [View.file, if_neg]
        rw [hino, htype]
        decide
      · change short ((view mkfsSuper s'.blocks).ino 2).nlink = _
        rw [hino, hnlink]
        decide

end Xv6.Fs
