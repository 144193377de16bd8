import Xv6.Fs.During

/-!
# Calls on the name space (`kernel/sysfile.c`)

`sys_link`, `sys_unlink`, `sys_mkdir`, `sys_mknod` and what they call, as programs over the functions of `fs.c`, run by one
process without interference. A path argument is `none` if `argstr` fails, and the result is `false` for `-1`. There is one
device, so the test of `dp->dev` is left out, and so are `begin_op` and `end_op`, which change no block and no inode.

The theorem of this module is that a call that returns `-1` leaves every file and every reference count as it was. It
takes more than the consistency of the blocks: an inode that an entry names must have links or be referenced already,
since a walk that passes through it and fails drops the last reference to it.
-/

namespace Xv6.Fs

open Prog (perform Sat sat_bind sat_pure sat_panic sat_perform panicOf panicOf_eq_some)
open List Files Function Nat

/-! ## Programs -/

/-- The value of a 16-bit field of type `short`. -/
def short (n : UInt16) : Int := n.toBitVec.toInt

def dot : List UInt8 := [46]

def dotdot : List UInt8 := [46, 46]

def isdiremptyFrom (sb : Super) (dp : Nat) : Nat → Nat → M Bool
  | 0, _ => return true
  | fuel + 1, off => do
    if off < (← iat dp).d.size.toNat then
      let bs ← readDirent sb dp off "isdirempty: readi"
      if direntInum bs ≠ 0 then return false else isdiremptyFrom sb dp fuel (off + DIRENT)
    else
      return true

/-- `sysfile.c:173`. -/
def isdirempty (sb : Super) (dp : Nat) : M Bool := do
  isdiremptyFrom sb dp ((← iat dp).d.size.toNat / DIRENT + 1) (DIRENT * 2)

def linkBad (sb : Super) (ip : Nat) : M Bool := do
  ilock sb ip
  setNlink sb ip (· - 1)
  iunlockput sb ip
  return false

def sysLink (sb : Super) (cwd : Nat) (old new : Option (List UInt8)) (name buf : List UInt8) : M Bool := do
  match old, new with
  | some old, some new =>
    match ← namei sb cwd old buf with
    | none => return false
    | some ip =>
      ilock sb ip
      if (← iat ip).d.type = T_DIR then
        iunlockput sb ip
        return false
      else
        setNlink sb ip (· + 1)
        iunlock ip
        match ← nameiparent sb cwd new name with
        | (none, _) => linkBad sb ip
        | (some dp, name) =>
          ilock sb dp
          if ← dirlink sb dp name (← iat ip).inum then
            iunlockput sb dp
            iput sb ip
            return true
          else
            iunlockput sb dp
            linkBad sb ip
  | _, _ => return false

def ifDir (type : UInt16) (p : M Unit) : M Unit := if type = T_DIR then p else return ()

/-- From `memset(&de, 0, sizeof(de))` in `sys_unlink` on. -/
def unlinkEntry (sb : Super) (dp ip off : Nat) : M Bool := do
  if (← clearEntry sb dp off) ≠ some DIRENT then
    .panic "unlink: writei"
  else
    ifDir (← iat ip).d.type (setNlink sb dp (· - 1))
    iunlockput sb dp
    setNlink sb ip (· - 1)
    iunlockput sb ip
    return true

def sysUnlink (sb : Super) (cwd : Nat) (path : Option (List UInt8)) (name : List UInt8) : M Bool := do
  match path with
  | none => return false
  | some path =>
    match ← nameiparent sb cwd path name with
    | (none, _) => return false
    | (some dp, name) =>
      ilock sb dp
      if namecmpEq name dot ∨ namecmpEq name dotdot then
        iunlockput sb dp
        return false
      else
        match ← dirlookup sb dp name with
        | none =>
          iunlockput sb dp
          return false
        | some (ip, off) =>
          if ip = dp then
            .panic "acquiresleep: own lock"
          else
            ilock sb ip
            let t ← iat ip
            if short t.d.nlink < 1 then
              .panic "unlink: nlink < 1"
            else
              let empty ← (if t.d.type = T_DIR then isdirempty sb ip else pure true)
              if empty then
                unlinkEntry sb dp ip off
              else
                iunlockput sb ip
                iunlockput sb dp
                return false

/-- `ialloc`, which may report at any call that no inode is free. -/
def tryIalloc (sb : Super) (type : UInt16) : M (Option Nat) := do
  if ← perform .full then return none
  ialloc sb type

/-- `dirlink(ip, ".", ip->inum) < 0 || dirlink(ip, "..", dp->inum) < 0`, negated. -/
def linkDots (sb : Super) (ip dp : Nat) : M Bool := do
  if ← dirlink sb ip dot (← iat ip).inum then
    dirlink sb ip dotdot (← iat dp).inum
  else
    return false

def createFail (sb : Super) (ip dp : Nat) : M (Option Nat) := do
  setNlink sb ip fun _ => 0
  iunlockput sb ip
  iunlockput sb dp
  return none

def createNew (sb : Super) (dp ip : Nat) (name : List UInt8) (type major minor : UInt16) : M (Option Nat) := do
  ilock sb ip
  setNode sb ip major minor
  let dots ← (if type = T_DIR then linkDots sb ip dp else pure true)
  if dots then
    if ← dirlink sb dp name (← iat ip).inum then
      ifDir type (setNlink sb dp (· + 1))
      iunlockput sb dp
      return some ip
    else
      createFail sb ip dp
  else
    createFail sb ip dp

/-- `sysfile.c:246`: the entry of the new or existing inode, locked. -/
def create (sb : Super) (cwd : Nat) (path : List UInt8) (type major minor : UInt16) (name : List UInt8) : M (Option Nat) := do
  match ← nameiparent sb cwd path name with
  | (none, _) => return none
  | (some dp, name) =>
    ilock sb dp
    match ← dirlookup sb dp name with
    | some (ip, _) =>
      iunlockput sb dp
      ilock sb ip
      let t ← iat ip
      if type = T_FILE ∧ (t.d.type = T_FILE ∨ t.d.type = T_DEVICE) then
        return some ip
      else
        iunlockput sb ip
        return none
    | none =>
      match ← tryIalloc sb type with
      | none =>
        iunlockput sb dp
        return none
      | some ip => createNew sb dp ip name type major minor

/-- `sys_mkdir` and `sys_mknod` after the path has been fetched. -/
def makeNode (sb : Super) (cwd : Nat) (path : Option (List UInt8)) (type major minor : UInt16) (name : List UInt8) : M Bool := do
  match path with
  | none => return false
  | some path =>
    match ← create sb cwd path type major minor name with
    | none => return false
    | some ip =>
      iunlockput sb ip
      return true

/-- `sysfile.c:373`. -/
def sysMkdir (sb : Super) (cwd : Nat) (path : Option (List UInt8)) (name : List UInt8) : M Bool :=
  makeNode sb cwd path T_DIR 0 0 name

/-- `sysfile.c:390`. -/
def sysMknod (sb : Super) (cwd : Nat) (path : Option (List UInt8)) (major minor : UInt16) (name : List UInt8) : M Bool :=
  makeNode sb cwd path T_DEVICE major minor name

/-! ## `sys_link` -/

namespace Files

section
variable {a b : Files} {i j : Nat} {e : List UInt8} {es : List (List UInt8)} {f : File} {n : UInt16}

theorem walkParent_congr (hdir : ∀ j, b.isDir j = a.isDir j) (hchild : ∀ j e, b.child j e = a.child j e) :
    b.walkParent i es = a.walkParent i es := by
  induction es generalizing i with
  | nil => rfl
  | cons e es ih =>
    by_cases hes : es = []
    · subst hes
      simp only [walkParent, hdir]
    · rw [walkParent_cons hes, walkParent_cons hes, hchild]
      cases a.child i e with
      | none => rfl
      | some j => exact ih

theorem dir_of_isDir (h : a.isDir i = true) : ∃ f, a.file i = some f ∧ f.type = T_DIR := by
  unfold isDir at h
  split at h
  · rename_i f hf
    exact ⟨f, hf, of_decide_eq_true h⟩
  · cases h

theorem dir_of_walkParent (h : a.walkParent i es = some (j, e)) : ∃ f, a.file j = some f ∧ f.type = T_DIR := by
  by_cases hes : es = []
  · rw [hes] at h
    cases h
  · rw [walkParent_eq hes, Option.map_eq_some_iff] at h
    obtain ⟨d, hd, he⟩ := h
    cases he
    exact dir_of_isDir (Option.filter_eq_some_iff.1 hd).2

theorem isDir_relink (hf : a.file i = some f) (hb : b.file = update a.file i (some { f with nlink := n })) :
    b.isDir j = a.isDir j := by
  unfold isDir
  rw [hb]
  by_cases h : j = i
  · subst h
    rw [update_self, hf]
  · rw [update_of_ne h]

theorem child_relink (hf : a.file i = some f) (hb : b.file = update a.file i (some { f with nlink := n })) :
    b.child j e = a.child j e := by
  unfold child
  rw [hb]
  by_cases h : j = i
  · subst h
    rw [update_self, hf]
  · rw [update_of_ne h]

theorem named_relink (hf : a.file i = some f) (hb : b.file = update a.file i (some { f with nlink := n }))
    (h : b.Named j) : a.Named j := by
  rcases h with rfl | ⟨d, fd, key, hd, ht, hm⟩
  · exact .inl rfl
  rw [hb] at hd
  by_cases e : d = i
  · subst e
    rw [update_self] at hd
    cases hd
    exact .inr ⟨d, f, key, hf, ht, hm⟩
  · rw [update_of_ne e] at hd
    exact .inr ⟨d, fd, key, hd, ht, hm⟩

end

end Files

section
variable {sb : Super} {s s' s0 : FsState} {g : Nat → Option File} {hs : List Hold} {i k d cwd ip dp : Nat} {f fd : File}
  {old new path name buf : List UInt8} {type major minor : UInt16} {X : String → Prop}

theorem Sound.relink {a b : Files} {n : UInt16} (h : Sound sb a) (hf : a.file i = some f)
    (hb : b.file = update a.file i (some { f with nlink := n })) (hi : 0 < b.refs i)
    (hle : ∀ j, a.refs j ≤ b.refs j) (hnew : ∀ j, 0 < b.refs j → j = i ∨ 0 < a.refs j) : Sound sb b where
  size d fd hd ht := by
    rw [hb] at hd
    by_cases e : d = i
    · subst e
      rw [update_self] at hd
      cases hd
      exact h.size d f hf ht
    · rw [update_of_ne e] at hd
      exact h.size d fd hd ht
  lt j hj := h.lt j (named_relink hf hb hj)
  linked j hj fj hfj h0 := by
    rw [hb] at hfj
    by_cases e : j = i
    · rw [e]
      exact hi
    · rw [update_of_ne e] at hfj
      have := h.linked j (named_relink hf hb hj) fj hfj h0
      have := hle j
      omega
  refs j hj := by
    rw [hb]
    by_cases e : j = i
    · subst e
      simp
    · rw [update_of_ne e]
      rcases hnew j hj with rfl | hj
      · exact absurd rfl e
      · exact h.refs j hj

theorem relink_restore (hf : g i = some f) :
    update (update g i (some { f with nlink := f.nlink + 1 })) i
      (some { f with nlink := f.nlink + 1 - 1 }) = g := by
  rw [update_idem, UInt16.add_sub_cancel, ← hf, update_eq_self]

theorem linkBad_spec (h : During sb s0 s (update g i (some { f with nlink := f.nlink + 1 })) [⟨ip, i, true⟩])
    (hf : g i = some f) (hlt : i < sb.ninodes) (hk : f.nlink = 0 → 0 < (files sb s0).refs i)
    (hX : X "ilock: no type") : Sat seq (linkBad sb ip) s (fun r s' => r = false ∧ During sb s0 s' g []) X := by
  simp only [linkBad, sat_bind]
  refine (h.ilock hlt fun _ => hX).mono ?_
  intro _ s1 h
  refine (h.setNlink (by simp) (update_self ..)).mono ?_
  intro _ s2 h
  rw [relink_restore hf] at h
  refine (h.iunlockput_linked hf hk).mono ?_
  intro _ s3 h
  exact ⟨rfl, h⟩

inductive LinkCall (sb : Super) (s0 : FsState) (cwd : Nat) (old new : List UInt8) : Bool → FsState → Prop
  | failed (s' : FsState) : During sb s0 s' (files sb s0).file [] → LinkCall sb s0 cwd old new false s'
  | linked (s' : FsState) (i d : Nat) (f fd : File) (e bs : List UInt8) :
      (files sb s0).walk (startOf s0 cwd old) (elems old) = some i → (files sb s0).file i = some f → f.type ≠ T_DIR →
      (files sb s0).walkParent (startOf s0 cwd new) (elems new) = some (d, e) → (files sb s0).file d = some fd →
      fd.type = T_DIR → Slots.lookup e (dirents fd.bytes) = none →
      (0 < i → dirents bs = Slots.insert (e, i) (dirents fd.bytes)) → bs.length % DIRENT = 0 →
      During sb s0 s' (release (update (update (files sb s0).file i (some { f with nlink := f.nlink + 1 })) d
        (some { fd with bytes := bs })) i ((files sb s0).refs i)) [] → LinkCall sb s0 cwd old new true s'

theorem sysLink_spec (hg : Good sb s) (hs : Sound sb (files sb s)) (hcwd : 0 < (s.itable cwd).ref) :
    Sat seq (sysLink sb cwd (some old) (some new) name buf) s (LinkCall sb s cwd old new) fun _ => True := by
  simp only [sysLink, sat_bind]
  refine ((During.start hg).namei hs hcwd fun _ _ => trivial).mono ?_
  rintro r s1 (⟨rfl, -, h⟩ | ⟨ip, i, rfl, hwalk, hlt, hlinked, h⟩)
  · exact .failed s1 h
  simp only [sat_bind]
  refine (h.ilock hlt fun _ => trivial).mono ?_
  intro _ s2 h
  obtain ⟨f, hf⟩ := h.file_some (mem_singleton.2 rfl)
  have hk := hlinked f hf
  rw [sat_iat, h.type (by simp) hf]
  by_cases ht : f.type = T_DIR
  · rw [if_pos ht, sat_bind]
    exact (h.iunlockput_linked hf hk).mono fun _ s3 h => .failed s3 h
  rw [if_neg ht, sat_bind]
  refine (h.setNlink (by simp) hf).mono ?_
  intro _ s3 h
  rw [sat_bind, h.iunlock (mem_singleton.2 rfl), sat_bind]
  -- the new link count is on the disk, and the second path is walked
  have hfile := h.file
  have hrefs : ∀ j, (files sb s3).refs j = (files sb s).refs j + if j = i then 1 else 0 := fun j => by
    rw [h.refs, holds_cons, holds_nil, zero_add]
  have hsound : Sound sb (files sb s3) := by
    refine hs.relink hf h.file ?_ (fun j => ?_) fun j hj => ?_
    · rw [hrefs, if_pos rfl]
      omega
    · rw [hrefs]
      omega
    · rw [hrefs] at hj
      by_cases e : j = i
      · exact .inl e
      · rw [if_neg e] at hj
        exact .inr hj
  have hwalk3 : ∀ c es, (files sb s3).walkParent c es = (files sb s).walkParent c es := fun c es =>
    walkParent_congr (fun j => isDir_relink hf h.file) fun j e => child_relink hf h.file
  refine (h.nameiparent hsound hcwd fun _ _ => trivial).mono ?_
  rintro ⟨r, name'⟩ s4 p
  rw [hwalk3] at p
  rcases p with ⟨hr, -, h⟩ | ⟨dp, d, hr, hwalk', hltd, hlinkedd, h⟩
  · subst hr
    exact (linkBad_spec h hf hlt hk trivial).mono fun r s5 p => by rw [p.1]; exact .failed s5 p.2
  subst hr
  obtain ⟨fd, hfd, htd⟩ := dir_of_walkParent hwalk'
  have hne : d ≠ i := by
    rintro rfl
    rw [hf] at hfd
    cases hfd
    exact ht htd
  have hfd' : update (files sb s).file i (some { f with nlink := f.nlink + 1 }) d = some fd := by
    rw [update_of_ne hne, hfd]
  have hkd : fd.nlink = 0 → 0 < (files sb s).refs d := by
    intro h0
    have := hlinkedd fd (by rw [hfile]; exact hfd') h0
    rwa [hrefs, if_neg hne, add_zero] at this
  simp only [sat_bind]
  refine (h.ilock hltd fun _ => trivial).mono ?_
  intro _ s5 h
  rw [sat_iat, h.inum (v := true) (mem_cons_of_mem _ (mem_singleton.2 rfl))]
  refine (h.dirlink (by simp) hfd' htd (hs.size d fd hfd htd) trivial).mono ?_
  rintro r s6 (⟨rfl, h⟩ | ⟨rfl, hnone, bs, hins, hlen, h⟩)
  · simp only [Bool.false_eq_true, if_false, sat_bind]
    refine (h.iunlockput_linked hfd' hkd).mono ?_
    intro _ s7 h
    exact (linkBad_spec h hf hlt hk trivial).mono fun r s8 p => by rw [p.1]; exact .failed s8 p.2
  · simp only [if_true, sat_bind]
    refine (h.iunlockput_linked (update_self ..) hkd).mono ?_
    intro _ s7 h
    refine h.iput.mono ?_
    intro _ s8 h
    have hlt' : i < 65536 := lt_of_lt_of_le hlt sb.ninodes_le
    exact .linked s8 i d f fd _ bs hwalk hf ht hwalk' hfd htd hnone (fun h0 => hins h0 hlt') hlen h

/-! ## `sys_unlink` -/

theorem Directory.no_entries {n : Nat} (h : Directory sb s dp) (hle : (s.itable dp).d.size.toNat ≤ DIRENT * n)
    (hzero : ∀ m, 2 ≤ m → m < n → entInum (s.byte sb dp) m = 0) (m : Nat) (e : List UInt8 × Nat) (hm : 2 ≤ m) :
    (s.dirents sb dp)[m]? ≠ some (some e) := by
  intro he
  have hlt := h.lt_of_getElem? he
  have h0 := hzero m hm (by unfold DIRENT at *; omega)
  rw [h.good.getElem?_dirents h.live hlt, direntAt, if_pos h0] at he
  cases he

theorem isdiremptyFrom_spec {fuel n : Nat} (h : Directory sb s dp)
    (hfuel : (s.itable dp).d.size.toNat / DIRENT + 1 ≤ fuel + n)
    (hzero : ∀ m, 2 ≤ m → m < n → entInum (s.byte sb dp) m = 0) (hn : 2 ≤ n) :
    Sat seq (isdiremptyFrom sb dp fuel (DIRENT * n)) s
      (fun r s' => s' = s ∧ (r = true ↔ ∀ m e, 2 ≤ m → (s.dirents sb dp)[m]? ≠ some (some e))) X := by
  induction fuel generalizing n with
  | zero =>
    simp only [isdiremptyFrom, sat_pure, true_and, true_iff]
    exact h.no_entries (by unfold DIRENT at *; omega) hzero
  | succ fuel ih =>
    simp only [isdiremptyFrom, sat_bind, sat_iat]
    by_cases hlt : DIRENT * n < (s.itable dp).d.size.toNat
    · simp only [hlt, if_true, sat_bind]
      have hsize := h.size
      refine (readDirent_spec (h.good.held h.live).cons (h.good.alloc dp h.live) hlt
        fun hsh => absurd hsh (by unfold DIRENT at *; omega)).mono ?_
      rintro bs s1 ⟨rfl, hinum, -, hle⟩
      rw [hinum]
      by_cases h0 : entInum (s1.byte sb dp) n = 0
      · rw [if_neg (not_not.2 h0), ← mul_succ]
        refine ih (by omega) (fun m hm hlt' => ?_) (by omega)
        rcases Nat.lt_succ_iff_lt_or_eq.1 hlt' with h1 | rfl
        · exact hzero m hm h1
        · exact h0
      · rw [if_pos h0, sat_pure]
        refine ⟨rfl, iff_of_false Bool.false_ne_true fun hall => ?_⟩
        refine hall n (nameKey (entName (s1.byte sb dp) n), entInum (s1.byte sb dp) n) hn ?_
        rw [h.good.getElem?_dirents h.live hle, direntAt, if_neg h0]
    · simp only [hlt, if_false, sat_pure, true_and, true_iff]
      exact h.no_entries (by omega) hzero

/-- A directory has no entries but its first two. -/
def EmptyDir (bs : List UInt8) : Prop := ∀ m e, 2 ≤ m → (dirents bs)[m]? ≠ some (some e)

theorem During.isdirempty (h : During sb s0 s g hs) (hm : ⟨k, i, true⟩ ∈ hs) (hf : g i = some f) (ht : f.type = T_DIR)
    (hlen : f.bytes.length % DIRENT = 0) :
    Sat seq (Fs.isdirempty sb k) s (fun r s' => s' = s ∧ (r = true ↔ EmptyDir f.bytes)) X := by
  have hdir := h.good.directory (h.live _ hm rfl) (h.ptr _ hm) (h.fileOf hf) ht hlen
  have he := h.good.dirents_eq (h.live _ hm rfl) (h.ptr _ hm) (h.fileOf hf)
  refine (isdiremptyFrom_spec hdir (le_add_right _ 2) (fun m h1 h2 => by omega) (le_refl 2)).mono ?_
  rintro r s' ⟨rfl, hr⟩
  rw [he] at hr
  exact ⟨rfl, hr⟩

def unlinkedDir (fd f : File) (bs : List UInt8) : File :=
  { fd with bytes := bs, nlink := if f.type = T_DIR then fd.nlink - 1 else fd.nlink }

inductive UnlinkCall (sb : Super) (s0 : FsState) (cwd : Nat) (path : List UInt8) : Bool → FsState → Prop
  | failed (s' : FsState) : During sb s0 s' (files sb s0).file [] → UnlinkCall sb s0 cwd path false s'
  | unlinked (s' : FsState) (i d n : Nat) (f fd : File) (e bs : List UInt8) :
      (files sb s0).walkParent (startOf s0 cwd path) (elems path) = some (d, e) → e ≠ dot → e ≠ dotdot →
      (files sb s0).file d = some fd → fd.type = T_DIR → (dirents fd.bytes)[n]? = some (some (e, i)) →
      Slots.lookup e (dirents fd.bytes) = some i → i ≠ d → (files sb s0).file i = some f → 1 ≤ short f.nlink →
      (f.type = T_DIR → EmptyDir f.bytes) → dirents bs = (dirents fd.bytes).set n none → bs.length % DIRENT = 0 →
      During sb s0 s' (release (update (release (update (files sb s0).file d (some (unlinkedDir fd f bs))) d
        ((files sb s0).refs d)) i (some { f with nlink := f.nlink - 1 })) i ((files sb s0).refs i)) [] →
      UnlinkCall sb s0 cwd path true s'

theorem During.ifDir {c : UInt16 → UInt16} (h : During sb s0 s g hs) (hm : ⟨k, i, true⟩ ∈ hs) (hf : g i = some f) :
    Sat seq (Fs.ifDir type (Fs.setNlink sb k c)) s (fun _ s' => During sb s0 s'
      (Function.update g i (some { f with nlink := if type = T_DIR then c f.nlink else f.nlink })) hs) X := by
  unfold Fs.ifDir
  split
  · exact h.setNlink hm hf
  · have hsame : Function.update g i (some { f with nlink := f.nlink }) = g := by
      rw [← hf, update_eq_self]
    rw [sat_pure, hsame]
    exact h

theorem release_ne {n : Nat} (h : k ≠ i) : release g i n k = g k := by
  unfold release
  split
  · exact update_of_ne h _ _
  · rfl

theorem unlinkEntry_spec {n : Nat} {e : List UInt8} (h : During sb s0 s g [⟨ip, i, true⟩, ⟨dp, d, true⟩]) (hf : g i = some f)
    (hfd : g d = some fd) (htd : fd.type = T_DIR) (hlen : fd.bytes.length % DIRENT = 0)
    (hn : (dirents fd.bytes)[n]? = some (some (e, i))) (hne : i ≠ d) :
    Sat seq (unlinkEntry sb dp ip (DIRENT * n)) s (fun r s' => r = true ∧ ∃ bs, dirents bs = (dirents fd.bytes).set n none ∧
      bs.length % DIRENT = 0 ∧ During sb s0 s' (release (update (release (update g d
        (some (unlinkedDir fd f bs))) d ((files sb s0).refs d)) i (some { f with nlink := f.nlink - 1 })) i
        ((files sb s0).refs i)) []) X := by
  have hmi : Hold.mk ip i true ∈ [Hold.mk ip i true, ⟨dp, d, true⟩] := mem_cons_self ..
  have hmd : Hold.mk dp d true ∈ [Hold.mk ip i true, ⟨dp, d, true⟩] := mem_cons_of_mem _ (by simp)
  simp only [unlinkEntry, sat_bind]
  refine (h.clearEntry hmd hfd htd hlen hn).mono ?_
  rintro r s1 ⟨rfl, bs, hset, hbs, h⟩
  have hf1 : update g d (some { fd with bytes := bs }) i = some f := by rw [update_of_ne hne, hf]
  simp only [ne_eq, not_true, if_false, sat_bind, sat_iat]
  rw [h.type hmi hf1]
  refine (h.ifDir hmd (update_self ..)).mono ?_
  intro _ s2 h
  rw [update_idem] at h
  refine ((h.perm (List.Perm.swap ..)).iunlockput).mono ?_
  intro _ s3 h
  rw [holds_cons, holds_nil, if_neg (Ne.symm hne), add_zero] at h
  have hf3 : release (update g d (some (unlinkedDir fd f bs))) d ((files sb s0).refs d) i = some f := by
    rw [release_ne hne, update_of_ne hne, hf]
  refine (h.setNlink (by simp) hf3).mono ?_
  intro _ s4 h
  refine h.iunlockput.mono ?_
  intro _ s5 h
  exact ⟨rfl, bs, hset, hbs, h⟩

theorem nameKey_dot : nameKey dot = dot := by decide

theorem nameKey_dotdot : nameKey dotdot = dotdot := by decide

theorem sysUnlink_spec (hg : Good sb s) (hs : Sound sb (files sb s)) (hcwd : 0 < (s.itable cwd).ref)
    (hX : ∀ m, m ≠ "unlink: nlink < 1" → X m)
    (hN : ∀ d e i f, (files sb s).walkParent (startOf s cwd path) (elems path) = some (d, e) →
      (files sb s).child d e = some i → (files sb s).file i = some f → short f.nlink < 1 → X "unlink: nlink < 1") :
    Sat seq (sysUnlink sb cwd (some path) name) s (UnlinkCall sb s cwd path) X := by
  have hwalk : ∀ m, m = "iget: no inodes" ∨ m = "ilock: no type" → X m := by
    rintro m (rfl | rfl) <;> exact hX _ (by decide)
  simp only [sysUnlink, sat_bind]
  refine ((During.start hg).nameiparent hs hcwd hwalk).mono ?_
  rintro ⟨r, name'⟩ s1 (⟨hr, -, h⟩ | ⟨dp, d, hr, hpar, hlt, hlinked, h⟩)
  · subst hr
    exact .failed s1 h
  subst hr
  obtain ⟨fd, hfd, htd⟩ := dir_of_walkParent hpar
  have hlen := hs.size d fd hfd htd
  have hkd := hlinked fd hfd
  simp only [sat_bind]
  refine (h.ilock hlt fun _ => hwalk _ (.inr rfl)).mono ?_
  intro _ s2 h
  by_cases hdots : namecmpEq name' dot = true ∨ namecmpEq name' dotdot = true
  · rw [if_pos hdots, sat_bind]
    exact (h.iunlockput_linked hfd hkd).mono fun _ s3 h => .failed s3 h
  rw [if_neg hdots, sat_bind]
  rw [namecmpEq_iff, namecmpEq_iff, nameKey_dot, nameKey_dotdot, not_or] at hdots
  refine (h.dirlookup (by simp) hfd htd hlen (hwalk _ (.inl rfl))).mono ?_
  rintro r s3 (⟨rfl, rfl, -⟩ | ⟨ip, n, i, rfl, hn, hi, h⟩)
  · rw [sat_bind]
    exact (h.iunlockput_linked hfd hkd).mono fun _ s4 h => .failed s4 h
  by_cases hip : ip = dp
  · simp only [hip, if_true, sat_panic]
    exact hX _ (by decide)
  simp only [hip, if_false, sat_bind]
  have hne : i ≠ d := by
    rintro rfl
    exact hip (h.good.ptr_unique (h.ptr ⟨ip, i, false⟩ (by simp))
      (h.ptr ⟨dp, i, true⟩ (by simp)))
  have hchild : (files sb s).child d (nameKey name') = some i := by
    rw [child_eq hfd htd, entries_eq hfd, hi]
  have hnamed := named_of_child hchild
  refine (h.ilock (hs.lt i hnamed) fun _ => hwalk _ (.inr rfl)).mono ?_
  intro _ s4 h
  have hmi : Hold.mk ip i true ∈ [Hold.mk ip i true, ⟨dp, d, true⟩] := mem_cons_self ..
  obtain ⟨f, hf⟩ := h.file_some hmi
  rw [sat_iat, h.nlink hmi hf, h.type hmi hf]
  by_cases hnl : short f.nlink < 1
  · rw [if_pos hnl, sat_panic]
    exact hN d _ i f hpar hchild hf hnl
  rw [if_neg hnl, sat_bind]
  have hempty : Sat seq (if f.type = T_DIR then isdirempty sb ip else pure true) s4
      (fun r s' => s' = s4 ∧ (r = true ↔ (f.type = T_DIR → EmptyDir f.bytes))) X := by
    split
    · rename_i ht
      refine (h.isdirempty hmi hf ht (hs.size i f hf ht)).mono fun r s' p => ⟨p.1, ?_⟩
      rw [p.2, forall_prop_of_true ht]
    · rename_i ht
      exact ⟨rfl, iff_of_true rfl fun e => absurd e ht⟩
  refine hempty.mono ?_
  rintro r s5 ⟨rfl, hr⟩
  cases r with
  | true =>
    simp only [if_true]
    refine (unlinkEntry_spec h hf hfd htd hlen hn hne).mono ?_
    rintro r s6 ⟨rfl, bs, hset, hbs, h⟩
    exact .unlinked s6 i d n f fd _ bs hpar hdots.1 hdots.2 hfd htd hn hi hne hf (by omega) (hr.1 rfl) hset hbs h
  | false =>
    simp only [Bool.false_eq_true, if_false, sat_bind]
    refine (h.iunlockput_linked hf (hs.linked i hnamed f hf)).mono ?_
    intro _ s6 h
    exact (h.iunlockput_linked hfd hkd).mono fun _ s7 h => .failed s7 h

/-! ## `create` -/

theorem During.full (h : During sb s0 s g hs) (l : List Bool) : During sb s0 { s with full := l } g hs :=
  h.same ⟨⟨h.good.cons, h.good.table, h.good.copy, h.good.alloc⟩, rfl, fun _ _ hp _ => hp, fun _ _ _ hl _ => hl⟩

theorem During.tryIalloc (h : During sb s0 s g hs) (ht : type ≠ 0) (hX : X "iget: no inodes") :
    Sat seq (Fs.tryIalloc sb type) s (fun r s' => r = none ∧ During sb s0 s' g hs ∨
      ∃ ip i, r = some ip ∧ 0 < i ∧ i < sb.ninodes ∧ g i = none ∧
        During sb s0 s' (Function.update g i (some ⟨type, 0, 0, 0, []⟩)) (⟨ip, i, false⟩ :: hs)) X := by
  simp only [Fs.tryIalloc, sat_bind]
  rw [sat_perform]
  have h := h.full s.full.tail
  change Sat seq (if s.full.headD false = true then pure none else ialloc sb type) { s with full := s.full.tail } _ X
  split
  · exact .inl ⟨rfl, h⟩
  refine (ialloc_next h.good ht hX).mono ?_
  rintro r s' (⟨rfl, rfl⟩ | ⟨ip, i, rfl, h0, hlt, hnone, hn, hp⟩)
  · exact .inl ⟨rfl, h⟩
  rw [h.file] at hnone
  refine .inr ⟨ip, i, rfl, h0, hlt, hnone, ?_⟩
  have := h.step hn (fun j => ?_) fun p (hm : p ∈ (⟨ip, i, false⟩ : Hold) :: hs) => ?_
  · rwa [addRef_file, setFile, h.file] at this
  · rw [addRef_refs, setFile_refs, h.refs, holds_cons, add_assoc]
  · rcases mem_cons.1 hm with rfl | hm
    · exact .inr ⟨hp, fun hv => by cases hv⟩
    · exact .inl hm

theorem createFail_spec (h : During sb s0 s (update g i (some f)) [⟨ip, i, true⟩, ⟨dp, d, true⟩]) (hi : g i = none)
    (href : (files sb s0).refs i = 0) (hfd : g d = some fd) (hkd : fd.nlink = 0 → 0 < (files sb s0).refs d) :
    Sat seq (createFail sb ip dp) s (fun r s' => r = none ∧ During sb s0 s' g []) X := by
  have hne : i ≠ d := by
    rintro rfl
    rw [hi] at hfd
    cases hfd
  simp only [createFail, sat_bind]
  refine (h.setNlink (by simp) (update_self ..)).mono ?_
  intro _ s1 h
  rw [update_idem] at h
  refine h.iunlockput.mono ?_
  intro _ s2 h
  rw [href, holds_cons, holds_nil, if_neg hne, release_free (update_self ..) rfl, update_idem, ← hi,
    update_eq_self] at h
  refine (h.iunlockput_linked hfd hkd).mono ?_
  intro _ s3 h
  exact ⟨rfl, h⟩

def newEntries (i d : Nat) : List (Option (List UInt8 × Nat)) := [some (dot, i), some (dotdot, d)]

theorem linkDots_spec (h : During sb s0 s g [⟨ip, i, true⟩, ⟨dp, d, true⟩]) (hf : g i = some f) (ht : f.type = T_DIR)
    (hnil : f.bytes = []) (hX : X "iget: no inodes") :
    Sat seq (linkDots sb ip dp) s (fun r s' => ∃ bs,
      During sb s0 s' (update g i (some { f with bytes := bs })) [⟨ip, i, true⟩, ⟨dp, d, true⟩] ∧
      (r = true → bs.length % DIRENT = 0 ∧
        (0 < i → i < 65536 → 0 < d → d < 65536 → dirents bs = newEntries i d))) X := by
  have hmi : Hold.mk ip i true ∈ [Hold.mk ip i true, ⟨dp, d, true⟩] := mem_cons_self ..
  have hmd : Hold.mk dp d true ∈ [Hold.mk ip i true, ⟨dp, d, true⟩] := mem_cons_of_mem _ (by simp)
  simp only [linkDots, sat_bind, sat_iat]
  rw [h.inum hmi]
  refine (h.dirlink hmi hf ht (by rw [hnil]; rfl) hX).mono ?_
  rintro r s1 (⟨rfl, h⟩ | ⟨rfl, -, bs, hins, hbs, h⟩)
  · refine ⟨f.bytes, ?_, fun e => by cases e⟩
    rwa [show some { f with bytes := f.bytes } = g i from hf.symm, update_eq_self]
  simp only [if_true, sat_bind, sat_iat]
  rw [h.inum hmd]
  refine (h.dirlink hmi (update_self ..) ht hbs hX).mono ?_
  rintro r s2 (⟨rfl, h⟩ | ⟨rfl, -, bs', hins', hbs', h⟩)
  · exact ⟨bs, h, fun e => by cases e⟩
  · rw [update_idem] at h
    refine ⟨bs', h, fun _ => ⟨hbs', fun h0 hlt h0' hlt' => ?_⟩⟩
    rw [hins' h0' hlt', hins h0 hlt, hnil, nameKey_dot, nameKey_dotdot]
    rfl

structure NewFile (type major minor : UInt16) (i d : Nat) (f : File) : Prop where
  type_eq : f.type = type
  major_eq : f.major = major
  minor_eq : f.minor = minor
  nlink_eq : f.nlink = 1
  bytes_file : type ≠ T_DIR → f.bytes = []
  bytes_dir : type = T_DIR → f.bytes.length % DIRENT = 0 ∧ (0 < d → dirents f.bytes = newEntries i d)

/-- The directory after an entry has been added; a new directory links to it. -/
def linkedDir (fd : File) (type : UInt16) (bs : List UInt8) : File :=
  { fd with bytes := bs, nlink := if type = T_DIR then fd.nlink + 1 else fd.nlink }

theorem createNew_spec (h : During sb s0 s (update g i (some ⟨type, 0, 0, 0, []⟩)) [⟨ip, i, false⟩, ⟨dp, d, true⟩])
    (h0 : 0 < i) (hlt : i < sb.ninodes) (hltd : d < sb.ninodes) (hi : g i = none) (href : (files sb s0).refs i = 0)
    (hfd : g d = some fd) (htd : fd.type = T_DIR) (hlen : fd.bytes.length % DIRENT = 0)
    (hkd : fd.nlink = 0 → 0 < (files sb s0).refs d) (hX : ∀ m, m = "iget: no inodes" ∨ m = "ilock: no type" → X m) :
    Sat seq (createNew sb dp ip name type major minor) s (fun r s' => r = none ∧ During sb s0 s' g [] ∨
      r = some ip ∧ ∃ f bs, NewFile type major minor i d f ∧ Slots.lookup (nameKey name) (dirents fd.bytes) = none ∧
        dirents bs = Slots.insert (nameKey name, i) (dirents fd.bytes) ∧ bs.length % DIRENT = 0 ∧
        During sb s0 s' (release (update (update g i (some f)) d (some (linkedDir fd type bs))) d
          ((files sb s0).refs d)) [⟨ip, i, true⟩]) X := by
  have hlt' : i < 65536 := lt_of_lt_of_le hlt sb.ninodes_le
  have hltd' : d < 65536 := lt_of_lt_of_le hltd sb.ninodes_le
  have hne : d ≠ i := by
    rintro rfl
    rw [hi] at hfd
    cases hfd
  have hmi : Hold.mk ip i true ∈ [Hold.mk ip i true, ⟨dp, d, true⟩] := mem_cons_self ..
  have hmd : Hold.mk dp d true ∈ [Hold.mk ip i true, ⟨dp, d, true⟩] := mem_cons_of_mem _ (by simp)
  simp only [createNew, sat_bind]
  refine (h.ilock hlt fun _ => hX _ (.inr rfl)).mono ?_
  intro _ s1 h
  refine (h.setNode hmi (update_self ..)).mono ?_
  intro _ s2 h
  rw [update_idem] at h
  have hdots : Sat seq (if type = T_DIR then linkDots sb ip dp else pure true) s2 (fun r s' => ∃ f,
      During sb s0 s' (update g i (some f)) [⟨ip, i, true⟩, ⟨dp, d, true⟩] ∧
      (r = true → NewFile type major minor i d f)) X := by
    split
    · rename_i ht
      refine (linkDots_spec h (update_self ..) ht rfl (hX _ (.inl rfl))).mono ?_
      rintro r s' ⟨bs, h, hr⟩
      rw [update_idem] at h
      refine ⟨_, h, fun e => ⟨rfl, rfl, rfl, rfl, fun hn => absurd ht hn, fun _ => ?_⟩⟩
      exact ⟨(hr e).1, fun hd0 => (hr e).2 h0 hlt' hd0 hltd'⟩
    · rename_i ht
      exact ⟨_, h, fun _ => ⟨rfl, rfl, rfl, rfl, fun _ => rfl, fun e => absurd e ht⟩⟩
  refine hdots.mono ?_
  rintro r s3 ⟨f, h, hnew⟩
  cases r with
  | false =>
    exact (createFail_spec h hi href hfd hkd).mono fun r s' p => .inl p
  | true =>
    have hfd' : update g i (some f) d = some fd := by rw [update_of_ne hne, hfd]
    simp only [if_true, sat_bind, sat_iat]
    rw [h.inum hmi]
    refine (h.dirlink hmd hfd' htd hlen (hX _ (.inl rfl))).mono ?_
    rintro r s4 (⟨rfl, h⟩ | ⟨rfl, hnone, bs, hins, hbs, h⟩)
    · simp only [Bool.false_eq_true, if_false]
      exact (createFail_spec h hi href hfd hkd).mono fun r s' p => .inl p
    simp only [if_true, sat_bind]
    refine (h.ifDir hmd (update_self ..)).mono ?_
    intro _ s5 h
    rw [Function.update_idem] at h
    refine ((h.perm (List.Perm.swap ..)).iunlockput).mono ?_
    intro _ s6 h
    rw [holds_cons, holds_nil, if_neg hne, add_zero] at h
    exact .inr ⟨rfl, f, bs, hnew rfl, hnone, hins h0 hlt', hbs, h⟩

/-- What `create` does: nothing, or it finds a file, or it makes one. -/
inductive CreateCall (sb : Super) (s0 : FsState) (cwd : Nat) (path : List UInt8) (type major minor : UInt16) :
    Option Nat → FsState → Prop
  | failed (s' : FsState) : During sb s0 s' (files sb s0).file [] → CreateCall sb s0 cwd path type major minor none s'
  | found (s' : FsState) (ip i d : Nat) (f : File) (e : List UInt8) :
      (files sb s0).walkParent (startOf s0 cwd path) (elems path) = some (d, e) → (files sb s0).child d e = some i →
      (files sb s0).file i = some f → type = T_FILE → f.type = T_FILE ∨ f.type = T_DEVICE →
      During sb s0 s' (files sb s0).file [⟨ip, i, true⟩] → CreateCall sb s0 cwd path type major minor (some ip) s'
  | created (s' : FsState) (ip i d : Nat) (f fd : File) (e bs : List UInt8) :
      (files sb s0).walkParent (startOf s0 cwd path) (elems path) = some (d, e) → (files sb s0).file d = some fd →
      fd.type = T_DIR → Slots.lookup e (dirents fd.bytes) = none → 0 < i → i < sb.ninodes → (files sb s0).file i = none →
      NewFile type major minor i d f → dirents bs = Slots.insert (e, i) (dirents fd.bytes) → bs.length % DIRENT = 0 →
      During sb s0 s' (release (update (update (files sb s0).file i (some f)) d
        (some (linkedDir fd type bs))) d ((files sb s0).refs d)) [⟨ip, i, true⟩] →
      CreateCall sb s0 cwd path type major minor (some ip) s'

theorem create_spec (hg : Good sb s) (hs : Sound sb (files sb s)) (hcwd : 0 < (s.itable cwd).ref) (htype : type ≠ 0)
    (hX : ∀ m, m = "iget: no inodes" ∨ m = "ilock: no type" → X m) :
    Sat seq (create sb cwd path type major minor name) s (CreateCall sb s cwd path type major minor) X := by
  simp only [create, sat_bind]
  refine ((During.start hg).nameiparent hs hcwd hX).mono ?_
  rintro ⟨r, name'⟩ s1 (⟨hr, -, h⟩ | ⟨dp, d, hr, hpar, hlt, hlinked, h⟩)
  · subst hr
    exact .failed s1 h
  subst hr
  obtain ⟨fd, hfd, htd⟩ := dir_of_walkParent hpar
  have hlen := hs.size d fd hfd htd
  have hkd := hlinked fd hfd
  simp only [sat_bind]
  refine (h.ilock hlt fun _ => hX _ (.inr rfl)).mono ?_
  intro _ s2 h
  refine (h.dirlookup (by simp) hfd htd hlen (hX _ (.inl rfl))).mono ?_
  rintro r s3 (⟨rfl, rfl, hnone⟩ | ⟨ip, n, i, rfl, -, hi, h⟩)
  · -- the name is new
    rw [sat_bind]
    refine (h.tryIalloc htype (hX _ (.inl rfl))).mono ?_
    rintro r s4 (⟨rfl, h⟩ | ⟨ip, i, rfl, h0, hlti, hfree, h⟩)
    · rw [sat_bind]
      exact (h.iunlockput_linked hfd hkd).mono fun _ s5 h => .failed s5 h
    have href : (files sb s).refs i = 0 := by
      by_contra hpos
      exact hs.refs i (by omega) hfree
    refine (createNew_spec h h0 hlti hlt hfree href hfd htd hlen hkd hX).mono ?_
    rintro r s5 (⟨rfl, h⟩ | ⟨rfl, f, bs, hnew, -, hins, hbs, h⟩)
    · exact .failed s5 h
    · exact .created s5 ip i d f fd _ bs hpar hfd htd hnone h0 hlti hfree hnew hins hbs h
  · -- the name exists
    have hchild : (files sb s).child d (nameKey name') = some i := by
      rw [child_eq hfd htd, entries_eq hfd, hi]
    have hnamed := named_of_child hchild
    simp only [sat_bind]
    refine ((h.perm (List.Perm.swap ..)).iunlockput_linked hfd hkd).mono ?_
    intro _ s4 h
    refine (h.ilock (hs.lt i hnamed) fun _ => hX _ (.inr rfl)).mono ?_
    intro _ s5 h
    obtain ⟨f, hf⟩ := h.file_some (mem_singleton.2 rfl)
    rw [sat_iat, h.type (mem_singleton.2 rfl) hf]
    split
    · rename_i hok
      exact .found s5 ip i d f _ hpar hchild hf hok.1 hok.2 h
    · rw [sat_bind]
      exact (h.iunlockput_linked hf (hs.linked i hnamed f hf)).mono fun _ s6 h => .failed s6 h

end

/-! ## Calls that fail -/

/-- A call of the name space with its arguments and local buffers. -/
inductive NameCall
  | link (old new : Option (List UInt8)) (name buf : List UInt8)
  | unlink (path : Option (List UInt8)) (name : List UInt8)
  | mkdir (path : Option (List UInt8)) (name : List UInt8)
  | mknod (path : Option (List UInt8)) (major minor : UInt16) (name : List UInt8)

def NameCall.prog (sb : Super) (cwd : Nat) : NameCall → M Bool
  | link old new name buf => sysLink sb cwd old new name buf
  | unlink path name => sysUnlink sb cwd path name
  | mkdir path name => sysMkdir sb cwd path name
  | mknod path major minor name => sysMknod sb cwd path major minor name

section
variable {sb : Super} {s : FsState} {cwd : Nat} {name : List UInt8} {type major minor : UInt16}

def Unchanged (sb : Super) (s : FsState) (r : Bool) (s' : FsState) : Prop :=
  r = false → During sb s s' (files sb s).file []

theorem makeNode_unchanged (hg : Good sb s) (hs : Sound sb (files sb s)) (hcwd : 0 < (s.itable cwd).ref) (htype : type ≠ 0)
    (path : Option (List UInt8)) :
    Sat seq (makeNode sb cwd path type major minor name) s (Unchanged sb s) fun _ => True := by
  cases path with
  | none => exact fun _ => During.start hg
  | some path =>
    simp only [makeNode, sat_bind]
    refine (create_spec hg hs hcwd htype fun _ _ => trivial).mono ?_
    intro r s1 p
    have hdone : ∀ {g ip i}, During sb s s1 g [⟨ip, i, true⟩] →
        Sat seq (do iunlockput sb ip; return true) s1 (Unchanged sb s) fun _ => True := by
      intro g ip i h
      rw [sat_bind]
      exact h.iunlockput.mono fun _ _ _ => sat_pure.2 fun e => Bool.noConfusion e
    cases p with
    | failed _ h => exact fun _ => h
    | found _ _ _ _ _ _ _ _ _ _ _ h | created _ _ _ _ _ _ _ _ _ _ _ _ _ _ _ _ _ _ h => exact hdone h

theorem nameCall_unchanged (hg : Good sb s) (hs : Sound sb (files sb s)) (hcwd : 0 < (s.itable cwd).ref) (c : NameCall) :
    Sat seq (c.prog sb cwd) s (Unchanged sb s) fun _ => True := by
  have hstart : Unchanged sb s false s := fun _ => During.start hg
  cases c with
  | link old new name buf =>
    cases old with
    | none => exact hstart
    | some old =>
      cases new with
      | none => exact hstart
      | some new =>
        refine (sysLink_spec hg hs hcwd).mono ?_
        intro r s' p
        cases p with
        | failed _ h => exact fun _ => h
        | linked => exact fun e => by cases e
  | unlink path name =>
    cases path with
    | none => exact hstart
    | some path =>
      refine (sysUnlink_spec hg hs hcwd (fun _ _ => trivial) fun _ _ _ _ _ _ _ _ => trivial).mono ?_
      intro r s' p
      cases p with
      | failed _ h => exact fun _ => h
      | unlinked => exact fun e => by cases e
  | mkdir path name | mknod path major minor name => exact makeNode_unchanged hg hs hcwd (by decide) path

end

theorem failed_call_unchanged {sb : Super} {s s' : FsState} {cwd : Nat} (hg : Good sb s) (hs : Sound sb (files sb s))
    (hcwd : 0 < (s.itable cwd).ref) (c : NameCall) (hrun : (c.prog sb cwd).run seq s = .ok (false, s')) :
    Good sb s' ∧ files sb s' = files sb s := by
  have h := (nameCall_unchanged hg hs hcwd c).ok hrun rfl
  exact ⟨h.good, h.files_eq⟩

theorem failed_call_unchanged_file : Good mkfsSuper (busyState 1) ∧ Sound mkfsSuper (files mkfsSuper (busyState 1)) ∧
    ∃ s', ((NameCall.unlink (some [47, 98]) []).prog mkfsSuper 0).run seq (busyState 1) = .ok (false, s') ∧
      files mkfsSuper s' = files mkfsSuper (busyState 1) := by
  have hg : Good mkfsSuper (busyState 1) := good_busyState (by decide)
  have hs : Sound mkfsSuper (files mkfsSuper (busyState 1)) := (tree_busyState (by decide)).toSound
  have hrun : (((NameCall.unlink (some [47, 98]) []).prog mkfsSuper 0).run seq (busyState 1)).toOption.map (·.1) =
      some false := by decide +kernel
  cases hr : ((NameCall.unlink (some [47, 98]) []).prog mkfsSuper 0).run seq (busyState 1) with
  | error m =>
    rw [hr] at hrun
    cases hrun
  | ok r =>
    obtain ⟨b, s'⟩ := r
    rw [hr] at hrun
    obtain rfl : b = false := Option.some.inj hrun
    exact ⟨hg, hs, s', rfl, (failed_call_unchanged hg hs (by decide) _ hr).2⟩

/-- A file with an entry `a` in the root directory, but without links. -/
def unlinkedState : FsState := treeState fileEntry { emptyFile with nlink := 0 } 3 (busyTable fileEntry 1) []

theorem good_unlinkedState : Good mkfsSuper unlinkedState := by
  refine good_treeState (by decide) (by decide) (by decide) rfl rfl (tableOk_busyTable (by decide)) fun k _ hv => ?_
  unfold busyTable at hv ⊢
  split at hv
  · rename_i hk
    simp [hk, treeView, rootInode, T_DIR]
  · rename_i hk
    have : ¬k < 1 := by omega
    simp [this] at hv

theorem unlink_fails_frees : Good mkfsSuper unlinkedState ∧ 0 < (unlinkedState.itable 0).ref ∧
    ∃ s', (sysUnlink mkfsSuper 0 (some [47, 97, 47, 98]) []).run seq unlinkedState = .ok (false, s') ∧
      (files mkfsSuper unlinkedState).file 2 ≠ none ∧ (files mkfsSuper s').file 2 = none := by
  have hrun : ((sysUnlink mkfsSuper 0 (some [47, 97, 47, 98]) []).run seq unlinkedState).toOption.map
      (fun r => (r.1, (getDinode (r.2.blocks 32) 2).type)) = some (false, 0) := by decide +kernel
  refine ⟨good_unlinkedState, by decide, ?_⟩
  cases hr : (sysUnlink mkfsSuper 0 (some [47, 97, 47, 98]) []).run seq unlinkedState with
  | error m =>
    rw [hr] at hrun
    cases hrun
  | ok r =>
    obtain ⟨b, s'⟩ := r
    rw [hr] at hrun
    obtain ⟨rfl, ht⟩ := Prod.mk.inj (Option.some.inj hrun)
    refine ⟨s', rfl, ?_, ?_⟩
    · rw [unlinkedState, file_treeState (by decide), file_file (by decide) (by decide)]
      simp
    · change View.file (view mkfsSuper s'.blocks) 2 = none
      exact if_pos ht

end Xv6.Fs
