import Xv6.Fs.Path

/-!
# What a call holds

A system call takes references to inodes, locks the inodes, changes them and gives the references back. `During sb s0 s g hs`
says that a call that began in `s0` has come to `s`: the files are now `g`, and the references are those of `s0` and one
for each of `hs`. There is one rule per function of `fs.c` that a call uses.
-/

namespace Xv6.Fs

open Prog List Files Function

structure Hold where
  ip : Nat
  inum : Nat
  valid : Bool

/-- How many of the references are to inode `i`. -/
def holds (hs : List Hold) (i : Nat) : Nat := (hs.map (·.inum)).count i

@[simp] theorem holds_nil (i : Nat) : holds [] i = 0 := rfl

theorem holds_cons (h : Hold) (hs : List Hold) (i : Nat) : holds (h :: hs) i = holds hs i + if i = h.inum then 1 else 0 := by
  rw [holds, map_cons, count_cons]
  simp only [holds, beq_iff_eq, @eq_comm _ i]

theorem holds_pos {h : Hold} {hs : List Hold} (hm : h ∈ hs) : 0 < holds hs h.inum :=
  count_pos_iff.2 (mem_map_of_mem hm)

structure During (sb : Super) (s0 s : FsState) (g : Nat → Option File) (hs : List Hold) : Prop where
  base : Good sb s0
  good : Good sb s
  file : (files sb s).file = g
  refs : ∀ i, (files sb s).refs i = (files sb s0).refs i + holds hs i
  ptr : ∀ h ∈ hs, Ptr s h.ip h.inum
  live : ∀ h ∈ hs, h.valid = true → Live s h.ip
  oldPtr : ∀ k i, Ptr s0 k i → Ptr s k i
  oldLive : ∀ k, Live s0 k → Live s k

/-- The files after a reference to `i` has been dropped, with `n` left. -/
def release (g : Nat → Option File) (i n : Nat) : Nat → Option File :=
  if n = 0 ∧ ∃ f ∈ g i, f.nlink = 0 then update g i none else g

section
variable {sb : Super} {s s' s0 : FsState} {g : Nat → Option File} {hs hs' : List Hold} {i k n d : Nat} {f : File} {v : Bool}
  {name : List UInt8} {X : String → Prop}

theorem release_of_nlink (hf : g i = some f) (hn : f.nlink ≠ 0) : release g i n = g :=
  if_neg fun h => by
    obtain ⟨-, f', hf', h0⟩ := h
    rw [hf] at hf'
    cases hf'
    exact hn h0

theorem release_of_pos (hn : 0 < n) : release g i n = g := if_neg fun h => by omega

theorem release_free (hf : g i = some f) (hn : f.nlink = 0) : release g i 0 = update g i none :=
  if_pos ⟨rfl, f, hf, hn⟩

namespace During

theorem start (hg : Good sb s) : During sb s s (files sb s).file [] :=
  ⟨hg, hg, rfl, fun _ => rfl, fun _ hm => absurd hm not_mem_nil, fun _ hm => absurd hm not_mem_nil,
    fun _ _ hp => hp, fun _ hl => hl⟩

theorem files_eq (h : During sb s0 s (files sb s0).file []) : files sb s = files sb s0 := by
  refine Files.ext h.file ?_
  funext i
  exact h.refs i

section
variable (h : During sb s0 s g hs)
include h

theorem step {a : Files} (hn : Next sb s s' a)
    (hrefs : ∀ i, a.refs i = (files sb s0).refs i + holds hs' i)
    (hold : ∀ p ∈ hs', p ∈ hs ∨ Ptr s' p.ip p.inum ∧ (p.valid = true → Live s' p.ip)) : During sb s0 s' a.file hs' := by
  have hpos : ∀ p ∈ hs', 0 < a.refs p.inum := fun p hp => by
    have := holds_pos hp
    rw [hrefs]
    omega
  have hold0 : ∀ k i, Ptr s0 k i → 0 < a.refs i := fun k i hp => by
    have := h.base.refs_pos hp
    rw [hrefs]
    omega
  refine ⟨h.base, hn.good, congrArg Files.file hn.files, fun i => by rw [hn.files, hrefs], fun p hp => ?_, fun p hp hv => ?_,
    fun k i hp => hn.ptr k i (h.oldPtr k i hp) (hold0 k i hp), fun k hl => ?_⟩
  · rcases hold p hp with hm | hm
    · exact hn.ptr _ _ (h.ptr p hm) (hpos p hp)
    · exact hm.1
  · rcases hold p hp with hm | hm
    · exact hn.live _ _ (h.ptr p hm) (h.live p hm hv) (hpos p hp)
    · exact hm.2 hv
  · exact hn.live _ _ (h.oldPtr _ _ hl.ptr) (h.oldLive k hl) (hold0 k _ hl.ptr)

theorem same (hn : Next sb s s' (files sb s)) : During sb s0 s' g hs := by
  have := h.step hn h.refs fun p hp => .inl hp
  rwa [h.file] at this

theorem set {f : Option File} (hn : Next sb s s' ((files sb s).setFile i f)) :
    During sb s0 s' (update g i f) hs := by
  have := h.step hn h.refs fun p hp => .inl hp
  rwa [setFile, h.file] at this

theorem add (hn : Next sb s s' ((files sb s).addRef i)) (hp : Ptr s' k i) :
    During sb s0 s' g (⟨k, i, false⟩ :: hs) := by
  have hrefs : ∀ j, ((files sb s).addRef i).refs j = (files sb s0).refs j + holds (⟨k, i, false⟩ :: hs) j := by
    intro j
    rw [addRef_refs, h.refs, holds_cons, Nat.add_assoc]
  have hold : ∀ p ∈ Hold.mk k i false :: hs, p ∈ hs ∨ Ptr s' p.ip p.inum ∧ (p.valid = true → Live s' p.ip) := by
    intro p hp'
    rcases mem_cons.1 hp' with rfl | hm
    · exact .inr ⟨hp, fun hv => by cases hv⟩
    · exact .inl hm
  have := h.step hn hrefs hold
  rwa [addRef_file, h.file] at this

theorem perm (hp : hs.Perm hs') : During sb s0 s g hs' :=
  ⟨h.base, h.good, h.file, fun i => by rw [h.refs, holds, holds, (hp.map _).count_eq],
    fun p hm => h.ptr p (hp.mem_iff.2 hm), fun p hm => h.live p (hp.mem_iff.2 hm), h.oldPtr, h.oldLive⟩

end

theorem dropRef_refs (h : During sb s0 s g (⟨k, i, v⟩ :: hs)) (j : Nat) :
    ((files sb s).dropRef i).refs j = (files sb s0).refs j + holds hs j := by
  by_cases e : j = i
  · subst e
    rw [dropRef_refs_self, h.refs, holds_cons, if_pos rfl]
    omega
  · rw [dropRef_refs_ne e, h.refs, holds_cons, if_neg e, Nat.add_zero]

theorem drop (h : During sb s0 s g (⟨k, i, v⟩ :: hs)) (hn : Next sb s s' ((files sb s).dropRef i)) : During sb s0 s' g hs := by
  have := h.step hn h.dropRef_refs fun p hp => .inl (mem_cons_of_mem _ hp)
  rwa [dropRef_file, h.file] at this

section
variable (h : During sb s0 s g hs)
include h

theorem file_some (hm : ⟨k, i, true⟩ ∈ hs) : ∃ f, g i = some f := by
  have := h.good.file_eq (h.live _ hm rfl) (h.ptr _ hm)
  rw [h.file] at this
  exact ⟨_, this⟩

theorem inode (hm : ⟨k, i, true⟩ ∈ hs) (hf : g i = some f) : (s.itable k).d.file f.bytes = f := by
  have he := h.good.file_eq (h.live _ hm rfl) (h.ptr _ hm)
  rw [h.file, hf, Option.some.injEq] at he
  subst he
  rfl

theorem inum (hm : ⟨k, i, v⟩ ∈ hs) : (s.itable k).inum = i := (h.ptr _ hm).2

theorem type (hm : ⟨k, i, true⟩ ∈ hs) (hf : g i = some f) : (s.itable k).d.type = f.type :=
  congrArg File.type (h.inode hm hf)

theorem nlink (hm : ⟨k, i, true⟩ ∈ hs) (hf : g i = some f) : (s.itable k).d.nlink = f.nlink :=
  congrArg File.nlink (h.inode hm hf)

theorem fileOf (hf : g i = some f) : (files sb s).file i = some f := by rw [h.file]; exact hf

end

/-! ## Rules -/

theorem ilock (h : During sb s0 s g (⟨k, i, v⟩ :: hs)) (hlt : i < sb.ninodes) (hX : g i = none → X "ilock: no type") :
    Sat seq (Fs.ilock sb k) s (fun _ s' => During sb s0 s' g (⟨k, i, true⟩ :: hs)) X := by
  have hp : Ptr s k i := h.ptr ⟨k, i, v⟩ (by simp)
  refine (ilock_next h.good hp hlt fun hnone => hX (by rwa [h.file] at hnone)).mono ?_
  rintro _ s' ⟨hn, hl, -⟩
  have hp' : Ptr s' k i := hn.ptr k i hp (h.good.refs_pos hp)
  have hrefs : ∀ j, (files sb s).refs j = (files sb s0).refs j + holds (⟨k, i, true⟩ :: hs) j := by
    intro j
    rw [h.refs, holds_cons, holds_cons]
  have := h.step hn hrefs fun p hm => by
    rcases mem_cons.1 hm with rfl | hm
    · exact .inr ⟨hp', fun _ => hl⟩
    · exact .inl (mem_cons_of_mem _ hm)
  rwa [h.file] at this

theorem iput_keep (h : During sb s0 s g (⟨k, i, v⟩ :: hs))
    (hk : (∃ f, g i = some f ∧ f.nlink ≠ 0) ∨ 0 < (files sb s0).refs i + holds hs i) :
    Sat seq (Fs.iput sb k) s (fun _ s' => During sb s0 s' g hs) X := by
  have hkept : (files sb s).Kept i := by
    rcases hk with ⟨f, hf, hn⟩ | hk
    · refine .inr fun f' hf' => ?_
      rw [h.file, hf] at hf'
      cases hf'
      exact hn
    · left
      rw [h.refs, holds_cons, if_pos rfl]
      omega
  exact (Fs.iput_keep h.good (h.ptr _ (mem_cons_self ..)) hkept).mono fun _ s' hn => h.drop hn.1

theorem iput (h : During sb s0 s g (⟨k, i, true⟩ :: hs)) :
    Sat seq (Fs.iput sb k) s (fun _ s' => During sb s0 s' (release g i ((files sb s0).refs i + holds hs i)) hs) X := by
  have hm : Hold.mk k i true ∈ Hold.mk k i true :: hs := mem_cons_self ..
  obtain ⟨f, hf⟩ := h.file_some hm
  by_cases hn : f.nlink = 0
  · by_cases hr : (files sb s0).refs i + holds hs i = 0
    · rw [hr, release_free hf hn]
      have h1 : (files sb s).refs i = 1 := by
        rw [h.refs, holds_cons, if_pos rfl]
        omega
      refine (iput_free h.good (h.ptr _ hm) (h.live _ hm rfl) h1 (h.fileOf hf) hn).mono fun _ s' hn => ?_
      have := h.step hn h.dropRef_refs fun p hp => .inl (mem_cons_of_mem _ hp)
      rwa [setFile, dropRef_file, h.file] at this
    · have hpos : 0 < (files sb s0).refs i + holds hs i := by omega
      rw [release_of_pos hpos]
      exact h.iput_keep (.inr hpos)
  · rw [release_of_nlink hf hn]
    exact h.iput_keep (.inl ⟨f, hf, hn⟩)

theorem iunlock {Q : Unit → FsState → Prop} (h : During sb s0 s g hs) (hm : ⟨k, i, v⟩ ∈ hs) :
    Sat seq (Fs.iunlock k) s Q X ↔ Q () s := sat_iunlock (h.ptr _ hm)

theorem iunlockput (h : During sb s0 s g (⟨k, i, true⟩ :: hs)) :
    Sat seq (Fs.iunlockput sb k) s (fun _ s' => During sb s0 s' (release g i ((files sb s0).refs i + holds hs i)) hs) X := by
  rw [Fs.iunlockput, sat_bind, h.iunlock (mem_cons_self ..)]
  exact h.iput

theorem iunlockput_linked (h : During sb s0 s g (⟨k, i, true⟩ :: hs)) (hf : g i = some f)
    (hk : f.nlink = 0 → 0 < (files sb s0).refs i) : Sat seq (Fs.iunlockput sb k) s (fun _ s' => During sb s0 s' g hs) X := by
  have hsame : release g i ((files sb s0).refs i + holds hs i) = g := by
    by_cases hn : f.nlink = 0
    · have := hk hn
      exact release_of_pos (by omega)
    · exact release_of_nlink hf hn
  have := h.iunlockput (X := X)
  rwa [hsame] at this

theorem dirlookup (h : During sb s0 s g hs) (hm : ⟨k, d, true⟩ ∈ hs) (hf : g d = some f) (ht : f.type = T_DIR)
    (hlen : f.bytes.length % DIRENT = 0) (hX : X "iget: no inodes") :
    Sat seq (Fs.dirlookup sb k name) s (fun r s' =>
      r = none ∧ s' = s ∧ Slots.lookup (nameKey name) (dirents f.bytes) = none ∨
      ∃ ip n i, r = some (ip, DIRENT * n) ∧ (dirents f.bytes)[n]? = some (some (nameKey name, i)) ∧
        Slots.lookup (nameKey name) (dirents f.bytes) = some i ∧ During sb s0 s' g (⟨ip, i, false⟩ :: hs)) X := by
  have he : (files sb s).entries d = dirents f.bytes := entries_eq (h.fileOf hf)
  refine (dirlookup_next h.good (h.live _ hm rfl) (h.ptr _ hm) (h.fileOf hf) ht hlen fun _ _ _ => hX).mono ?_
  rintro (- | ⟨ip, off⟩) s' p
  · exact .inl ⟨rfl, p.1, he ▸ p.2⟩
  · obtain ⟨n, i, rfl, hn, hi, hnext, hptr⟩ := p
    exact .inr ⟨ip, n, i, rfl, he ▸ hn, he ▸ hi, h.add hnext hptr⟩

theorem dirlink {inum : Nat} (h : During sb s0 s g hs) (hm : ⟨k, d, true⟩ ∈ hs) (hf : g d = some f) (ht : f.type = T_DIR)
    (hlen : f.bytes.length % DIRENT = 0) (hX : X "iget: no inodes") :
    Sat seq (Fs.dirlink sb k name inum) s (fun r s' => r = false ∧ During sb s0 s' g hs ∨
      r = true ∧ Slots.lookup (nameKey name) (dirents f.bytes) = none ∧ ∃ bs,
        (0 < inum → inum < 65536 → dirents bs = Slots.insert (nameKey name, inum) (dirents f.bytes)) ∧
        bs.length % DIRENT = 0 ∧ During sb s0 s' (update g d (some { f with bytes := bs })) hs) X := by
  refine (dirlink_next h.good (h.live _ hm rfl) (h.ptr _ hm) (h.fileOf hf) ht hlen fun _ _ _ => hX).mono ?_
  rintro r s' (⟨_, hn⟩ | ⟨_, bs, hnone, hins, hbs, hn⟩)
  · exact .inl ⟨rfl, h.same hn⟩
  · exact .inr ⟨rfl, hnone, bs, hins, hbs, h.set hn⟩

theorem clearEntry {e : List UInt8 × Nat} (h : During sb s0 s g hs) (hm : ⟨k, d, true⟩ ∈ hs) (hf : g d = some f)
    (ht : f.type = T_DIR) (hlen : f.bytes.length % DIRENT = 0) (hn : (dirents f.bytes)[n]? = some (some e)) :
    Sat seq (Fs.clearEntry sb k (DIRENT * n)) s (fun r s' => r = some DIRENT ∧ ∃ bs,
      dirents bs = (dirents f.bytes).set n none ∧ bs.length % DIRENT = 0 ∧
        During sb s0 s' (update g d (some { f with bytes := bs })) hs) X := by
  refine (clearEntry_next h.good (h.live _ hm rfl) (h.ptr _ hm) (h.fileOf hf) ht hlen hn).mono ?_
  rintro r s' ⟨hr, bs, hset, hbs, hnext⟩
  exact ⟨hr, bs, hset, hbs, h.set hnext⟩

end During

/-! ## Fields of a locked inode -/

theorem During.update {u : Dinode → Dinode} {c : File → File} (h : During sb s0 s g hs) (hm : ⟨k, i, true⟩ ∈ hs)
    (hf : g i = some f) (hfix : ∀ t, (u t).type = t.type ∧ (u t).size = t.size ∧ (u t).addrs = t.addrs)
    (hc : ∀ t bs, (u t).file bs = c (Dinode.file t bs)) :
    Sat seq (do iset k fun t => { t with d := u t.d }; iupdate sb k) s
      (fun _ s' => During sb s0 s' (update g i (some (c f))) hs) X := by
  refine (update_next h.good (h.live _ hm rfl) (h.ptr _ hm) hfix (h.fileOf hf)).mono fun _ s' hn => ?_
  rw [hc, h.inode hm hf] at hn
  exact h.set hn

def setNlink (sb : Super) (ip : Nat) (c : UInt16 → UInt16) : M Unit := do
  iset ip fun t => { t with d := { t.d with nlink := c t.d.nlink } }
  iupdate sb ip

theorem During.setNlink {c : UInt16 → UInt16} (h : During sb s0 s g hs) (hm : ⟨k, i, true⟩ ∈ hs) (hf : g i = some f) :
    Sat seq (Fs.setNlink sb k c) s
      (fun _ s' => During sb s0 s' (Function.update g i (some { f with nlink := c f.nlink })) hs) X :=
  h.update (u := fun t => { t with nlink := c t.nlink }) (c := fun f => { f with nlink := c f.nlink }) hm hf
    (fun _ => ⟨rfl, rfl, rfl⟩) fun _ _ => rfl

/-- `ip->major = major; ip->minor = minor; ip->nlink = 1; iupdate(ip);`. -/
def setNode (sb : Super) (ip : Nat) (major minor : UInt16) : M Unit := do
  iset ip fun t => { t with d := { t.d with major := major, minor := minor, nlink := 1 } }
  iupdate sb ip

section
variable (h : During sb s0 s g hs)
include h

theorem During.setNode {major minor : UInt16} (hm : ⟨k, i, true⟩ ∈ hs) (hf : g i = some f) :
    Sat seq (Fs.setNode sb k major minor) s
      (fun _ s' => During sb s0 s' (Function.update g i (some { f with major := major, minor := minor, nlink := 1 })) hs) X :=
  h.update (u := fun t => { t with major := major, minor := minor, nlink := 1 })
    (c := fun f => { f with major := major, minor := minor, nlink := 1 }) hm hf (fun _ => ⟨rfl, rfl, rfl⟩) fun _ _ => rfl

/-! ## Path walks of a call -/

theorem During.startOf {cwd : Nat} {path : List UInt8} (hcwd : 0 < (s0.itable cwd).ref) :
    Fs.startOf s cwd path = Fs.startOf s0 cwd path := by
  unfold Fs.startOf
  rw [(h.oldPtr cwd _ ⟨hcwd, rfl⟩).2]

theorem During.namei {cwd : Nat} {path : List UInt8} (hsound : Sound sb (files sb s))
    (hcwd : 0 < (s0.itable cwd).ref) (hX : ∀ m, m = "iget: no inodes" ∨ m = "ilock: no type" → X m) :
    Sat seq (Fs.namei sb cwd path name) s (fun r s' =>
      r = none ∧ (files sb s).walk (Fs.startOf s0 cwd path) (elems path) = none ∧ During sb s0 s' g hs ∨
      ∃ ip i, r = some ip ∧ (files sb s).walk (Fs.startOf s0 cwd path) (elems path) = some i ∧ i < sb.ninodes ∧
        (files sb s).Linked i ∧ During sb s0 s' g (⟨ip, i, false⟩ :: hs)) X := by
  unfold Fs.namei
  rw [sat_bind]
  refine (namex_spec h.good hsound (h.oldPtr cwd _ ⟨hcwd, rfl⟩).1 (fun _ => hX _ (.inl rfl)) fun _ _ _ => hX _ (.inr rfl)).mono ?_
  intro r s' p
  rw [h.startOf hcwd, NamexPost, if_neg (by simp)] at p
  split at p
  · rename_i hw
    exact .inl ⟨p.1, hw, h.same p.2⟩
  · rename_i j hw
    obtain ⟨ip, hr, hat⟩ := p
    exact .inr ⟨ip, j, hr, hw, hat.lt, hat.linked, h.add hat.next hat.ptr⟩

theorem During.nameiparent {cwd : Nat} {path : List UInt8} (hsound : Sound sb (files sb s))
    (hcwd : 0 < (s0.itable cwd).ref) (hX : ∀ m, m = "iget: no inodes" ∨ m = "ilock: no type" → X m) :
    Sat seq (Fs.nameiparent sb cwd path name) s (fun r s' =>
      r.1 = none ∧ (files sb s).walkParent (Fs.startOf s0 cwd path) (elems path) = none ∧ During sb s0 s' g hs ∨
      ∃ dp d, r.1 = some dp ∧ (files sb s).walkParent (Fs.startOf s0 cwd path) (elems path) = some (d, nameKey r.2) ∧
        d < sb.ninodes ∧ (files sb s).Linked d ∧ During sb s0 s' g (⟨dp, d, false⟩ :: hs)) X := by
  refine (namex_spec h.good hsound (h.oldPtr cwd _ ⟨hcwd, rfl⟩).1 (fun _ => hX _ (.inl rfl)) fun _ _ _ => hX _ (.inr rfl)).mono ?_
  intro r s' p
  rw [h.startOf hcwd, NamexPost, if_pos rfl] at p
  split at p
  · rename_i hw
    exact .inl ⟨p.1, hw, h.same p.2⟩
  · rename_i d e hw
    obtain ⟨dp, hr, he, hat⟩ := p
    exact .inr ⟨dp, d, hr, by rw [hw, he], hat.lt, hat.linked, h.add hat.next hat.ptr⟩

end

end

end Xv6.Fs
