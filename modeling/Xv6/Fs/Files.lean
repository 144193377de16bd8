import Xv6.Fs.Names

/-!
# What the users of the file system see

`Files` is the file system without blocks: the allocated inodes with their contents and how often each is referenced.
`files` reads it off a state, and every function of `fs.c` that the system calls are made of is one small change of it.
An entry of the inode table is a pointer to an inode (`Ptr`) as long as the inode is referenced.
-/

open Function (update update_self update_of_ne)

namespace Xv6.Fs

open Bytes Prog Option

@[ext] structure File where
  type : UInt16
  major : UInt16
  minor : UInt16
  nlink : UInt16
  bytes : List UInt8
deriving DecidableEq

@[ext] structure Files where
  file : Nat → Option File
  /-- How many references the inode table holds. -/
  refs : Nat → Nat

namespace Files

def addRef (a : Files) (i : Nat) : Files := { a with refs := update a.refs i (a.refs i + 1) }

def dropRef (a : Files) (i : Nat) : Files := { a with refs := update a.refs i (a.refs i - 1) }

def setFile (a : Files) (i : Nat) (f : Option File) : Files := { a with file := update a.file i f }

section
variable {a : Files} {i j : Nat} {f g : Option File}

@[simp] theorem addRef_file : (a.addRef i).file = a.file := rfl
@[simp] theorem dropRef_file : (a.dropRef i).file = a.file := rfl
@[simp] theorem setFile_refs : (a.setFile i f).refs = a.refs := rfl

@[simp] theorem addRef_refs_self : (a.addRef i).refs i = a.refs i + 1 := update_self _ _ _
@[simp] theorem dropRef_refs_self : (a.dropRef i).refs i = a.refs i - 1 := update_self _ _ _
@[simp] theorem setFile_file_self : (a.setFile i f).file i = f := update_self _ _ _

theorem addRef_refs : (a.addRef i).refs j = a.refs j + if j = i then 1 else 0 := by
  by_cases h : j = i
  · subst h; simp
  · simp [addRef, h]

theorem addRef_pos (h : 0 < a.refs j) : 0 < (a.addRef i).refs j := by
  rw [addRef_refs]
  omega

theorem dropRef_refs_ne (h : j ≠ i) : (a.dropRef i).refs j = a.refs j := by simp [dropRef, h]

theorem setFile_file_ne (h : j ≠ i) : (a.setFile i f).file j = a.file j := by simp [setFile, h]

@[simp] theorem dropRef_addRef : (a.addRef i).dropRef i = a := by simp [addRef, dropRef]

@[simp] theorem setFile_eq_self (h : a.file i = f) : a.setFile i f = a := by
  subst h
  simp [setFile]

@[simp] theorem setFile_setFile : (a.setFile i f).setFile i g = a.setFile i g := by simp [setFile]

theorem dropRef_addRef_comm (h : 0 < a.refs j) : (a.addRef i).dropRef j = (a.dropRef j).addRef i := by
  simp only [addRef, dropRef, Files.mk.injEq, true_and]
  funext k
  by_cases hki : k = i <;> by_cases hkj : k = j <;> by_cases hij : i = j
  all_goals
    grind

end

def entries (a : Files) (d : Nat) : List (Option (List UInt8 × Nat)) :=
  match a.file d with
  | some f => dirents f.bytes
  | none => []

/-- A reference to `i` can be dropped without freeing the inode. -/
def Kept (a : Files) (i : Nat) : Prop := 2 ≤ a.refs i ∨ ∀ f, a.file i = some f → f.nlink ≠ 0

end Files

/-! ## The files of a state -/

def Dinode.file (d : Dinode) (bytes : List UInt8) : File := ⟨d.type, d.major, d.minor, d.nlink, bytes⟩

def View.file (v : View) (i : Nat) : Option File :=
  if (v.ino i).type = 0 then none else some ((v.ino i).file (v.content i))

def refsOf (t : Itable) (i : Nat) : Nat :=
  match igetFind t i with
  | some k => (t k).ref
  | none => 0

def files (sb : Super) (s : FsState) : Files := ⟨(view sb s.blocks).file, refsOf s.itable⟩

/-- Entry `k` of the inode table points to inode `i`. -/
def Ptr (s : FsState) (k i : Nat) : Prop := 0 < (s.itable k).ref ∧ (s.itable k).inum = i

section
variable {t t' : Itable} {i j k : Nat}

theorem TableOk.find (h : TableOk t) (hr : 0 < (t k).ref) : igetFind t (t k).inum = some k := by
  cases hf : igetFind t (t k).inum with
  | none =>
    have := List.find?_eq_none.1 hf k (List.mem_range.2 (h.lt k hr))
    simp [hr] at this
  | some k' =>
    have hp := List.find?_some hf
    simp only [Bool.and_eq_true, decide_eq_true_eq] at hp
    rw [h.unique k' k hp.1 hr hp.2]

theorem TableOk.refsOf_eq (h : TableOk t) (hr : 0 < (t k).ref) : refsOf t (t k).inum = (t k).ref := by
  unfold refsOf
  rw [h.find hr]

theorem refsOf_pos (h : 0 < refsOf t i) : ∃ k, 0 < (t k).ref ∧ (t k).inum = i := by
  unfold refsOf at h
  split at h
  · rename_i k hf
    have hp := List.find?_some hf
    simp only [Bool.and_eq_true, decide_eq_true_eq] at hp
    exact ⟨k, hp⟩
  · cases h

theorem refsOf_eq_zero (h : ∀ k, 0 < (t k).ref → (t k).inum ≠ i) : refsOf t i = 0 := by
  by_contra h0
  obtain ⟨k, hk, e⟩ := refsOf_pos (Nat.pos_of_ne_zero h0)
  exact h k hk e

theorem refsOf_congr (h : ∀ j, (t' j).ref = (t j).ref ∧ (t' j).inum = (t j).inum) : refsOf t' = refsOf t := by
  funext i
  unfold refsOf igetFind
  simp only [h]

theorem TableOk.refsOf_change (h : TableOk t) (h' : TableOk t') (ho : ∀ j, j ≠ k → t' j = t j) :
    refsOf t' i = if 0 < (t' k).ref ∧ (t' k).inum = i then (t' k).ref
      else if 0 < (t k).ref ∧ (t k).inum = i then 0 else refsOf t i := by
  by_cases hnew : 0 < (t' k).ref ∧ (t' k).inum = i
  · rw [if_pos hnew, ← hnew.2, h'.refsOf_eq hnew.1]
  rw [if_neg hnew]
  by_cases hold : 0 < (t k).ref ∧ (t k).inum = i
  · rw [if_pos hold]
    refine refsOf_eq_zero fun j hj e => ?_
    by_cases hjk : j = k
    · subst hjk
      exact hnew ⟨hj, e⟩
    · rw [ho j hjk] at hj e
      exact hjk (h.unique j k hj hold.1 (e.trans hold.2.symm))
  · rw [if_neg hold]
    by_cases hex : ∃ j, 0 < (t j).ref ∧ (t j).inum = i
    · obtain ⟨j, hj, rfl⟩ := hex
      have hjk : j ≠ k := by
        rintro rfl
        exact hold ⟨hj, rfl⟩
      rw [h.refsOf_eq hj]
      have hj' : 0 < (t' j).ref := by rw [ho j hjk]; exact hj
      have e := h'.refsOf_eq hj'
      rwa [ho j hjk] at e
    · rw [refsOf_eq_zero fun j hj e => hex ⟨j, hj, e⟩]
      refine refsOf_eq_zero fun j hj e => ?_
      by_cases hjk : j = k
      · subst hjk
        exact hnew ⟨hj, e⟩
      · rw [ho j hjk] at hj e
        exact hex ⟨j, hj, e⟩

end

section
variable {sb : Super} {s s' : FsState} {i j k : Nat} {X : String → Prop}

theorem Good.refs_eq (h : Good sb s) (hp : Ptr s k i) : (files sb s).refs i = (s.itable k).ref := by
  rw [← hp.2]
  exact h.table.refsOf_eq hp.1

theorem Good.refs_pos (h : Good sb s) (hp : Ptr s k i) : 0 < (files sb s).refs i := by
  rw [h.refs_eq hp]
  exact hp.1

theorem Good.ptr_unique (h : Good sb s) (hp : Ptr s k i) (hp' : Ptr s j i) : k = j :=
  h.table.unique k j hp.1 hp'.1 (hp.2.trans hp'.2.symm)

theorem Live.ptr (hl : Live s k) : Ptr s k (s.itable k).inum := ⟨hl.1, rfl⟩

theorem Good.file_eq (h : Good sb s) (hl : Live s k) (hp : Ptr s k i) :
    (files sb s).file i = some ((s.itable k).d.file ((view sb s.blocks).content i)) := by
  have hino : (view sb s.blocks).ino i = (s.itable k).d := by rw [← hp.2, h.copy k hl]
  change View.file _ i = _
  unfold View.file
  rw [hino, if_neg (h.alloc k hl)]

structure Next (sb : Super) (s s' : FsState) (a' : Files) : Prop where
  good : Good sb s'
  files : files sb s' = a'
  ptr : ∀ k i, Ptr s k i → 0 < a'.refs i → Ptr s' k i
  live : ∀ k i, Ptr s k i → Live s k → 0 < a'.refs i → Live s' k

theorem Next.refl (h : Good sb s) : Next sb s s (Fs.files sb s) := ⟨h, rfl, fun _ _ hp _ => hp, fun _ _ _ hl _ => hl⟩

theorem Next.trans {s'' : FsState} {a' a'' : Files} (h : Next sb s s' a') (h' : Next sb s' s'' a'')
    (hr : ∀ i, 0 < (Fs.files sb s).refs i → 0 < a''.refs i → 0 < a'.refs i) (hg : Good sb s) : Next sb s s'' a'' where
  good := h'.good
  files := h'.files
  ptr k i hp hpos := h'.ptr k i (h.ptr k i hp (hr i (hg.refs_pos hp) hpos)) hpos
  live k i hp hl hpos :=
    h'.live k i (h.ptr k i hp (hr i (hg.refs_pos hp) hpos)) (h.live k i hp hl (hr i (hg.refs_pos hp) hpos)) hpos

/-! ## `iget`, `idup`, `ilock`, `iput` -/

theorem files_file_congr (h : s'.blocks = s.blocks) : (files sb s').file = (files sb s).file := by
  unfold files
  rw [h]

theorem IgetPost.next (h : IgetPost i s k s') (hg : Good sb s) : Next sb s s' ((files sb s).addRef i) ∧ Ptr s' k i := by
  have hptr : Ptr s' k i := ⟨h.ref_pos, h.inum_eq⟩
  have hold : ∀ j i', Ptr s j i' → Ptr s' j i' ∧ (Live s j → Live s' j) := by
    rintro j i' ⟨hj, rfl⟩
    by_cases e : j = k
    · subst e
      rcases h.entry with ⟨-, -, e⟩ | ⟨h0, -⟩
      · unfold Ptr Live
        rw [e]
        exact ⟨⟨Nat.succ_pos _, rfl⟩, fun hl => ⟨Nat.succ_pos _, hl.2⟩⟩
      · omega
    · unfold Ptr Live
      rw [h.other j e]
      exact ⟨⟨hj, rfl⟩, id⟩
  refine ⟨⟨h.good hg, ?_, fun j i' hp _ => (hold j i' hp).1, fun j i' hp hl _ => (hold j i' hp).2 hl⟩, hptr⟩
  refine Files.ext (files_file_congr h.blocks) ?_
  funext i'
  change refsOf s'.itable i' = _
  rw [Files.addRef_refs, hg.table.refsOf_change (h.good hg).table h.other]
  change _ = refsOf s.itable i' + _
  rw [h.inum_eq]
  rcases h.entry with ⟨h0, hi, e⟩ | ⟨h0, hi, e⟩
  · by_cases he : i = i'
    · subst he
      have := hg.table.refsOf_eq h0
      rw [hi] at this
      simp [e, this]
    · simp [he, Ne.symm he, hi]
  · by_cases he : i = i'
    · subst he
      have := refsOf_eq_zero hi
      simp [e, this]
    · simp [he, Ne.symm he, h0]

theorem iget_next (hg : Good sb s) (hX : igetSlot s.itable i = none → X "iget: no inodes") :
    Sat seq (iget i) s (fun k s' => Next sb s s' ((files sb s).addRef i) ∧ Ptr s' k i) X :=
  (iget_spec hg.table hX).mono fun _ _ h => h.next hg

theorem idup_next (hg : Good sb s) (hp : Ptr s k i) :
    Sat seq (idup k) s (fun k' s' => k' = k ∧ Next sb s s' ((files sb s).addRef i) ∧ Ptr s' k i) X := by
  simp only [idup, sat_bind, sat_iset, sat_pure, true_and]
  have hself : (s.setI k fun t => { t with ref := t.ref + 1 }).itable k = { s.itable k with ref := (s.itable k).ref + 1 } :=
    setI_self _
  have hpost : IgetPost i s k (s.setI k fun t => { t with ref := t.ref + 1 }) :=
    ⟨rfl, hg.table.lt k hp.1, fun j hj => setI_ne _ hj, .inl ⟨hp.1, hp.2, hself⟩⟩
  exact hpost.next hg

theorem Next.of_table {g : Nat → Option File} (hg : Good sb s')
    (ht : ∀ j, (s'.itable j).ref = (s.itable j).ref ∧ (s'.itable j).inum = (s.itable j).inum ∧
      ((s.itable j).valid = true → (s'.itable j).valid = true)) (hf : (Fs.files sb s').file = g) :
    Next sb s s' ⟨g, (Fs.files sb s).refs⟩ := by
  refine ⟨hg, Files.ext hf (refsOf_congr fun j => ⟨(ht j).1, (ht j).2.1⟩), fun j i hp _ => ?_, fun j i _ hl _ => ?_⟩
  · unfold Ptr
    rw [(ht j).1, (ht j).2.1]
    exact hp
  · exact ⟨by rw [(ht j).1]; exact hl.1, (ht j).2.2 hl.2⟩

theorem Good.fetch (hg : Good sb s) (hp : Ptr s k i) (ht : ((view sb s.blocks).ino i).type ≠ 0)
    (hb : s'.blocks = s.blocks) (hself : s'.itable k = { s.itable k with d := (view sb s.blocks).ino i, valid := true })
    (hother : ∀ j, j ≠ k → s'.itable j = s.itable j) : Next sb s s' (files sb s) ∧ Live s' k := by
  have hfix : ∀ j, (s'.itable j).ref = (s.itable j).ref ∧ (s'.itable j).inum = (s.itable j).inum ∧
      ((s.itable j).valid = true → (s'.itable j).valid = true) := by
    intro j
    by_cases e : j = k
    · subst e; rw [hself]; exact ⟨rfl, rfl, fun _ => rfl⟩
    · rw [hother j e]; exact ⟨rfl, rfl, id⟩
  have hgood : Good sb s' := by
    refine ⟨by rw [hb]; exact hg.cons, ⟨fun j hj => hg.table.lt j ((hfix j).1 ▸ hj), fun j j' hj hj' e => ?_⟩,
      fun j hj => ?_, fun j hj => ?_⟩
    · rw [(hfix j).2.1, (hfix j').2.1] at e
      exact hg.table.unique j j' ((hfix j).1 ▸ hj) ((hfix j').1 ▸ hj') e
    · by_cases e : j = k
      · subst e
        rw [hself, hb]
        exact congrArg (view sb s.blocks).ino hp.2.symm
      · rw [Live, hother j e] at hj
        rw [hother j e, hb]
        exact hg.copy j hj
    · by_cases e : j = k
      · subst e; rw [hself]; exact ht
      · rw [Live, hother j e] at hj
        rw [hother j e]
        exact hg.alloc j hj
  refine ⟨Next.of_table hgood hfix (files_file_congr hb), ?_⟩
  unfold Live
  rw [hself]
  exact ⟨hp.1, rfl⟩

theorem ilock_next (hg : Good sb s) (hp : Ptr s k i) (hlt : i < sb.ninodes)
    (hX : (files sb s).file i = none → X "ilock: no type") :
    Sat seq (ilock sb k) s (fun _ s' => Next sb s s' (files sb s) ∧ Live s' k ∧ s'.blocks = s.blocks) X := by
  simp only [ilock, sat_bind, sat_iat]
  rw [if_neg (by have := hp.1; omega)]
  by_cases hv : (s.itable k).valid = true
  · rw [if_pos hv]
    exact ⟨Next.refl hg, ⟨hp.1, hv⟩, rfl⟩
  rw [if_neg hv]
  have hino : getDinode (s.blocks (sb.iblock (s.itable k).inum)) (s.itable k).inum = (view sb s.blocks).ino i := by
    rw [view_ino_eq hlt, hp.2]
  simp only [sat_bind, sat_bread, sat_brelse, sat_iset, hino]
  by_cases ht : ((view sb s.blocks).ino i).type = 0
  · rw [if_pos ht, sat_panic]
    refine hX ?_
    change View.file _ i = none
    rw [View.file, if_pos ht]
  · rw [if_neg ht, sat_pure, ← and_assoc]
    refine ⟨hg.fetch hp ht (setI_blocks _) ?_ fun j hj => setI_ne _ hj, rfl⟩
    rw [setI_self, hino]

theorem iput_keep (hg : Good sb s) (hp : Ptr s k i) (hk : (files sb s).Kept i) :
    Sat seq (iput sb k) s (fun _ s' => Next sb s s' ((files sb s).dropRef i) ∧ s'.blocks = s.blocks) X := by
  have hnot : ¬(s.itable k).Frees := by
    rintro ⟨h1, h2, h3⟩
    rcases hk with hk | hk
    · rw [hg.refs_eq hp] at hk
      omega
    · exact hk _ (hg.file_eq ⟨hp.1, h2⟩ hp) h3
  refine (iput_spec hg hp.1).mono ?_
  intro _ s' p
  obtain ⟨hb, ht⟩ := p.kept hnot
  have hself : s'.itable k = { s.itable k with ref := (s.itable k).ref - 1 } := by rw [ht, update_self]
  have hother : ∀ j, j ≠ k → s'.itable j = s.itable j := fun j hj => by rw [ht, update_of_ne hj]
  have hrefs : (files sb s').refs = ((files sb s).dropRef i).refs := by
    funext i'
    change refsOf s'.itable i' = _
    rw [hg.table.refsOf_change p.good.table hother, hself]
    have hpos := hp.1
    have hi := hg.refs_eq hp
    by_cases e : i' = i
    · subst e
      rw [Files.dropRef_refs_self, hi]
      simp only [hp.2, and_true, hpos, if_true]
      split <;> omega
    · have hne : (s.itable k).inum ≠ i' := fun e' => e (e'.symm.trans hp.2)
      rw [Files.dropRef_refs_ne e]
      simp only [hne, and_false, if_false]
      rfl
  have hkeep : ∀ j i', Ptr s j i' → 0 < ((files sb s).dropRef i).refs i' →
      0 < (s'.itable j).ref ∧ (s'.itable j).inum = (s.itable j).inum ∧ (s'.itable j).valid = (s.itable j).valid := by
    intro j i' hj hpos
    by_cases e : j = k
    · subst e
      obtain rfl : i' = i := hj.2.symm.trans hp.2
      rw [Files.dropRef_refs_self, hg.refs_eq hp] at hpos
      rw [hself]
      exact ⟨hpos, rfl, rfl⟩
    · rw [hother j e]
      exact ⟨hj.1, rfl, rfl⟩
  refine ⟨⟨p.good, Files.ext (files_file_congr hb) hrefs, fun j i' hj hpos => ?_, fun j i' hj hl hpos => ?_⟩, hb⟩
  · obtain ⟨h1, h2, -⟩ := hkeep j i' hj hpos
    exact ⟨h1, h2.trans hj.2⟩
  · obtain ⟨h1, -, h3⟩ := hkeep j i' hj hpos
    exact ⟨h1, h3.trans hl.2⟩

theorem iput_free {f : File} (hg : Good sb s) (hp : Ptr s k i) (hl : Live s k) (h1 : (files sb s).refs i = 1)
    (hf : (files sb s).file i = some f) (hn : f.nlink = 0) :
    Sat seq (iput sb k) s (fun _ s' => Next sb s s' (((files sb s).dropRef i).setFile i none)) X := by
  have hfrees : (s.itable k).Frees := by
    rw [hg.file_eq hl hp, some.injEq] at hf
    subst hf
    exact ⟨by rw [← hg.refs_eq hp, h1], hl.2, hn⟩
  refine (iput_spec hg hp.1).mono ?_
  intro _ s' p
  obtain ⟨hino, hdata, ht⟩ := p.freed hfrees
  have hself : s'.itable k = ⟨(s.itable k).inum, 0, false, (s.itable k).d.freed⟩ := by rw [ht, update_self]
  have hother : ∀ j, j ≠ k → s'.itable j = s.itable j := fun j hj => by rw [ht, update_of_ne hj]
  have hrefs : (files sb s').refs = ((files sb s).dropRef i).refs := by
    funext i'
    change refsOf s'.itable i' = _
    rw [hg.table.refsOf_change p.good.table hother, hself]
    by_cases e : i' = i
    · subst e
      rw [Files.dropRef_refs_self, h1]
      simp [hp.1, hp.2]
    · have hne : (s.itable k).inum ≠ i' := fun e' => e (e'.symm.trans hp.2)
      rw [Files.dropRef_refs_ne e]
      simp only [hne, and_false, if_false]
      rfl
  have hfile : (files sb s').file = (((files sb s).dropRef i).setFile i none).file := by
    funext i'
    change View.file _ i' = _
    by_cases e : i' = i
    · subst e
      rw [Files.setFile_file_self, View.file, hino, hp.2, update_self]
      exact if_pos rfl
    · rw [Files.setFile_file_ne e, View.file, View.content, hino, hp.2, update_of_ne e, hdata]
      rfl
  have hne : ∀ j i', Ptr s j i' → 0 < ((files sb s).dropRef i).refs i' → j ≠ k := by
    rintro j i' hj hpos rfl
    obtain rfl : i' = i := hj.2.symm.trans hp.2
    rw [Files.dropRef_refs_self, h1] at hpos
    exact absurd hpos (Nat.lt_irrefl 0)
  refine ⟨p.good, Files.ext hfile hrefs, fun j i' hj hpos => ?_, fun j i' hj hl hpos => ?_⟩
  · rw [Ptr, hother j (hne j i' hj hpos)]
    exact hj
  · rw [Live, hother j (hne j i' hj hpos)]
    exact hl

theorem sat_iunlock {Q : Unit → FsState → Prop} (hp : Ptr s k i) : Sat seq (iunlock k) s Q X ↔ Q () s := by
  simp only [iunlock, sat_bind, sat_iat]
  rw [if_neg (by have := hp.1; omega), sat_pure]

theorem iunlockput_keep (hg : Good sb s) (hp : Ptr s k i) (hk : (files sb s).Kept i) :
    Sat seq (iunlockput sb k) s (fun _ s' => Next sb s s' ((files sb s).dropRef i) ∧ s'.blocks = s.blocks) X := by
  rw [iunlockput, sat_bind, sat_iunlock hp]
  exact iput_keep hg hp hk

/-! ## Changes of a locked inode -/

theorem View.file_congr {v v' : View} (hino : v'.ino i = v.ino i) (hc : (v.ino i).type ≠ 0 → v'.content i = v.content i) :
    v'.file i = v.file i := by
  unfold View.file
  rw [hino]
  split
  · rfl
  · rename_i h
    rw [hc h]

theorem Written.next {g : Nat → UInt8} {off n tot : Nat} {f : File} (w : Written sb k (kernelSrc g) off n s tot s')
    (hg : Good sb s) (hl : Live s k) (hp : Ptr s k i) (hf : (files sb s).file i = some f) :
    Next sb s s' ((files sb s).setFile i (some { f with bytes := (view sb s'.blocks).content i })) := by
  have hfix : ∀ j, (s'.itable j).ref = (s.itable j).ref ∧ (s'.itable j).inum = (s.itable j).inum ∧
      ((s.itable j).valid = true → (s'.itable j).valid = true) := by
    intro j
    by_cases e : j = k
    · subst e; rw [w.self]; exact ⟨rfl, rfl, id⟩
    · rw [w.other j e]; exact ⟨rfl, rfl, id⟩
  refine Next.of_table w.good hfix ?_
  funext j
  by_cases e : j = i
  · subst e
    rw [hg.file_eq hl hp, some.injEq] at hf
    subst hf
    have hp' : Ptr s' k j := by rw [Ptr, (hfix k).1, (hfix k).2.1]; exact hp
    rw [w.good.file_eq (w.live hl) hp', update_self, w.self]
    rfl
  · rw [update_of_ne e]
    refine View.file_congr ?_ fun ha => ?_
    · rw [w.ino, update_of_ne (by rw [hp.2]; exact e)]
    · exact w.content_other hg hl (by rw [hp.2]; exact e) ha

theorem update_next {g : Dinode → Dinode} {f : File} (hg : Good sb s) (hl : Live s k) (hp : Ptr s k i)
    (hfix : ∀ d, (g d).type = d.type ∧ (g d).size = d.size ∧ (g d).addrs = d.addrs)
    (hf : (files sb s).file i = some f) :
    Sat seq (do iset k fun t => { t with d := g t.d }; iupdate sb k) s
      (fun _ s' => Next sb s s' ((files sb s).setFile i (some ((g (s.itable k).d).file f.bytes)))) X := by
  obtain ⟨htype, hsize, haddr⟩ := hfix (s.itable k).d
  rw [sat_bind, sat_iset]
  set s1 := s.setI k fun t => { t with d := g t.d }
  have hself : s1.itable k = { s.itable k with d := g (s.itable k).d } := setI_self _
  have hcur : cur sb s1 k = (view sb s.blocks).setIno (s.itable k).inum (g (s.itable k).d) := by
    unfold cur
    rw [hself]
    rfl
  have hold := hg.held hl
  have hcons : Consistent sb (cur sb s1 k) := by
    rw [hcur]
    refine hg.cons.change rfl rfl rfl ?_ ?_ fun ha => ?_
    · rw [haddr, hg.copy k hl]
    · rw [htype, hg.copy k hl]
      rfl
    · have := hg.cons.filled _ ha
      rw [← hg.copy k hl] at this
      unfold Filled slotOf at *
      rw [hsize, haddr]
      exact this
  have hheld : Held sb s1 k := hold.change hcons rfl rfl (by rw [htype]; exact hg.alloc k hl)
  refine (iupdate_spec hheld).mono ?_
  rintro _ s' ⟨hgood, hv, ht⟩
  rw [hcur] at hv
  have hfix' : ∀ j, (s'.itable j).ref = (s.itable j).ref ∧ (s'.itable j).inum = (s.itable j).inum ∧
      ((s.itable j).valid = true → (s'.itable j).valid = true) := by
    intro j
    rw [ht]
    by_cases e : j = k
    · subst e; rw [hself]; exact ⟨rfl, rfl, id⟩
    · rw [setI_ne _ e]; exact ⟨rfl, rfl, id⟩
  refine Next.of_table hgood hfix' ?_
  funext j
  change (view sb s'.blocks).file j = _
  rw [hv]
  by_cases e : j = i
  · subst e
    rw [hg.file_eq hl hp, some.injEq] at hf
    subst hf
    have hino : ((view sb s.blocks).setIno (s.itable k).inum (g (s.itable k).d)).ino j = g (s.itable k).d := by
      rw [← hp.2, setIno_ino_self]
    have hcopy : (view sb s.blocks).ino j = (s.itable k).d := by rw [← hp.2, hg.copy k hl]
    rw [update_self, View.file, hino, htype, if_neg (hg.alloc k hl)]
    have hcontent : ((view sb s.blocks).setIno (s.itable k).inum (g (s.itable k).d)).content j =
        (view sb s.blocks).content j := by
      unfold View.content contentOf slotOf
      rw [hino, hcopy, hsize, haddr]
      rfl
    rw [hcontent]
    rfl
  · have hino : ((view sb s.blocks).setIno (s.itable k).inum (g (s.itable k).d)).ino j = (view sb s.blocks).ino j :=
      setIno_ino_ne _ _ (by rw [hp.2]; exact e)
    rw [update_of_ne e]
    refine View.file_congr hino fun _ => ?_
    unfold View.content
    rw [hino]
    rfl

theorem ialloc_next {type : UInt16} (hg : Good sb s) (ht : type ≠ 0) (hX : X "iget: no inodes") :
    Sat seq (ialloc sb type) s (fun r s' => r = none ∧ s' = s ∨
      ∃ k i, r = some k ∧ 0 < i ∧ i < sb.ninodes ∧ (files sb s).file i = none ∧
        Next sb s s' (((files sb s).setFile i (some ⟨type, 0, 0, 0, []⟩)).addRef i) ∧ Ptr s' k i) X := by
  refine (ialloc_spec hg hX).mono ?_
  rintro (- | k) s' p
  · exact .inl ⟨rfl, p⟩
  obtain ⟨i, blocks, h0, hlt, hfree, hv, hgood, hget⟩ := p
  obtain ⟨hnext, hptr⟩ := hget.next hgood
  have hnone : (files sb s).file i = none := by
    change View.file _ i = none
    rw [View.file, if_pos (not_not.1 hfree)]
  have hfiles : files sb { s with blocks := blocks } = (files sb s).setFile i (some ⟨type, 0, 0, 0, []⟩) := by
    refine Files.ext ?_ rfl
    funext j
    change (view sb blocks).file j = _
    rw [hv]
    by_cases e : j = i
    · subst e
      rw [Files.setFile_file_self, View.file, setIno_ino_self, if_neg ht, View.content, setIno_ino_self]
      rfl
    · rw [Files.setFile_file_ne e]
      refine View.file_congr (setIno_ino_ne _ _ e) fun _ => ?_
      unfold View.content
      rw [setIno_ino_ne _ _ e]
      rfl
  rw [hfiles] at hnext
  exact .inr ⟨k, i, rfl, h0, hlt, hnone, ⟨hnext.good, hnext.files, hnext.ptr, hnext.live⟩, hptr⟩

/-! ## Directories -/

theorem Good.dirents_eq {f : File} (hg : Good sb s) (hl : Live s k) (hp : Ptr s k i) (hf : (files sb s).file i = some f) :
    s.dirents sb k = dirents f.bytes := by
  rw [hg.file_eq hl hp, some.injEq] at hf
  subst hf
  unfold FsState.dirents
  rw [hp.2]
  rfl

theorem Good.directory {f : File} (hg : Good sb s) (hl : Live s k) (hp : Ptr s k i) (hf : (files sb s).file i = some f)
    (ht : f.type = T_DIR) (hs : f.bytes.length % DIRENT = 0) : Directory sb s k := by
  rw [hg.file_eq hl hp, some.injEq] at hf
  subst hf
  have hlen := hg.length_content hl
  rw [hp.2] at hlen
  refine ⟨hg, hl, ht, ?_⟩
  rw [← hlen]
  exact hs

/-- `dirlookup` finds what the slots give, and takes a reference to it. -/
def FoundNext (sb : Super) (s : FsState) (d : Nat) (name : List UInt8) : Option (Nat × Nat) → FsState → Prop
  | none, s' => s' = s ∧ Slots.lookup (nameKey name) ((files sb s).entries d) = none
  | some (k, off), s' => ∃ n i, off = DIRENT * n ∧ ((files sb s).entries d)[n]? = some (some (nameKey name, i)) ∧
      Slots.lookup (nameKey name) ((files sb s).entries d) = some i ∧ Next sb s s' ((files sb s).addRef i) ∧ Ptr s' k i

theorem Files.entries_eq {a : Files} {f : File} (hf : a.file i = some f) : a.entries i = dirents f.bytes := by
  rw [Files.entries, hf]

theorem dirlookup_next {f : File} {name : List UInt8} (hg : Good sb s) (hl : Live s k) (hp : Ptr s k i)
    (hf : (files sb s).file i = some f) (ht : f.type = T_DIR) (hs : f.bytes.length % DIRENT = 0)
    (hX : ∀ j, Slots.lookup (nameKey name) ((files sb s).entries i) = some j → igetSlot s.itable j = none →
      X "iget: no inodes") : Sat seq (dirlookup sb k name) s (FoundNext sb s i name) X := by
  have he := (hg.dirents_eq hl hp hf).trans (Files.entries_eq hf).symm
  refine (dirlookup_names (hg.directory hl hp hf ht hs) fun j hj hno => hX j (he ▸ hj) hno).mono ?_
  rintro (- | ⟨k', off⟩) s' p
  · exact ⟨p.1, he ▸ p.2⟩
  · obtain ⟨n, j, hoff, hn, hj, hget⟩ := p
    obtain ⟨hnext, hptr⟩ := hget.next hg
    exact ⟨n, j, hoff, he ▸ hn, he ▸ hj, hnext, hptr⟩

/-- `dirlink` changes nothing, or it adds a binding. -/
inductive LinkNext (sb : Super) (s : FsState) (d : Nat) (f : File) (name : List UInt8) (inum : Nat) : Bool → FsState → Prop
  | failed (s' : FsState) : Next sb s s' (files sb s) → LinkNext sb s d f name inum false s'
  | linked (s' : FsState) (bs : List UInt8) : Slots.lookup (nameKey name) (dirents f.bytes) = none →
      (0 < inum → inum < 65536 → dirents bs = Slots.insert (nameKey name, inum) (dirents f.bytes)) →
      bs.length % DIRENT = 0 → Next sb s s' ((files sb s).setFile d (some { f with bytes := bs })) → LinkNext sb s d f name inum true s'

theorem dirlink_next {f : File} {name : List UInt8} {inum : Nat} (hg : Good sb s) (hl : Live s k) (hp : Ptr s k i)
    (hf : (files sb s).file i = some f) (ht : f.type = T_DIR) (hs : f.bytes.length % DIRENT = 0)
    (hX : ∀ j, Slots.lookup (nameKey name) ((files sb s).entries i) = some j → igetSlot s.itable j = none →
      X "iget: no inodes") :
    Sat seq (dirlink sb k name inum) s (LinkNext sb s i f name inum) X := by
  have hdir := hg.directory hl hp hf ht hs
  have he := hg.dirents_eq hl hp hf
  have he' := he.trans (Files.entries_eq hf).symm
  refine (dirlink_names hdir fun j hj hno => hX j (he' ▸ hj) hno).mono ?_
  rintro r s' (⟨_, j, hj, hb, htab, hgood⟩ | ⟨_, n, hnone, hle, hw⟩ | ⟨_, n, hnone, hle, w, hins⟩)
  · refine .failed s' ⟨hgood, ?_, fun j i' hj _ => ?_, fun j i' hj hl _ => ?_⟩
    · refine Files.ext (files_file_congr hb) ?_
      funext i'
      change refsOf s'.itable i' = refsOf s.itable i'
      by_cases hex : ∃ j, Ptr s j i'
      · obtain ⟨j, hj, rfl⟩ := hex
        have e := (htab j).2 hj
        have := hgood.table.refsOf_eq (by rw [e]; exact hj)
        rw [e] at this
        rw [this, hg.table.refsOf_eq hj]
      · have hno : ∀ j, 0 < (s.itable j).ref → (s.itable j).inum ≠ i' := fun j hj e => hex ⟨j, hj, e⟩
        rw [refsOf_eq_zero hno]
        refine refsOf_eq_zero fun j hj e => ?_
        have hr := (htab j).1 ▸ hj
        rw [(htab j).2 hr] at e
        exact hno j hr e
    · rw [Ptr, (htab j).2 hj.1]
      exact hj
    · rw [Live, (htab j).2 hj.1]
      exact hl
  · rcases hw with rfl | w
    · exact .failed _ (Next.refl hg)
    have hnext := w.next hg hl hp hf
    have hzero := w.content_zero hg hl hle
    rw [hp.2] at hzero
    rw [hzero] at hnext
    refine .failed s' ?_
    have hsame : (files sb s).setFile i (some { f with bytes := (view sb s.blocks).content i }) = files sb s := by
      refine Files.setFile_eq_self ?_
      rw [hg.file_eq hl hp] at hf ⊢
      cases hf
      rfl
    rwa [hsame] at hnext
  · have hnext := w.next hg hl hp hf
    have hdir' := w.directory hdir (.inr rfl) hle
    refine .linked s' _ (he ▸ hnone) (fun h0 hlt => ?_) ?_ hnext
    · rw [← he, ← hins h0 hlt]
      unfold FsState.dirents
      rw [w.inum, hp.2]
    · have hlen := w.good.length_content (w.live hl)
      rw [w.inum, hp.2] at hlen
      rw [hlen]
      exact hdir'.size

theorem clearEntry_next {f : File} {n : Nat} {e : List UInt8 × Nat} (hg : Good sb s) (hl : Live s k) (hp : Ptr s k i)
    (hf : (files sb s).file i = some f) (ht : f.type = T_DIR) (hs : f.bytes.length % DIRENT = 0)
    (hn : (dirents f.bytes)[n]? = some (some e)) :
    Sat seq (clearEntry sb k (DIRENT * n)) s (fun r s' => r = some DIRENT ∧ ∃ bs, dirents bs = (dirents f.bytes).set n none ∧
      bs.length % DIRENT = 0 ∧ Next sb s s' ((files sb s).setFile i (some { f with bytes := bs }))) X := by
  have hdir := hg.directory hl hp hf ht hs
  have he := hg.dirents_eq hl hp hf
  have hle := hdir.lt_of_getElem? (he ▸ hn)
  refine (clearEntry_names hdir (he ▸ hn)).mono ?_
  rintro r s' ⟨hr, w, hset⟩
  have hnext := w.next hg hl hp hf
  have hdir' := w.directory hdir (.inr rfl) (by omega)
  refine ⟨hr, _, ?_, ?_, hnext⟩
  · rw [← he, ← hset]
    unfold FsState.dirents
    rw [w.inum, hp.2]
  · have hlen := w.good.length_content (w.live hl)
    rw [w.inum, hp.2] at hlen
    rw [hlen]
    exact hdir'.size

end

end Xv6.Fs
