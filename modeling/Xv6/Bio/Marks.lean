import Xv6.Lib.Protocol
import Xv6.Fs.Code

/-!
# What a thread may do with a buffer

Between `bread` and `brelse` a thread holds a buffer alone, so it knows its data. If it has changed the data it has to pass
the buffer to `log_write` before it lets go of it. All functions of `fs.c` keep to this, `writei` as long as a copy from the
user that fails has stored nothing.
-/

namespace Xv6.Bio

open Bytes Prog Fs
open Function (update update_self update_idem)

structure Hold where
  data : Block
  dirty : Prop

/-- The buffers a thread holds, by block number. -/
abbrev Marks := Nat → Option Hold

def bufProto : Protocol Op Marks where
  pre
    | _, .bread _, _ => True
    | _, .store b _, g => (g b).isSome
    | _, .logWrite b, g => (g b).isSome
    | _, .brelse b, g => ∃ h, g b = some h ∧ ¬h.dirty
    | _, .itable _, _ => True
    | _, .full, _ => True
  post
    | _, .bread b, g, x, g' => g b = none ∧ g' = update g b (some ⟨x, False⟩)
    | _, .store b y, g, _, g' => ∃ h, g b = some h ∧ g' = update g b (some ⟨y, h.dirty ∨ y ≠ h.data⟩)
    | _, .logWrite b, g, _, g' => ∃ h, g b = some h ∧ g' = update g b (some ⟨h.data, False⟩)
    | _, .brelse b, g, _, g' => g' = update g b none
    | _, .itable _, g, _, g' => g' = g
    | _, .full, g, _, g' => g' = g

section
variable {α : Type} {g : Marks} {b ip : Nat} {x y : Block} {h : Hold}

@[simp] theorem obeys_bread {Q : Block → Marks → Prop} :
    Obeys bufProto (bread b) g Q ↔ (g b = none → ∀ x, Q x (update g b (some ⟨x, False⟩))) := by
  unfold bread
  constructor
  · rintro ⟨-, h⟩ h0 x
    exact h x _ ⟨h0, rfl⟩
  · intro h
    refine ⟨trivial, ?_⟩
    rintro x g' ⟨h0, rfl⟩
    exact h h0 x

variable {Q : Unit → Marks → Prop} {sb : Super} {fuel off dp : Nat} {name : List UInt8}

theorem obeys_store (hg : g b = some h)
    (hQ : Q () (update g b (some ⟨y, h.dirty ∨ y ≠ h.data⟩))) : Obeys bufProto (store b y) g Q := by
  refine ⟨by simp [bufProto, hg], ?_⟩
  rintro _ g' ⟨h', e, rfl⟩
  obtain rfl : h = h' := by simpa [hg] using e
  exact hQ

theorem obeys_logWrite (hg : g b = some h) (hQ : Q () (update g b (some ⟨h.data, False⟩))) :
    Obeys bufProto (logWrite b) g Q := by
  refine ⟨by simp [bufProto, hg], ?_⟩
  rintro _ g' ⟨h', e, rfl⟩
  obtain rfl : h = h' := by simpa [hg] using e
  exact hQ

theorem obeys_brelse (hg : g b = some h) (hd : ¬h.dirty) (hQ : Q () (update g b none)) :
    Obeys bufProto (brelse b) g Q := by
  refine ⟨⟨h, hg, hd⟩, ?_⟩
  rintro _ g' rfl
  exact hQ

theorem obeys_commitBuf (hg : g b = some h) (hQ : Q () (update g b none)) :
    Obeys bufProto (commitBuf b y) g Q := by
  refine obeys_store hg (obeys_logWrite (update_self _ _ _) ?_)
  rw [update_idem]
  refine obeys_brelse (update_self _ _ _) not_false ?_
  rw [update_idem]
  exact hQ

@[simp] theorem obeys_iat {Q : Inode → Marks → Prop} : Obeys bufProto (iat ip) g Q ↔ ∀ t, Q t g := by
  constructor
  · intro h t
    exact h.2 (fun _ => t) g rfl
  · intro h
    refine ⟨trivial, ?_⟩
    rintro t g' rfl
    exact h _

@[simp] theorem obeys_iset {f : Inode → Inode} : Obeys bufProto (iset ip f) g Q ↔ Q () g := by
  constructor
  · intro h
    exact h.2 (fun _ => {}) g rfl
  · intro h
    refine ⟨trivial, ?_⟩
    rintro _ g' rfl
    exact h

/-- A program that lets go of every buffer it takes. -/
def Neutral (p : M α) : Prop := ∀ g, Obeys bufProto p g fun _ g' => g' = g

theorem neutral_pure {a : α} : Neutral (pure a : M α) := fun _ => rfl

theorem neutral_panic {m : String} : Neutral (.panic m : M α) := fun _ => trivial

theorem Neutral.bind {β : Type} {p : M α} {f : α → M β} (hp : Neutral p) (hf : ∀ a, Neutral (f a)) :
    Neutral (p >>= f) := by
  intro g
  rw [obeys_bind]
  refine (hp g).mono ?_
  rintro a g' rfl
  exact hf a g'

theorem Neutral.seq {β : Type} {p : M α} {f : α → M β} {Q : β → Marks → Prop} (hp : Neutral p)
    (hf : ∀ a, Obeys bufProto (f a) g Q) : Obeys bufProto (p >>= f) g Q := by
  rw [obeys_bind]
  refine (hp g).mono ?_
  rintro a g' rfl
  exact hf a

theorem neutral_iat : Neutral (iat ip) := fun g => by simp

theorem neutral_iset {f : Inode → Inode} : Neutral (iset ip f) := fun g => by simp

theorem neutral_itable {f : Itable → Itable} : Neutral (perform (.itable f) : M Itable) := by
  intro g
  refine ⟨trivial, ?_⟩
  rintro t g' rfl
  rfl

theorem neutral_full : Neutral (perform .full : M Bool) := by
  intro g
  refine ⟨trivial, ?_⟩
  rintro r g' rfl
  rfl

theorem neutral_bread {f : Block → M α}
    (h : ∀ g x, g b = some ⟨x, False⟩ → Obeys bufProto (f x) g fun _ g' => g' = update g b none) :
    Neutral (bread b >>= f) := by
  intro g
  rw [obeys_bind, obeys_bread]
  intro h0 x
  refine (h _ x (update_self _ _ _)).mono ?_
  rintro _ g' rfl
  rw [update_idem, Function.update_eq_self_iff]
  exact h0.symm

/-! ## The functions of `fs.c` -/

theorem neutral_bzero {bno : Nat} : Neutral (bzero bno) :=
  neutral_bread fun _ _ hg => obeys_commitBuf hg rfl

theorem neutral_ballocFrom {bs : List Nat} : Neutral (ballocFrom sb bs) := by
  induction bs with
  | nil => exact neutral_pure
  | cons b bs ih =>
    refine neutral_bread fun g x hg => ?_
    cases freeBit sb b x with
    | some bi =>
      refine obeys_commitBuf hg ?_
      exact (neutral_bzero.bind fun _ => neutral_pure) _
    | none =>
      exact obeys_brelse hg not_false (ih _)

theorem neutral_balloc : Neutral (balloc sb) := by
  refine neutral_full.bind fun r => ?_
  cases r with
  | true => exact neutral_pure
  | false => exact neutral_ballocFrom

theorem neutral_bfree : Neutral (bfree sb b) := by
  refine neutral_bread fun g x hg => ?_
  split
  · trivial
  · exact obeys_commitBuf hg rfl

theorem neutral_iget {inum : Nat} : Neutral (iget inum) := by
  refine neutral_itable.bind fun t => ?_
  cases igetSlot t inum with
  | some k => exact neutral_pure
  | none => exact neutral_panic

theorem neutral_idup : Neutral (idup ip) := neutral_iset.bind fun _ => neutral_pure

theorem neutral_iallocFrom {type : UInt16} {is : List Nat} : Neutral (iallocFrom sb type is) := by
  induction is with
  | nil => exact neutral_pure
  | cons i is ih =>
    refine neutral_bread fun g x hg => ?_
    split
    · exact obeys_commitBuf hg ((neutral_iget.bind fun _ => neutral_pure) _)
    · exact obeys_brelse hg not_false (ih _)

theorem neutral_ialloc {type : UInt16} : Neutral (ialloc sb type) := neutral_iallocFrom

theorem neutral_iupdate : Neutral (iupdate sb ip) :=
  neutral_iat.bind fun _ => neutral_bread fun _ _ hg => obeys_commitBuf hg rfl

theorem neutral_ilock : Neutral (ilock sb ip) := by
  refine neutral_iat.bind fun t => ?_
  split
  · exact neutral_panic
  split
  · exact neutral_pure
  refine neutral_bread fun g x hg => ?_
  rw [obeys_bind]
  refine obeys_brelse hg not_false (neutral_iset.seq fun _ => ?_)
  split
  · trivial
  · rfl

theorem neutral_iunlock : Neutral (iunlock ip) := by
  refine neutral_iat.bind fun t => ?_
  split
  · exact neutral_panic
  · exact neutral_pure

theorem neutral_mapAddr {k : Fin (NDIRECT + 1)} : Neutral (mapAddr sb ip k) := by
  refine neutral_iat.bind fun t => ?_
  dsimp only
  split
  · refine neutral_balloc.bind fun a => ?_
    split
    · exact neutral_pure
    · exact neutral_iset.bind fun _ => neutral_pure
  · exact neutral_pure

theorem neutral_mapEntry {a j : Nat} : Neutral (mapEntry sb a j) := by
  refine neutral_bread fun g x hg => ?_
  dsimp only
  split
  · -- `balloc` runs while the indirect block is held
    refine neutral_balloc.seq fun addr => ?_
    split
    · refine obeys_store hg (obeys_logWrite (update_self _ _ _) ?_)
      refine obeys_brelse (update_self _ _ _) not_false ?_
      simp only [update_idem]
    · exact obeys_brelse hg not_false rfl
  · exact obeys_brelse hg not_false rfl

theorem neutral_bmap {bn : Nat} : Neutral (bmap sb ip bn) := by
  unfold bmap
  split
  · exact neutral_mapAddr
  split
  · refine neutral_mapAddr.bind fun a => ?_
    split
    · exact neutral_pure
    · exact neutral_mapEntry
  · exact neutral_panic

theorem neutral_truncDirect {ks : List (Fin (NDIRECT + 1))} : Neutral (truncDirect sb ip ks) := by
  induction ks with
  | nil => exact neutral_pure
  | cons k ks ih =>
    refine neutral_iat.bind fun t => ?_
    dsimp only
    split
    · exact neutral_bfree.bind fun _ => neutral_iset.bind fun _ => ih
    · exact ih

theorem neutral_truncEntries {x : Block} {js : List Nat} : Neutral (truncEntries sb x js) := by
  induction js with
  | nil => exact neutral_pure
  | cons j js ih =>
    unfold truncEntries
    split
    · exact neutral_bfree.bind fun _ => ih
    · exact ih

theorem neutral_truncIndirect : Neutral (truncIndirect sb ip) := by
  refine neutral_iat.bind fun t => ?_
  dsimp only
  split
  · refine neutral_bread fun g x hg => neutral_truncEntries.seq fun _ => ?_
    exact obeys_brelse hg not_false ((neutral_bfree.bind fun _ => neutral_iset) _)
  · exact neutral_pure

theorem neutral_itrunc : Neutral (itrunc sb ip) :=
  neutral_truncDirect.bind fun _ => neutral_truncIndirect.bind fun _ => neutral_iset.bind fun _ => neutral_iupdate

theorem neutral_iput : Neutral (iput sb ip) := by
  refine neutral_iat.bind fun t => ?_
  split
  · exact neutral_itrunc.bind fun _ => neutral_iset.bind fun _ => neutral_iupdate.bind fun _ => neutral_iset.bind fun _ =>
      neutral_iset
  · exact neutral_iset

theorem neutral_readLoop {co : Nat → List UInt8 → Bool} {n tot : Nat} {acc : List UInt8} :
    Neutral (readLoop sb ip co n fuel tot off acc) := by
  induction fuel generalizing tot off acc with
  | zero => exact neutral_pure
  | succ fuel ih =>
    unfold readLoop
    split
    · refine neutral_bmap.bind fun addr => ?_
      split
      · exact neutral_pure
      · refine neutral_bread fun g x hg => ?_
        refine obeys_brelse hg not_false ?_
        split
        · exact ih _
        · rfl
    · exact neutral_pure

theorem neutral_readi {co : Nat → List UInt8 → Bool} {off n : UInt32} : Neutral (readi sb ip co off n) := by
  refine neutral_iat.bind fun t => ?_
  dsimp only
  split
  · exact neutral_pure
  · exact neutral_readLoop

theorem neutral_writeLoop {cp : Src} {n tot : Nat} (hw : Whole cp off n)
    (ht : tot < n → tot = 0 ∨ (off + tot) % BSIZE = 0) : Neutral (writeLoop sb ip cp n fuel tot (off + tot)) := by
  induction fuel generalizing tot with
  | zero => exact neutral_pure
  | succ fuel ih =>
    unfold writeLoop
    split
    · rename_i hlt
      refine neutral_bmap.bind fun addr => ?_
      split
      · exact neutral_pure
      refine neutral_bread fun g x hg => ?_
      have hchunk := hw tot hlt (ht hlt)
      generalize hm : min (n - tot) (BSIZE - (off + tot) % BSIZE) = m at hchunk
      refine obeys_store hg ?_
      split
      · refine obeys_logWrite (update_self _ _ _) ?_
        refine obeys_brelse (update_self _ _ _) not_false ?_
        simp only [update_idem]
        rw [Nat.add_assoc]
        -- a chunk that is not the last ends with its block
        exact ih (fun _ => .inr (by unfold BSIZE at *; omega)) _
      · rename_i hfail
        -- nothing has been stored
        obtain hnil : (cp.copy tot m).1 = [] := hchunk.resolve_left hfail
        refine obeys_brelse (update_self _ _ _) ?_ (by simp only [update_idem])
        simp [hnil, put_nil]
    · exact neutral_pure

theorem neutral_writei {cp : Src} {off n : UInt32} (hw : Whole cp off.toNat n.toNat) :
    Neutral (writei sb ip cp off n) := by
  refine neutral_iat.bind fun t => ?_
  dsimp only
  split
  · exact neutral_pure
  split
  · exact neutral_pure
  · have hloop : Neutral (writeLoop sb ip cp n.toNat n.toNat 0 off.toNat) := neutral_writeLoop hw fun _ => .inl rfl
    refine hloop.bind fun r => ?_
    split
    · exact neutral_iset.bind fun _ => neutral_iupdate.bind fun _ => neutral_pure
    · exact neutral_iupdate.bind fun _ => neutral_pure

theorem neutral_readDirent {msg : String} : Neutral (readDirent sb dp off msg) := by
  refine neutral_readi.bind fun r => ?_
  split
  split
  · exact neutral_panic
  · exact neutral_pure

theorem neutral_dirlookupFrom :
    Neutral (dirlookupFrom sb dp name fuel off) := by
  induction fuel generalizing off with
  | zero => exact neutral_pure
  | succ fuel ih =>
    refine neutral_iat.bind fun t => ?_
    split
    · refine neutral_readDirent.bind fun bs => ?_
      split
      · exact neutral_iget.bind fun _ => neutral_pure
      · exact ih
    · exact neutral_pure

theorem neutral_dirlookup : Neutral (dirlookup sb dp name) := by
  refine neutral_iat.bind fun t => ?_
  split
  · exact neutral_panic
  · exact neutral_dirlookupFrom

theorem neutral_emptyFrom : Neutral (emptyFrom sb dp fuel off) := by
  induction fuel generalizing off with
  | zero => exact neutral_pure
  | succ fuel ih =>
    refine neutral_iat.bind fun t => ?_
    split
    · refine neutral_readDirent.bind fun bs => ?_
      split
      · exact neutral_pure
      · exact ih
    · exact neutral_pure

theorem neutral_dirlink {inum : Nat} : Neutral (dirlink sb dp name inum) := by
  refine neutral_dirlookup.bind fun r => ?_
  split
  · exact neutral_iput.bind fun _ => neutral_pure
  · refine neutral_iat.bind fun t => neutral_emptyFrom.bind fun off => ?_
    exact (neutral_writei (whole_kernelSrc _ _ _)).bind fun _ => neutral_pure

end

end Xv6.Bio
