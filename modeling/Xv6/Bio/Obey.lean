import Xv6.Bio.Machine

/-!
# The rules the threads keep to

A thread that commits keeps an account of the transaction as well: the blocks in the in-memory header, those it has written
to their home locations since it began, and those whose buffers are still pinned. It clears the header when all blocks have
been written home and no buffer is pinned.
-/

namespace Xv6.Bio

open Prog Fs
open LogLayer (Log encodeHead decodeHead)
open Function (update update_self update_of_ne update_idem)
open List

structure Com where
  lh : List Nat
  inst : List Nat
  pin : List Nat

structure Acct where
  marks : Marks
  com : Option Com

def kProto : Protocol Kop Acct where
  pre
    | _, .inl e, a => bufProto.pre _ e a.marks
    | _, .inr (.bwrite b), a => (a.marks b).isSome
    | _, .inr (.bunpin b), a => (a.marks b).isSome ∧ ∃ c, a.com = some c ∧ b ∈ c.pin
    | _, .inr .beginOp, a => a.com = none
    | _, .inr .endOp, a => a.com = none
    | _, .inr (.loadHead _), a => ∃ c, a.com = some c ∧ c.lh = [] ∧ c.pin = []
    | _, .inr .clearHead, a => ∃ c, a.com = some c ∧ c.pin = [] ∧ ∀ b ∈ c.lh, b ∈ c.inst
    | _, .inr .finish, a => ∃ c, a.com = some c ∧ c.lh = [] ∧ c.pin = []
  post
    | _, .inl e, a, x, a' => ∃ g, bufProto.post _ e a.marks x g ∧ a' = ⟨g, a.com⟩
    | _, .inr (.bwrite b), a, _, a' => ∃ h, a.marks b = some h ∧
        a' = ⟨update a.marks b (some ⟨h.data, False⟩), a.com.map fun c => { c with inst := b :: c.inst }⟩
    | _, .inr (.bunpin b), a, _, a' => ∃ c, a.com = some c ∧ a' = ⟨a.marks, some { c with pin := c.pin.erase b }⟩
    | _, .inr .beginOp, a, _, a' => a' = a
    | _, .inr .endOp, a, r, a' => a' = ⟨a.marks, r.map fun lh => ⟨lh, [], lh⟩⟩
    | _, .inr (.loadHead lh), a, _, a' => a' = ⟨a.marks, some ⟨lh, [], []⟩⟩
    | _, .inr .clearHead, a, _, a' => ∃ c, a.com = some c ∧ a' = ⟨a.marks, some { c with lh := [] }⟩
    | _, .inr .finish, a, _, a' => a' = ⟨a.marks, none⟩

section
variable {a : Acct} {g : Marks} {c : Option Com} {b start : Nat} {x : Block} {h : Hold}

/-! ## Rules -/

theorem obeys_kbread {Q : Block → Acct → Prop}
    (hQ : a.marks b = none → ∀ x, Q x ⟨update a.marks b (some ⟨x, False⟩), a.com⟩) :
    Obeys kProto (kbread b) a Q := by
  refine ⟨trivial, ?_⟩
  rintro x a' ⟨g, ⟨h0, rfl⟩, rfl⟩
  exact hQ h0 x

variable {Q : Unit → Acct → Prop} {lh pin inst : List Nat} {sb : Super}

section
variable (hg : a.marks b = some h)
include hg

theorem obeys_kstore
    (hQ : Q () ⟨update a.marks b (some ⟨x, h.dirty ∨ x ≠ h.data⟩), a.com⟩) : Obeys kProto (kstore b x) a Q := by
  refine ⟨by simp [kProto, bufProto, hg], ?_⟩
  rintro _ a' ⟨g, ⟨h', e, rfl⟩, rfl⟩
  obtain rfl : h = h' := by simpa [hg] using e
  exact hQ

theorem obeys_kbrelse (hd : ¬h.dirty)
    (hQ : Q () ⟨update a.marks b none, a.com⟩) : Obeys kProto (kbrelse b) a Q := by
  refine ⟨⟨h, hg, hd⟩, ?_⟩
  rintro _ a' ⟨g, rfl, rfl⟩
  exact hQ

theorem obeys_bwrite
    (hQ : Q () ⟨update a.marks b (some ⟨h.data, False⟩), a.com.map fun c => { c with inst := b :: c.inst }⟩) :
    Obeys kProto (bwrite b) a Q := by
  refine ⟨by simp [kProto, hg], ?_⟩
  rintro _ a' ⟨h', e, rfl⟩
  obtain rfl : h = h' := by simpa [hg] using e
  exact hQ

theorem obeys_bunpin {c : Com} (hc : a.com = some c) (hb : b ∈ c.pin)
    (hQ : Q () ⟨a.marks, some { c with pin := c.pin.erase b }⟩) : Obeys kProto (bunpin b) a Q := by
  refine ⟨⟨by simp [hg], c, hc, hb⟩, ?_⟩
  rintro _ a' ⟨c', e, rfl⟩
  obtain rfl : c = c' := by simpa [hc] using e
  exact hQ

end

theorem obeys_clearHead {c : Com} (hc : a.com = some c) (hp : c.pin = [])
    (hi : ∀ b ∈ c.lh, b ∈ c.inst) (hQ : Q () ⟨a.marks, some { c with lh := [] }⟩) : Obeys kProto clearHead a Q := by
  refine ⟨⟨c, hc, hp, hi⟩, ?_⟩
  rintro _ a' ⟨c', e, rfl⟩
  obtain rfl : c = c' := by simpa [hc] using e
  exact hQ

theorem obeys_finish {c : Com} (hc : a.com = some c) (hl : c.lh = []) (hp : c.pin = [])
    (hQ : Q () ⟨a.marks, none⟩) : Obeys kProto finish a Q := by
  refine ⟨⟨c, hc, hl, hp⟩, ?_⟩
  rintro _ a' rfl
  exact hQ

/-! ## The commit -/

/-- The account of a committing thread with more blocks written home. -/
def Acct.More (g : Marks) (lh pin inst : List Nat) (a : Acct) : Prop :=
  a.marks = g ∧ ∃ i, a.com = some ⟨lh, i, pin⟩ ∧ ∀ b ∈ inst, b ∈ i

theorem Acct.More.mono {inst' : List Nat} (h : a.More g lh pin inst') (hi : ∀ b ∈ inst, b ∈ inst') :
    a.More g lh pin inst := by
  obtain ⟨h1, i, h2, h3⟩ := h
  exact ⟨h1, i, h2, fun b hb => h3 b (hi b hb)⟩

theorem more_bind {p : K Unit} {f : Unit → K Unit}
    (hp : Obeys kProto p a fun _ a' => a'.More g lh pin inst)
    (hf : ∀ i, (∀ b ∈ inst, b ∈ i) → Obeys kProto (f ()) ⟨g, some ⟨lh, i, pin⟩⟩ Q) : Obeys kProto (p >>= f) a Q := by
  rw [obeys_bind]
  refine hp.mono ?_
  rintro _ ⟨m, c⟩ ⟨hm, i, hc, hi⟩
  obtain rfl : g = m := hm.symm
  obtain rfl : some _ = c := hc.symm
  exact hf i hi

theorem release_two {l : Nat} {u w : Option Hold} (hl : g l = none) (hb : g b = none) (hne : b ≠ l) :
    update (update (update (update g l u) b w) l none) b none = g := by
  funext k
  by_cases e1 : k = b
  · subst e1; simp [hb]
  · by_cases e2 : k = l
    · subst e2; simp [hl, e1]
    · simp [e1, e2]

theorem writeLogFrom_obeys {bs : List Nat} {tail : Nat} :
    Obeys kProto (writeLogFrom start tail bs) ⟨g, some ⟨lh, inst, pin⟩⟩ fun _ a' => a'.More g lh pin inst := by
  induction bs generalizing tail inst with
  | nil => exact ⟨rfl, inst, rfl, fun _ hb => hb⟩
  | cons b bs ih =>
    simp only [writeLogFrom, obeys_bind]
    generalize start + tail + 1 = l
    refine obeys_kbread fun hl y => obeys_kbread fun hfrom x => ?_
    dsimp only at hl hfrom ⊢
    have hne : b ≠ l := by
      rintro rfl
      simp at hfrom
    have hb : g b = none := by rwa [update_of_ne hne] at hfrom
    -- the log block is changed while both are held
    rw [Function.update_comm hne.symm]
    refine obeys_kstore (update_self _ _ _) ?_
    refine obeys_bwrite (update_self _ _ _) ?_
    simp only [update_idem]
    refine obeys_kbrelse (h := ⟨x, False⟩) (by simp [hne]) not_false ?_
    refine obeys_kbrelse (h := ⟨x, False⟩) (by simp [hne.symm]) not_false ?_
    rw [release_two hb hl hne.symm]
    exact ih.mono fun _ a' h => h.mono fun c hc => mem_cons_of_mem _ hc

theorem writeHead_obeys {lh' : List Nat} :
    Obeys kProto (writeHead start lh') ⟨g, some ⟨lh, inst, pin⟩⟩ fun _ a' => a'.More g lh pin inst := by
  refine obeys_kbread fun h0 x => obeys_kstore (update_self _ _ _) ?_
  refine obeys_bwrite (update_self _ _ _) (obeys_kbrelse (update_self _ _ _) not_false ?_)
  refine ⟨?_, _, rfl, fun c hc => mem_cons_of_mem _ hc⟩
  simp only [update_idem]
  exact Function.update_eq_self_iff.2 h0.symm

theorem installFrom_obeys (recovering : Bool) {bs : List Nat} {tail : Nat} :
    Obeys kProto (installFrom start recovering tail bs) ⟨g, some ⟨lh, inst, if recovering then [] else bs⟩⟩
      fun _ a' => a'.More g lh [] (bs ++ inst) := by
  induction bs generalizing tail inst with
  | nil => exact ⟨rfl, inst, by simp, fun _ hb => hb⟩
  | cons b bs ih =>
    simp only [installFrom, obeys_bind]
    generalize start + tail + 1 = l
    refine obeys_kbread fun hl x => obeys_kbread fun hto y => ?_
    dsimp only at hl hto ⊢
    have hne : b ≠ l := by
      rintro rfl
      simp at hto
    have hb : g b = none := by rwa [update_of_ne hne] at hto
    refine obeys_kstore (update_self _ _ _) ?_
    refine obeys_bwrite (update_self _ _ _) ?_
    simp only [update_idem, Option.map_some]
    -- the rest of the pass, with the pin dropped or not
    have hrest : ∀ pin, (if recovering then [] else bs) = pin →
        Obeys kProto (kbrelse l) ⟨update (update g l (some ⟨x, False⟩)) b (some ⟨x, False⟩),
          some ⟨lh, b :: inst, pin⟩⟩ fun _ g' => Obeys kProto (kbrelse b) g' fun _ g' =>
            Obeys kProto (installFrom start recovering (tail + 1) bs) g' fun _ a' => a'.More g lh [] (b :: bs ++ inst) := by
      rintro pin rfl
      refine obeys_kbrelse (h := ⟨x, False⟩) (by simp [hne.symm]) not_false ?_
      refine obeys_kbrelse (h := ⟨x, False⟩) (by simp [hne]) not_false ?_
      rw [release_two hl hb hne]
      refine ih.mono fun _ a' h => h.mono fun c hc => ?_
      simp only [cons_append, mem_cons, mem_append] at hc ⊢
      tauto
    cases recovering with
    | true => exact hrest _ rfl
    | false =>
      refine obeys_bunpin (update_self _ _ _) rfl mem_cons_self ?_
      exact hrest _ (by simp)

theorem clearHead_obeys (hi : ∀ b ∈ lh, b ∈ inst) :
    Obeys kProto (do clearHead; writeHead start []) ⟨g, some ⟨lh, inst, []⟩⟩ fun _ a' => a'.More g [] [] [] := by
  refine obeys_clearHead rfl rfl hi ?_
  exact writeHead_obeys.mono fun _ a' h => h.mono fun c hc => absurd hc (by simp)

theorem commit_obeys :
    Obeys kProto (commit start lh) ⟨g, some ⟨lh, [], lh⟩⟩ fun _ a' => a'.More g [] [] [] := by
  unfold commit
  split
  · refine more_bind writeLogFrom_obeys fun i1 _ => more_bind writeHead_obeys fun i2 _ => ?_
    refine more_bind (installFrom_obeys false) fun i3 h3 => ?_
    exact clearHead_obeys fun b hb => h3 b (mem_append_left _ hb)
  · rename_i h
    obtain rfl : lh = [] := by simpa using h
    exact ⟨rfl, [], rfl, fun c hc => hc⟩

/-- A program that ends with the account it began with, when it does not commit. -/
def KNeutral {α : Type} (p : K α) : Prop := ∀ g, Obeys kProto p ⟨g, none⟩ fun _ a' => a' = ⟨g, none⟩

theorem finish_obeys (h : a.More g [] [] []) : Obeys kProto finish a fun _ a' => a' = ⟨g, none⟩ := by
  obtain ⟨rfl, i, hc, -⟩ := h
  exact obeys_finish hc rfl rfl rfl

theorem kneutral_endOp : KNeutral (endOp start) := by
  intro g
  simp only [endOp, obeys_bind]
  refine ⟨rfl, ?_⟩
  rintro (- | lh) a' rfl
  · rfl
  · exact obeys_bind.2 (commit_obeys.mono fun _ a' h => finish_obeys h)

theorem recoverFromLog_obeys :
    Obeys kProto (recoverFromLog start) ⟨g, some ⟨[], [], []⟩⟩ fun _ a' => a' = ⟨g, none⟩ := by
  unfold recoverFromLog
  rw [obeys_bind]
  refine obeys_kbread fun h0 x => ?_
  refine ⟨⟨_, rfl, rfl, rfl⟩, ?_⟩
  rintro _ a' rfl
  change Obeys kProto (kbrelse start >>= fun _ => _) _ _
  rw [obeys_bind]
  refine obeys_kbrelse (update_self _ _ _) not_false ?_
  simp only [update_idem]
  rw [Function.update_eq_self_iff.2 h0.symm]
  refine more_bind (installFrom_obeys true) fun i hi => ?_
  have hclear : Obeys kProto (do clearHead; writeHead start []) ⟨g, some ⟨decodeHead x, i, []⟩⟩ _ :=
    clearHead_obeys fun b hb => hi b (mem_append_left _ hb)
  rw [obeys_bind] at hclear ⊢
  refine hclear.mono fun _ a' h => ?_
  exact h.mono fun _ a'' h' => finish_obeys h'

/-! ## The calls of a thread -/

theorem Neutral.lift {α : Type} {p : M α} (h : Neutral p) : KNeutral (p.lift fun _ e => (.inl e : Kop _)) := by
  intro g
  refine (Prog.Obeys.lift (i := fun g => (⟨g, none⟩ : Acct)) (fun _ _ _ h => h) ?_ (h g)).mono ?_
  · rintro β e g b d ⟨g', hg', rfl⟩
    exact ⟨g', rfl, hg'⟩
  · rintro x a' ⟨g', rfl, rfl⟩
    rfl

def Call.Untorn : Call → Prop
  | .writei _ (.user u src) off n => ∀ tot < n.toNat, tot = 0 ∨ (off.toNat + tot) % BSIZE = 0 →
      Fs.Untorn u ((src + tot) % 2 ^ 64) (min (n.toNat - tot) (BSIZE - (off.toNat + tot) % BSIZE))
  | _ => True

theorem whole_of_untorn {ip : Nat} {src : Source} {off n : UInt32} (h : (Call.writei ip src off n).Untorn) :
    Whole src.src off.toNat n.toNat := by
  cases src with
  | kernel f => exact whole_kernelSrc f _ _
  | user u src =>
    intro tot hlt hstart
    have hmod : (off.toNat + tot) % BSIZE < BSIZE := Nat.mod_lt _ (by decide)
    refine wholeAt_userSrc (h tot hlt hstart) (by omega) ?_
    have : BSIZE ≤ PGSIZE := by decide
    omega

theorem neutral_call {c : Call} (h : c.Untorn) : Neutral (c.prog sb) := by
  cases c with
  | iget inum => exact neutral_iget.bind fun _ => neutral_pure
  | idup ip => exact neutral_idup.bind fun _ => neutral_pure
  | ialloc type => exact neutral_ialloc.bind fun _ => neutral_pure
  | iupdate ip => exact neutral_iupdate
  | ilock ip => exact neutral_ilock
  | iunlock ip => exact neutral_iunlock
  | iput ip => exact neutral_iput
  | itrunc ip => exact neutral_itrunc
  | readi ip co off n => exact neutral_readi.bind fun _ => neutral_pure
  | writei ip src off n => exact (neutral_writei (whole_of_untorn h)).bind fun _ => neutral_pure
  | dirlookup dp name => exact neutral_dirlookup.bind fun _ => neutral_pure
  | dirlink dp name inum => exact neutral_dirlink.bind fun _ => neutral_pure
  | change ip f =>
    unfold Call.prog
    exact neutral_iset

theorem neutral_callsProg {cs : List Call} (h : ∀ c ∈ cs, c.Untorn) : Neutral (callsProg sb cs) := by
  induction cs with
  | nil => exact neutral_pure
  | cons c cs ih =>
    exact (neutral_call (h c mem_cons_self)).bind fun _ => ih fun c' hc => h c' (mem_cons_of_mem _ hc)

theorem kneutral_task {k : Task} (h : ∀ c ∈ k.calls, c.Untorn) : KNeutral (k.prog sb) := by
  intro g
  have hcalls := (neutral_callsProg h : Neutral (callsProg sb k.calls)).lift g
  unfold Task.prog
  split
  · simp only [obeys_bind]
    refine ⟨rfl, ?_⟩
    rintro _ a' rfl
    refine hcalls.mono ?_
    rintro _ a' rfl
    exact kneutral_endOp g
  · exact hcalls

end

end Xv6.Bio
