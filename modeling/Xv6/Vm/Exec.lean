import Xv6.Vm.Copy
import Xv6.Vm.Process

/-!
# `exec`

`exec` builds a new address space from a file, with whatever the file says and however far it gets, and then frees either that space or
the old one. The new space has the segments of the file at their addresses, a page that the user cannot access, and the stack with the
arguments.
-/

namespace Xv6.Vm

open Prog List Option AMap Nat
open Function (update update_self update_of_ne)

section
variable {m m' : Mem} {root : Word} {K : Nat} {top : AMap} {X : String → Prop}

/-! ## Writing to user pages -/

/-- What the copies into a space keep. -/
structure Written (root : Word) (K : Nat) (top : AMap) (m m' : Mem) : Prop where
  space : Space m'.page root K top
  moves : Moves (own m.page root K) (own m'.page root K) m m'
  view : view m'.page root = view m.page root

theorem Written.refl (S : Space m.page root K top) (H : Heap (own m.page root K) m) : Written root K top m m := ⟨S, .refl H, rfl⟩

theorem Written.trans {m'' : Mem} (h : Written root K top m m') (h' : Written root K top m' m'') : Written root K top m m'' :=
  ⟨h'.space, h.moves.trans h'.moves, h'.view.trans h.view⟩

theorem Space.loc_ne {page : Word → Nat → Word} {a b : Nat} (S : Space page root K top) (ha : a / 4096 < K) (hb : b / 4096 < K) (hne : a ≠ b) :
    loc page root a ≠ loc page root b := by
  obtain ⟨e, he, -⟩ := S.user _ ha
  obtain ⟨e', he', -⟩ := S.user _ hb
  rw [loc_of_view he, loc_of_view he']
  intro h
  obtain ⟨hp, ho⟩ := Prod.ext_iff.1 (some.inj h)
  have hx := S.target_inj ha hb he he' hp
  dsimp only at ho
  omega

theorem Writable.readable {page : Word → Nat → Word} {x : Nat} (h : Writable page root x) : Readable page root x := by
  obtain ⟨e, he, -⟩ := h
  rw [Readable, he]
  rfl

section
variable {a : Nat} {bytes : List Byte} (h : Stored root a bytes m m') (S : Space m.page root K top) (hG : Guarded top)
  (hr : ∀ i < bytes.length, Readable m.page root ((a + i) / 4096))
include h S hG hr

theorem Stored.written (H : Heap (own m.page root K) m) : Written root K top m m' := by
  have htarget : ∀ i < bytes.length, ∀ e, Vm.view m.page root ((a + i) / 4096) = some e → e.1 ∈ targets (Vm.view m.page root) 0 K :=
    fun i hi e he => by
      obtain ⟨e', hx⟩ := isSome_iff_exists.1 (hr i hi)
      obtain ⟨hK, -⟩ := S.user_lt hG hx
      exact mem_targets.2 ⟨_, e, zero_le _, by omega, he, rfl⟩
  have hframe : ∀ p, p ∉ targets (Vm.view m.page root) 0 K → m'.page p = m.page p := fun p hp =>
    h.frame fun i hi e he => ne_of_mem_of_not_mem (htarget i hi e he) hp
  obtain ⟨S', hv, -, ho⟩ := S.congr fun p hp => hframe p fun ht => S.apart p ht hp
  refine ⟨S', ?_, hv⟩
  rw [ho]
  refine ⟨?_, fun p hp _ => hframe p fun ht => hp (.inr ht), h.kend⟩
  rw [h.free]
  exact .refl H.nodup H.fresh

theorem Stored.same {b : Nat} (hb : b / 4096 < K) (hout : b < a ∨ a + bytes.length ≤ b) : userByte m'.page root b = userByte m.page root b := by
  rw [userByte, userByte, loc_congr h.view]
  cases hl : loc m.page root b with
  | none => rfl
  | some l =>
    rw [map_some, map_some]
    refine congrArg some (h.miss l.1 l.2 fun i hi hloc => ?_)
    obtain ⟨e, hx⟩ := isSome_iff_exists.1 (hr i hi)
    exact S.loc_ne (S.user_lt hG hx).1 hb (by omega) (hloc.trans hl.symm)

end

theorem copyout_own {dstva : Word} {src : List Byte} (hG : Guarded top) (S : Space m.page root K top) (H : Heap (own m.page root K) m) :
    Sat machine (copyout root dstva src) m
      (fun r m' => Written root K top m m' ∧
        (¬r < 0 → Stored root dstva.toNat src m m' ∧ ∀ i < src.length, Writable m.page root ((dstva.toNat + i) / 4096))) X := by
  refine (copyout_spec (S.apart_user hG H)).mono ?_
  rintro r m' ⟨k, hk, hst, hp, hres⟩
  refine ⟨hst.written S hG (fun i hi => (hp i ?_).readable) H, fun hr => ?_⟩
  · rw [length_take] at hi
    omega
  · rcases hres with ⟨-, rfl⟩ | ⟨rfl, -⟩
    · rw [take_length] at hst
      exact ⟨hst, hp⟩
    · exact absurd (by decide) hr

variable {page : Word → Nat → Word} {va : Word} {file : List Byte}

theorem Holds.congr {page' : Word → Nat → Word} {a : Nat} {bytes : List Byte} (h : Holds page root a bytes)
    (hsame : ∀ i < bytes.length, userByte page' root (a + i) = userByte page root (a + i)) : Holds page' root a bytes := fun i hi =>
  (hsame i hi).trans (h i hi)

/-! ## The arguments -/

structure Pushed (root : Word) (K : Nat) (argv : List (List Byte)) (sp sp' : Nat) (ptrs : List Word) (m m' : Mem) : Prop where
  length : ptrs.length = argv.length
  le : sp' ≤ sp
  arg : ∀ (i : Nat) (s : List Byte), argv[i]? = some s → ∃ q : Word, ptrs[i]? = some q ∧ sp' ≤ q.toNat ∧ q.toNat + s.length + 1 ≤ sp ∧ Holds m'.page root q.toNat (s ++ [0])
  same : ∀ b, b / 4096 < K → b < sp' ∨ sp ≤ b → userByte m'.page root b = userByte m.page root b

theorem Pushed.cons {argv : List (List Byte)} {s : List Byte} {sp sp1 sp' : Nat} {q : Word} {ptrs : List Word} {m1 : Mem}
    (h : Pushed root K argv sp1 sp' ptrs m1 m') (hq : q.toNat = sp1) (hsp : sp1 + s.length + 1 ≤ sp) (hK : sp ≤ K * 4096)
    (hst : Stored root q.toNat (s ++ [0]) m m1)
    (hsame : ∀ b, b / 4096 < K → b < sp1 ∨ sp ≤ b → userByte m1.page root b = userByte m.page root b) :
    Pushed root K (s :: argv) sp sp' (q :: ptrs) m m' := by
  have hle := h.le
  refine ⟨by rw [length_cons, length_cons, h.length], by omega, fun i t ht => ?_, fun b hb hout => ?_⟩
  · cases i with
    | zero =>
      obtain rfl : s = t := by simpa using ht
      refine ⟨q, rfl, by omega, by omega, hst.holds.congr fun i hi => ?_⟩
      rw [length_append, length_singleton] at hi
      exact h.same _ (by omega) (by omega)
    | succ i =>
      obtain ⟨q', hq', h1, h₂, hh⟩ := h.arg i t ht
      exact ⟨q', hq', h1, by omega, hh⟩
  · rw [h.same b hb (by omega), hsame b hb (by omega)]

theorem pushArgs_own {stackbase : Word} (hG : Guarded top) (hbase : 4096 ≤ stackbase.toNat) (argv : List (List Byte)) {argc : Nat} {sp : Word}
    {ustack : List Word} (S : Space m.page root K top) (H : Heap (own m.page root K) m) (hsp : stackbase.toNat ≤ sp.toNat)
    (hal : sp.toNat % 16 = 0) :
    Sat machine (pushArgs root stackbase argv argc sp ustack) m
      (fun r m' => Written root K top m m' ∧ ∀ sp' us, r = some (sp', us) → stackbase.toNat ≤ sp'.toNat ∧ sp'.toNat % 16 = 0 ∧
        (∀ b < stackbase.toNat, b / 4096 < K → userByte m'.page root b = userByte m.page root b) ∧
        ((∀ s ∈ argv, s.length < 4096) → sp.toNat ≤ K * 4096 →
          ∃ ptrs, us = ustack ++ ptrs ∧ Pushed root K argv sp.toNat sp'.toNat ptrs m m')) X := by
  induction argv generalizing m argc sp ustack with
  | nil =>
    refine ⟨.refl S H, fun sp' us h => ?_⟩
    cases h
    refine ⟨hsp, hal, fun _ _ _ => rfl, fun _ _ => ⟨[], (append_nil _).symm, rfl, le_refl _, fun i s hs => ?_, fun _ _ _ => rfl⟩⟩
    simp at hs
  | cons arg argv ih =>
    rw [pushArgs]
    split
    · exact ⟨.refl S H, fun _ _ h => by cases h⟩
    dsimp only
    generalize hx : sp - BitVec.ofNat 64 (arg.length + 1) = x
    have hmod : (x - x % 16).toNat = x.toNat - x.toNat % 16 := by
      have hmod16 : (x % 16).toNat = x.toNat % 16 := BitVec.toNat_umod
      rw [BitVec.toNat_sub, hmod16]
      have := x.isLt
      omega
    generalize hq : x - x % 16 = q at hmod ⊢
    split
    · exact ⟨.refl S H, fun _ _ h => by cases h⟩
    rename_i hlow
    have hlow' : stackbase.toNat ≤ q.toNat := Nat.le_of_not_lt hlow
    rw [sat_bind]
    refine (copyout_own hG S H).mono fun r m1 ⟨hw, hst⟩ => ?_
    split
    · exact ⟨hw, fun _ _ h => by cases h⟩
    rename_i hr
    obtain ⟨hst, hpages⟩ := hst hr
    refine (ih hw.space (hw.moves.heap H) hlow' (by omega)).mono ?_
    rintro r' m' ⟨hw', hres⟩
    refine ⟨hw.trans hw', fun sp' us hr' => ?_⟩
    obtain ⟨h1, h₂, hbelow, hpush⟩ := hres sp' us hr'
    have hsame : ∀ b, b / 4096 < K → b < q.toNat ∨ q.toNat + (arg.length + 1) ≤ b → userByte m1.page root b = userByte m.page root b :=
      fun b hb hout => hst.same S hG (fun i hi => (hpages i hi).readable) hb (by
        rwa [length_append, length_singleton])
    refine ⟨h1, h₂, fun b hb hbK => (hbelow b hb hbK).trans (hsame b hbK (.inl (by omega))), fun hlen hK => ?_⟩
    -- The argument fits below the stack pointer.
    have hsub : x.toNat + (arg.length + 1) = sp.toNat := by
      have hl := hlen arg mem_cons_self
      have hn : (BitVec.ofNat 64 (arg.length + 1)).toNat = arg.length + 1 := by
        rw [BitVec.toNat_ofNat]
        omega
      rw [← hx, BitVec.toNat_sub, hn]
      have := sp.isLt
      omega
    obtain ⟨ptrs, rfl, hp⟩ := hpush (fun s hs => hlen s (mem_cons_of_mem _ hs)) (by omega)
    exact ⟨q :: ptrs, by rw [append_assoc, singleton_append],
      hp.cons rfl (by omega) hK hst fun b hb hout => hsame b hb (by omega)⟩

/-! ## Loading a segment -/

/-- The pages are for the user. -/
def UserPages (page : Word → Nat → Word) (root : Word) (K : Nat) : Prop := ∀ x < K, ∃ e, view page root x = some e ∧ e.2 &&& PTE_U ≠ 0

theorem PGROUNDDOWN_of_aligned (h : va.toNat % 4096 = 0) : PGROUNDDOWN va = va := by
  apply BitVec.eq_of_toNat_eq
  rw [toNat_PGROUNDDOWN]
  omega

theorem walkaddr_own (hG : Guarded top) (S : Space m.page root K top) (H : Heap (own m.page root K) m)
    (hU : UserPages m.page root K) (hva : va.toNat < K * 4096) (hal : va.toNat % 4096 = 0) {Q : Word → Mem → Prop}
    (hQ : ∀ e, userPage m.page root (va.toNat / 4096) = some e → e.1 ≠ 0 → Q e.1 m) :
    Sat machine (walkaddr root va) m Q X := by
  have hK := S.size_le H
  obtain ⟨e, he, huser⟩ := hU (va.toNat / 4096) (by omega)
  have hx : userPage m.page root (va.toNat / 4096) = some e := userPage_eq_some.2 ⟨by omega, he, huser⟩
  have hwalk : Sat machine (walkaddr root (PGROUNDDOWN va)) m Q X ↔ _ := sat_walkaddr
  rw [PGROUNDDOWN_of_aligned hal, hx, map_some, getD_some] at hwalk
  exact hwalk.2 (hQ e hx ((S.apart_user hG H).nonzero _ e hx))

theorem stored_page {a : Nat} {e : Word × Word} (bytes : List Byte) (hG : Guarded top) (S : Space m.page root K top)
    (H : Heap (own m.page root K) m) (he : userPage m.page root (a / 4096) = some e) (hal : a % 4096 = 0) (hlen : bytes.length ≤ 4096) :
    Stored root a bytes m (m.set e.1 (poke (m.page e.1) 0 bytes)) ∧ Written root K top m (m.set e.1 (poke (m.page e.1) 0 bytes)) := by
  have hst := (S.apart_user hG H).stored bytes he (by omega)
  rw [hal] at hst
  refine ⟨hst, hst.written S hG (fun i hi => ?_) H⟩
  rw [show (a + i) / 4096 = a / 4096 by omega, Readable, he]
  rfl

theorem length_readi (file : List Byte) (off n : BitVec 32) : (readi file off n).length ≤ n.toNat := by
  unfold readi
  split
  · exact zero_le _
  · rw [length_take]
    omega

/-- The bytes of a file from `off` on. -/
def fileBytes (file : List Byte) (off n : Nat) : List Byte := (file.drop off).take n

theorem readi_full {off n : BitVec 32} (hn : 0 < n.toNat) (h : (readi file off n).length = n.toNat) :
    readi file off n = fileBytes file off.toNat n.toNat ∧ off.toNat + n.toNat ≤ file.length := by
  unfold readi at h ⊢
  split
  case isTrue hbad =>
    rw [if_pos hbad] at h
    simp at h
    omega
  case isFalse hok =>
    rw [if_neg hok, length_take, length_drop] at h
    exact ⟨rfl, by omega⟩

theorem fileBytes_add (file : List Byte) (off j k : Nat) : fileBytes file off (j + k) = fileBytes file off j ++ fileBytes file (off + j) k := by
  rw [fileBytes, fileBytes, fileBytes, take_add, drop_drop]

/-- `loadseg` stored the `n` bytes of the file from `off` on. -/
structure Segment (root : Word) (a : Nat) (file : List Byte) (off n : Nat) (m m' : Mem) : Prop where
  length : (fileBytes file off n).length = n
  stored : Stored root a (fileBytes file off n) m m'

theorem Segment.append {a off j k : Nat} {m1 : Mem} (S : Space m.page root K top) (h : Segment root a file off j m m1)
    (h' : Segment root (a + j) file (off + j) k m1 m') (hK : a + j + k ≤ K * 4096) : Segment root a file off (j + k) m m' := by
  constructor
  · rw [fileBytes_add, length_append, h.length, h'.length]
  · rw [fileBytes_add]
    refine h.stored.append (h.length.symm ▸ h'.stored) fun i hi i' hi' => ?_
    rw [h.length] at hi ⊢
    rw [h'.length] at hi'
    exact S.loc_ne (by omega) (by omega) (by omega)

theorem loadFrom_own {offset sz : BitVec 32} (hG : Guarded top) (hal : va.toNat % 4096 = 0) (fuel : Nat)
    {i : BitVec 32} (S : Space m.page root K top) (H : Heap (own m.page root K) m) (hU : UserPages m.page root K)
    (hsz : va.toNat + sz.toNat ≤ K * 4096) (hi : i.toNat % 4096 = 0) (hfuel : sz.toNat ≤ i.toNat + fuel * 4096) :
    Sat machine (loadFrom root va file offset sz fuel i) m
      (fun r m' => Written root K top m m' ∧ (¬r < 0 → file.length < 2 ^ 32 →
        Segment root (va.toNat + i.toNat) file (offset + i).toNat (sz.toNat - i.toNat) m m')) X := by
  have hK := S.size_le H
  induction fuel generalizing m i with
  | zero =>
    have h : ¬i < sz := by
      rw [BitVec.lt_def]
      omega
    rw [loadFrom, if_neg h]
    have hz : sz.toNat - i.toNat = 0 := by omega
    refine ⟨.refl S H, fun _ _ => ?_⟩
    rw [hz]
    exact ⟨rfl, .nil m⟩
  | succ fuel ih =>
    rw [loadFrom]
    by_cases h : i < sz
    · have hlt : i.toNat < sz.toNat := h
      have hva : (va + i.zeroExtend 64).toNat = va.toNat + i.toNat := by
        rw [BitVec.toNat_add, BitVec.zeroExtend_eq_setWidth, BitVec.toNat_setWidth]
        omega
      rw [if_pos h, sat_bind]
      refine walkaddr_own hG S H hU (by omega) (by omega) fun e he hne => ?_
      rw [hva] at he
      rw [if_neg hne]
      dsimp only
      rw [sat_bind, sat_write]
      generalize hn : (if sz - i < 4096 then sz - i else 4096 : BitVec 32) = n
      have hn' : n.toNat = min (sz.toNat - i.toNat) 4096 := by
        have hsub : (sz - i).toNat = sz.toNat - i.toNat := BitVec.toNat_sub_of_le (BitVec.le_of_lt h)
        rw [← hn]
        split
        case isTrue hc =>
          have hc' : (sz - i).toNat < 4096 := hc
          omega
        case isFalse hc =>
          have hc' : ¬(sz - i).toNat < 4096 := hc
          have h4096 : (4096 : BitVec 32).toNat = 4096 := rfl
          omega
      have hread := length_readi file (offset + i) n
      obtain ⟨hst, hw⟩ := stored_page (readi file (offset + i) n) hG S H he (by omega) (by omega)
      generalize m.set e.1 (poke (m.page e.1) 0 (readi file (offset + i) n)) = m1 at hst hw ⊢
      split
      · exact ⟨hw, fun hr => absurd (by decide) hr⟩
      rename_i hfull
      have hfull : (readi file (offset + i) n).length = n.toNat := by simpa using hfull
      obtain ⟨hbytes, hend⟩ := readi_full (by omega) hfull
      have hnext : (i + 4096).toNat = i.toNat + 4096 := by
        rw [BitVec.toNat_add]
        change (i.toNat + 4096) % 2 ^ 32 = _
        omega
      refine (ih hw.space (hw.moves.heap H) (fun x hx => hw.view ▸ hU x hx) (by omega) (by omega)).mono ?_
      rintro r m' ⟨hw', hseg⟩
      refine ⟨hw.trans hw', fun hr hfile => ?_⟩
      have hseg' := hseg hr hfile
      have hseg1 : Segment root (va.toNat + i.toNat) file (offset + i).toNat n.toNat m m1 := by
        refine ⟨?_, hbytes ▸ hst⟩
        rw [← hbytes, hfull]
      by_cases hlast : sz.toNat - i.toNat ≤ 4096
      · -- The last chunk.
        have hz : sz.toNat - (i + 4096).toNat = 0 := by omega
        have hnn : sz.toNat - i.toNat = n.toNat + 0 := by omega
        rw [hz] at hseg'
        rw [hnn]
        exact hseg1.append S ⟨rfl, hseg'.stored.nil_at _⟩ (by omega)
      · have hoff : (offset + (i + 4096)).toNat = (offset + i).toNat + n.toNat := by
          rw [← BitVec.add_assoc, BitVec.toNat_add]
          change ((offset + i).toNat + 4096) % 2 ^ 32 = _
          omega
        have hva' : va.toNat + (i + 4096).toNat = va.toNat + i.toNat + n.toNat := by omega
        have hsplit : sz.toNat - i.toNat = n.toNat + (sz.toNat - (i + 4096).toNat) := by omega
        rw [hoff, hva'] at hseg'
        rw [hsplit]
        exact hseg1.append S hseg' (by omega)
    · rw [if_neg h]
      have hz : sz.toNat - i.toNat = 0 := by
        have : ¬i.toNat < sz.toNat := h
        omega
      refine ⟨.refl S H, fun _ _ => ?_⟩
      rw [hz]
      exact ⟨rfl, .nil m⟩

theorem loadseg_own {offset sz : BitVec 32} (hG : Guarded top) (hal : va.toNat % 4096 = 0)
    (S : Space m.page root K top) (H : Heap (own m.page root K) m) (hU : UserPages m.page root K) (hsz : va.toNat + sz.toNat ≤ K * 4096) :
    Sat machine (loadseg root va file offset sz) m
      (fun r m' => Written root K top m m' ∧ (¬r < 0 → file.length < 2 ^ 32 → Segment root va.toNat file offset.toNat sz.toNat m m')) X := by
  refine (loadFrom_own hG hal _ S H hU hsz (by decide) ?_).mono ?_
  · change sz.toNat ≤ 0 + (sz.toNat / 4096 + 1) * 4096
    omega
  · rintro r m' ⟨hw, hseg⟩
    refine ⟨hw, fun hr hfile => ?_⟩
    have h := hseg hr hfile
    have h0 : offset + 0 = offset := BitVec.add_zero offset
    rwa [h0] at h

/-! ## The program headers -/

theorem userFlags_user (xperm : Word) : userFlags xperm &&& PTE_U ≠ 0 := by
  intro h
  have hbit := congrArg (·.getLsbD 4) h
  simp [userFlags, PTE_R, PTE_U, PTE_V] at hbit

theorem flags2perm_lt (flags : BitVec 32) : (flags2perm flags).toNat < 1024 := by
  unfold flags2perm
  split <;> split <;> decide

/-- The segment has a byte of the file at `a`. -/
def Proghdr.Covers (ph : Proghdr) (a : Nat) : Prop := ph.type = 1 ∧ ph.vaddr.toNat ≤ a ∧ a < ph.vaddr.toNat + ph.filesz.toNat

def Laid (page : Word → Nat → Word) (root : Word) (f : Proghdr → Nat → Option Byte) (phs : List Proghdr) : Prop :=
  ∀ pre ph post, phs = pre ++ ph :: post → ph.type = 1 → ∀ k < ph.filesz.toNat, (∀ q ∈ post, ¬q.Covers (ph.vaddr.toNat + k)) →
    ∃ c, f ph k = some c ∧ userByte page root (ph.vaddr.toNat + k) = some c

/-- The headers that the loop of `exec` reads. -/
def headers (file : List Byte) : Nat → BitVec 32 → List Proghdr
  | 0, _ => []
  | n + 1, off => Proghdr.parse (readi file off 56) :: headers file n (off + 56)

/-- Byte `k` of a segment as `loadseg` finds it. -/
def loadedByte (file : List Byte) (ph : Proghdr) (k : Nat) : Option Byte := file[(ph.off.setWidth 32 : BitVec 32).toNat + k]?

/-- The space has the size `sz` and is the user's, the top apart. -/
structure Loaded (root : Word) (top : AMap) (F : Set Word) (m : Mem) (sz : Word) (m' : Mem) : Prop where
  space : Space m'.page root (pg sz) top
  user : UserPages m'.page root (pg sz)
  moves : Moves F (own m'.page root (pg sz)) m m'

theorem Loaded.after_uvmalloc {F : Set Word} {m0 : Mem} {oldsz newsz xperm r : Word} (L : Loaded root top F m0 oldsz m)
    (h : newsz < oldsz ∧ r = oldsz ∧ m' = m ∨ oldsz ≤ newsz ∧ ∃ K', Alloced root top (pg oldsz) (pg oldsz) newsz xperm m r m' K') :
    if r = 0 then Loaded root top F m0 oldsz m' else Loaded root top F m0 r m' ∧ newsz ≤ r ∧ pg oldsz ≤ pg r ∧ Keeps root (pg oldsz) m m' := by
  rcases h with ⟨hlt, rfl, rfl⟩ | ⟨hle, K', A⟩
  · rw [if_neg]
    · exact ⟨L, BitVec.le_of_lt hlt, le_refl _, .refl _ _ _⟩
    · rintro rfl
      exact absurd hlt (by simp)
  · have hmv := L.moves.trans A.moves
    have huser : ∀ x, (∀ y, pg oldsz ≤ y → y < K' → ∃ pa, view m'.page root y = some (pa, userFlags xperm)) → Keeps root (pg oldsz) m m' →
        x < K' → ∃ e, view m'.page root x = some e ∧ e.2 &&& PTE_U ≠ 0 := fun x hnew hkeep hx => by
      rcases lt_or_ge x (pg oldsz) with h | h
      · rw [(hkeep x h).1]
        exact L.user x h
      · obtain ⟨pa, hpa⟩ := hnew x h hx
        exact ⟨_, hpa, userFlags_user xperm⟩
    rcases A.res with ⟨rfl, rfl⟩ | ⟨rfl, rfl, hkeep, hnew⟩
    · rw [if_pos rfl]
      exact ⟨A.space, fun x hx => huser x (fun y h1 h₂ => by omega) A.keeps hx, hmv⟩
    have hL : Loaded root top F m0 r m' := ⟨A.space, fun x hx => huser x hnew hkeep hx, hmv⟩
    split
    case isTrue hr =>
      -- Both sizes are 0.
      have hz : oldsz = r := by
        rw [hr] at hle ⊢
        exact BitVec.le_zero_iff.1 hle
      rwa [hz]
    case isFalse => exact ⟨hL, BitVec.le_refl r, pg_mono hle, hkeep⟩


structure AllLoaded (root : Word) (file : List Byte) (phnum : Nat) (off : BitVec 32) (K K' : Nat) (m m' : Mem) : Prop where
  mono : K ≤ K'
  /-- The headers are in the file. -/
  read : ∀ i < phnum, off.toNat + 56 * i + 56 ≤ file.length
  fits : ∀ ph ∈ headers file phnum off, ph.type = 1 → ph.vaddr.toNat + ph.filesz.toNat ≤ K' * 4096
  laid : Laid m'.page root (loadedByte file) (headers file phnum off)
  keeps : ∀ a, a / 4096 < K → (∀ ph ∈ headers file phnum off, ¬ph.Covers a) → userByte m'.page root a = userByte m.page root a

theorem AllLoaded.nil {off : BitVec 32} (K : Nat) (m : Mem) : AllLoaded root file 0 off K K m m where
  mono := le_refl K
  read i hi := absurd hi (not_lt_zero i)
  fits ph h := by cases h
  laid pre ph post h := by simp [headers] at h
  keeps _ _ _ := rfl

theorem Keeps.userByte {a : Nat} (h : Keeps root K m m') (ha : a / 4096 < K) : userByte m'.page root a = userByte m.page root a := by
  obtain ⟨hv, hp⟩ := h _ ha
  unfold Vm.userByte loc
  rw [hv]
  cases hva : view m.page root (a / 4096) with
  | none => rfl
  | some e =>
    simp only [map_some]
    rw [hp e hva]

theorem AllLoaded.skip {phnum K' : Nat} {off : BitVec 32} (h : AllLoaded root file phnum (off + 56) K K' m m')
    (hread : off.toNat + 56 ≤ file.length) (hoff : (off + 56).toNat = off.toNat + 56) (htype : (Proghdr.parse (readi file off 56)).type ≠ 1) :
    AllLoaded root file (phnum + 1) off K K' m m' where
  mono := h.mono
  fits ph hph htype' := by
    rcases mem_cons.1 hph with rfl | hph
    · exact absurd htype' htype
    · exact h.fits ph hph htype'
  read i hi := by
    cases i with
    | zero => exact hread
    | succ i =>
      have := h.read i (by omega)
      omega
  laid pre ph post heq htype' k hk hpost := by
    cases pre with
    | nil =>
      obtain ⟨rfl, -⟩ := cons.inj heq
      exact absurd htype' htype
    | cons p pre => exact h.laid pre ph post (cons.inj heq).2 htype' k hk hpost
  keeps a ha hcov := h.keeps a ha fun ph hph => hcov ph (mem_cons_of_mem _ hph)

theorem AllLoaded.cons {phnum J K' : Nat} {off : BitVec 32} {ph : Proghdr} {m1 m2 : Mem}
    (h : AllLoaded root file phnum (off + 56) K K' m2 m') (hread : off.toNat + 56 ≤ file.length) (hoff : (off + 56).toNat = off.toNat + 56)
    (hph : Proghdr.parse (readi file off 56) = ph)
    (hseg : Segment root ph.vaddr.toNat file (ph.off.setWidth 32 : BitVec 32).toNat ph.filesz.toNat m1 m2)
    (hfits : ph.vaddr.toNat + ph.filesz.toNat ≤ K * 4096) (hkeep : Keeps root J m m1) (hJ : J ≤ K)
    (hsame : ∀ a, a / 4096 < K → ¬ph.Covers a → userByte m2.page root a = userByte m1.page root a) :
    AllLoaded root file (phnum + 1) off J K' m m' where
  mono := hJ.trans h.mono
  fits q hq htype := by
    rcases mem_cons.1 hq with rfl | hq
    · rw [hph]
      exact hfits.trans (mul_le_mul_right _ h.mono)
    · exact h.fits q hq htype
  read i hi := by
    cases i with
    | zero => exact hread
    | succ i =>
      have := h.read i (by omega)
      omega
  laid pre q post heq htype' k hk hpost := by
    cases pre with
    | nil =>
      obtain ⟨rfl, rfl⟩ := cons.inj heq
      rw [hph] at hk hpost ⊢
      have hk' : k < (fileBytes file (ph.off.setWidth 32 : BitVec 32).toNat ph.filesz.toNat).length := hseg.length.symm ▸ hk
      refine ⟨(fileBytes file (ph.off.setWidth 32 : BitVec 32).toNat ph.filesz.toNat)[k], ?_, ?_⟩
      · rw [loadedByte, ← getElem?_drop, ← getElem?_take_of_lt hk]
        exact getElem?_eq_getElem hk'
      · rw [h.keeps _ (by omega) hpost, hseg.stored.holds k hk', getElem?_eq_getElem hk']
    | cons p pre => exact h.laid pre q post (cons.inj heq).2 htype' k hk hpost
  keeps a ha hcov := by
    rw [h.keeps a (by omega) fun q hq => hcov q (mem_cons_of_mem _ hq), hsame a (by omega), hkeep.userByte ha]
    exact hph ▸ hcov _ mem_cons_self

theorem loadAll_own {F : Set Word} {m0 : Mem} (hG : Guarded top) (htop : ∀ x < topPage, top x = none) (H0 : Heap F m0)
    (phnum : Nat) {off : BitVec 32} {sz : Word} (L : Loaded root top F m0 sz m) :
    Sat machine (loadAll root file phnum off sz) m
      (fun r m' => Loaded root top F m0 r.2 m' ∧ (r.1 = true → file.length < 2 ^ 32 → AllLoaded root file phnum off (pg sz) (pg r.2) m m')) X := by
  induction phnum generalizing m off sz with
  | zero => exact ⟨L, fun _ _ => .nil _ m⟩
  | succ phnum ih =>
    have hbad : ∀ {sz' m'}, Loaded root top F m0 sz' m' →
        Loaded root top F m0 sz' m' ∧ (false = true → file.length < 2 ^ 32 → AllLoaded root file (phnum + 1) off (pg sz) (pg sz') m m') :=
      fun L => ⟨L, fun h => by cases h⟩
    rw [loadAll]
    generalize hph : Proghdr.parse (readi file off 56) = ph
    split
    · exact hbad L
    rename_i hlen
    have hlen : (readi file off 56).length = (56 : BitVec 32).toNat := by simpa using hlen
    obtain ⟨-, hread⟩ := readi_full (by decide) hlen
    have h56 : (56 : BitVec 32).toNat = 56 := rfl
    have hoff : file.length < 2 ^ 32 → (off + 56).toNat = off.toNat + 56 := fun hfile => by
      rw [BitVec.toNat_add]
      omega
    split
    · rename_i htype
      refine (ih L).mono ?_
      rintro r m' ⟨L', hall⟩
      exact ⟨L', fun hr hfile => (hall hr hfile).skip (by omega) (hoff hfile) (hph ▸ htype)⟩
    split
    · exact hbad L
    split
    · exact hbad L
    split
    · exact hbad L
    rename_i htype hmem hwrap halign
    have H := L.moves.heap H0
    rw [sat_bind]
    refine (uvmalloc_own L.space H htop (flags2perm_lt ph.flags)).mono fun sz1 m1 h => ?_
    have h1 := L.after_uvmalloc h
    split
    case isTrue hz =>
      rw [if_pos hz] at h1
      exact hbad h1
    case isFalse hz =>
      rw [if_neg hz] at h1
      obtain ⟨L1, hle, hpg, hkeep⟩ := h1
      have H1 := L1.moves.heap H0
      have hK := L1.space.size_le H1
      have hfits : ph.vaddr.toNat + ph.filesz.toNat ≤ pg sz1 * 4096 := by
        have h1 : (ph.vaddr + ph.memsz).toNat ≤ sz1.toNat := hle
        have h₂ : ¬ph.memsz.toNat < ph.filesz.toNat := hmem
        have h3 : ¬(ph.vaddr + ph.memsz).toNat < ph.vaddr.toNat := hwrap
        rw [BitVec.toNat_add] at h1 h3
        have := ph.vaddr.isLt
        have := ph.memsz.isLt
        unfold pg
        omega
      have hal : ph.vaddr.toNat % 4096 = 0 := by
        have hmod : (ph.vaddr % PGSIZE).toNat = ph.vaddr.toNat % 4096 := BitVec.toNat_umod
        have hzero : ph.vaddr % PGSIZE = 0 := by simpa using halign
        rw [← hmod, hzero]
        rfl
      have hsz : (ph.filesz.setWidth 32 : BitVec 32).toNat = ph.filesz.toNat := by
        rw [BitVec.toNat_setWidth]
        omega
      rw [sat_bind]
      refine (loadseg_own hG hal L1.space H1 L1.user (hsz.symm ▸ hfits)).mono ?_
      rintro r m2 ⟨hw, hseg⟩
      have L2 : Loaded root top F m0 sz1 m2 := ⟨hw.space, fun x hx => hw.view ▸ L1.user x hx, L1.moves.trans hw.moves⟩
      split
      · exact hbad L2
      rename_i hr
      refine (ih L2).mono ?_
      rintro r' m' ⟨L', hall⟩
      refine ⟨L', fun hr' hfile => ?_⟩
      have hseg := hseg hr hfile
      rw [hsz] at hseg
      refine (hall hr' hfile).cons (by omega) (hoff hfile) hph hseg hfits hkeep hpg fun a ha hcov => ?_
      refine hseg.stored.same L1.space hG (fun i hi => ?_) ha ?_
      · rw [hseg.length] at hi
        obtain ⟨e, he, hu⟩ := L1.user ((ph.vaddr.toNat + i) / 4096) (by omega)
        rw [Readable, userPage_eq_some.2 ⟨by omega, he, hu⟩]
        rfl
      · rw [hseg.length]
        have htype : ph.type = 1 := by simpa using htype
        by_contra hin
        exact hcov ⟨htype, by omega, by omega⟩

/-! ## The guard page -/

theorem AMap.targets_clear (a : AMap) (n j k : Nat) : (a.clear n).targets j k = a.targets j k := by
  refine filterMap_congr fun x _ => ?_
  unfold clear
  split
  · cases a x <;> rfl
  · rfl

theorem userFlags_clear (xperm : Word) : userFlags xperm &&& ~~~PTE_U ≠ PTE_V := by
  intro h
  have hbit := congrArg (·.getLsbD 1) h
  simp [userFlags, PTE_R, PTE_U, PTE_V] at hbit


theorem Space.clear {pa xperm : Word} {n : Nat} (S : Space m.page root K top) (H : Heap (own m.page root K) m) (hn : n < K)
    (hva : va.toNat = n * 4096) (hview : view m.page root n = some (pa, userFlags xperm)) :
    Sat machine (uvmclear root va) m
      (fun _ m' => Space m'.page root K top ∧ Moves (own m.page root K) (own m'.page root K) m m' ∧ Keeps root n m m' ∧
        userPage m'.page root n = none) X := by
  have hK := S.size_le H
  have hpg : va.toNat / 4096 = n := by omega
  have h : Sat machine (uvmclear root va) m _ _ := uvmclear_spec (S.table H) (lt_MAXVA hva (by omega))
  rw [hpg] at h
  refine sat_of_run (fun u m' hr => ?_) fun e hr => ?_
  · obtain ⟨T, hpages, hv, hfree, hkend, hframe⟩ := h.ok hr
    have hother : ∀ x, x ≠ n → view m'.page root x = view m.page root x := fun x hx => by rw [hv, AMap.clear, if_neg hx]
    have htar : targets (view m'.page root) 0 K = targets (view m.page root) 0 K := by rw [hv, targets_clear]
    have hown : own m'.page root K = own m.page root K := by rw [own, hpages, htar, own]
    refine ⟨⟨T.distinct, T.plain, fun x hx => ?_, fun x hx => ?_, htar.symm ▸ S.nodup, ?_⟩, ?_, fun x hx => ⟨hother x (by omega), fun e he => ?_⟩, ?_⟩
    · by_cases hxn : x = n
      · refine ⟨(pa, userFlags xperm &&& ~~~PTE_U), ?_, userFlags_clear xperm⟩
        rw [hxn, hv, AMap.clear, if_pos rfl, hview, map_some]
      · rw [hother x hxn]
        exact S.user x hx
    · rw [hother x (by omega), S.rest x hx]
    · rw [htar, hpages]
      exact S.apart
    · rw [hown]
      exact ⟨hfree.symm ▸ .refl H.nodup H.fresh, fun p hp _ => hframe p fun h => hp (.inl h), hkend⟩
    · exact hframe e.1 (S.apart _ (mem_targets.2 ⟨x, e, zero_le x, by omega, he, rfl⟩))
    · rw [userPage, hv, AMap.clear, if_pos rfl, hview, map_some, filter_some_neg, ite_self]
      simp [BitVec.and_assoc]
  · have hnone := h.error hr
    rw [hview] at hnone
    cases hnone

/-! ## The image -/

structure Stack (page : Word → Nat → Word) (root : Word) (sz sp : Nat) (argv : List (List Byte)) : Prop where
  size : sz % 4096 = 0 ∧ 8192 ≤ sz
  guard : userPage page root (sz / 4096 - 2) = none
  writable : Writable page root (sz / 4096 - 1)
  aligned : sp % 16 = 0
  inside : sz - 4096 ≤ sp ∧ sp + 8 * (argv.length + 1) ≤ sz
  /-- `argv[i]` is at `sp + 8 * i` and points to a copy of the string. -/
  arg : ∀ (i : Nat) (s : List Byte), argv[i]? = some s → ∃ q : Word, Holds page root (sp + 8 * i) (wordBytes q) ∧ sz - 4096 ≤ q.toNat ∧
    q.toNat + s.length + 1 ≤ sz ∧ Holds page root q.toNat (s ++ [0])
  last : Holds page root (sp + 8 * argv.length) (wordBytes 0)

theorem length_wordBytes (w : Word) : (wordBytes w).length = 8 := rfl

theorem Holds.word {a i : Nat} {ws : List Word} {w : Word} (h : Holds page root a (ws.flatMap wordBytes))
    (hw : ws[i]? = some w) : Holds page root (a + 8 * i) (wordBytes w) := by
  induction ws generalizing a i with
  | nil => simp at hw
  | cons v ws ih =>
    rw [flatMap_cons] at h
    have hlen : (wordBytes v ++ ws.flatMap wordBytes).length = 8 + (ws.flatMap wordBytes).length := by
      rw [length_append, length_wordBytes]
    cases i with
    | zero =>
      obtain rfl : v = w := by simpa using hw
      intro j hj
      rw [Nat.mul_zero, Nat.add_zero, h j (by rw [hlen]; rw [length_wordBytes] at hj; omega), getElem?_append_left hj]
    | succ i =>
      have hrest : Holds page root (a + 8) (ws.flatMap wordBytes) := fun j hj => by
        rw [add_assoc, h (8 + j) (by rw [hlen]; omega), getElem?_append_right (by rw [length_wordBytes]; omega), length_wordBytes,
          Nat.add_sub_cancel_left]
      have := ih hrest hw
      rwa [show a + 8 * (i + 1) = a + 8 + 8 * i by omega]

theorem length_flatMap_wordBytes (ws : List Word) : (ws.flatMap wordBytes).length = 8 * ws.length := by
  induction ws with
  | nil => rfl
  | cons w ws ih =>
    rw [flatMap_cons, length_append, length_wordBytes, ih, length_cons]
    omega

theorem Pushed.stack {argv : List (List Byte)} {sz sp' : Nat} {sp : Word} {ptrs : List Word} {m1 m2 : Mem} (hp : Pushed root K argv sz sp' ptrs m m1)
    (S : Space m1.page root K top) (hG : Guarded top) (hK : sz = K * 4096) (h2 : 2 ≤ K) (hguard : userPage m2.page root (K - 2) = none)
    (hsp : sp.toNat + 8 * (argv.length + 1) ≤ sp') (hbase : sz - 4096 ≤ sp.toNat) (hal : sp.toNat % 16 = 0)
    (hst : Stored root sp.toNat ((ptrs ++ [0]).flatMap wordBytes) m1 m2)
    (hw : ∀ i < ((ptrs ++ [0]).flatMap wordBytes).length, Writable m1.page root ((sp.toNat + i) / 4096)) :
    Stack m2.page root sz sp.toNat argv := by
  have hle := hp.le
  have hlen : ((ptrs ++ [0]).flatMap wordBytes).length = 8 * (argv.length + 1) := by
    rw [length_flatMap_wordBytes, length_append, length_singleton, hp.length]
  refine ⟨by omega, ?_, ?_, hal, by omega, fun i s hs => ?_, ?_⟩
  · rwa [show sz / 4096 - 2 = K - 2 by omega]
  · rw [writable_congr hst.view, show sz / 4096 - 1 = (sp.toNat + 0) / 4096 by omega]
    exact hw 0 (by omega)
  · obtain ⟨q, hq, h1, h₂, hh⟩ := hp.arg i s hs
    have hi : i < ptrs.length := (List.getElem?_eq_some_iff.1 hq).1
    refine ⟨q, hst.holds.word (by rw [getElem?_append_left hi, hq]), by omega, h₂, hh.congr fun j hj => ?_⟩
    rw [length_append, length_singleton] at hj
    exact hst.same S hG (fun i hi => (hw i hi).readable) (by omega) (by omega)
  · refine hst.holds.word ?_
    rw [getElem?_append_right (by rw [hp.length]), hp.length, Nat.sub_self]
    rfl

theorem Laid.congr {page' : Word → Nat → Word} {f : Proghdr → Nat → Option Byte} {phs : List Proghdr} (h : Laid page root f phs)
    (hfits : ∀ ph ∈ phs, ph.type = 1 → ph.vaddr.toNat + ph.filesz.toNat ≤ K * 4096)
    (hsame : ∀ a, a / 4096 < K → userByte page' root a = userByte page root a) : Laid page' root f phs := by
  intro pre ph post heq htype k hk hpost
  have hfit := hfits ph (heq ▸ mem_append_right _ mem_cons_self) htype
  obtain ⟨c, hc, hb⟩ := h pre ph post heq htype k hk hpost
  exact ⟨c, hc, (hsame _ (by omega)).trans hb⟩

end

def phoff (file : List Byte) : Nat := field (readi file 0 64) 32 8
def phnum (file : List Byte) : Nat := field (readi file 0 64) 56 2

section
variable {m m1 : Mem} {trampoline trapframe : Word} {X : String → Prop}

/-- What `exec` builds before it commits. -/
structure Built (trampoline trapframe : Word) (file : Option (List Byte)) (argv : List (List Byte)) (m : Mem) (im : Image) (m' : Mem) : Prop where
  space : Space m'.page im.pagetable (pg im.sz) (procTop trampoline trapframe)
  moves : Moves ∅ (own m'.page im.pagetable (pg im.sz)) m m'
  found : file.isSome
  stack : argv.length < MAXARG → (∀ s ∈ argv, s.length < 4096) → Stack m'.page im.pagetable im.sz.toNat im.sp.toNat argv
  segments : ∀ bytes, file = some bytes → bytes.length < 2 ^ 32 →
    (∀ i < phnum bytes, (BitVec.ofNat 32 (phoff bytes)).toNat + 56 * i + 56 ≤ bytes.length) ∧
    (∀ ph ∈ headers bytes (phnum bytes) (BitVec.ofNat 32 (phoff bytes)), ph.type = 1 → ph.vaddr.toNat + ph.filesz.toNat ≤ pg im.sz * 4096) ∧
    Laid m'.page im.pagetable (loadedByte bytes) (headers bytes (phnum bytes) (BitVec.ofNat 32 (phoff bytes)))

theorem procTop_guarded {trapframe : Word} : Guarded (procTop trampoline trapframe) := by
  intro x e he
  have hflags : ∀ pa perm : Word, (perm ||| PTE_V) &&& 0x3FF &&& PTE_U = 0 → (entry pa perm).2 &&& PTE_U = 0 := fun pa perm h => by
    unfold entry PTE_FLAGS
    exact h
  unfold procTop at he
  by_cases hx : x = topPage
  · rw [hx, update_self] at he
    cases he
    exact hflags _ _ (by decide)
  rw [update_of_ne hx] at he
  by_cases hx' : x = topPage + 1
  · rw [hx', update_self] at he
    cases he
    exact hflags _ _ (by decide)
  · rw [update_of_ne hx'] at he
    cases he

theorem bad_own {file : Option (List Byte)} {argv : List (List Byte)} {pagetable sz : Word} (H0 : Heap ∅ m)
    (S : Space m1.page pagetable (pg sz) (procTop trampoline trapframe)) (hmv : Moves ∅ (own m1.page pagetable (pg sz)) m m1) :
    Sat machine (do
      procFreepagetable pagetable sz
      return none) m1
      (fun r m' => match r with
        | none => Moves ∅ ∅ m m'
        | some im => Built trampoline trapframe file argv m im m') X := by
  rw [sat_bind]
  exact (procFreepagetable_own S (hmv.heap H0)).mono fun _ m' hmv' => hmv.trans hmv'

theorem loadImage_own {file : Option (List Byte)} {argv : List (List Byte)} (H0 : Heap ∅ m) :
    Sat machine (loadImage trampoline trapframe file argv) m
      (fun r m' => match r with
        | none => Moves ∅ ∅ m m'
        | some im => Built trampoline trapframe file argv m im m') X := by
  have hsame : Moves ∅ ∅ m m := .refl H0
  cases file with
  | none => exact hsame
  | some file =>
    rw [loadImage]
    dsimp only
    split
    · exact hsame
    split
    · exact hsame
    rw [sat_bind]
    refine (procPagetable_own H0).mono ?_
    rintro (_ | pagetable) m1 hr
    · exact hr
    obtain ⟨S1, hmv1⟩ := hr
    rw [← pg_zero] at S1 hmv1
    dsimp only
    have hG : Guarded (procTop trampoline trapframe) := procTop_guarded
    have htop : ∀ x < topPage, procTop trampoline trapframe x = none := fun x hx => procTop_low hx
    have L1 : Loaded pagetable (procTop trampoline trapframe) ∅ m 0 m1 := ⟨S1, fun x hx => by rw [pg_zero] at hx; omega, hmv1⟩
    rw [sat_bind]
    refine (loadAll_own hG htop H0 _ L1).mono ?_
    rintro ⟨ok, sz⟩ m2 ⟨L2, hall⟩
    dsimp only at L2 hall ⊢
    split
    · exact bad_own H0 L2.space L2.moves
    rename_i hok
    have hall := hall (by simpa using hok)
    have H2 := L2.moves.heap H0
    have hK := L2.space.size_le H2
    obtain ⟨hup, -⟩ := toNat_size hK
    have hpg := pg_of_mul hup
    have S2 := L2.space
    have hmv2 := L2.moves
    rw [← hpg] at S2 hmv2 H2
    generalize PGROUNDUP sz = sz' at hup hpg S2 hmv2 H2 ⊢
    have hstack : (sz' + (USERSTACK + 1) * PGSIZE).toNat = (pg sz + 2) * 4096 := by
      rw [BitVec.toNat_add, hup]
      change (pg sz * 4096 + 8192) % 2 ^ 64 = _
      omega
    have hguard : sz' + (USERSTACK + 1) * PGSIZE - (USERSTACK + 1) * PGSIZE = sz' := BitVec.add_sub_cancel _ _
    generalize sz' + (USERSTACK + 1) * PGSIZE = newsz at hstack hguard ⊢
    have hsz1 := pg_of_mul hstack
    have hbase : (newsz - USERSTACK * PGSIZE).toNat = (pg sz + 1) * 4096 := by
      rw [BitVec.toNat_sub, hstack]
      change (2 ^ 64 - 4096 + (pg sz + 2) * 4096) % 2 ^ 64 = _
      omega
    rw [sat_bind]
    refine (uvmalloc_own S2 H2 htop (by decide)).mono ?_
    rintro sz1 m3 (⟨hlt, -, -⟩ | ⟨-, K', A⟩)
    · have : newsz.toNat < sz'.toNat := hlt
      omega
    have hmv3 := hmv2.trans A.moves
    have H3 := hmv3.heap H0
    have S3 := A.space
    rcases A.res with ⟨hz, hK'⟩ | ⟨hz, hK', hkeep3, hnew⟩
    · rw [hK'] at S3 hmv3
      rw [if_pos hz]
      exact bad_own H0 S3 hmv3
    have hnz : sz1 ≠ 0 := fun h => by
      rw [← hz, h] at hstack
      have : (0 : Word).toNat = 0 := rfl
      omega
    rw [if_neg hnz]
    rw [← hz] at hguard hsz1 hK' hbase hstack
    rw [hK'] at S3 hmv3 H3 hnew
    rw [hpg] at hkeep3 hnew
    rw [hguard]
    obtain ⟨pa, hpa⟩ := hnew (pg sz) (by omega) (by omega)
    rw [sat_bind]
    refine (S3.clear H3 (by omega) hup hpa).mono ?_
    rintro _ m4 ⟨S4, hmv4, hkeep4, hguard4⟩
    have hmv4 := hmv3.trans hmv4
    rw [sat_bind]
    refine (pushArgs_own hG (by omega) argv S4 (hmv4.heap H0) (by omega) (by omega)).mono ?_
    rintro (_ | ⟨sp, ustack⟩) m5 ⟨hw5, hpush⟩
    · exact bad_own H0 hw5.space (hmv4.trans hw5.moves)
    have hmv5 := hmv4.trans hw5.moves
    obtain ⟨hsp1, hsp2, hbelow, hpush⟩ := hpush sp ustack rfl
    dsimp only
    generalize hx : sp - BitVec.ofNat 64 ((argv.length + 1) * 8) = x
    have hmod : (x - x % 16).toNat = x.toNat - x.toNat % 16 := by
      have hmod16 : (x % 16).toNat = x.toNat % 16 := BitVec.toNat_umod
      rw [BitVec.toNat_sub, hmod16]
      have := x.isLt
      omega
    generalize x - x % 16 = sp2 at hmod ⊢
    split
    · exact bad_own H0 hw5.space hmv5
    rename_i hlow
    have hlow : (sz1 - USERSTACK * PGSIZE).toNat ≤ sp2.toNat := Nat.le_of_not_lt hlow
    rw [sat_bind]
    refine (copyout_own hG hw5.space (hmv5.heap H0)).mono ?_
    rintro r m6 ⟨hw6, hst⟩
    split
    · exact bad_own H0 hw6.space (hmv5.trans hw6.moves)
    rename_i hr
    obtain ⟨hst, hwr⟩ := hst hr
    refine ⟨hw6.space, hmv5.trans hw6.moves, rfl, fun hargc hargs => ?_, fun bytes hbytes hfile => ?_⟩
    · obtain ⟨ptrs, rfl, hp⟩ := hpush hargs (by omega)
      have hsub : x.toNat + (argv.length + 1) * 8 = sp.toNat := by
        unfold MAXARG at hargc
        have hn : (BitVec.ofNat 64 ((argv.length + 1) * 8)).toNat = (argv.length + 1) * 8 := by
          rw [BitVec.toNat_ofNat]
          omega
        rw [← hx, BitVec.toNat_sub, hn]
        have := sp.isLt
        omega
      change Stack m6.page pagetable sz1.toNat sp2.toNat argv
      refine hp.stack hw5.space hG (by rw [hstack, hsz1]) (by omega) ?_ (by omega) (by omega) (by omega) hst hwr
      rw [userPage_congr (hw6.view.trans hw5.view), show pg sz1 - 2 = pg sz by omega]
      exact hguard4
    · cases hbytes
      have h := hall hfile
      have hle : pg sz ≤ pg sz1 := by omega
      refine ⟨h.read, fun ph hph htype => (h.fits ph hph htype).trans (mul_le_mul_right _ hle), h.laid.congr h.fits fun a ha => ?_⟩
      -- The stack is above the segments.
      rw [hst.same hw5.space hG (fun i hi => (hwr i hi).readable) (by omega) (by omega), hbelow a (by omega) (by omega),
        hkeep4.userByte ha, hkeep3.userByte ha]

/-! ## The process -/

variable {p : Proc}

structure Executed (trampoline : Word) (p : Proc) (m : Mem) (r : Int × Proc) (m' : Mem) : Prop where
  trapframe : r.2.trapframe = p.trapframe
  runs : Runs trampoline m'.page r.2
  moves : Moves (foot m.page p) (foot m'.page r.2) m m'
  failed : r.1 < 0 → r.1 = -1 ∧ r.2 = p ∧ ∀ q ∈ foot m.page p, m'.page q = m.page q

section
variable (R : Runs trampoline m.page p) (H : Heap (foot m.page p) m)
include R H

theorem Executed.back (hmv : Moves ∅ ∅ m m1) : Executed trampoline p m (-1, p) m1 := by
  obtain ⟨R', hfoot, -, hpages⟩ := R.frame hmv fun q hq => ⟨Set.notMem_empty q, H.fresh q hq⟩
  have hu := hmv.union fun q hq => ⟨Set.notMem_empty q, H.fresh q hq⟩
  rw [Set.empty_union] at hu
  exact ⟨rfl, R', hfoot.symm ▸ hu, fun _ => ⟨rfl, rfl, hpages⟩⟩

variable {pagetable sz : Word} (S : Space m1.page pagetable (pg sz) (procTop trampoline p.trapframe))
  (hmv : Moves ∅ (own m1.page pagetable (pg sz)) m m1)
include S hmv

theorem Executed.commit {entry sp : Word} {name : List Byte} {argc : Nat} :
    Sat machine (do
      store p.trapframe 15 sp
      store p.trapframe 3 entry
      store p.trapframe 6 sp
      procFreepagetable p.pagetable p.sz
      return ((argc : Int), { p with pagetable := pagetable, sz := sz, name := name })) m1
      (fun r m' => Executed trampoline p m r m' ∧ r.1 = argc ∧ r.2.pagetable = pagetable ∧ r.2.sz = sz ∧
        m'.page p.trapframe 6 = sp ∧ m'.page p.trapframe 15 = sp ∧
        view m'.page pagetable = view m1.page pagetable ∧ ∀ q ∈ own m1.page pagetable (pg sz), m'.page q = m1.page q) X := by
  have hdisj : ∀ q ∈ foot m.page p, q ∉ own m1.page pagetable (pg sz) ∧ q ∉ m1.free := fun q hq =>
    hmv.elsewhere (Set.notMem_empty q) (H.fresh q hq)
  obtain ⟨R1, hfoot, -, -⟩ := R.frame hmv fun q hq => ⟨Set.notMem_empty q, H.fresh q hq⟩
  have hmv1 := hmv.union fun q hq => ⟨Set.notMem_empty q, H.fresh q hq⟩
  rw [Set.empty_union] at hmv1
  have H1 := hmv1.heap H
  have htf : p.trapframe ∈ own m1.page pagetable (pg sz) ∪ foot m.page p := .inr trapframe_mem_foot
  -- The three stores are to the trapframe.
  obtain ⟨m2, hm2⟩ : ∃ m2, m2 = ((m1.set p.trapframe (update (m1.page p.trapframe) 15 sp)).set p.trapframe
    (update ((m1.set p.trapframe (update (m1.page p.trapframe) 15 sp)).page p.trapframe) 3 entry)) := ⟨_, rfl⟩
  have hmv2 : Moves (foot m.page p) (own m1.page pagetable (pg sz) ∪ foot m.page p) m (m2.set p.trapframe (update (m2.page p.trapframe) 6 sp)) := by
    have h1 := H1.set htf (update (m1.page p.trapframe) 15 sp)
    have h₂ := (h1.heap H1).set htf
      (update ((m1.set p.trapframe (update (m1.page p.trapframe) 15 sp)).page p.trapframe) 3 entry)
    rw [← hm2] at h₂
    have h3 := (h₂.heap (h1.heap H1)).set htf (update (m2.page p.trapframe) 6 sp)
    exact hmv1.trans ((h1.trans h₂).trans h3)
  have hsame : ∀ q, q ≠ p.trapframe → (m2.set p.trapframe (update (m2.page p.trapframe) 6 sp)).page q = m1.page q := fun q hq => by
    rw [hm2]
    simp only [Mem.set, Function.update_idem]
    exact update_of_ne hq ..
  have hregs : (m2.set p.trapframe (update (m2.page p.trapframe) 6 sp)).page p.trapframe 6 = sp ∧
      (m2.set p.trapframe (update (m2.page p.trapframe) 6 sp)).page p.trapframe 15 = sp := by
    simp [hm2, Mem.set]
  rw [sat_bind, sat_store, sat_bind, sat_store, ← hm2, sat_bind, sat_store]
  generalize m2.set p.trapframe (update (m2.page p.trapframe) 6 sp) = m3 at hmv2 hsame hregs ⊢
  have H3 := hmv2.heap H
  obtain ⟨S3, ho3, -⟩ := S.other (hdisj _ trapframe_mem_foot).1 hsame
  obtain ⟨S0, ho0, -⟩ := R1.space.other R1.apart hsame
  have hold : own m3.page p.pagetable (pg p.sz) ⊆ foot m.page p := by
    rw [ho0, ← hfoot]
    exact own_subset_foot
  rw [sat_bind]
  refine (procFreepagetable_own S0 (H3.subset (hold.trans Set.subset_union_right))).mono fun _ m' hfree => ?_
  -- The new space and the trapframe are left.
  have hG : ∀ q ∈ insert p.trapframe (own m3.page pagetable (pg sz)), q ∉ own m3.page p.pagetable (pg p.sz) ∧ q ∉ m3.free := by
    rintro q (rfl | hq)
    · rw [ho0]
      exact ⟨R1.apart, H3.fresh _ htf⟩
    · rw [ho3] at hq
      exact ⟨fun h => (hdisj q (hold h)).1 hq, H3.fresh q (.inl hq)⟩
  obtain ⟨S', hv', ho', hp'⟩ := S3.frame hfree fun q hq => hG q (.inr hq)
  have hu := hfree.union hG
  have hset : own m3.page p.pagetable (pg p.sz) ∪ insert p.trapframe (own m3.page pagetable (pg sz)) =
      own m1.page pagetable (pg sz) ∪ foot m.page p := by
    rw [ho0, ho3, ← hfoot, foot]
    ext q
    simp only [Set.mem_union, Set.mem_insert_iff]
    tauto
  rw [hset, Set.empty_union] at hu
  have hapart : p.trapframe ∉ own m3.page pagetable (pg sz) := ho3.symm ▸ (hdisj _ trapframe_mem_foot).1
  have hnew : ∀ q ∈ own m1.page pagetable (pg sz), m3.page q = m1.page q := fun q hq =>
    hsame q (ne_of_mem_of_not_mem hq (hdisj _ trapframe_mem_foot).1)
  have htf' : m'.page p.trapframe = m3.page p.trapframe := hfree.frame _ (hG _ (.inl rfl)).1 (hG _ (.inl rfl)).2
  refine ⟨⟨rfl, ⟨S', ho'.symm ▸ hapart⟩, ?_, fun h => absurd h (by omega)⟩, rfl, rfl, rfl, htf' ▸ hregs.1, htf' ▸ hregs.2, ?_, fun q hq => ?_⟩
  · change Moves (foot m.page p) (insert p.trapframe (own m'.page pagetable (pg sz))) m m'
    rw [ho']
    exact hmv2.trans hu
  · exact hv'.trans (view_congr fun q hq => hnew q (.inl hq)).1
  · exact (hp' q (ho3.symm ▸ hq)).trans (hnew q hq)

end

/-- What `exec` commits to. -/
structure Committed (p : Proc) (im : Image) (m1 : Mem) (p' : Proc) (m' : Mem) : Prop where
  trapframe : p'.trapframe = p.trapframe
  pagetable : p'.pagetable = im.pagetable
  sz : p'.sz = im.sz
  /-- `p->trapframe->sp` and `p->trapframe->a1`. -/
  regs : m'.page p.trapframe 6 = im.sp ∧ m'.page p.trapframe 15 = im.sp
  view : view m'.page im.pagetable = view m1.page im.pagetable
  pages : ∀ q ∈ own m1.page im.pagetable (pg im.sz), m'.page q = m1.page q

theorem sat_exec {path : List Byte} {file : Option (List Byte)} {argv : List (List Byte)} {Q : Option Image → Mem → Prop}
    (R : Runs trampoline m.page p) (H : Heap (foot m.page p) m) (hload : Sat machine (loadImage trampoline p.trapframe file argv) m Q X)
    (hown : ∀ r m1, Q r m1 → match r with
      | none => Moves ∅ ∅ m m1
      | some im => Built trampoline p.trapframe file argv m im m1) :
    Sat machine (exec trampoline p path file argv) m
      (fun r m' => Executed trampoline p m r m' ∧ ∃ ro m1, Q ro m1 ∧ match ro with
        | none => r.1 = -1
        | some im => r.1 = argv.length ∧ Committed p im m1 r.2 m') X := by
  rw [exec, sat_bind]
  refine hload.mono ?_
  rintro (_ | im) m1 hQ
  · exact ⟨.back R H (hown _ _ hQ), none, m1, hQ, rfl⟩
  · have hb := hown _ _ hQ
    dsimp only
    refine (Executed.commit R H hb.space hb.moves).mono ?_
    rintro r m' ⟨hE, hargc, hpt, hsz, hsp, ha1, hview, hpages⟩
    exact ⟨hE, some im, m1, hQ, hargc, hE.trapframe, hpt, hsz, ⟨hsp, ha1⟩, hview, hpages⟩

theorem exec_own {path : List Byte} {file : Option (List Byte)} {argv : List (List Byte)} (R : Runs trampoline m.page p)
    (H : Heap (foot m.page p) m) : Sat machine (exec trampoline p path file argv) m (fun r m' => Executed trampoline p m r m') X :=
  (sat_exec R H (loadImage_own (H.subset (Set.empty_subset _))) fun _ _ h => h).mono fun _ _ h => h.1

end

end Xv6.Vm
