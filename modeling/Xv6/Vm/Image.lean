import Xv6.Vm.Fork

/-!
# `exec` is all or nothing (`kernel/exec.c`)

Either `exec` fails and the process is as it was, or the process has the new image: the stack with the arguments, a page below it that the
user cannot access, and the segments. The fields of a program header are 64 bits wide and `loadseg` takes an offset of 32 bits, so a
segment is what the header says as long as its offset is below 2^32.
-/

namespace Xv6.Vm

open Prog List BitVec

/-! ## The segments of a file -/

def phdr (file : List Byte) (i : Nat) : Proghdr := Proghdr.parse (fileBytes file (phoff file + 56 * i) 56)

def phdrs (file : List Byte) : List Proghdr := (range (phnum file)).map (phdr file)

/-- Byte `k` of a segment. -/
def segmentByte (file : List Byte) (ph : Proghdr) (k : Nat) : Option Byte := file[ph.off.toNat + k]?

/-- The offset of every segment of which a byte is seen is below 2^32. -/
def Near (file : List Byte) : Prop :=
  ∀ pre ph post, phdrs file = pre ++ ph :: post → ph.type = 1 → ∀ k < ph.filesz.toNat, (∀ q ∈ post, ¬q.Covers (ph.vaddr.toNat + k)) →
    ph.off.toNat < 2 ^ 32

section
variable {file : List Byte} {m : Mem} {root : Word} {X : String → Prop}

theorem headers_eq {n : Nat} {off : BitVec 32} (hread : ∀ i < n, off.toNat + 56 * i + 56 ≤ file.length) (hfile : file.length < 2 ^ 32) :
    headers file n off = (range n).map fun i => Proghdr.parse (fileBytes file (off.toNat + 56 * i) 56) := by
  induction n generalizing off with
  | zero => rfl
  | succ n ih =>
    have h0 := hread 0 (by omega)
    have hoff : (off + 56).toNat = off.toNat + 56 := by
      rw [toNat_add]
      change (off.toNat + 56) % 2 ^ 32 = _
      omega
    have hwrap : ¬off + 56 < off := by
      rw [lt_def, hoff]
      omega
    have hfirst : readi file off 56 = fileBytes file off.toNat 56 := by
      rw [readi, if_neg]
      · rfl
      · rintro (h | h)
        · omega
        · exact hwrap h
    have hrest : ∀ i < n, (off + 56).toNat + 56 * i + 56 ≤ file.length := fun i hi => by
      have := hread (i + 1) (by omega)
      omega
    rw [headers, hfirst, ih hrest, range_succ_eq_map, map_cons, map_map]
    refine congrArg (_ :: ·) (map_congr_left fun i _ => ?_)
    rw [Function.comp_apply, hoff, show off.toNat + 56 + 56 * i = off.toNat + 56 * (i + 1) by omega]

theorem phdr_type {i : Nat} (h : file.length < phoff file) : (phdr file i).type = 0 := by
  have hnil : fileBytes file (phoff file + 56 * i) 56 = [] := by
    rw [fileBytes, drop_of_length_le (by omega), take_nil]
  rw [phdr, hnil]
  rfl

theorem laid_iff {page : Word → Nat → Word} (hfile : file.length < 2 ^ 32)
    (hread : ∀ i < phnum file, (BitVec.ofNat 32 (phoff file)).toNat + 56 * i + 56 ≤ file.length)
    (hlaid : Laid page root (loadedByte file) (headers file (phnum file) (BitVec.ofNat 32 (phoff file)))) :
    Laid page root (segmentByte file) (phdrs file) ↔ Near file := by
  constructor
  · intro h pre ph post heq htype k hk hpost
    obtain ⟨c, hc, -⟩ := h pre ph post heq htype k hk hpost
    have := (List.getElem?_eq_some_iff.1 hc).1
    omega
  · intro hnear pre ph post heq htype k hk hpost
    by_cases hoff : phoff file < 2 ^ 32
    · have hlow : (BitVec.ofNat 32 (phoff file)).toNat = phoff file := by
        rw [toNat_ofNat]
        exact Nat.mod_eq_of_lt hoff
      rw [headers_eq hread hfile, hlow] at hlaid
      obtain ⟨c, hc, hbyte⟩ := hlaid pre ph post heq htype k hk hpost
      refine ⟨c, ?_, hbyte⟩
      have hnear := hnear pre ph post heq htype k hk hpost
      rwa [loadedByte, toNat_setWidth, Nat.mod_eq_of_lt hnear] at hc
    · have hmem : ph ∈ phdrs file := heq ▸ mem_append_right _ mem_cons_self
      obtain ⟨i, -, rfl⟩ := mem_map.1 hmem
      rw [phdr_type (by omega)] at htype
      exact absurd htype (by decide)

end

section
variable {m m1 m' : Mem} {p p' : Proc} {im : Image} {trampoline : Word} {X : String → Prop}

theorem Committed.userByte (h : Committed p im m1 p' m') {a : Nat} (ha : a / 4096 < pg im.sz) :
    userByte m'.page im.pagetable a = userByte m1.page im.pagetable a := by
  refine Keeps.userByte (fun x hx => ⟨by rw [h.view], fun e he => ?_⟩) ha
  exact h.pages e.1 (mem_own_of_view hx he)

theorem Committed.stack {argv : List (List Byte)} (h : Committed p im m1 p' m')
    (hs : Stack m1.page im.pagetable im.sz.toNat im.sp.toNat argv) : Stack m'.page im.pagetable im.sz.toNat im.sp.toNat argv := by
  obtain ⟨hsize, hguard, hwrite, hal, hin, harg, hlast⟩ := hs
  have hpg : pg im.sz * 4096 = im.sz.toNat := by
    unfold pg
    omega
  have hholds : ∀ a bytes, a + bytes.length ≤ im.sz.toNat → Holds m1.page im.pagetable a bytes → Holds m'.page im.pagetable a bytes :=
    fun a bytes ha hh => hh.congr fun i hi => h.userByte (by omega)
  have hword : ∀ i ≤ argv.length, ∀ w, Holds m1.page im.pagetable (im.sp.toNat + 8 * i) (wordBytes w) →
      Holds m'.page im.pagetable (im.sp.toNat + 8 * i) (wordBytes w) := fun i hi w =>
    hholds _ _ (by rw [length_wordBytes]; omega)
  refine ⟨hsize, ?_, ?_, hal, hin, fun i s hs => ?_, hword _ (Nat.le_refl _) _ hlast⟩
  · rwa [userPage_congr h.view]
  · rwa [writable_congr h.view]
  · obtain ⟨q, hptr, hlo, hhi, hstr⟩ := harg i s hs
    have hi : i < argv.length := (List.getElem?_eq_some_iff.1 hs).1
    refine ⟨q, hword i (by omega) q hptr, hlo, hhi, hholds _ _ ?_ hstr⟩
    rw [length_append, length_singleton]
    omega

theorem exec_all_or_nothing (path : List Byte) {file : Option (List Byte)} {argv : List (List Byte)} (R : Runs trampoline m.page p)
    (H : Heap (foot m.page p) m) (hargc : argv.length < MAXARG) (hargs : ∀ s ∈ argv, s.length < 4096)
    (hfile : ∀ bytes, file = some bytes → bytes.length < 2 ^ 32) :
    ∃ r p' m', (exec trampoline p path file argv).run machine m = .ok ((r, p'), m') ∧
      (r = -1 ∧ p' = p ∧ (∀ q ∈ foot m.page p, m'.page q = m.page q) ∨
        r = argv.length ∧ ∃ bytes sp, file = some bytes ∧ p'.trapframe = p.trapframe ∧ m'.page p.trapframe 6 = sp ∧
          m'.page p.trapframe 15 = sp ∧ Stack m'.page p'.pagetable p'.sz.toNat sp.toNat argv ∧
          (Laid m'.page p'.pagetable (segmentByte bytes) (phdrs bytes) ↔ Near bytes)) := by
  have hsat : Sat machine (exec trampoline p path file argv) m _ fun _ => False :=
    sat_exec R H (loadImage_own (H.subset (Set.empty_subset _))) fun _ _ h => h
  obtain ⟨⟨r, p'⟩, m', hrun, hE, ro, m1, hQ, hres⟩ := hsat.exists_ok
  refine ⟨r, p', m', hrun, ?_⟩
  cases ro with
  | none =>
    obtain rfl : r = -1 := hres
    exact .inl (hE.failed (show (-1 : Int) < 0 by decide))
  | some im =>
    obtain ⟨hr, hC⟩ := hres
    have hB : Built trampoline p.trapframe file argv m im m1 := hQ
    cases file with
    | none => cases hB.found
    | some bytes =>
      obtain ⟨hread, hfits, hlaid⟩ := hB.segments bytes rfl (hfile bytes rfl)
      rw [hC.pagetable, hC.sz]
      refine .inr ⟨hr, bytes, im.sp, rfl, hC.trapframe, hC.regs.1, hC.regs.2, hC.stack (hB.stack hargc hargs), ?_⟩
      exact laid_iff (hfile bytes rfl) hread (hlaid.congr hfits fun a ha => hC.userByte ha)

end

def elfFile (off : List Byte) : List Byte :=
  [0x7f, 0x45, 0x4c, 0x46] ++ List.replicate 28 0 ++ [64, 0, 0, 0, 0, 0, 0, 0] ++ List.replicate 16 0 ++ [1, 0] ++ List.replicate 6 0 ++
    [1, 0, 0, 0, 5, 0, 0, 0] ++ off ++ List.replicate 16 0 ++ [4, 0, 0, 0, 0, 0, 0, 0] ++ [0, 16, 0, 0, 0, 0, 0, 0] ++ List.replicate 8 0

/-- The segment is at 2^32, beyond the end of the file. -/
def farFile : List Byte := elfFile [0, 0, 0, 0, 1, 0, 0, 0]

example : farFile.length = 120 := by decide

/-- The first process, in a memory with 24 pages. -/
def firstProc : Option (Proc × Mem) := made ((userinit 0x80007000 [0x17, 0x05]).run machine smallMem)

theorem firstProc_runs {p : Proc} {m : Mem} (h : firstProc = some (p, m)) : Runs 0x80007000 m.page p ∧ Heap (foot m.page p) m := by
  obtain ⟨R, hmv⟩ := (userinit_own (X := fun _ => True) smallMem_heap).ok (made_eq_some h) p rfl
  exact ⟨R, hmv.heap smallMem_heap⟩

/-- What the program of the first process loads from `farFile`. -/
def farImage : Option (Proc × Mem × Image × Mem) := do
  let (p, m) ← firstProc
  let (im, m1) ← made ((loadImage 0x80007000 p.trapframe (some farFile) []).run machine m)
  return (p, m, im, m1)

theorem exec_of_image {p : Proc} {m m1 : Mem} {trampoline : Word} {file : Option (List Byte)} {im : Image} (path : List Byte)
    {argv : List (List Byte)} (R : Runs trampoline m.page p) (H : Heap (foot m.page p) m)
    (hload : (loadImage trampoline p.trapframe file argv).run machine m = .ok (some im, m1)) :
    ∃ p' m', (exec trampoline p path file argv).run machine m = .ok (((argv.length : Int), p'), m') ∧ Committed p im m1 p' m' := by
  have hown := (loadImage_own (X := fun _ => False) (H.subset (Set.empty_subset _))).ok hload
  have hsat : Sat machine (exec trampoline p path file argv) m _ fun _ => False :=
    sat_exec (Q := fun r m2 => r = some im ∧ m2 = m1) R H
      (sat_of_run (fun r m2 h => by rw [hload] at h; cases h; exact ⟨rfl, rfl⟩) fun e h => by rw [hload] at h; cases h)
      (by rintro r m2 ⟨rfl, rfl⟩; exact hown)
  obtain ⟨⟨r, p'⟩, m', hrun, -, ro, m2, ⟨rfl, rfl⟩, hr, hC⟩ := hsat.exists_ok
  obtain rfl : r = argv.length := hr
  exact ⟨p', m', hrun, hC⟩

theorem exec_loads_other_bytes : ∃ p m p' m', firstProc = some (p, m) ∧
    (exec 0x80007000 p [] (some farFile) []).run machine m = .ok ((0, p'), m') ∧ phdrs farFile = [⟨1, 5, 0x100000000, 0, 4, 4096⟩] ∧
    userByte m'.page p'.pagetable 0 = some 0x7f ∧ ¬Laid m'.page p'.pagetable (segmentByte farFile) (phdrs farFile) := by
  have hall : farImage.any (fun b => userByte b.2.2.2.page b.2.2.1.pagetable 0 = some 0x7f ∧ 0 < pg b.2.2.1.sz) = true := by decide +kernel
  obtain ⟨⟨p, m, im, m1⟩, hfar, hb⟩ := (Option.any_eq_true _ _).1 hall
  obtain ⟨hbyte, hpos⟩ := of_decide_eq_true hb
  obtain ⟨⟨p0, m0⟩, hfirst, hfar⟩ := Option.bind_eq_some_iff.1 hfar
  obtain ⟨⟨im', m1'⟩, hload, heq⟩ := Option.bind_eq_some_iff.1 hfar
  obtain ⟨rfl, rfl, rfl, rfl⟩ : p0 = p ∧ m0 = m ∧ im' = im ∧ m1' = m1 := by simpa using heq
  obtain ⟨R, H⟩ := firstProc_runs hfirst
  obtain ⟨p', m', hrun, hC⟩ := exec_of_image [] R H (made_eq_some hload)
  have hhdr : phdrs farFile = [⟨1, 5, 0x100000000, 0, 4, 4096⟩] := by decide +kernel
  refine ⟨p0, m0, p', m', hfirst, hrun, hhdr, ?_, fun hlaid => ?_⟩
  · rw [hC.pagetable, hC.userByte hpos, hbyte]
  obtain ⟨c, hc, -⟩ := hlaid [] _ [] hhdr rfl 0 (by decide) (fun q hq => by cases hq)
  have hnone : segmentByte farFile ⟨1, 5, 0x100000000, 0, 4, 4096⟩ 0 = none := by
    refine getElem?_eq_none ?_
    change 120 ≤ 0x100000000 + 0
    decide
  rw [hnone] at hc
  cases hc

/-- The segment is at the beginning of the file. -/
def nearFile : List Byte := elfFile [0, 0, 0, 0, 0, 0, 0, 0]

theorem exec_all_or_nothing_near : ∃ p m r p' m', firstProc = some (p, m) ∧
    (exec 0x80007000 p [] (some nearFile) [[0x6c, 0x73]]).run machine m = .ok ((r, p'), m') ∧
    (r = -1 ∧ p' = p ∨ r = 1 ∧ Laid m'.page p'.pagetable (segmentByte nearFile) (phdrs nearFile)) := by
  have hsome : firstProc.isSome = true := by decide +kernel
  obtain ⟨⟨p, m⟩, hfirst⟩ := Option.isSome_iff_exists.1 hsome
  obtain ⟨R, H⟩ := firstProc_runs hfirst
  have hargs : ∀ s ∈ [[(0x6c : Byte), 0x73]], s.length < 4096 := by simp
  obtain ⟨r, p', m', hrun, hres⟩ := exec_all_or_nothing [] R H (by decide : [[(0x6c : Byte), 0x73]].length < MAXARG) hargs
    fun bytes (h : some nearFile = some bytes) => by cases h; decide
  refine ⟨p, m, r, p', m', hfirst, hrun, ?_⟩
  rcases hres with ⟨hr, hp, -⟩ | ⟨hr, bytes, sp, hbytes, -, -, -, -, hiff⟩
  · exact .inl ⟨hr, hp⟩
  cases hbytes
  refine .inr ⟨hr, hiff.2 fun pre ph post heq _ _ _ _ => ?_⟩
  have hhdr : phdrs nearFile = [⟨1, 5, 0, 0, 4, 4096⟩] := by decide +kernel
  have hmem : ph ∈ phdrs nearFile := heq ▸ mem_append_right _ mem_cons_self
  rw [hhdr, mem_singleton] at hmem
  rw [hmem]
  decide

end Xv6.Vm
