import Mathlib.Data.Finset.Card
import Mathlib.Data.List.TakeWhile
import Xv6.Fs.Files

/-!
# Paths

`skipelem`, `namex`, `namei` and `nameiparent` (`fs.c:610`). A path names a walk through the directories, one step for
each of its elements. `namex` follows it with one reference at a time: to the inode it has come to, and while it looks up
the next one to that one as well.
-/

namespace Xv6.Fs

open Bytes Prog List Files

/-! ## Elements of a path -/

def slash : UInt8 := 47

/-- The elements of a path, each cut to its first `DIRSIZ` bytes. -/
def elems (path : List UInt8) : List (List UInt8) :=
  (((path.takeWhile (· ≠ 0)).splitOn slash).filter (· ≠ [])).map (·.take DIRSIZ)

def inElem (c : UInt8) : Bool := decide (c ≠ slash) && decide (c ≠ 0)

def skipelem (path name : List UInt8) : Option (List UInt8 × List UInt8) :=
  let path := path.dropWhile (· = slash)
  if path.headD 0 = 0 then none
  else
    let s := path.takeWhile inElem
    let path := path.dropWhile inElem
    let name := if DIRSIZ ≤ s.length then s.take DIRSIZ else s ++ 0 :: name.drop (s.length + 1)
    some (path.dropWhile (· = slash), name)

theorem elems_of_end {path : List UInt8} (h : path.headD 0 = 0) : elems path = [] := by
  cases path with
  | nil => rfl
  | cons c l =>
    obtain rfl : c = 0 := h
    rfl

theorem elems_slash (path : List UInt8) : elems (slash :: path) = elems path := by
  have h : (slash :: path).takeWhile (· ≠ 0) = [] ++ slash :: path.takeWhile (· ≠ 0) := by
    simp [slash]
  unfold elems
  rw [h, splitOn_append_cons_self_of_not_mem (by simp)]
  simp

theorem elems_dropWhile (path : List UInt8) : elems (path.dropWhile (· = slash)) = elems path := by
  induction path with
  | nil => rfl
  | cons c l ih =>
    by_cases hc : c = slash
    · subst hc
      rw [elems_slash, ← ih]
      simp
    · simp [hc]

theorem elems_append {e rest : List UInt8} (he : e ≠ []) (hin : ∀ c ∈ e, inElem c = true)
    (hrest : rest.headD 0 = 0 ∨ rest.head? = some slash) : elems (e ++ rest) = e.take DIRSIZ :: elems rest := by
  have hzero : ∀ c ∈ e, c ≠ 0 := fun c hc => by
    have := hin c hc
    simp only [inElem, Bool.and_eq_true, decide_eq_true_eq] at this
    exact this.2
  have hslash : slash ∉ e := fun hm => by
    have := hin slash hm
    simp [inElem] at this
  have htake : (e ++ rest).takeWhile (· ≠ 0) = e ++ rest.takeWhile (· ≠ 0) :=
    takeWhile_append_of_pos fun c hc => by simpa using hzero c hc
  rcases hrest with h | h
  · have hnil : rest.takeWhile (· ≠ 0) = [] := by
      cases rest with
      | nil => rfl
      | cons c l =>
        obtain rfl : c = 0 := h
        simp
    unfold elems
    rw [htake, hnil, append_nil, splitOn_eq_singleton hslash]
    simp [he]
  · obtain ⟨l, rfl⟩ : ∃ l, rest = slash :: l := by
      cases rest with
      | nil => cases h
      | cons c l =>
        obtain rfl : c = slash := by simpa using h
        exact ⟨l, rfl⟩
    have hl : (slash :: l).takeWhile (· ≠ 0) = slash :: l.takeWhile (· ≠ 0) := by simp [slash]
    rw [elems_slash]
    unfold elems
    rw [htake, hl, splitOn_append_cons_self_of_not_mem hslash]
    simp [he]

theorem headD_dropWhile_inElem (path : List UInt8) :
    (path.dropWhile inElem).headD 0 = 0 ∨ (path.dropWhile inElem).head? = some slash := by
  induction path with
  | nil => exact .inl rfl
  | cons c l ih =>
    by_cases hc : inElem c = true
    · rwa [dropWhile_cons_of_pos hc]
    · simp only [inElem, Bool.and_eq_true, decide_eq_true_eq, not_and_or, not_not] at hc
      rcases hc with rfl | rfl
      · exact .inr rfl
      · exact .inl rfl

theorem head_dropWhile_slash (path : List UInt8) (h : (path.dropWhile (· = slash)).headD 0 ≠ 0) :
    ∃ c l, path.dropWhile (· = slash) = c :: l ∧ inElem c = true := by
  induction path with
  | nil => exact absurd rfl h
  | cons c l ih =>
    by_cases hc : c = slash
    · rw [dropWhile_cons_of_pos (by simpa using hc)] at h ⊢
      exact ih h
    · rw [dropWhile_cons_of_neg (by simpa using hc)] at h ⊢
      exact ⟨c, l, rfl, by simpa [inElem, hc] using h⟩

theorem nameKey_elem {e buf : List UInt8} (he : ∀ c ∈ e, inElem c = true) :
    nameKey (if DIRSIZ ≤ e.length then e.take DIRSIZ else e ++ 0 :: buf) = e.take DIRSIZ := by
  have hzero : ∀ c ∈ e, c ≠ 0 := fun c hc => by
    have := he c hc
    simp only [inElem, Bool.and_eq_true, decide_eq_true_eq] at this
    exact this.2
  unfold nameKey
  split
  · rw [take_take, Nat.min_self, takeWhile_eq_self_iff]
    intro c hc
    simpa using hzero c (mem_of_mem_take hc)
  · rename_i hlen
    have htake : (e ++ 0 :: buf).take DIRSIZ = e ++ 0 :: buf.take (DIRSIZ - e.length - 1) := by
      rw [take_append, take_of_length_le (by omega), show DIRSIZ - e.length = DIRSIZ - e.length - 1 + 1 by omega,
        take_succ_cons, Nat.add_sub_cancel]
    have hwhole : e.take DIRSIZ = e := take_of_length_le (by omega)
    rw [htake, takeWhile_append_of_pos fun c hc => by simpa using hzero c hc, hwhole]
    simp

theorem skipelem_none {path name : List UInt8} (h : skipelem path name = none) : elems path = [] := by
  unfold skipelem at h
  dsimp only at h
  split at h
  · rename_i h0
    rw [← elems_dropWhile]
    exact elems_of_end h0
  · cases h

theorem skipelem_some {path name rest name' : List UInt8} (h : skipelem path name = some (rest, name')) :
    elems path = nameKey name' :: elems rest ∧ rest.length < path.length ∧ (rest.headD 0 = 0 ↔ elems rest = []) := by
  unfold skipelem at h
  dsimp only at h
  split at h
  · cases h
  rename_i h0
  obtain ⟨rfl, rfl⟩ := Prod.mk.inj (Option.some.inj h)
  obtain ⟨c, l, hp, hc⟩ := head_dropWhile_slash path h0
  set p := path.dropWhile (· = slash) with hpdef
  have hsplit : p = p.takeWhile inElem ++ p.dropWhile inElem := (takeWhile_append_dropWhile).symm
  have hne : p.takeWhile inElem ≠ [] := by
    rw [hp, takeWhile_cons_of_pos hc]
    simp
  have hin : ∀ c ∈ p.takeWhile inElem, inElem c = true := fun c hc => mem_takeWhile_imp hc
  refine ⟨?_, ?_, ?_⟩
  · rw [nameKey_elem hin, elems_dropWhile, ← elems_append hne hin (headD_dropWhile_inElem p), ← hsplit, hpdef, elems_dropWhile]
  · have h1 : ((p.dropWhile inElem).dropWhile (· = slash)).length ≤ (p.dropWhile inElem).length :=
      (dropWhile_sublist _).length_le
    have h2 : p.length = (p.takeWhile inElem).length + (p.dropWhile inElem).length := by
      rw [← length_append, ← hsplit]
    have h3 : p.length ≤ path.length := (dropWhile_sublist _).length_le
    have h4 : 0 < (p.takeWhile inElem).length := length_pos_of_ne_nil hne
    omega
  · refine ⟨elems_of_end, fun hnil => ?_⟩
    by_contra hhead
    obtain ⟨c', l', hp', hc'⟩ := head_dropWhile_slash (p.dropWhile inElem) hhead
    set q := (p.dropWhile inElem).dropWhile (· = slash) with hq
    have hne' : q.takeWhile inElem ≠ [] := by
      rw [hp', takeWhile_cons_of_pos hc']
      simp
    have := elems_append hne' (fun c hc => mem_takeWhile_imp hc) (headD_dropWhile_inElem q)
    rw [takeWhile_append_dropWhile, hnil] at this
    cases this

/-! ## Walks -/

namespace Files

/-- The inode that `e` names in the directory `i`. -/
def child (a : Files) (i : Nat) (e : List UInt8) : Option Nat :=
  match a.file i with
  | some f => if f.type = T_DIR then Slots.lookup e (dirents f.bytes) else none
  | none => none

def isDir (a : Files) (i : Nat) : Bool :=
  match a.file i with
  | some f => decide (f.type = T_DIR)
  | none => false

/-- The inode that the elements lead to from `i`. -/
def walk (a : Files) : Nat → List (List UInt8) → Option Nat
  | i, [] => some i
  | i, e :: es => (a.child i e).bind fun j => a.walk j es

/-- The directory that the elements but the last one lead to, and the last one. -/
def walkParent (a : Files) : Nat → List (List UInt8) → Option (Nat × List UInt8)
  | _, [] => none
  | i, [e] => if a.isDir i then some (i, e) else none
  | i, e :: e' :: es => (a.child i e).bind fun j => a.walkParent j (e' :: es)

def Named (a : Files) (i : Nat) : Prop :=
  i = ROOTINO ∨ ∃ d f key, a.file d = some f ∧ f.type = T_DIR ∧ some (key, i) ∈ dirents f.bytes

/-- The inode has links or is referenced. -/
def Linked (a : Files) (i : Nat) : Prop := ∀ f, a.file i = some f → f.nlink = 0 → 0 < a.refs i

section
variable {a : Files} {i j : Nat} {e : List UInt8} {es : List (List UInt8)} {f : File}

theorem child_eq (hf : a.file i = some f) (ht : f.type = T_DIR) : a.child i e = Slots.lookup e (a.entries i) := by
  simp [child, entries, hf, ht]

theorem child_eq_none (hf : a.file i = some f) (ht : f.type ≠ T_DIR) : a.child i e = none := by
  simp [child, hf, ht]

theorem child_of_not_isDir (h : a.isDir i = false) : a.child i e = none := by
  cases hf : a.file i with
  | none => simp [child, hf]
  | some f =>
    simp only [isDir, hf, decide_eq_false_iff_not] at h
    exact child_eq_none hf h

theorem named_of_child (h : a.child i e = some j) : a.Named j := by
  unfold child at h
  split at h
  · rename_i f hf
    split at h
    · rename_i ht
      exact .inr ⟨i, f, e, hf, ht, Slots.mem_of_lookup h⟩
    · cases h
  · cases h

theorem isDir_eq (hf : a.file i = some f) : a.isDir i = decide (f.type = T_DIR) := by simp [isDir, hf]

theorem walkParent_of_file (hf : a.file i = some f) (ht : f.type ≠ T_DIR) : a.walkParent i es = none := by
  match es with
  | [] => rfl
  | [e] => simp [walkParent, isDir_eq hf, ht]
  | e :: e' :: es => simp [walkParent, child_eq_none hf ht]

theorem walkParent_cons (h : es ≠ []) : a.walkParent i (e :: es) = (a.child i e).bind fun j => a.walkParent j es := by
  cases es with
  | nil => exact absurd rfl h
  | cons e' es => rfl

theorem walk_eq (h : es ≠ []) : a.walk i es = (a.walkParent i es).bind fun p => a.child p.1 p.2 := by
  induction es generalizing i with
  | nil => exact absurd rfl h
  | cons e es ih =>
    by_cases hes : es = []
    · subst hes
      simp only [walk, walkParent]
      cases hd : a.isDir i with
      | false => simp [child_of_not_isDir hd]
      | true => simp
    · rw [walkParent_cons hes, walk]
      cases a.child i e with
      | none => rfl
      | some j => exact ih hes

theorem walkParent_eq (h : es ≠ []) :
    a.walkParent i es = ((a.walk i es.dropLast).filter fun d => a.isDir d).map fun d => (d, es.getLast h) := by
  induction es generalizing i with
  | nil => exact absurd rfl h
  | cons e es ih =>
    by_cases hes : es = []
    · subst hes
      simp only [walkParent, dropLast_singleton, walk, getLast_singleton]
      cases hd : a.isDir i <;> simp [hd]
    · obtain ⟨e', es', rfl⟩ := exists_cons_of_ne_nil hes
      rw [walkParent_cons hes, dropLast_cons_of_ne_nil hes, walk, getLast_cons hes]
      cases a.child i e with
      | none => rfl
      | some j => exact ih hes

end

end Files

structure Sound (sb : Super) (a : Files) : Prop where
  size : ∀ d f, a.file d = some f → f.type = T_DIR → f.bytes.length % DIRENT = 0
  lt : ∀ i, a.Named i → i < sb.ninodes
  linked : ∀ i, a.Named i → a.Linked i
  refs : ∀ i, 0 < a.refs i → a.file i ≠ none

/-! ## Entries of the inode table -/

/-- How many entries of the inode table are in use. -/
def inUse (t : Itable) : Nat := ((Finset.range NINODE).filter fun k => 0 < (t k).ref).card

theorem inUse_le {t t' : Itable} {i : Nat} (h : TableOk t) (h' : TableOk t')
    (hr : ∀ j, 0 < refsOf t' j → j = i ∨ 0 < refsOf t j) : inUse t' ≤ inUse t + 1 := by
  have hinj : ∀ {t : Itable}, TableOk t →
      Set.InjOn (fun k => (t k).inum) ((Finset.range NINODE).filter fun k => 0 < (t k).ref) := by
    intro t h k hk k' hk' e
    rw [Finset.mem_coe, Finset.mem_filter] at hk hk'
    exact h.unique k k' hk.2 hk'.2 e
  unfold inUse
  rw [← Finset.card_image_of_injOn (hinj h), ← Finset.card_image_of_injOn (hinj h')]
  refine le_trans (Finset.card_le_card fun j hj => ?_) (Finset.card_insert_le i _)
  obtain ⟨k, hk, rfl⟩ := Finset.mem_image.1 hj
  have hk' := (Finset.mem_filter.1 hk).2
  rw [Finset.mem_insert]
  rcases hr _ (by rw [h'.refsOf_eq hk']; exact hk') with e | hpos
  · exact .inl e
  · obtain ⟨k', hr', e⟩ := refsOf_pos hpos
    exact .inr (Finset.mem_image.2 ⟨k', Finset.mem_filter.2 ⟨Finset.mem_range.2 (h.lt k' hr'), hr'⟩, e⟩)

theorem inUse_of_igetSlot {t : Itable} {i : Nat} (h : igetSlot t i = none) : inUse t = NINODE := by
  have hempty : igetEmpty t = none := by
    unfold igetSlot at h
    split at h
    · cases h
    · exact h
  have hall : (Finset.range NINODE).filter (fun k => 0 < (t k).ref) = Finset.range NINODE := by
    rw [Finset.filter_eq_self]
    intro k hk
    have := find?_eq_none.1 hempty k (mem_range.2 (Finset.mem_range.1 hk))
    simp only [decide_eq_true_eq] at this
    omega
  rw [inUse, hall, Finset.card_range]

/-! ## `namex` -/

def namexFrom (sb : Super) (parent : Bool) : Nat → Nat → List UInt8 → List UInt8 → M (Option Nat × List UInt8)
  | 0, _, _, _ => .panic "namex"
  | fuel + 1, ip, path, name => do
    match skipelem path name with
    | none =>
      if parent then
        iput sb ip
        return (none, name)
      else
        return (some ip, name)
    | some (path, name) =>
      ilock sb ip
      if (← iat ip).d.type ≠ T_DIR then
        iunlockput sb ip
        return (none, name)
      else if parent ∧ path.headD 0 = 0 then
        -- Stop one level early.
        iunlock ip
        return (some ip, name)
      else
        match ← dirlookup sb ip name with
        | none =>
          iunlockput sb ip
          return (none, name)
        | some (next, _) =>
          iunlockput sb ip
          namexFrom sb parent fuel next path name

def namex (sb : Super) (cwd : Nat) (path : List UInt8) (parent : Bool) (name : List UInt8) : M (Option Nat × List UInt8) := do
  let ip ← (if path.headD 0 = slash then iget ROOTINO else idup cwd)
  namexFrom sb parent (path.length + 1) ip path name

/-- `fs.c:687`; `name` is the local buffer, with whatever it holds. -/
def namei (sb : Super) (cwd : Nat) (path name : List UInt8) : M (Option Nat) := do
  return (← namex sb cwd path false name).1

/-- `fs.c:694`. -/
def nameiparent (sb : Super) (cwd : Nat) (path name : List UInt8) : M (Option Nat × List UInt8) :=
  namex sb cwd path true name

section
variable {sb : Super} {s s' s0 : FsState} {i j k ip cwd fuel : Nat} {path name : List UInt8} {parent : Bool} {X : String → Prop}

/-- The state in which `namex` holds a reference to `i`. -/
structure At (sb : Super) (s0 s : FsState) (ip i : Nat) : Prop where
  next : Next sb s0 s ((files sb s0).addRef i)
  ptr : Ptr s ip i
  lt : i < sb.ninodes
  linked : (files sb s0).Linked i

def NamexPost (sb : Super) (s0 : FsState) (parent : Bool) (i : Nat) (es : List (List UInt8)) (r : Option Nat × List UInt8)
    (s' : FsState) : Prop :=
  if parent then
    match (files sb s0).walkParent i es with
    | none => r.1 = none ∧ Next sb s0 s' (files sb s0)
    | some (d, e) => ∃ k, r.1 = some k ∧ nameKey r.2 = e ∧ At sb s0 s' k d
  else
    match (files sb s0).walk i es with
    | none => r.1 = none ∧ Next sb s0 s' (files sb s0)
    | some j => ∃ k, r.1 = some k ∧ At sb s0 s' k j

section
variable (h : At sb s0 s ip i)
include h

theorem At.kept : (files sb s).Kept i := by
  rw [h.next.files]
  by_cases hr : 0 < (files sb s0).refs i
  · left
    rw [addRef_refs_self]
    omega
  · exact .inr fun f hf h0 => hr (h.linked f hf h0)

theorem At.drop {s1 : FsState} (hg : Good sb s0) (hn : Next sb s s1 ((files sb s).dropRef i)) :
    Next sb s0 s1 (files sb s0) := by
  rw [h.next.files, dropRef_addRef] at hn
  exact h.next.trans hn (fun j hj _ => addRef_pos hj) hg

theorem At.locked {s1 : FsState} (hg : Good sb s0) (hn : Next sb s s1 (files sb s)) : At sb s0 s1 ip i := by
  rw [h.next.files] at hn
  refine ⟨h.next.trans hn (fun j hj _ => addRef_pos hj) hg, hn.ptr ip i h.ptr ?_, h.lt, h.linked⟩
  rw [addRef_refs_self]
  omega

theorem At.room (hg : Good sb s0) (hno : igetSlot s.itable j = none) : NINODE < inUse s0.itable + 2 := by
  have hle : inUse s.itable ≤ inUse s0.itable + 1 := by
    refine inUse_le (i := i) hg.table h.next.good.table fun j hj => ?_
    have e : refsOf s.itable j = _ := congrFun (congrArg refs h.next.files) j
    rw [e, addRef_refs] at hj
    by_cases hji : j = i
    · exact .inl hji
    · rw [if_neg hji] at hj
      exact .inr hj
  rw [inUse_of_igetSlot hno] at hle
  omega

theorem At.move {s1 : FsState} (hg : Good sb s0) (hn : Next sb s s1 ((files sb s).addRef j))
    (hp : Ptr s1 k j) (hlt : j < sb.ninodes) (hlinked : (files sb s0).Linked j) :
    Sat seq (iunlockput sb ip) s1 (fun _ s' => At sb s0 s' k j) X := by
  rw [h.next.files] at hn
  have hpi : Ptr s1 ip i := hn.ptr ip i h.ptr (addRef_pos (by rw [addRef_refs_self]; omega))
  have hkept : (files sb s1).Kept i := by
    have hk := h.kept
    rw [hn.files]
    rw [h.next.files] at hk
    rcases hk with hk | hk
    · left
      rw [addRef_refs]
      omega
    · exact .inr hk
  refine (iunlockput_keep hn.good hpi hkept).mono ?_
  rintro _ s' ⟨hn', -⟩
  have hdrop : (files sb s1).dropRef i = (files sb s0).addRef j := by
    rw [hn.files, dropRef_addRef_comm (by rw [addRef_refs_self]; omega), dropRef_addRef]
  rw [hdrop] at hn'
  refine ⟨?_, hn'.ptr k j hp (by rw [addRef_refs_self]; omega), hlt, hlinked⟩
  refine h.next.trans (hn.trans hn' (fun j' hj' _ => ?_) h.next.good) (fun j' hj' _ => addRef_pos hj') hg
  rw [h.next.files] at hj'
  exact addRef_pos hj'

end

theorem namexFrom_spec (hg : Good sb s0) (hs : Sound sb (files sb s0)) (h : At sb s0 s ip i) (hfuel : path.length < fuel)
    (hroom : NINODE < inUse s0.itable + 2 → X "iget: no inodes")
    (hdead : ∀ j, j = i ∨ (files sb s0).Named j → (files sb s0).file j = none → X "ilock: no type") :
    Sat seq (namexFrom sb parent fuel ip path name) s (NamexPost sb s0 parent i (elems path)) X := by
  induction fuel generalizing s ip i path name with
  | zero => exact absurd hfuel (Nat.not_lt_zero _)
  | succ fuel ih =>
    unfold namexFrom
    cases hskip : skipelem path name with
    | none =>
      rw [skipelem_none hskip]
      cases parent with
      | true =>
        simp only [if_true, sat_bind]
        refine (iput_keep h.next.good h.ptr h.kept).mono fun _ s1 hn => ?_
        exact ⟨rfl, h.drop hg hn.1⟩
      | false => exact ⟨ip, rfl, h⟩
    | some r =>
      obtain ⟨rest, name'⟩ := r
      obtain ⟨helems, hlen, hend⟩ := skipelem_some hskip
      rw [helems]
      simp only [sat_bind, sat_iat]
      refine (ilock_next h.next.good h.ptr h.lt fun hnone => hdead i (.inl rfl) ?_).mono ?_
      · rw [h.next.files] at hnone
        exact hnone
      rintro _ s1 ⟨hn1, hl1, -⟩
      have h₁ := h.locked hg hn1
      have hf := h₁.next.good.file_eq hl1 h₁.ptr
      rw [h₁.next.files] at hf
      set f := (s1.itable ip).d.file ((view sb s1.blocks).content i)
      change (files sb s0).file i = some f at hf
      by_cases ht : f.type = T_DIR
      · have ht' : (s1.itable ip).d.type = T_DIR := ht
        rw [if_neg (by simpa using ht')]
        by_cases hstop : parent = true ∧ rest.headD 0 = 0
        · rw [if_pos hstop]
          simp only [sat_bind, sat_iunlock h₁.ptr, sat_pure]
          have hw : (files sb s0).walkParent i (nameKey name' :: elems rest) = some (i, nameKey name') := by
            rw [hend.1 hstop.2]
            simp [walkParent, isDir_eq hf, ht]
          unfold NamexPost
          rw [if_pos hstop.1, hw]
          exact ⟨ip, rfl, rfl, h₁⟩
        · rw [if_neg hstop, sat_bind]
          have hf1 : (files sb s1).file i = some f := by rw [h₁.next.files]; exact hf
          refine (dirlookup_next h₁.next.good hl1 h₁.ptr hf1 ht (hs.size i f hf ht) fun j _ hno =>
            hroom (h₁.room hg hno)).mono ?_
          have hentries : (files sb s1).entries i = (files sb s0).entries i := by
            rw [entries_eq hf1, entries_eq hf]
          rintro (- | ⟨k, off⟩) s2 p
          · obtain ⟨rfl, hnone⟩ := p
            have hchild : (files sb s0).child i (nameKey name') = none := by
              rw [child_eq hf ht, ← hentries]
              exact hnone
            simp only [sat_bind]
            refine (iunlockput_keep h₁.next.good h₁.ptr h₁.kept).mono fun _ s3 hn => ?_
            simp only [sat_pure]
            have hdrop := h₁.drop hg hn.1
            unfold NamexPost
            split
            · rename_i hpar
              have hne : elems rest ≠ [] := fun hnil => hstop ⟨hpar, hend.2 hnil⟩
              rw [walkParent_cons hne, hchild]
              exact ⟨rfl, hdrop⟩
            · rw [walk, hchild]
              exact ⟨rfl, hdrop⟩
          · obtain ⟨n, j, -, -, hj, hn2, hp2⟩ := p
            have hchild : (files sb s0).child i (nameKey name') = some j := by
              rw [child_eq hf ht, ← hentries]
              exact hj
            have hnamed := named_of_child hchild
            simp only [sat_bind]
            refine (h₁.move hg hn2 hp2 (hs.lt j hnamed) (hs.linked j hnamed)).mono ?_
            intro _ s3 hat
            refine (ih hat (by omega) fun j' hj' => hdead j' (hj'.elim (fun e => .inr (e ▸ hnamed)) .inr)).mono ?_
            intro r s' hr
            unfold NamexPost at hr ⊢
            split
            · rename_i hpar
              have hne : elems rest ≠ [] := fun hnil => hstop ⟨hpar, hend.2 hnil⟩
              rw [if_pos hpar] at hr
              rw [walkParent_cons hne, hchild]
              exact hr
            · rename_i hpar
              rw [if_neg hpar] at hr
              rw [walk, hchild]
              exact hr
      · have ht' : (s1.itable ip).d.type ≠ T_DIR := ht
        rw [if_pos ht']
        simp only [sat_bind]
        refine (iunlockput_keep h₁.next.good h₁.ptr h₁.kept).mono fun _ s3 hn => ?_
        simp only [sat_pure]
        have hdrop := h₁.drop hg hn.1
        unfold NamexPost
        split
        · rw [walkParent_of_file hf ht]
          exact ⟨rfl, hdrop⟩
        · rw [walk, child_eq_none hf ht]
          exact ⟨rfl, hdrop⟩

theorem Good.lt_of_file (hg : Good sb s) (h : (files sb s).file i ≠ none) : i < sb.ninodes := by
  have ht : ((view sb s.blocks).ino i).type ≠ 0 := by
    intro h0
    refine h ?_
    change View.file _ i = none
    rw [View.file, if_pos h0]
  exact lt_of_type_ne_zero ht

def startOf (s : FsState) (cwd : Nat) (path : List UInt8) : Nat :=
  if path.headD 0 = slash then ROOTINO else (s.itable cwd).inum

theorem namex_spec (hg : Good sb s) (hs : Sound sb (files sb s)) (hcwd : 0 < (s.itable cwd).ref)
    (hroom : NINODE < inUse s.itable + 2 → X "iget: no inodes")
    (hdead : ∀ j, (files sb s).Named j → (files sb s).file j = none → X "ilock: no type") :
    Sat seq (namex sb cwd path parent name) s (NamexPost sb s parent (startOf s cwd path) (elems path)) X := by
  unfold namex startOf
  rw [sat_bind]
  by_cases hroot : path.headD 0 = slash
  · rw [if_pos hroot, if_pos hroot]
    refine (iget_next hg fun hno => hroom ?_).mono ?_
    · rw [inUse_of_igetSlot hno]
      omega
    · rintro ip s1 ⟨hn, hp⟩
      refine namexFrom_spec hg hs ⟨hn, hp, hs.lt _ (.inl rfl), hs.linked _ (.inl rfl)⟩ (Nat.lt_succ_self _) hroom ?_
      rintro j (rfl | hj)
      · exact hdead _ (.inl rfl)
      · exact hdead j hj
  · rw [if_neg hroot, if_neg hroot]
    have hp : Ptr s cwd (s.itable cwd).inum := ⟨hcwd, rfl⟩
    have hpos := hg.refs_pos hp
    refine (idup_next hg hp).mono ?_
    rintro ip s1 ⟨rfl, hn, hp1⟩
    refine namexFrom_spec hg hs ⟨hn, hp1, hg.lt_of_file (hs.refs _ hpos), fun _ _ _ => hpos⟩ (Nat.lt_succ_self _) hroom ?_
    rintro j (rfl | hj)
    · exact fun hnone => absurd hnone (hs.refs _ hpos)
    · exact hdead j hj

end

/-! ## Path resolution -/

/-- A file system in which every entry of a directory names an inode. -/
structure Tree (sb : Super) (a : Files) : Prop extends Sound sb a where
  alloc : ∀ i, a.Named i → a.file i ≠ none

def Reached (sb : Super) (s : FsState) (w r : Option Nat) (s' : FsState) : Prop :=
  match w with
  | none => r = none ∧ files sb s' = files sb s
  | some j => ∃ k, r = some k ∧ Ptr s' k j ∧ files sb s' = (files sb s).addRef j

section
variable {sb : Super} {s s' : FsState} {cwd i j k : Nat} {path name : List UInt8} {es : List (List UInt8)}

theorem NamexPost.reached {r : Option Nat × List UInt8} (h : NamexPost sb s false i es r s') :
    Good sb s' ∧ Reached sb s ((files sb s).walk i es) r.1 s' := by
  unfold NamexPost at h
  rw [if_neg (by simp)] at h
  unfold Reached
  split at h
  · exact ⟨h.2.good, h.1, h.2.files⟩
  · obtain ⟨k, hr, hat⟩ := h
    exact ⟨hat.next.good, k, hr, hat.ptr, hat.next.files⟩

theorem NamexPost.reached_parent {r : Option Nat × List UInt8} (h : NamexPost sb s true i es r s') (hes : es ≠ []) :
    Good sb s' ∧ Reached sb s (((files sb s).walk i es.dropLast).filter fun d => (files sb s).isDir d) r.1 s' ∧
      (r.1 ≠ none → nameKey r.2 = es.getLast hes) := by
  unfold NamexPost at h
  rw [if_pos rfl, walkParent_eq hes] at h
  cases hw : ((files sb s).walk i es.dropLast).filter fun d => (files sb s).isDir d with
  | none =>
    rw [hw] at h
    exact ⟨h.2.good, ⟨h.1, h.2.files⟩, fun hne => absurd h.1 hne⟩
  | some d =>
    rw [hw] at h
    obtain ⟨k, hr, he, hat⟩ := h
    exact ⟨hat.next.good, ⟨k, hr, hat.ptr, hat.next.files⟩, fun _ => he⟩

theorem lookup_last {d : Nat} (name : List UInt8) (hg : Good sb s) (hg' : Good sb s') (ht : Tree sb (files sb s)) (hp : Ptr s' k d)
    (hn : files sb s' = (files sb s).addRef d) (hd : (files sb s).isDir d = true) (hroom : inUse s.itable + 2 ≤ NINODE) :
    ∃ x s'', (do ilock sb k; dirlookup sb k name).run seq s' = .ok (x, s'') ∧
      x.map (fun p => (s''.itable p.1).inum) = (files sb s).child d (nameKey name) := by
  obtain ⟨f, hf, hdir⟩ : ∃ f, (files sb s).file d = some f ∧ f.type = T_DIR := by
    unfold isDir at hd
    split at hd
    · rename_i f hf
      exact ⟨f, hf, of_decide_eq_true hd⟩
    · cases hd
  have hf' : (files sb s').file d = some f := by rw [hn]; exact hf
  have hspec : Sat seq (do ilock sb k; dirlookup sb k name) s'
      (fun x s'' => x.map (fun p => (s''.itable p.1).inum) = (files sb s).child d (nameKey name)) fun _ => False := by
    rw [sat_bind]
    refine (ilock_next hg' hp (hg.lt_of_file (by rw [hf]; simp)) fun hnone => ?_).mono ?_
    · rw [hf'] at hnone
      cases hnone
    rintro _ s1 ⟨hn1, hl1, -⟩
    have hp1 := hn1.ptr k d hp (hg'.refs_pos hp)
    have hf1 : (files sb s1).file d = some f := by rw [hn1.files]; exact hf'
    have hchild : (files sb s).child d (nameKey name) = Slots.lookup (nameKey name) ((files sb s1).entries d) := by
      rw [child_eq hf hdir, entries_eq hf, entries_eq hf1]
    refine (dirlookup_next hn1.good hl1 hp1 hf1 hdir (ht.size d f hf hdir) fun j _ hno => ?_).mono ?_
    · -- one entry more than before is in use at most
      have hle : inUse s1.itable ≤ inUse s.itable + 1 := by
        refine inUse_le (i := d) hg.table hn1.good.table fun j hj => ?_
        have e : refsOf s1.itable j = _ := congrFun (congrArg refs (hn1.files.trans hn)) j
        rw [e, addRef_refs] at hj
        by_cases hjd : j = d
        · exact .inl hjd
        · rw [if_neg hjd] at hj
          exact .inr hj
      rw [inUse_of_igetSlot hno] at hle
      omega
    · rintro (- | ⟨k', off⟩) s2 p
      · rw [hchild]
        exact p.2.symm
      · obtain ⟨n, j, -, -, hj, -, hp2⟩ := p
        rw [hchild, hj]
        exact congrArg some hp2.2
  obtain ⟨x, s'', hrun, hx⟩ := hspec.exists_ok
  exact ⟨x, s'', hrun, hx⟩

end

theorem path_resolution {sb : Super} {s : FsState} {cwd : Nat} (hg : Good sb s) (ht : Tree sb (files sb s))
    (hcwd : 0 < (s.itable cwd).ref) (hroom : inUse s.itable + 2 ≤ NINODE) (path name : List UInt8) :
    (∃ r s', (namei sb cwd path name).run seq s = .ok (r, s') ∧ Good sb s' ∧
      Reached sb s ((files sb s).walk (startOf s cwd path) (elems path)) r s') ∧
    ∃ r name' s', (nameiparent sb cwd path name).run seq s = .ok ((r, name'), s') ∧ Good sb s' ∧
      (elems path = [] → Reached sb s none r s') ∧
      ∀ hne : elems path ≠ [],
        Reached sb s
          (((files sb s).walk (startOf s cwd path) (elems path).dropLast).filter fun d => (files sb s).isDir d) r s' ∧
        ∀ k, r = some k → nameKey name' = (elems path).getLast hne ∧
          ∃ x s'', (do ilock sb k; dirlookup sb k name').run seq s' = .ok (x, s'') ∧
            x.map (fun p => (s''.itable p.1).inum) = (files sb s).walk (startOf s cwd path) (elems path) := by
  have hX : NINODE < inUse s.itable + 2 → False := by omega
  have hdead : ∀ j, (files sb s).Named j → (files sb s).file j = none → False := ht.alloc
  constructor
  · have hspec : Sat seq (namei sb cwd path name) s (fun r s' => Good sb s' ∧
        Reached sb s ((files sb s).walk (startOf s cwd path) (elems path)) r s') fun _ => False := by
      unfold namei
      rw [sat_bind]
      exact (namex_spec hg ht.toSound hcwd hX hdead).mono fun r s' h => h.reached
    obtain ⟨r, s', hrun, h⟩ := hspec.exists_ok
    exact ⟨r, s', hrun, h⟩
  · have hspec : Sat seq (nameiparent sb cwd path name) s (NamexPost sb s true (startOf s cwd path) (elems path)) fun _ => False :=
      namex_spec hg ht.toSound hcwd hX hdead
    obtain ⟨⟨r, name'⟩, s', hrun, h⟩ := hspec.exists_ok
    have hgood : Good sb s' := by
      by_cases hne : elems path = []
      · rw [NamexPost, if_pos rfl, hne] at h
        exact h.2.good
      · exact (h.reached_parent hne).1
    refine ⟨r, name', s', hrun, hgood, fun hnil => ?_, fun hne => ?_⟩
    · rw [NamexPost, if_pos rfl, hnil] at h
      exact ⟨h.1, h.2.files⟩
    obtain ⟨-, hr, hname⟩ := h.reached_parent hne
    refine ⟨hr, ?_⟩
    rintro k rfl
    have hkey := hname (by simp)
    refine ⟨hkey, ?_⟩
    rw [walk_eq hne, walkParent_eq hne]
    unfold Reached at hr
    split at hr
    · cases hr.1
    rename_i d hd
    obtain ⟨k', e, hp, hfiles⟩ := hr
    cases e
    rw [hd]
    have hdir : (files sb s).isDir d = true := (Option.filter_eq_some_iff.1 hd).2
    have hlast := lookup_last name' hg hgood ht hp hfiles hdir hroom
    rw [hkey] at hlast
    exact hlast

/-! ## A directory with files -/

section
variable {ents : List (Nat × List UInt8)} {file : Dinode} {n : Nat} {t : Itable} {full : List Bool}

theorem file_root : (treeView ents file n).file 1 = some ((rootInode ents).file ((treeView ents file n).content 1)) := rfl

theorem file_file {i : Nat} (hi : 2 ≤ i ∧ i < n) (ht : file.type ≠ 0) :
    (treeView ents file n).file i = some (file.file ((treeView ents file n).content i)) := by
  rw [View.file, ino_file hi, if_neg ht]

theorem file_treeView {i : Nat} {f : File} (h : (treeView ents file n).file i = some f) : i = 1 ∨ 2 ≤ i ∧ i < n := by
  have ha : (treeView ents file n).Alloc i := by
    intro h0
    rw [View.file, if_pos h0] at h
    cases h
  exact alloc_treeView ha

theorem file_treeState (hn : n ≤ 200) :
    (files mkfsSuper (treeState ents file n t full)).file = (treeView ents file n).file := by
  change (view mkfsSuper (treeState ents file n t full).blocks).file = _
  rw [view_treeState hn]

theorem tree_treeState (hn : n ≤ 200) (hlen : ((treeView ents file n).content 1).length % DIRENT = 0)
    (hents : ∀ key i, some (key, i) ∈ dirents ((treeView ents file n).content 1) → i = 1 ∨ 2 ≤ i ∧ i < n)
    (htype : file.type ≠ 0 ∧ file.type ≠ T_DIR) (hlink : file.nlink ≠ 0)
    (ht : ∀ k, 0 < (t k).ref → (t k).inum = 1 ∨ 2 ≤ (t k).inum ∧ (t k).inum < n) :
    Tree mkfsSuper (files mkfsSuper (treeState ents file n t full)) := by
  have hfile : (files mkfsSuper (treeState ents file n t full)).file = (treeView ents file n).file := file_treeState hn
  -- only the root is a directory
  have hroot : ∀ d f, (treeView ents file n).file d = some f → f.type = T_DIR →
      d = 1 ∧ f.bytes = (treeView ents file n).content 1 := by
    intro d f hf hd
    rcases file_treeView hf with rfl | hi
    · cases hf
      exact ⟨rfl, rfl⟩
    · rw [file_file hi htype.1] at hf
      cases hf
      exact absurd hd htype.2
  have hnamed : ∀ i, (files mkfsSuper (treeState ents file n t full)).Named i → i = 1 ∨ 2 ≤ i ∧ i < n := by
    rintro i (rfl | ⟨d, f, key, hf, hd, hm⟩)
    · exact .inl rfl
    · rw [hfile] at hf
      rw [(hroot d f hf hd).2] at hm
      exact hents key i hm
  have hsome : ∀ i, i = 1 ∨ 2 ≤ i ∧ i < n → ∃ f, (treeView ents file n).file i = some f ∧ f.nlink ≠ 0 := by
    rintro i (rfl | hi)
    · exact ⟨_, file_root, show (1 : UInt16) ≠ 0 by decide⟩
    · exact ⟨_, file_file hi htype.1, hlink⟩
  refine ⟨⟨fun d f hf hd => ?_, fun i hi => ?_, fun i hi f hf h0 => ?_, fun i hi => ?_⟩, fun i hi => ?_⟩
  · rw [hfile] at hf
    rw [(hroot d f hf hd).2]
    exact hlen
  · change i < 200
    have := hnamed i hi
    omega
  · obtain ⟨g, hg, hne⟩ := hsome i (hnamed i hi)
    rw [hfile, hg] at hf
    cases hf
    exact absurd h0 hne
  · obtain ⟨k, hk, rfl⟩ := refsOf_pos hi
    obtain ⟨g, hg, -⟩ := hsome _ (ht k hk)
    rw [hfile]
    change (treeView ents file n).file (t k).inum ≠ none
    rw [hg]
    simp
  · obtain ⟨g, hg, -⟩ := hsome i (hnamed i hi)
    rw [hfile, hg]
    simp

end

theorem tree_busyState {n : Nat} (hn : n ≤ NINODE) : Tree mkfsSuper (files mkfsSuper (busyState n)) := by
  have hcontent : dirents ((treeView fileEntry emptyFile 52).content 1) = [some ([97], 2)] := by decide +kernel
  refine tree_treeState (by decide) (by decide +kernel) (fun key i hm => ?_) (by decide) (by decide) fun k hk => ?_
  · rw [hcontent] at hm
    obtain ⟨-, rfl⟩ : key = [97] ∧ i = 2 := by simpa using hm
    exact .inr (by decide)
  · unfold busyTable at hk ⊢
    unfold NINODE at hn
    split
    · exact .inl rfl
    rename_i h0
    rw [if_neg h0] at hk
    split at hk
    · rename_i hlt
      rw [if_pos hlt]
      exact .inr (by dsimp only; omega)
    · cases hk

theorem path_resolution_file : Good mkfsSuper (busyState 1) ∧ Tree mkfsSuper (files mkfsSuper (busyState 1)) ∧
    ∃ r s', (namei mkfsSuper 0 [47, 97] []).run seq (busyState 1) = .ok (r, s') ∧ Good mkfsSuper s' := by
  have hg : Good mkfsSuper (busyState 1) := good_busyState (by decide)
  have ht : Tree mkfsSuper (files mkfsSuper (busyState 1)) := tree_busyState (by decide)
  have hcwd : 0 < ((busyState 1).itable 0).ref := by decide
  obtain ⟨⟨r, s', hrun, hgood, -⟩, -⟩ := path_resolution hg ht hcwd (by decide) [47, 97] []
  exact ⟨hg, ht, r, s', hrun, hgood⟩

theorem namei_table_full : Good mkfsSuper (busyState NINODE) ∧ Tree mkfsSuper (files mkfsSuper (busyState NINODE)) ∧
    0 < ((busyState NINODE).itable 0).ref ∧
    (namei mkfsSuper 0 [47, 97] []).run seq (busyState NINODE) = .error "iget: no inodes" :=
  ⟨good_busyState (Nat.le_refl _), tree_busyState (Nat.le_refl _), by decide, panicOf_eq_some (by decide +kernel)⟩

end Xv6.Fs
