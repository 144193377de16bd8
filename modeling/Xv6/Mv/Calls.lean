import Xv6.Mv.Move

/-!
# What the calls keep

A tree is in order (`Ok`) if no directory is larger than a file can be and every inode without links is still referenced.
The calls keep it so. None of them but `open`, `close` and `read` changes a descriptor, and `isdir` changes nothing at all.
-/

namespace Xv6.Mv

open Prog (perform Sat sat_bind sat_pure)
open Fs (dot dotdot NOFILE T_DIR T_FILE T_DEVICE)

namespace World

/-- The inodes but `k` are in order. -/
structure OkBut (w : World) (k : Nat) : Prop where
  room : ∀ i n, w.node i = some n → n.body.slots.length ≤ MAXSLOTS
  linked : ∀ i n, i ≠ k → w.node i = some n → n.nlink = 0 → w.referenced i = true

structure Ok (w : World) : Prop where
  room : ∀ i n, w.node i = some n → n.body.slots.length ≤ MAXSLOTS
  linked : ∀ i n, w.node i = some n → n.nlink = 0 → w.referenced i = true

section
variable {w w' : World} {i j k d fd : Nat} {n : Node} {o : Option Node} {e : Name} {path old new : Path}

theorem isDir_iff (h : w.node i = some n) : w.isDir i = true ↔ n.body.type = T_DIR := by
  obtain ⟨m, body⟩ := n
  cases body with
  | dir slots => simp [isDir, h, Body.type]
  | file bytes => simp [isDir, h, Body.type, show T_FILE ≠ T_DIR by decide]
  | device major minor => simp [isDir, h, Body.type, show T_DEVICE ≠ T_DIR by decide]

theorem dir_of_isDir (h : w.isDir i = true) : ∃ m slots, w.node i = some ⟨m, .dir slots⟩ := by
  unfold isDir at h
  split at h
  case h_1 m slots hn => exact ⟨m, slots, hn⟩
  case h_2 => cases h

@[simp] theorem set_fds : (w.set i o).fds = w.fds := rfl

@[simp] theorem set_node_self : (w.set i o).node i = o := Function.update_self ..

theorem set_node_ne (h : j ≠ i) : (w.set i o).node j = w.node j := Function.update_of_ne h ..

@[simp] theorem referenced_set : (w.set i o).referenced j = w.referenced j := rfl

theorem reap_cases (w : World) (i : Nat) :
    w.reap i = w ∧ (∀ n, w.node i = some n → n.nlink = 0 → w.referenced i = true) ∨ w.reap i = w.set i none := by
  unfold reap
  split
  case h_1 n hn =>
    split
    case isTrue h => exact .inr rfl
    case isFalse h =>
      refine .inl ⟨rfl, fun n' hn' h0 => ?_⟩
      cases hn.symm.trans hn'
      exact eq_true_of_ne_false fun hr => h ⟨h0, hr⟩
  case h_2 hn => exact .inl ⟨rfl, fun n' hn' => by cases hn.symm.trans hn'⟩

@[simp] theorem reap_fds : (w.reap i).fds = w.fds := by
  rcases w.reap_cases i with ⟨h, -⟩ | h
  · rw [h]
  · rw [h, set_fds]

theorem Ok.reap_eq (h : w.Ok) : w.reap i = w := by
  unfold reap
  split
  case h_1 n hn =>
    rw [if_neg]
    rintro ⟨h0, hr⟩
    rw [h.linked i n hn h0] at hr
    cases hr
  case h_2 => rfl

theorem Ok.but (h : w.Ok) (k : Nat) : w.OkBut k := ⟨h.room, fun i n _ => h.linked i n⟩

theorem OkBut.reap (h : w.OkBut k) : (w.reap k).Ok := by
  rcases w.reap_cases k with ⟨heq, hk⟩ | heq
  · rw [heq]
    refine ⟨h.room, fun i n hn h0 => ?_⟩
    by_cases hik : i = k
    · subst hik
      exact hk n hn h0
    · exact h.linked i n hik hn h0
  · rw [heq]
    have hset : ∀ i n, (w.set k none).node i = some n → i ≠ k ∧ w.node i = some n := by
      intro i n hn
      by_cases hik : i = k
      · subst hik
        simp at hn
      · rw [set_node_ne hik] at hn
        exact ⟨hik, hn⟩
    exact ⟨fun i n hn => h.room i n (hset i n hn).2, fun i n hn h0 => h.linked i n (hset i n hn).1 (hset i n hn).2 h0⟩

theorem OkBut.set (i : Nat) (m : UInt16) {body : Body} (h : w.OkBut k) (hn : body.slots.length ≤ MAXSLOTS)
    (hk : i ≠ k → m = 0 → w.referenced i = true) : (w.set i (some ⟨m, body⟩)).OkBut k := by
  constructor
  · intro j n hj
    by_cases hji : j = i
    · subst hji
      simp only [set_node_self, Option.some.injEq] at hj
      exact hj ▸ hn
    · rw [set_node_ne hji] at hj
      exact h.room j n hj
  · intro j n hjk hj h0
    by_cases hji : j = i
    · subst hji
      simp only [set_node_self, Option.some.injEq] at hj
      subst hj
      exact hk hjk h0
    · rw [set_node_ne hji] at hj
      exact h.linked j n hjk hj h0

/-! ## `link`, `mkdir`, `unlink` -/

theorem length_of_addEntry {slots slots' : List (Option (Name × Nat))} (h : addEntry e i slots = some slots') :
    slots'.length ≤ MAXSLOTS := by
  simp only [addEntry] at h
  split at h
  · cases h
    assumption
  · cases h

theorem length_clear (e : Name) (slots : List (Option (Name × Nat))) : (clear e slots).length = slots.length := by
  induction slots with
  | nil => rfl
  | cons x t ih =>
    cases x with
    | none => simp [clear, ih]
    | some x =>
      unfold clear
      split
      · rfl
      · simp [ih]

theorem Ok.linkAt (h : w.Ok) (hl : w.linkAt i d e = some w') : w'.Ok ∧ w'.fds = w.fds := by
  unfold World.linkAt at hl
  split at hl
  case h_1 m body nd slots hi hd =>
    obtain ⟨slots', hs, rfl⟩ := Option.map_eq_some_iff.1 hl
    have hi' := (h.but i).set i (m + 1) (h.room i _ hi) fun hne => absurd rfl hne
    exact ⟨(hi'.set d nd (length_of_addEntry hs) fun _ h0 => h.linked d _ hd h0).reap, by simp⟩
  case h_2 => cases hl

theorem Ok.link (h : w.Ok) (hl : w.link old new = some w') : w'.Ok ∧ w'.fds = w.fds := by
  obtain ⟨i, -, hl⟩ := Option.bind_eq_some_iff.1 hl
  split at hl
  · cases hl
  · obtain ⟨⟨d, e⟩, -, hl⟩ := Option.bind_eq_some_iff.1 hl
    split at hl
    · cases hl
    · exact h.linkAt hl

theorem Ok.mkdirAt (h : w.Ok) (hm : w.mkdirAt i d e = some w') : w'.Ok ∧ w'.fds = w.fds := by
  unfold World.mkdirAt at hm
  split at hm
  case h_1 nd slots hd =>
    obtain ⟨slots', hs, rfl⟩ := Option.map_eq_some_iff.1 hm
    have htwo : (Body.dir [some (dot, i), some (dotdot, d)]).slots.length ≤ MAXSLOTS := show 2 ≤ MAXSLOTS by decide
    have hi := (h.but d).set i 1 htwo fun _ h0 => absurd h0 (by decide)
    exact ⟨(hi.set d (nd + 1) (length_of_addEntry hs) fun hne => absurd rfl hne).reap, by simp⟩
  case h_2 => cases hm

theorem Ok.mkdir (h : w.Ok) (hm : w.mkdir path = some w') : w'.Ok ∧ w'.fds = w.fds := by
  obtain ⟨⟨d, e⟩, -, hm⟩ := Option.bind_eq_some_iff.1 hm
  split at hm
  · cases hm
  · obtain ⟨i, -, hm⟩ := Option.bind_eq_some_iff.1 hm
    exact h.mkdirAt hm

theorem Ok.unlinkAt (h : w.Ok) (hu : w.unlinkAt i d e = some w') : w'.Ok ∧ w'.fds = w.fds := by
  unfold World.unlinkAt at hu
  split at hu
  case h_1 m body nd slots hi hd =>
    split at hu
    · cases hu
      have hlen : (Body.dir (clear e slots)).slots.length ≤ MAXSLOTS := by
        change (clear e slots).length ≤ MAXSLOTS
        rw [length_clear]
        exact h.room d _ hd
      have hd' := ((h.but d).set d (if body.type = T_DIR then nd - 1 else nd) hlen fun hne => absurd rfl hne).reap
      exact ⟨((hd'.but i).set i (m - 1) (h.room i _ hi) fun hne => absurd rfl hne).reap, by simp⟩
    · cases hu
  case h_2 => cases hu

theorem Ok.unlink (h : w.Ok) (hu : w.unlink path = .ok (some w')) : w'.Ok ∧ w'.fds = w.fds := by
  unfold World.unlink at hu
  split at hu
  · cases hu
  split at hu
  · cases hu
  split at hu
  · cases hu
  split at hu
  · cases hu
  · split at hu
    · cases hu
    · split at hu
      · cases hu
      · exact h.unlinkAt (Except.ok.inj hu)

/-! ## Descriptors -/

theorem fdFree_none (h : w.fdFree = some fd) : w.fds fd = none := by
  have := List.find?_some h
  simpa using this

theorem referenced_iff :
    w.referenced i = true ↔ w.cwd = i ∨ w.held i = true ∨ ∃ fd < NOFILE, (w.fds fd).map Prod.fst = some i := by
  simp only [referenced, Bool.or_eq_true, decide_eq_true_eq, List.any_eq_true, List.mem_range, or_assoc]

theorem referenced_setFd {v : Option (Nat × Nat)} (hr : w.referenced j = true)
    (hv : (w.fds fd).map Prod.fst = some j → v.map Prod.fst = some j) : (w.setFd fd v).referenced j = true := by
  rw [referenced_iff] at hr ⊢
  refine hr.imp_right (Or.imp_right ?_)
  rintro ⟨fd', hlt, hfd⟩
  refine ⟨fd', hlt, ?_⟩
  by_cases h : fd' = fd
  · subst h
    simpa [setFd] using hv hfd
  · simpa [setFd, h] using hfd

theorem Ok.setFd {v : Option (Nat × Nat)} (h : w.Ok) (hv : ∀ j, (w.fds fd).map Prod.fst = some j → v.map Prod.fst = some j) :
    (w.setFd fd v).Ok :=
  ⟨h.room, fun j n hn h0 => referenced_setFd (h.linked j n hn h0) (hv j)⟩

theorem openFile_eq (h : w.openFile path = some (fd, w')) :
    ∃ i n, w.namei path = some i ∧ w.node i = some n ∧ w.fdFree = some fd ∧ w' = w.setFd fd (some (i, 0)) := by
  obtain ⟨i, hi, h⟩ := Option.bind_eq_some_iff.1 h
  obtain ⟨n, hn, h⟩ := Option.bind_eq_some_iff.1 h
  split at h
  · obtain ⟨fd', hfd, he⟩ := Option.map_eq_some_iff.1 h
    cases he
    exact ⟨i, n, hi, hn, hfd, rfl⟩
  · cases h

theorem Ok.openFd (h : w.Ok) (hfd : w.fdFree = some fd) : (w.setFd fd (some (i, 0))).Ok :=
  h.setFd fun j hj => by simp [fdFree_none hfd] at hj

theorem Ok.closeFile (h : w.Ok) (hfd : w.fds fd = some (i, k)) :
    (w.closeFile fd).Ok ∧ (w.closeFile fd).fds = Function.update w.fds fd none := by
  unfold World.closeFile
  rw [hfd]
  refine ⟨OkBut.reap ⟨h.room, fun j n hj hn h0 => ?_⟩, by rw [reap_fds]; rfl⟩
  refine referenced_setFd (h.linked j n hn h0) fun hj' => ?_
  rw [hfd] at hj'
  exact absurd (Option.some.inj hj').symm hj

theorem Ok.close_open (h : w.Ok) (hfd : w.fdFree = some fd) : (w.setFd fd (some (i, 0))).closeFile fd = w := by
  have hw : (w.setFd fd (some (i, 0))).setFd fd none = w := by
    unfold World.setFd
    simp only [Function.update_idem]
    rw [Function.update_eq_self_iff.2 (fdFree_none hfd).symm]
  unfold World.closeFile
  simp only [World.setFd, Function.update_self]
  change ((w.setFd fd (some (i, 0))).setFd fd none).reap i = w
  rw [hw, h.reap_eq]

theorem readEntry_eq {slot : Option (Name × Nat)} (h : w.readEntry fd = some (slot, w')) :
    ∃ i off n, w.fds fd = some (i, off) ∧ w.node i = some n ∧ n.body.slots[off]? = some slot ∧
      w' = w.setFd fd (some (i, off + 1)) := by
  obtain ⟨⟨i, off⟩, hfd, h⟩ := Option.bind_eq_some_iff.1 h
  obtain ⟨n, hn, h⟩ := Option.bind_eq_some_iff.1 h
  obtain ⟨slot', hs, he⟩ := Option.map_eq_some_iff.1 h
  cases he
  exact ⟨i, off, n, hfd, hn, hs, rfl⟩

end

end World

end Xv6.Mv
