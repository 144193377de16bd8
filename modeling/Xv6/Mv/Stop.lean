import Xv6.Mv.Calls

/-!
# `move` returns

Each call of `move` inside another one has a longer path as its destination, since a directory has been made there, and the
kernel takes no path of `MAXPATH` bytes. A directory has no more entries than fit into a file, also while it grows. So the
recursion and the loop in it come to an end in every tree, wherever the directories lie.
-/

open Function (update update_self update_idem)

namespace Xv6.Mv

open Prog (perform Sat sat_bind sat_pure Within within_pure)
open Fs (slash dot dotdot NOFILE T_DIR elems)
open Option World

namespace World

/-- The tree is in order and the descriptors are those of `w`. -/
def Kept (w w' : World) : Prop := w'.Ok ∧ w'.fds = w.fds

section
variable {w w1 w' : World} {path old new : Path} {α : Type} {f : World → Option (α × World)}

theorem Ok.tick (h : w.Ok) : w.tick.Ok := ⟨h.room, h.linked⟩

theorem Ok.kept (h : w.Ok) : w.Kept w := ⟨h, rfl⟩

theorem Kept.trans (h : w.Kept w1) (h' : w1.Kept w') : w.Kept w' := ⟨h'.1, h'.2.trans h.2⟩

theorem attempt_cases (w : World) (f : World → Option (α × World)) :
    w.attempt f = (none, w.tick) ∨ ∃ a w', f w.tick = some (a, w') ∧ w.attempt f = (some a, w') := by
  unfold attempt
  split
  · exact .inl rfl
  · split
    · rename_i a w' h
      exact .inr ⟨a, w', h, rfl⟩
    · exact .inl rfl

theorem Ok.kept_tick (h : w.Ok) : w.Kept w.tick := ⟨h.tick, rfl⟩

theorem attempt_unit (w : World) (g : World → Option World) :
    w.attempt (fun w => (g w).map ((), ·)) = (none, w.tick) ∨
      ∃ w', g w.tick = some w' ∧ w.attempt (fun w => (g w).map ((), ·)) = (some (), w') := by
  rcases w.attempt_cases fun w => (g w).map ((), ·) with he | ⟨a, w', hm, he⟩
  · exact .inl he
  · obtain ⟨w1, hw1, hp⟩ := map_eq_some_iff.1 hm
    cases hp
    exact .inr ⟨w', hw1, he⟩

theorem tryMkdir_cases (w : World) (path : Path) :
    w.tryMkdir path = (false, w.tick) ∨ ∃ w', w.tick.mkdir path = some w' ∧ w.tryMkdir path = (true, w') := by
  unfold tryMkdir
  rcases w.attempt_unit fun w => w.mkdir path with he | ⟨w', hm, he⟩
  · exact .inl (by rw [he]; rfl)
  · exact .inr ⟨w', hm, by rw [he]; rfl⟩

theorem tryLink_cases (w : World) (old new : Path) :
    w.tryLink old new = (false, w.tick) ∨ ∃ w', w.tick.link old new = some w' ∧ w.tryLink old new = (true, w') := by
  unfold tryLink
  rcases w.attempt_unit fun w => w.link old new with he | ⟨w', hm, he⟩
  · exact .inl (by rw [he]; rfl)
  · exact .inr ⟨w', hm, by rw [he]; rfl⟩

theorem Ok.tryLink (h : w.Ok) (old new : Path) : w.Kept (w.tryLink old new).2 := by
  rcases w.tryLink_cases old new with he | ⟨w', hl, he⟩
  · rw [he]
    exact h.kept_tick
  · rw [he]
    exact h.tick.link hl

theorem unlink_error {m : String} (h : w.unlink path = .error m) : m ≠ "out of fuel" := by
  unfold unlink at h
  split at h
  · cases h
  split at h
  · cases h
  split at h
  · cases h
  split at h
  · cases h
    decide
  split at h
  · cases h
    decide
  · split at h
    · cases h
      decide
    · cases h

end

end World

/-! ## Rules for the calls -/

def Stopped (m : String) : Prop := m ≠ "out of fuel"

section
variable {w : World} {X : String → Prop} {path : Path} {fd : Nat}

theorem sat_mkdir {Q : Bool → World → Prop} :
    Sat sys (perform (.mkdir path)) w Q X ↔ Q (w.tryMkdir path).1 (w.tryMkdir path).2 := Iff.rfl

theorem sat_link {old new : Path} {Q : Bool → World → Prop} :
    Sat sys (perform (.link old new)) w Q X ↔ Q (w.tryLink old new).1 (w.tryLink old new).2 := Iff.rfl

theorem sat_open {Q : Option Nat → World → Prop} :
    Sat sys (perform (.open path)) w Q X ↔
      Q (w.attempt fun w => w.openFile path).1 (w.attempt fun w => w.openFile path).2 := Iff.rfl

theorem sat_read {Q : Option (Option (Name × Nat)) → World → Prop} :
    Sat sys (perform (.read fd)) w Q X ↔
      Q (w.attempt fun w => w.readEntry fd).1 (w.attempt fun w => w.readEntry fd).2 := Iff.rfl

theorem sat_close {Q : Unit → World → Prop} : Sat sys (perform (.close fd)) w Q X ↔ Q () (w.closeFile fd) := Iff.rfl

theorem sat_fstat {Q : Option UInt16 → World → Prop} : Sat sys (perform (.fstat fd)) w Q X ↔ Q (w.fstat fd) w := Iff.rfl

theorem sat_below {Q : UInt8 → World → Prop} : Sat sys (perform .below) w Q X ↔ Q w.below w := Iff.rfl

theorem sat_pop {Q : Unit → World → Prop} : Sat sys (perform .pop) w Q X ↔ Q () { w with stack := w.stack + 1 } := Iff.rfl

theorem push_spec : Sat sys (perform .push) w (fun _ w' => ∃ n, w' = { w with stack := n }) Stopped := by
  rw [Prog.sat_perform, show sys Unit .push w = w.push from rfl, push]
  cases w.stack with
  | zero => exact show "killed" ≠ "out of fuel" by decide
  | succ n => exact ⟨n, rfl⟩

theorem unlink_kept (h : w.Ok) : Sat sys (perform (.unlink path)) w (fun _ w' => w.Kept w') Stopped := by
  rw [Prog.sat_perform, show sys Bool (.unlink path) w = w.tryUnlink path from rfl, tryUnlink]
  by_cases hf : w.faults.headD false = true
  · rw [if_pos hf]
    exact h.kept_tick
  rw [if_neg hf]
  cases hu : w.tick.unlink path with
  | error m => exact unlink_error hu
  | ok r =>
    cases r with
    | none => exact h.kept_tick
    | some w' => exact h.tick.unlink hu

theorem joinpath_kept {dir filename : Path} (h : w.Ok) :
    Sat sys (joinpath dir filename) w (fun _ w' => w.Kept w') X := by
  unfold joinpath
  split
  · exact ⟨⟨h.room, h.linked⟩, rfl⟩
  · exact h.kept

theorem entryName_kept {name : Name} (h : w.Ok) : Sat sys (entryName name) w (fun _ w' => w.Kept w') X := by
  unfold entryName
  split
  · exact h.kept
  · exact ⟨⟨h.room, h.linked⟩, rfl⟩

theorem isdir_within (h : w.Ok) : Within sys (isdir path) w (fun w' => w'.node = w.node) fun b w' =>
    (∃ l, w' = { w with faults := l }) ∧ (b = true → (∃ i, w.namei path = some i ∧ w.isDir i = true) ∧ w.fdFree ≠ none) := by
  rcases w.attempt_cases fun w => w.openFile path with he | ⟨fd, w1, ho, he⟩
  · refine Within.call (congrArg Except.ok he) rfl (within_pure rfl ⟨⟨_, rfl⟩, fun e => by cases e⟩)
  obtain ⟨i, n, hi, hn, hfd, rfl⟩ := openFile_eq ho
  refine Within.call (congrArg Except.ok he) rfl (Within.call rfl rfl (Within.call rfl rfl (within_pure ?_ ?_)))
  · rw [h.tick.close_open hfd]
    rfl
  · refine ⟨⟨_, h.tick.close_open hfd⟩, fun e => ⟨⟨i, hi, ?_⟩, fun hnone => by cases hfd.symm.trans hnone⟩⟩
    have hn' : w.node i = some n := hn
    simp only [fstat, setFd, update_self, bind_some, hn, map_some, some.injEq,
      decide_eq_true_eq] at e
    rw [isDir_iff hn', e]

end

/-! ## Paths grow -/

section
variable {w w' : World} {path dir name : Path} {below : UInt8} {i : Nat}

theorem World.length_of_namei (h : w.namei path = some i) : path.length < MAXPATH ∧ w.target path = some i := by
  unfold namei at h
  split at h
  · exact ⟨‹_›, h⟩
  · cases h

theorem joined_cases (below : UInt8) (dir name : Path) :
    joined below dir name = dir ∨ dir.length < (joined below dir name).length := by
  unfold joined
  split
  · cases name with
    | nil => exact .inl (by simp)
    | cons c name => exact .inr (by simp)
  · exact .inr (by simp)

theorem World.mkdir_of_namei (h : w.namei path = some i) : w.mkdir path = none := by
  obtain ⟨hlen, htarget⟩ := length_of_namei h
  unfold mkdir nameiparent
  rw [if_pos hlen]
  cases hp : Walk.walkParent w.child w.isDir (w.start path) (elems path) with
  | none => rfl
  | some p =>
    have hc : w.child p.1 p.2 = some i := by
      rw [← Walk.walk_of_walkParent hp]
      exact htarget
    simp only [bind_some, hc, isSome_some, if_true]

theorem filename_fits {src dst : Path} (hsrc : src.length < MAXPATH) (hdst : dst.length < MAXPATH) :
    ¬ MAX_PATH_LEN < dst.length + 1 + (getFilename src).length + 1 := by
  have hname : (getFilename src).length ≤ src.length := (List.rtakeWhile_suffix _ _).length_le
  simp only [MAX_PATH_LEN, MAXPATH] at *
  omega

theorem length_lt_of_mkdir (h : w.namei dir = some i) (hm : w.mkdir (joined below dir name) = some w') :
    dir.length < (joined below dir name).length := by
  rcases joined_cases below dir name with he | hlt
  · rw [he, mkdir_of_namei h] at hm
    cases hm
  · exact hlt

end

/-! ## The loop and the recursion -/

section
variable {w : World} {src dst newDst : Path} {shouldDelete : Bool} {mv : Path → Path → P Bool} {fd i off fuel : Nat}

theorem moveEntries_stops (hmv : ∀ src w, w.Ok → Sat sys (mv src newDst) w (fun _ w' => w.Kept w') Stopped) (h : w.Ok)
    (hfd : w.fds fd = some (i, off)) (hoff : off ≤ MAXSLOTS) (hfuel : MAXSLOTS < fuel + off) :
    Sat sys (moveEntries mv src newDst fd fuel) w
      (fun _ w' => w'.Ok ∧ ∃ off', w'.fds = update w.fds fd (some (i, off'))) Stopped := by
  induction fuel generalizing w off with
  | zero => omega
  | succ fuel ih =>
    simp only [moveEntries, sat_bind, sat_read]
    have hself : w.fds = update w.fds fd (some (i, off)) := (Function.update_eq_self_iff.2 hfd.symm).symm
    rcases w.attempt_cases fun w => w.readEntry fd with he | ⟨slot, w1, hr, he⟩
    · rw [he]
      exact ⟨h.tick, off, hself⟩
    obtain ⟨i', off', n, hfd', hn, hslot, rfl⟩ := readEntry_eq hr
    cases hfd.symm.trans hfd'
    rw [he]
    have hlt : off < MAXSLOTS := lt_of_lt_of_le (List.getElem?_eq_some_iff.1 hslot).1 (h.room i n hn)
    have hok : (w.tick.setFd fd (some (i, off + 1))).Ok := h.tick.setFd fun j hj => by
      rw [hfd'] at hj
      exact hj
    -- the rest of the loop, from a state with the descriptors of this one
    have hrest : ∀ w2 : World, (w.tick.setFd fd (some (i, off + 1))).Kept w2 →
        Sat sys (moveEntries mv src newDst fd fuel) w2
          (fun _ w' => w'.Ok ∧ ∃ off', w'.fds = update w.fds fd (some (i, off'))) Stopped := by
      rintro w2 ⟨h2, hfds⟩
      refine (ih h2 (by rw [hfds]; exact update_self ..) (by omega) (by omega)).mono ?_
      rintro _ w' ⟨h', off', hw'⟩
      refine ⟨h', off', ?_⟩
      rw [hw', hfds]
      exact update_idem ..
    cases slot with
    | none => exact hrest _ hok.kept
    | some e =>
      obtain ⟨name, inum⟩ := e
      dsimp only
      split
      · exact hrest _ hok.kept
      simp only [sat_bind]
      refine (entryName_kept hok).mono fun itemName w2 h2 => ?_
      refine (joinpath_kept h2.1).mono fun itemSrc w3 h3 => ?_
      refine push_spec.mono ?_
      rintro _ w4 ⟨n4, rfl⟩
      have hok4 : ({ w3 with stack := n4 } : World).Ok := ⟨h3.1.room, h3.1.linked⟩
      refine (hmv itemSrc _ hok4).mono fun moved w5 h5 => ?_
      have h6 : (w.tick.setFd fd (some (i, off + 1))).Kept { w5 with stack := w5.stack + 1 } :=
        ⟨⟨h5.1.room, h5.1.linked⟩, (h5.2.trans h3.2).trans h2.2⟩
      cases moved with
      | true => exact hrest _ h6
      | false => exact ⟨h6.1, off + 1, h6.2⟩

theorem moveFile_kept (h : w.Ok) : Sat sys (moveFile src dst shouldDelete) w (fun _ w' => w.Kept w') Stopped := by
  simp only [moveFile, sat_bind]
  refine (joinpath_kept h).mono fun newDst w1 h1 => ?_
  rw [sat_link]
  have h2 := h1.trans (h1.1.tryLink src newDst)
  split
  · split
    · rw [sat_bind]
      refine (unlink_kept h2.1).mono fun b w3 h3 => ?_
      split
      · exact h2.trans h3
      · rw [sat_bind]
        refine (unlink_kept h3.1).mono fun _ w4 h4 => ?_
        exact (h2.trans h3).trans h4
    · exact h2
  · exact h2

theorem moveDir_stops (h : w.Ok) (hdst : w.namei dst = some i) (hsrc : src.length < MAXPATH) (hfuel : MAXSLOTS < fuel)
    (hmv : ∀ newDst src w, dst.length < newDst.length → w.Ok → Sat sys (mv src newDst) w (fun _ w' => w.Kept w') Stopped) :
    Sat sys (moveDir mv fuel src dst shouldDelete) w (fun _ w' => w.Kept w') Stopped := by
  simp only [moveDir, sat_bind, joinpath, if_neg (filename_fits hsrc (length_of_namei hdst).1), sat_below, sat_pure,
    sat_mkdir]
  rcases w.tryMkdir_cases (joined w.below dst (getFilename src)) with he | ⟨w1, hm, he⟩
  · rw [he]
    exact h.kept_tick
  have hlong := length_lt_of_mkdir (w := w.tick) hdst hm
  have h1 : w.Kept w1 := h.tick.mkdir hm
  rw [he]
  simp only [if_true, sat_bind, sat_open]
  rcases w1.attempt_cases fun w => w.openFile src with he | ⟨fd, w2, ho, he⟩
  · rw [he]
    simp only [sat_bind]
    refine (unlink_kept h1.1.tick).mono fun _ w3 h3 => ?_
    exact h1.trans (h1.1.kept_tick.trans h3)
  · obtain ⟨i, n, hi, hn, hfd, rfl⟩ := openFile_eq ho
    have hnone := fdFree_none hfd
    rw [he]
    simp only [sat_bind]
    refine (moveEntries_stops (fun src w => hmv _ src w hlong) (h1.1.tick.openFd hfd) (update_self ..)
      (Nat.zero_le _) hfuel).mono ?_
    rintro moved w3 ⟨h3, off', hfds⟩
    rw [sat_close]
    have hclose := h3.closeFile (show w3.fds fd = some (i, off') by rw [hfds]; exact update_self ..)
    have h4 : w.Kept (w3.closeFile fd) := by
      refine ⟨hclose.1, ?_⟩
      rw [hclose.2, hfds, ← h1.2]
      simp only [setFd, update_idem]
      exact Function.update_eq_self_iff.2 hnone.symm
    split
    · split
      · exact (unlink_kept h4.1).mono fun _ w5 h5 => h4.trans h5
      · exact h4
    · rw [sat_bind]
      refine (unlink_kept h4.1).mono fun _ w5 h5 => ?_
      exact h4.trans h5

theorem move_stops (h : w.Ok) (hfuel : MAXSLOTS + (MAXPATH - dst.length) + 2 ≤ fuel) :
    Sat sys (move shouldDelete fuel src dst) w (fun _ w' => w.Kept w') Stopped := by
  induction fuel generalizing w src dst with
  | zero => omega
  | succ fuel ih =>
    simp only [move, sat_bind]
    refine (isdir_within h).2.any.mono ?_
    rintro b _ ⟨⟨l, rfl⟩, hb⟩
    have hl : ({ w with faults := l } : World).Ok := ⟨h.room, h.linked⟩
    have hkept : w.Kept { w with faults := l } := ⟨hl, rfl⟩
    split
    case isFalse => exact hkept
    case isTrue hb' =>
      obtain ⟨⟨i, hi, -⟩, -⟩ := hb hb'
      split
      · exact hkept
      rw [sat_bind]
      refine (isdir_within hl).2.any.mono ?_
      rintro b _ ⟨⟨l', rfl⟩, hb⟩
      have hl' : ({ w with faults := l' } : World).Ok := ⟨h.room, h.linked⟩
      split
      case isFalse => exact (moveFile_kept hl').mono fun _ w' h' => h'
      case isTrue hb' =>
        obtain ⟨⟨j, hj, -⟩, -⟩ := hb hb'
        have hdst := (length_of_namei hi).1
        refine (moveDir_stops hl' hi (length_of_namei hj).1 (by omega)
          ?_).mono fun _ w' h' => h'
        intro newDst src w' hlt h'
        exact ih h' (by omega)

end

end Xv6.Mv
