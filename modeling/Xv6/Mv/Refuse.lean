import Xv6.Mv.Stop

/-!
# Moving a directory into itself

`move` compares the spellings of its paths, made alike only at their ends (`normalizePath`). If the destination lies inside
the source and this test does not see it, `move` makes a directory there and starts to move the source into it. So a move
into itself is refused without a change of the tree exactly if the spellings show it or the first call of `mkdir` cannot
succeed. That the recursion ends has nothing to do with it.
-/

namespace Xv6.Mv

open Prog (perform Sat sat_bind sat_pure Within within_pure panicOf)
open Fs (slash dot dotdot T_DIR T_FILE)
open List Option World

namespace World

/-- The directory `d` is `s` or lies below it. -/
def Below (w : World) (s d : Nat) : Prop :=
  ∃ es : List Name, (∀ e ∈ es, e ≠ dot ∧ e ≠ dotdot) ∧ Walk.walk w.child s es = some d

def Inside (w : World) (src dst : Path) : Prop :=
  ∃ s d, w.target src = some s ∧ w.target dst = some d ∧ w.isDir s = true ∧ w.isDir d = true ∧ w.Below s d

def CanMake (w : World) (path : Path) : Prop :=
  ∃ d e m slots, w.nameiparent path = some (d, e) ∧ w.child d e = none ∧ w.node d = some ⟨m, .dir slots⟩ ∧
    (none ∈ slots ∨ slots.length < MAXSLOTS) ∧ w.ialloc ≠ none

end World

/-- The source can be opened, and the directory for it made at the destination. -/
structure Starts (w : World) (src dst : Path) : Prop where
  src_lt : src.length < MAXPATH
  dst_lt : dst.length < MAXPATH
  fd : w.fdFree ≠ none
  make : w.CanMake (joined w.below dst (getFilename src))

/-- `move` returns -1, and the tree is never another one, whichever calls fail. -/
def Refuses (shouldDelete : Bool) (w : World) (src dst : Path) : Prop :=
  ∀ faults, ∃ n, ∀ fuel ≥ n, Within sys (move shouldDelete fuel src dst) { w with faults := faults }
    (fun w' => w'.node = w.node) fun moved _ => moved = false

/-- The recursion comes to an end, whichever calls fail. -/
def Ends (shouldDelete : Bool) (w : World) (src dst : Path) : Prop :=
  ∀ faults, ∃ n, ∀ fuel ≥ n,
    panicOf ((move shouldDelete fuel src dst).run sys { w with faults := faults }) ≠ some "out of fuel"

section
variable {w w' : World} {src dst path new : Path} {shouldDelete : Bool} {fuel s : Nat}

/-! ## Making a directory -/

theorem length_insert {t : List (Option (Name × Nat))} {e : Name × Nat} :
    (Slots.insert e t).length = if none ∈ t then t.length else t.length + 1 := by
  induction t with
  | nil => rfl
  | cons x t ih =>
    cases x with
    | none => simp [Slots.insert]
    | some x =>
      simp only [Slots.insert, length_cons, ih, mem_cons, reduceCtorEq, false_or]
      split <;> rfl

theorem World.Ok.addEntry_isSome {slots : List (Option (Name × Nat))} {d i : Nat} {e : Name} {m : UInt16} (h : w.Ok)
    (hd : w.node d = some ⟨m, .dir slots⟩) :
    (addEntry e i slots).isSome = true ↔ none ∈ slots ∨ slots.length < MAXSLOTS := by
  have hroom : slots.length ≤ MAXSLOTS := h.room d _ hd
  simp only [addEntry, length_insert]
  by_cases hn : none ∈ slots
  · simp [hn, hroom]
  · by_cases hl : slots.length < MAXSLOTS
    · simp [hn, hl, Nat.succ_le_of_lt hl]
    · simp [hn, hl, show MAXSLOTS < slots.length + 1 by omega]

theorem World.Ok.mkdir_of_canMake (h : w.Ok) (hc : w.CanMake path) : ∃ w', w.mkdir path = some w' ∧ w'.node ≠ w.node := by
  obtain ⟨d, e, m, slots, hp, hnone, hd, hroom, hi⟩ := hc
  obtain ⟨i, hi⟩ := ne_none_iff_exists'.1 hi
  obtain ⟨slots', hs⟩ := isSome_iff_exists.1 ((h.addEntry_isSome (e := e) (i := i) hd).2 hroom)
  have hfree : w.node i = none := by
    have := find?_some hi
    simp only [Bool.and_eq_true, isNone_iff_eq_none] at this
    exact this.2
  have hne : i ≠ d := by
    rintro rfl
    cases hfree.symm.trans hd
  refine ⟨((w.set i (some ⟨1, .dir [some (dot, i), some (dotdot, d)]⟩)).set d (some ⟨m + 1, .dir slots'⟩)).reap d, ?_,
    fun hnode => ?_⟩
  · simp only [World.mkdir, hp, bind_some, hnone, isSome_none, Bool.false_eq_true, if_false, hi]
    simp only [World.mkdirAt, hd, hs, map_some]
  have hat := congrFun hnode i
  rw [hfree] at hat
  rcases reap_cases ((w.set i (some ⟨1, .dir [some (dot, i), some (dotdot, d)]⟩)).set d (some ⟨m + 1, .dir slots'⟩)) d
    with ⟨he, -⟩ | he
  · rw [he, set_node_ne hne, set_node_self] at hat
    cases hat
  · rw [he, set_node_ne hne, set_node_ne hne, set_node_self] at hat
    cases hat

theorem World.Ok.canMake_of_mkdir (h : w.Ok) (hm : w.mkdir path = some w') : w.CanMake path := by
  obtain ⟨⟨d, e⟩, hp, hm⟩ := bind_eq_some_iff.1 hm
  split at hm
  case isTrue => cases hm
  case isFalse hnone =>
    obtain ⟨i, hi, hm⟩ := bind_eq_some_iff.1 hm
    unfold World.mkdirAt at hm
    split at hm
    case h_2 => cases hm
    case h_1 m slots hd =>
      obtain ⟨slots', hs, -⟩ := map_eq_some_iff.1 hm
      refine ⟨d, e, m, slots, hp, by simpa using hnone, hd, (h.addEntry_isSome hd).1 (by rw [hs]; rfl), ?_⟩
      exact fun hnone => by cases hi.symm.trans hnone

/-! ## The calls before the first change -/

theorem joinpath_within {dir name : Path} : Within sys (joinpath dir name) w (fun w' => w'.node = w.node) fun path w' =>
    (∃ l, w' = { w with stray := l }) ∧ (¬ MAX_PATH_LEN < dir.length + 1 + name.length + 1 → path = joined w.below dir name) := by
  unfold joinpath
  split
  case isTrue h =>
    exact Within.call rfl rfl (within_pure rfl ⟨⟨_, rfl⟩, fun hfit => absurd h hfit⟩)
  case isFalse h => exact Within.call rfl rfl (within_pure rfl ⟨⟨_, rfl⟩, fun _ => rfl⟩)

theorem World.tryLink_of_isDir (h : ∀ i, w.namei src = some i → w.isDir i = true) : w.tryLink src new = (false, w.tick) := by
  rcases w.tryLink_cases src new with he | ⟨w', hl, -⟩
  · exact he
  · obtain ⟨i, hi, hl⟩ := bind_eq_some_iff.1 hl
    rw [show w.tick.isDir i = true from h i hi] at hl
    cases hl

theorem moveFile_refuses (h : ∀ i, w.namei src = some i → w.isDir i = true) :
    Within sys (moveFile src dst shouldDelete) w (fun w' => w'.node = w.node) fun moved _ => moved = false := by
  refine joinpath_within.bind ?_
  rintro newDst _ ⟨⟨l, rfl⟩, -⟩
  exact Within.call (congrArg Except.ok (tryLink_of_isDir h)) rfl (within_pure rfl rfl)

theorem moveDir_refuses {mv : Path → Path → P Bool} (h : w.Ok) (hsrc : src.length < MAXPATH) (hdst : dst.length < MAXPATH)
    (hmake : ¬ w.CanMake (joined w.below dst (getFilename src))) :
    Within sys (moveDir mv fuel src dst shouldDelete) w (fun w' => w'.node = w.node) fun moved _ => moved = false := by
  refine joinpath_within.bind ?_
  rintro newDst _ ⟨⟨l, rfl⟩, hnew⟩
  obtain rfl := hnew (filename_fits hsrc hdst)
  have hl : ({ w with stray := l } : World).Ok := ⟨h.room, h.linked⟩
  rcases tryMkdir_cases { w with stray := l } (joined w.below dst (getFilename src)) with he | ⟨w', hm, -⟩
  · exact Within.call (congrArg Except.ok he) rfl (within_pure rfl rfl)
  · exact absurd (hl.tick.canMake_of_mkdir hm) hmake

theorem move_refuses (h : w.Ok) (hin : w.Inside src dst) (hc : insideSrc src dst = true ∨ ¬ Starts w src dst) :
    Within sys (move shouldDelete (fuel + 1) src dst) w (fun w' => w'.node = w.node) fun moved _ => moved = false := by
  obtain ⟨s, d, hs, -, hsdir, -, -⟩ := hin
  refine (isdir_within h).bind ?_
  rintro b _ ⟨⟨l, rfl⟩, hb⟩
  cases b with
  | false => exact within_pure rfl rfl
  | true =>
    obtain ⟨⟨d, hd, -⟩, hfd⟩ := hb rfl
    have hl : ({ w with faults := l } : World).Ok := ⟨h.room, h.linked⟩
    simp only [if_true]
    split
    case isTrue => exact within_pure rfl rfl
    case isFalse hspell =>
      refine (isdir_within hl).bind ?_
      rintro b _ ⟨⟨l', rfl⟩, hb⟩
      have hl' : ({ w with faults := l' } : World).Ok := ⟨h.room, h.linked⟩
      cases b with
      | false =>
        refine moveFile_refuses fun i hi => ?_
        cases hs.symm.trans (length_of_namei hi).2
        exact hsdir
      | true =>
        obtain ⟨⟨i, hi, -⟩, -⟩ := hb rfl
        refine moveDir_refuses hl' (length_of_namei hi).1 (length_of_namei hd).1 fun hmake => ?_
        rcases hc with hc | hc
        · exact hspell hc
        · exact hc ⟨(length_of_namei hi).1, (length_of_namei hd).1, hfd, hmake⟩

/-! ## The first change -/

theorem World.tick_eq (hf : w.faults = []) : w.tick = w := by
  unfold tick
  rw [hf, tail_nil, ← hf]

theorem isdir_true {i : Nat} (h : w.Ok) (hf : w.faults = []) (hi : w.namei path = some i) (hd : w.isDir i = true)
    (hfd : w.fdFree ≠ none) : (isdir path).run sys w = .ok (true, w) := by
  obtain ⟨fd, hfd⟩ := ne_none_iff_exists'.1 hfd
  obtain ⟨m, slots, hn⟩ := dir_of_isDir hd
  have hopen : w.attempt (fun w => w.openFile path) = (some fd, w.setFd fd (some (i, 0))) := by
    simp only [attempt, hf, headD_nil, Bool.false_eq_true, if_false, tick_eq hf, openFile, hi, hn, bind_some,
      canOpen, if_true, hfd, map_some]
  refine Sat.run_eq ?_
  simp only [isdir, sat_bind, sat_open, hopen, sat_fstat, sat_close, sat_pure, h.close_open hfd, and_true]
  simp only [fstat, setFd, Function.update_self, bind_some, hn, map_some, Body.type, decide_true]

theorem not_refuses (h : w.Ok) (hin : w.Inside src dst) (hspell : insideSrc src dst = false) (hs : Starts w src dst) :
    ¬ Refuses shouldDelete w src dst := by
  intro hr
  obtain ⟨n, hn⟩ := hr []
  have hall := (hn (n + 1) (Nat.le_succ n)).1
  obtain ⟨s, d, hsrc, hdst, hsdir, hddir, -⟩ := hin
  have h₀ : ({ w with faults := [] } : World).Ok := ⟨h.room, h.linked⟩
  have hnamei : ∀ {p : Path} {i : Nat}, p.length < MAXPATH → w.target p = some i →
      ({ w with faults := [] } : World).namei p = some i := by
    intro p i hlen hp
    unfold namei
    rw [if_pos hlen]
    exact hp
  obtain ⟨w1, hmk, hne⟩ := h₀.mkdir_of_canMake hs.make
  have hjoin : (joinpath dst (getFilename src)).run sys { w with faults := [] } =
      .ok (joined w.below dst (getFilename src), { w with faults := [] }) := by
    unfold joinpath
    rw [if_neg (filename_fits hs.src_lt hs.dst_lt)]
    rfl
  have hmkdir : sys Bool (.mkdir (joined w.below dst (getFilename src))) { w with faults := [] } = .ok (true, w1) := by
    refine congrArg Except.ok ?_
    simp only [tryMkdir, attempt, headD_nil, Bool.false_eq_true, if_false]
    rw [tick_eq rfl, hmk]
    rfl
  have h1 := hall.after (isdir_true h₀ rfl (hnamei hs.dst_lt hdst) hddir hs.fd)
  simp only [if_true, hspell, Bool.false_eq_true, if_false] at h1
  have h2 := (h1.after (isdir_true h₀ rfl (hnamei hs.src_lt hsrc) hsdir hs.fd)).after hjoin
  exact hne (h2 _ _ (.step hmkdir (.refl _ _)))

end

theorem move_into_itself_iff {w : World} (h : w.Ok) (shouldDelete : Bool) (src dst : Path) :
    ((w.Inside src dst → Refuses shouldDelete w src dst) ∧ (¬ w.Inside src dst → Ends shouldDelete w src dst)) ↔
      (w.Inside src dst → insideSrc src dst = true ∨ ¬ Starts w src dst) := by
  constructor
  · rintro ⟨hr, -⟩ hin
    by_contra hc
    obtain ⟨hspell, hs⟩ := not_or.1 hc
    exact not_refuses h hin (eq_false_of_ne_true hspell) (not_not.1 hs) (hr hin)
  · intro hc
    refine ⟨fun hin faults => ⟨1, fun fuel hfuel => ?_⟩, fun _ faults => ⟨MAXSLOTS + (MAXPATH - dst.length) + 2, fun fuel hfuel => ?_⟩⟩
    · obtain ⟨fuel, rfl⟩ := Nat.exists_eq_succ_of_ne_zero (Nat.pos_iff_ne_zero.1 hfuel)
      have hok : ({ w with faults := faults } : World).Ok := ⟨h.room, h.linked⟩
      refine move_refuses hok hin ((hc hin).imp_right fun hs hs' => ?_)
      exact hs ⟨hs'.src_lt, hs'.dst_lt, hs'.fd, hs'.make⟩
    · have hok : ({ w with faults := faults } : World).Ok := ⟨h.room, h.linked⟩
      intro hp
      exact (move_stops hok hfuel).error (Prog.panicOf_eq_some hp) rfl

def nested (stack : Nat) : World where
  node
    | 1 => some ⟨2, .dir [some (dot, 1), some (dotdot, 1), some ([116], 5), some ([97], 2)]⟩
    | 2 => some ⟨2, .dir [some (dot, 2), some (dotdot, 1), some ([102], 3), some ([99], 4)]⟩
    | 3 => some ⟨1, .file []⟩
    | 4 => some ⟨1, .dir [some (dot, 4), some (dotdot, 2)]⟩
    | 5 => some ⟨1, .device 1 0⟩
    | _ => none
  ninodes := 200
  cwd := 1
  fds fd := if fd < 3 then some (5, 0) else none
  held _ := false
  faults := []
  stray := []
  below := 0
  stack := stack

theorem ok_nested (stack : Nat) : (nested stack).Ok := by
  constructor
  all_goals
    intro i n hn
    unfold nested at hn
    dsimp only at hn
    split at hn
    all_goals cases hn
  all_goals first
    | decide
    | exact fun h0 => absurd h0 (by decide)

theorem inside_nested (stack : Nat) : (nested stack).Inside [97] [47, 97, 47, 99] ∧ (nested stack).Inside [97] [97, 47, 99] := by
  refine ⟨⟨2, 4, rfl, rfl, rfl, rfl, [[99]], ?_, rfl⟩, ⟨2, 4, rfl, rfl, rfl, rfl, [[99]], ?_, rfl⟩⟩
  all_goals decide

theorem move_into_itself_refused : (nested 1).Ok ∧ (nested 1).Inside [97] [97, 47, 99] ∧
    Refuses true (nested 1) [97] [97, 47, 99] :=
  ⟨ok_nested 1, (inside_nested 1).2,
    ((move_into_itself_iff (ok_nested 1) true [97] [97, 47, 99]).2 fun _ => .inl (by decide)).1 (inside_nested 1).2⟩

theorem move_into_itself_started : (nested 100).Ok ∧ (nested 100).Inside [97] [47, 97, 47, 99] ∧
    ¬ Refuses true (nested 100) [97] [47, 97, 47, 99] ∧
    (∃ w', (move true 100 [97] [47, 97, 47, 99]).run sys (nested 100) = .ok (false, w') ∧
      (nested 100).child 2 [102] = some 3 ∧ w'.child 2 [102] = none) ∧
    (move true 100 [97] [47, 97, 47, 99]).run sys (nested 1) = .error "killed" := by
  refine ⟨ok_nested 100, (inside_nested 100).1, ?_, ?_, ?_⟩
  · refine not_refuses (ok_nested 100) (inside_nested 100).1 (by decide) ⟨by decide, by decide, by decide, ?_⟩
    exact ⟨4, [97], 1, [some (dot, 4), some (dotdot, 2)], by decide, by decide, rfl, .inr (by decide), by decide⟩
  · have hrun : ((move true 100 [97] [47, 97, 47, 99]).run sys (nested 100)).toOption.map
        (fun r => (r.1, r.2.child 2 [102])) = some (false, none) := by decide +kernel
    cases hr : (move true 100 [97] [47, 97, 47, 99]).run sys (nested 100) with
    | error m =>
      rw [hr] at hrun
      cases hrun
    | ok r =>
      rw [hr] at hrun
      simp only [Except.toOption, map_some, some.injEq, Prod.mk.injEq] at hrun
      exact ⟨r.2, by rw [← hrun.1], rfl, hrun.2⟩
  · refine Prog.panicOf_eq_some ?_
    decide +kernel

end Xv6.Mv
