import Xv6.Sh.Complete

/-!
# The shell parser accepts exactly its grammar

`nulterminate` writes a NUL behind each word of the tree. No such place is within a word, so each string of the tree is the text of its
token, and the tree in memory is the one the derivation denotes (`parsecmd_correct`).
-/

namespace Xv6.Sh

open List

/-! ## Strings -/

section
variable {l mem : List Char} {spans : List (Ptr × Ptr)}

/-- The end of each word is set to NUL, in order. -/
def terminate (n : Nat) (spans : List (Ptr × Ptr)) (mem : List Char) : List Char := spans.foldl (fun mem x => zero n x.2 mem) mem

theorem zeroArgs_eq (n : Nat) (argv : List (Option (Ptr × Ptr))) (mem : List Char) :
    zeroArgs n argv mem = terminate n (argSpans argv) mem := by
  induction argv generalizing mem with
  | nil => rfl
  | cons x argv ih =>
    cases x with
    | none => rfl
    | some x => exact ih _

theorem terminate_append (n : Nat) (xs ys : List (Ptr × Ptr)) (mem : List Char) :
    terminate n (xs ++ ys) mem = terminate n ys (terminate n xs mem) :=
  foldl_append

theorem nulterminate_eq (n : Nat) (cmd : Cmd) (mem : List Char) : nulterminate n cmd mem = terminate n cmd.spans mem := by
  induction cmd generalizing mem with
  | exec argv => exact zeroArgs_eq n argv mem
  | redir cmd r ih => rw [nulterminate, ih, Cmd.spans, terminate_append]; rfl
  | pipe left right ihl ihr | list left right ihl ihr => rw [nulterminate, ihl, ihr, Cmd.spans, terminate_append]
  | back cmd ih => exact ih mem

structure Kept (l mem : List Char) : Prop where
  length : mem.length = l.length + 1
  words : ∀ (i : Nat) (c : Char), l[i]? = some c → WordChar c → mem[i]? = some c

theorem kept_start (l : List Char) : Kept l (l ++ [NUL]) where
  length := length_append
  words i c hi _ := by
    rw [List.getElem?_append_left (List.getElem?_eq_some_iff.1 hi).1]
    exact hi

theorem getElem?_at {e : Ptr} (h : e <:+ l) : l[l.length - e.length]? = e.head? := by
  obtain ⟨a, rfl⟩ := h
  rw [length_append, Nat.add_sub_cancel, getElem?_append_right (Nat.le_refl _), Nat.sub_self, head?_eq_getElem?]

theorem InLine.stop_suffix {x : Ptr × Ptr} (h : InLine l x) : x.2 <:+ l := by
  refine List.IsSuffix.trans ?_ h.suffix
  rw [h.split]
  exact suffix_append _ _

theorem Kept.zero {x : Ptr × Ptr} (h : Kept l mem) (hx : InLine l x) : Kept l (zero l.length x.2 mem) where
  length := by rw [Sh.zero, length_set, h.length]
  words i c hi hc := by
    rw [Sh.zero, getElem?_set_ne, h.words i c hi hc]
    rintro rfl
    rw [getElem?_at hx.stop_suffix] at hi
    exact hx.stop c hi hc

theorem Kept.terminate (h : Kept l mem) (hspans : ∀ x ∈ spans, InLine l x) : Kept l (terminate l.length spans mem) := by
  induction spans generalizing mem with
  | nil => exact h
  | cons x spans ih => exact ih (h.zero (hspans x mem_cons_self)) fun y hy => hspans y (mem_cons_of_mem x hy)

theorem terminate_nul {i : Nat} (n : Nat) (h : mem[i]? = some NUL) : (terminate n spans mem)[i]? = some NUL := by
  induction spans generalizing mem with
  | nil => exact h
  | cons x spans ih =>
    refine @ih (Sh.zero n x.2 mem) ?_
    rw [Sh.zero, getElem?_set]
    split
    · next heq => rw [heq, if_pos (List.getElem?_eq_some_iff.1 h).1]
    · exact h

theorem terminate_stop {x : Ptr × Ptr} (h : Kept l mem) (hspans : ∀ x ∈ spans, InLine l x) (hx : x ∈ spans) :
    (terminate l.length spans mem)[l.length - x.2.length]? = some NUL := by
  induction spans generalizing mem with
  | nil => cases hx
  | cons y spans ih =>
    have hy := hspans y mem_cons_self
    rcases mem_cons.1 hx with rfl | hx
    · change (terminate l.length spans (Sh.zero l.length x.2 mem))[_]? = some NUL
      refine terminate_nul _ ?_
      rw [Sh.zero, getElem?_set_self (by rw [h.length]; omega)]
    · exact ih (h.zero hy) (fun z hz => hspans z (mem_cons_of_mem y hz)) hx

theorem takeWhile_drop {w : List Char} {k : Nat} (hw : ∀ (i : Nat) (c : Char), w[i]? = some c → mem[k + i]? = some c) (hnul : NUL ∉ w)
    (hend : mem[k + w.length]? = some NUL) : (mem.drop k).takeWhile (· ≠ NUL) = w := by
  induction w generalizing k with
  | nil =>
    obtain ⟨hk, hend⟩ := List.getElem?_eq_some_iff.1 (show mem[k]? = some NUL from hend)
    rw [drop_eq_getElem_cons hk]
    exact takeWhile_cons_of_neg (by simpa using hend)
  | cons c w ih =>
    obtain ⟨hk, hc⟩ := List.getElem?_eq_some_iff.1 (show mem[k]? = some c from hw 0 c rfl)
    have hne : c ≠ NUL := fun he => hnul (he ▸ mem_cons_self)
    have htail := ih (k := k + 1) (fun i d hd => by rw [Nat.add_right_comm]; exact hw (i + 1) d hd)
      (fun hm => hnul (mem_cons_of_mem c hm)) (by rw [Nat.add_right_comm]; exact hend)
    rw [drop_eq_getElem_cons hk, takeWhile_cons_of_pos (by simpa [hc] using hne), htail]
    exact congrArg (· :: w) hc

theorem cstring_terminate {x : Ptr × Ptr} (hl : NUL ∉ l) (hspans : ∀ x ∈ spans, InLine l x) (hx : x ∈ spans) :
    cstring l.length (terminate l.length spans (l ++ [NUL])) x.1 = between x := by
  have hin := hspans x hx
  have hkept := (kept_start l).terminate hspans
  have hlen : x.1.length = (between x).length + x.2.length := by rw [← length_append, ← hin.split]
  have hle := hin.suffix.length_le
  refine takeWhile_drop (fun i c hi => ?_) (fun hm => hl ?_) ?_
  · have hat : l[l.length - x.1.length + i]? = some c := by
      obtain ⟨a, ha⟩ := hin.suffix
      have hlt := (List.getElem?_eq_some_iff.1 hi).1
      rw [← ha, length_append, Nat.add_sub_cancel, getElem?_append_right (by omega), Nat.add_sub_cancel_left, hin.split,
        getElem?_append_left hlt, hi]
    exact hkept.words _ c hat (hin.chars c (mem_of_getElem? hi))
  · refine hin.suffix.subset ?_
    rw [hin.split]
    exact mem_append_left _ hm
  · rw [show l.length - x.1.length + (between x).length = l.length - x.2.length by omega]
    exact terminate_stop (kept_start l) hspans hx

end

/-! ## Trees -/

theorem renderArgs_congr {f g : Ptr × Ptr → List Char} {argv : List (Option (Ptr × Ptr))} (h : ∀ x ∈ argSpans argv, f x = g x) :
    renderArgs f argv = renderArgs g argv := by
  induction argv with
  | nil => rfl
  | cons x argv ih =>
    cases x with
    | none => rfl
    | some x =>
      rw [renderArgs, renderArgs, ih fun y hy => h y (mem_cons_of_mem x hy), h x mem_cons_self]

theorem render_congr {f g : Ptr × Ptr → List Char} {cmd : Cmd} (h : ∀ x ∈ cmd.spans, f x = g x) : cmd.render f = cmd.render g := by
  induction cmd with
  | exec argv => rw [Cmd.render, Cmd.render, renderArgs_congr h]
  | redir cmd r ih =>
    have hr : f (r.file, r.efile) = g (r.file, r.efile) := h r.span (mem_append_right _ (mem_singleton.2 rfl))
    rw [Cmd.render, Cmd.render, ih fun x hx => h x (mem_append_left _ hx), hr]
  | pipe left right ihl ihr | list left right ihl ihr =>
    rw [Cmd.render, Cmd.render, ihl fun x hx => h x (mem_append_left _ hx), ihr fun x hx => h x (mem_append_right _ hx)]
  | back cmd ih => rw [Cmd.render, Cmd.render, ih h]

theorem read_nulterminate {l : List Char} {cmd : Cmd} (hl : NUL ∉ l) (h : ∀ x ∈ cmd.spans, InLine l x) :
    cmd.read l.length (nulterminate l.length cmd (l ++ [NUL])) = cmd.render between := by
  rw [Cmd.read, nulterminate_eq]
  exact render_congr fun x hx => cstring_terminate hl h hx

/-! ## Lines -/

theorem parsecmd_sound {l : List Char} (hl : NUL ∉ l) :
    Ends (parsecmd l) fun r => ∃ ts t, Lex l ts ∧ Derives .line ts t ∧ r.1.read l.length r.2 = some t := by
  refine ends_bind ((sound _).line l (Nat.le_refl _)) ?_
  rintro ⟨c, s⟩ ⟨hwords, ts, t, htaken, hrender, hderives⟩
  dsimp only
  split
  case isTrue => exact show "syntax" ≠ "more rounds" by decide
  case isFalse hend =>
    have hlex : Lex s [] := Lex.of_skip (by rw [show skip s = [] from not_not.1 hend]; exact .nil)
    refine ⟨ts, t, ?_, hderives, ?_⟩
    · simpa only [append_nil] using htaken.lex [] hlex
    · rw [← hrender]
      exact read_nulterminate hl hwords

theorem parsecmd_complete {l : List Char} {ts : List Token} {t : Tree} (hl : NUL ∉ l) (hlex : Lex l ts) (h : Derives .line ts t) :
    ∃ c mem, parsecmd l = .ok (c, mem) ∧ c.read l.length mem = some t := by
  obtain ⟨c, s, hrun, hrest, hrender⟩ :=
    h.complete (4 * l.length + 4) l [] (Nat.le_refl _) (by rwa [append_nil]) fun t ht => by cases ht
  have hparsed := ((sound _).line l (Nat.le_refl _)).ok hrun
  refine ⟨c, nulterminate l.length c (l ++ [NUL]), ?_, ?_⟩
  · rw [parsecmd, show parseline (4 * l.length + 4) l = _ from hrun]
    exact if_neg (not_not.2 hrest.skip_nil)
  · rw [← hrender]
    exact read_nulterminate hl hparsed.words

theorem parsecmd_correct (l : List Char) (hl : NUL ∉ l) :
    parsecmd l ≠ .error "more rounds" ∧
    (∀ c mem, parsecmd l = .ok (c, mem) → ∃ ts t, Lex l ts ∧ Derives .line ts t ∧ c.read l.length mem = some t) ∧
    (∀ ts t, Lex l ts → Derives .line ts t → ∃ c mem, parsecmd l = .ok (c, mem) ∧ c.read l.length mem = some t) := by
  have hsound := parsecmd_sound hl
  refine ⟨fun herr => ?_, fun c mem hrun => hsound.ok hrun, fun ts t => parsecmd_complete hl⟩
  rw [herr] at hsound
  exact hsound rfl

/-- `(a<f;b)>>g|c d&` -/
def sampleLine : List Char := "(a<f;b)>>g|c d&".toList

/-- What `runcmd` finds for it. -/
def sampleTree : Tree :=
  .back (.pipe (.redir (.list (.redir (.exec [['a']]) ['f'] O_RDONLY 0) (.exec [['b']])) ['g'] (O_WRONLY ||| O_CREATE) 1)
    (.exec [['c'], ['d']]))

theorem parsecmd_correct_sample : NUL ∉ sampleLine ∧ ∃ ts, Lex sampleLine ts ∧ Derives .line ts sampleTree := by
  have hl : NUL ∉ sampleLine := by decide
  obtain ⟨-, hsound, -⟩ := parsecmd_correct sampleLine hl
  have hread : (parsecmd sampleLine).toOption.bind (fun r => r.1.read sampleLine.length r.2) = some sampleTree := by rfl
  refine ⟨hl, ?_⟩
  cases hrun : parsecmd sampleLine with
  | error m =>
    rw [hrun] at hread
    cases hread
  | ok r =>
    rw [hrun] at hread
    obtain ⟨ts, t, hlex, hderives, ht⟩ := hsound r.1 r.2 hrun
    cases hread.symm.trans ht
    exact ⟨ts, hlex, hderives⟩

end Xv6.Sh
