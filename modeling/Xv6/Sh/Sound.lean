import Xv6.Sh.Tokens

/-!
# What the parser accepts derives from the grammar

Each procedure ends, within the depth it is given, and what it returns is the tree of a derivation of the tokens it has taken. The
pointers in the tree are to the starts and the ends of words of the line.
-/

namespace Xv6.Sh

open List

/-! ## Results -/

/-- A run that has ended, with `P` if it returns. -/
def Ends {α : Type} (r : Except String α) (P : α → Prop) : Prop :=
  match r with
  | .ok a => P a
  | .error m => m ≠ "more rounds"

section
variable {α β : Type} {P : α → Prop}

theorem Ends.mono {Q : α → Prop} {r : Except String α} (h : Ends r P) (hPQ : ∀ a, P a → Q a) : Ends r Q := by
  cases r with
  | ok a => exact hPQ a h
  | error m => exact h

theorem ends_bind {r : Except String α} {f : α → Except String β} {Q : β → Prop} (h : Ends r P) (hf : ∀ a, P a → Ends (f a) Q) :
    Ends (r >>= f) Q := by
  cases r with
  | ok a => exact hf a h
  | error m => exact h

theorem Ends.ok {r : Except String α} {a : α} (h : Ends r P) (hr : r = .ok a) : P a := by
  subst hr
  exact h

end

/-! ## Trees with the words between the pointers -/

/-- The characters between two pointers. -/
def between (x : Ptr × Ptr) : List Char := x.1.take (x.1.length - x.2.length)

theorem IsWord.between_eq {l : Ptr} {x : Ptr × Ptr} {w : List Char} (h : IsWord l x w) : between x = w := by
  rw [between, h.split, length_append, Nat.add_sub_cancel, take_left]

/-- The pointers to a word that is in the line `l`. -/
def InLine (l : Ptr) (x : Ptr × Ptr) : Prop := IsWord l x (between x)

theorem IsWord.inLine {l : Ptr} {x : Ptr × Ptr} {w : List Char} (h : IsWord l x w) : InLine l x := by
  rw [InLine, h.between_eq]
  exact h

def argSpans : List (Option (Ptr × Ptr)) → List (Ptr × Ptr)
  | some x :: argv => x :: argSpans argv
  | _ => []

def Redir.span (r : Redir) : Ptr × Ptr := (r.file, r.efile)

def Cmd.spans : Cmd → List (Ptr × Ptr)
  | .exec argv => argSpans argv
  | .redir cmd r => cmd.spans ++ [r.span]
  | .pipe left right => left.spans ++ right.spans
  | .list left right => left.spans ++ right.spans
  | .back cmd => cmd.spans

def Redir.text (r : Redir) : TRedir := ⟨between r.span, r.mode, r.fd⟩

theorem argSpans_stored (args : List (Ptr × Ptr)) : argSpans (args.map some ++ [none]) = args := by
  induction args with
  | nil => rfl
  | cons x args ih => exact congrArg (x :: ·) ih

theorem renderArgs_stored (f : Ptr × Ptr → List Char) (args : List (Ptr × Ptr)) :
    renderArgs f (args.map some ++ [none]) = some (args.map f) := by
  induction args with
  | nil => rfl
  | cons x args ih =>
    change (renderArgs f (args.map some ++ [none])).map (f x :: ·) = _
    rw [ih]
    rfl

theorem spans_wrap (cmd : Cmd) (rs : List Redir) : (wrap cmd rs).spans = cmd.spans ++ rs.map Redir.span := by
  induction rs generalizing cmd with
  | nil => exact (append_nil _).symm
  | cons r rs ih =>
    change (wrap (.redir cmd r) rs).spans = _
    rw [ih, Cmd.spans, append_assoc]
    rfl

theorem render_wrap {cmd : Cmd} {t : Tree} (h : cmd.render between = some t) (rs : List Redir) :
    (wrap cmd rs).render between = some (t.wrap (rs.map Redir.text)) := by
  induction rs generalizing cmd t with
  | nil => exact h
  | cons r rs ih =>
    refine @ih (.redir cmd r) (.redir t (between r.span) r.mode r.fd) ?_
    rw [Cmd.render, h]
    rfl

theorem render_back {cmd : Cmd} {t : Tree} (h : cmd.render between = some t) (n : Nat) :
    (Cmd.back^[n] cmd).render between = some (Tree.back^[n] t) := by
  induction n generalizing cmd t with
  | zero => exact h
  | succ n ih =>
    refine @ih (.back cmd) (.back t) ?_
    rw [Cmd.render, h]
    rfl

theorem spans_back (cmd : Cmd) (n : Nat) : (Cmd.back^[n] cmd).spans = cmd.spans := by
  induction n generalizing cmd with
  | zero => rfl
  | succ n ih => exact ih (.back cmd)

/-! ## Loops -/

/-- From `s` to `s'` the tokens `ts` have been taken. -/
structure Taken (s : Ptr) (ts : List Token) (s' : Ptr) : Prop where
  suffix : s' <:+ s
  lex : ∀ ts', Lex s' ts' → Lex s (ts ++ ts')

section
variable {s s' s'' : Ptr} {ts us : List Token}

theorem Taken.skip (s : Ptr) : Taken s [] (skip s) := ⟨skip_suffix s, fun _ h => h.of_skip⟩

theorem Taken.trans (h : Taken s ts s') (h' : Taken s' us s'') : Taken s (ts ++ us) s'' :=
  ⟨h'.suffix.trans h.suffix, fun ts' hl => by
    rw [append_assoc]
    exact h.lex _ (h'.lex _ hl)⟩

theorem Takes.taken {t : Token} (h : Takes s t) : Taken s [t] (gettoken s).ps := ⟨h.suffix, h.lex⟩

theorem Taken.length_le (h : Taken s ts s') : s'.length ≤ s.length := h.suffix.length_le

end

/-- The redirection to the file named by the word at `s`. -/
def redirTo (m : Nat × Nat) (s : Ptr) : Redir := ⟨(gettoken s).q, (gettoken s).eq, m.1, m.2⟩

theorem redirTo_text {m : Nat × Nat} {s : Ptr} {w : List Char} (h : Takes s (.word w)) : (redirTo m s).text = ⟨w, m.1, m.2⟩ :=
  congrArg (TRedir.mk · m.1 m.2) (h.isWord w rfl).between_eq

theorem redirOf_code {k : Token} {m : Nat × Nat} (h : redirect k = some m) (s : Ptr) :
    redirOf k.code (gettoken s).q (gettoken s).eq = [redirTo m s] := by
  cases k <;> cases h <;> rfl

theorem redirect_of_begins {t : Token} {c : Char} (h : t.Begins c) (hc : c ∈ ['<', '>']) :
    ∃ m, redirect t = some m := by
  simp only [mem_cons, not_mem_nil, or_false] at hc
  rcases hc with rfl | rfl <;> cases t <;> first
    | exact ⟨_, rfl⟩
    | exact absurd h (by simp [Token.Begins, WordChar, symbols, whitespace])

theorem takes_word_of_tok {s : Ptr} (h : (gettoken s).tok = 'a') : ∃ w, Takes s (.word w) := by
  rcases skip_eq_nil_or_takes s with hnil | ⟨t, ht⟩
  · rw [gettoken_nil hnil] at h
    exact absurd h (by decide)
  · cases t with
    | word w => exact ⟨w, ht⟩
    | _ => exact absurd (ht.tok.symm.trans h) (by decide)

theorem redirLoop_sound (fuel : Nat) (rs : List Redir) {s : Ptr} (hfuel : s.length < fuel) :
    Ends (redirLoop fuel rs s) fun r => ∃ new ts, r.1 = rs ++ new ∧ Taken s ts r.2 ∧ Redirs ts (new.map Redir.text) ∧
      ∀ x ∈ new.map Redir.span, InLine s x := by
  induction fuel generalizing rs s with
  | zero => omega
  | succ fuel ih =>
    by_cases hp : (peek s ['<', '>']).1 = true
    case neg =>
      rw [redirLoop_stop fuel rs (eq_false_of_ne_true hp)]
      exact ⟨[], [], (append_nil rs).symm, .skip s, .nil, fun x hx => by cases hx⟩
    case pos =>
      obtain ⟨t, c, ht, hc, hm⟩ := takes_of_peek hp
      obtain ⟨m, hm⟩ := redirect_of_begins hc hm
      by_cases hf : (gettoken (gettoken (skip s)).ps).tok = 'a'
      case neg =>
        rw [redirLoop_missing fuel rs hp hf]
        exact show "missing file for redirection" ≠ "more rounds" by decide
      case pos =>
        rw [redirLoop_take fuel rs hp hf]
        obtain ⟨w, hw⟩ := takes_word_of_tok hf
        have htaken := (Taken.skip s).trans (ht.taken.trans hw.taken)
        have hlen : (gettoken (gettoken (skip s)).ps).ps.length < fuel := by
          have := ht.shorter
          have := hw.shorter
          have := length_skip_le s
          omega
        refine (ih _ hlen).mono ?_
        rintro ⟨rs', s'⟩ ⟨new, ts, hrs, htaken', hredirs, hwords⟩
        refine ⟨redirTo m (gettoken (skip s)).ps :: new, _, ?_, htaken.trans htaken', ?_, ?_⟩
        · rw [hrs, ht.tok, redirOf_code hm, append_assoc]
          rfl
        · rw [map_cons, redirTo_text hw]
          exact .cons hm hredirs
        · intro x hx
          rcases mem_cons.1 hx with rfl | hx
          · exact (hw.isWord w rfl).inLine.mono (ht.suffix.trans (skip_suffix s))
          · exact (hwords x hx).mono htaken.suffix

theorem parseredirs_sound (rs : List Redir) (s : Ptr) :
    Ends (parseredirs rs s) fun r => ∃ new ts, r.1 = rs ++ new ∧ Taken s ts r.2 ∧ Redirs ts (new.map Redir.text) ∧
      ∀ x ∈ new.map Redir.span, InLine s x :=
  redirLoop_sound (s.length + 1) rs (Nat.lt_succ_self _)

theorem backLoop_sound (fuel : Nat) (cmd : Cmd) {s : Ptr} (hfuel : s.length < fuel) :
    Ends (backLoop fuel cmd s) fun r => ∃ n, r.1 = Cmd.back^[n] cmd ∧ Taken s (replicate n .amp) r.2 := by
  induction fuel generalizing cmd s with
  | zero => omega
  | succ fuel ih =>
    by_cases hp : (peek s ['&']).1 = true
    case neg =>
      rw [backLoop_stop fuel cmd (eq_false_of_ne_true hp)]
      exact ⟨0, rfl, .skip s⟩
    case pos =>
      rw [backLoop_take fuel cmd hp]
      have ht := takes_of_peek_single hp (by decide) rfl
      have hlen : (gettoken (skip s)).ps.length < fuel := by
        have := ht.shorter
        have := length_skip_le s
        omega
      refine (ih _ hlen).mono ?_
      rintro ⟨c, s'⟩ ⟨n, hc, htaken⟩
      exact ⟨n + 1, hc, (Taken.skip s).trans (ht.taken.trans htaken)⟩

def ArgsSound (args : List (Ptr × Ptr)) (rs : List Redir) (s : Ptr) (r : Cmd × Ptr) : Prop :=
  ∃ new more ts, r.1 = execCmd (args ++ new) (rs ++ more) ∧ (args ++ new).length < MAXARGS ∧
    Taken s ts r.2 ∧ Args ts (new.map between) (more.map Redir.text) ∧ ∀ x ∈ new ++ more.map Redir.span, InLine s x

theorem ArgsSound.none {args : List (Ptr × Ptr)} (rs : List Redir) {s s' : Ptr} (hargs : args.length < MAXARGS) (h : Taken s [] s') :
    ArgsSound args rs s (execCmd args rs, s') := by
  refine ⟨[], [], [], ?_, ?_, h, .nil, fun x hx => by cases hx⟩
  · rw [append_nil, append_nil]
  · rwa [append_nil]

theorem argLoop_sound (fuel : Nat) (args : List (Ptr × Ptr)) (rs : List Redir) {s : Ptr} (hargs : args.length < MAXARGS)
    (hfuel : s.length < fuel) : Ends (argLoop fuel args rs s) (ArgsSound args rs s) := by
  induction fuel generalizing args rs s with
  | zero => omega
  | succ fuel ih =>
    rcases skip_eq_nil_or_takes (skip s) with hnil | ⟨t, ht⟩
    · rw [skip_skip] at hnil
      rw [argLoop_end fuel args rs hnil]
      exact .none rs hargs (hnil ▸ .skip s)
    by_cases hp : (peek s ['|', ')', '&', ';']).1 = true
    case pos =>
      rw [argLoop_stop fuel args rs hp]
      exact .none rs hargs (.skip s)
    rw [argLoop_token fuel args rs (eq_false_of_ne_true hp) ht]
    split
    case isTrue => exact show "syntax" ≠ "more rounds" by decide
    case isFalse hword =>
      obtain ⟨w, hw⟩ := takes_word_of_tok (not_not.1 hword)
      split
      case isTrue => exact show "too many args" ≠ "more rounds" by decide
      case isFalse hmax =>
        refine ends_bind (parseredirs_sound rs _) ?_
        rintro ⟨rs1, s1⟩ ⟨more1, ts1, rfl, htaken1, hredirs, hspans1⟩
        have hlen : s1.length < fuel := by
          have : s1.length ≤ _ := htaken1.length_le
          have := hw.shorter
          have := length_skip_le s
          omega
        refine (ih _ _ (Nat.lt_of_not_le hmax) hlen).mono ?_
        rintro ⟨c, s'⟩ ⟨new, more, ts, rfl, hlt, htaken, hderiv, hspans⟩
        have hisWord := hw.isWord w rfl
        have htaken' := (Taken.skip s).trans hw.taken
        refine ⟨((gettoken (skip s)).q, (gettoken (skip s)).eq) :: new, more1 ++ more, _, ?_, ?_,
          htaken'.trans (htaken1.trans htaken), ?_, ?_⟩
        · rw [withArg, append_assoc, append_assoc]
          rfl
        · rwa [withArg, append_assoc] at hlt
        · rw [map_cons, map_append, hisWord.between_eq]
          exact show Args (.word w :: (ts1 ++ ts)) _ _ from .cons hredirs hderiv
        intro x hx
        rw [map_append, cons_append, mem_cons, mem_append, mem_append] at hx
        rcases hx with rfl | hx | hx | hx
        · exact hisWord.inLine.mono (skip_suffix s)
        · exact (hspans x (mem_append_left _ hx)).mono (htaken'.trans htaken1).suffix
        · exact (hspans1 x hx).mono htaken'.suffix
        · exact (hspans x (mem_append_right _ hx)).mono (htaken'.trans htaken1).suffix

/-! ## Procedures -/

structure Parsed (nt : Nt) (s : Ptr) (c : Cmd) (s' : Ptr) : Prop where
  words : ∀ x ∈ c.spans, InLine s x
  derives : ∃ ts t, Taken s ts s' ∧ c.render between = some t ∧ Derives nt ts t

/-- What holds of the procedures at depth `fuel`. -/
structure Sound (fuel : Nat) : Prop where
  line : ∀ s : Ptr, 4 * s.length + 4 ≤ fuel → Ends (parseline fuel s) fun r => Parsed .line s r.1 r.2
  pipe : ∀ s : Ptr, 4 * s.length + 3 ≤ fuel → Ends (parsepipe fuel s) fun r => Parsed .pipe s r.1 r.2
  exec : ∀ s : Ptr, 4 * s.length + 2 ≤ fuel → Ends (parseexec fuel s) fun r => Parsed .exec s r.1 r.2
  block : ∀ s : Ptr, 4 * s.length + 1 ≤ fuel → Ends (parseblock fuel s) fun r => Parsed .exec s r.1 r.2

theorem Parsed.after_skip {nt : Nt} {s s' : Ptr} {c : Cmd} (h : Parsed nt (skip s) c s') : Parsed nt s c s' := by
  obtain ⟨ts, t, htaken, hrender, hderives⟩ := h.derives
  exact ⟨fun x hx => (h.words x hx).mono (skip_suffix s), ts, t, (Taken.skip s).trans htaken, hrender, hderives⟩

section
variable {fuel : Nat} {s : Ptr}

theorem Taken.skip_right {s s' : Ptr} {ts : List Token} (h : Taken s ts s') : Taken s ts (Sh.skip s') := by
  have := h.trans (.skip s')
  rwa [append_nil] at this

theorem Sound.line_succ (ih : Sound fuel) (hfuel : 4 * s.length + 4 ≤ fuel + 1) :
    Ends (parseline (fuel + 1) s) fun r => Parsed .line s r.1 r.2 := by
  refine ends_bind (ih.pipe s (by omega)) ?_
  rintro ⟨c1, s1⟩ ⟨hwords1, ts1, t1, htaken1, hrender1, hderives1⟩
  refine ends_bind (backLoop_sound _ c1 (Nat.lt_succ_self _)) ?_
  rintro ⟨c2, s2⟩ ⟨n, rfl, htaken2⟩
  have htaken := htaken1.trans htaken2
  dsimp only
  split
  case isFalse =>
    refine ⟨?_, _, _, htaken.skip_right, render_back hrender1 n, .line hderives1 n⟩
    rwa [spans_back]
  case isTrue hp =>
    have ht := takes_of_peek_single hp (by decide) rfl
    have htaken' := htaken.skip_right.trans ht.taken
    have hlen : 4 * (gettoken (skip s2)).ps.length + 4 ≤ fuel := by
      have := ht.shorter
      have := length_skip_le s2
      have : s2.length ≤ _ := htaken.length_le
      omega
    refine ends_bind (ih.line _ hlen) ?_
    rintro ⟨c3, s3⟩ ⟨hwords3, ts3, t3, htaken3, hrender3, hderives3⟩
    refine ⟨?_, _, .list (Tree.back^[n] t1) t3, htaken'.trans htaken3, ?_, ?_⟩
    · intro x hx
      rcases mem_append.1 hx with hx | hx
      · rw [spans_back] at hx
        exact hwords1 x hx
      · exact (hwords3 x hx).mono htaken'.suffix
    · change (Cmd.render between (Cmd.back^[n] c1)).bind _ = _
      rw [render_back hrender1]
      rw [hrender3]
      rfl
    · have := Derives.seq hderives1 n hderives3
      simpa only [append_assoc, cons_append, nil_append] using this

theorem Sound.pipe_succ (ih : Sound fuel) (hfuel : 4 * s.length + 3 ≤ fuel + 1) :
    Ends (parsepipe (fuel + 1) s) fun r => Parsed .pipe s r.1 r.2 := by
  refine ends_bind (ih.exec s (by omega)) ?_
  rintro ⟨c1, s1⟩ ⟨hwords1, ts1, t1, htaken1, hrender1, hderives1⟩
  dsimp only
  split
  case isFalse => exact ⟨hwords1, ts1, t1, htaken1.skip_right, hrender1, .exec hderives1⟩
  case isTrue hp =>
    have ht := takes_of_peek_single hp (by decide) rfl
    have htaken := htaken1.skip_right.trans ht.taken
    have hlen : 4 * (gettoken (skip s1)).ps.length + 3 ≤ fuel := by
      have := ht.shorter
      have := length_skip_le s1
      have : s1.length ≤ _ := htaken1.length_le
      omega
    refine ends_bind (ih.pipe _ hlen) ?_
    rintro ⟨c2, s2⟩ ⟨hwords2, ts2, t2, htaken2, hrender2, hderives2⟩
    refine ⟨?_, _, .pipe t1 t2, htaken.trans htaken2, ?_, ?_⟩
    · intro x hx
      rcases mem_append.1 hx with hx | hx
      · exact hwords1 x hx
      · exact (hwords2 x hx).mono htaken.suffix
    · change (Cmd.render between c1).bind _ = _
      rw [hrender1]
      rw [hrender2]
      rfl
    · have := Derives.pipe hderives1 hderives2
      simpa only [append_assoc, cons_append, nil_append] using this

theorem Sound.exec_succ (ih : Sound fuel) (hfuel : 4 * s.length + 2 ≤ fuel + 1) :
    Ends (parseexec (fuel + 1) s) fun r => Parsed .exec s r.1 r.2 := by
  rw [parseexec]
  have hskip := length_skip_le s
  split
  case isTrue => exact (ih.block (skip s) (by omega)).mono fun r hr => hr.after_skip
  case isFalse =>
    refine ends_bind (parseredirs_sound [] (skip s)) ?_
    rintro ⟨rs, s1⟩ ⟨_, ts1, rfl, htaken1, hredirs, hspans1⟩
    refine (argLoop_sound _ [] _ (by decide) (Nat.lt_succ_self _)).mono ?_
    rintro ⟨c, s2⟩ ⟨args, more, ts2, rfl, hlen, htaken2, hargs, hspans2⟩
    refine Parsed.after_skip ⟨?_, _, _, htaken1.trans htaken2, ?_, .words hredirs hargs ?_⟩
    · intro x hx
      rw [execCmd, spans_wrap, Cmd.spans, argSpans_stored, nil_append, map_append, mem_append, mem_append] at hx
      rcases hx with hx | hx | hx
      · exact (hspans2 x (mem_append_left _ hx)).mono htaken1.suffix
      · exact hspans1 x hx
      · exact (hspans2 x (mem_append_right _ hx)).mono htaken1.suffix
    · rw [← map_append]
      refine render_wrap ?_ _
      rw [Cmd.render, renderArgs_stored]
      rfl
    · rwa [length_map]

theorem Sound.block_succ (ih : Sound fuel) (hfuel : 4 * s.length + 1 ≤ fuel + 1) :
    Ends (parseblock (fuel + 1) s) fun r => Parsed .exec s r.1 r.2 := by
  rw [parseblock]
  split
  case isTrue => exact show "parseblock" ≠ "more rounds" by decide
  case isFalse hp =>
    have ht := takes_of_peek_single (eq_true_of_ne_false hp) (by decide) rfl
    have hlen : 4 * (gettoken (skip s)).ps.length + 4 ≤ fuel := by
      have := ht.shorter
      have := length_skip_le s
      omega
    refine ends_bind (ih.line _ hlen) ?_
    rintro ⟨c, s1⟩ ⟨hwords1, ts1, t1, htaken1, hrender1, hderives1⟩
    dsimp only
    split
    case isTrue => exact show "syntax - missing )" ≠ "more rounds" by decide
    case isFalse hp' =>
      have ht' := takes_of_peek_single (eq_true_of_ne_false hp') (by decide) rfl
      refine ends_bind (parseredirs_sound [] _) ?_
      rintro ⟨rs, s2⟩ ⟨_, ts2, rfl, htaken2, hredirs, hspans⟩
      have htaken := ht.taken.trans (htaken1.skip_right.trans ht'.taken)
      refine Parsed.after_skip ⟨?_, _, _, htaken.trans htaken2, render_wrap hrender1 _, ?_⟩
      · intro x hx
        rw [spans_wrap, mem_append] at hx
        rcases hx with hx | hx
        · exact (hwords1 x hx).mono ht.suffix
        · exact (hspans x hx).mono htaken.suffix
      · have := Derives.block hderives1 hredirs
        simpa only [append_assoc, cons_append, nil_append] using this

end

theorem sound (fuel : Nat) : Sound fuel := by
  induction fuel with
  | zero => exact ⟨fun s h => by omega, fun s h => by omega, fun s h => by omega, fun s h => by omega⟩
  | succ fuel ih => exact ⟨fun s => ih.line_succ, fun s => ih.pipe_succ, fun s => ih.exec_succ, fun s => ih.block_succ⟩

end Xv6.Sh
