import Mathlib.Data.List.DropRight
import Mathlib.Data.List.TakeWhile
import Xv6.Sh.Grammar

/-!
# `gettoken` and `peek` against the tokens of the line

Whatever `gettoken` takes is a token, and if the line can be read as a list of tokens, `gettoken` takes the first of them. The one choice
a line leaves, `>>` as two tokens, is no choice where a word must follow.
-/

namespace Xv6.Sh

open List

/-! ## Whitespace -/

theorem skip_suffix (s : Ptr) : skip s <:+ s := dropWhile_suffix _

theorem length_skip_le (s : Ptr) : (skip s).length ≤ s.length := (skip_suffix s).length_le

theorem skip_skip (s : Ptr) : skip (skip s) = skip s := dropWhile_idempotent ..

variable {c : Char} {ts : List Token}

theorem notMem_whitespace_of_skip {s r : Ptr} (h : skip s = c :: r) : c ∉ whitespace := by
  have := head?_dropWhile_not (· ∈ whitespace) s
  rw [show s.dropWhile (· ∈ whitespace) = c :: r from h] at this
  simpa using this

theorem single_of_whitespace (h : c ∈ whitespace) : single c = none := by
  simp only [whitespace, mem_cons, not_mem_nil, or_false] at h
  rcases h with rfl | rfl | rfl | rfl | rfl <;> rfl

theorem Lex.of_skip {s : Ptr} (h : Lex (skip s) ts) : Lex s ts := by
  induction s with
  | nil => exact h
  | cons c s ih =>
    by_cases hc : c ∈ whitespace
    · rw [skip, dropWhile_cons_of_pos (by simpa using hc)] at h
      exact .space hc (ih h)
    · rwa [skip, dropWhile_cons_of_neg (by simpa using hc)] at h

theorem Lex.of_space {s : Ptr} (hc : c ∈ whitespace) (h : Lex (c :: s) ts) : Lex s ts := by
  generalize hl : c :: s = l at h
  cases h with
  | nil => cases hl
  | space _ h =>
    cases hl
    exact h
  | single ht _ =>
    cases hl
    rw [single_of_whitespace hc] at ht
    cases ht
  | gtgt _ =>
    cases hl
    exact absurd hc (by decide)
  | word hne hw _ _ =>
    obtain ⟨d, w, rfl⟩ := exists_cons_of_ne_nil hne
    cases hl
    exact absurd hc (hw c mem_cons_self).1

theorem Lex.skip {s : Ptr} (h : Lex s ts) : Lex (skip s) ts := by
  induction s with
  | nil => exact h
  | cons c s ih =>
    by_cases hc : c ∈ whitespace
    · rw [Sh.skip, dropWhile_cons_of_pos (by simpa using hc)]
      exact ih (h.of_space hc)
    · rwa [Sh.skip, dropWhile_cons_of_neg (by simpa using hc)]

/-! ## Words -/

/-- The pointers to the start and the end of a word of the line `l`. -/
structure IsWord (l : Ptr) (x : Ptr × Ptr) (w : List Char) : Prop where
  suffix : x.1 <:+ l
  split : x.1 = w ++ x.2
  chars : ∀ c ∈ w, WordChar c
  stop : ∀ c ∈ x.2.head?, ¬WordChar c

theorem IsWord.mono {l l' : Ptr} {x : Ptr × Ptr} {w : List Char} (h : IsWord l x w) (hl : l <:+ l') : IsWord l' x w :=
  ⟨h.suffix.trans hl, h.split, h.chars, h.stop⟩

theorem dropWhile_word {w s : List Char} (hw : ∀ c ∈ w, WordChar c) (hs : ∀ c ∈ s.head?, ¬WordChar c) :
    (w ++ s).dropWhile (WordChar ·) = s := by
  rw [dropWhile_append_of_pos (by simpa using hw)]
  cases s with
  | nil => rfl
  | cons c s => exact dropWhile_cons_of_neg (by simpa using hs)

theorem takeWhile_word (s : Ptr) :
    IsWord s (s, s.dropWhile (WordChar ·)) (s.takeWhile (WordChar ·)) where
  suffix := suffix_refl s
  split := takeWhile_append_dropWhile.symm
  chars c hc := by simpa using mem_takeWhile_imp hc
  stop c hc := by
    have := head?_dropWhile_not (WordChar ·) s
    rw [Option.mem_def.1 hc] at this
    simpa using this

/-! ## Tokens -/

/-- What `gettoken` returns for a token. -/
def Token.code : Token → Char
  | .word _ => 'a'
  | .bar => '|'
  | .lpar => '('
  | .rpar => ')'
  | .semi => ';'
  | .amp => '&'
  | .lt => '<'
  | .gt => '>'
  | .gtgt => '+'

/-- The characters a token may begin with. -/
def Token.Begins (c : Char) : Token → Prop
  | .word _ => WordChar c
  | .bar => c = '|'
  | .lpar => c = '('
  | .rpar => c = ')'
  | .semi => c = ';'
  | .amp => c = '&'
  | .lt => c = '<'
  | .gt | .gtgt => c = '>'

theorem gettoken_nil {s : Ptr} (h : skip s = []) : gettoken s = ⟨NUL, [], [], []⟩ := by
  rw [gettoken, h]

theorem single_of_mem (h : c ∈ ['|', '(', ')', ';', '&', '<']) : ∃ t, single c = some t ∧ t.code = c ∧ t.Begins c ∧ ∀ w, t ≠ .word w := by
  simp only [mem_cons, not_mem_nil, or_false] at h
  rcases h with rfl | rfl | rfl | rfl | rfl | rfl <;> exact ⟨_, rfl, rfl, rfl, fun w hw => by cases hw⟩

theorem gettoken_single {s r : Ptr} (h : skip s = c :: r) (hc : c ∈ ['|', '(', ')', ';', '&', '<']) :
    gettoken s = ⟨c, c :: r, r, skip r⟩ := by
  rw [gettoken, h]
  exact if_pos hc

theorem gettoken_gtgt {s r : Ptr} (h : skip s = '>' :: '>' :: r) : gettoken s = ⟨'+', '>' :: '>' :: r, r, skip r⟩ := by
  rw [gettoken, h]
  rfl

theorem gettoken_gt {s r : Ptr} (h : skip s = '>' :: r) (hr : r.head? ≠ some '>') : gettoken s = ⟨'>', '>' :: r, r, skip r⟩ := by
  rw [gettoken, h]
  exact if_neg hr

theorem gettoken_word {s r : Ptr} (h : skip s = c :: r) (hc : WordChar c) :
    gettoken s = ⟨'a', c :: r, (c :: r).dropWhile (WordChar ·), skip ((c :: r).dropWhile (WordChar ·))⟩ := by
  have h1 : c ∉ ['|', '(', ')', ';', '&', '<'] := fun hm => hc.2 (by
    revert hm
    simp only [symbols, mem_cons, not_mem_nil, or_false]
    tauto)
  have h2 : c ≠ '>' := fun he => hc.2 (by rw [he]; decide)
  rw [gettoken, h]
  change (if c ∈ ['|', '(', ')', ';', '&', '<'] then _ else if c = '>' then _ else _) = _
  rw [if_neg h1, if_neg h2]

/-- What `gettoken` has taken from `s`: the token `t`. -/
structure Takes (s : Ptr) (t : Token) : Prop where
  tok : (gettoken s).tok = t.code
  suffix : (gettoken s).ps <:+ s
  shorter : (gettoken s).ps.length < s.length
  begins : ∃ c r, skip s = c :: r ∧ t.Begins c
  lex : ∀ ts, Lex (gettoken s).ps ts → Lex s (t :: ts)
  isWord : ∀ w, t = .word w → IsWord s ((gettoken s).q, (gettoken s).eq) w

theorem rest_suffix {s a r : Ptr} (h : skip s = a ++ r) (ha : a ≠ []) : skip r <:+ s ∧ (skip r).length < s.length := by
  have hs := skip_suffix s
  rw [h] at hs
  have hlen := hs.length_le
  have := length_skip_le r
  have := length_pos_iff.2 ha
  rw [length_append] at hlen
  exact ⟨((skip_suffix r).trans (suffix_append a r)).trans hs, by omega⟩

section
variable {s r : Ptr} {t : Token}

theorem takes_single {c : Char} (h : skip s = c :: r) (hc : c ∈ ['|', '(', ')', ';', '&', '<']) (ht : single c = some t) : Takes s t := by
  obtain ⟨t', ht', hcode, hbegins, hword⟩ := single_of_mem hc
  rw [ht] at ht'
  cases ht'
  obtain ⟨hsuffix, hlen⟩ := rest_suffix (a := [c]) h (cons_ne_nil _ _)
  refine ⟨?_, ?_, ?_, ⟨c, r, h, hbegins⟩, fun ts hts => ?_, fun w hw => absurd hw (hword w)⟩ <;> rw [gettoken_single h hc] at *
  · exact hcode.symm
  · exact hsuffix
  · exact hlen
  · have := Lex.single ht hts.of_skip
    rw [← h] at this
    exact this.of_skip

theorem takes_gtgt (h : skip s = '>' :: '>' :: r) : Takes s .gtgt := by
  obtain ⟨hsuffix, hlen⟩ := rest_suffix (a := ['>', '>']) h (cons_ne_nil _ _)
  refine ⟨?_, ?_, ?_, ⟨'>', '>' :: r, h, rfl⟩, fun ts hts => ?_, fun w hw => by cases hw⟩ <;> rw [gettoken_gtgt h] at *
  · rfl
  · exact hsuffix
  · exact hlen
  · have := Lex.gtgt hts.of_skip
    rw [← h] at this
    exact this.of_skip

theorem takes_gt (h : skip s = '>' :: r) (hr : r.head? ≠ some '>') : Takes s .gt := by
  obtain ⟨hsuffix, hlen⟩ := rest_suffix (a := ['>']) h (cons_ne_nil _ _)
  refine ⟨?_, ?_, ?_, ⟨'>', r, h, rfl⟩, fun ts hts => ?_, fun w hw => by cases hw⟩ <;> rw [gettoken_gt h hr] at *
  · rfl
  · exact hsuffix
  · exact hlen
  · have := Lex.single (c := '>') (t := .gt) rfl hts.of_skip
    rw [← h] at this
    exact this.of_skip

theorem takes_word {c : Char} (h : skip s = c :: r) (hc : WordChar c) : Takes s (.word ((c :: r).takeWhile (WordChar ·))) := by
  have hword := takeWhile_word (c :: r)
  have hne : (c :: r).takeWhile (WordChar ·) ≠ [] := by
    rw [takeWhile_cons_of_pos (by simpa using hc)]
    exact cons_ne_nil _ _
  obtain ⟨hsuffix, hlen⟩ := rest_suffix (h.trans hword.split) hne
  refine ⟨?_, ?_, ?_, ⟨c, r, h, hc⟩, fun ts hts => ?_, fun w hw => ?_⟩ <;> rw [gettoken_word h hc] at *
  · rfl
  · exact hsuffix
  · exact hlen
  · have := Lex.word hne hword.chars hword.stop hts.of_skip
    rw [← hword.split] at this
    refine Lex.of_skip ?_
    rwa [h]
  · cases hw
    exact hword.mono (h ▸ skip_suffix s)

end

theorem skip_eq_nil_or_takes (s : Ptr) : skip s = [] ∨ ∃ t, Takes s t := by
  cases h : skip s with
  | nil => exact .inl rfl
  | cons c r =>
    right
    by_cases hc : c ∈ ['|', '(', ')', ';', '&', '<']
    · obtain ⟨t, ht, -⟩ := single_of_mem hc
      exact ⟨t, takes_single h hc ht⟩
    by_cases hgt : c = '>'
    · subst hgt
      by_cases hr : r.head? = some '>'
      · obtain ⟨r', rfl⟩ := head?_eq_some_iff.1 hr
        exact ⟨.gtgt, takes_gtgt h⟩
      · exact ⟨.gt, takes_gt h hr⟩
    · refine ⟨_, takes_word h ⟨notMem_whitespace_of_skip h, fun hm => ?_⟩⟩
      revert hc hm
      simp only [symbols, mem_cons, not_mem_nil, or_false]
      tauto

variable {ts : List Token} {c : Char}

theorem not_lex_gt_word {r : Ptr} {w : List Char} : ¬Lex ('>' :: r) (.word w :: ts) := by
  intro h
  generalize hl : '>' :: r = l at h
  generalize hts : Token.word w :: ts = us at h
  cases h with
  | nil => cases hl
  | space hc _ =>
    cases hl
    exact absurd hc (by decide)
  | single hc _ =>
    cases hl
    cases hts
    exact absurd hc (by simp [single])
  | gtgt _ => cases hts
  | word hne hw _ _ =>
    obtain ⟨d, w, rfl⟩ := exists_cons_of_ne_nil hne
    cases hl
    exact absurd (hw '>' mem_cons_self) (by decide)

theorem single_eq_some {t : Token} (h : single c = some t) : c ∈ ['|', '(', ')', ';', '&', '<'] ∨ c = '>' ∧ t = .gt := by
  unfold single at h
  split at h <;> simp_all

theorem takeWhile_append_word {w s : List Char} (hw : ∀ c ∈ w, WordChar c) (hs : ∀ c ∈ s.head?, ¬WordChar c) :
    (w ++ s).takeWhile (WordChar ·) = w := by
  have h := takeWhile_append_dropWhile (p := (WordChar ·)) (l := w ++ s)
  rw [dropWhile_word hw hs] at h
  exact append_cancel_right h

theorem Lex.takes {s : Ptr} {t : Token} (hlex : Lex s (t :: ts)) (hgt : t = .gt → ∃ w ts', ts = .word w :: ts') :
    Takes s t ∧ Lex (gettoken s).ps ts := by
  have h := hlex.skip
  generalize hl : Sh.skip s = l at h
  generalize hts : t :: ts = us at h
  cases h with
  | nil => cases hts
  | space hc _ => exact absurd hc (notMem_whitespace_of_skip hl)
  | @single c r t' ts' hc h =>
    cases hts
    rcases single_eq_some hc with hm | ⟨rfl, rfl⟩
    · refine ⟨takes_single hl hm hc, ?_⟩
      rw [gettoken_single hl hm]
      exact h.skip
    · have hr : r.head? ≠ some '>' := by
        intro hr
        obtain ⟨r', rfl⟩ := head?_eq_some_iff.1 hr
        obtain ⟨w, ts', rfl⟩ := hgt rfl
        exact not_lex_gt_word h
      refine ⟨takes_gt hl hr, ?_⟩
      rw [gettoken_gt hl hr]
      exact h.skip
  | gtgt h =>
    cases hts
    refine ⟨takes_gtgt hl, ?_⟩
    rw [gettoken_gtgt hl]
    exact h.skip
  | @word w r ts' hne hw hmax h =>
    cases hts
    obtain ⟨c, w', rfl⟩ := exists_cons_of_ne_nil hne
    replace hl : Sh.skip s = c :: (w' ++ r) := hl
    have htakes := takes_word hl (hw c mem_cons_self)
    rw [← cons_append, takeWhile_append_word hw hmax] at htakes
    refine ⟨htakes, ?_⟩
    rw [gettoken_word hl (hw c mem_cons_self), ← cons_append, dropWhile_word hw hmax]
    exact h.skip

/-! ## `peek` -/

theorem Lex.skip_nil {s : Ptr} (h : Lex s []) : Sh.skip s = [] := by
  have h := h.skip
  generalize hl : Sh.skip s = l at h
  generalize hts : ([] : List Token) = us at h
  cases h with
  | nil => rfl
  | space hc _ => exact absurd hc (notMem_whitespace_of_skip hl)
  | single | gtgt | word => cases hts

theorem Lex.begins {s : Ptr} {t : Token} (h : Lex s (t :: ts)) : ∃ c r, Sh.skip s = c :: r ∧ t.Begins c := by
  have h := h.skip
  generalize hl : Sh.skip s = l at h
  generalize hts : t :: ts = us at h
  cases h with
  | nil => cases hts
  | space hc _ => exact absurd hc (notMem_whitespace_of_skip hl)
  | @single c r t' ts' hc h =>
    cases hts
    refine ⟨c, r, rfl, ?_⟩
    unfold Sh.single at hc
    split at hc <;> cases hc <;> rfl
  | gtgt h =>
    cases hts
    exact ⟨'>', _, rfl, rfl⟩
  | @word w r ts' hne hw hmax h =>
    cases hts
    obtain ⟨c, w', rfl⟩ := exists_cons_of_ne_nil hne
    exact ⟨c, w' ++ r, rfl, hw c mem_cons_self⟩

theorem Lex.peek {s : Ptr} {t : Token} (h : Lex s (t :: ts)) (toks : List Char) (b : Bool)
    (hb : ∀ c, t.Begins c → decide (c ∈ toks) = b) : (Sh.peek s toks).1 = b := by
  obtain ⟨c, r, hs, hc⟩ := h.begins
  rw [Sh.peek, hs]
  exact hb c hc

theorem Lex.peek_nil {s : Ptr} (h : Lex s []) (toks : List Char) : (Sh.peek s toks).1 = false := by
  rw [Sh.peek, h.skip_nil]
  rfl

theorem Token.eq_of_begins {t k : Token} (h : t.Begins c) (hc : c ∈ ['|', '(', ')', ';', '&', '<']) (hk : Sh.single c = some k) :
    t = k := by
  simp only [mem_cons, not_mem_nil, or_false] at hc
  rcases hc with rfl | rfl | rfl | rfl | rfl | rfl <;> cases hk <;> cases t <;> first
    | rfl
    | exact absurd h (by simp [Token.Begins, WordChar, symbols, whitespace])

theorem takes_of_peek {s : Ptr} {toks : List Char} (h : (peek s toks).1 = true) : ∃ t c, Takes (skip s) t ∧ t.Begins c ∧ c ∈ toks := by
  rcases skip_eq_nil_or_takes (skip s) with hnil | ⟨t, ht⟩
  · rw [skip_skip] at hnil
    rw [peek, hnil] at h
    cases h
  · obtain ⟨c, r, hs, hc⟩ := ht.begins
    rw [skip_skip] at hs
    rw [peek, hs] at h
    exact ⟨t, c, ht, hc, by simpa using h⟩

theorem takes_of_peek_single {s : Ptr} {k : Token} (h : (peek s [c]).1 = true) (hc : c ∈ ['|', '(', ')', ';', '&', '<'])
    (hk : single c = some k) : Takes (skip s) k := by
  obtain ⟨t, d, ht, hd, hm⟩ := takes_of_peek h
  rw [mem_singleton.1 hm] at hd
  rwa [Token.eq_of_begins hd hc hk] at ht

/-! ## The rounds of the loops -/

section
variable {s : Ptr} (fuel : Nat) (args : List (Ptr × Ptr)) (rs : List Redir) (cmd : Cmd)

theorem redirLoop_stop (h : (peek s ['<', '>']).1 = false) : redirLoop (fuel + 1) rs s = .ok (rs, skip s) :=
  if_neg (by rw [h]; decide)

theorem redirLoop_take (h : (peek s ['<', '>']).1 = true) (hf : (gettoken (gettoken (skip s)).ps).tok = 'a') :
    redirLoop (fuel + 1) rs s =
      redirLoop fuel (rs ++ redirOf (gettoken (skip s)).tok (gettoken (gettoken (skip s)).ps).q (gettoken (gettoken (skip s)).ps).eq)
        (gettoken (gettoken (skip s)).ps).ps :=
  (if_pos h).trans (if_neg (not_not.2 hf))

theorem redirLoop_missing (h : (peek s ['<', '>']).1 = true) (hf : (gettoken (gettoken (skip s)).ps).tok ≠ 'a') :
    redirLoop (fuel + 1) rs s = .error "missing file for redirection" :=
  (if_pos h).trans (if_pos hf)

theorem backLoop_stop (h : (peek s ['&']).1 = false) : backLoop (fuel + 1) cmd s = .ok (cmd, skip s) :=
  if_neg (by rw [h]; decide)

theorem backLoop_take (h : (peek s ['&']).1 = true) : backLoop (fuel + 1) cmd s = backLoop fuel (.back cmd) (gettoken (skip s)).ps :=
  if_pos h

/-- What `parseexec` returns after its loop. -/
def execCmd (args : List (Ptr × Ptr)) (rs : List Redir) : Cmd := wrap (.exec (args.map some ++ [none])) rs

theorem argLoop_stop (h : (peek s ['|', ')', '&', ';']).1 = true) : argLoop (fuel + 1) args rs s = .ok (execCmd args rs, skip s) :=
  if_pos h

theorem argLoop_end (h : skip s = []) : argLoop (fuel + 1) args rs s = .ok (execCmd args rs, []) := by
  have hp : (peek s ['|', ')', '&', ';']).1 = false := by rw [peek, h]; rfl
  have hg : gettoken (skip s) = ⟨NUL, [], [], []⟩ := gettoken_nil (by rw [skip_skip, h])
  rw [argLoop, hp]
  change (if (gettoken (skip s)).tok = NUL then Except.ok (execCmd args rs, (gettoken (skip s)).ps) else _) = _
  rw [if_pos (by rw [hg]), hg]

/-- The arguments with one more word. -/
def withArg (args : List (Ptr × Ptr)) (s : Ptr) : List (Ptr × Ptr) := args ++ [((gettoken (skip s)).q, (gettoken (skip s)).eq)]

theorem argLoop_token {t : Token} (h : (peek s ['|', ')', '&', ';']).1 = false) (ht : Takes (skip s) t) :
    argLoop (fuel + 1) args rs s =
      if (gettoken (skip s)).tok ≠ 'a' then .error "syntax"
      else if (withArg args s).length ≥ MAXARGS then .error "too many args"
      else parseredirs rs (gettoken (skip s)).ps >>= fun r => argLoop fuel (withArg args s) r.1 r.2 := by
  have hnul : (gettoken (skip s)).tok ≠ NUL := by
    rw [ht.tok]
    cases t <;> exact show Char.ofNat _ ≠ _ by decide
  rw [argLoop, h]
  exact if_neg hnul

end

end Xv6.Sh
