import Xv6.Sh.Sound

/-!
# What derives from the grammar is parsed

If the line can be read as the tokens of a derivation followed by `rest`, and `rest` begins with what may follow the nonterminal, the
procedure for it stops at `rest` with the tree of the derivation.
-/

namespace Xv6.Sh

open List Option Nat

section
variable {s : Ptr} {ts rest : List Token}

/-! ## Looking ahead -/

/-- `rest` is empty, or begins with a token that has `P`. -/
def Ahead (P : Token → Prop) (rest : List Token) : Prop := ∀ t ∈ rest.head?, P t

variable {P : Token → Prop} {rs : List TRedir} {args : List (List Char)} {c : Char}

theorem Ahead.mono {Q : Token → Prop} (h : Ahead P rest) (hPQ : ∀ t, P t → Q t) : Ahead Q rest := fun t ht => hPQ t (h t ht)

theorem ahead_cons {t : Token} (ht : P t) : Ahead P (t :: rest) := fun _ hm => some.inj hm ▸ ht

theorem Lex.peek_false (toks : List Char) (h : Lex s ts) (hts : Ahead (fun t => ∀ c, t.Begins c → c ∉ toks) ts) :
    (Sh.peek s toks).1 = false := by
  cases ts with
  | nil => exact h.peek_nil toks
  | cons t ts => exact h.peek toks false fun c hc => decide_eq_false (hts t rfl c hc)

theorem Lex.peek_true {toks : List Char} {t : Token} (h : Lex s (t :: ts)) (ht : ∀ c, t.Begins c → c ∈ toks) :
    (Sh.peek s toks).1 = true :=
  h.peek toks true fun c hc => decide_eq_true (ht c hc)

/-- What may follow a nonterminal. -/
def Nt.Follows : Nt → Token → Prop
  | .line, t => t = .rpar
  | .pipe, t => t = .rpar ∨ t = .amp ∨ t = .semi
  | .exec, t => t = .rpar ∨ t = .amp ∨ t = .semi ∨ t = .bar

/-- What may follow redirections. -/
def NotRedir (t : Token) : Prop := redirect t = none

theorem Redirs.ahead (h : Redirs ts rs) (hP : ∀ t, redirect t ≠ none → P t) (hrest : Ahead P rest) :
    Ahead P (ts ++ rest) := by
  cases h with
  | nil => exact hrest
  | cons hk _ => exact ahead_cons (hP _ (by rw [hk]; exact some_ne_none _))

theorem Args.ahead (h : Args ts args rs) (hP : ∀ w, P (.word w))
    (hrest : Ahead P rest) : Ahead P (ts ++ rest) := by
  cases h with
  | nil => exact hrest
  | cons _ _ => exact ahead_cons (hP _)

theorem ahead_replicate (n : Nat) (hP : P .amp) (hrest : Ahead P rest) : Ahead P (replicate n .amp ++ rest) := by
  cases n with
  | zero => exact hrest
  | succ n => exact ahead_cons hP

theorem begins_redirect {t : Token} {m : Nat × Nat} (h : redirect t = some m) (hc : t.Begins c) : c ∈ ['<', '>'] := by
  cases t <;> cases h <;> cases hc <;> decide

theorem begins_notRedir {t : Token} (h : NotRedir t) (hc : t.Begins c) : c ∉ ['<', '>'] := by
  cases t with
  | word w => exact fun hm => hc.2 (by revert hm; simp only [symbols, mem_cons, not_mem_nil, or_false]; tauto)
  | lt | gt | gtgt => cases h
  | _ => cases hc; decide

theorem Nt.Follows.notRedir {t : Token} (h : Nt.exec.Follows t) : NotRedir t := by
  rcases h with rfl | rfl | rfl | rfl <;> rfl

theorem begins_follows {t : Token} (h : Nt.exec.Follows t) (hc : t.Begins c) : c ∈ ['|', ')', '&', ';'] := by
  rcases h with rfl | rfl | rfl | rfl <;> cases hc <;> decide

/-! ## Loops -/

theorem redirLoop_complete (h : Redirs ts rs) (acc : List Redir) (fuel : Nat) (hfuel : s.length < fuel)
    (hlex : Lex s (ts ++ rest)) (hrest : Ahead NotRedir rest) :
    ∃ new s', redirLoop fuel acc s = .ok (acc ++ new, s') ∧ Lex s' rest ∧ new.map Redir.text = rs := by
  induction h generalizing acc fuel s with
  | nil =>
    obtain ⟨fuel, rfl⟩ := exists_eq_succ_of_ne_zero (by omega : fuel ≠ 0)
    have hp := hlex.peek_false ['<', '>'] (hrest.mono fun t ht c hc => begins_notRedir ht hc)
    refine ⟨[], skip s, ?_, hlex.skip, rfl⟩
    rw [redirLoop_stop fuel acc hp, append_nil]
  | @cons k m w ts rs hk h ih =>
    obtain ⟨fuel, rfl⟩ := exists_eq_succ_of_ne_zero (by omega : fuel ≠ 0)
    have hp := hlex.peek_true fun c hc => begins_redirect hk hc
    obtain ⟨ht, hlex1⟩ := hlex.skip.takes fun _ => ⟨w, _, rfl⟩
    obtain ⟨hw, hlex2⟩ := hlex1.takes fun hgt => by cases hgt
    have hlen : (gettoken (gettoken (skip s)).ps).ps.length < fuel := by
      have := ht.shorter
      have := hw.shorter
      have := length_skip_le s
      omega
    obtain ⟨new, s', hrun, hlex', rfl⟩ := ih (acc ++ [redirTo m (gettoken (skip s)).ps]) fuel hlen hlex2
    refine ⟨redirTo m (gettoken (skip s)).ps :: new, s', ?_, hlex', ?_⟩
    · rw [redirLoop_take fuel acc hp hw.tok, ht.tok, redirOf_code hk, hrun, append_assoc]
      rfl
    · rw [map_cons, redirTo_text hw]

theorem parseredirs_complete (h : Redirs ts rs) (acc : List Redir) (hlex : Lex s (ts ++ rest))
    (hrest : Ahead NotRedir rest) : ∃ new s', parseredirs acc s = .ok (acc ++ new, s') ∧ Lex s' rest ∧ new.map Redir.text = rs :=
  redirLoop_complete h acc (s.length + 1) (lt_succ_self _) hlex hrest

theorem backLoop_complete (n : Nat) (cmd : Cmd) (fuel : Nat) (hfuel : s.length < fuel) (hlex : Lex s (replicate n .amp ++ rest))
    (hrest : Ahead (· ≠ .amp) rest) (hnext : Ahead Nt.exec.Follows rest) :
    ∃ s', backLoop fuel cmd s = .ok (Cmd.back^[n] cmd, s') ∧ Lex s' rest := by
  obtain ⟨fuel, rfl⟩ := exists_eq_succ_of_ne_zero (by omega : fuel ≠ 0)
  induction n generalizing cmd fuel s with
  | zero =>
    refine ⟨skip s, backLoop_stop fuel cmd (hlex.peek_false _ fun t ht c hc => ?_), hlex.skip⟩
    rcases hnext t ht with rfl | rfl | rfl | rfl <;> cases hc
    · decide
    · exact absurd rfl (hrest _ ht)
    · decide
    · decide
  | succ n ih =>
    have hp : (peek s ['&']).1 = true := hlex.peek_true fun c hc => mem_singleton.2 hc
    obtain ⟨ht, hlex1⟩ := hlex.skip.takes fun hgt => by cases hgt
    have hlen : (gettoken (skip s)).ps.length < fuel := by
      have := ht.shorter
      have := length_skip_le s
      omega
    obtain ⟨fuel, rfl⟩ := exists_eq_succ_of_ne_zero (by omega : fuel ≠ 0)
    rw [backLoop_take _ cmd hp]
    exact ih (.back cmd) hlex1 fuel hlen

theorem argLoop_complete (h : Args ts args rs) (old : List (Ptr × Ptr)) (acc : List Redir)
    (fuel : Nat) (hfuel : s.length < fuel) (hlen : old.length + args.length < MAXARGS) (hlex : Lex s (ts ++ rest))
    (hrest : Ahead Nt.exec.Follows rest) :
    ∃ new more s', argLoop fuel old acc s = .ok (execCmd (old ++ new) (acc ++ more), s') ∧ Lex s' rest ∧ new.map between = args ∧
      more.map Redir.text = rs := by
  induction h generalizing old acc fuel s with
  | nil =>
    obtain ⟨fuel, rfl⟩ := exists_eq_succ_of_ne_zero (by omega : fuel ≠ 0)
    cases rest with
    | nil =>
      refine ⟨[], [], [], ?_, .nil, rfl, rfl⟩
      rw [argLoop_end fuel old acc hlex.skip_nil, append_nil, append_nil]
    | cons t rest =>
      refine ⟨[], [], skip s, ?_, hlex.skip, rfl, rfl⟩
      rw [argLoop_stop fuel old acc (hlex.peek_true fun c hc => begins_follows (hrest t rfl) hc), append_nil, append_nil]
  | @cons w ts1 ts2 args rs1 rs2 hr h ih =>
    obtain ⟨fuel, rfl⟩ := exists_eq_succ_of_ne_zero (by omega : fuel ≠ 0)
    rw [cons_append, append_assoc] at hlex
    have hp : (peek s ['|', ')', '&', ';']).1 = false := hlex.peek_false _ (ahead_cons fun c hc hm => hc.2 (by
      revert hm
      simp only [symbols, mem_cons, not_mem_nil, or_false]
      tauto))
    obtain ⟨hw, hlex1⟩ := hlex.skip.takes fun hgt => by cases hgt
    have htok : (gettoken (skip s)).tok = 'a' := hw.tok
    have hmax : (withArg old s).length + args.length < MAXARGS := by
      rw [withArg, length_append]
      simpa [Nat.add_assoc, Nat.add_comm 1] using hlen
    have hnext : Ahead NotRedir (ts2 ++ rest) := h.ahead (fun _ => rfl) (hrest.mono fun _ => Nt.Follows.notRedir)
    obtain ⟨more1, s1, hrun1, hlex2, rfl⟩ := parseredirs_complete hr acc hlex1 hnext
    obtain ⟨_, _, _, htaken, _⟩ := (parseredirs_sound acc _).ok hrun1
    have hlen1 : s1.length < fuel := by
      have : s1.length ≤ _ := htaken.length_le
      have := hw.shorter
      have := length_skip_le s
      omega
    obtain ⟨new, more, s', hrun, hlex', rfl, rfl⟩ := ih (withArg old s) (acc ++ more1) fuel hlen1 hmax hlex2
    refine ⟨((gettoken (skip s)).q, (gettoken (skip s)).eq) :: new, more1 ++ more, s', ?_, hlex', ?_, map_append⟩
    · rw [argLoop_token fuel old acc hp hw, if_neg (not_not.2 htok), if_neg (by omega), hrun1]
      rw [withArg, append_assoc, append_assoc] at hrun
      exact hrun
    · rw [map_cons, (hw.isWord w rfl).between_eq]

/-! ## Procedures -/

def Nt.parse : Nt → Nat → Ptr → Except String (Cmd × Ptr)
  | .line => parseline
  | .pipe => parsepipe
  | .exec => parseexec

def Nt.depth : Nt → Nat
  | .line => 4
  | .pipe => 3
  | .exec => 2

/-- The procedure stops at `rest` with a tree for `t`. -/
def Parses (nt : Nt) (fuel : Nat) (s : Ptr) (rest : List Token) (t : Tree) : Prop :=
  ∃ c s', nt.parse fuel s = .ok (c, s') ∧ Lex s' rest ∧ c.render between = some t

theorem Nt.length_le (nt : Nt) {fuel : Nat} {c : Cmd} {s' : Ptr} (hfuel : 4 * s.length + nt.depth ≤ fuel)
    (h : nt.parse fuel s = .ok (c, s')) : s'.length ≤ s.length := by
  have hparsed : Parsed nt s c s' := by
    cases nt with
    | line => exact ((sound fuel).line s hfuel).ok h
    | pipe => exact ((sound fuel).pipe s hfuel).ok h
    | exec => exact ((sound fuel).exec s hfuel).ok h
  obtain ⟨ts, t, htaken, -⟩ := hparsed.derives
  exact htaken.length_le

/-- The derivation is parsed wherever it stands. -/
def Complete (nt : Nt) (ts : List Token) (t : Tree) : Prop :=
  ∀ (fuel : Nat) (s : Ptr) (rest : List Token), 4 * s.length + nt.depth ≤ fuel → Lex s (ts ++ rest) → Ahead nt.Follows rest →
    Parses nt fuel s rest t

variable {ts' : List Token} {t t' : Tree}

theorem parseline_back (h : Complete .pipe ts t) (n : Nat) {fuel : Nat} (hfuel : 4 * s.length + 4 ≤ fuel + 1)
    (hlex : Lex s (ts ++ (replicate n .amp ++ rest))) (hrest : Ahead (fun t => t = .rpar ∨ t = .semi) rest) :
    ∃ c1 s1 c s', parsepipe fuel s = .ok (c1, s1) ∧ backLoop (s1.length + 1) c1 s1 = .ok (c, s') ∧ s'.length ≤ s.length ∧ Lex s' rest ∧
      c.render between = some (Tree.back^[n] t) := by
  have hpipe : 4 * s.length + 3 ≤ fuel := by omega
  have hnext : Ahead Nt.pipe.Follows (replicate n .amp ++ rest) :=
    ahead_replicate n (.inr (.inl rfl)) (hrest.mono fun t ht => ht.imp id .inr)
  obtain ⟨c1, s1, hrun1, hlex1, hrender1⟩ := h fuel s _ hpipe hlex hnext
  have hamp : Ahead (· ≠ .amp) rest := hrest.mono (by rintro t (rfl | rfl) <;> exact Token.noConfusion)
  obtain ⟨s2, hrun2, hlex2⟩ := backLoop_complete n c1 (s1.length + 1) (lt_succ_self _) hlex1 hamp
    (hrest.mono fun t ht => ht.imp id fun h => .inr (.inl h))
  obtain ⟨_, _, htaken⟩ := (backLoop_sound _ c1 (lt_succ_self _)).ok hrun2
  exact ⟨c1, s1, _, s2, hrun1, hrun2, htaken.length_le.trans (Nt.length_le .pipe hpipe hrun1), hlex2, render_back hrender1 n⟩

theorem complete_line (h : Complete .pipe ts t) (n : Nat) : Complete .line (ts ++ replicate n .amp) (Tree.back^[n] t) := by
  intro fuel s rest hfuel hlex hrest
  obtain ⟨fuel, rfl⟩ := exists_eq_succ_of_ne_zero (by change _ + 4 ≤ _ at hfuel; omega : fuel ≠ 0)
  rw [append_assoc] at hlex
  obtain ⟨c1, s1, c, s', hrun1, hrun2, -, hlex', hrender⟩ := parseline_back h n hfuel hlex (hrest.mono fun t ht => .inl ht)
  refine ⟨c, skip s', ?_, hlex'.skip, hrender⟩
  have hp : (peek s' [';']).1 = false := hlex'.peek_false _ fun t ht c hc => by
    cases hrest t ht
    cases hc
    decide
  change parseline (fuel + 1) s = _
  rw [parseline, hrun1]
  change (backLoop (s1.length + 1) c1 s1 >>= _) = _
  rw [hrun2]
  exact if_neg (by rw [hp]; decide)

theorem complete_seq (h : Complete .pipe ts t) (n : Nat) (h' : Complete .line ts' t') :
    Complete .line (ts ++ (replicate n .amp ++ .semi :: ts')) (.list (Tree.back^[n] t) t') := by
  intro fuel s rest hfuel hlex hrest
  obtain ⟨fuel, rfl⟩ := exists_eq_succ_of_ne_zero (by change _ + 4 ≤ _ at hfuel; omega : fuel ≠ 0)
  rw [append_assoc, append_assoc] at hlex
  obtain ⟨c1, s1, c, s2, hrun1, hrun2, hle, hlex2, hrender⟩ := parseline_back h n hfuel hlex (ahead_cons (.inr rfl))
  have hp : (peek s2 [';']).1 = true := hlex2.peek_true fun c hc => mem_singleton.2 hc
  obtain ⟨ht, hlex3⟩ := hlex2.skip.takes fun hgt => by cases hgt
  have hlen : 4 * (gettoken (skip s2)).ps.length + 4 ≤ fuel := by
    have := ht.shorter
    have := length_skip_le s2
    change _ + 4 ≤ _ at hfuel
    omega
  obtain ⟨c', s', hrun3, hlex', hrender'⟩ := h' fuel _ rest hlen hlex3 hrest
  refine ⟨.list c c', s', ?_, hlex', ?_⟩
  · change parseline (fuel + 1) s = _
    rw [parseline, hrun1]
    change (backLoop (s1.length + 1) c1 s1 >>= _) = _
    rw [hrun2]
    refine (if_pos hp).trans ?_
    change (parseline fuel (gettoken (skip s2)).ps >>= _) = _
    rw [show parseline fuel (gettoken (skip s2)).ps = _ from hrun3]
    rfl
  · rw [Cmd.render, hrender, bind_some, hrender', map_some]

theorem complete_exec (h : Complete .exec ts t) : Complete .pipe ts t := by
  intro fuel s rest hfuel hlex hrest
  obtain ⟨fuel, rfl⟩ := exists_eq_succ_of_ne_zero (by change _ + 3 ≤ _ at hfuel; omega : fuel ≠ 0)
  have hexec : 4 * s.length + 2 ≤ fuel := le_of_succ_le_succ hfuel
  obtain ⟨c, s', hrun, hlex', hrender⟩ := h fuel s rest hexec hlex (hrest.mono fun t ht => by
    rcases ht with rfl | rfl | rfl
    · exact .inl rfl
    · exact .inr (.inl rfl)
    · exact .inr (.inr (.inl rfl)))
  have hp : (peek s' ['|']).1 = false := hlex'.peek_false _ fun t ht c hc => by
    rcases hrest t ht with rfl | rfl | rfl <;> cases hc <;> decide
  refine ⟨c, skip s', ?_, hlex'.skip, hrender⟩
  change parsepipe (fuel + 1) s = _
  rw [parsepipe, show parseexec fuel s = _ from hrun]
  exact if_neg (by rw [hp]; decide)

theorem complete_pipe (h : Complete .exec ts t) (h' : Complete .pipe ts' t') : Complete .pipe (ts ++ .bar :: ts') (.pipe t t') := by
  intro fuel s rest hfuel hlex hrest
  obtain ⟨fuel, rfl⟩ := exists_eq_succ_of_ne_zero (by change _ + 3 ≤ _ at hfuel; omega : fuel ≠ 0)
  have hexec : 4 * s.length + 2 ≤ fuel := le_of_succ_le_succ hfuel
  rw [append_assoc] at hlex
  obtain ⟨c, s1, hrun, hlex1, hrender⟩ := h fuel s _ hexec hlex (ahead_cons (.inr (.inr (.inr rfl))))
  have hp : (peek s1 ['|']).1 = true := hlex1.peek_true fun c hc => mem_singleton.2 hc
  obtain ⟨ht, hlex2⟩ := hlex1.skip.takes fun hgt => by cases hgt
  have hlen : 4 * (gettoken (skip s1)).ps.length + 3 ≤ fuel := by
    have := ht.shorter
    have := length_skip_le s1
    have := Nt.length_le .exec hexec hrun
    omega
  obtain ⟨c', s', hrun2, hlex', hrender'⟩ := h' fuel _ rest hlen hlex2 hrest
  refine ⟨.pipe c c', s', ?_, hlex', ?_⟩
  · change parsepipe (fuel + 1) s = _
    rw [parsepipe, show parseexec fuel s = _ from hrun]
    refine (if_pos hp).trans ?_
    change (parsepipe fuel (gettoken (skip s1)).ps >>= _) = _
    rw [show parsepipe fuel (gettoken (skip s1)).ps = _ from hrun2]
    rfl
  · rw [Cmd.render, hrender, bind_some, hrender', map_some]

theorem complete_words {rs' : List TRedir} (hr : Redirs ts rs) (h : Args ts' args rs')
    (hlen : args.length < MAXARGS) : Complete .exec (ts ++ ts') ((Tree.exec args).wrap (rs ++ rs')) := by
  intro fuel s rest hfuel hlex hrest
  obtain ⟨fuel, rfl⟩ := exists_eq_succ_of_ne_zero (by change _ + 2 ≤ _ at hfuel; omega : fuel ≠ 0)
  rw [append_assoc] at hlex
  -- a command that is not a block does not begin with a parenthesis
  have hopen : Ahead (· ≠ .lpar) (ts ++ (ts' ++ rest)) := by
    refine hr.ahead (fun t ht he => ht (by rw [he]; rfl)) (h.ahead (fun w => Token.noConfusion) (hrest.mono ?_))
    rintro t (rfl | rfl | rfl | rfl) <;> exact Token.noConfusion
  have hp : (peek s ['(']).1 = false := hlex.peek_false _ fun t ht c hc hm => by
    rw [mem_singleton.1 hm] at hc
    exact hopen t ht (Token.eq_of_begins hc (by decide) rfl)
  have hnext : Ahead NotRedir (ts' ++ rest) := h.ahead (fun _ => rfl) (hrest.mono fun _ => Nt.Follows.notRedir)
  obtain ⟨new, s1, hrun1, hlex1, rfl⟩ := parseredirs_complete hr [] hlex.skip hnext
  obtain ⟨args', more, s', hrun, hlex', rfl, rfl⟩ :=
    argLoop_complete h [] ([] ++ new) (s1.length + 1) (lt_succ_self _) (by simpa using hlen) hlex1 hrest
  refine ⟨execCmd ([] ++ args') ([] ++ new ++ more), s', ?_, hlex', ?_⟩
  · change parseexec (fuel + 1) s = _
    rw [parseexec]
    refine (if_neg (by rw [hp]; decide)).trans ?_
    change (parseredirs [] (skip s) >>= _) = _
    rw [hrun1]
    exact hrun
  · rw [← map_append]
    refine render_wrap ?_ _
    rw [Cmd.render, renderArgs_stored]
    rfl

theorem complete_block (h : Complete .line ts t) (hr : Redirs ts' rs) :
    Complete .exec (.lpar :: (ts ++ .rpar :: ts')) (t.wrap rs) := by
  intro fuel s rest hfuel hlex hrest
  change 4 * s.length + 2 ≤ fuel at hfuel
  obtain ⟨fuel, rfl⟩ := Nat.exists_eq_add_of_le' (by omega : 2 ≤ fuel)
  rw [cons_append, append_assoc] at hlex
  have hp : (peek s ['(']).1 = true := hlex.peek_true fun c hc => mem_singleton.2 hc
  have hp' : (peek (skip s) ['(']).1 = true := hlex.skip.peek_true fun c hc => mem_singleton.2 hc
  obtain ⟨ht, hlex1⟩ := hlex.skip.skip.takes fun hgt => by cases hgt
  have hlen : 4 * (gettoken (skip (skip s))).ps.length + 4 ≤ fuel := by
    have := ht.shorter
    have := length_skip_le s
    have := length_skip_le (skip s)
    omega
  obtain ⟨c, s1, hrun1, hlex2, hrender⟩ := h fuel _ _ hlen hlex1 (ahead_cons rfl)
  have hclose : (peek s1 [')']).1 = true := hlex2.peek_true fun c hc => mem_singleton.2 hc
  obtain ⟨-, hlex3⟩ := hlex2.skip.takes fun hgt => by cases hgt
  obtain ⟨new, s', hrun2, hlex', rfl⟩ := parseredirs_complete hr [] hlex3 (hrest.mono fun _ => Nt.Follows.notRedir)
  refine ⟨wrap c ([] ++ new), s', ?_, hlex', render_wrap hrender _⟩
  change parseexec (fuel + 1 + 1) s = _
  rw [parseexec]
  refine (if_pos hp).trans ?_
  change parseblock (fuel + 1) (skip s) = _
  rw [parseblock]
  refine (if_neg (by rw [hp']; decide)).trans ?_
  change (parseline fuel (gettoken (skip (skip s))).ps >>= _) = _
  rw [show parseline fuel (gettoken (skip (skip s))).ps = _ from hrun1]
  refine (if_neg (by rw [hclose]; decide)).trans ?_
  change (parseredirs [] (gettoken (skip s1)).ps >>= _) = _
  rw [hrun2]
  rfl

theorem Derives.complete {nt : Nt} (h : Derives nt ts t) : Complete nt ts t := by
  induction h with
  | line _ n ih => exact complete_line ih n
  | seq _ n _ ih ih' => exact complete_seq ih n ih'
  | exec _ ih => exact complete_exec ih
  | pipe _ _ ih ih' => exact complete_pipe ih ih'
  | block _ hr ih => exact complete_block ih hr
  | words hr h hlen => exact complete_words hr h hlen

end

end Xv6.Sh
