/-!
# Programs over a set of operations

`Prog E α` is a program that performs operations `e : E β`, goes on with their answers, and returns an `α` or
panics. What an operation does is given by a handler, so one program text can be run in one state from start to
end, and its operations can be interleaved with those of other programs.

`Sat h p s Q X` says of the run of `p` from `s` under the handler `h` that it ends in a result with `Q`, or in a
panic with `X`. Its rules follow the program text. `Calls` says which programs are called on the way.
-/

universe u

/-- Programs whose operations are those of `E`. -/
inductive Prog (E : Type → Type) (α : Type) : Type 1
  | ret (a : α)
  | panic (m : String)
  | op {β : Type} (e : E β) (k : β → Prog E α)

namespace Prog

variable {E : Type → Type} {α β γ : Type} {σ : Type u}

def bind : Prog E α → (α → Prog E β) → Prog E β
  | ret a, f => f a
  | panic m, _ => panic m
  | op e k, f => op e fun b => (k b).bind f

instance : Monad (Prog E) where
  pure := ret
  bind := bind

def perform (e : E α) : Prog E α := op e ret

/-- The answer of an operation with the state after it, or a panic. -/
abbrev Handler (E : Type → Type) (σ : Type u) := ∀ β : Type, E β → σ → Except String (β × σ)

def run (h : Handler E σ) : Prog E α → σ → Except String (α × σ)
  | ret a, s => .ok (a, s)
  | panic m, _ => .error m
  | op e k, s => match h _ e s with
    | .ok (b, s') => (k b).run h s'
    | .error m => .error m

/-- The run from `s` ends in a result with `Q` or in a panic with `X`. -/
def Sat (h : Handler E σ) (p : Prog E α) (s : σ) (Q : α → σ → Prop) (X : String → Prop) : Prop :=
  match p.run h s with
  | .ok (a, s') => Q a s'
  | .error m => X m

section
variable {h : Handler E σ} {p : Prog E α} {s : σ} {Q R : α → σ → Prop} {X : String → Prop}

@[simp] theorem sat_ret {a : α} : Sat h (ret a) s Q X ↔ Q a s := Iff.rfl

@[simp] theorem sat_pure {a : α} : Sat h (pure a) s Q X ↔ Q a s := Iff.rfl

@[simp] theorem sat_panic {m : String} : Sat h (panic m : Prog E α) s Q X ↔ X m := Iff.rfl

theorem sat_op {e : E β} {k : β → Prog E α} :
    Sat h (op e k) s Q X ↔
      match h _ e s with
      | .ok (b, s') => Sat h (k b) s' Q X
      | .error m => X m := by
  unfold Sat
  rw [run]
  cases h _ e s with
  | ok r | error m => rfl

theorem sat_perform {e : E α} :
    Sat h (perform e) s Q X ↔
      match h _ e s with
      | .ok (b, s') => Q b s'
      | .error m => X m :=
  sat_op

theorem run_bind (p : Prog E α) (f : α → Prog E β) (s : σ) :
    (p >>= f).run h s = match p.run h s with
      | .ok (a, s') => (f a).run h s'
      | .error m => .error m := by
  change (p.bind f).run h s = _
  induction p generalizing s with
  | ret a | panic m => rfl
  | op e k ih =>
    simp only [bind, run]
    cases h _ e s with
    | ok r => exact ih r.1 r.2
    | error m => rfl

theorem sat_bind {f : α → Prog E β} {Q : β → σ → Prop} :
    Sat h (p >>= f) s Q X ↔ Sat h p s (fun a s' => Sat h (f a) s' Q X) X := by
  unfold Sat
  rw [run_bind]
  cases p.run h s with
  | ok r | error m => rfl

theorem Sat.mono (hp : Sat h p s Q X) (hQ : ∀ a s', Q a s' → R a s') : Sat h p s R X := by
  unfold Sat at *
  cases hr : p.run h s with
  | ok r =>
    rw [hr] at hp
    exact hQ _ _ hp
  | error m =>
    rw [hr] at hp
    exact hp

theorem Sat.ok (hp : Sat h p s Q X) {a : α} {s' : σ} (hr : p.run h s = .ok (a, s')) : Q a s' := by
  simpa [Sat, hr] using hp

theorem Sat.error (hp : Sat h p s Q X) {m : String} (hr : p.run h s = .error m) : X m := by
  simpa [Sat, hr] using hp

theorem Sat.exists_ok (hp : Sat h p s Q fun _ => False) : ∃ a s', p.run h s = .ok (a, s') ∧ Q a s' := by
  cases hr : p.run h s with
  | ok r => exact ⟨r.1, r.2, rfl, hp.ok hr⟩
  | error m => exact (hp.error hr).elim

theorem Sat.any (hp : Sat h p s Q fun _ => False) : Sat h p s Q X := by
  obtain ⟨a, s', hr, hQ⟩ := hp.exists_ok
  unfold Sat
  rw [hr]
  exact hQ

theorem Sat.run_eq {b : α} {t : σ} (hp : Sat h p s (fun a s' => a = b ∧ s' = t) fun _ => False) : p.run h s = .ok (b, t) := by
  unfold Sat at hp
  split at hp
  case h_1 a s' hr => rw [hr, hp.1, hp.2]
  case h_2 => exact hp.elim

theorem sat_of_run (hok : ∀ a s', p.run h s = .ok (a, s') → Q a s') (herr : ∀ m, p.run h s = .error m → X m) :
    Sat h p s Q X := by
  unfold Sat
  cases hr : p.run h s with
  | ok r => exact hok r.1 r.2 hr
  | error m => exact herr m hr

end

def panicOf {ρ : Type u} : Except String ρ → Option String
  | .error m => some m
  | .ok _ => none

theorem panicOf_eq_some {ρ : Type u} {r : Except String ρ} {m : String} (h : panicOf r = some m) : r = .error m := by
  cases r with
  | error m' => exact congrArg _ (Option.some.inj h)
  | ok a => cases h

/-! ## The calls of a run -/

theorem run_bind_ok {h : Handler E σ} {p : Prog E α} {f : α → Prog E β} {s s' : σ} {b : β} :
    (p >>= f).run h s = .ok (b, s') ↔ ∃ a s1, p.run h s = .ok (a, s1) ∧ (f a).run h s1 = .ok (b, s') := by
  rw [run_bind]
  cases hp : p.run h s with
  | error m => simp
  | ok r =>
    constructor
    · intro hr
      exact ⟨r.1, r.2, rfl, hr⟩
    · rintro ⟨a, s1, e, hr⟩
      cases e
      exact hr

theorem bind_bind (p : Prog E α) (f : α → Prog E β) (g : β → Prog E γ) : p >>= f >>= g = p >>= fun a => f a >>= g := by
  change (p.bind f).bind g = p.bind fun a => (f a).bind g
  induction p with
  | ret a | panic m => rfl
  | op e k ih =>
    simp only [bind]
    congr 1
    funext b
    exact ih b

/-- The run of `p` from `s` comes to the rest `q` of the program in state `t`. -/
inductive Reaches (h : Handler E σ) : Prog E α → σ → Prog E α → σ → Prop
  | refl (p : Prog E α) (s : σ) : Reaches h p s p s
  | step {δ : Type} {e : E δ} {k : δ → Prog E α} {b : δ} {s s' t : σ} {q : Prog E α} :
      h δ e s = .ok (b, s') → Reaches h (k b) s' q t → Reaches h (op e k) s q t

/-- The run of `p` from `s` calls `c` in state `t`. -/
def Calls (h : Handler E σ) (p : Prog E α) (s : σ) (c : Prog E γ) (t : σ) : Prop :=
  ∃ k : γ → Prog E α, Reaches h p s (c >>= k) t

section
variable {h : Handler E σ} {p q : Prog E α} {c : Prog E γ} {f : α → Prog E β} {s s' t : σ}

theorem Reaches.bind (hr : Reaches h p s q t) : Reaches h (p >>= f) s (q >>= f) t := by
  induction hr with
  | refl p s => exact .refl _ _
  | step he _ ih => exact .step he ih

theorem Reaches.after {q : Prog E β} {a : α} (hp : p.run h s = .ok (a, s')) (hr : Reaches h (f a) s' q t) :
    Reaches h (p >>= f) s q t := by
  induction p generalizing s with
  | ret b =>
    cases hp
    exact hr
  | panic m => cases hp
  | op e k ih =>
    simp only [run] at hp
    split at hp
    case h_1 b s1 he => exact .step he (ih b hp)
    case h_2 => cases hp

theorem Calls.here {k : γ → Prog E α} : Calls h (c >>= k) s c s := ⟨k, .refl _ _⟩

theorem Calls.first (hc : Calls h p s c t) : Calls h (p >>= f) s c t := by
  obtain ⟨k, hk⟩ := hc
  refine ⟨fun x => k x >>= f, ?_⟩
  rw [← bind_bind]
  exact hk.bind

theorem Calls.after {a : α} (hp : p.run h s = .ok (a, s')) (hc : Calls h (f a) s' c t) : Calls h (p >>= f) s c t := by
  obtain ⟨k, hk⟩ := hc
  exact ⟨k, hk.after hp⟩

end

/-- `I` holds in every state that the run of `p` from `s` comes to. -/
def Always (h : Handler E σ) (p : Prog E α) (s : σ) (I : σ → Prop) : Prop := ∀ q t, Reaches h p s q t → I t

section
variable {h : Handler E σ} {p : Prog E α} {f : α → Prog E β} {s : σ} {I : σ → Prop}

theorem always_pure {a : α} (hs : I s) : Always h (pure a : Prog E α) s I := by
  intro q t hr
  cases hr
  exact hs

theorem Always.start (hp : Always h p s I) : I s := hp _ _ (.refl _ _)

theorem Always.bind (hp : Always h p s I) (hf : ∀ a s', p.run h s = .ok (a, s') → Always h (f a) s' I) :
    Always h (p >>= f) s I := by
  induction p generalizing s with
  | ret a => exact hf a s rfl
  | panic m =>
    intro q t hr
    cases hr
    exact hp.start
  | op e k ih =>
    intro q t hr
    cases hr with
    | refl => exact hp.start
    | step heq hr =>
      refine ih _ (fun q t hr => hp q t (.step heq hr)) (fun a s' hrun => ?_) q t hr
      refine hf a s' ?_
      rw [run, heq]
      exact hrun

theorem Always.after {a : α} {s' : σ} (hp : Always h (p >>= f) s I) (hr : p.run h s = .ok (a, s')) : Always h (f a) s' I :=
  fun q t ht => hp q t (ht.after hr)

def Within (h : Handler E σ) (p : Prog E α) (s : σ) (I : σ → Prop) (Q : α → σ → Prop) : Prop :=
  Always h p s I ∧ Sat h p s Q fun _ => False

theorem within_pure {a : α} {Q : α → σ → Prop} (hs : I s) (hQ : Q a s) : Within h (pure a : Prog E α) s I Q :=
  ⟨always_pure hs, hQ⟩

theorem Within.call {e : E α} {a : α} {s' : σ} {R : β → σ → Prop} (he : h _ e s = .ok (a, s')) (hs : I s)
    (hf : Within h (f a) s' I R) : Within h (perform e >>= f) s I R := by
  refine ⟨fun q t hr => ?_, ?_⟩
  · cases hr with
    | refl => exact hs
    | step heq hr =>
      cases he.symm.trans heq
      exact hf.1 q t hr
  · rw [sat_bind, sat_perform, he]
    exact hf.2

theorem Within.bind {Q : α → σ → Prop} {R : β → σ → Prop} (hp : Within h p s I Q)
    (hf : ∀ a s', Q a s' → Within h (f a) s' I R) : Within h (p >>= f) s I R :=
  ⟨hp.1.bind fun a s' hr => (hf a s' (hp.2.ok hr)).1, sat_bind.2 (hp.2.mono fun a s' hQ => (hf a s' hQ).2)⟩

end

/-! ## Programs on a part of the state -/

/-- The same program over a larger set of operations. -/
def lift {F : Type → Type} (f : ∀ β : Type, E β → F β) : Prog E α → Prog F α
  | ret a => ret a
  | panic m => panic m
  | op e k => op (f _ e) fun b => (k b).lift f

end Prog
