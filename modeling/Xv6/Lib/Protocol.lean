import Xv6.Lib.Prog

/-!
# Programs that keep to a protocol

A thread of a concurrent system keeps an account of what it holds. A protocol says in which accounts an operation is
allowed and what the account is after each answer. `Obeys P p g Q` says that the program `p`, begun with the account `g`,
only does what is allowed, whatever the answers, and that where it ends the account meets `Q`. The answers are those of the
other threads as well, so nothing is said about them beyond what the protocol does.
-/

universe u

namespace Prog

variable {E F : Type → Type} {α β : Type} {γ : Type u}

structure Protocol (E : Type → Type) (γ : Type u) where
  /-- The operation is allowed. -/
  pre : ∀ β : Type, E β → γ → Prop
  /-- The accounts after the operation has been answered. -/
  post : ∀ β : Type, E β → γ → β → γ → Prop

def Obeys (P : Protocol E γ) : Prog E α → γ → (α → γ → Prop) → Prop
  | ret a, g, Q => Q a g
  | panic _, _, _ => True
  | op e k, g, Q => P.pre _ e g ∧ ∀ b g', P.post _ e g b g' → (k b).Obeys P g' Q

section
variable {P : Protocol E γ} {p : Prog E α} {g : γ} {Q R : α → γ → Prop}

@[simp] theorem obeys_pure {a : α} : Obeys P (pure a) g Q ↔ Q a g := Iff.rfl

@[simp] theorem obeys_panic {m : String} : Obeys P (panic m : Prog E α) g Q ↔ True := Iff.rfl

theorem obeys_perform {e : E α} :
    Obeys P (perform e) g Q ↔ P.pre _ e g ∧ ∀ b g', P.post _ e g b g' → Q b g' := Iff.rfl

theorem obeys_bind {f : α → Prog E β} {Q : β → γ → Prop} :
    Obeys P (p >>= f) g Q ↔ Obeys P p g fun a g' => Obeys P (f a) g' Q := by
  induction p generalizing g with
  | ret a | panic m => rfl
  | op e k ih =>
    exact and_congr_right fun _ => forall_congr' fun b => forall_congr' fun g' => imp_congr_right fun _ => ih b

/-- The program keeps to the protocol and does not panic. -/
def Keeps (P : Protocol E γ) : Prog E α → γ → (α → γ → Prop) → Prop
  | ret a, g, Q => Q a g
  | panic _, _, _ => False
  | op e k, g, Q => P.pre _ e g ∧ ∀ b g', P.post _ e g b g' → (k b).Keeps P g' Q

@[simp] theorem keeps_pure {a : α} : Keeps P (pure a) g Q ↔ Q a g := Iff.rfl

theorem keeps_perform {e : E α} : Keeps P (perform e) g Q ↔ P.pre _ e g ∧ ∀ b g', P.post _ e g b g' → Q b g' := Iff.rfl

theorem keeps_bind {f : α → Prog E β} {Q : β → γ → Prop} :
    Keeps P (p >>= f) g Q ↔ Keeps P p g fun a g' => Keeps P (f a) g' Q := by
  induction p generalizing g with
  | ret a | panic m => rfl
  | op e k ih =>
    exact and_congr_right fun _ => forall_congr' fun b => forall_congr' fun g' => imp_congr_right fun _ => ih b

theorem Obeys.mono (h : Obeys P p g Q) (hQ : ∀ a g', Q a g' → R a g') : Obeys P p g R := by
  induction p generalizing g with
  | ret a => exact hQ _ _ h
  | panic m => trivial
  | op e k ih => exact ⟨h.1, fun b g' hp => ih b (h.2 b g' hp)⟩

end

theorem Obeys.lift {δ : Type u} {P : Protocol E γ} {P' : Protocol F δ} {f : ∀ β : Type, E β → F β} {i : γ → δ}
    (hpre : ∀ β e g, P.pre β e g → P'.pre β (f β e) (i g))
    (hpost : ∀ β e g b d, P'.post β (f β e) (i g) b d → ∃ g', d = i g' ∧ P.post β e g b g')
    {p : Prog E α} {g : γ} {Q : α → γ → Prop} (h : Obeys P p g Q) :
    Obeys P' (p.lift f) (i g) fun a d => ∃ g', d = i g' ∧ Q a g' := by
  induction p generalizing g with
  | ret a => exact ⟨g, rfl, h⟩
  | panic m => trivial
  | op e k ih =>
    refine ⟨hpre _ e g h.1, fun b d hd => ?_⟩
    obtain ⟨g', rfl, hg'⟩ := hpost _ e g b d hd
    exact ih b (h.2 b g' hg')

end Prog
