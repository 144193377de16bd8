import Mathlib.Data.List.Basic

/-!
# Runs of a partial step function

A system is a state type with a partial step function: `step s e = some s'` when event `e` is enabled in
`s`, and `none` when it is not (the event cannot happen, or the machine has stopped there). A run is the
list of its events, so a theorem about every event list is about every interleaving.

`Along step C s es` says that each event of the run meets `C` in the state it is taken from; both a
condition on the steps of a run and a property claimed of each of its steps are stated with it.
-/

namespace Lts

variable {σ τ ε : Type*}

/-- The state after the events `es`; `none` as soon as one of them is not enabled. -/
def run (step : σ → ε → Option σ) : σ → List ε → Option σ
  | s, [] => some s
  | s, e :: es =>
    match step s e with
    | some s' => run step s' es
    | none => none

/-- Every event of the run meets `C` in the state it is taken from. -/
def Along (step : σ → ε → Option σ) (C : σ → ε → Prop) : σ → List ε → Prop
  | _, [] => True
  | s, e :: es =>
    C s e ∧
      match step s e with
      | some s' => Along step C s' es
      | none => True

section
variable {step : σ → ε → Option σ} {C P : σ → ε → Prop} {I : σ → Prop}

instance decAlong [∀ s e, Decidable (C s e)] : ∀ s es, Decidable (Along step C s es)
  | _, [] => inferInstanceAs (Decidable True)
  | s, e :: es =>
    have : Decidable (match step s e with | some s' => Along step C s' es | none => True) :=
      match step s e with
      | some s' => decAlong s' es
      | none => inferInstanceAs (Decidable True)
    inferInstanceAs (Decidable (_ ∧ _))

@[simp] theorem run_nil (s : σ) : run step s [] = some s := rfl

theorem run_cons_inv {s t : σ} {e : ε} {es : List ε} (h : run step s (e :: es) = some t) :
    ∃ s', step s e = some s' ∧ run step s' es = some t := by
  cases hs : step s e with
  | none => simp [run, hs] at h
  | some s' => exact ⟨s', rfl, by simpa [run, hs] using h⟩

theorem along_cons {s s' : σ} {e : ε} {es : List ε} (h : step s e = some s') :
    Along step C s (e :: es) ↔ C s e ∧ Along step C s' es := by
  simp only [Along, h]

theorem along_of_forall {s : σ} {es : List ε} (h : ∀ e ∈ es, ∀ s, C s e) : Along step C s es := by
  induction es generalizing s with
  | nil => trivial
  | cons e es ih =>
    refine ⟨h e (by simp) s, ?_⟩
    cases step s e with
    | none => trivial
    | some s' => exact ih fun e' he => h e' (by simp [he])

theorem Along.and {s : σ} {es : List ε} (hC : Along step C s es) (hP : Along step P s es) :
    Along step (fun s e => C s e ∧ P s e) s es := by
  induction es generalizing s with
  | nil => trivial
  | cons e es ih =>
    refine ⟨⟨hC.1, hP.1⟩, ?_⟩
    cases hs : step s e with
    | none => trivial
    | some s' => exact ih ((along_cons hs).1 hC).2 ((along_cons hs).1 hP).2

theorem run_inv (hstep : ∀ s e s', I s → C s e → step s e = some s' → I s') :
    ∀ {s t : σ} {es : List ε}, I s → Along step C s es → run step s es = some t → I t := by
  intro s t es
  induction es generalizing s with
  | nil =>
    intro hI _ hr
    cases hr
    exact hI
  | cons e es ih =>
    intro hI hC hr
    obtain ⟨s', hs, hr'⟩ := run_cons_inv hr
    obtain ⟨hc, hC'⟩ := (along_cons hs).1 hC
    exact ih (hstep s e s' hI hc hs) hC' hr'

theorem along_of_inv (hstep : ∀ s e s', I s → C s e → step s e = some s' → I s')
    (hP : ∀ s e, I s → C s e → P s e) :
    ∀ {s : σ} {es : List ε}, I s → Along step C s es → Along step P s es := by
  intro s es
  induction es generalizing s with
  | nil => intro _ _; trivial
  | cons e es ih =>
    intro hI hC
    refine ⟨hP s e hI hC.1, ?_⟩
    cases hs : step s e with
    | none => trivial
    | some s' =>
      obtain ⟨hc, hC'⟩ := (along_cons hs).1 hC
      exact ih (hstep s e s' hI hc hs) hC'

theorem run_iff_along {Q : σ → Prop} (hstep : ∀ s e s', I s → step s e = some s' → I s' ∧ (Q s' ↔ Q s ∧ C s e)) :
    ∀ {s t : σ} {es : List ε}, I s → run step s es = some t → (Q t ↔ Q s ∧ Along step C s es) := by
  intro s t es
  induction es generalizing s with
  | nil =>
    intro _ hr
    cases hr
    simp [Along]
  | cons e es ih =>
    intro hI hr
    obtain ⟨s', hs, hr'⟩ := run_cons_inv hr
    obtain ⟨hI', hQ⟩ := hstep s e s' hI hs
    rw [ih hI' hr', hQ, along_cons hs, and_assoc]

end

/-! ## Runs with a record -/

/-- A state, and a record of the run that led to it. -/
structure Noted (σ ρ : Type*) where
  now : σ
  note : ρ

section
variable {ρ : Type*} {step : σ → ε → Option σ} {upd : σ → ε → σ → ρ → ρ}

def noted (step : σ → ε → Option σ) (upd : σ → ε → σ → ρ → ρ) (o : Noted σ ρ) (e : ε) : Option (Noted σ ρ) :=
  (step o.now e).map fun s' => ⟨s', upd o.now e s' o.note⟩

theorem noted_eq_some {o o' : Noted σ ρ} {e : ε} (h : noted step upd o e = some o') :
    step o.now e = some o'.now ∧ o'.note = upd o.now e o'.now o.note := by
  obtain ⟨s', hs, rfl⟩ := Option.map_eq_some_iff.1 h
  exact ⟨hs, rfl⟩

theorem noted_inv_along {I : σ → ρ → Prop} {C : Noted σ ρ → ε → Prop} {s : σ} {r : ρ} {o : Noted σ ρ} {es : List ε}
    (hr : run (noted step upd) ⟨s, r⟩ es = some o) (hC : Along (noted step upd) C ⟨s, r⟩ es) (h0 : I s r)
    (hstep : ∀ s e s' r, I s r → C ⟨s, r⟩ e → step s e = some s' → I s' (upd s e s' r)) : I o.now o.note := by
  refine run_inv (I := fun o => I o.now o.note) (fun o e o' hI hc hs => ?_) h0 hC hr
  obtain ⟨hs, hn⟩ := noted_eq_some hs
  rw [hn]
  exact hstep _ _ _ _ hI hc hs

theorem noted_inv {I : σ → ρ → Prop} {s : σ} {r : ρ} {o : Noted σ ρ} {es : List ε} (hr : run (noted step upd) ⟨s, r⟩ es = some o)
    (h0 : I s r) (hstep : ∀ s e s' r, I s r → step s e = some s' → I s' (upd s e s' r)) : I o.now o.note :=
  noted_inv_along hr (along_of_forall fun _ _ _ => trivial) h0 fun s e s' r hI _ => hstep s e s' r hI

end

end Lts
