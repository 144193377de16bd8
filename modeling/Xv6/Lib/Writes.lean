import Mathlib.Logic.Function.Basic
import Mathlib.Data.List.Basic

/-!
# Sequences of block writes and the points where a machine can stop between them

A store is a function from addresses to values. A program that writes it is, for this purpose, the list of
the writes it issues, in order; the machine may stop after any number of them. `AtStops P d ws` says that
`P` holds of the store at each of these points, the first (nothing written) and the last included.
-/

namespace Writes

open List

variable {α β : Type*} [DecidableEq α]

def apply (d : α → β) (ws : List (α × β)) : α → β :=
  ws.foldl (fun d w => Function.update d w.1 w.2) d

def AtStops (P : (α → β) → Prop) (d : α → β) (ws : List (α × β)) : Prop :=
  ∀ j, P (apply d (ws.take j))

@[simp] theorem apply_nil (d : α → β) : apply d [] = d := rfl

@[simp] theorem apply_cons (d : α → β) (w : α × β) (ws : List (α × β)) :
    apply d (w :: ws) = apply (Function.update d w.1 w.2) ws := rfl

theorem apply_append (d : α → β) (ws vs : List (α × β)) : apply d (ws ++ vs) = apply (apply d ws) vs :=
  foldl_append

theorem apply_of_not_mem {a : α} : ∀ {d : α → β} {ws : List (α × β)}, (∀ w ∈ ws, w.1 ≠ a) → apply d ws a = d a
  | _, [], _ => rfl
  | d, w :: ws, h => by
    rw [apply_cons, apply_of_not_mem fun v hv => h v (by simp [hv])]
    exact Function.update_of_ne (Ne.symm (h w (by simp))) _ _

theorem apply_of_mem {a : α} {x : β} : ∀ {d : α → β} {ws : List (α × β)}, (ws.map Prod.fst).Nodup →
    (a, x) ∈ ws → apply d ws a = x
  | _, [], _, h => by simp at h
  | d, w :: ws, hn, h => by
    simp only [map_cons, nodup_cons, mem_map, not_exists, not_and] at hn
    rcases mem_cons.1 h with rfl | h
    · rw [apply_cons, apply_of_not_mem fun v hv => hn.1 v hv]
      simp
    · rw [apply_cons]
      exact apply_of_mem hn.2 h

theorem apply_congr {a : α} : ∀ {d e : α → β} {ws : List (α × β)}, d a = e a → apply d ws a = apply e ws a
  | _, _, [], h => h
  | d, e, w :: ws, h => by
    rw [apply_cons, apply_cons]
    refine apply_congr ?_
    by_cases ha : a = w.1
    · subst ha; simp
    · simp [ha, h]

theorem apply_eq_of_mem {a : α} : ∀ {d e : α → β} {ws : List (α × β)}, a ∈ ws.map Prod.fst →
    apply d ws a = apply e ws a
  | _, _, [], h => by simp at h
  | d, e, w :: ws, h => by
    rw [apply_cons, apply_cons]
    rcases mem_cons.1 (map_cons ▸ h) with rfl | h
    · exact apply_congr (by simp)
    · exact apply_eq_of_mem h

theorem atStops_nil {P : (α → β) → Prop} {d : α → β} : AtStops P d [] ↔ P d := by
  simp [AtStops]

theorem atStops_cons {P : (α → β) → Prop} {d : α → β} {w : α × β} {ws : List (α × β)} :
    AtStops P d (w :: ws) ↔ P d ∧ AtStops P (Function.update d w.1 w.2) ws := by
  constructor
  · intro h
    exact ⟨h 0, fun j => h (j + 1)⟩
  · rintro ⟨h0, h⟩ (_ | j)
    · exact h0
    · exact h j

theorem atStops_append {P : (α → β) → Prop} {ws vs : List (α × β)} : ∀ {d : α → β},
    AtStops P d (ws ++ vs) ↔ AtStops P d ws ∧ AtStops P (apply d ws) vs := by
  induction ws with
  | nil =>
    intro d
    rw [nil_append, atStops_nil, apply_nil]
    exact ⟨fun h => ⟨h 0, h⟩, fun h => h.2⟩
  | cons w ws ih =>
    intro d
    rw [cons_append, atStops_cons, atStops_cons, ih, apply_cons, and_assoc]

theorem atStops_of_forall {P : (α → β) → Prop} : ∀ {d : α → β} {ws : List (α × β)}, P d →
    (∀ w ∈ ws, ∀ d, P d → P (Function.update d w.1 w.2)) → AtStops P d ws
  | _, [], h, _ => atStops_nil.2 h
  | d, w :: ws, h, hw => by
    have hw' : ∀ v ∈ ws, ∀ d, P d → P (Function.update d v.1 v.2) := fun v hv => hw v (by simp [hv])
    exact atStops_cons.2 ⟨h, atStops_of_forall (hw w (by simp) d h) hw'⟩

theorem AtStops.mono {P Q : (α → β) → Prop} {d : α → β} {ws : List (α × β)} (h : AtStops P d ws)
    (hPQ : ∀ d, P d → Q d) : AtStops Q d ws :=
  fun j => hPQ _ (h j)

theorem AtStops.last {P : (α → β) → Prop} {d : α → β} {ws : List (α × β)} (h : AtStops P d ws) :
    P (apply d ws) := by
  simpa using h ws.length

end Writes
