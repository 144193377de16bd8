import Mathlib.Data.List.Nodup

/-!
# Finite maps in slots

A table of slots, each free or with a key and a value, searched from its start. While no key occurs twice the table is a
finite map: a new binding goes into the first free slot or behind the last one, and clearing a slot removes its binding.
-/

namespace Slots

open List Option

variable {K V : Type}

/-- The binding goes into the first free slot, or behind the last slot. -/
def insert (e : K × V) : List (Option (K × V)) → List (Option (K × V))
  | [] => [some e]
  | none :: t => some e :: t
  | some e' :: t => some e' :: insert e t

def keys (t : List (Option (K × V))) : List K := t.filterMap (Option.map Prod.fst)

/-- No key is in two slots. -/
def Distinct (t : List (Option (K × V))) : Prop := (keys t).Nodup

section
variable {t : List (Option (K × V))} {k : K} {e : K × V} {n : Nat}

@[simp] theorem keys_nil : keys ([] : List (Option (K × V))) = [] := rfl

@[simp] theorem keys_none : keys (none :: t) = keys t := by simp [keys]

@[simp] theorem keys_some : keys (some e :: t) = e.1 :: keys t := by simp [keys]

theorem mem_keys : k ∈ keys t ↔ ∃ v, some (k, v) ∈ t := by
  simp only [keys, mem_filterMap, map_eq_some_iff, Prod.exists, exists_and_right, exists_eq_right]
  constructor
  · rintro ⟨_, hm, v, rfl⟩
    exact ⟨v, hm⟩
  · rintro ⟨v, hm⟩
    exact ⟨_, hm, v, rfl⟩

theorem insert_eq (hlt : ∀ m < n, ∃ e', t[m]? = some (some e')) (hn : t[n]? = some none ∨ n = t.length) :
    insert e t = t.take n ++ some e :: t.drop (n + 1) := by
  induction t generalizing n with
  | nil =>
    rcases hn with h | rfl
    · simp at h
    · simp [insert]
  | cons x t ih =>
    cases n with
    | zero =>
      rcases hn with h | h
      · simp only [getElem?_cons_zero, some.injEq] at h
        subst h
        simp [insert]
      · simp at h
    | succ n =>
      obtain ⟨e', he'⟩ := hlt 0 (Nat.succ_pos n)
      simp only [getElem?_cons_zero, some.injEq] at he'
      subst he'
      have hlt' : ∀ m < n, ∃ e', t[m]? = some (some e') := by
        intro m hm
        obtain ⟨e', h⟩ := hlt (m + 1) (by omega)
        exact ⟨e', by simpa using h⟩
      have hn' : t[n]? = some none ∨ n = t.length := by simpa using hn
      simp only [insert, ih hlt' hn', take_succ_cons, drop_succ_cons, cons_append]

theorem keys_insert : (keys (insert e t)).Perm (e.1 :: keys t) := by
  induction t with
  | nil => simp [insert, keys]
  | cons x t ih =>
    cases x with
    | none => simp [insert, keys]
    | some e' =>
      have h : (e'.1 :: keys (insert e t)).Perm (e.1 :: e'.1 :: keys t) := (ih.cons _).trans (List.Perm.swap _ _ _)
      simpa [insert, keys] using h

theorem mem_insert {x : Option (K × V)} (h : x ∈ insert e t) : x = some e ∨ x ∈ t := by
  induction t with
  | nil => exact .inl (mem_singleton.1 h)
  | cons y t ih =>
    cases y with
    | none =>
      rcases mem_cons.1 h with h | h
      · exact .inl h
      · exact .inr (mem_cons_of_mem _ h)
    | some e' =>
      rcases mem_cons.1 h with h | h
      · exact .inr (h ▸ mem_cons_self)
      · exact (ih h).imp_right (mem_cons_of_mem _)

theorem countP_insert {p : Option (K × V) → Bool} (hp : p none = false) :
    (insert e t).countP p = t.countP p + if p (some e) then 1 else 0 := by
  induction t with
  | nil => simp [insert, countP_cons]
  | cons x t ih =>
    cases x with
    | none => simp [insert, countP_cons, hp]
    | some e' =>
      simp only [insert, countP_cons, ih]
      omega

theorem keys_set_none : (keys (t.set n none)).Sublist (keys t) := by
  induction t generalizing n with
  | nil => simp [keys]
  | cons x t ih =>
    cases n with
    | zero =>
      cases x with
      | none | some e => simp [keys]
    | succ n =>
      cases x with
      | none => simpa [keys] using ih
      | some e => simpa [keys] using (ih).cons_cons e.1

theorem distinct_set_none (hd : Distinct t) : Distinct (t.set n none) := List.Nodup.sublist keys_set_none hd

end

variable [DecidableEq K]

def lookup (k : K) : List (Option (K × V)) → Option V
  | [] => none
  | none :: t => lookup k t
  | some e :: t => if e.1 = k then some e.2 else lookup k t

instance (t : List (Option (K × V))) : Decidable (Distinct t) := inferInstanceAs (Decidable (List.Nodup _))

variable {t : List (Option (K × V))} {k : K} {v : V} {e : K × V} {n : Nat}

theorem lookup_eq_none : lookup k t = none ↔ k ∉ keys t := by
  induction t with
  | nil => simp [lookup]
  | cons x t ih =>
    cases x with
    | none => simpa [lookup] using ih
    | some e =>
      by_cases he : e.1 = k
      · simp [lookup, he]
      · simp [lookup, he, ih, Ne.symm he]

theorem mem_of_lookup (h : lookup k t = some v) : some (k, v) ∈ t := by
  induction t with
  | nil => cases h
  | cons x t ih =>
    cases x with
    | none => exact mem_cons_of_mem _ (ih h)
    | some e =>
      unfold lookup at h
      split at h
      · rename_i he
        cases h
        subst he
        exact mem_cons_self
      · exact mem_cons_of_mem _ (ih h)

theorem lookup_first (hn : t[n]? = some (some (k, v))) (hlt : ∀ m < n, ∀ v', t[m]? ≠ some (some (k, v'))) :
    lookup k t = some v := by
  induction t generalizing n with
  | nil => simp at hn
  | cons x t ih =>
    cases n with
    | zero =>
      simp only [getElem?_cons_zero, some.injEq] at hn
      subst hn
      simp [lookup]
    | succ n =>
      have hn' : t[n]? = some (some (k, v)) := by simpa using hn
      have hlt' : ∀ m < n, ∀ v', t[m]? ≠ some (some (k, v')) := fun m hm v' => by
        simpa using hlt (m + 1) (by omega) v'
      cases x with
      | none => exact ih hn' hlt'
      | some e =>
        have hne : e.1 ≠ k := by
          rintro rfl
          exact hlt 0 (Nat.succ_pos n) e.2 rfl
        simp only [lookup, hne, if_false]
        exact ih hn' hlt'

theorem lookup_eq_some (hd : Distinct t) : lookup k t = some v ↔ some (k, v) ∈ t := by
  refine ⟨mem_of_lookup, fun hm => ?_⟩
  induction t with
  | nil => cases hm
  | cons x t ih =>
    cases x with
    | none =>
      rcases mem_cons.1 hm with h | h
      · cases h
      · exact ih hd h
    | some e =>
      rw [Distinct, keys_some, nodup_cons] at hd
      rcases mem_cons.1 hm with h | h
      · cases h
        simp [lookup]
      · have hne : e.1 ≠ k := by
          rintro rfl
          exact hd.1 (mem_keys.2 ⟨v, h⟩)
        simp only [lookup, hne, if_false]
        exact ih hd.2 h

theorem distinct_insert (hd : Distinct t) (hk : lookup e.1 t = none) : Distinct (insert e t) := by
  unfold Distinct
  rw [keys_insert.nodup_iff, nodup_cons]
  exact ⟨lookup_eq_none.1 hk, hd⟩

theorem lookup_insert (hk : lookup e.1 t = none) : lookup k (insert e t) = if k = e.1 then some e.2 else lookup k t := by
  induction t with
  | nil => simp [insert, lookup, eq_comm]
  | cons x t ih =>
    cases x with
    | none =>
      simp only [insert, lookup]
      by_cases h : k = e.1
      · simp [h]
      · simp [h, Ne.symm h]
    | some e' =>
      unfold lookup at hk
      split at hk
      · cases hk
      rename_i hne
      simp only [insert, lookup, ih hk]
      by_cases h : e'.1 = k
      · subst h
        simp [hne]
      · simp [h]

theorem lookup_set_none (hd : Distinct t) (hn : t[n]? = some (some e)) :
    lookup k (t.set n none) = if k = e.1 then none else lookup k t := by
  induction t generalizing n with
  | nil => simp at hn
  | cons x t ih =>
    cases n with
    | zero =>
      simp only [getElem?_cons_zero, some.injEq] at hn
      subst hn
      rw [Distinct, keys_some, nodup_cons] at hd
      simp only [set_cons_zero, lookup]
      by_cases h : k = e.1
      · simp only [h, if_true]
        exact lookup_eq_none.2 hd.1
      · simp [h, Ne.symm h]
    | succ n =>
      have hn' : t[n]? = some (some e) := by simpa using hn
      cases x with
      | none =>
        simpa [lookup] using ih hd hn'
      | some e' =>
        rw [Distinct, keys_some, nodup_cons] at hd
        have hne : e'.1 ≠ e.1 := by
          intro h
          exact hd.1 (h ▸ mem_keys.2 ⟨e.2, mem_of_getElem? hn'⟩)
        simp only [set_cons_succ, lookup, ih hd.2 hn']
        by_cases h : e'.1 = k
        · subst h
          simp [hne]
        · simp [h]

end Slots
