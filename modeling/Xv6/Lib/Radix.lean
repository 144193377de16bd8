import Mathlib.Algebra.Group.Nat.Defs
import Mathlib.Data.Option.Basic
import Mathlib.Data.Set.Basic
import Mathlib.Logic.Function.Basic

/-!
# Radix trees in memory

A node is an array of `B` words at an address, and `next w` is the address of the node that a word points to. The nodes at depth `d`
are numbered by the keys that lead to them: node `k` is the child `k % B` of node `k / B` at the depth above. A tree of depth `D`
maps a key `n` to the word `n % B` of node `n / B` at depth `D`, as long as no node is reached in two ways.
-/

namespace Radix

open Function (update update_self update_of_ne)
open Option Nat

variable {A W : Type*}

/-- The node that the key `k` leads to at depth `d`. -/
def node (next : W → Option A) (B : Nat) (m : A → Nat → W) (root : A) : Nat → Nat → Option A
  | 0, k => if k = 0 then some root else none
  | d + 1, k => (node next B m root d (k / B)).bind fun a => next (m a (k % B))

def word (next : W → Option A) (B D : Nat) (m : A → Nat → W) (root : A) (n : Nat) : Option W :=
  (node next B m root D (n / B)).map fun a => m a (n % B)

/-- No node is reached in two ways. -/
def Distinct (next : W → Option A) (B D : Nat) (m : A → Nat → W) (root : A) : Prop :=
  ∀ d d' k k' a, d ≤ D → d' ≤ D → node next B m root d k = some a → node next B m root d' k' = some a → d = d' ∧ k = k'

def nodes (next : W → Option A) (B D : Nat) (m : A → Nat → W) (root : A) : Set A :=
  {a | ∃ d ≤ D, ∃ k, node next B m root d k = some a}

section
variable {next : W → Option A} {B D : Nat} {m m' : A → Nat → W} {root a c : A} {d k i n : Nat}

theorem node_succ : node next B m root (d + 1) k = (node next B m root d (k / B)).bind fun a => next (m a (k % B)) := rfl

theorem node_child (hi : i < B) (hk : node next B m root d k = some a) : node next B m root (d + 1) (B * k + i) = next (m a i) := by
  rw [node_succ, mul_add_div (by omega), div_eq_of_lt hi, add_zero, hk, mul_add_mod, mod_eq_of_lt hi]
  rfl

theorem node_eq_none (e : Nat) (hk : node next B m root d (k / B ^ e) = none) : node next B m root (d + e) k = none := by
  induction e generalizing k with
  | zero => simpa using hk
  | succ e ih =>
    rw [← add_assoc, node_succ, ih, bind_none]
    rwa [Nat.div_div_eq_div_mul, Nat.mul_comm, ← Nat.pow_succ]

theorem mem_nodes (hd : d ≤ D) (hk : node next B m root d k = some a) : a ∈ nodes next B D m root := ⟨d, hd, k, hk⟩

theorem root_mem : root ∈ nodes next B D m root := ⟨0, zero_le _, 0, rfl⟩

theorem node_congr (h : ∀ d' < d, ∀ k a, node next B m root d' k = some a → ∀ i, next (m' a i) = next (m a i)) :
    node next B m' root d k = node next B m root d k := by
  induction d generalizing k with
  | zero => rfl
  | succ d ih =>
    rw [node_succ, node_succ, ih fun d' hd' => h d' (by omega)]
    cases hn : node next B m root d (k / B) with
    | none => rfl
    | some a => exact h d (by omega) _ a hn _

theorem node_frame (h : ∀ a ∈ nodes next B D m root, m' a = m a) (hd : d ≤ D) : node next B m' root d k = node next B m root d k :=
  node_congr fun d' hd' _ a ha i => by rw [h a ⟨d', by omega, _, ha⟩]

theorem word_frame (h : ∀ a ∈ nodes next B D m root, m' a = m a) : word next B D m' root n = word next B D m root n := by
  unfold word
  rw [node_frame h (le_refl D)]
  cases hn : node next B m root D (n / B) with
  | none => rfl
  | some a => rw [map_some, map_some, h a ⟨D, le_refl D, _, hn⟩]

theorem nodes_congr (h : ∀ d ≤ D, ∀ k, node next B m' root d k = node next B m root d k) :
    nodes next B D m' root = nodes next B D m root := by
  ext a
  constructor
  · rintro ⟨d, hd, k, hk⟩
    exact ⟨d, hd, k, (h d hd k).symm.trans hk⟩
  · rintro ⟨d, hd, k, hk⟩
    exact ⟨d, hd, k, (h d hd k).trans hk⟩

theorem Distinct.congr (hdist : Distinct next B D m root) (h : ∀ d ≤ D, ∀ k, node next B m' root d k = node next B m root d k) :
    Distinct next B D m' root := by
  intro d d' k k' a hd hd' hk hk'
  exact hdist d d' k k' a hd hd' ((h d hd k).symm.trans hk) ((h d' hd' k').symm.trans hk')

/-! ## Subtrees -/

/-- The nodes at and below node `k` of depth `d`. -/
def below (next : W → Option A) (B D : Nat) (m : A → Nat → W) (root : A) (d k : Nat) : Set A :=
  {a | ∃ e, d + e ≤ D ∧ ∃ k', k' / B ^ e = k ∧ node next B m root (d + e) k' = some a}

theorem node_lt (hB : 0 < B) (hk : node next B m root d k = some a) : k < B ^ d := by
  induction d generalizing k a with
  | zero =>
    by_cases h : k = 0
    · simp [h]
    · simp [node, h] at hk
  | succ d ih =>
    rw [node_succ, bind_eq_some_iff] at hk
    obtain ⟨b, hb, -⟩ := hk
    exact (div_lt_iff_lt_mul hB).1 (ih hb)

theorem below_root (hB : 0 < B) : below next B D m root 0 0 = nodes next B D m root := by
  ext a
  constructor
  · rintro ⟨e, he, k, -, hk⟩
    exact ⟨0 + e, he, k, hk⟩
  · rintro ⟨d, hd, k, hk⟩
    refine ⟨d, by omega, k, div_eq_of_lt (node_lt hB hk), ?_⟩
    rwa [zero_add]

theorem mem_below (hB : 0 < B) (hd : d ≤ D) (hk : node next B m root d k = some a) {b : A} :
    b ∈ below next B D m root d k ↔ b = a ∨ ∃ i < B, b ∈ below next B D m root (d + 1) (B * k + i) := by
  constructor
  · rintro ⟨e, he, k', hk', hb⟩
    cases e with
    | zero =>
      rw [Nat.pow_zero, Nat.div_one] at hk'
      subst hk'
      exact .inl (some.inj (hb.symm.trans hk))
    | succ e =>
      refine .inr ⟨k' / B ^ e % B, mod_lt _ hB, e, by omega, k', ?_, ?_⟩
      · rw [← hk', Nat.pow_succ, ← Nat.div_div_eq_div_mul, Nat.div_add_mod]
      · rwa [add_assoc, add_comm 1]
  · rintro (rfl | ⟨i, hi, e, he, k', hk', hb⟩)
    · exact ⟨0, by omega, k, by simp, hk⟩
    · refine ⟨e + 1, by omega, k', ?_, ?_⟩
      · rw [Nat.pow_succ, ← Nat.div_div_eq_div_mul, hk', Nat.mul_add_div hB, Nat.div_eq_of_lt hi, Nat.add_zero]
      · rwa [add_comm e, ← add_assoc]

theorem Distinct.below_disjoint (hdist : Distinct next B D m root) {i j : Nat} (hij : i ≠ j) {b : A}
    (hi : b ∈ below next B D m root d (B * k + i)) : b ∉ below next B D m root d (B * k + j) := by
  rintro ⟨e', he', k2, hk2, hb2⟩
  obtain ⟨e, he, k1, hk1, hb1⟩ := hi
  obtain ⟨hd, rfl⟩ := hdist _ _ _ _ b he he' hb1 hb2
  obtain rfl : e = e' := by omega
  exact hij (add_left_cancel (hk1.symm.trans hk2))

theorem Distinct.not_mem_below (hdist : Distinct next B D m root) (hd : d ≤ D) (hk : node next B m root d k = some a) {k' : Nat} :
    a ∉ below next B D m root (d + 1) k' := by
  rintro ⟨e, he, k1, -, hb⟩
  have := (hdist _ _ _ _ a hd he hk hb).1
  omega

theorem below_eq_empty (hk : node next B m root d k = none) : below next B D m root d k = ∅ := by
  ext b
  constructor
  · rintro ⟨e, -, k', hk', hb⟩
    rw [node_eq_none e (hk'.symm ▸ hk)] at hb
    cases hb
  · exact False.elim

/-! ## Words -/

section
variable [DecidableEq A]

/-- The word `i` of node `a` becomes `w`. -/
def write (m : A → Nat → W) (a : A) (i : Nat) (w : W) : A → Nat → W := update m a (update (m a) i w)

theorem write_same {w : W} : write m a i w a i = w := by simp [write]

theorem write_of_ne {w : W} {b : A} (hb : b ≠ a) : write m a i w b = m b := update_of_ne hb ..

theorem write_of_ne_index {w : W} {j : Nat} (hj : j ≠ i) : write m a i w a j = m a j := by simp [write, hj]

theorem node_write (hdist : Distinct next B D m root) (hk : node next B m root D k = some a) {w : W} (hd : d ≤ D) {k' : Nat} :
    node next B (write m a i w) root d k' = node next B m root d k' := by
  refine node_congr fun d' hd' k1 b hb j => ?_
  have hne : b ≠ a := by
    rintro rfl
    have := (hdist d' D k1 k b (by omega) (le_refl D) hb hk).1
    omega
  rw [write_of_ne hne]

theorem word_write (hdist : Distinct next B D m root) (hB : 0 < B) (hk : node next B m root D (n / B) = some a) {w : W} {n' : Nat} :
    word next B D (write m a (n % B) w) root n' = if n' = n then some w else word next B D m root n' := by
  unfold word
  rw [node_write hdist hk (le_refl D)]
  by_cases hn : n' = n
  · rw [if_pos hn, hn, hk, map_some, write_same]
  rw [if_neg hn]
  cases hn' : node next B m root D (n' / B) with
  | none => rfl
  | some b =>
    rw [map_some, map_some]
    by_cases hba : b = a
    · subst hba
      have hdiv := (hdist D D _ _ b (le_refl D) (le_refl D) hn' hk).2
      have hmod : n' % B ≠ n % B := by
        intro hmod
        have h1 := div_add_mod n' B
        have h2 := div_add_mod n B
        rw [hdiv, hmod] at h1
        exact hn (h1.symm.trans h2)
      rw [write_of_ne_index hmod]
    · rw [write_of_ne hba]

/-! ## A new node -/

theorem node_extend (hdist : Distinct next B D m root) (hfresh : c ∉ nodes next B D m root) (hd : d < D) (hi : i < B)
    (hk : node next B m root d k = some a) (hnone : next (m a i) = none) {z : Nat → W} (hz : ∀ j, next (z j) = none) {w : W}
    (hw : next w = some c) {d' k' : Nat} (hd' : d' ≤ D) :
    node next B (write (update m c z) a i w) root d' k' =
      if d' = d + 1 ∧ k' = B * k + i then some c else node next B m root d' k' := by
  have hac : a ≠ c := fun h => hfresh (h ▸ mem_nodes (by omega) hk)
  induction d' generalizing k' with
  | zero => rw [if_neg (by omega)]; rfl
  | succ e ih =>
    rw [node_succ, ih (by omega)]
    by_cases hc : e = d + 1 ∧ k' / B = B * k + i
    · -- The children of the new node.
      rw [if_pos hc, if_neg (by omega), bind_some, write_of_ne hac.symm, update_self, hz, node_succ, hc.1, hc.2,
        node_child hi hk, hnone, bind_none]
    rw [if_neg hc]
    by_cases hp : e = d ∧ k' / B = k
    · obtain ⟨rfl, rfl⟩ := hp
      rw [hk, bind_some]
      by_cases hki : k' % B = i
      · have hk' : k' = B * (k' / B) + i := by rw [← hki, div_add_mod]
        rw [if_pos ⟨rfl, hk'⟩, hki, write_same, hw]
      · have hk' : ¬k' = B * (k' / B) + i := fun h => hki (by rw [h, mul_add_mod, mod_eq_of_lt hi])
        rw [if_neg fun h => hk' h.2, write_of_ne_index hki, update_of_ne hac, node_succ, hk, bind_some]
    · rw [if_neg, node_succ]
      · cases he : node next B m root e (k' / B) with
        | none => rfl
        | some b =>
          have hba : b ≠ a := fun h => hp (hdist e d _ _ a (by omega) (by omega) (h ▸ he) hk)
          have hbc : b ≠ c := fun h => hfresh (h ▸ mem_nodes (by omega) he)
          rw [bind_some, bind_some, write_of_ne hba, update_of_ne hbc]
      · rintro ⟨he, hk'⟩
        refine hp ⟨by omega, ?_⟩
        rw [hk', mul_add_div (by omega), div_eq_of_lt hi, add_zero]

section
variable (hdist : Distinct next B D m root) (hfresh : c ∉ nodes next B D m root) (hd : d < D) (hi : i < B)
  (hk : node next B m root d k = some a) (hnone : next (m a i) = none) {z : Nat → W} (hz : ∀ j, next (z j) = none) {w : W}
  (hw : next w = some c)
include hdist hfresh hd hi hk hnone hz hw

theorem Distinct.extend : Distinct next B D (write (update m c z) a i w) root := by
  have hold : ∀ {e k'}, e ≤ D → node next B m root e k' ≠ some c := fun he h => hfresh (mem_nodes he h)
  intro d1 d2 k1 k2 b h1 h2 hb1 hb2
  rw [node_extend hdist hfresh hd hi hk hnone hz hw h1] at hb1
  rw [node_extend hdist hfresh hd hi hk hnone hz hw h2] at hb2
  split at hb1 <;> split at hb2
  case isTrue.isTrue e1 e2 => exact ⟨e1.1.trans e2.1.symm, e1.2.trans e2.2.symm⟩
  case isTrue.isFalse => exact absurd (some.inj hb1 ▸ hb2) (hold h2)
  case isFalse.isTrue => exact absurd (some.inj hb2 ▸ hb1) (hold h1)
  case isFalse.isFalse => exact hdist _ _ _ _ _ h1 h2 hb1 hb2

theorem nodes_extend : nodes next B D (write (update m c z) a i w) root = insert c (nodes next B D m root) := by
  have hnew : node next B m root (d + 1) (B * k + i) = none := by rw [node_child hi hk, hnone]
  ext b
  constructor
  · rintro ⟨e, he, k', hb⟩
    rw [node_extend hdist hfresh hd hi hk hnone hz hw he] at hb
    split at hb
    case isTrue => exact .inl (some.inj hb).symm
    case isFalse => exact .inr ⟨e, he, k', hb⟩
  · rintro (rfl | ⟨e, he, k', hb⟩)
    · exact ⟨d + 1, hd, B * k + i, by rw [node_extend hdist hfresh hd hi hk hnone hz hw hd, if_pos ⟨rfl, rfl⟩]⟩
    · refine ⟨e, he, k', ?_⟩
      rw [node_extend hdist hfresh hd hi hk hnone hz hw he, if_neg, hb]
      rintro ⟨rfl, rfl⟩
      rw [hnew] at hb
      cases hb

theorem word_extend : word next B D (write (update m c z) a i w) root n =
    if d + 1 = D ∧ n / B = B * k + i then some (z (n % B)) else word next B D m root n := by
  have hac : a ≠ c := fun h => hfresh (h ▸ mem_nodes (by omega) hk)
  unfold word
  rw [node_extend hdist hfresh hd hi hk hnone hz hw (le_refl D)]
  by_cases hc : D = d + 1 ∧ n / B = B * k + i
  · rw [if_pos hc, if_pos ⟨hc.1.symm, hc.2⟩, map_some, write_of_ne hac.symm, update_self]
  rw [if_neg hc, if_neg fun h => hc ⟨h.1.symm, h.2⟩]
  cases hb : node next B m root D (n / B) with
  | none => rfl
  | some b =>
    have hba : b ≠ a := by
      rintro rfl
      have := (hdist D d _ _ b (le_refl D) (by omega) hb hk).1
      omega
    have hbc : b ≠ c := fun h => hfresh (h ▸ mem_nodes (le_refl D) hb)
    rw [map_some, map_some, write_of_ne hba, update_of_ne hbc]

end

end

end

end Radix
