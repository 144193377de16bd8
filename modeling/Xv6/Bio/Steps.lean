import Xv6.Bio.Agree

/-!
# Every step keeps the cache in agreement with the disk

One lemma for each operation, and from them one for a step of the machine.
-/

namespace Xv6.Bio

open Prog Fs
open LogLayer (Log)
open Function (update update_self update_of_ne)
open Option Mach

section
variable {N : Nat} {m m' : Mach N} {g : Fin N → Acct} {pin : List Nat} {t : Fin N} {i b : Nat} {p : K Unit}

/-- The invariant holds with some account of the thread that has made the step. -/
def Kept (m : Mach N) (g : Fin N → Acct) (t : Fin N) : Prop := ∃ a pin, Inv m (update g t a) pin

/-! ## `bread` -/

theorem refcnt_same (m : Mach N) (i n j : Nat) :
    ((m.setBuf i { m.buf i with refcnt := n }).buf j).block = (m.buf j).block ∧
    ((m.setBuf i { m.buf i with refcnt := n }).buf j).holder = (m.buf j).holder ∧
    ((m.setBuf i { m.buf i with refcnt := n }).buf j).valid = (m.buf j).valid ∧
    ((m.setBuf i { m.buf i with refcnt := n }).buf j).data = (m.buf j).data := by
  by_cases e : j = i
  · subst e
    rw [setBuf_self]
    exact ⟨rfl, rfl, rfl, rfl⟩
  · rw [setBuf_ne _ _ e]
    exact ⟨rfl, rfl, rfl, rfl⟩

theorem Inv.hit {k : Block → K Unit} (h : Inv m g pin) (ht : m.thr t = ⟨.op (.inl (.bread b)) k, .no⟩)
    (hc : m.cached b = some i) :
    Kept ((m.setBuf i { m.buf i with refcnt := (m.buf i).refcnt + 1 }).setThr t (.op (.inl (.bread b)) k) (.got i)) g t := by
  refine ⟨g t, pin, h.inert rfl (h.shape.hit (by rw [ht]) hc) (h.contents.same rfl (refcnt_same m i _) rfl
    (fun c hc => .inl hc) ?_) (h.coms.same rfl (fun _ => busy (congrArg Thread.prog ht)) rfl rfl rfl) (refcnt_same m i _) (fun j => by simp) rfl ?_⟩
  · exact fun c hc d hd => ⟨c, hc, hd⟩
  · have := h.obey t
    rw [ht] at this
    exact this

theorem Inv.recycle {k : Block → K Unit} (h : Inv m g pin) (ht : m.thr t = ⟨.op (.inl (.bread b)) k, .no⟩)
    (hc : m.cached b = none) (hv : m.victim = some i) :
    Kept ((m.setBuf i { m.buf i with block := some b, valid := false, refcnt := 1 }).setThr t (.op (.inl (.bread b)) k)
      (.got i)) g t := by
  obtain ⟨hi, h0⟩ := h.shape.victim_some hv
  obtain ⟨-, hfree, -⟩ := h.shape.free hi h0
  have hne : ∀ j, j ≠ i → ((m.setBuf i { m.buf i with block := some b, valid := false, refcnt := 1 }).setThr t
      (.op (.inl (.bread b)) k) (.got i)).buf j = m.buf j := fun j hj => setBuf_ne _ _ hj
  refine ⟨g t, pin, h.advance rfl (h.shape.recycle (by rw [ht]) hc hv) ?_ (h.coms.same rfl (fun _ => busy (congrArg Thread.prog ht)) rfl rfl rfl)
    (other_held hne (.inl hfree)) (fun c x hx => ?_) ?_⟩
  · refine h.contents.touch hne (fun j hj hji c hc => ⟨rfl, rfl, id, fun x hx hc => ⟨x, hx, hc⟩⟩) (fun c hc hv => ?_)
    simp at hv
  · refine h.held_ne hne (fun ht => ?_) (fun j _ => by simp) hx
    rw [hfree] at ht
    cases ht
  · have := h.obey t
    rw [ht] at this
    exact this

theorem Inv.bget (h : Inv m g pin) {k : Block → K Unit} (ht : m.thr t = ⟨.op (.inl (.bread b)) k, .no⟩)
    (hm : m.bget t b (.op (.inl (.bread b)) k) = some m') : Kept m' g t := by
  unfold Mach.bget at hm
  cases hc : m.cached b with
  | some i =>
    rw [hc] at hm
    cases hm
    exact h.hit ht hc
  | none =>
    rw [hc] at hm
    cases hv : m.victim with
    | some i =>
      simp only [hv] at hm
      cases hm
      exact h.recycle ht hc hv
    | none =>
      simp only [hv] at hm
      cases hm

theorem Inv.acquire (h : Inv m g pin) (ht : m.thr t = ⟨p, .got i⟩) (hm : m.acquire t p i = some m') : Kept m' g t := by
  unfold Mach.acquire at hm
  split_ifs at hm with hfree
  cases hm
  have hw := h.shape.wait t
  rw [ht] at hw
  obtain ⟨hi, b, k, hp, hb⟩ := hw
  have hne : ∀ j, j ≠ i → ((m.setBuf i { m.buf i with holder := some t }).setThr t p (.locked i)).buf j = m.buf j :=
    fun j hj => setBuf_ne _ _ hj
  refine ⟨g t, pin, h.advance rfl (h.shape.acquire ht hfree) ?_ (h.coms.same rfl (fun _ => busy hp) rfl rfl rfl)
    (other_held hne (.inl hfree)) (fun c x hx => ?_) ?_⟩
  · refine h.contents.keep h.shape hi hb hne rfl rfl (fun _ _ => rfl) (by simp) (by simp) ?_
    -- nobody held it, so it was as on the disk
    rintro (hd | ⟨u, x, hu, -⟩)
    · exact .inl (by simpa using hd)
    · rw [hfree] at hu
      cases hu
  · refine h.held_ne hne (fun ht => ?_) (fun j hj => by simpa using hj.symm) hx
    rw [hfree] at ht
    cases ht
  · have := h.obey t
    rw [ht] at this
    exact this

theorem fill_eq (m : Mach N) (t : Fin N) (i b : Nat) (k : Block → K Unit) :
    ∃ y, y = (if (m.buf i).valid then (m.buf i).data else m.disk b) ∧
      m.fill t i b k = (m.setBuf i { m.buf i with valid := true, data := y }).setThr t (k y) .no := by
  refine ⟨_, rfl, ?_⟩
  unfold fill
  by_cases hv : (m.buf i).valid = true
  · have hself : ({ m.buf i with valid := true, data := (m.buf i).data } : Buf N) = m.buf i := by
      rw [← hv]
    rw [if_pos hv, if_pos hv, hself, setBuf, Function.update_eq_self]
  · rw [if_neg hv, if_neg hv]

theorem Inv.fill {k : Block → K Unit} (h : Inv m g pin) (ht : m.thr t = ⟨.op (.inl (.bread b)) k, .locked i⟩) :
    Kept (m.fill t i b k) g t := by
  have hw := h.shape.wait t
  have hob := h.obey t
  rw [ht] at hw hob
  obtain ⟨hi, hhold, b', k', hp, hb⟩ := hw
  rw [ht] at hp
  obtain rfl : b = b' := by
    cases hp
    rfl
  obtain ⟨y, hy, e⟩ := fill_eq m t i b k
  rw [e]
  have hnone : (g t).marks b = none := by
    by_contra hne
    obtain ⟨x, hx⟩ := ne_none_iff_exists'.1 hne
    obtain ⟨j, hj, h1, -, h2, -⟩ := h.held t b x hx
    obtain rfl := h.shape.inj j hj i hi b h1 hb
    exact h2 (by rw [ht])
  -- the holder has not changed it yet
  have hclean : ((m.buf i).valid = true → Clean m g i b) → y = m.disk b := by
    intro hcl
    rw [hy]
    split_ifs with hv
    · rcases hcl hv with hd | ⟨u, x, hu, hx, -⟩
      · exact hd
      · rw [hhold] at hu
        obtain rfl := some.inj hu
        rw [hnone] at hx
        cases hx
    · rfl
  have hne : ∀ j, j ≠ i → ((m.setBuf i { m.buf i with valid := true, data := y }).setThr t (k y) .no).buf j = m.buf j :=
    fun j hj => setBuf_ne _ _ hj
  refine ⟨⟨update (g t).marks b (some ⟨y, False⟩), (g t).com⟩, pin, h.advance rfl (h.shape.fill ht rfl rfl rfl) ?_
    (h.coms.same rfl (fun _ => busy (congrArg Thread.prog ht)) rfl rfl rfl) (other_held hne (.inr hhold)) (fun c x hx => ?_)
    (hob.2 y _ ⟨_, ⟨hnone, rfl⟩, rfl⟩)⟩
  · refine h.contents.touch hne (fun j hj hji c hc => ?_) (fun c hc _ => ?_)
    · have hcb : c ≠ b := by
        rintro rfl
        exact hji (h.shape.inj j hj i hi c hc hb)
      exact ⟨rfl, update_of_ne hcb _ _, id, fun x hx hc => ⟨x, hx, hc⟩⟩
    · obtain rfl : b = c := by simpa [hb] using hc
      constructor
      · by_cases hl : b ∈ m.log.lh
        · exact .inl hl
        · exact .inr (.inl (by simpa using hclean fun hv => (h.contents.agree i hi b hb hv).resolve_left hl))
      · intro u c hc hbc
        suffices e : y = m.disk b from .inl (by simpa using e)
        refine hclean fun hv => ?_
        by_cases e : u = t
        · subst e
          rw [update_self] at hc
          exact h.contents.inst u c hc b hbc i hi hb hv
        · rw [update_of_ne e] at hc
          exact h.contents.inst u c hc b hbc i hi hb hv
  · exact h.held_update hne hi hb (by simp) (by simpa using hhold) (by simp) (by simp) (by simp) hx

/-! ## The holder of a buffer -/

variable {k : Unit → K Unit} {l : Log}

theorem Inv.store {x : Block} (h : Inv m g pin) (ht : m.thr t = ⟨.op (.inl (.store b x)) k, .no⟩)
    (hh : m.heldBy t b = some i) : Kept ((m.setBuf i { m.buf i with data := x }).setThr t (k ()) .no) g t := by
  obtain ⟨hpre, hpost⟩ := h.op ht
  obtain ⟨y, hy⟩ := isSome_iff_exists.1 hpre
  obtain ⟨hi, hb, hhold, hv, hd⟩ := h.heldBy hh hy
  have hne : ∀ j, j ≠ i → ((m.setBuf i { m.buf i with data := x }).setThr t (k ()) .no).buf j = m.buf j :=
    fun j hj => setBuf_ne _ _ hj
  refine ⟨⟨update (g t).marks b (some ⟨x, y.dirty ∨ x ≠ y.data⟩), (g t).com⟩, pin, h.advance rfl
    (h.shape.quiet (by rw [ht]) rfl rfl fun j => ?_) ?_ (h.coms.same rfl (fun _ => busy (congrArg Thread.prog ht)) rfl rfl rfl)
    (other_held hne (.inr hhold)) (fun c z hz => ?_) (hpost () _ ⟨_, ⟨y, hy, rfl⟩, rfl⟩)⟩
  · by_cases e : j = i
    · subst e
      simp
    · rw [hne j e]
      exact ⟨rfl, rfl, rfl⟩
  · refine h.contents.keep h.shape hi hb hne rfl rfl (fun c hc => update_of_ne hc _ _) (by simp) (by simp) ?_
    intro hcl
    by_cases e : x = y.data
    · -- a store of what is there
      rcases hcl with hd' | ⟨u, z, hu, hz, hdirty⟩
      · exact .inl (by simpa [e, ← hd] using hd')
      · rw [hhold] at hu
        obtain rfl := some.inj hu
        obtain rfl : y = z := by simpa [hy] using hz
        exact .inr ⟨t, ⟨x, y.dirty ∨ x ≠ y.data⟩, by simpa using hhold, by simp, .inl hdirty⟩
    · exact .inr ⟨t, ⟨x, y.dirty ∨ x ≠ y.data⟩, by simpa using hhold, by simp, .inr e⟩
  · exact h.held_update hne hi hb (by simp) (by simpa using hhold) (by simpa using hv) (by simp) (by simp) hz

theorem logWrite_ok {l' : Log} {new : Bool} (h : LogLayer.logWrite l b = .ok (l', new)) :
    l.outstanding ≠ 0 ∧ (new = false ∧ b ∈ l.lh ∧ l' = l ∨ new = true ∧ b ∉ l.lh ∧ l' = { l with lh := l.lh ++ [b] }) := by
  unfold LogLayer.logWrite at h
  split_ifs at h with h1 h2 h3
  · cases h
    exact ⟨by omega, .inl ⟨rfl, h3, rfl⟩⟩
  · cases h
    exact ⟨by omega, .inr ⟨rfl, h3, rfl⟩⟩

section
variable (h : Inv m g pin)
include h

theorem Inv.nobody (ho : m.log.outstanding ≠ 0) (u : Fin N) : (g u).com = none := by
  by_contra hne
  obtain ⟨c, hc⟩ := ne_none_iff_exists'.1 hne
  exact ho (h.coms.com u c hc).2.2.1

theorem Inv.logWrite {new : Bool}
    (ht : m.thr t = ⟨.op (.inl (.logWrite b)) k, .no⟩) (hh : m.heldBy t b = some i)
    (hl : LogLayer.logWrite m.log b = .ok (l, new)) :
    Kept (((m.setBuf i { m.buf i with refcnt := (m.buf i).refcnt + if new then 1 else 0 }).setLog l).setThr t (k ()) .no)
      g t := by
  obtain ⟨hpre, hpost⟩ := h.op ht
  obtain ⟨y, hy⟩ := isSome_iff_exists.1 hpre
  obtain ⟨hi, hb, hhold, hv, hd⟩ := h.heldBy hh hy
  obtain ⟨ho, hcase⟩ := logWrite_ok hl
  have hnone := h.nobody ho
  obtain rfl := h.coms.nobody hnone
  have hsub : ∀ c ∈ m.log.lh, c ∈ l.lh := by
    intro c hc
    rcases hcase with ⟨-, -, rfl⟩ | ⟨-, -, rfl⟩
    · exact hc
    · exact List.mem_append_left _ hc
  have hbl : b ∈ l.lh := by
    rcases hcase with ⟨-, hb, rfl⟩ | ⟨-, -, rfl⟩
    · exact hb
    · simp
  have hpin : new = false ∧ l.lh = m.log.lh ∨ new = true ∧ b ∉ m.log.lh ∧ l.lh = m.log.lh ++ [b] := by
    rcases hcase with ⟨hn, -, rfl⟩ | ⟨hn, hb, rfl⟩
    · exact .inl ⟨hn, rfl⟩
    · exact .inr ⟨hn, hb, rfl⟩
  have hne : ∀ j, j ≠ i → (((m.setBuf i { m.buf i with refcnt := (m.buf i).refcnt + if new then 1 else 0 }).setLog l).setThr t
      (k ()) .no).buf j = m.buf j := fun j hj => setBuf_ne _ _ hj
  refine ⟨⟨update (g t).marks b (some ⟨y.data, False⟩), (g t).com⟩, l.lh, h.advance rfl
    (h.shape.log (by rw [ht]) hh hpin) ?_ (h.coms.quiet rfl (busy (congrArg Thread.prog ht)) hnone (hnone t) rfl)
    (other_held hne (.inr hhold)) (fun c z hz => ?_) (hpost () _ ⟨_, ⟨y, hy, rfl⟩, rfl⟩)⟩
  · refine h.contents.touch hne (fun j hj hji c hc => ?_) (fun c hc _ => ?_)
    · have hcb : c ≠ b := by
        rintro rfl
        exact hji (h.shape.inj j hj i hi c hc hb)
      exact ⟨rfl, update_of_ne hcb _ _, hsub c, fun x hx hc => ⟨x, hx, hc⟩⟩
    · obtain rfl : b = c := by simpa [hb] using hc
      refine ⟨.inl hbl, fun u c hc _ => ?_⟩
      by_cases e : u = t
      · subst e
        rw [update_self, hnone u] at hc
        cases hc
      · rw [update_of_ne e, hnone u] at hc
        cases hc
  · exact h.held_update hne hi hb (by simp) (by simpa using hhold) (by simpa using hv) (by simpa using hd) (by simp) hz

theorem Inv.brelse (ht : m.thr t = ⟨.op (.inl (.brelse b)) k, .no⟩)
    (hh : m.heldBy t b = some i) :
    Kept ((m.setBuf i { m.buf i with holder := none }).setThr t (.op (.inl (.brelse b)) k) (.freed i)) g t := by
  obtain ⟨⟨y, hy, hclean⟩, hpost⟩ := h.op ht
  obtain ⟨hi, hb, hhold, -, -⟩ := h.heldBy hh hy
  have hne : ∀ j, j ≠ i → ((m.setBuf i { m.buf i with holder := none }).setThr t (.op (.inl (.brelse b)) k) (.freed i)).buf j =
      m.buf j := fun j hj => setBuf_ne _ _ hj
  refine ⟨⟨update (g t).marks b none, (g t).com⟩, pin, h.advance rfl (h.shape.release (by rw [ht]) hh) ?_
    (h.coms.same rfl (fun _ => busy (congrArg Thread.prog ht)) rfl rfl rfl) (other_held hne (.inr hhold)) (fun c z hz => ?_)
    ⟨b, k, rfl, hpost () _ ⟨_, rfl, rfl⟩⟩⟩
  · refine h.contents.keep h.shape hi hb hne rfl rfl (fun c hc => update_of_ne hc _ _) (by simp) (by simp) ?_
    rintro (hd | ⟨u, z, hu, hz, hdirty⟩)
    · exact .inl (by simpa using hd)
    · rw [hhold] at hu
      obtain rfl := some.inj hu
      obtain rfl : y = z := by simpa [hy] using hz
      exact absurd hdirty hclean
  · dsimp only at hz
    have hcb : c ≠ b := by
      rintro rfl
      rw [update_self] at hz
      cases hz
    rw [update_of_ne hcb] at hz
    refine h.held_ne hne (fun _ e => ?_) (fun j _ => by simp) hz
    rw [hb] at e
    exact hcb (some.inj e).symm

theorem Inv.unref {b' : Nat} (ht : m.thr t = ⟨.op (.inl (.brelse b')) k, .freed i⟩) :
    Kept (m.unref t i (k ())) g t := by
  have hob := h.obey t
  rw [ht] at hob
  obtain ⟨c, k', hp, hob⟩ := hob
  obtain rfl : k = k' := by
    cases hp
    rfl
  have hthr : (m.unref t i (k ())).thr = update m.thr t ⟨k (), .no⟩ := by
    unfold Mach.unref
    split <;> rfl
  have hlog : (m.unref t i (k ())).log = m.log ∧ (m.unref t i (k ())).disk = m.disk ∧
      (m.unref t i (k ())).booting = m.booting := by
    unfold Mach.unref
    split <;> exact ⟨rfl, rfl, rfl⟩
  have hbuf : ∀ j, ((m.unref t i (k ())).buf j) = (m.setBuf i { m.buf i with refcnt := (m.buf i).refcnt - 1 }).buf j := by
    intro j
    unfold Mach.unref
    split <;> rfl
  have hsame : ∀ j, ((m.unref t i (k ())).buf j).block = (m.buf j).block ∧
      ((m.unref t i (k ())).buf j).holder = (m.buf j).holder ∧ ((m.unref t i (k ())).buf j).valid = (m.buf j).valid ∧
      ((m.unref t i (k ())).buf j).data = (m.buf j).data := by
    intro j
    rw [hbuf j]
    exact refcnt_same m i _ j
  refine ⟨g t, pin, h.inert hthr (h.shape.unref ht) (h.contents.same hlog.2.1 hsame rfl (fun c hc => .inl ?_)
    fun c hc d hd => ⟨c, hc, hd⟩) (h.coms.same hthr (fun _ => busy (congrArg Thread.prog ht)) rfl hlog.1 hlog.2.2) hsame
    (fun j => by simp) rfl hob⟩
  rw [hlog.1]
  exact hc

/-! ## The commit -/

theorem Inv.bwrite (ht : m.thr t = ⟨.op (.inr (.bwrite b)) k, .no⟩)
    (hh : m.heldBy t b = some i) :
    Kept ({ m with disk := update m.disk b (m.buf i).data }.setThr t (k ()) .no) g t := by
  obtain ⟨hpre, hpost⟩ := h.op ht
  obtain ⟨y, hy⟩ := isSome_iff_exists.1 hpre
  obtain ⟨hi, hb, hhold, hv, hd⟩ := h.heldBy hh hy
  refine ⟨⟨update (g t).marks b (some ⟨y.data, False⟩), (g t).com.map fun c => { c with inst := b :: c.inst }⟩, pin,
    h.advance rfl (h.shape.quiet (by rw [ht]) rfl rfl fun j => ⟨rfl, rfl, rfl⟩) ?_ ?_ (fun j u _ hu => ⟨rfl, hu, rfl, rfl⟩)
    (fun c z hz => h.held_update (x := ⟨y.data, False⟩) (fun _ _ => rfl) hi hb rfl hhold hv hd (by simp) hz) (hpost () _ ⟨y, hy, rfl⟩)⟩
  · refine h.contents.touch (i := i) (fun j _ => rfl) (fun j hj hji c hc => ?_) (fun c hc _ => ?_)
    · have hcb : c ≠ b := by
        rintro rfl
        exact hji (h.shape.inj j hj i hi c hc hb)
      refine ⟨update_of_ne hcb _ _, update_of_ne hcb _ _, id, fun x hx hc => ?_⟩
      obtain ⟨c', hc', rfl⟩ := map_eq_some_iff.1 hx
      exact ⟨c', hc', (List.mem_cons.1 hc).resolve_left hcb⟩
    · obtain rfl : b = c := by simpa [hb] using hc
      have hsame : (m.buf i).data = update m.disk b (m.buf i).data b := by
        rw [update_self]
      exact ⟨.inr (.inl hsame), fun _ _ _ _ => .inl hsame⟩
  · cases hc : (g t).com with
    | none => exact h.coms.same rfl (fun _ => busy (congrArg Thread.prog ht)) (by rw [hc]; rfl) rfl rfl
    | some c =>
      obtain ⟨hlh, hpin, -⟩ := h.coms.com t c hc
      exact h.coms.commit rfl hc rfl hlh hpin rfl rfl rfl

theorem Inv.bunpin (ht : m.thr t = ⟨.op (.inr (.bunpin b)) k, .no⟩)
    (hh : m.heldBy t b = some i) :
    Kept ((m.setBuf i { m.buf i with refcnt := (m.buf i).refcnt - 1 }).setThr t (k ()) .no) g t := by
  obtain ⟨⟨-, c, hc, hbc⟩, hpost⟩ := h.op ht
  obtain ⟨hlh, hpin, -⟩ := h.coms.com t c hc
  rw [hpin] at hbc
  refine ⟨⟨(g t).marks, some { c with pin := c.pin.erase b }⟩, pin.erase b, h.inert rfl (h.shape.unpin (by rw [ht]) hh hbc)
    (h.contents.same rfl (refcnt_same m i _) rfl (fun c hc => .inl hc) fun d hd x hx => ⟨c, hc, ?_⟩)
    (h.coms.commit rfl hc rfl hlh (by rw [hpin]) rfl rfl rfl) (refcnt_same m i _) (fun j => by simp) rfl
    (hpost () _ ⟨c, hc, rfl⟩)⟩
  obtain rfl := some.inj hd
  exact hx

/-! ## Operations on `struct log` and the inode table -/

theorem Inv.calm {β : Type} {e : Kop β} {k : β → K Unit} {a : Acct} (ht : m.thr t = ⟨.op e k, .no⟩)
    (hthr : m'.thr = update m.thr t ⟨p, .no⟩) (hlru : m'.lru = m.lru) (hbuf : m'.buf = m.buf)
    (hdisk : m'.disk = m.disk) (hmarks : a.marks = (g t).marks)
    (hlh : ∀ b ∈ m.log.lh, b ∈ m'.log.lh ∨ ∃ u c, (g u).com = some c ∧ b ∈ c.inst)
    (hinst : ∀ c, a.com = some c → ∀ b ∈ c.inst, ∃ c', (g t).com = some c' ∧ b ∈ c'.inst)
    (hcom : Coms m' (update g t a) pin) (hob : Obeys kProto p a Ends) : Kept m' g t :=
  ⟨a, pin, h.inert hthr (h.shape.quiet (by rw [ht]) hthr hlru fun j => by rw [hbuf]; exact ⟨rfl, rfl, rfl⟩)
    (h.contents.same hdisk (fun j => by rw [hbuf]; exact ⟨rfl, rfl, rfl, rfl⟩) hmarks hlh hinst) hcom
    (fun j => by rw [hbuf]; exact ⟨rfl, rfl, rfl, rfl⟩) (fun j => by simp) hmarks hob⟩

theorem Inv.itable {f : Itable → Itable} {k : Itable → K Unit}
    (ht : m.thr t = ⟨.op (.inl (.itable f)) k, .no⟩) : Kept ({ m with itable := f m.itable }.setThr t (k m.itable) .no) g t :=
  h.calm ht rfl rfl rfl rfl rfl (fun _ hb => .inl hb) (fun c hc _ hb => ⟨c, hc, hb⟩)
    (h.coms.same rfl (fun _ => busy (congrArg Thread.prog ht)) rfl rfl rfl) ((h.op ht).2 _ _ ⟨_, rfl, rfl⟩)

theorem Inv.full {b : Bool} {k : Bool → K Unit} (ht : m.thr t = ⟨.op (.inl .full) k, .no⟩) :
    Kept (m.setThr t (k b) .no) g t :=
  h.calm ht rfl rfl rfl rfl rfl (fun _ hb => .inl hb) (fun c hc _ hb => ⟨c, hc, hb⟩)
    (h.coms.same rfl (fun _ => busy (congrArg Thread.prog ht)) rfl rfl rfl) ((h.op ht).2 _ _ ⟨_, rfl, rfl⟩)

theorem Inv.alone (hbusy : ¬(m.thr t).Idle) (ht : (g t).com = none) (hc : m.log.committing = false)
    (u : Fin N) : (g u).com = none := by
  by_contra hne
  obtain ⟨c, hcu⟩ := ne_none_iff_exists'.1 hne
  rcases (h.coms.com u c hcu).2.2.2 with e | e
  · rw [hc] at e
    cases e
  · exact hbusy (h.coms.boot e t ht)

theorem Inv.beginOp (ht : m.thr t = ⟨.op (.inr .beginOp) k, .no⟩)
    (hl : LogLayer.beginOp m.log = some l) : Kept ((m.setLog l).setThr t (k ()) .no) g t := by
  obtain ⟨hpre, hpost⟩ := h.op ht
  have hbusy := busy (congrArg Thread.prog ht)
  unfold LogLayer.beginOp at hl
  split_ifs at hl with h1 h2
  cases hl
  have hnone := h.alone hbusy hpre (by simpa using h1)
  obtain rfl := h.coms.nobody hnone
  exact h.calm ht rfl rfl rfl rfl rfl (fun _ hb => .inl hb) (fun c hc _ hb => ⟨c, hc, hb⟩)
    (h.coms.quiet rfl hbusy hnone (hnone t) rfl) (hpost () _ rfl)

end

theorem Coms.begins {mk : Marks} (h : Coms m g pin) (hnone : ∀ u, (g u).com = none) (hthr : ¬(m.thr t).Idle)
    (hlog : m'.log = { m.log with outstanding := 0, committing := true }) (hboot : m'.booting = m.booting) :
    Coms m' (update g t ⟨mk, some ⟨m.log.lh, [], m.log.lh⟩⟩) m.log.lh := by
  have hother : ∀ u, u ≠ t → (update g t ⟨mk, some ⟨m.log.lh, [], m.log.lh⟩⟩ u).com = none := by
    intro u hu
    rw [update_of_ne hu, hnone u]
  have hself : ∀ u, (update g t ⟨mk, some ⟨m.log.lh, [], m.log.lh⟩⟩ u).com ≠ none → u = t := by
    intro u hu
    by_contra e
    exact hu (hother u e)
  have hnb : m'.booting = false := by
    rw [hboot, ← Bool.not_eq_true]
    exact fun hb => hthr (h.boot hb t (hnone t))
  refine ⟨fun u c hc => ?_, fun u v hu hv => (hself u hu).trans (hself v hv).symm, fun hn => ?_, fun hb => ?_⟩
  · obtain rfl := hself u (by rw [hc]; exact some_ne_none c)
    rw [update_self] at hc
    obtain rfl := some.inj hc
    rw [hlog]
    exact ⟨rfl, rfl, rfl, .inl rfl⟩
  · have := hn t
    rw [update_self] at this
    cases this
  · rw [hnb] at hb
    cases hb

theorem Inv.endOp {full : Bool} {k : Option (List Nat) → K Unit} (h : Inv m g pin)
    (ht : m.thr t = ⟨.op (.inr .endOp) k, .no⟩) (hm : m.exec t full (.op (.inr .endOp) k) = some m') : Kept m' g t := by
  obtain ⟨hpre, hpost⟩ := h.op ht
  have hbusy := busy (congrArg Thread.prog ht)
  simp only [exec, LogLayer.endOp] at hm
  by_cases hc : m.log.committing = true
  · simp [hc] at hm
  have hnone := h.alone hbusy hpre (by simpa using hc)
  obtain rfl := h.coms.nobody hnone
  by_cases ho : m.log.outstanding - 1 = 0
  · simp only [hc, ho, if_true, Bool.false_eq_true, if_false] at hm
    obtain rfl := some.inj hm
    exact h.calm (a := ⟨(g t).marks, some ⟨m.log.lh, [], m.log.lh⟩⟩) ht rfl rfl rfl rfl rfl (fun _ hb => .inl hb)
      (fun c hc b hb => by cases hc; cases hb)
      (h.coms.begins hnone hbusy rfl rfl) (hpost (some m.log.lh) _ rfl)
  · simp only [hc, ho, Bool.false_eq_true, if_false] at hm
    obtain rfl := some.inj hm
    exact h.calm (a := ⟨(g t).marks, none⟩) ht rfl rfl rfl rfl rfl (fun _ hb => .inl hb) (fun c hc b hb => by cases hc)
      (h.coms.quiet rfl hbusy hnone rfl rfl) (hpost none _ rfl)

theorem Inv.loadHead {lh : List Nat} (h : Inv m g pin)
    (ht : m.thr t = ⟨.op (.inr (.loadHead lh)) k, .no⟩) :
    Kept ((m.setLog { m.log with lh := lh }).setThr t (k ()) .no) g t := by
  obtain ⟨⟨c, hc, hlh, hpin⟩, hpost⟩ := h.op ht
  obtain ⟨hlh', hpin', -⟩ := h.coms.com t c hc
  refine h.calm (a := ⟨(g t).marks, some ⟨lh, [], []⟩⟩) ht rfl rfl rfl rfl rfl (fun b hb => ?_) (fun d hd b hb => ?_)
    (h.coms.commit rfl hc rfl rfl (hpin.symm.trans hpin') rfl rfl rfl) (hpost () _ rfl)
  · rw [← hlh', hlh] at hb
    cases hb
  · cases hd
    cases hb

theorem Inv.clearHead (h : Inv m g pin) (ht : m.thr t = ⟨.op (.inr .clearHead) k, .no⟩) :
    Kept ((m.setLog { m.log with lh := [] }).setThr t (k ()) .no) g t := by
  obtain ⟨⟨c, hc, -, hinst⟩, hpost⟩ := h.op ht
  obtain ⟨hlh', hpin', -⟩ := h.coms.com t c hc
  refine h.calm (a := ⟨(g t).marks, some { c with lh := [] }⟩) ht rfl rfl rfl rfl rfl (fun b hb => ?_)
    (fun d hd b hb => ⟨c, hc, ?_⟩)
    (h.coms.commit rfl hc rfl rfl hpin' rfl rfl rfl) (hpost () _ ⟨c, hc, rfl⟩)
  · exact .inr ⟨t, c, hc, hinst b (by rw [hlh']; exact hb)⟩
  · cases hd
    exact hb

theorem Inv.finish (h : Inv m g pin) (ht : m.thr t = ⟨.op (.inr .finish) k, .no⟩) :
    Kept ({ m with log := { m.log with committing := false }, booting := false }.setThr t (k ()) .no) g t := by
  obtain ⟨⟨c, hc, hlh, hpin⟩, hpost⟩ := h.op ht
  obtain ⟨hlh', hpin', -⟩ := h.coms.com t c hc
  have hall : ∀ u, (update g t ⟨(g t).marks, none⟩ u).com = none := by
    intro u
    by_cases e : u = t
    · subst e
      rw [update_self]
    · rw [update_of_ne e]
      by_contra hne
      exact e (h.coms.one u t hne (by rw [hc]; exact some_ne_none c))
  refine h.calm (a := ⟨(g t).marks, none⟩) ht rfl rfl rfl rfl rfl (fun b hb => .inl hb) (fun d hd b hb => by cases hd) ?_
    (hpost () _ rfl)
  refine ⟨fun u c hc => ?_, fun u _ hu _ => absurd (hall u) hu, fun _ => ?_, fun hb => by cases hb⟩
  · rw [hall u] at hc
    cases hc
  · rw [← hpin', hpin, ← hlh]
    exact hlh'

/-! ## A step of the machine -/

theorem Inv.exec {full : Bool} (h : Inv m g pin) (ht : m.thr t = ⟨p, .no⟩) (hm : m.exec t full p = some m') :
    Kept m' g t := by
  cases p with
  | ret u | panic s => cases hm
  | op e k =>
    cases e with
    | inl e =>
      cases e with
      | bread b => exact h.bget ht hm
      | store b x =>
        obtain ⟨i, hi, rfl⟩ := map_eq_some_iff.1 hm
        exact h.store ht hi
      | logWrite b =>
        simp only [exec] at hm
        split at hm
        · cases hm
          rename_i hi hl
          exact h.logWrite ht hi hl
        · cases hm
      | brelse b =>
        obtain ⟨i, hi, rfl⟩ := map_eq_some_iff.1 hm
        exact h.brelse ht hi
      | itable f =>
        cases hm
        exact h.itable ht
      | full =>
        cases hm
        exact h.full ht
    | inr e =>
      cases e with
      | bwrite b =>
        obtain ⟨i, hi, rfl⟩ := map_eq_some_iff.1 hm
        exact h.bwrite ht hi
      | bunpin b =>
        obtain ⟨i, hi, rfl⟩ := map_eq_some_iff.1 hm
        exact h.bunpin ht hi
      | beginOp =>
        obtain ⟨l, hl, rfl⟩ := map_eq_some_iff.1 hm
        exact h.beginOp ht hl
      | endOp => exact h.endOp ht hm
      | loadHead lh =>
        cases hm
        exact h.loadHead ht
      | clearHead =>
        cases hm
        exact h.clearHead ht
      | finish =>
        cases hm
        exact h.finish ht

end

end Xv6.Bio
