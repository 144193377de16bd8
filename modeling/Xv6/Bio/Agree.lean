import Xv6.Bio.Shape

/-!
# Cached blocks agree with the disk

The invariant of the machine: a valid buffer that differs from its block on the disk is listed in the transaction, or its
holder has changed it and not yet logged it. A buffer that nobody holds is thus listed or equal to the disk.
-/

namespace Xv6.Bio

open Prog Fs Option
open Function (update update_self update_of_ne)

section
variable {N : Nat}

/-- The buffer is as its block on the disk, or changed by its holder. -/
def Clean (m : Mach N) (g : Fin N → Acct) (i b : Nat) : Prop :=
  (m.buf i).data = m.disk b ∨ ∃ t x, (m.buf i).holder = some t ∧ (g t).marks b = some x ∧ x.dirty

structure Contents (m : Mach N) (g : Fin N → Acct) : Prop where
  agree : ∀ i < NBUF, ∀ b, (m.buf i).block = some b → (m.buf i).valid = true → b ∈ m.log.lh ∨ Clean m g i b
  /-- What the committing thread has written home. -/
  inst : ∀ t c, (g t).com = some c → ∀ b ∈ c.inst, ∀ i < NBUF, (m.buf i).block = some b → (m.buf i).valid = true →
    Clean m g i b

def Thread.Idle (th : Thread) : Prop := (∃ u, th.prog = .ret u) ∧ th.wait = .no

/-- At most one thread commits or recovers; nobody is in a transaction then. -/
structure Coms (m : Mach N) (g : Fin N → Acct) (pin : List Nat) : Prop where
  com : ∀ t c, (g t).com = some c → c.lh = m.log.lh ∧ c.pin = pin ∧ m.log.outstanding = 0 ∧
    (m.log.committing = true ∨ m.booting = true)
  one : ∀ t u, (g t).com ≠ none → (g u).com ≠ none → t = u
  nobody : (∀ t, (g t).com = none) → pin = m.log.lh
  boot : m.booting = true → ∀ t, (g t).com = none → (m.thr t).Idle

def Ends (_ : Unit) (a : Acct) : Prop := a.com = none

def ThreadOk (p : K Unit) (w : Wait) (a : Acct) : Prop :=
  match w with
  | .freed _ => ∃ b k, p = .op (.inl (.brelse b)) k ∧ Obeys kProto (k ()) a Ends
  | _ => Obeys kProto p a Ends

structure Inv (m : Mach N) (g : Fin N → Acct) (pin : List Nat) : Prop where
  shape : Shape m pin
  contents : Contents m g
  coms : Coms m g pin
  held : ∀ t b x, (g t).marks b = some x → ∃ i < NBUF, (m.buf i).block = some b ∧ (m.buf i).holder = some t ∧
    (m.thr t).wait ≠ .locked i ∧ (m.buf i).valid = true ∧ (m.buf i).data = x.data
  obey : ∀ t, ThreadOk (m.thr t).prog (m.thr t).wait (g t)

variable {m m' : Mach N} {g : Fin N → Acct} {pin pin' : List Nat} {t : Fin N} {i b : Nat} {a : Acct} {p : K Unit} {w : Wait}

theorem Inv.advance (h : Inv m g pin) (hthr : m'.thr = update m.thr t ⟨p, w⟩) (hs : Shape m' pin')
    (hc : Contents m' (update g t a)) (hcom : Coms m' (update g t a) pin')
    (hother : ∀ j u, u ≠ t → (m.buf j).holder = some u → (m'.buf j).block = (m.buf j).block ∧ (m'.buf j).holder = some u ∧
      (m'.buf j).valid = (m.buf j).valid ∧ (m'.buf j).data = (m.buf j).data)
    (hheld : ∀ b x, a.marks b = some x → ∃ i < NBUF, (m'.buf i).block = some b ∧ (m'.buf i).holder = some t ∧
      w ≠ .locked i ∧ (m'.buf i).valid = true ∧ (m'.buf i).data = x.data)
    (hob : ThreadOk p w a) : Inv m' (update g t a) pin' := by
  refine ⟨hs, hc, hcom, fun u b x hx => ?_, fun u => ?_⟩
  · by_cases e : u = t
    · subst e
      rw [update_self] at hx
      obtain ⟨i, h1, h2, h3, h4, h5⟩ := hheld b x hx
      exact ⟨i, h1, h2, h3, by rw [hthr, update_self]; exact h4, h5⟩
    · rw [update_of_ne e] at hx
      obtain ⟨i, h1, h2, h3, h4, h5, h6⟩ := h.held u b x hx
      obtain ⟨e1, e2, e3, e4⟩ := hother i u e h3
      exact ⟨i, h1, by rw [e1]; exact h2, e2, by rw [hthr, update_of_ne e]; exact h4, by rw [e3]; exact h5,
        by rw [e4]; exact h6⟩
  · rw [hthr]
    by_cases e : u = t
    · subst e
      rw [update_self, update_self]
      exact hob
    · rw [update_of_ne e, update_of_ne e]
      exact h.obey u

theorem Inv.heldBy (h : Inv m g pin) (hh : m.heldBy t b = some i) {x : Hold} (hx : (g t).marks b = some x) :
    i < NBUF ∧ (m.buf i).block = some b ∧ (m.buf i).holder = some t ∧ (m.buf i).valid = true ∧ (m.buf i).data = x.data := by
  obtain ⟨hi, hb, hhold⟩ := h.shape.heldBy_some hh
  obtain ⟨j, hj, h1, -, -, h2, h3⟩ := h.held t b x hx
  obtain rfl := h.shape.inj i hi j hj b hb h1
  exact ⟨hi, hb, hhold, h2, h3⟩

/-! ## Steps that change no account of a transaction -/

theorem Coms.same (h : Coms m g pin) (hthr : m'.thr = update m.thr t ⟨p, w⟩)
    (hbusy : m.booting = true → ¬(m.thr t).Idle)
    (hcom : a.com = (g t).com) (hlog : m'.log = m.log) (hboot : m'.booting = m.booting) :
    Coms m' (update g t a) pin := by
  have hsame : ∀ u, (update g t a u).com = (g u).com := by
    intro u
    by_cases e : u = t
    · subst e; rw [update_self, hcom]
    · rw [update_of_ne e]
  refine ⟨fun u c hc => ?_, fun u v hu hv => ?_, fun hn => ?_, fun hb u hu => ?_⟩
  · rw [hsame] at hc
    rw [hlog, hboot]
    exact h.com u c hc
  · rw [hsame] at hu hv
    exact h.one u v hu hv
  · rw [hlog]
    exact h.nobody fun u => by rw [← hsame]; exact hn u
  · rw [hsame] at hu
    rw [hboot] at hb
    have hi := h.boot hb u hu
    by_cases e : u = t
    · subst e; exact absurd hi (hbusy hb)
    · rw [hthr, update_of_ne e]; exact hi

theorem Coms.quiet (h : Coms m g pin) (hthr : m'.thr = update m.thr t ⟨p, w⟩) (hbusy : ¬(m.thr t).Idle)
    (hnone : ∀ u, (g u).com = none) (ha : a.com = none) (hboot : m'.booting = m.booting) :
    Coms m' (update g t a) m'.log.lh := by
  have hall : ∀ u, (update g t a u).com = none := by
    intro u
    by_cases e : u = t
    · subst e; rw [update_self, ha]
    · rw [update_of_ne e, hnone u]
  refine ⟨fun u c hc => ?_, fun u _ hu _ => absurd (hall u) hu, fun _ => rfl, fun hb u _ => ?_⟩
  · rw [hall u] at hc
    cases hc
  · rw [hboot] at hb
    have hi := h.boot hb u (hnone u)
    by_cases e : u = t
    · subst e; exact absurd hi hbusy
    · rw [hthr, update_of_ne e]; exact hi

theorem Coms.commit {c c' : Com} (h : Coms m g pin) (hthr : m'.thr = update m.thr t ⟨p, w⟩) (hc : (g t).com = some c)
    (ha : a.com = some c') (hlh : c'.lh = m'.log.lh) (hpin : c'.pin = pin') (hout : m'.log.outstanding = m.log.outstanding)
    (hcom : m'.log.committing = m.log.committing) (hboot : m'.booting = m.booting) :
    Coms m' (update g t a) pin' := by
  have hother : ∀ u, u ≠ t → (g u).com = none := by
    intro u hu
    by_contra hne
    exact hu (h.one u t hne (by rw [hc]; exact some_ne_none c))
  have hself : ∀ u, (update g t a u).com ≠ none → u = t := by
    intro u hu
    by_contra e
    rw [update_of_ne e] at hu
    exact hu (hother u e)
  refine ⟨fun u d hd => ?_, fun u v hu hv => (hself u hu).trans (hself v hv).symm, fun hn => ?_, fun hb u hu => ?_⟩
  · obtain rfl := hself u (by rw [hd]; exact some_ne_none d)
    rw [update_self, ha] at hd
    obtain rfl := some.inj hd
    rw [hout, hcom, hboot]
    exact ⟨hlh, hpin, (h.com u c hc).2.2⟩
  · have := hn t
    rw [update_self, ha] at this
    cases this
  · have e : u ≠ t := by
      rintro rfl
      rw [update_self, ha] at hu
      cases hu
    rw [update_of_ne e] at hu
    rw [hboot] at hb
    rw [hthr, update_of_ne e]
    exact h.boot hb u hu

theorem Contents.same (h : Contents m g) (hdisk : m'.disk = m.disk)
    (hbuf : ∀ j, (m'.buf j).block = (m.buf j).block ∧ (m'.buf j).holder = (m.buf j).holder ∧
      (m'.buf j).valid = (m.buf j).valid ∧ (m'.buf j).data = (m.buf j).data)
    (hmarks : a.marks = (g t).marks)
    (hlh : ∀ b ∈ m.log.lh, b ∈ m'.log.lh ∨ ∃ u c, (g u).com = some c ∧ b ∈ c.inst)
    (hinst : ∀ c, a.com = some c → ∀ b ∈ c.inst, ∃ c', (g t).com = some c' ∧ b ∈ c'.inst) :
    Contents m' (update g t a) := by
  have hm : ∀ u, (update g t a u).marks = (g u).marks := by
    intro u
    by_cases e : u = t
    · subst e; rw [update_self, hmarks]
    · rw [update_of_ne e]
  have hclean : ∀ j b, Clean m g j b → Clean m' (update g t a) j b := by
    intro j b hc
    unfold Clean at *
    simp only [hbuf, hdisk, hm]
    exact hc
  refine ⟨fun j hj b h1 h2 => ?_, fun u c hc b hb j hj h1 h2 => ?_⟩
  · rw [(hbuf j).1] at h1
    rw [(hbuf j).2.2.1] at h2
    rcases h.agree j hj b h1 h2 with hl | hc
    · refine (hlh b hl).imp_right ?_
      rintro ⟨u, c, hc, hb⟩
      exact hclean j b (h.inst u c hc b hb j hj h1 h2)
    · exact .inr (hclean j b hc)
  · rw [(hbuf j).1] at h1
    rw [(hbuf j).2.2.1] at h2
    refine hclean j b ?_
    by_cases e : u = t
    · subst e
      rw [update_self] at hc
      obtain ⟨c', hc', hb'⟩ := hinst c hc b hb
      exact h.inst u c' hc' b hb' j hj h1 h2
    · rw [update_of_ne e] at hc
      exact h.inst u c hc b hb j hj h1 h2

theorem Contents.touch (h : Contents m g) (hbuf : ∀ j, j ≠ i → m'.buf j = m.buf j)
    (hne : ∀ j < NBUF, j ≠ i → ∀ b, (m.buf j).block = some b → m'.disk b = m.disk b ∧ a.marks b = (g t).marks b ∧
      (b ∈ m.log.lh → b ∈ m'.log.lh) ∧ ∀ c, a.com = some c → b ∈ c.inst → ∃ c', (g t).com = some c' ∧ b ∈ c'.inst)
    (hi : ∀ b, (m'.buf i).block = some b → (m'.buf i).valid = true →
      (b ∈ m'.log.lh ∨ Clean m' (update g t a) i b) ∧
      ∀ u c, (update g t a u).com = some c → b ∈ c.inst → Clean m' (update g t a) i b) :
    Contents m' (update g t a) := by
  have hclean : ∀ j < NBUF, j ≠ i → ∀ b, (m.buf j).block = some b → Clean m g j b →
      Clean m' (update g t a) j b := by
    rintro j hj hji b hb (hd | ⟨u, x, hu, hx, hdirty⟩)
    · left
      rw [hbuf j hji, (hne j hj hji b hb).1, hd]
    · refine .inr ⟨u, x, by rw [hbuf j hji, hu], ?_, hdirty⟩
      by_cases e : u = t
      · subst e
        rw [update_self, (hne j hj hji b hb).2.1, hx]
      · rw [update_of_ne e, hx]
  constructor
  · intro j hj b h1 h2
    by_cases hji : j = i
    · subst hji
      exact (hi b h1 h2).1
    · rw [hbuf j hji] at h1 h2
      exact (h.agree j hj b h1 h2).imp (hne j hj hji b h1).2.2.1 (hclean j hj hji b h1)
  · intro u c hc b hb j hj h1 h2
    by_cases hji : j = i
    · subst hji
      exact (hi b h1 h2).2 u c hc hb
    rw [hbuf j hji] at h1 h2
    refine hclean j hj hji b h1 ?_
    by_cases e : u = t
    · subst e
      rw [update_self] at hc
      obtain ⟨c', hc', hb'⟩ := (hne j hj hji b h1).2.2.2 c hc hb
      exact h.inst u c' hc' b hb' j hj h1 h2
    · rw [update_of_ne e] at hc
      exact h.inst u c hc b hb j hj h1 h2

theorem Contents.keep {marks : Marks} (h : Contents m g) (hs : Shape m pin) (hi : i < NBUF) (hb : (m.buf i).block = some b)
    (hbuf : ∀ j, j ≠ i → m'.buf j = m.buf j) (hdisk : m'.disk = m.disk) (hlog : m'.log = m.log)
    (hmarks : ∀ c, c ≠ b → marks c = (g t).marks c) (hblk : (m'.buf i).block = (m.buf i).block)
    (hvalid : (m'.buf i).valid = (m.buf i).valid)
    (hclean : Clean m g i b → Clean m' (update g t ⟨marks, (g t).com⟩) i b) :
    Contents m' (update g t ⟨marks, (g t).com⟩) := by
  refine h.touch hbuf (fun j hj hji c hc => ?_) (fun c hc hv => ?_)
  · have hcb : c ≠ b := by
      rintro rfl
      exact hji (hs.inj j hj i hi c hc hb)
    exact ⟨by rw [hdisk], hmarks c hcb, by rw [hlog]; exact id, fun x hx hc => ⟨x, hx, hc⟩⟩
  · rw [hblk, hb] at hc
    obtain rfl := some.inj hc
    rw [hvalid] at hv
    rw [hlog]
    refine ⟨(h.agree i hi b hb hv).imp_right hclean, fun u c hc hbc => hclean ?_⟩
    by_cases e : u = t
    · subst e
      rw [update_self] at hc
      exact h.inst u c hc b hbc i hi hb hv
    · rw [update_of_ne e] at hc
      exact h.inst u c hc b hbc i hi hb hv

/-! ## The operations of a thread -/

theorem Inv.op {β : Type} {e : Kop β} {k : β → K Unit} (h : Inv m g pin) (ht : m.thr t = ⟨.op e k, .no⟩) :
    kProto.pre _ e (g t) ∧ ∀ x a, kProto.post _ e (g t) x a → Obeys kProto (k x) a Ends := by
  have := h.obey t
  rw [ht] at this
  exact this

theorem busy {β : Type} {e : Kop β} {k : β → K Unit} {th : Thread} (ht : th.prog = .op e k) : ¬th.Idle := by
  rintro ⟨⟨u, hu⟩, -⟩
  rw [ht] at hu
  cases hu

theorem Inv.inert (h : Inv m g pin) (hthr : m'.thr = update m.thr t ⟨p, w⟩) (hs : Shape m' pin')
    (hc : Contents m' (update g t a)) (hcom : Coms m' (update g t a) pin')
    (hbuf : ∀ j, (m'.buf j).block = (m.buf j).block ∧ (m'.buf j).holder = (m.buf j).holder ∧
      (m'.buf j).valid = (m.buf j).valid ∧ (m'.buf j).data = (m.buf j).data)
    (hw : ∀ j, w ≠ .locked j) (hmarks : a.marks = (g t).marks) (hob : ThreadOk p w a) :
    Inv m' (update g t a) pin' := by
  refine h.advance hthr hs hc hcom (fun j u _ hu => ?_) (fun b x hx => ?_) hob
  · rw [(hbuf j).2.1]
    exact ⟨(hbuf j).1, hu, (hbuf j).2.2⟩
  · rw [hmarks] at hx
    obtain ⟨i, h1, h2, h3, -, h4, h5⟩ := h.held t b x hx
    obtain ⟨e1, e2, e3, e4⟩ := hbuf i
    exact ⟨i, h1, by rw [e1, h2], by rw [e2, h3], hw i, by rw [e3, h4], by rw [e4, h5]⟩

theorem other_held (hbuf : ∀ j, j ≠ i → m'.buf j = m.buf j) (hi : (m.buf i).holder = none ∨ (m.buf i).holder = some t)
    (j : Nat) (u : Fin N) (hu : u ≠ t) (hj : (m.buf j).holder = some u) :
    (m'.buf j).block = (m.buf j).block ∧ (m'.buf j).holder = some u ∧ (m'.buf j).valid = (m.buf j).valid ∧
      (m'.buf j).data = (m.buf j).data := by
  have hji : j ≠ i := by
    rintro rfl
    rcases hi with e | e
    · rw [e] at hj
      cases hj
    · rw [e] at hj
      exact hu (some.inj hj).symm
  rw [hbuf j hji]
  exact ⟨rfl, hj, rfl, rfl⟩

theorem Inv.held_ne {c : Nat} {x : Hold} (h : Inv m g pin) (hbuf : ∀ j, j ≠ i → m'.buf j = m.buf j)
    (hc : (m.buf i).holder = some t → (m.buf i).block ≠ some c) (hw : ∀ j, j ≠ i → w ≠ .locked j)
    (hx : (g t).marks c = some x) : ∃ j < NBUF, (m'.buf j).block = some c ∧ (m'.buf j).holder = some t ∧ w ≠ .locked j ∧
      (m'.buf j).valid = true ∧ (m'.buf j).data = x.data := by
  obtain ⟨j, h1, h2, h3, -, h4, h5⟩ := h.held t c x hx
  have hji : j ≠ i := by
    rintro rfl
    exact hc h3 h2
  rw [← hbuf j hji] at h2 h3 h4 h5
  exact ⟨j, h1, h2, h3, hw j hji, h4, h5⟩

theorem Inv.held_update {c : Nat} {x z : Hold} (h : Inv m g pin) (hbuf : ∀ j, j ≠ i → m'.buf j = m.buf j) (hi : i < NBUF)
    (hb : (m.buf i).block = some b) (hblk : (m'.buf i).block = (m.buf i).block) (hhold : (m'.buf i).holder = some t)
    (hv : (m'.buf i).valid = true) (hd : (m'.buf i).data = x.data) (hw : ∀ j, w ≠ .locked j)
    (hz : update (g t).marks b (some x) c = some z) : ∃ j < NBUF, (m'.buf j).block = some c ∧
      (m'.buf j).holder = some t ∧ w ≠ .locked j ∧ (m'.buf j).valid = true ∧ (m'.buf j).data = z.data := by
  by_cases hcb : c = b
  · subst hcb
    obtain rfl : x = z := by simpa using hz
    exact ⟨i, hi, by rw [hblk, hb], hhold, hw i, hv, hd⟩
  · rw [update_of_ne hcb] at hz
    refine h.held_ne hbuf (fun _ e => ?_) (fun j _ => hw j) hz
    rw [hb] at e
    exact hcb (some.inj e).symm

end

end Xv6.Bio
