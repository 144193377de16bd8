import Xv6.Log.Crash
import Xv6.Log.Isolation

/-!
# A system that crashes and boots again

Operations of many processes run until the machine stops, in any state. The recovery may be stopped on the way, any number of times.
The next life of the system starts on the disk that the recovery leaves.
-/

namespace Xv6.LogLayer

open Bytes Writes List

/-- What happens from a boot up to a crash, and after how many writes the recoveries were stopped. -/
structure Life where
  events : List Ev
  stops : List Nat

/-- The state in which each life ends, and the last disk. -/
def lives (start size : Nat) : (Nat → Block) → List Life → Option (List Mon × (Nat → Block))
  | d, [] => some ([], d)
  | d, l :: ls => do
    let m ← Lts.run Mon.step (Mon.boot start size d) l.events
    let stopped := l.stops.foldl (recoverStopped start size) m.sys.st.dev.disk
    let (ms, d') ← lives start size (boot start size stopped).recoverFromLog.dev.disk ls
    return (m :: ms, d')

/-- The updates that are durable, in the order they were made. -/
def Mon.durable (m : Mon) : List (Nat × Block) := (m.hist.take m.committed).map Prod.snd

theorem lives_durable (start size : Nat) : ∀ (ls : List Life) {d0 d : Nat → Block} {ms : List Mon}, get32 (d0 start) 0 = 0 →
    (∀ l ∈ ls, ∀ p b x, .write p b x ∈ l.events → Home start size b) → lives start size d0 ls = some (ms, d) →
    get32 (d start) 0 = 0 ∧ (∀ b, Home start size b → d b = apply d0 (ms.flatMap Mon.durable) b) ∧
      ∀ m ∈ ms, (∀ u ∈ m.hist.take m.committed, ¬m.Unfinished u.1) ∧ (m.sys.st.log.lh = [] → m.committed = m.hist.length)
  | [], d0, d, ms, h0, _, h => by
    cases h
    exact ⟨h0, fun _ _ => rfl, by simp⟩
  | l :: ls, d0, d, ms, h0, hhome, h => by
    obtain ⟨m, hm, h⟩ := Option.bind_eq_some_iff.1 h
    obtain ⟨⟨ms', d'⟩, hls, h⟩ := Option.bind_eq_some_iff.1 h
    cases h
    -- the invariant at the crash; the recovery leaves what the next life starts from
    obtain ⟨ph, hi⟩ := Lts.run_inv (I := fun m : Mon => ∃ ph, Isolated start size d0 m ph)
      (C := fun _ e => ∀ p b x, e = .write p b x → Home start size b) (fun _ _ _ ⟨_, hi⟩ hc he => hi.step hc he)
      ⟨none, isolated_boot h0⟩ (Lts.along_of_forall fun e he _ p b x hw => hhome l mem_cons_self p b x (by rwa [← hw])) hm
    obtain ⟨lh, hl⟩ := recoverStopped_logged l.stops hi.durable.logged
    obtain ⟨-, hd, hz⟩ := recover_spec hl
    obtain ⟨h1, h2, h3⟩ := lives_durable start size ls hz (fun l hl => hhome l (mem_cons_of_mem _ hl)) hls
    refine ⟨h1, fun b hb => ?_, forall_mem_cons.2 ⟨⟨?_, fun hnil => ?_⟩, h3⟩⟩
    · rw [h2 b hb, flatMap_cons, apply_append]
      exact apply_congr (hd.home b hb not_mem_nil)
    · rintro u hu ⟨q, hq, e⟩
      exact hi.fresh q hq u hu e.symm
    · have hnone := hi.tracked
      rw [hnil] at hnone
      exact Nat.le_antisymm hi.le (drop_eq_nil_iff.1 (eq_nil_iff_forall_not_mem.2 fun u hu => not_mem_nil (hnone u hu)))

/-- The first life ends after the header write of `twoOps`, and its recovery is stopped once. -/
theorem lives_durable_twoOps : ∃ m m' d, lives 2 30 (fun _ _ => 0) [⟨twoOps.take 12, [1]⟩, ⟨[], []⟩] = some ([m, m'], d) ∧
    m.durable.length = 2 ∧ d 50 = apply (fun _ _ => 0) (m.durable ++ m'.durable) 50 := by
  have h : (lives 2 30 (fun _ _ => 0) [⟨twoOps.take 12, [1]⟩, ⟨[], []⟩]).map (fun r => r.1.map fun m => m.durable.length) = some [2, 0] := by
    decide +kernel
  obtain ⟨⟨ms, d⟩, hr, e⟩ := Option.map_eq_some_iff.1 h
  match ms, e with
  | [m, m'], e =>
    have hb := (lives_durable 2 30 _ (by decide +kernel) (by simp only [twoOps, Home]; simp; omega) hr).2.1 50 (by decide)
    exact ⟨m, m', d, hr, (cons.inj e).1, by simpa using hb⟩

end Xv6.LogLayer
