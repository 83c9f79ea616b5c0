import AutoTestKernel.StartTest.Watchdog

/-!
# How long a run lasts

A round of a timer takes at least the second that it sleeps, and less than two.
A run that does not end by itself is therefore killed, not before 1200 seconds
and within 2402 seconds of the moment at which its timer was spawned.
-/

namespace AutoTestKernel.StartTest

open Text Runs

variable {T : Type*} [CommRing T] [LinearOrder T]

namespace Watch

variable {w w' : Watch T} {run : ℕ} {spawn : T}

/-- Where the timers after a step come from. -/
theorem Next.mem_timers (hnext : w.Next w') {τ : Timer T} (hτ : τ ∈ w'.host.timers) :
    τ ∈ w.host.timers ∨
      (w.host.script ≠ none ∧ τ.run = w.host.spawned + 1 ∧ τ.rounds = 0 ∧ τ.last = w.now) ∨
      ∃ τ' ∈ w.host.timers, τ.run = τ'.run ∧ τ.rounds = τ'.rounds + 1 ∧ τ.last = w.now ∧
        τ'.last + 1 ≤ w.now := by
  cases hnext with
  | tick now hnow hlate => exact Or.inl hτ
  | act a h htimely hact =>
      cases Host.did_of_act hact with
      | start _ | stop _ => exact htimely.elim
      | command _ _ _ | launch _ _ _ | appear _ | vanish _ => exact Or.inl hτ
      | spawn hs =>
          rcases List.mem_cons.mp hτ with rfl | hold
          · exact Or.inr (Or.inl ⟨by simp [hs], rfl, rfl, rfl⟩)
          · exact Or.inl hold
      | exit _ =>
          rw [Host.reap_timers] at hτ
          exact Or.inl hτ
      | poll hτ' _ _ =>
          rcases List.mem_cons.mp hτ with rfl | hold
          · exact Or.inr (Or.inr ⟨_, hτ', rfl, rfl, rfl, htimely.1⟩)
          · exact Or.inl (List.mem_of_mem_erase hold)
      | quit _ _ => exact Or.inl (List.mem_of_mem_erase hτ)
      | kill _ _ =>
          rw [Host.reap_timers] at hτ
          exact Or.inl (List.mem_of_mem_erase hτ)

theorem Next.spawned_le (hnext : w.Next w') : w.host.spawned ≤ w'.host.spawned := by
  cases hnext with
  | tick now hnow hlate => exact le_rfl
  | act a h htimely hact =>
      cases Host.did_of_act hact with
      | spawn _ => exact Nat.le_succ _
      | exit _ | kill _ _ => rw [Host.reap_spawned]
      | _ => exact le_rfl

/-- The timer of a run, spawned at the moment `spawn`, has kept to its rounds. -/
structure Paced (run : ℕ) (spawn : T) (w : Watch T) : Prop where
  known : run ≤ w.host.spawned
  rounds : ∀ τ ∈ w.host.timers, τ.run = run →
    spawn + τ.rounds ≤ τ.last ∧ τ.last ≤ spawn + 2 * τ.rounds

variable [IsStrictOrderedRing T]

theorem Paced.next (hw : w.Paced run spawn) (hguarded : w.Guarded) (hnext : w.Next w') :
    w'.Paced run spawn := by
  refine ⟨hw.known.trans hnext.spawned_le, fun τ hτ hrun => ?_⟩
  rcases hnext.mem_timers hτ with hold | ⟨-, hnew, -, -⟩ | ⟨τ', hτ', hsame, hrounds, hlast, hsleep⟩
  · exact hw.rounds τ hold hrun
  · have hknown := hw.known
    omega
  · obtain ⟨hlow, hhigh⟩ := hw.rounds τ' hτ' (hsame.symm.trans hrun)
    have hlate := (hguarded.punctual τ' hτ').2
    rw [hrounds, hlast]
    push_cast
    constructor <;> linarith

omit [IsStrictOrderedRing T] in
/-- Just after a spawn, the pace is kept from the moment of the spawn on. -/
theorem Guarded.exists_spawn (hw : w.Guarded) (hlaunch : w.host.script = some .launch) :
    ∃ spawn, w.Paced w.host.spawned spawn ∧ spawn ≤ w.now ∧ w.now < spawn + 2 := by
  have hphase := hw.phase
  simp only [Phase, hlaunch] at hphase
  obtain ⟨-, τ, htimers, -, hrounds⟩ := hphase
  obtain ⟨hlast, hlate⟩ := hw.punctual τ (by simp [htimers])
  refine ⟨τ.last, ⟨le_rfl, fun τ' hτ' _ => ?_⟩, hlast, hlate⟩
  obtain rfl : τ' = τ := by simpa [htimers] using hτ'
  simp [hrounds]

/-- A run is alive for less than 1200 rounds of its timer. -/
theorem Paced.now_lt (hw : w.Paced run spawn) (hguarded : w.Guarded) {r : Run}
    (hr : r ∈ w.host.runs) (hrun : r.test = run) : w.now < spawn + 2402 := by
  obtain ⟨-, -, htest, τ, htimers, hτ⟩ := hguarded.of_mem_runs hr
  have hmem : τ ∈ w.host.timers := by simp [htimers]
  have hcounted := hguarded.counted τ hmem
  have hlast := (hw.rounds τ hmem (by rw [hτ, ← htest, hrun])).2
  have hlate := (hguarded.punctual τ hmem).2
  have hrounds : (τ.rounds : T) ≤ 1200 := by exact_mod_cast (by omega : τ.rounds ≤ 1200)
  linarith

theorem Paced.le_now (hw : w.Paced run spawn) (hguarded : w.Guarded) {τ : Timer T}
    (hτ : τ ∈ w.host.timers) (hrun : τ.run = run) (hleft : τ.waitfor = 0) :
    spawn + 1200 ≤ w.now := by
  have hcounted := hguarded.counted τ hτ
  have hrounds : (τ.rounds : T) = 1200 := by exact_mod_cast (by omega : τ.rounds = 1200)
  have hlast := (hw.rounds τ hτ hrun).1
  have hnow := (hguarded.punctual τ hτ).1
  linarith

end Watch

/-- Within 2402 seconds of the launch of a run it has ended, and no timer kills
it in the first 1198 of them. -/
theorem run_lasts [IsStrictOrderedRing T] {others : List (ℕ × Str)} {start : T} {w w' : Watch T}
    (hothers : ∀ p ∈ others, listed p.2 = false)
    (hrun : Relation.ReflTransGen Watch.Next
      { host := { script := some .countTests, since := start, others }, now := start } w)
    (hlaunch : w.host.script = some .launch) (hlater : Relation.ReflTransGen Watch.Next w w') :
    (∀ r ∈ w'.host.runs, r.test = w.host.spawned → w'.now < w.now + 2402) ∧
      ∀ τ ∈ w'.host.timers, τ.run = w.host.spawned → τ.waitfor = 0 →
        w.now + 1198 < w'.now := by
  have hw : w.Guarded := by
    apply preserved (fun hw hnext => Watch.Guarded.next hw hnext) hrun
    exact ⟨hothers, by simp, by simp, by simp, ⟨rfl, rfl⟩, by simp⟩
  obtain ⟨spawn, hpaced, hspawn, hlate⟩ := hw.exists_spawn hlaunch
  obtain ⟨hguarded, hpaced'⟩ := preserved
    (I := fun w' : Watch T => w'.Guarded ∧ w'.Paced w.host.spawned spawn)
    (fun h hnext => ⟨h.1.next hnext, h.2.next h.1 hnext⟩) hlater ⟨hw, hpaced⟩
  refine ⟨fun r hr htest => ?_, fun τ hτ hmine hleft => ?_⟩
  · exact (hpaced'.now_lt hguarded hr htest).trans_le (by linarith)
  · have hkill := hpaced'.le_now hguarded hτ hmine hleft
    linarith

/-- The session up to the launch of its first test. -/
def firstSpawn : Watch ℤ :=
  [Act.command false, .command true, .command false, .command false, .command false,
    .spawn].foldl Watch.perform
      { host := { script := some .countTests, since := 0 }, now := 0 }

theorem run_lasts_firstSpawn :
    let w' := [Act.launch 7 s2eCommand].foldl Watch.perform firstSpawn
    (∀ r ∈ w'.host.runs, r.test = firstSpawn.host.spawned → w'.now < firstSpawn.now + 2402) ∧
      ∀ τ ∈ w'.host.timers, τ.run = firstSpawn.host.spawned → τ.waitfor = 0 →
        firstSpawn.now + 1198 < w'.now :=
  run_lasts (by simp) (Watch.Possible.reaches (by decide +kernel)) (by decide +kernel)
    (Watch.Possible.reaches (by decide +kernel))

end AutoTestKernel.StartTest
