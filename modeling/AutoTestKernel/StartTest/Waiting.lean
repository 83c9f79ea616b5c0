import AutoTestKernel.StartTest.Limits

/-!
# Waiting after a kill

What a killed session leaves behind, its run of S2E and its timer, is gone
after 2402 seconds.  Whoever starts the next session no earlier has the same
guarantees as within one session, however many sessions are killed.
-/

namespace AutoTestKernel.StartTest

open Text Runs

variable {T : Type*} [CommRing T] [LinearOrder T]

/-- The processes of one session after the other, and when the last of those
that were killed was killed. -/
structure Vigil (T : Type*) where
  watch : Watch T
  stopped : T

inductive Vigil.Next (v : Vigil T) : Vigil T → Prop
  | session (w : Watch T) (hnext : v.watch.Next w) : Next v { v with watch := w }
  | stop (h : Host T) (hact : v.watch.host.act v.watch.now .stop = some h) :
      Next v { watch := { v.watch with host := h }, stopped := v.watch.now }
  | start (h : Host T) (hact : v.watch.host.act v.watch.now .start = some h)
      (hwait : v.watch.host.script = none → v.stopped + 2402 ≤ v.watch.now) :
      Next v { v with watch := { v.watch with host := h } }

namespace Watch

/-- The same processes with a script in the middle of its work. -/
def resumed (w : Watch T) (pc : Pc) (spawned : ℕ) (since : T) : Watch T :=
  { w with host := { w.host with script := some pc, spawned, since } }

/-- The script was killed, and what it has left behind could as well belong to
a session that goes on. -/
structure Abandoned (w : Watch T) : Prop where
  script : w.host.script = none
  resumes : ∃ pc spawned since, pc ∈ [.running, .settle] ∧ (w.resumed pc spawned since).Guarded

/-- The timer was spawned at a certain moment at the latest, and has kept to its
rounds. -/
inductive SpawnedBy (moment : T) (τ : Timer T) : Prop
  | intro (spawn : T) (hspawn : spawn ≤ moment)
      (hlast : τ.last ≤ spawn + 2 * (τ.rounds : T)) : SpawnedBy moment τ

variable {w w' : Watch T} {moment : T}

theorem Guarded.abandoned (hw : w.Guarded) :
    Abandoned { w with host := { w.host with script := none } } := by
  by_cases hrunning : w.host.script = some .running
  · have hphase := hw.phase
    simp only [Phase, hrunning] at hphase
    exact ⟨rfl, .running, w.host.spawned, w.host.since, by simp,
      ⟨hw.others, hw.runs, hw.punctual, hw.counted, hphase, hw.proper⟩⟩
  · have hruns : w.host.runs = [] := by
      apply List.eq_nil_iff_forall_not_mem.mpr
      exact fun r hr => hrunning (hw.of_mem_runs hr).1
    refine ⟨rfl, .settle, w.host.spawned, w.now, by simp, ?_⟩
    exact ⟨hw.others, hw.runs, hw.punctual, hw.counted,
      ⟨hruns, fun τ hτ => (hw.punctual τ hτ).1⟩, hw.proper⟩

theorem Next.now_le (hnext : w.Next w') : w.now ≤ w'.now := by
  cases hnext with
  | tick now hnow _ => exact hnow
  | act a h _ _ => exact le_rfl

theorem SpawnedBy.mono {moment' : T} {τ : Timer T} (h : SpawnedBy moment τ)
    (hle : moment ≤ moment') : SpawnedBy moment' τ :=
  let ⟨spawn, hspawn, hlast⟩ := h
  ⟨spawn, hspawn.trans hle, hlast⟩

end Watch

omit [CommRing T] in
/-- Acts that need no script do the same when there is one. -/
theorem Host.act_resumed {h h' : Host T} {now : T} {a : Act T} {pc : Pc} (spawned : ℕ) (since : T)
    (hpc : pc ∈ [.running, .settle]) (hscript : h.script = none) (hne : a ≠ .start)
    (hact : h.act now a = some h') :
    h'.script = none ∧ ∃ pc' since', pc' ∈ [.running, .settle] ∧
      { h with script := some pc, spawned, since }.act now a =
        some { h' with script := some pc', spawned, since := since' } := by
  have hreap : ∀ h : Host T, h.script = none → reap now h = h ∧
      ∃ pc' since', pc' ∈ [.running, .settle] ∧
        reap now { h with script := some pc, spawned, since } =
          { h with script := some pc', spawned, since := since' } := by
    intro h hnone
    refine ⟨Host.reap_of_ne (by simp [hnone]), ?_⟩
    unfold reap
    split
    · exact ⟨.settle, now, by simp, rfl⟩
    · exact ⟨pc, since, hpc, rfl⟩
  cases a with
  | start => exact absurd rfl hne
  | stop => simp [act, hscript] at hact
  | command found => simp [act, hscript] at hact
  | spawn => simp [act, hscript] at hact
  | launch pid line => simp [act, hscript] at hact
  | exit r =>
      simp only [act, Option.ite_none_right_eq_some, Option.some.injEq] at hact
      obtain ⟨hr, rfl⟩ := hact
      obtain ⟨hsame, pc', since', hpc', heq⟩ := hreap { h with runs := h.runs.erase r } hscript
      rw [hsame]
      exact ⟨hscript, pc', since', hpc', (if_pos hr).trans (congrArg some heq)⟩
  | poll τ =>
      simp only [act, Option.ite_none_right_eq_some] at hact
      obtain ⟨hguard, hact⟩ := hact
      have hround : round τ.waitfor (stillrunning { h with script := some pc, spawned, since }) =
        round τ.waitfor h.stillrunning := rfl
      simp only [act, if_pos hguard, hround]
      cases hleft : round τ.waitfor h.stillrunning with
      | some left =>
          simp only [hleft, Option.some.injEq] at hact
          subst hact
          exact ⟨hscript, pc, since, hpc, rfl⟩
      | none =>
          simp only [hleft, Option.some.injEq] at hact
          subst hact
          exact ⟨hscript, pc, since, hpc, rfl⟩
  | kill τ =>
      simp only [act, Option.ite_none_right_eq_some, Option.some.injEq] at hact
      obtain ⟨hguard, rfl⟩ := hact
      obtain ⟨hsame, pc', since', hpc', heq⟩ := hreap
        { h with
          timers := h.timers.erase τ
          runs := h.runs.filter fun r => r.pid ∉ h.targets
          others := h.others.filter fun p => p.1 ∉ h.targets
          log := .killed τ.rounds h.targets (h.own τ.run) :: h.log } hscript
      rw [hsame]
      exact ⟨hscript, pc', since', hpc', (if_pos hguard).trans (congrArg some heq)⟩
  | appear pid line =>
      simp only [act, Option.ite_none_right_eq_some, Option.some.injEq] at hact
      obtain ⟨hpid, rfl⟩ := hact
      exact ⟨hscript, pc, since, hpc, if_pos hpid⟩
  | vanish p =>
      simp only [act, Option.ite_none_right_eq_some, Option.some.injEq] at hact
      obtain ⟨hp, rfl⟩ := hact
      exact ⟨hscript, pc, since, hpc, if_pos hp⟩

namespace Watch

variable {w w' : Watch T} {moment : T} [IsStrictOrderedRing T]

/-- What is left behind goes on as within a session. -/
theorem Abandoned.next (hw : w.Abandoned) (hnext : w.Next w') : w'.Abandoned := by
  obtain ⟨hscript, pc, spawned, since, hpc, hguarded⟩ := hw
  cases hnext with
  | tick now hnow hlate =>
      exact ⟨hscript, pc, spawned, since, hpc, hguarded.tick hnow hlate⟩
  | act a h htimely hact =>
      have hne : a ≠ .start := by
        rintro rfl
        exact htimely.elim
      obtain ⟨hscript', pc', since', hpc', hact'⟩ :=
        Host.act_resumed spawned since hpc hscript hne hact
      have htimely' : (w.resumed pc spawned since).Timely a := by
        cases a with
        | poll τ =>
            refine ⟨htimely.1, fun h => ?_⟩
            obtain rfl : pc = .launch := Option.some.inj h.2.2
            simp at hpc
        | command found => simp [Host.act, hscript] at hact
        | _ => exact htimely
      exact ⟨hscript', pc', spawned, since', hpc', hguarded.next (.act a _ htimely' hact')⟩

theorem spawnedBy_next (hpunctual : ∀ τ ∈ w.host.timers, w.now < τ.last + 2)
    (hspawned : ∀ τ ∈ w.host.timers, SpawnedBy moment τ)
    (hmoment : w.host.script ≠ none → w.now ≤ moment) (hnext : w.Next w') :
    ∀ τ ∈ w'.host.timers, SpawnedBy moment τ := by
  intro τ hτ
  rcases hnext.mem_timers hτ with hold | ⟨hscript, -, hrounds, hlast⟩ |
    ⟨τ', hτ', -, hrounds, hlast, -⟩
  · exact hspawned τ hold
  · exact ⟨w.now, hmoment hscript, by simp [hrounds, hlast]⟩
  · obtain ⟨spawn, hspawn, hbound⟩ := hspawned τ' hτ'
    have hlate := hpunctual τ' hτ'
    refine ⟨spawn, hspawn, ?_⟩
    rw [hrounds, hlast]
    push_cast
    linarith

/-- 2402 seconds after the last spawn nothing of it is left. -/
theorem timers_eq_nil_of_spawnedBy (hpunctual : ∀ τ ∈ w.host.timers, w.now < τ.last + 2)
    (hcounted : ∀ τ ∈ w.host.timers, τ.rounds + τ.waitfor = 1200)
    (hspawned : ∀ τ ∈ w.host.timers, SpawnedBy moment τ) (hwait : moment + 2402 ≤ w.now) :
    w.host.timers = [] := by
  apply List.eq_nil_iff_forall_not_mem.mpr
  intro τ hτ
  obtain ⟨spawn, hspawn, hlast⟩ := hspawned τ hτ
  have hcount := hcounted τ hτ
  have hrounds : (τ.rounds : T) ≤ 1200 := by exact_mod_cast (by omega : τ.rounds ≤ 1200)
  have hlate := hpunctual τ hτ
  linarith

end Watch

namespace Vigil

variable {v v' : Vigil T} [IsStrictOrderedRing T]

/-- A session is going on, or what is left of one was spawned before its end. -/
def Watchful (v : Vigil T) : Prop :=
  (v.watch.Guarded ∧ ∀ τ ∈ v.watch.host.timers, Watch.SpawnedBy v.watch.now τ) ∨
    (v.watch.Abandoned ∧ ∀ τ ∈ v.watch.host.timers, Watch.SpawnedBy v.stopped τ)

theorem Watchful.next (hv : v.Watchful) (hnext : v.Next v') : v'.Watchful := by
  cases hnext with
  | session w hnext =>
      rcases hv with ⟨hguarded, hspawned⟩ | ⟨habandoned, hspawned⟩
      · refine Or.inl ⟨hguarded.next hnext, fun τ hτ => ?_⟩
        have hnew := Watch.spawnedBy_next (fun τ hτ => (hguarded.punctual τ hτ).2) hspawned
          (fun _ => le_rfl) hnext τ hτ
        exact hnew.mono hnext.now_le
      · have hnone := habandoned.script
        obtain ⟨pc, spawned, since, -, hguarded⟩ := habandoned.resumes
        have hpunctual : ∀ τ ∈ v.watch.host.timers, v.watch.now < τ.last + 2 :=
          fun τ hτ => (hguarded.punctual τ hτ).2
        exact Or.inr ⟨habandoned.next hnext, Watch.spawnedBy_next hpunctual hspawned
          (fun hsome => absurd hnone hsome) hnext⟩
  | stop h hact =>
      simp only [Host.act, Option.ite_none_right_eq_some, Option.some.injEq] at hact
      obtain ⟨hsome, rfl⟩ := hact
      rcases hv with ⟨hguarded, hspawned⟩ | ⟨habandoned, -⟩
      · exact Or.inr ⟨hguarded.abandoned, hspawned⟩
      · exact absurd habandoned.script hsome
  | start h hact hwait =>
      simp only [Host.act, Option.ite_none_right_eq_some, Option.some.injEq] at hact
      obtain ⟨hscript, rfl⟩ := hact
      refine Or.inl ?_
      rcases hv with ⟨hguarded, -⟩ | ⟨habandoned, hspawned⟩
      · have hphase := hguarded.phase
        rcases hscript with hnone | hfinished
        · simp [Watch.Phase, hnone] at hphase
        · simp only [Watch.Phase, hfinished] at hphase
          exact ⟨⟨hguarded.others, hguarded.runs, hguarded.punctual, hguarded.counted, hphase,
            hguarded.proper⟩, by simp [hphase.2]⟩
      · obtain ⟨pc, spawned, since, -, hguarded⟩ := habandoned.resumes
        have hpunctual : ∀ τ ∈ v.watch.host.timers, v.watch.now < τ.last + 2 :=
          fun τ hτ => (hguarded.punctual τ hτ).2
        have htimers : v.watch.host.timers = [] := Watch.timers_eq_nil_of_spawnedBy hpunctual
          hguarded.counted hspawned (hwait habandoned.script)
        have hruns : v.watch.host.runs = [] := by
          apply List.eq_nil_iff_forall_not_mem.mpr
          intro r hr
          obtain ⟨-, -, -, τ, hτ, -⟩ := hguarded.of_mem_runs hr
          exact List.cons_ne_nil τ [] (hτ.symm.trans htimers)
        exact ⟨⟨hguarded.others, hguarded.runs, hguarded.punctual, hguarded.counted,
          ⟨hruns, htimers⟩, hguarded.proper⟩, by simp [htimers]⟩

omit [IsStrictOrderedRing T] in
theorem Watchful.exists_guarded (hv : v.Watchful) : ∃ w : Watch T, w.Guarded ∧
    w.host.runs = v.watch.host.runs ∧ w.host.timers = v.watch.host.timers ∧
      w.host.log = v.watch.host.log := by
  rcases hv with ⟨hguarded, -⟩ | ⟨habandoned, -⟩
  · exact ⟨v.watch, hguarded, rfl, rfl, rfl⟩
  · obtain ⟨pc, spawned, since, -, hguarded⟩ := habandoned.resumes
    exact ⟨_, hguarded, rfl, rfl, rfl⟩

end Vigil

/-- If every session after one that was killed waits for 2402 seconds, then in
every history of sessions a run has its own timer and no other while it is
alive, and no timer kills anything but its own run. -/
theorem guarded_after_waiting [IsStrictOrderedRing T] {others : List (ℕ × Str)} {start : T}
    {v : Vigil T} (hothers : ∀ p ∈ others, listed p.2 = false)
    (hrun : Relation.ReflTransGen Vigil.Next
      { watch := { host := { script := some .countTests, since := start, others }, now := start }
        stopped := start } v) :
    (∀ r ∈ v.watch.host.runs, ∃ τ, v.watch.host.timers = [τ] ∧ τ.run = r.test) ∧
      ∀ deed ∈ v.watch.host.log, Watch.Proper deed := by
  have hv : v.Watchful := by
    apply preserved (fun hv hnext => Vigil.Watchful.next hv hnext) hrun
    exact Or.inl ⟨⟨hothers, by simp, by simp, by simp, ⟨rfl, rfl⟩, by simp⟩, by simp⟩
  obtain ⟨w, hguarded, hruns, htimers, hlog⟩ := hv.exists_guarded
  rw [← hruns, ← htimers, ← hlog]
  refine ⟨fun r hr => ?_, hguarded.proper⟩
  obtain ⟨-, -, htest, τ, hτ, hmine⟩ := hguarded.of_mem_runs hr
  exact ⟨τ, hτ, hmine.trans htest.symm⟩

theorem Vigil.reaches_session {w w' : Watch T} (h : Relation.ReflTransGen Watch.Next w w')
    (stopped : T) : Relation.ReflTransGen Vigil.Next ⟨w, stopped⟩ ⟨w', stopped⟩ := by
  induction h with
  | refl => exact .refl
  | tail _ hlast ih => exact ih.tail (.session _ hlast)

theorem Vigil.next_stop {w : Watch T} {stopped : T} (hs : w.host.script ≠ none) :
    Vigil.Next ⟨w, stopped⟩ ⟨{ w with host := { w.host with script := none } }, w.now⟩ :=
  .stop _ (if_pos hs)

theorem Vigil.next_start {w : Watch T} {stopped : T} (hs : w.host.script = none)
    (hwait : stopped + 2402 ≤ w.now) : Vigil.Next ⟨w, stopped⟩
      ⟨{ w with host := { w.host with script := some .countTests } }, stopped⟩ :=
  .start _ (if_pos (Or.inl hs)) fun _ => hwait

/-- A session as far as the spawn of its first timer. -/
def upToSpawn : List (Act ℤ) :=
  [.command false, .command true, .command false, .command false, .command false, .spawn]

def idleWatch : Watch ℤ := { host := { script := some .countTests, since := 0 }, now := 0 }

/-- The first session, about to launch its first test, -/
def spawnedWatch : Watch ℤ := upToSpawn.foldl Watch.perform idleWatch

/-- killed there, -/
def killedWatch : Watch ℤ :=
  { spawnedWatch with host := { spawnedWatch.host with script := none }, now := 1 }

def quitAlone : List (Act ℤ) := [.poll { run := 1, last := 0 }]

/-- and its timer, a long time ago. -/
def laterWatch : Watch ℤ := { quitAlone.foldl Watch.perform killedWatch with now := 3000 }

/-- The second session at its first launch. -/
def secondLaunch : Watch ℤ :=
  (upToSpawn ++ [Act.launch 8 s2eCommand]).foldl Watch.perform
    { laterWatch with host := { laterWatch.host with script := some .countTests } }

theorem reaches_secondLaunch :
    Relation.ReflTransGen Vigil.Next ⟨idleWatch, 0⟩ ⟨secondLaunch, 1⟩ := by
  have hspawned : Relation.ReflTransGen Watch.Next idleWatch { spawnedWatch with now := 1 } :=
    (Watch.Possible.reaches (by decide +kernel : idleWatch.Possible upToSpawn)).tail
      (.tick 1 (by decide +kernel) (by decide +kernel))
  have hlater : Relation.ReflTransGen Watch.Next killedWatch laterWatch :=
    (Watch.Possible.reaches (by decide +kernel : killedWatch.Possible quitAlone)).tail
      (.tick 3000 (by decide +kernel) (by decide +kernel))
  have hsecond : Relation.ReflTransGen Watch.Next
      { laterWatch with host := { laterWatch.host with script := some .countTests } }
      secondLaunch := Watch.Possible.reaches (by decide +kernel)
  have hkilled := (Vigil.reaches_session hspawned 0).tail (Vigil.next_stop (by decide +kernel))
  have hwaited := hkilled.trans (Vigil.reaches_session hlater 1)
  have hstarted := hwaited.tail (Vigil.next_start (by decide +kernel) (by decide +kernel))
  exact hstarted.trans (Vigil.reaches_session hsecond 1)

theorem guarded_after_waiting_secondLaunch :
    (∀ r ∈ secondLaunch.host.runs, ∃ τ, secondLaunch.host.timers = [τ] ∧ τ.run = r.test) ∧
      ∀ deed ∈ secondLaunch.host.log, Watch.Proper deed :=
  guarded_after_waiting (T := ℤ) (v := ⟨secondLaunch, 1⟩) (List.forall_mem_nil _)
    reaches_secondLaunch

end AutoTestKernel.StartTest
