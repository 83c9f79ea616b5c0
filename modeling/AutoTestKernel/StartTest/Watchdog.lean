import AutoTestKernel.StartTest.Processes
import AutoTestKernel.StartTest.Tidy
import Mathlib.Algebra.Order.Ring.Defs
import Mathlib.Data.Fintype.EquivFin
import Mathlib.Tactic.Linarith

/-!
# The timers of one session

Within a session nothing but `sleep 2` separates the timer of one run from the
next run.  When every timer takes less than two seconds from its spawn to its
first poll, from poll to poll, and from its last poll to its kill, that is
enough: while a run is alive its own timer is the only one.
-/

namespace AutoTestKernel.StartTest

open Text Runs

variable {T : Type*} [CommRing T] [LinearOrder T]

structure Watch (T : Type*) where
  host : Host T
  now : T

namespace Watch

/-- The acts of an uninterrupted session, and when they are possible: the
script sleeps two seconds after a run and a timer one before a poll, S2E is
visible before the first poll of its timer, and no other process passes the
greps. -/
def Timely (w : Watch T) : Act T → Prop
  | .start | .stop => False
  | .command _ => w.host.script = some .settle → w.host.since + 2 ≤ w.now
  | .poll τ => τ.last + 1 ≤ w.now ∧
      ¬ (τ.rounds = 0 ∧ τ.run = w.host.spawned ∧ w.host.script = some .launch)
  | .appear _ line => listed line = false
  | .spawn | .launch _ _ | .exit _ | .kill _ | .vanish _ => True

instance (w : Watch T) : (a : Act T) → Decidable (w.Timely a)
  | .start => isFalse id
  | .stop => isFalse id
  | .command _ => inferInstanceAs (Decidable (_ → _))
  | .poll _ => inferInstanceAs (Decidable (_ ∧ _))
  | .appear _ _ => inferInstanceAs (Decidable (_ = _))
  | .spawn => isTrue trivial
  | .launch _ _ => isTrue trivial
  | .exit _ => isTrue trivial
  | .kill _ => isTrue trivial
  | .vanish _ => isTrue trivial

inductive Next (w : Watch T) : Watch T → Prop
  | tick (now : T) (hnow : w.now ≤ now) (hlate : ∀ τ ∈ w.host.timers, now < τ.last + 2) :
      Next w { w with now }
  | act (a : Act T) (h : Host T) (htimely : w.Timely a) (hact : w.host.act w.now a = some h) :
      Next w { w with host := h }

/-- A timer that ends has no run alive, or kills its own after 1200 rounds. -/
def Proper : Deed → Prop
  | .quit own => own = []
  | .killed rounds pids own => rounds = 1200 ∧ ∀ pid ∈ pids, pid ∈ own

/-- The timers and runs there are, by the next command of the script. -/
def Phase (h : Host T) : Prop :=
  match h.script with
  | none => False
  | some .launch => h.runs = [] ∧
      ∃ τ, h.timers = [τ] ∧ τ.run = h.spawned ∧ τ.rounds = 0
  | some .running => (∃ r, h.runs = [r] ∧ r.test = h.spawned) ∧
      ∃ τ, h.timers = [τ] ∧ τ.run = h.spawned
  | some .settle => h.runs = [] ∧ ∀ τ ∈ h.timers, τ.last ≤ h.since
  | some _ => h.runs = [] ∧ h.timers = []

structure Guarded (w : Watch T) : Prop where
  others : ∀ p ∈ w.host.others, listed p.2 = false
  runs : ∀ r ∈ w.host.runs, listed r.line = true
  punctual : ∀ τ ∈ w.host.timers, τ.last ≤ w.now ∧ w.now < τ.last + 2
  counted : ∀ τ ∈ w.host.timers, τ.rounds + τ.waitfor = 1200
  phase : Phase w.host
  proper : ∀ deed ∈ w.host.log, Proper deed

variable {w : Watch T} {h : Host T}

theorem Guarded.targets_eq (hw : w.Guarded) : w.host.targets = w.host.runs.map Run.pid := by
  have hothers : w.host.others.filter (fun p => listed p.2) = [] :=
    List.filter_eq_nil_iff.mpr fun p hp => by simp [hw.others p hp]
  have hruns : (w.host.runs.map fun r => (r.pid, r.line)).filter (fun p => listed p.2) =
      w.host.runs.map fun r => (r.pid, r.line) := by
    apply List.filter_eq_self.mpr
    intro p hp
    obtain ⟨r, hr, rfl⟩ := List.mem_map.mp hp
    exact hw.runs r hr
  rw [Host.targets, Host.table, List.filter_append, hothers, hruns, List.append_nil, List.map_map]
  rfl

theorem Guarded.tick (hw : w.Guarded) {now : T} (hnow : w.now ≤ now)
    (hlate : ∀ τ ∈ w.host.timers, now < τ.last + 2) : Guarded { w with now } where
  others := hw.others
  runs := hw.runs
  punctual τ hτ := ⟨(hw.punctual τ hτ).1.trans hnow, hlate τ hτ⟩
  counted := hw.counted
  phase := hw.phase
  proper := hw.proper

theorem Guarded.of_mem_runs (hw : w.Guarded) {r : Run} (hr : r ∈ w.host.runs) :
    w.host.script = some .running ∧ w.host.runs = [r] ∧ r.test = w.host.spawned ∧
      ∃ τ, w.host.timers = [τ] ∧ τ.run = w.host.spawned := by
  have hphase := hw.phase
  cases hs : w.host.script with
  | none => simp [Phase, hs] at hphase
  | some pc =>
      cases pc with
      | running =>
          simp only [Phase, hs] at hphase
          obtain ⟨⟨r', hruns, htest⟩, htimers⟩ := hphase
          obtain rfl : r = r' := by simpa [hruns] using hr
          exact ⟨rfl, hruns, htest, htimers⟩
      | _ =>
          simp only [Phase, hs] at hphase
          simp [hphase.1] at hr

theorem Guarded.of_mem_timers (hw : w.Guarded) {τ : Timer T} (hτ : τ ∈ w.host.timers) :
    (w.host.script = some .launch ∧ τ.run = w.host.spawned ∧ τ.rounds = 0) ∨
      (w.host.script = some .running ∧ w.host.timers = [τ] ∧ τ.run = w.host.spawned ∧
        ∃ r, w.host.runs = [r] ∧ r.test = w.host.spawned) ∨
      (w.host.script = some .settle ∧ w.host.runs = []) := by
  have hphase := hw.phase
  cases hs : w.host.script with
  | none => simp [Phase, hs] at hphase
  | some pc =>
      cases pc with
      | launch =>
          simp only [Phase, hs] at hphase
          obtain ⟨-, τ', htimers, hrun, hrounds⟩ := hphase
          obtain rfl : τ = τ' := by simpa [htimers] using hτ
          exact Or.inl ⟨rfl, hrun, hrounds⟩
      | running =>
          simp only [Phase, hs] at hphase
          obtain ⟨hruns, τ', htimers, hrun⟩ := hphase
          obtain rfl : τ = τ' := by simpa [htimers] using hτ
          exact Or.inr (Or.inl ⟨rfl, htimers, hrun, hruns⟩)
      | settle =>
          simp only [Phase, hs] at hphase
          exact Or.inr (Or.inr ⟨rfl, hphase.1⟩)
      | _ =>
          simp only [Phase, hs] at hphase
          simp [hphase.2] at hτ

theorem Guarded.launch (hw : w.Guarded) {pid : ℕ} {line : Str}
    (hact : w.host.act w.now (.launch pid line) = some h) : Guarded { w with host := h } := by
  cases Host.did_of_act hact with
  | launch hs hline _ =>
      have hphase := hw.phase
      simp only [Phase, hs] at hphase
      obtain ⟨hruns, τ, htimers, hrun, -⟩ := hphase
      constructor
      · exact hw.others
      · simpa [hruns] using listed_of_command hline
      · exact hw.punctual
      · exact hw.counted
      · simp [Phase, hruns, htimers, hrun]
      · exact hw.proper

theorem Guarded.exit (hw : w.Guarded) {r : Run} (hact : w.host.act w.now (.exit r) = some h) :
    Guarded { w with host := h } := by
  cases Host.did_of_act hact with
  | exit hr =>
      obtain ⟨hs, hruns, -⟩ := hw.of_mem_runs hr
      have hended : w.host.runs.erase r = [] := by simp [hruns]
      rw [Host.reap_of_ended]
      · constructor
        · exact hw.others
        · simp [hended]
        · exact hw.punctual
        · exact hw.counted
        · exact ⟨hended, fun τ hτ => (hw.punctual τ hτ).1⟩
        · exact hw.proper
      · exact hs
      · exact hended

theorem Guarded.kill (hw : w.Guarded) {τ : Timer T} (hact : w.host.act w.now (.kill τ) = some h) :
    Guarded { w with host := h } := by
  cases Host.did_of_act hact with
  | kill hτ hleft =>
      have hcounted := hw.counted τ hτ
      have hrounds : τ.rounds = 1200 := by omega
      have hothers : ∀ p ∈ w.host.others.filter (fun p => p.1 ∉ w.host.targets),
          listed p.2 = false := fun p hp => hw.others p (List.mem_of_mem_filter hp)
      have hrest : ∀ τ' ∈ w.host.timers.erase τ, τ' ∈ w.host.timers := fun τ' h' =>
        List.mem_of_mem_erase h'
      have hruns : ∀ r ∈ w.host.runs.filter (fun r => r.pid ∉ w.host.targets),
          listed r.line = true := fun r hr => hw.runs r (List.mem_of_mem_filter hr)
      have hnone : w.host.runs.filter (fun r => r.pid ∉ w.host.targets) = [] := by
        apply List.filter_eq_nil_iff.mpr
        intro r hr
        simpa [hw.targets_eq] using ⟨r, hr, rfl⟩
      rcases hw.of_mem_timers hτ with ⟨-, -, hzero⟩ | ⟨hs, -, hrun, r, hr, htest⟩ | ⟨hs, hr⟩
      · omega
      · have hproper : Proper (.killed τ.rounds w.host.targets (w.host.own τ.run)) := by
          refine ⟨hrounds, ?_⟩
          simp [hw.targets_eq, hr, Host.own, htest, hrun]
        rw [Host.reap_of_ended]
        · exact ⟨hothers, hruns, fun τ' h' => hw.punctual τ' (hrest τ' h'),
            fun τ' h' => hw.counted τ' (hrest τ' h'),
            ⟨hnone, fun τ' h' => (hw.punctual τ' (hrest τ' h')).1⟩,
            List.forall_mem_cons.mpr ⟨hproper, hw.proper⟩⟩
        · exact hs
        · exact hnone
      · have hproper : Proper (.killed τ.rounds w.host.targets (w.host.own τ.run)) := by
          refine ⟨hrounds, ?_⟩
          simp [hw.targets_eq, hr]
        have hphase := hw.phase
        simp only [Phase, hs] at hphase
        rw [Host.reap_of_ne (by simp [hs])]
        refine ⟨hothers, hruns, fun τ' h' => hw.punctual τ' (hrest τ' h'),
          fun τ' h' => hw.counted τ' (hrest τ' h'), ?_,
          List.forall_mem_cons.mpr ⟨hproper, hw.proper⟩⟩
        simpa [Phase, hs, hr] using fun τ' h' => hphase.2 τ' (hrest τ' h')

theorem Guarded.appear (hw : w.Guarded) {pid : ℕ} {line : Str} (hline : listed line = false)
    (hact : w.host.act w.now (.appear pid line) = some h) : Guarded { w with host := h } := by
  cases Host.did_of_act hact with
  | appear _ =>
      exact ⟨List.forall_mem_cons.mpr ⟨hline, hw.others⟩, hw.runs, hw.punctual, hw.counted,
        hw.phase, hw.proper⟩

theorem Guarded.vanish (hw : w.Guarded) {p : ℕ × Str}
    (hact : w.host.act w.now (.vanish p) = some h) : Guarded { w with host := h } := by
  cases Host.did_of_act hact with
  | vanish _ =>
      exact ⟨fun q hq => hw.others q (List.mem_of_mem_erase hq), hw.runs, hw.punctual, hw.counted,
        hw.phase, hw.proper⟩

variable [IsStrictOrderedRing T]

/-- Two seconds after a run its timer has ended. -/
theorem Guarded.timers_eq_nil (hw : w.Guarded) (hs : w.host.script = some .settle)
    (hsince : w.host.since + 2 ≤ w.now) : w.host.timers = [] := by
  have hphase := hw.phase
  simp only [Phase, hs] at hphase
  apply List.eq_nil_iff_forall_not_mem.mpr
  intro τ hτ
  have hlast := hphase.2 τ hτ
  have hlate := (hw.punctual τ hτ).2
  linarith

theorem Guarded.command (hw : w.Guarded) {found : Bool} (htimely : w.Timely (.command found))
    (hact : w.host.act w.now (.command found) = some h) : Guarded { w with host := h } := by
  have hphase := hw.phase
  cases Host.did_of_act hact with
  | command pc hs hpc =>
      have hidle : w.host.runs = [] ∧ w.host.timers = [] := by
        cases pc with
        | settle =>
            simp only [Phase, hs] at hphase
            exact ⟨hphase.1, hw.timers_eq_nil hs (htimely hs)⟩
        | spawnTimer | launch | running | finished => simp at hpc
        | _ => simpa only [Phase, hs] using hphase
      have hnext : Phase { w.host with script := some (pc.next found) } := by
        cases pc with
        | spawnTimer | launch | running | finished => simp at hpc
        | checkTests | checkDone => cases found <;> simpa [Phase, Pc.next] using hidle
        | _ => simpa [Phase, Pc.next] using hidle
      exact ⟨hw.others, hw.runs, hw.punctual, hw.counted, hnext, hw.proper⟩

theorem Guarded.spawn (hw : w.Guarded) (hact : w.host.act w.now .spawn = some h) :
    Guarded { w with host := h } := by
  cases Host.did_of_act hact with
  | spawn hs =>
      have hphase := hw.phase
      simp only [Phase, hs] at hphase
      obtain ⟨hruns, htimers⟩ := hphase
      constructor
      · exact hw.others
      · exact hw.runs
      · simp [htimers]
      · simp [htimers]
      · simp [Phase, hruns, htimers]
      · exact hw.proper

theorem Guarded.poll (hw : w.Guarded) {τ : Timer T} (htimely : w.Timely (.poll τ))
    (hact : w.host.act w.now (.poll τ) = some h) : Guarded { w with host := h } := by
  cases Host.did_of_act hact with
  | poll hτ hleft hstill =>
      have hcounted := hw.counted τ hτ
      rcases hw.of_mem_timers hτ with ⟨hs, hrun, hzero⟩ | ⟨hs, htimer, hrun, r, hruns, htest⟩ |
        ⟨-, hruns⟩
      · exact absurd ⟨hzero, hrun, hs⟩ htimely.2
      · constructor
        · exact hw.others
        · exact hw.runs
        · simp [htimer]
        · simp only [htimer, List.erase_cons_head, List.mem_singleton]
          rintro τ' rfl
          change τ.rounds + 1 + (τ.waitfor - 1) = 1200
          omega
        · simp [Phase, hs, htimer, hrun, hruns, htest]
        · exact hw.proper
      · simp [Host.stillrunning, hw.targets_eq, hruns] at hstill
  | quit hτ hstill =>
      have hrest : ∀ τ' ∈ w.host.timers.erase τ, τ' ∈ w.host.timers := fun τ' h' =>
        List.mem_of_mem_erase h'
      rcases hw.of_mem_timers hτ with ⟨hs, hrun, hzero⟩ | ⟨-, -, -, r, hruns, -⟩ | ⟨hs, hruns⟩
      · exact absurd ⟨hzero, hrun, hs⟩ htimely.2
      · simp [Host.stillrunning, hw.targets_eq, hruns] at hstill
      · have hproper : Proper (.quit (w.host.own τ.run)) := by simp [Proper, Host.own, hruns]
        have hphase := hw.phase
        simp only [Phase, hs] at hphase
        refine ⟨hw.others, hw.runs, fun τ' h' => hw.punctual τ' (hrest τ' h'),
          fun τ' h' => hw.counted τ' (hrest τ' h'), ?_,
          List.forall_mem_cons.mpr ⟨hproper, hw.proper⟩⟩
        simpa [Phase, hs, hruns] using fun τ' h' => hphase.2 τ' (hrest τ' h')

theorem Guarded.next {w' : Watch T} (hw : w.Guarded) (hnext : w.Next w') : w'.Guarded := by
  cases hnext with
  | tick now hnow hlate => exact hw.tick hnow hlate
  | act a h htimely hact =>
      cases a with
      | start => exact htimely.elim
      | stop => exact htimely.elim
      | command found => exact hw.command htimely hact
      | spawn => exact hw.spawn hact
      | launch pid line => exact hw.launch hact
      | exit r => exact hw.exit hact
      | poll τ => exact hw.poll htimely hact
      | kill τ => exact hw.kill hact
      | appear pid line => exact hw.appear htimely hact
      | vanish p => exact hw.vanish hact

end Watch

/-- While a run is alive the timer spawned for it is alive and no other is; a
timer kills its own run after 1200 rounds, or quits when its run has ended. -/
theorem guarded_by_own_timer [IsStrictOrderedRing T] {others : List (ℕ × Str)} {start : T}
    {w : Watch T} (hothers : ∀ p ∈ others, listed p.2 = false)
    (hrun : Relation.ReflTransGen Watch.Next
      { host := { script := some .countTests, since := start, others }, now := start } w) :
    (∀ r ∈ w.host.runs, (∃ τ ∈ w.host.timers, τ.run = r.test) ∧
      ∀ τ ∈ w.host.timers, ¬ τ.run < r.test) ∧
    ∀ deed ∈ w.host.log, Watch.Proper deed := by
  have hw : w.Guarded := by
    apply preserved (fun hw hnext => Watch.Guarded.next hw hnext) hrun
    exact ⟨hothers, by simp, by simp, by simp, ⟨rfl, rfl⟩, by simp⟩
  refine ⟨fun r hr => ?_, hw.proper⟩
  obtain ⟨-, -, htest, τ, htimers, hτ⟩ := hw.of_mem_runs hr
  rw [htimers, htest]
  exact ⟨⟨τ, List.mem_cons_self, hτ⟩, by simp [hτ]⟩

def Watch.perform (w : Watch T) (a : Act T) : Watch T :=
  { w with host := (w.host.act w.now a).getD w.host }

def Watch.Possible : List (Act T) → Watch T → Prop
  | [], _ => True
  | a :: rest, w =>
      w.Timely a ∧ (w.host.act w.now a).isSome = true ∧ Possible rest (w.perform a)

instance Watch.decidablePossible : (acts : List (Act T)) → (w : Watch T) →
    Decidable (Watch.Possible acts w)
  | [], _ => isTrue trivial
  | a :: rest, w =>
      have := decidablePossible rest (w.perform a)
      inferInstanceAs (Decidable (_ ∧ _ ∧ _))

theorem Watch.Possible.reaches {acts : List (Act T)} {w : Watch T} (h : Possible acts w) :
    Relation.ReflTransGen Watch.Next w (acts.foldl Watch.perform w) := by
  induction acts generalizing w with
  | nil => exact .refl
  | cons a rest ih =>
      obtain ⟨htimely, hact, hrest⟩ := h
      have hsome : w.host.act w.now a = some (w.perform a).host := by
        obtain ⟨host, hhost⟩ := Option.isSome_iff_exists.mp hact
        rw [Watch.perform, hhost]
        rfl
      exact .head (.act a _ htimely hsome) (ih hrest)

def firstLaunch : Watch ℤ :=
  [Act.command false, .command true, .command false, .command false, .command false, .spawn,
    .launch 7 s2eCommand].foldl Watch.perform
      { host := { script := some .countTests, since := 0 }, now := 0 }

theorem guarded_by_own_timer_firstLaunch : firstLaunch.host.runs ≠ [] ∧
    (∀ r ∈ firstLaunch.host.runs, (∃ τ ∈ firstLaunch.host.timers, τ.run = r.test) ∧
      ∀ τ ∈ firstLaunch.host.timers, ¬ τ.run < r.test) ∧
    ∀ deed ∈ firstLaunch.host.log, Watch.Proper deed :=
  ⟨by decide +kernel,
    guarded_by_own_timer (by simp) (Watch.Possible.reaches (by decide +kernel))⟩

end AutoTestKernel.StartTest
