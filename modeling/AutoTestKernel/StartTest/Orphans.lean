import AutoTestKernel.Library.Runs
import AutoTestKernel.StartTest.Processes

/-!
# Timers and runs that outlive their session

A session that is killed may leave its timer and its run of S2E behind, and
the next session spawns further ones.  A timer that comes to its last round
kills every process that passes the greps at that moment.  It meets its own
run alone if each timer was spawned when no timer and no run was left, and no
process of another kind passes the greps.
-/

namespace AutoTestKernel.StartTest

open Text Runs

variable {T : Type*}

/-- The processes that a timer has signalled were those of its own run. -/
def Contained : Deed → Prop
  | .quit _ => True
  | .killed _ pids own => ∀ pid ∈ pids, pid ∈ own

namespace Host

def Next [DecidableEq T] (h h' : Host T) : Prop := ∃ now a, h.act now a = some h'

/-- A timer is spawned when nothing is left of the runs before, and kills when
no other process passes the greps. -/
def Careful (h : Host T) : Act T → Prop
  | .spawn => h.timers = [] ∧ h.runs = []
  | .kill _ => ∀ p ∈ h.others, listed p.2 = false
  | _ => True

def NextCareful [DecidableEq T] (h h' : Host T) : Prop :=
  ∃ now a, h.Careful a ∧ h.act now a = some h'

structure Numbered (h : Host T) : Prop where
  pids : (h.table.map Prod.fst).Nodup
  runs : ∀ r ∈ h.runs, listed r.line = true
  counted : ∀ τ ∈ h.timers, τ.rounds + τ.waitfor = 1200

variable {h h' : Host T} {now : T}

theorem mem_targets {pid : ℕ} :
    pid ∈ h.targets ↔ ∃ line, (pid, line) ∈ h.table ∧ listed line = true := by
  simp [targets]

theorem Numbered.of_sublist (hn : h.Numbered) (htable : h'.table.Sublist h.table)
    (hruns : ∀ r ∈ h'.runs, r ∈ h.runs) (htimers : ∀ τ ∈ h'.timers, τ ∈ h.timers) :
    h'.Numbered where
  pids := hn.pids.sublist (htable.map Prod.fst)
  runs r hr := hn.runs r (hruns r hr)
  counted τ hτ := hn.counted τ (htimers τ hτ)

variable [DecidableEq T]

theorem Numbered.next (hn : h.Numbered) (hnext : h.Next h') : h'.Numbered := by
  obtain ⟨now, a, hact⟩ := hnext
  cases did_of_act hact with
  | start _ => exact ⟨hn.pids, hn.runs, hn.counted⟩
  | stop _ => exact ⟨hn.pids, hn.runs, hn.counted⟩
  | command _ _ _ => exact ⟨hn.pids, hn.runs, hn.counted⟩
  | spawn _ => exact ⟨hn.pids, hn.runs, List.forall_mem_cons.mpr ⟨rfl, hn.counted⟩⟩
  | launch _ hline hpid =>
      refine ⟨?_, List.forall_mem_cons.mpr ⟨listed_of_command hline, hn.runs⟩, hn.counted⟩
      exact List.nodup_cons.mpr ⟨hpid, hn.pids⟩
  | exit _ =>
      apply hn.of_sublist
      · rw [reap_table]
        exact ((List.erase_sublist).map _).append_right h.others
      · rw [reap_runs]
        exact fun r' hr => List.mem_of_mem_erase hr
      · rw [reap_timers]
        exact fun τ' hmem => hmem
  | @poll τ hτ hleft _ =>
      have hcounted := hn.counted τ hτ
      refine ⟨hn.pids, hn.runs, List.forall_mem_cons.mpr ⟨?_, fun τ' hmem => ?_⟩⟩
      · change τ.rounds + 1 + (τ.waitfor - 1) = 1200
        omega
      · exact hn.counted τ' (List.mem_of_mem_erase hmem)
  | quit _ _ =>
      apply hn.of_sublist
      · exact List.Sublist.refl _
      · exact fun r hr => hr
      · exact fun τ' hmem => List.mem_of_mem_erase hmem
  | kill _ _ =>
      apply hn.of_sublist
      · rw [reap_table]
        exact List.Sublist.append (List.filter_sublist.map _) List.filter_sublist
      · rw [reap_runs]
        exact fun r hr => List.mem_of_mem_filter hr
      · rw [reap_timers]
        exact fun τ' hmem => List.mem_of_mem_erase hmem
  | @appear pid line hpid =>
      refine ⟨?_, hn.runs, hn.counted⟩
      have hperm : (h.runs.map (fun r => (r.pid, r.line)) ++ (pid, line) :: h.others).Perm
          ((pid, line) :: h.table) := List.perm_middle
      exact (hperm.map Prod.fst).nodup_iff.mpr (List.nodup_cons.mpr ⟨hpid, hn.pids⟩)
  | vanish _ =>
      apply hn.of_sublist
      · exact (List.erase_sublist).append_left _
      · exact fun r hr => hr
      · exact fun τ hτ => hτ

omit [DecidableEq T] in
theorem Numbered.targets_subset_iff (hn : h.Numbered) (run : ℕ) :
    (∀ pid ∈ h.targets, pid ∈ h.own run) ↔
      (∀ r ∈ h.runs, r.test = run) ∧ ∀ p ∈ h.others, listed p.2 = false := by
  have hpids : (h.runs.map Run.pid ++ h.others.map Prod.fst).Nodup := by
    have hpids := hn.pids
    simpa [table, Function.comp_def] using hpids
  constructor
  · intro hsub
    refine ⟨fun r hr => ?_, fun p hp => ?_⟩
    · have htarget : r.pid ∈ h.targets := by
        apply mem_targets.mpr
        refine ⟨r.line, ?_, hn.runs r hr⟩
        exact List.mem_append_left _ (List.mem_map.mpr ⟨r, hr, rfl⟩)
      obtain ⟨r', hr', heq⟩ := List.mem_map.mp (hsub _ htarget)
      obtain ⟨hr', htest⟩ := List.mem_filter.mp hr'
      obtain rfl : r' = r := List.inj_on_of_nodup_map hpids.of_append_left hr' hr heq
      simpa using htest
    · by_contra hlisted
      have htarget : p.1 ∈ h.targets := by
        apply mem_targets.mpr
        refine ⟨p.2, List.mem_append_right _ hp, ?_⟩
        simpa using hlisted
      obtain ⟨r, hr, heq⟩ := List.mem_map.mp (hsub _ htarget)
      apply List.disjoint_of_nodup_append hpids
      · exact List.mem_map.mpr ⟨r, List.mem_of_mem_filter hr, heq⟩
      · exact List.mem_map.mpr ⟨p, hp, rfl⟩
  · rintro ⟨hruns, hothers⟩ pid hpid
    obtain ⟨line, hmem, hline⟩ := mem_targets.mp hpid
    rcases List.mem_append.mp hmem with hmem | hmem
    · obtain ⟨r, hr, heq⟩ := List.mem_map.mp hmem
      obtain ⟨rfl, -⟩ := Prod.mk.inj heq
      apply List.mem_map.mpr
      exact ⟨r, List.mem_filter.mpr ⟨hr, by simpa using hruns r hr⟩, rfl⟩
    · exact absurd hline (by simp [hothers _ hmem])

/-- In a careful history only the last run and its timer can be alive. -/
structure Aligned (h : Host T) : Prop where
  runs : ∀ r ∈ h.runs, r.test = h.spawned
  timers : ∀ τ ∈ h.timers, τ.run = h.spawned
  contained : ∀ deed ∈ h.log, Contained deed

omit [DecidableEq T] in
theorem Aligned.of_subset (ha : h.Aligned) (hspawned : h'.spawned = h.spawned)
    (hruns : ∀ r ∈ h'.runs, r ∈ h.runs)
    (htimers : ∀ τ ∈ h'.timers, ∃ τ' ∈ h.timers, τ'.run = τ.run)
    (hlog : ∀ deed ∈ h'.log, Contained deed) : h'.Aligned where
  runs r hr := (ha.runs r (hruns r hr)).trans hspawned.symm
  timers τ hτ := by
    obtain ⟨τ', hτ', hrun⟩ := htimers τ hτ
    rw [← hrun, hspawned]
    exact ha.timers τ' hτ'
  contained := hlog

theorem Aligned.next (ha : h.Aligned) (hn : h.Numbered) (hnext : h.NextCareful h') :
    h'.Aligned := by
  obtain ⟨now, a, hcareful, hact⟩ := hnext
  cases did_of_act hact with
  | start _ => exact ⟨ha.runs, ha.timers, ha.contained⟩
  | stop _ => exact ⟨ha.runs, ha.timers, ha.contained⟩
  | command _ _ _ => exact ⟨ha.runs, ha.timers, ha.contained⟩
  | spawn _ =>
      obtain ⟨htimers, hruns⟩ := hcareful
      exact ⟨by simp [hruns], by simp [htimers], ha.contained⟩
  | launch _ _ _ => exact ⟨List.forall_mem_cons.mpr ⟨rfl, ha.runs⟩, ha.timers, ha.contained⟩
  | exit _ =>
      apply ha.of_subset
      · rw [reap_spawned]
      · rw [reap_runs]
        exact fun r' hr => List.mem_of_mem_erase hr
      · rw [reap_timers]
        exact fun τ hτ => ⟨τ, hτ, rfl⟩
      · rw [reap_log]
        exact ha.contained
  | @poll τ hτ _ _ =>
      apply ha.of_subset
      · rfl
      · exact fun r hr => hr
      · refine List.forall_mem_cons.mpr ⟨⟨τ, hτ, rfl⟩, fun τ' hmem => ?_⟩
        exact ⟨τ', List.mem_of_mem_erase hmem, rfl⟩
      · exact ha.contained
  | quit _ _ =>
      apply ha.of_subset
      · rfl
      · exact fun r hr => hr
      · exact fun τ' hmem => ⟨τ', List.mem_of_mem_erase hmem, rfl⟩
      · exact List.forall_mem_cons.mpr ⟨trivial, ha.contained⟩
  | @kill τ hτ _ =>
      apply ha.of_subset
      · rw [reap_spawned]
      · rw [reap_runs]
        exact fun r hr => List.mem_of_mem_filter hr
      · rw [reap_timers]
        exact fun τ' hmem => ⟨τ', List.mem_of_mem_erase hmem, rfl⟩
      · rw [reap_log]
        refine List.forall_mem_cons.mpr ⟨?_, ha.contained⟩
        apply (hn.targets_subset_iff τ.run).mpr
        exact ⟨fun r hr => (ha.runs r hr).trans (ha.timers τ hτ).symm, hcareful⟩
  | appear _ => exact ⟨ha.runs, ha.timers, ha.contained⟩
  | vanish _ => exact ⟨ha.runs, ha.timers, ha.contained⟩

def initial (start : T) : Host T := { script := none, since := start }

omit [DecidableEq T] in
theorem numbered_initial (start : T) : (initial start).Numbered :=
  ⟨List.nodup_nil, by simp [initial], by simp [initial]⟩

theorem numbered_of_run {start : T} (hrun : Relation.ReflTransGen Next (initial start) h) :
    h.Numbered :=
  preserved (fun hn hnext => Numbered.next hn hnext) hrun (numbered_initial start)

theorem aligned_of_run {start : T} (hrun : Relation.ReflTransGen NextCareful (initial start) h) :
    h.Numbered ∧ h.Aligned := by
  apply preserved (I := fun h : Host T => h.Numbered ∧ h.Aligned) ?_ hrun
  · exact ⟨numbered_initial start, by simp [initial], by simp [initial], by simp [initial]⟩
  · rintro h h' ⟨hn, ha⟩ hnext
    refine ⟨?_, ha.next hn hnext⟩
    obtain ⟨now, a, -, hact⟩ := hnext
    exact hn.next ⟨now, a, hact⟩

/-- While the greps find a process, a timer counts down to its kill. -/
theorem reaches_countdown {h : Host Unit} {τ : Timer Unit} {rest : List (Timer Unit)}
    (htimers : h.timers = τ :: rest) (hstill : h.stillrunning ≠ 0) :
    Relation.ReflTransGen Next h
      { h with timers := { τ with waitfor := 0, rounds := τ.rounds + τ.waitfor } :: rest } := by
  obtain ⟨run, waitfor, rounds, last⟩ := τ
  induction waitfor generalizing h rounds with
  | zero =>
      have heq : { h with timers := ⟨run, 0, rounds + 0, last⟩ :: rest } = h := by
        cases h
        simpa using htimers.symm
      rw [heq]
  | succ n ih =>
      have hact : h.act () (.poll ⟨run, n + 1, rounds, last⟩) =
          some { h with timers := ⟨run, n, rounds + 1, ()⟩ :: rest } := by
        simp [act, htimers, round, hstill]
      refine .head ⟨(), _, hact⟩ ?_
      have hrun := ih (h := { h with timers := ⟨run, n, rounds + 1, ()⟩ :: rest }) hstill
        (rounds + 1) rfl
      simpa [Nat.add_assoc, Nat.add_comm 1 n] using hrun

def perform (h : Host Unit) (acts : List (Act Unit)) : Option (Host Unit) :=
  acts.foldlM (fun h a => h.act () a) h

theorem reaches_perform {h h' : Host Unit} {acts : List (Act Unit)}
    (hacts : h.perform acts = some h') : Relation.ReflTransGen Next h h' := by
  induction acts generalizing h with
  | nil =>
      obtain rfl := Option.some.inj hacts
      exact .refl
  | cons a rest ih =>
      obtain ⟨t, hact, hrest⟩ := Option.bind_eq_some_iff.mp hacts
      exact .head ⟨(), a, hact⟩ (ih hrest)

end Host

variable [DecidableEq T]

/-- In every history a timer kills after 1200 rounds whatever the greps find;
this is its own run alone if and only if no process of another run or of
another kind passes them, and so it is throughout a careful history. -/
theorem kills_own_run_iff (start : T) :
    (∀ h h' : Host T, Relation.ReflTransGen Host.Next (Host.initial start) h → ∀ now τ,
      h.act now (.kill τ) = some h' →
      h'.log = .killed 1200 h.targets (h.own τ.run) :: h.log ∧
      (Contained (.killed 1200 h.targets (h.own τ.run)) ↔
        (∀ r ∈ h.runs, r.test = τ.run) ∧ ∀ p ∈ h.others, listed p.2 = false)) ∧
    ∀ h : Host T, Relation.ReflTransGen Host.NextCareful (Host.initial start) h →
      ∀ deed ∈ h.log, Contained deed := by
  refine ⟨fun h h' hrun now τ hact => ⟨?_, ?_⟩, fun h hrun => ?_⟩
  · have hn := Host.numbered_of_run hrun
    cases Host.did_of_act hact with
    | kill hτ hleft =>
        have hcounted := hn.counted τ hτ
        have hrounds : τ.rounds = 1200 := by omega
        rw [Host.reap_log, hrounds]
  · exact (Host.numbered_of_run hrun).targets_subset_iff τ.run
  · exact (Host.aligned_of_run hrun).2.contained

def twoSessions : List (Act Unit) :=
  let upToLaunch (pid : ℕ) : List (Act Unit) :=
    [.start, .command false, .command true, .command false, .command false, .command false, .spawn,
      .launch pid s2eCommand]
  upToLaunch 6 ++ [.stop] ++ upToLaunch 7 ++ [.poll { run := 1, last := () }]

/-- The timer of the first run also kills the second. -/
theorem kills_own_run_fails_after_stop :
    ¬ ∀ h : Host Unit, Relation.ReflTransGen Host.Next (Host.initial ()) h →
      ∀ deed ∈ h.log, Contained deed := by
  intro hclaim
  let h : Host Unit :=
    { script := some .running
      spawned := 2
      since := ()
      timers := [⟨1, 1199, 1, ()⟩, { run := 2, last := () }]
      runs := [⟨2, 7, s2eCommand⟩, ⟨1, 6, s2eCommand⟩] }
  have hsessions : (Host.initial ()).perform twoSessions = some h := by decide +kernel
  have hcountdown := Host.reaches_countdown (h := h) rfl (by decide +kernel)
  have hkill : ∃ h', Host.act () { h with timers := [⟨1, 0, 1200, ()⟩, { run := 2, last := () }] }
      (.kill ⟨1, 0, 1200, ()⟩) = some h' ∧ .killed 1200 [7, 6] [6] ∈ h'.log := by
    refine ⟨_, rfl, ?_⟩
    decide +kernel
  obtain ⟨h', hact, hmem⟩ := hkill
  have hrun := ((Host.reaches_perform hsessions).trans hcountdown).tail ⟨(), _, hact⟩
  have hcontained : Contained (.killed 1200 [7, 6] [6]) := hclaim h' hrun _ hmem
  simp [Contained] at hcontained

end AutoTestKernel.StartTest
