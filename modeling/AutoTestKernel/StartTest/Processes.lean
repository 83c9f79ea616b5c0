import AutoTestKernel.StartTest.Session

/-!
# Processes

The processes of a session and after it: startTest.sh, the runs of S2E it has
launched, the timers it has spawned, and all others of the user.  A timer knows
no process; it stops when no line of `ps` passes its two greps, and after its
last round it kills whatever passes them.  Processes carry the moments that
matter for the time they have left, in an arbitrary type.
-/

namespace AutoTestKernel.StartTest

open Text

/-- The pattern matches at the front of the text; its only special character
is the dot. -/
def fits : Str → Str → Bool
  | [], _ => true
  | _ :: _, [] => false
  | c :: pat, x :: xs => (c = '.' || c = x) && fits pat xs

def grep (pat line : Str) : Bool := line.tails.any (fits pat)

/-- A line of `ps x` that passes `grep qemu` and `grep "../img/debian6.0.5.qcow2"`. -/
def listed (line : Str) : Bool :=
  grep "qemu".toList line && grep "../img/debian6.0.5.qcow2".toList line

/-- `$s2e $img -loadvm runtest -s2e-config-file $s2eConfig -vnc :55` -/
def s2eCommand : Str :=
  ("../s2e/build/qemu-release/i386-s2e-softmmu/qemu-system-i386 " ++
    "../img/debian6.0.5.qcow2 -loadvm runtest -s2e-config-file ../config/test.lua -vnc :55").toList

/-- A process of timer.sh: the run it was spawned for, the rounds it has left
and those it has completed, and when it was spawned or last polled. -/
structure Timer (T : Type*) where
  run : ℕ
  waitfor : ℕ := 1200
  rounds : ℕ := 0
  last : T
  deriving DecidableEq

structure Run where
  test : ℕ
  pid : ℕ
  line : Str
  deriving DecidableEq

/-- The end of a timer: the processes it signalled, and those of its own run
that were alive. -/
inductive Deed
  | quit (own : List ℕ)
  | killed (rounds : ℕ) (pids own : List ℕ)
  deriving DecidableEq

/-- The script's next command if one is alive, how many timers were spawned,
and when the run of the current test ended. -/
structure Host (T : Type*) where
  script : Option Pc
  spawned : ℕ := 0
  since : T
  timers : List (Timer T) := []
  runs : List Run := []
  others : List (ℕ × Str) := []
  log : List Deed := []
  deriving DecidableEq

inductive Act (T : Type*)
  | start
  | stop
  | command (found : Bool)
  | spawn
  | launch (pid : ℕ) (line : Str)
  | exit (r : Run)
  | poll (τ : Timer T)
  | kill (τ : Timer T)
  | appear (pid : ℕ) (line : Str)
  | vanish (p : ℕ × Str)

/-- What timer.sh decides after a `sleep 1`: to exit, or how many rounds are left. -/
def round (waitfor stillrunning : ℕ) : Option ℕ :=
  if stillrunning = 0 then none else some (waitfor - 1)

namespace Host

variable {T : Type*}

/-- The lines of `ps x` that could pass the greps, by process.  Those of the
script, of the timers and of the greps themselves never do. -/
def table (h : Host T) : List (ℕ × Str) := h.runs.map (fun r => (r.pid, r.line)) ++ h.others

/-- ``kill -9 `ps x|grep qemu|grep "../img/debian6.0.5.qcow2"|awk '{print $1}'` `` -/
def targets (h : Host T) : List ℕ := (h.table.filter fun p => listed p.2).map Prod.fst

def stillrunning (h : Host T) : ℕ := h.targets.length

def own (h : Host T) (run : ℕ) : List ℕ := (h.runs.filter fun r => r.test = run).map Run.pid

/-- The script goes on when the run it waits for has ended. -/
def reap (now : T) (h : Host T) : Host T :=
  if h.script = some .running ∧ ∀ r ∈ h.runs, r.test ≠ h.spawned then
    { h with script := some .settle, since := now }
  else h

/-- `none` where the act is not possible. -/
def act [DecidableEq T] (now : T) (h : Host T) : Act T → Option (Host T)
  | .start =>
      if h.script = none ∨ h.script = some .finished then
        some { h with script := some .countTests }
      else none
  | .stop => if h.script ≠ none then some { h with script := none } else none
  | .command found =>
      match h.script with
      | none | some .spawnTimer | some .launch | some .running | some .finished => none
      | some pc => some { h with script := some (pc.next found) }
  | .spawn =>
      if h.script = some .spawnTimer then
        some { h with
          script := some (Pc.next false .spawnTimer)
          spawned := h.spawned + 1
          timers := { run := h.spawned + 1, last := now } :: h.timers }
      else none
  | .launch pid line =>
      if h.script = some .launch ∧ s2eCommand <:+: line ∧ pid ∉ h.table.map Prod.fst then
        some { h with
          script := some (Pc.next false .launch)
          runs := ⟨h.spawned, pid, line⟩ :: h.runs }
      else none
  | .exit r =>
      if r ∈ h.runs then some (reap now { h with runs := h.runs.erase r }) else none
  | .poll τ =>
      if τ ∈ h.timers ∧ 0 < τ.waitfor then
        match round τ.waitfor h.stillrunning with
        | some left => some { h with
            timers := { τ with waitfor := left, rounds := τ.rounds + 1, last := now } ::
              h.timers.erase τ }
        | none => some { h with
            timers := h.timers.erase τ
            log := .quit (h.own τ.run) :: h.log }
      else none
  | .kill τ =>
      if τ ∈ h.timers ∧ τ.waitfor = 0 then
        some (reap now { h with
          timers := h.timers.erase τ
          runs := h.runs.filter fun r => r.pid ∉ h.targets
          others := h.others.filter fun p => p.1 ∉ h.targets
          log := .killed τ.rounds h.targets (h.own τ.run) :: h.log })
      else none
  | .appear pid line =>
      if pid ∉ h.table.map Prod.fst then some { h with others := (pid, line) :: h.others }
      else none
  | .vanish p => if p ∈ h.others then some { h with others := h.others.erase p } else none

/-- What an act can do, and when it is possible. -/
inductive Did [DecidableEq T] (now : T) (h : Host T) : Act T → Host T → Prop
  | start (hs : h.script = none ∨ h.script = some .finished) :
      Did now h .start { h with script := some .countTests }
  | stop (hs : h.script ≠ none) : Did now h .stop { h with script := none }
  | command {found : Bool} (pc : Pc) (hs : h.script = some pc)
      (hpc : pc ∉ [.spawnTimer, .launch, .running, .finished]) :
      Did now h (.command found) { h with script := some (pc.next found) }
  | spawn (hs : h.script = some .spawnTimer) :
      Did now h .spawn { h with
        script := some .launch
        spawned := h.spawned + 1
        timers := { run := h.spawned + 1, last := now } :: h.timers }
  | launch {pid : ℕ} {line : Str} (hs : h.script = some .launch) (hline : s2eCommand <:+: line)
      (hpid : pid ∉ h.table.map Prod.fst) :
      Did now h (.launch pid line) { h with
        script := some .running
        runs := ⟨h.spawned, pid, line⟩ :: h.runs }
  | exit {r : Run} (hr : r ∈ h.runs) :
      Did now h (.exit r) (reap now { h with runs := h.runs.erase r })
  | poll {τ : Timer T} (hτ : τ ∈ h.timers) (hleft : 0 < τ.waitfor) (hstill : h.stillrunning ≠ 0) :
      Did now h (.poll τ) { h with
        timers := { τ with waitfor := τ.waitfor - 1, rounds := τ.rounds + 1, last := now } ::
          h.timers.erase τ }
  | quit {τ : Timer T} (hτ : τ ∈ h.timers) (hstill : h.stillrunning = 0) :
      Did now h (.poll τ) { h with
        timers := h.timers.erase τ
        log := .quit (h.own τ.run) :: h.log }
  | kill {τ : Timer T} (hτ : τ ∈ h.timers) (hleft : τ.waitfor = 0) :
      Did now h (.kill τ) (reap now { h with
        timers := h.timers.erase τ
        runs := h.runs.filter fun r => r.pid ∉ h.targets
        others := h.others.filter fun p => p.1 ∉ h.targets
        log := .killed τ.rounds h.targets (h.own τ.run) :: h.log })
  | appear {pid : ℕ} {line : Str} (hpid : pid ∉ h.table.map Prod.fst) :
      Did now h (.appear pid line) { h with others := (pid, line) :: h.others }
  | vanish {p : ℕ × Str} (hp : p ∈ h.others) :
      Did now h (.vanish p) { h with others := h.others.erase p }

theorem did_of_act [DecidableEq T] {now : T} {h h' : Host T} {a : Act T}
    (hact : h.act now a = some h') : h.Did now a h' := by
  cases a with
  | command found =>
      cases hs : h.script with
      | none => simp [act, hs] at hact
      | some pc =>
          cases pc with
          | spawnTimer | launch | running | finished => simp [act, hs] at hact
          | _ =>
              simp only [act, hs, Option.some.injEq] at hact
              subst hact
              exact .command _ hs (by simp)
  | poll τ =>
      simp only [act, Option.ite_none_right_eq_some] at hact
      obtain ⟨⟨hτ, hleft⟩, hact⟩ := hact
      by_cases hstill : h.stillrunning = 0
      · simp only [round, hstill, if_true, Option.some.injEq] at hact
        subst hact
        exact .quit hτ hstill
      · simp only [round, hstill, if_false, Option.some.injEq] at hact
        subst hact
        exact .poll hτ hleft hstill
  | start | stop | spawn | exit r | appear pid line | vanish p =>
      simp only [act, Option.ite_none_right_eq_some, Option.some.injEq] at hact
      obtain ⟨hguard, rfl⟩ := hact
      constructor
      exact hguard
  | launch pid line =>
      simp only [act, Option.ite_none_right_eq_some, Option.some.injEq] at hact
      obtain ⟨⟨hs, hline, hpid⟩, rfl⟩ := hact
      exact .launch hs hline hpid
  | kill τ =>
      simp only [act, Option.ite_none_right_eq_some, Option.some.injEq] at hact
      obtain ⟨⟨hτ, hleft⟩, rfl⟩ := hact
      exact .kill hτ hleft

@[simp] theorem reap_table (now : T) (h : Host T) : (reap now h).table = h.table := by
  unfold reap
  split <;> rfl

@[simp] theorem reap_runs (now : T) (h : Host T) : (reap now h).runs = h.runs := by
  unfold reap
  split <;> rfl

@[simp] theorem reap_timers (now : T) (h : Host T) : (reap now h).timers = h.timers := by
  unfold reap
  split <;> rfl

@[simp] theorem reap_spawned (now : T) (h : Host T) : (reap now h).spawned = h.spawned := by
  unfold reap
  split <;> rfl

@[simp] theorem reap_log (now : T) (h : Host T) : (reap now h).log = h.log := by
  unfold reap
  split <;> rfl

theorem reap_of_ended {now : T} {h : Host T} (hs : h.script = some .running)
    (hruns : h.runs = []) : reap now h = { h with script := some .settle, since := now } := by
  simp [reap, hs, hruns]

theorem reap_of_ne {now : T} {h : Host T} (hs : h.script ≠ some .running) : reap now h = h := by
  simp [reap, hs]

end Host

/-! ## What the greps let pass -/

theorem fits_append (pat s : Str) : fits pat (pat ++ s) = true := by
  induction pat with
  | nil => rfl
  | cons c pat ih => simp [fits, ih]

theorem grep_of_infix {pat line : Str} (h : pat <:+: line) : grep pat line = true := by
  obtain ⟨a, b, rfl⟩ := h
  apply List.any_eq_true.mpr
  refine ⟨pat ++ b, ?_, fits_append pat b⟩
  rw [List.mem_tails, List.append_assoc]
  exact List.suffix_append a (pat ++ b)

theorem listed_of_command {line : Str} (h : s2eCommand <:+: line) : listed line = true := by
  have hqemu : "qemu".toList <:+: s2eCommand := by decide +kernel
  have himg : "../img/debian6.0.5.qcow2".toList <:+: s2eCommand := by decide +kernel
  rw [listed, grep_of_infix (hqemu.trans h), grep_of_infix (himg.trans h)]
  rfl

theorem not_listed_own : ∀ line ∈ ["bash ../timer.sh", "bash ../startTest.sh", "sleep 1", "ps x",
    "grep qemu", "grep ../img/debian6.0.5.qcow2", "wc -l", "awk \x7bprint $1\x7d"],
    listed line.toList = false := by
  decide +kernel

end AutoTestKernel.StartTest
