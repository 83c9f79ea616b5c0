import AutoTestKernel.Library.FileTree
import AutoTestKernel.StartTest.Config
import AutoTestKernel.StartTest.Paths
import Mathlib.Logic.Relation

/-!
# The two loops of startTest.sh

A session runs the script one command at a time.  The first loop launches S2E
on every `test` below tests/ and renames it to `testdone`, the second renames
them back.  Nothing is remembered from one session to the next but the tree
and the configuration file.
-/

namespace AutoTestKernel.StartTest

open Text Pathname Shell Fs

inductive Pc
  | countTests | checkTests | pickTest | derivePath | configure | spawnTimer | launch
  | running | settle | mark
  | countDone | checkDone | pickDone | reset | finished
  deriving DecidableEq

/-- The command after this one, where the tests of the loops found something
to do or did not. -/
def Pc.next (found : Bool) : Pc → Pc
  | .countTests => .checkTests
  | .checkTests => if found then .pickTest else .countDone
  | .pickTest => .derivePath
  | .derivePath => .configure
  | .configure => .spawnTimer
  | .spawnTimer => .launch
  | .launch => .running
  | .running => .settle
  | .settle => .mark
  | .mark => .countTests
  | .countDone => .checkDone
  | .checkDone => if found then .pickDone else .finished
  | .pickDone => .reset
  | .reset => .countDone
  | .finished => .finished

def Pc.firstLoop : Pc → Bool
  | .countTests | .checkTests | .pickTest | .derivePath | .configure | .spawnTimer | .launch
  | .running | .settle | .mark => true
  | .countDone | .checkDone | .pickDone | .reset | .finished => false

theorem Pc.firstLoop_of_next {found : Bool} {pc : Pc} (h : (pc.next found).firstLoop = true) :
    pc.firstLoop = true := by
  cases pc <;> cases found <;> simp_all [Pc.next, Pc.firstLoop]

/-- S2E has been launched, and its test not yet been marked. -/
def Pc.inRun : Pc → Bool
  | .running | .settle | .mark => true
  | _ => false

theorem Pc.inRun_of_next {found : Bool} {pc : Pc} (h : (pc.next found).inRun = true) :
    pc = .launch ∨ pc = .running ∨ pc = .settle := by
  cases pc <;> cases found <;> simp_all [Pc.next, Pc.inRun]

theorem Pc.eq_countTests_of_next {found : Bool} {pc : Pc}
    (h : pc.next found = .checkTests) : pc = .countTests := by
  cases pc <;> cases found <;> simp_all [Pc.next]

/-- What happens to the tests: S2E starts with a configuration, `mv` gets its
arguments in either loop, and somebody else compiles a test into a directory. -/
inductive Event (α : Type*)
  | launched (nowTest : Str) (config : TextFile)
  | marked (args : List Str)
  | reset (args : List Str)
  | built (d : Str) (contents : α)
  deriving DecidableEq

/-- The files, the variables of the script, and what has happened so far. -/
structure Session (α : Type*) where
  tree : FileTree α
  config : TextFile
  pc : Pc := .countTests
  haveTestsNum : ℕ := 0
  doneTestsNum : ℕ := 0
  nowTest : Str := []
  nowTestPath : Str := []
  log : List (Event α) := []

namespace Session

variable {α : Type*}

def existing (outside : Finset Str) (s : Session α) : Finset Str :=
  s.tree.keys.toFinset ∪ outside

def scan (s : Session α) : List Str :=
  match s.pc with
  | .countTests | .pickTest => s.tree.find testName
  | .countDone | .pickDone => s.tree.find doneName
  | _ => []

def found (s : Session α) : Bool :=
  match s.pc with
  | .checkTests => decide (0 < s.haveTestsNum)
  | .checkDone => decide (0 < s.doneTestsNum)
  | _ => false

/-- What the current command does, with the pathnames in the order in which
`find` lists them.  S2E itself leaves the tests alone. -/
def effect (more : Str → Option (TextFile → TextFile)) (outside : Finset Str)
    (listing : List Str) (s : Session α) : Session α :=
  match s.pc with
  | .countTests => { s with haveTestsNum := lineCount (printLines listing) }
  | .pickTest | .pickDone => { s with nowTest := headLine (printLines listing) }
  | .derivePath => { s with nowTestPath := StartTest.nowTestPath (s.existing outside) s.nowTest }
  | .configure => { s with config := rewriteConfig .posix more s.nowTestPath s.config }
  | .launch => { s with log := .launched s.nowTest s.config :: s.log }
  | .mark =>
      let args := markArgs (s.existing outside) s.nowTest
      { s with tree := s.tree.mv args, log := .marked args :: s.log }
  | .countDone => { s with doneTestsNum := lineCount (printLines listing) }
  | .reset =>
      let args := resetArgs (s.existing outside) s.nowTest
      { s with tree := s.tree.mv args, log := .reset args :: s.log }
  | .checkTests | .spawnTimer | .running | .settle | .checkDone | .finished => s

def step (more : Str → Option (TextFile → TextFile)) (outside : Finset Str)
    (listing : List Str) (s : Session α) : Session α :=
  { s.effect more outside listing with pc := s.pc.next s.found }

def Next (more : Str → Option (TextFile → TextFile)) (s t : Session α) : Prop :=
  s.pc ≠ .finished ∧
    ∃ outside listing, listing.Perm s.scan ∧ t = s.step more outside listing

/-- The session after `n` commands, when `find` keeps to the order of the tree. -/
def steps (more : Str → Option (TextFile → TextFile)) : ℕ → Session α → Session α
  | 0, s => s
  | n + 1, s => steps more n (s.step more ∅ s.scan)

def restart (s : Session α) : Session α :=
  { tree := s.tree, config := s.config, log := s.log }

/-- A command, or a kill between two commands or during the run of S2E. -/
def NextOrKill (more : Str → Option (TextFile → TextFile)) (s t : Session α) : Prop :=
  Next more s t ∨ (s.pc ≠ .finished ∧ t = s.restart)

theorem step_of_finished {more : Str → Option (TextFile → TextFile)} {outside : Finset Str}
    {listing : List Str} {s : Session α} (h : s.pc = .finished) :
    s.step more outside listing = s := by
  cases s
  simp only at h
  subst h
  rfl

theorem reaches_steps (more : Str → Option (TextFile → TextFile)) (n : ℕ) (s : Session α) :
    Relation.ReflTransGen (Next more) s (steps more n s) := by
  induction n generalizing s with
  | zero => exact .refl
  | succ n ih =>
      by_cases hpc : s.pc = .finished
      · have hstep : s.step more ∅ s.scan = s := step_of_finished hpc
        rw [steps, hstep]
        exact ih s
      · exact .head ⟨hpc, ∅, s.scan, List.Perm.refl _, rfl⟩ (ih _)

end Session

/-! ## Tests and marks -/

theorem hasName_testName {p : Str} : hasName testName p = true ↔ ∃ d, p = testPath d :=
  hasName_iff

theorem hasName_doneName {p : Str} : hasName doneName p = true ↔ ∃ d, p = donePath d :=
  hasName_iff

theorem testPath_injective : Function.Injective testPath := fun _ _ h =>
  List.append_cancel_right h

theorem donePath_injective : Function.Injective donePath := fun _ _ h =>
  List.append_cancel_right h

@[simp] theorem testPath_inj {d d' : Str} : testPath d = testPath d' ↔ d = d' :=
  testPath_injective.eq_iff

@[simp] theorem donePath_inj {d d' : Str} : donePath d = donePath d' ↔ d = d' :=
  donePath_injective.eq_iff

@[simp] theorem testPath_ne_donePath (d d' : Str) : testPath d ≠ donePath d' := by
  have htest : testPath d = (d ++ "/tes".toList) ++ ['t'] := by
    rw [List.append_assoc]
    rfl
  have hdone : donePath d' = (d' ++ "/testdon".toList) ++ ['e'] := by
    rw [List.append_assoc]
    rfl
  intro h
  rw [htest, hdone] at h
  exact absurd (List.append_inj_right' h rfl) (by decide)

@[simp] theorem donePath_ne_testPath (d d' : Str) : donePath d ≠ testPath d' :=
  (testPath_ne_donePath d' d).symm

@[simp] theorem hasName_testName_testPath (d : Str) : hasName testName (testPath d) = true :=
  hasName_testName.mpr ⟨d, rfl⟩

@[simp] theorem hasName_doneName_donePath (d : Str) : hasName doneName (donePath d) = true :=
  hasName_doneName.mpr ⟨d, rfl⟩

@[simp] theorem hasName_testName_donePath (d : Str) : hasName testName (donePath d) = false :=
  Bool.eq_false_iff.mpr fun h =>
    (hasName_testName.mp h).elim fun d' hd' => donePath_ne_testPath d d' hd'

@[simp] theorem hasName_doneName_testPath (d : Str) : hasName doneName (testPath d) = false :=
  Bool.eq_false_iff.mpr fun h =>
    (hasName_doneName.mp h).elim fun d' hd' => testPath_ne_donePath d d' hd'

theorem dirName_testPath (d : Str) : dirName (testPath d) = d := dirName_join (by decide)

theorem dirName_donePath (d : Str) : dirName (donePath d) = d := dirName_join (by decide)

/-- The name that a marked test had, and will have again. -/
def unmark (p : Str) : Str := if hasName doneName p then p.rdrop done.length else p

@[simp] theorem unmark_donePath (d : Str) : unmark (donePath d) = testPath d := by
  rw [unmark, if_pos (hasName_doneName.mpr ⟨d, rfl⟩), ← testPath_done, List.rdrop_append_length]

theorem unmark_of_not_done {p : Str} (h : ∀ d, p ≠ donePath d) : unmark p = p :=
  if_neg fun hname => (hasName_doneName.mp hname).elim h

@[simp] theorem unmark_testPath (d : Str) : unmark (testPath d) = testPath d :=
  unmark_of_not_done (testPath_ne_donePath d)

structure Quiet (p : Str) : Prop where
  unbroken : Unbroken p
  no_pattern : Inert (p ++ ['/'])
  no_hahaha : ¬ hahaha <:+: p

theorem quiet_iff {p : Str} :
    Quiet p ↔ Unbroken p ∧ Inert (p ++ ['/']) ∧ ¬ hahaha <:+: p :=
  ⟨fun h => ⟨h.1, h.2, h.3⟩, fun h => ⟨h.1, h.2.1, h.2.2⟩⟩

instance (p : Str) : Decidable (Quiet p) := decidable_of_iff _ quiet_iff.symm

theorem Quiet.of_join {d n : Str} (h : Quiet (d ++ '/' :: n)) : Quiet d where
  unbroken := (unbroken_append.mp h.unbroken).1
  no_pattern := by
    have hlong : Inert ((d ++ ['/']) ++ (n ++ ['/'])) := by simpa using h.no_pattern
    exact hlong.of_append
  no_hahaha := fun hinfix => h.no_hahaha (List.infix_append_of_infix_left hinfix)

theorem Quiet.safeDirectory {d : Str} (h : Quiet d) : SafeDirectory d where
  unbroken := h.unbroken
  literal := h.no_pattern.literal
  no_test := fun hinfix =>
    h.no_hahaha ((by decide : hahaha <:+: "testhahaha".toList).trans hinfix)
  no_done := fun hinfix =>
    h.no_hahaha ((by decide : hahaha <:+: "donehahaha".toList).trans hinfix)

section Marks

variable {α : Type*} {t : FileTree α} {d : Str} {c : α}

theorem SafeDirectory.mv_markArgs (h : SafeDirectory d)
    (hmem : (testPath d, .file c) ∈ t.entries) (hdir : t.isDir (donePath d) = false)
    (fs : Finset Str) :
    t.mv (markArgs fs (testPath d)) = t.moveFile (testPath d) (donePath d) := by
  have hsame : dirName (donePath d) = dirName (testPath d) := by
    rw [dirName_donePath, dirName_testPath]
  rw [h.markArgs_eq, FileTree.mv_file hmem (testPath_ne_donePath d d) hsame hdir]

theorem SafeDirectory.mv_resetArgs (h : SafeDirectory d)
    (hmem : (donePath d, .file c) ∈ t.entries) (hdir : t.isDir (testPath d) = false)
    (fs : Finset Str) :
    t.mv (resetArgs fs (donePath d)) = t.moveFile (donePath d) (testPath d) := by
  have hsame : dirName (testPath d) = dirName (donePath d) := by
    rw [dirName_donePath, dirName_testPath]
  rw [h.resetArgs_eq, FileTree.mv_file hmem (donePath_ne_testPath d d) hsame hdir]

end Marks

end AutoTestKernel.StartTest
