import AutoTestKernel.Library.Runs
import AutoTestKernel.StartTest.Recovery

/-!
# Builds that land while a session runs

Compilers may write a new `test` into any directory below tests/ between two
commands of the script, which has no means to notice.  Two windows do harm in
a directory: between the launch of S2E on its test and the rename that marks
the test, and after the last scan of the first loop while there is a mark.
-/

namespace AutoTestKernel.StartTest

open Text Shell Fs Runs

variable {α : Type*}

/-- What the latest build into the directory wrote. -/
def lastBuild (d : Str) : List (Event α) → Option α
  | [] => none
  | .built d' c :: older => if d' = d then some c else lastBuild d older
  | .launched _ _ :: older => lastBuild d older
  | .marked _ :: older => lastBuild d older
  | .reset _ :: older => lastBuild d older

/-- The latest build into the directory has not been followed by a launch. -/
def unlaunched (d : Str) : List (Event α) → Bool
  | [] => false
  | .built d' _ :: older => if d' = d then true else unlaunched d older
  | .launched p _ :: older => if p = testPath d then false else unlaunched d older
  | .marked _ :: older => unlaunched d older
  | .reset _ :: older => unlaunched d older

namespace Session

def build (d : Str) (c : α) (s : Session α) : Session α :=
  { s with tree := s.tree.write (testPath d) c, log := .built d c :: s.log }

def CanBuild (s : Session α) (d : Str) : Prop :=
  (d, .dir) ∈ s.tree.entries ∧ s.tree.isDir (testPath d) = false

/-- The last scan of the first loop has found nothing. -/
def AfterScan (s : Session α) : Prop :=
  (s.pc = .checkTests ∧ s.haveTestsNum = 0) ∨ s.pc.firstLoop = false

/-- Builds into `D` come before the last scan, or find no mark. -/
def BeforeReset (D : Str) (s : Session α) (d : Str) : Prop :=
  d = D → s.AfterScan → donePath D ∉ s.tree.keys

structure Steady (s : Session α) : Prop where
  orderly : Orderly s
  dir_safe : ∀ d, (d, .dir) ∈ s.tree.entries → SafeDirectory d

variable {more : Str → Option (TextFile → TextFile)} {allowed : Session α → Str → Prop}
  {D : Str} {s t : Session α}

theorem Steady.workable_build (h : Steady s) {d : Str} {c : α} (hd : s.CanBuild d) :
    Workable (s.build d c).tree := by
  have hwork := h.orderly.workable
  constructor
  · intro d' hd'
    simp only [build, FileTree.mem_keys_write, testPath_inj, donePath_ne_testPath, false_or] at hd'
    rcases hd' with (rfl | htest) | hdone
    · exact h.dir_safe d' hd.1
    · exact hwork.safe d' (Or.inl htest)
    · exact hwork.safe d' (Or.inr hdone)
  · intro d' n hn
    rcases FileTree.mem_write.mp hn with ⟨heq, -⟩ | ⟨-, hold⟩
    · exact absurd heq (donePath_ne_testPath d' d)
    · exact hwork.done_file d' n hold
  · intro d' n hn hdone
    rcases FileTree.mem_write.mp hn with ⟨-, rfl⟩ | ⟨-, hold⟩
    · rfl
    · rcases FileTree.mem_keys_write.mp hdone with heq | hdone
      · exact absurd heq (donePath_ne_testPath d' d)
      · exact hwork.test_file d' n hold hdone

theorem Steady.ready_build (h : Steady s) (d : Str) (c : α) : (s.build d c).Ready := by
  have hready := h.orderly.ready
  have hdones : (s.tree.write (testPath d) c).find doneName = s.tree.find doneName :=
    FileTree.find_write_of_name (hasName_doneName_testPath d)
  have htests : s.tree.find testName ≠ [] → (s.tree.write (testPath d) c).find testName ≠ [] := by
    intro hne
    obtain ⟨p, hp⟩ := List.exists_mem_of_ne_nil _ hne
    exact List.ne_nil_of_mem (FileTree.mem_find_write hp)
  cases hpc : s.pc with
  | checkTests =>
      simp only [Ready, hpc] at hready
      simpa only [Ready, build, hpc] using fun hfound => htests (hready hfound)
  | pickTest =>
      simp only [Ready, hpc] at hready
      simpa only [Ready, build, hpc] using htests hready
  | countTests => simp only [Ready, build, hpc]
  | countDone => simp only [Ready, build, hpc]
  | checkDone | pickDone | reset | finished =>
      simp only [Ready, hpc] at hready
      simpa only [Ready, build, hpc, hdones] using hready
  | _ =>
      simp only [Ready, hpc] at hready
      simpa only [Ready, build, hpc] using FileTree.mem_find_write hready

theorem Steady.build (h : Steady s) {d : Str} {c : α} (hd : s.CanBuild d) :
    Steady (s.build d c) where
  orderly := ⟨h.workable_build hd, h.ready_build d c⟩
  dir_safe d' hd' := by
    rcases FileTree.mem_write.mp hd' with ⟨-, heq⟩ | ⟨-, hold⟩
    · cases heq
    · exact h.dir_safe d' hold

theorem Steady.next (h : Steady s) (hnext : Next more s t) : Steady t := by
  refine ⟨h.orderly.next hnext, fun d hd => ?_⟩
  have hfile : ∀ {src dst : Str} {c : α}, (src, .file c) ∈ s.tree.entries → src ≠ dst →
      (d, .dir) ∈ (s.tree.moveFile src dst).entries → (d, .dir) ∈ s.tree.entries := by
    intro src dst c hmem hne hdir
    rcases (FileTree.mem_moveFile hne).mp hdir with ⟨-, hsrc⟩ | ⟨-, -, hold⟩
    · cases FileTree.entry_unique hsrc hmem
    · exact hold
  apply h.dir_safe
  cases h.orderly.move hnext with
  | idle _ htree _ => rwa [htree] at hd
  | launch _ _ htree _ => rwa [htree] at hd
  | mark _ d' c _ hmem htree _ =>
      rw [htree] at hd
      exact hfile hmem (testPath_ne_donePath d' d') hd
  | reset _ d' c _ hmem htree _ =>
      rw [htree] at hd
      exact hfile hmem (donePath_ne_testPath d' d') hd

structure Marking (D : Str) (s : Session α) : Prop where
  steady : Steady s
  launched : s.pc.inRun = true → s.nowTest = testPath D → unlaunched D s.log = false

theorem Marking.launched_next (h : Marking D s) (hnext : Next more s t)
    (ht : t.pc.inRun = true) (hnow : t.nowTest = testPath D) : unlaunched D t.log = false := by
  have hpc := Pc.inRun_of_next (hnext.pc_eq ▸ ht)
  have hsame : t.nowTest = s.nowTest :=
    hnext.nowTest_eq (by rcases hpc with hpc | hpc | hpc <;> simp [hpc])
      (by rcases hpc with hpc | hpc | hpc <;> simp [hpc])
  rw [hsame] at hnow
  cases h.steady.orderly.move hnext with
  | idle hother _ hlog =>
      have hrun : s.pc.inRun = true := by
        rcases hpc with hpc | hpc | hpc
        · exact absurd hpc hother.1
        · rw [hpc]; rfl
        · rw [hpc]; rfl
      rw [hlog]
      exact h.launched hrun hnow
  | launch _ _ _ hlog => rw [hlog, unlaunched, if_pos hnow]
  | mark hmark => simp [hmark] at hpc
  | reset hreset => simp [hreset] at hpc

structure Keeping (D : Str) (s : Session α) : Prop where
  steady : Steady s
  content : ∀ c, lastBuild D s.log = some c → (testPath D, .file c) ∈ s.tree.entries ∨
    (testPath D ∉ s.tree.keys ∧ (donePath D, .file c) ∈ s.tree.entries)
  single : s.AfterScan → testPath D ∈ s.tree.keys → donePath D ∉ s.tree.keys

theorem Keeping.build (h : Keeping D s) {d : Str} {c : α} (hd : s.CanBuild d)
    (hallowed : s.BeforeReset D d) : Keeping D (s.build d c) := by
  have hdone : donePath D ∈ (s.build d c).tree.keys ↔ donePath D ∈ s.tree.keys := by
    simp [Session.build, FileTree.mem_keys_write]
  refine ⟨h.steady.build hd, fun c' hc' => ?_, fun hs htest => ?_⟩
  · by_cases hdD : d = D
    · have hlast : lastBuild D (s.build d c).log = some c := if_pos hdD
      have hcc : c = c' := Option.some.inj (hlast.symm.trans hc')
      exact Or.inl (FileTree.mem_write.mpr (Or.inl ⟨by rw [hdD], by rw [hcc]⟩))
    · have hlast : lastBuild D (s.build d c).log = lastBuild D s.log := if_neg hdD
      have hne : testPath D ≠ testPath d := fun heq => hdD (testPath_injective heq).symm
      rw [hlast] at hc'
      refine (h.content c' hc').imp (fun htest => ?_) fun ⟨hno, hfile⟩ => ⟨?_, ?_⟩
      · exact FileTree.mem_write.mpr (Or.inr ⟨hne, htest⟩)
      · exact fun hkey => hno ((FileTree.mem_keys_write.mp hkey).resolve_left hne)
      · exact FileTree.mem_write.mpr (Or.inr ⟨donePath_ne_testPath D d, hfile⟩)
  · rw [hdone]
    by_cases hdD : d = D
    · exact hallowed hdD hs
    · have hne : testPath D ≠ testPath d := fun heq => hdD (testPath_injective heq).symm
      exact h.single hs ((FileTree.mem_keys_write.mp htest).resolve_left hne)

end Session

/-- A tree on which the script can work while others build in it. -/
structure Buildable (T : FileTree α) : Prop where
  quiet : ∀ p ∈ T.keys, Quiet p
  done_file : ∀ d n, (donePath d, n) ∈ T.entries → n.isFile = true
  test_file : ∀ d n, (testPath d, n) ∈ T.entries → donePath d ∈ T.keys → n.isFile = true

theorem Buildable.steady {T : FileTree α} (h : Buildable T) (config : TextFile) :
    Session.Steady { tree := T, config } := by
  have hsafe : ∀ {d n : Str}, d ++ '/' :: n ∈ T.keys → SafeDirectory d := fun hd =>
    (h.quiet _ hd).of_join.safeDirectory
  refine ⟨⟨⟨fun d hd => hd.elim hsafe hsafe, h.done_file, h.test_file⟩, trivial⟩, fun d hd => ?_⟩
  exact (h.quiet d (FileTree.mem_keys_iff.mpr ⟨_, hd⟩)).safeDirectory

end AutoTestKernel.StartTest
