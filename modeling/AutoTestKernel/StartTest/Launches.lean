import AutoTestKernel.Library.Runs
import AutoTestKernel.StartTest.Session

/-!
# Where S2E is pointed

At every launch the configuration has to name the directory of the test that
is marked next.  The directory gets there through the shell and two scripts
for `sed`; it arrives unharmed as long as the pathname of each test means
itself to all of them.
-/

namespace AutoTestKernel.StartTest

open Text Sed Pathname Shell Fs Runs

variable {α : Type*}

/-- S2E finds the directory of a test in the configuration, which is otherwise
the file `f`, and this test is the one marked next. -/
def PointsAtMarked (f : TextFile) : Event α → List (Event α) → Prop
  | .launched p c, _ => hasName testName p = true ∧
      c.lines = setBaseDirs (pointedLine (dirName p ++ ['/'])) f.lines
  | .marked args, .launched p _ :: _ => args = [p, p ++ done]
  | .marked _, _ => False
  | _, _ => True

instance (f : TextFile) : (e : Event α) → (older : List (Event α)) →
    Decidable (PointsAtMarked f e older)
  | .launched _ _, _ => inferInstanceAs (Decidable (_ ∧ _))
  | .marked _, .launched _ _ :: _ => inferInstanceAs (Decidable (_ = _))
  | .marked _, [] => isFalse id
  | .marked _, .marked _ :: _ => isFalse id
  | .marked _, .reset _ :: _ => isFalse id
  | .marked _, .built _ _ :: _ => isFalse id
  | .reset _, _ => isTrue trivial
  | .built _ _, _ => isTrue trivial

namespace Session

/-- At the commands that handle the pathname of the test, no other pathname
matches it, it has no `testhahaha` in it, and nothing that `sed` interprets. -/
def Addressed (outside : Finset Str) (s : Session α) : Prop :=
  match s.pc with
  | .derivePath => Sole (s.existing outside) (s.nowTest ++ hahaha) ∧
      ¬ "testhahaha".toList <:+: dirName s.nowTest ∧ Ordinary '#' (dirName s.nowTest)
  | .mark => Sole (s.existing outside) s.nowTest
  | _ => True

instance (outside : Finset Str) (s : Session α) : Decidable (s.Addressed outside) := by
  unfold Addressed
  split <;> infer_instance

def NextAddressed (more : Str → Option (TextFile → TextFile)) (s t : Session α) : Prop :=
  s.pc ≠ .finished ∧ ∃ outside listing, listing.Perm s.scan ∧ s.Addressed outside ∧
    t = s.step more outside listing

/-- How far the pathname of the test has got, command by command. -/
def Aim (f : TextFile) (s : Session α) : Prop :=
  match s.pc with
  | .checkTests => s.haveTestsNum = (s.tree.find testName).length
  | .pickTest => s.tree.find testName ≠ []
  | .derivePath => s.nowTest ∈ s.tree.find testName
  | .configure => s.nowTest ∈ s.tree.find testName ∧
      s.nowTestPath = dirName s.nowTest ++ ['/'] ∧ Ordinary '#' (dirName s.nowTest)
  | .spawnTimer | .launch => s.nowTest ∈ s.tree.find testName ∧
      s.config.lines = setBaseDirs (pointedLine (dirName s.nowTest ++ ['/'])) f.lines
  | .running | .settle | .mark =>
      s.nowTest ∈ s.tree.find testName ∧ ∃ c older, s.log = .launched s.nowTest c :: older
  | _ => True

structure Pointing (f : TextFile) (s : Session α) : Prop where
  unbroken : s.pc.firstLoop = true → ∀ p ∈ s.tree.keys, Unbroken p
  config : ∀ new, setBaseDirs new s.config.lines = setBaseDirs new f.lines
  aim : s.Aim f
  lawful : Lawful (PointsAtMarked f) s.log

variable {more : Str → Option (TextFile → TextFile)} {f : TextFile} {s t : Session α}

theorem Pointing.test_of_mem_find (h : Pointing f s) (hloop : s.pc.firstLoop = true) {p : Str}
    (hp : p ∈ s.tree.find testName) :
    ∃ d c, p = testPath d ∧ Unbroken d ∧ (testPath d, .file c) ∈ s.tree.entries := by
  obtain ⟨⟨c, hmem⟩, hname⟩ := FileTree.mem_find.mp hp
  obtain ⟨d, rfl⟩ := hasName_testName.mp hname
  have hkey : testPath d ∈ s.tree.keys := FileTree.mem_keys_iff.mpr ⟨_, hmem⟩
  exact ⟨d, c, rfl, unbroken_testPath.mp (h.unbroken hloop _ hkey), hmem⟩

theorem Pointing.newline_notMem (h : Pointing f s) (hloop : s.pc.firstLoop = true) :
    ∀ p ∈ s.tree.find testName, newline ∉ p := fun p hp =>
  (h.unbroken hloop p (FileTree.mem_keys_of_mem_find hp)).newline_notMem

theorem Pointing.markArgs_eq (h : Pointing f s) (hpc : s.pc = .mark) {outside : Finset Str}
    (haddressed : s.Addressed outside) :
    markArgs (s.existing outside) s.nowTest = [s.nowTest, s.nowTest ++ done] := by
  have haim := h.aim
  simp only [Aim, hpc] at haim
  simp only [Addressed, hpc] at haddressed
  obtain ⟨d, c, hnow, hd, -⟩ := h.test_of_mem_find (by rw [hpc]; rfl) haim.1
  rw [hnow] at haddressed ⊢
  rw [markArgs_of_sole hd haddressed, testPath_done]

theorem Pointing.unbroken_next (h : Pointing f s) (hnext : NextAddressed more s t)
    (hloop : t.pc.firstLoop = true) : ∀ p ∈ t.tree.keys, Unbroken p := by
  obtain ⟨hfinished, outside, listing, -, haddressed, rfl⟩ := hnext
  have hs : s.pc.firstLoop = true := Pc.firstLoop_of_next hloop
  cases hpc : s.pc with
  | mark =>
      have haim := h.aim
      simp only [Aim, hpc] at haim
      obtain ⟨d, c, hnow, hd, hmem⟩ := h.test_of_mem_find hs haim.1
      intro p hp
      simp only [step, effect, hpc] at hp
      rw [h.markArgs_eq hpc haddressed, hnow] at hp
      rcases FileTree.mem_keys_mv_file hmem hp with hold | rfl | rfl
      · exact h.unbroken hs p hold
      · rw [testPath_done, unbroken_donePath]
        exact hd
      · rw [testPath_done, testPath, baseName_join (by decide)]
        exact unbroken_testPath.mpr (unbroken_donePath.mpr hd)
  | reset => simp [hpc, Pc.firstLoop] at hs
  | _ => simpa only [step, effect, hpc] using h.unbroken hs

theorem Pointing.config_next (h : Pointing f s) (hnext : NextAddressed more s t) (new : Str) :
    setBaseDirs new t.config.lines = setBaseDirs new f.lines := by
  obtain ⟨hfinished, outside, listing, -, -, rfl⟩ := hnext
  cases hpc : s.pc with
  | configure =>
      have haim := h.aim
      simp only [Aim, hpc] at haim
      obtain ⟨-, hpath, hordinary⟩ := haim
      have hD : Ordinary '#' (dirName s.nowTest ++ ['/']) := hordinary.append (by decide)
      simp only [step, effect, hpc, hpath]
      rw [rewriteConfig_posix more hD, setBaseDirs_pointedLine, h.config]
  | _ => simpa only [step, effect, hpc] using h.config new

theorem Pointing.aim_next (h : Pointing f s) (hnext : NextAddressed more s t) : t.Aim f := by
  obtain ⟨hfinished, outside, listing, hperm, haddressed, rfl⟩ := hnext
  have haim := h.aim
  cases hpc : s.pc with
  | countTests =>
      have hnewline := h.newline_notMem (by rw [hpc]; rfl)
      simp only [scan, hpc] at hperm
      simpa only [Aim, step, effect, hpc, Pc.next] using lineCount_of_perm hperm hnewline
  | checkTests =>
      simp only [Aim, hpc] at haim
      by_cases hfound : 0 < s.haveTestsNum
      · have hne : s.tree.find testName ≠ [] := List.ne_nil_of_length_pos (haim ▸ hfound)
        simpa [Aim, step, effect, found, hpc, Pc.next, hfound] using hne
      · simp [Aim, step, effect, found, hpc, Pc.next, hfound]
  | pickTest =>
      have hnewline := h.newline_notMem (by rw [hpc]; rfl)
      simp only [Aim, hpc] at haim
      simp only [scan, hpc] at hperm
      simpa only [Aim, step, effect, hpc, Pc.next] using headLine_of_perm hperm hnewline haim
  | derivePath =>
      simp only [Aim, hpc] at haim
      simp only [Addressed, hpc] at haddressed
      obtain ⟨hsole, hno, hordinary⟩ := haddressed
      obtain ⟨d, c, hnow, hd, -⟩ := h.test_of_mem_find (by rw [hpc]; rfl) haim
      simp only [Aim, step, effect, hpc, Pc.next]
      refine ⟨haim, ?_, hordinary⟩
      rw [hnow, dirName_testPath] at hno ⊢
      rw [hnow] at hsole
      exact nowTestPath_of_sole hd hsole hno
  | configure =>
      simp only [Aim, hpc] at haim
      obtain ⟨hfind, hpath, hordinary⟩ := haim
      have hD : Ordinary '#' (dirName s.nowTest ++ ['/']) := hordinary.append (by decide)
      simp only [Aim, step, effect, hpc, Pc.next]
      refine ⟨hfind, ?_⟩
      rw [hpath, rewriteConfig_posix more hD, h.config]
  | launch =>
      simp only [Aim, hpc] at haim
      simpa [Aim, step, effect, hpc, Pc.next] using haim.1
  | checkDone =>
      cases hfound : s.found <;> simp [Aim, step, hpc, Pc.next, hfound]
  | finished => exact absurd hpc hfinished
  | _ =>
      simp only [Aim, hpc] at haim
      simp [Aim, step, effect, hpc, Pc.next, haim]

theorem Pointing.lawful_next (h : Pointing f s) (hnext : NextAddressed more s t) :
    Lawful (PointsAtMarked f) t.log := by
  obtain ⟨hfinished, outside, listing, -, haddressed, rfl⟩ := hnext
  have haim := h.aim
  cases hpc : s.pc with
  | launch =>
      simp only [Aim, hpc] at haim
      simp only [step, effect, hpc, lawful_cons]
      exact ⟨⟨(FileTree.mem_find.mp haim.1).2, haim.2⟩, h.lawful⟩
  | mark =>
      simp only [Aim, hpc] at haim
      obtain ⟨-, c, older, hlog⟩ := haim
      simp only [step, effect, hpc, lawful_cons]
      refine ⟨?_, h.lawful⟩
      rw [hlog]
      exact h.markArgs_eq hpc haddressed
  | reset => simpa only [step, effect, hpc, lawful_cons] using ⟨trivial, h.lawful⟩
  | _ => simpa only [step, effect, hpc] using h.lawful

theorem Pointing.next (h : Pointing f s) (hnext : NextAddressed more s t) : Pointing f t :=
  ⟨h.unbroken_next hnext, h.config_next hnext, h.aim_next hnext, h.lawful_next hnext⟩

theorem reaches_steps_addressed (n : ℕ) (h : ∀ k < n, (steps more k s).Addressed ∅) :
    Relation.ReflTransGen (NextAddressed more) s (steps more n s) := by
  induction n generalizing s with
  | zero => exact .refl
  | succ n ih =>
      have hrest := ih fun k hk => h (k + 1) (by omega)
      by_cases hpc : s.pc = .finished
      · have hstep : s.step more ∅ s.scan = s := step_of_finished hpc
        rw [steps, hstep]
        rwa [hstep] at hrest
      · exact .head ⟨hpc, ∅, s.scan, List.Perm.refl _, h 0 (by omega), rfl⟩ hrest

end Session

/-- As long as the pathnames of the tests mean themselves, every launch finds
the directory of the test that is marked next. -/
theorem points_at_marked {more : Str → Option (TextFile → TextFile)} {T : FileTree α}
    {f : TextFile} {s : Session α} (hT : ∀ p ∈ T.keys, Unbroken p)
    (hrun : Relation.ReflTransGen (Session.NextAddressed more) { tree := T, config := f } s) :
    Lawful (PointsAtMarked f) s.log :=
  (preserved Session.Pointing.next hrun
    ⟨fun _ => hT, fun _ => rfl, trivial, trivial⟩ : s.Pointing f).lawful

def treeWithTest (name : Str) : FileTree ℕ where
  entries :=
    [("/k/../tests/".toList ++ name, .dir), (testPath ("/k/../tests/".toList ++ name), .file 1)]
  nodup := by
    simp [testPath, testName]

theorem points_at_marked_bracket :
    Lawful (PointsAtMarked hostFiles) (Session.steps (fun _ => none) 12
      { tree := treeWithTest "a[1]".toList, config := hostFiles }).log :=
  points_at_marked (T := treeWithTest "a[1]".toList) (by decide +kernel)
    (Session.reaches_steps_addressed 12 (by decide +kernel))

/-- For a directory named `dup&dup2`, `sed` writes the old line into the new one. -/
theorem points_at_marked_fails_at_ampersand :
    ¬ ∀ s, Relation.ReflTransGen (Session.Next fun _ => none)
        { tree := treeWithTest "dup&dup2".toList, config := hostFiles } s →
      Lawful (PointsAtMarked hostFiles) s.log := by
  intro h
  have hlog := h _ (Session.reaches_steps _ 7 _)
  revert hlog
  decide +kernel

end AutoTestKernel.StartTest
