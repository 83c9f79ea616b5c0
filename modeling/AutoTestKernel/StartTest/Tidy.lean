import AutoTestKernel.Library.Runs
import AutoTestKernel.StartTest.Session

/-!
# Sessions on a workable tree

On a workable tree each `mv` of the loops renames exactly the file that was
found.  In a tidy tree, moreover, a directory has its test under one of the two
names only; there nothing is overwritten, and a tidy tree stays tidy.
-/

namespace AutoTestKernel.StartTest

open Text Shell Fs

variable {α : Type*}

structure Workable (t : FileTree α) : Prop where
  safe : ∀ d, testPath d ∈ t.keys ∨ donePath d ∈ t.keys → SafeDirectory d
  done_file : ∀ d n, (donePath d, n) ∈ t.entries → n.isFile = true
  test_file : ∀ d n, (testPath d, n) ∈ t.entries → donePath d ∈ t.keys → n.isFile = true

structure Tidy (t : FileTree α) : Prop extends Workable t where
  apart : ∀ d, testPath d ∈ t.keys → donePath d ∉ t.keys

theorem Tidy.of_apart {t : FileTree α}
    (hsafe : ∀ d, testPath d ∈ t.keys ∨ donePath d ∈ t.keys → SafeDirectory d)
    (hdone : ∀ d n, (donePath d, n) ∈ t.entries → n.isFile = true)
    (hapart : ∀ d, testPath d ∈ t.keys → donePath d ∉ t.keys) : Tidy t where
  safe := hsafe
  done_file := hdone
  test_file d n hn hd := absurd hd (hapart d (FileTree.mem_keys_iff.mpr ⟨n, hn⟩))
  apart := hapart

namespace Workable

variable {t : FileTree α} {p : Str}

theorem test_of_mem_find (h : Workable t) (hp : p ∈ t.find testName) :
    ∃ d c, p = testPath d ∧ SafeDirectory d ∧ (testPath d, .file c) ∈ t.entries := by
  obtain ⟨⟨c, hmem⟩, hname⟩ := FileTree.mem_find.mp hp
  obtain ⟨d, rfl⟩ := hasName_testName.mp hname
  exact ⟨d, c, rfl, h.safe d (Or.inl (FileTree.mem_keys_iff.mpr ⟨_, hmem⟩)), hmem⟩

theorem done_of_mem_find (h : Workable t) (hp : p ∈ t.find doneName) :
    ∃ d c, p = donePath d ∧ SafeDirectory d ∧ (donePath d, .file c) ∈ t.entries := by
  obtain ⟨⟨c, hmem⟩, hname⟩ := FileTree.mem_find.mp hp
  obtain ⟨d, rfl⟩ := hasName_doneName.mp hname
  exact ⟨d, c, rfl, h.safe d (Or.inr (FileTree.mem_keys_iff.mpr ⟨_, hmem⟩)), hmem⟩

theorem newline_notMem_of_test (h : Workable t) : ∀ p ∈ t.find testName, newline ∉ p := by
  intro p hp
  obtain ⟨d, c, rfl, hd, -⟩ := h.test_of_mem_find hp
  exact (unbroken_testPath.mpr hd.unbroken).newline_notMem

theorem newline_notMem_of_done (h : Workable t) : ∀ p ∈ t.find doneName, newline ∉ p := by
  intro p hp
  obtain ⟨d, c, rfl, hd, -⟩ := h.done_of_mem_find hp
  exact (unbroken_donePath.mpr hd.unbroken).newline_notMem

theorem isDir_donePath (h : Workable t) (d : Str) : t.isDir (donePath d) = false :=
  Bool.eq_false_iff.mpr fun hdir =>
    absurd (h.done_file d _ (FileTree.isDir_iff.mp hdir)) (by simp [Node.isFile])

theorem isDir_testPath (h : Workable t) {d : Str} (hd : donePath d ∈ t.keys) :
    t.isDir (testPath d) = false :=
  Bool.eq_false_iff.mpr fun hdir =>
    absurd (h.test_file d _ (FileTree.isDir_iff.mp hdir) hd) (by simp [Node.isFile])

end Workable

inductive Renames (d : Str) : Str → Str → Prop
  | mark : Renames d (testPath d) (donePath d)
  | reset : Renames d (donePath d) (testPath d)

section Renames

variable {t : FileTree α} {d p src dst : Str} {c : α}

theorem Renames.ne (hr : Renames d src dst) : src ≠ dst := by
  cases hr with
  | mark => exact testPath_ne_donePath d d
  | reset => exact donePath_ne_testPath d d

theorem Renames.unmark_relabel (hr : Renames d src dst) (k : Str) :
    unmark (FileTree.relabel src dst k) = unmark k := by
  unfold FileTree.relabel
  split
  · next hk =>
      cases hr with
      | mark => rw [hk, unmark_donePath, unmark_testPath]
      | reset => rw [hk, unmark_donePath, unmark_testPath]
  · rfl

theorem Renames.mem_keys_of_ne (hr : Renames d src dst) (hsrc : src ∈ t.keys) {d' : Str}
    (hd : d' ≠ d) : (testPath d' ∈ (t.moveFile src dst).keys ↔ testPath d' ∈ t.keys) ∧
      (donePath d' ∈ (t.moveFile src dst).keys ↔ donePath d' ∈ t.keys) := by
  rw [FileTree.mem_keys_moveFile hr.ne hsrc, FileTree.mem_keys_moveFile hr.ne hsrc]
  cases hr with
  | mark => simp [hd]
  | reset => simp [hd]

theorem Workable.moveFile (h : Workable t) (hr : Renames d src dst)
    (hmem : (src, .file c) ∈ t.entries) : Workable (t.moveFile src dst) := by
  have hsrc : src ∈ t.keys := FileTree.mem_keys_iff.mpr ⟨_, hmem⟩
  constructor
  · intro d' hd'
    by_cases hd : d' = d
    · cases hr with
      | mark => exact hd ▸ h.safe d (Or.inl hsrc)
      | reset => exact hd ▸ h.safe d (Or.inr hsrc)
    · obtain ⟨htest, hdone⟩ := hr.mem_keys_of_ne hsrc hd
      rw [htest, hdone] at hd'
      exact h.safe d' hd'
  · intro d' n hn
    rcases (FileTree.mem_moveFile hr.ne).mp hn with ⟨-, hn⟩ | ⟨-, -, hn⟩
    · rw [FileTree.entry_unique hn hmem]
      rfl
    · exact h.done_file d' n hn
  · intro d' n hn hdone
    rcases (FileTree.mem_moveFile hr.ne).mp hn with ⟨-, hn⟩ | ⟨hdst, hsrc', hn⟩
    · rw [FileTree.entry_unique hn hmem]
      rfl
    · by_cases hd : d' = d
      · cases hr with
        | mark => exact absurd (congrArg testPath hd) hsrc'
        | reset => exact absurd (congrArg testPath hd) hdst
      · exact h.test_file d' n hn ((hr.mem_keys_of_ne hsrc hd).2.mp hdone)

namespace Tidy

theorem dst_notMem (h : Tidy t) (hr : Renames d src dst) (hsrc : src ∈ t.keys) :
    dst ∉ t.keys := by
  cases hr with
  | mark => exact h.apart d hsrc
  | reset => exact fun htest => h.apart d htest hsrc

theorem unmarked_moveFile (h : Tidy t) (hr : Renames d src dst) (hsrc : src ∈ t.keys) :
    (t.moveFile src dst).entries.map (fun e => (unmark e.1, e.2)) =
      t.entries.map fun e => (unmark e.1, e.2) := by
  rw [FileTree.moveFile_entries (h.dst_notMem hr hsrc), List.map_map]
  exact List.map_congr_left fun e _ => Prod.ext (hr.unmark_relabel e.1) rfl

theorem moveFile (h : Tidy t) (hr : Renames d src dst) (hmem : (src, .file c) ∈ t.entries) :
    Tidy (t.moveFile src dst) := by
  have hsrc : src ∈ t.keys := FileTree.mem_keys_iff.mpr ⟨_, hmem⟩
  have hgone : src ∉ (t.moveFile src dst).keys := by
    simp [FileTree.mem_keys_moveFile hr.ne hsrc, hr.ne]
  refine ⟨h.toWorkable.moveFile hr hmem, fun d' hd' => ?_⟩
  by_cases hd : d' = d
  · cases hr with
    | mark => exact absurd (hd ▸ hd') hgone
    | reset => exact hd ▸ hgone
  · obtain ⟨htest, hdone⟩ := hr.mem_keys_of_ne hsrc hd
    rw [htest] at hd'
    rw [hdone]
    exact h.apart d' hd'

/-! ## What the scans find -/

theorem find_mark (h : Tidy t) (hmem : (testPath d, .file c) ∈ t.entries) :
    (t.find testName).Perm
        (testPath d :: (t.moveFile (testPath d) (donePath d)).find testName) ∧
      ((t.moveFile (testPath d) (donePath d)).find doneName).Perm
        (donePath d :: t.find doneName) := by
  have hkey : testPath d ∈ t.keys := FileTree.mem_keys_iff.mpr ⟨_, hmem⟩
  have hfind : testPath d ∈ t.find testName :=
    FileTree.mem_find.mpr ⟨⟨c, hmem⟩, hasName_testName_testPath d⟩
  have hdst := h.apart d hkey
  exact ⟨FileTree.find_perm_of_moveFile_src hfind hdst (by simp),
    FileTree.find_perm_of_moveFile_dst hmem hdst (by simp) (by simp)⟩

theorem find_reset (h : Tidy t) (hmem : (donePath d, .file c) ∈ t.entries) :
    (t.find doneName).Perm
        (donePath d :: (t.moveFile (donePath d) (testPath d)).find doneName) ∧
      ((t.moveFile (donePath d) (testPath d)).find testName).Perm
        (testPath d :: t.find testName) := by
  have hkey : donePath d ∈ t.keys := FileTree.mem_keys_iff.mpr ⟨_, hmem⟩
  have hfind : donePath d ∈ t.find doneName :=
    FileTree.mem_find.mpr ⟨⟨c, hmem⟩, hasName_doneName_donePath d⟩
  have hdst := h.dst_notMem .reset hkey
  exact ⟨FileTree.find_perm_of_moveFile_src hfind hdst (by simp),
    FileTree.find_perm_of_moveFile_dst hmem hdst (by simp) (by simp)⟩

end Tidy

end Renames

/-! ## What a session knows -/

namespace Session

/-- What the variables say about the tree, command by command. -/
def Ready (s : Session α) : Prop :=
  match s.pc with
  | .countTests | .countDone => True
  | .checkTests => 0 < s.haveTestsNum → s.tree.find testName ≠ []
  | .pickTest => s.tree.find testName ≠ []
  | .derivePath | .configure | .spawnTimer | .launch | .running | .settle | .mark =>
      s.nowTest ∈ s.tree.find testName
  | .checkDone => s.doneTestsNum = (s.tree.find doneName).length
  | .pickDone => s.tree.find doneName ≠ []
  | .reset => s.nowTest ∈ s.tree.find doneName
  | .finished => s.tree.find doneName = []

structure Orderly (s : Session α) : Prop where
  workable : Workable s.tree
  ready : s.Ready

structure Coherent (s : Session α) : Prop where
  tidy : Tidy s.tree
  ready : s.Ready
  counted : s.pc = .checkTests → s.haveTestsNum = (s.tree.find testName).length
  launched : s.pc.inRun = true → ∃ c older, s.log = .launched s.nowTest c :: older

theorem Coherent.orderly {s : Session α} (h : Coherent s) : Orderly s :=
  ⟨h.tidy.toWorkable, h.ready⟩

inductive Move (s t : Session α) : Prop
  | idle (hpc : s.pc ≠ .launch ∧ s.pc ≠ .mark ∧ s.pc ≠ .reset) (htree : t.tree = s.tree)
      (hlog : t.log = s.log)
  | launch (hpc : s.pc = .launch) (hnow : s.nowTest ∈ s.tree.find testName)
      (htree : t.tree = s.tree) (hlog : t.log = .launched s.nowTest s.config :: s.log)
  | mark (hpc : s.pc = .mark) (d : Str) (c : α) (hnow : s.nowTest = testPath d)
      (hmem : (testPath d, .file c) ∈ s.tree.entries)
      (htree : t.tree = s.tree.moveFile (testPath d) (donePath d))
      (hlog : t.log = .marked [testPath d, donePath d] :: s.log)
  | reset (hpc : s.pc = .reset) (d : Str) (c : α) (hnow : s.nowTest = donePath d)
      (hmem : (donePath d, .file c) ∈ s.tree.entries)
      (htree : t.tree = s.tree.moveFile (donePath d) (testPath d))
      (hlog : t.log = .reset [donePath d, testPath d] :: s.log)

variable {more : Str → Option (TextFile → TextFile)} {s t : Session α}

theorem Next.pc_eq (h : Next more s t) : t.pc = s.pc.next s.found := by
  obtain ⟨-, outside, listing, -, rfl⟩ := h
  rfl

theorem Next.nowTest_eq (hnext : Next more s t) (htest : s.pc ≠ .pickTest)
    (hdone : s.pc ≠ .pickDone) : t.nowTest = s.nowTest := by
  obtain ⟨-, outside, listing, -, rfl⟩ := hnext
  cases hpc : s.pc with
  | pickTest => exact absurd hpc htest
  | pickDone => exact absurd hpc hdone
  | _ => simp only [step, effect, hpc]

theorem Move.mem_log (h : Move s t) {e : Event α} (he : e ∈ s.log) : e ∈ t.log := by
  cases h with
  | idle _ _ hlog => exact hlog ▸ he
  | launch _ _ _ hlog => exact hlog ▸ List.mem_cons_of_mem _ he
  | mark _ _ _ _ _ _ hlog => exact hlog ▸ List.mem_cons_of_mem _ he
  | reset _ _ _ _ _ _ hlog => exact hlog ▸ List.mem_cons_of_mem _ he

/-- Only tests and marks are renamed. -/
theorem Move.sameOn (h : Move s t) :
    FileTree.SameOn (fun p => hasName testName p = false ∧ hasName doneName p = false)
      s.tree t.tree := by
  have hmoved : ∀ {d src dst}, Renames d src dst → t.tree = s.tree.moveFile src dst →
      FileTree.SameOn (fun p => hasName testName p = false ∧ hasName doneName p = false)
        s.tree t.tree := by
    rintro d src dst hr htree q n ⟨htest, hdone⟩
    have hne : q ≠ testPath d ∧ q ≠ donePath d :=
      ⟨by rintro rfl; simp at htest, by rintro rfl; simp at hdone⟩
    rw [htree, FileTree.mem_moveFile hr.ne]
    cases hr with
    | mark => simp [hne]
    | reset => simp [hne]
  cases h with
  | idle _ htree _ => exact htree ▸ FileTree.SameOn.refl _
  | launch _ _ htree _ => exact htree ▸ FileTree.SameOn.refl _
  | mark _ d _ _ _ htree _ => exact hmoved (.mark (d := d)) htree
  | reset _ d _ _ _ htree _ => exact hmoved (.reset (d := d)) htree

theorem Orderly.move (h : Orderly s) (hnext : Next more s t) : Move s t := by
  obtain ⟨hfinished, outside, listing, -, rfl⟩ := hnext
  obtain ⟨hwork, hready⟩ := h
  cases hpc : s.pc with
  | launch =>
      refine .launch hpc ?_ ?_ ?_
      · simpa only [Ready, hpc] using hready
      · simp only [step, effect, hpc]
      · simp only [step, effect, hpc]
  | mark =>
      simp only [Ready, hpc] at hready
      obtain ⟨d, c, hnow, hsafe, hmem⟩ := hwork.test_of_mem_find hready
      have hdir := hwork.isDir_donePath d
      refine .mark hpc d c hnow hmem ?_ ?_
      · simp only [step, effect, hpc, hnow, hsafe.mv_markArgs hmem hdir]
      · simp only [step, effect, hpc, hnow, hsafe.markArgs_eq]
  | reset =>
      simp only [Ready, hpc] at hready
      obtain ⟨d, c, hnow, hsafe, hmem⟩ := hwork.done_of_mem_find hready
      have hdir := hwork.isDir_testPath (FileTree.mem_keys_iff.mpr ⟨_, hmem⟩)
      refine .reset hpc d c hnow hmem ?_ ?_
      · simp only [step, effect, hpc, hnow, hsafe.mv_resetArgs hmem hdir]
      · simp only [step, effect, hpc, hnow, hsafe.resetArgs_eq]
  | _ =>
      refine .idle (by simp [hpc]) ?_ ?_
      · simp only [step, effect, hpc]
      · simp only [step, effect, hpc]

theorem Orderly.workable_next (h : Orderly s) (hnext : Next more s t) : Workable t.tree := by
  cases h.move hnext with
  | idle _ htree _ => exact htree ▸ h.workable
  | launch _ _ htree _ => exact htree ▸ h.workable
  | mark _ _ _ _ hmem htree _ => exact htree ▸ h.workable.moveFile .mark hmem
  | reset _ _ _ _ hmem htree _ => exact htree ▸ h.workable.moveFile .reset hmem

theorem Orderly.ready_next (h : Orderly s) (hnext : Next more s t) : t.Ready := by
  obtain ⟨hfinished, outside, listing, hperm, rfl⟩ := hnext
  obtain ⟨hwork, hready⟩ := h
  have htests := hwork.newline_notMem_of_test
  have hdones := hwork.newline_notMem_of_done
  cases hpc : s.pc with
  | countTests =>
      simp only [scan, hpc] at hperm
      simp only [Ready, step, effect, hpc, Pc.next]
      rw [lineCount_of_perm hperm htests]
      exact List.ne_nil_of_length_pos
  | checkTests =>
      simp only [Ready, hpc] at hready
      by_cases hfound : 0 < s.haveTestsNum
      · simpa [Ready, step, effect, found, hpc, Pc.next, hfound] using hready hfound
      · simp [Ready, step, effect, found, hpc, Pc.next, hfound]
  | pickTest =>
      simp only [Ready, hpc] at hready
      simp only [scan, hpc] at hperm
      simpa only [Ready, step, effect, hpc, Pc.next] using headLine_of_perm hperm htests hready
  | countDone =>
      simp only [scan, hpc] at hperm
      simpa only [Ready, step, effect, hpc, Pc.next] using lineCount_of_perm hperm hdones
  | checkDone =>
      simp only [Ready, hpc] at hready
      by_cases hfound : 0 < s.doneTestsNum
      · have hne : s.tree.find doneName ≠ [] := List.ne_nil_of_length_pos (hready ▸ hfound)
        simpa [Ready, step, effect, found, hpc, Pc.next, hfound] using hne
      · have hnil : s.tree.find doneName = [] := List.eq_nil_of_length_eq_zero (by omega)
        simpa [Ready, step, effect, found, hpc, Pc.next, hfound] using hnil
  | pickDone =>
      simp only [Ready, hpc] at hready
      simp only [scan, hpc] at hperm
      simpa only [Ready, step, effect, hpc, Pc.next] using headLine_of_perm hperm hdones hready
  | mark => simp only [Ready, step, effect, hpc, Pc.next]
  | reset => simp only [Ready, step, effect, hpc, Pc.next]
  | finished => exact absurd hpc hfinished
  | _ =>
      -- the variables in question are not touched
      simp only [Ready, hpc] at hready
      simpa only [Ready, step, effect, hpc, Pc.next] using hready

theorem Orderly.next (h : Orderly s) (hnext : Next more s t) : Orderly t :=
  ⟨h.workable_next hnext, h.ready_next hnext⟩

theorem Coherent.move (h : Coherent s) (hnext : Next more s t) : Move s t :=
  h.orderly.move hnext

theorem Coherent.tidy_next (h : Coherent s) (hnext : Next more s t) : Tidy t.tree := by
  cases h.move hnext with
  | idle _ htree _ => exact htree ▸ h.tidy
  | launch _ _ htree _ => exact htree ▸ h.tidy
  | mark _ _ _ _ hmem htree _ => exact htree ▸ h.tidy.moveFile .mark hmem
  | reset _ _ _ _ hmem htree _ => exact htree ▸ h.tidy.moveFile .reset hmem

theorem Coherent.counted_next (h : Coherent s) (hnext : Next more s t)
    (ht : t.pc = .checkTests) : t.haveTestsNum = (t.tree.find testName).length := by
  obtain ⟨hfinished, outside, listing, hperm, rfl⟩ := hnext
  have hcount : s.pc = .countTests := Pc.eq_countTests_of_next ht
  simp only [scan, hcount] at hperm
  simpa only [step, effect, hcount] using
    lineCount_of_perm hperm h.tidy.newline_notMem_of_test

theorem Coherent.launched_next (h : Coherent s) (hnext : Next more s t)
    (ht : t.pc.inRun = true) : ∃ c older, t.log = .launched t.nowTest c :: older := by
  obtain ⟨hfinished, outside, listing, -, rfl⟩ := hnext
  rcases Pc.inRun_of_next ht with hpc | hpc | hpc
  · simp [step, effect, hpc]
  · simpa only [step, effect, hpc] using h.launched (by rw [hpc]; rfl)
  · simpa only [step, effect, hpc] using h.launched (by rw [hpc]; rfl)

theorem Coherent.next (h : Coherent s) (hnext : Next more s t) : Coherent t :=
  ⟨h.tidy_next hnext, h.orderly.ready_next hnext, h.counted_next hnext,
    h.launched_next hnext⟩

theorem Coherent.restart (h : Coherent s) : Coherent s.restart where
  tidy := h.tidy
  ready := trivial
  counted hpc := by simp [Session.restart] at hpc
  launched hpc := by simp [Session.restart, Pc.inRun] at hpc

/-- The first loop is left only when nothing is left to find. -/
theorem Coherent.firstLoop_next (h : Coherent s) (hnext : Next more s t)
    (hloop : s.pc.firstLoop = true) :
    t.pc.firstLoop = true ∨ s.tree.find testName = [] := by
  rw [hnext.pc_eq]
  cases hpc : s.pc with
  | checkTests =>
      by_cases hfound : 0 < s.haveTestsNum
      · simp [found, hpc, Pc.next, Pc.firstLoop, hfound]
      · have hcounted := h.counted hpc
        exact Or.inr (List.eq_nil_of_length_eq_zero (by omega))
  | _ => simp_all [Pc.next, Pc.firstLoop]

theorem coherent_start {T : FileTree α} (h : Tidy T) (config : TextFile) :
    Coherent { tree := T, config } where
  tidy := h
  ready := trivial
  counted hpc := by simp at hpc
  launched hpc := by simp [Pc.inRun] at hpc

end Session

end AutoTestKernel.StartTest
