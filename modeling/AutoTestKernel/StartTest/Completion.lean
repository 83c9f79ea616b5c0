import AutoTestKernel.StartTest.Tidy

/-!
# A session from beginning to end

Every rename takes exactly the file that was run out of the next scan, so the
first loop gets through the tests and the second through the marks.  A session
that begins without marks launches each test once and puts each back once.
-/

namespace AutoTestKernel.StartTest

open Text Fs Runs

variable {α : Type*}

def launches (log : List (Event α)) : List Str :=
  log.filterMap fun e => match e with
    | .launched p _ => some p
    | _ => none

def marks (log : List (Event α)) : List Str :=
  log.filterMap fun e => match e with
    | .marked (p :: _) => some p
    | _ => none

def resets (log : List (Event α)) : List (List Str) :=
  log.filterMap fun e => match e with
    | .reset args => some args
    | _ => none

namespace Session

variable {more : Str → Option (TextFile → TextFile)} {s t : Session α}

/-- The test that S2E has been launched on and that is not yet marked. -/
def inHand (s : Session α) : List Str := if s.pc.inRun then [s.nowTest] else []

/-- What the first loop has still to find; nothing once it is left. -/
def pending (s : Session α) : List Str :=
  if s.pc.firstLoop then s.tree.find testName else []

/-- A bound on the commands to come, by the tests and the marks there are. -/
def commandsLeft (tests dones : ℕ) : Pc → ℕ
  | .countTests => 30 * tests + 10 * dones + 19
  | .checkTests => 30 * tests + 10 * dones + 18
  | .pickTest => 30 * tests + 10 * dones + 17
  | .derivePath => 30 * tests + 10 * dones + 16
  | .configure => 30 * tests + 10 * dones + 15
  | .spawnTimer => 30 * tests + 10 * dones + 14
  | .launch => 30 * tests + 10 * dones + 13
  | .running => 30 * tests + 10 * dones + 12
  | .settle => 30 * tests + 10 * dones + 11
  | .mark => 30 * tests + 10 * dones + 10
  | .countDone => 10 * dones + 3
  | .checkDone => 10 * dones + 2
  | .pickDone => 10 * dones + 1
  | .reset => 10 * dones
  | .finished => 0

def rank (s : Session α) : ℕ :=
  commandsLeft (s.tree.find testName).length (s.tree.find doneName).length s.pc

theorem Coherent.rank_lt (h : Coherent s) (hnext : Next more s t) : t.rank < s.rank := by
  have hpc := hnext.pc_eq
  have hfinished := hnext.1
  unfold rank
  cases h.move hnext with
  | idle hother htree _ =>
      rw [hpc, htree]
      obtain ⟨-, hmark, hreset⟩ := hother
      cases hcase : s.pc with
      | checkTests =>
          rw [Pc.next]
          split <;> simp only [commandsLeft] <;> omega
      | checkDone =>
          rw [Pc.next]
          split <;> simp only [commandsLeft] <;> omega
      | mark => exact absurd hcase hmark
      | reset => exact absurd hcase hreset
      | finished => exact absurd hcase hfinished
      | _ => simp [Pc.next, commandsLeft]
  | launch hlaunch _ htree _ =>
      rw [hpc, htree, hlaunch]
      simp [Pc.next, commandsLeft]
  | mark hmark d c _ hmem htree _ =>
      obtain ⟨htests, hdones⟩ := h.tidy.find_mark hmem
      rw [hpc, htree, hmark, htests.length_eq, hdones.length_eq]
      simp only [Pc.next, commandsLeft, List.length_cons]
      omega
  | reset hreset d c _ hmem htree _ =>
      obtain ⟨hdones, htests⟩ := h.tidy.find_reset hmem
      rw [hpc, htree, hreset, htests.length_eq, hdones.length_eq]
      simp only [Pc.next, commandsLeft, List.length_cons]
      omega

theorem Coherent.terminates (h : Coherent s) : Terminates (Next more) s :=
  terminates_of_rank rank Coherent.next Coherent.rank_lt h

theorem exists_next (more : Str → Option (TextFile → TextFile)) (h : s.pc ≠ .finished) :
    ∃ t, s.Next more t :=
  ⟨_, h, ∅, s.scan, List.Perm.refl _, rfl⟩

theorem inHand_next (hnext : Next more s t) (hlaunch : s.pc ≠ .launch) (hmark : s.pc ≠ .mark) :
    t.inHand = s.inHand := by
  obtain ⟨hfinished, outside, listing, -, rfl⟩ := hnext
  cases hpc : s.pc with
  | launch => exact absurd hpc hlaunch
  | mark => exact absurd hpc hmark
  | checkTests => cases hfound : s.found <;> simp [inHand, step, hpc, hfound, Pc.next, Pc.inRun]
  | checkDone => cases hfound : s.found <;> simp [inHand, step, hpc, hfound, Pc.next, Pc.inRun]
  | _ => simp [inHand, step, effect, hpc, Pc.next, Pc.inRun]

theorem Coherent.pending_next (h : Coherent s) (hnext : Next more s t)
    (htree : t.tree = s.tree) : t.pending = s.pending := by
  have hloop := h.firstLoop_next hnext
  unfold pending
  rw [htree]
  by_cases hs : s.pc.firstLoop = true
  · rw [if_pos hs]
    split
    · rfl
    · next ht => exact ((hloop hs).resolve_left ht).symm
  · have ht : t.pc.firstLoop ≠ true := fun ht =>
      hs (Pc.firstLoop_of_next (hnext.pc_eq ▸ ht))
    rw [if_neg hs, if_neg ht]

structure Accounted (T : FileTree α) (s : Session α) : Prop where
  coherent : Coherent s
  tests : (marks s.log ++ s.pending).Perm (T.find testName)
  launched : launches s.log = s.inHand ++ marks s.log
  dones : (resets s.log ++ (s.tree.find doneName).map fun q => [q, unmark q]).Perm
    ((marks s.log).map fun p => [p ++ done, p])

variable {T : FileTree α}

theorem Accounted.tests_next (h : Accounted T s) (hnext : Next more s t) :
    (marks t.log ++ t.pending).Perm (T.find testName) := by
  have htests := h.tests
  cases h.coherent.move hnext with
  | idle _ htree hlog => rwa [h.coherent.pending_next hnext htree, hlog]
  | launch _ _ htree hlog => rwa [h.coherent.pending_next hnext htree, hlog]
  | mark hpc d c _ hmem htree hlog =>
      have hperm := (h.coherent.tidy.find_mark hmem).1
      simp only [pending, hpc, Pc.firstLoop, if_true] at htests
      simp only [pending, hnext.pc_eq, hpc, Pc.next, Pc.firstLoop, if_true, htree, hlog]
      exact (List.perm_middle.symm.trans (hperm.symm.append_left _)).trans htests
  | reset hpc _ _ _ _ _ hlog =>
      simp only [pending, hpc, Pc.firstLoop] at htests
      simp only [pending, hnext.pc_eq, hpc, Pc.next, Pc.firstLoop, hlog]
      exact htests

theorem Accounted.launched_next (h : Accounted T s) (hnext : Next more s t) :
    launches t.log = t.inHand ++ marks t.log := by
  have hlaunched := h.launched
  cases h.coherent.move hnext with
  | idle hother _ hlog => rwa [inHand_next hnext hother.1 hother.2.1, hlog]
  | launch hpc _ _ hlog =>
      have hnow := hnext.nowTest_eq (by simp [hpc]) (by simp [hpc])
      simp only [inHand, hpc, Pc.inRun] at hlaunched
      simp only [inHand, hnext.pc_eq, hpc, Pc.next, Pc.inRun, hnow, hlog]
      exact congrArg (s.nowTest :: ·) hlaunched
  | mark hpc d c hnow _ _ hlog =>
      simp only [inHand, hpc, Pc.inRun, hnow] at hlaunched
      simp only [inHand, hnext.pc_eq, hpc, Pc.next, Pc.inRun, hlog]
      exact hlaunched
  | reset hpc _ _ _ _ _ hlog =>
      rw [inHand_next hnext (by simp [hpc]) (by simp [hpc]), hlog]
      exact hlaunched

theorem Accounted.dones_next (h : Accounted T s) (hnext : Next more s t) :
    (resets t.log ++ (t.tree.find doneName).map fun q => [q, unmark q]).Perm
      ((marks t.log).map fun p => [p ++ done, p]) := by
  have hdones := h.dones
  cases h.coherent.move hnext with
  | idle _ htree hlog => rwa [htree, hlog]
  | launch _ _ htree hlog =>
      rw [htree, hlog]
      exact hdones
  | mark _ d c _ hmem htree hlog =>
      have hperm := (h.coherent.tidy.find_mark hmem).2.map fun q => [q, unmark q]
      simp only [List.map_cons, unmark_donePath] at hperm
      have hmarks : (marks t.log).map (fun p => [p ++ done, p]) =
          [donePath d, testPath d] :: (marks s.log).map fun p => [p ++ done, p] := by
        rw [hlog, ← testPath_done]
        rfl
      rw [hmarks, htree, hlog]
      exact ((hperm.append_left _).trans List.perm_middle).trans (hdones.cons _)
  | reset _ d c _ hmem htree hlog =>
      have hperm := (h.coherent.tidy.find_reset hmem).1.map fun q => [q, unmark q]
      simp only [List.map_cons, unmark_donePath] at hperm
      rw [htree, hlog]
      exact (List.perm_middle.symm.trans (hperm.symm.append_left _)).trans hdones

theorem Accounted.next (h : Accounted T s) (hnext : Next more s t) : Accounted T t :=
  ⟨h.coherent.next hnext, h.tests_next hnext, h.launched_next hnext, h.dones_next hnext⟩

end Session

def nestedTree : FileTree ℕ where
  entries :=
    [("/k/../tests".toList, .dir), ("/k/../tests/test".toList, .dir),
      ("/k/../tests/test/test".toList, .file 1), ("/k/../tests/test/b".toList, .dir),
      ("/k/../tests/test/b/test".toList, .file 2)]
  nodup := by decide +kernel

end AutoTestKernel.StartTest
